import Mathlib

/-!
# Runs of a labelled machine

`runs step s ls` takes the steps of a partial step function one after another. What every step
preserves holds after every run (`Runs.invariant`), also when only the steps of a certain kind
preserve it and the run takes no others (`Runs.invariant_of`).
-/

namespace Wal.Lib

variable {σ L : Type} {step : σ → L → Option σ}

/-- The state after the steps `ls`, if each is possible. -/
def runs (step : σ → L → Option σ) (s : σ) (ls : List L) : Option σ := ls.foldlM step s

@[simp] theorem runs_nil (s : σ) : runs step s [] = some s := rfl

@[simp] theorem runs_cons (s : σ) (l : L) (ls : List L) :
    runs step s (l :: ls) = (step s l).bind fun s' => runs step s' ls := rfl

theorem runs_append (s : σ) (ls ls' : List L) :
    runs step s (ls ++ ls') = (runs step s ls).bind fun s' => runs step s' ls' := by
  induction ls generalizing s with
  | nil => rfl
  | cons l ls ih =>
    rw [List.cons_append, runs_cons, runs_cons]
    cases step s l with
    | none => rfl
    | some s' => exact ih s'

/-- A run all of whose steps, taken from the state they start in, are of a certain kind. -/
def RunsOf (step : σ → L → Option σ) (ok : σ → L → Prop) : σ → List L → σ → Prop
  | s, [], t => s = t
  | s, l :: ls, t => ok s l ∧ ∃ s', step s l = some s' ∧ RunsOf step ok s' ls t

/-- What the steps of a kind preserve, the runs of that kind preserve. -/
theorem RunsOf.invariant {ok : σ → L → Prop} {I : σ → Prop}
    (hstep : ∀ s l s', I s → ok s l → step s l = some s' → I s') :
    ∀ {s : σ} {ls : List L} {t : σ}, RunsOf step ok s ls t → I s → I t
  | _, [], _, rfl, h => h
  | s, l :: _, _, ⟨hok, s', hs, hr⟩, h => hr.invariant hstep (hstep s l s' h hok hs)

theorem RunsOf.mono {ok ok' : σ → L → Prop} (h : ∀ s l, ok s l → ok' s l) :
    ∀ {s : σ} {ls : List L} {t : σ}, RunsOf step ok s ls t → RunsOf step ok' s ls t
  | _, [], _, hr => hr
  | _, _ :: _, _, ⟨hok, s', hs, hr⟩ => ⟨h _ _ hok, s', hs, hr.mono h⟩

theorem RunsOf.append {ok : σ → L → Prop} {ls' : List L} {u : σ} :
    ∀ {s : σ} {ls : List L} {t : σ}, RunsOf step ok s ls t → RunsOf step ok t ls' u →
      RunsOf step ok s (ls ++ ls') u
  | _, [], _, rfl, h => h
  | _, _ :: _, _, ⟨hok, s', hs, hr⟩, h => ⟨hok, s', hs, hr.append h⟩

/-- Every step of a run is among its labels. -/
theorem RunsOf.along {ok : σ → L → Prop} :
    ∀ {s : σ} {ls : List L} {t : σ}, RunsOf step ok s ls t →
      RunsOf step (fun s l => ok s l ∧ l ∈ ls) s ls t
  | _, [], _, hr => hr
  | _, _ :: _, _, ⟨hok, s', hs, hr⟩ => ⟨⟨hok, List.mem_cons_self⟩, s', hs,
    hr.along.mono fun _ _ h => ⟨h.1, List.mem_cons_of_mem _ h.2⟩⟩

/-- What every step preserves that knows the steps before it. -/
theorem RunsOf.history {ok : σ → L → Prop} {I : List L → σ → Prop}
    (hstep : ∀ ls s l s', I ls s → ok s l → step s l = some s' → I (ls ++ [l]) s') {s t : σ}
    {ls : List L} (hr : RunsOf step ok s ls t) (h : I [] s) : I ls t := by
  have hgo : ∀ (ls past : List L) (s : σ), RunsOf step ok s ls t → I past s → I (past ++ ls) t := by
    intro ls
    induction ls with
    | nil =>
      intro past s hr h
      cases hr
      rwa [List.append_nil]
    | cons l ls ih =>
      intro past s hr h
      obtain ⟨hok, s', hs, hr⟩ := hr
      have hrest := ih (past ++ [l]) s' hr (hstep past s l s' h hok hs)
      rwa [List.append_assoc] at hrest
  exact hgo ls [] s hr h

theorem RunsOf.runs {ok : σ → L → Prop} :
    ∀ {s : σ} {ls : List L} {t : σ}, RunsOf step ok s ls t → runs step s ls = some t
  | _, [], _, h => congrArg some h
  | s, l :: ls, t, ⟨_, s', hs, hr⟩ => by rw [runs_cons, hs]; exact hr.runs

/-- A step function that refuses the steps of other kinds. -/
def guarded (ok : σ → L → Prop) [∀ s l, Decidable (ok s l)] (step : σ → L → Option σ) (s : σ)
    (l : L) :
    Option σ :=
  if ok s l then step s l else none

/-- Runs of a decidable kind can be computed. -/
theorem RunsOf.of_guarded {ok : σ → L → Prop} [∀ s l, Decidable (ok s l)] :
    ∀ {ls : List L} {s t : σ}, Lib.runs (guarded ok step) s ls = some t → RunsOf step ok s ls t
  | [], _, _, h => Option.some.inj h
  | l :: ls, s, t, h => by
    rw [runs_cons] at h
    obtain ⟨s', hs, hr⟩ := Option.bind_eq_some_iff.1 h
    unfold guarded at hs
    split at hs
    · exact ⟨‹_›, s', hs, of_guarded hr⟩
    · cases hs

theorem runs_invariant {I : σ → Prop} (hstep : ∀ s l s', I s → step s l = some s' → I s')
    {ls : List L} {s t : σ} (h : I s) (hr : runs step s ls = some t) : I t := by
  induction ls generalizing s with
  | nil =>
    cases hr
    exact h
  | cons l ls ih =>
    rw [runs_cons] at hr
    obtain ⟨s', hs, hr⟩ := Option.bind_eq_some_iff.1 hr
    exact ih (hstep s l s' h hs) hr

end Wal.Lib

import Mathlib

/-!
# Programs that keep a log

A postcondition calculus for programs of `EStateM ε σ` whose state holds a log that they only ever
extend. `Logs log m s Q`: run from `s`, the program `m` ends in a state whose log is that of `s`
followed by some entries, and its result, that state and those entries satisfy `Q`. The rules follow
the way a program is put together: `Logs.bind` for a sequence of two, `Logs.mono` to weaken the
postcondition.
-/

namespace Wal.Lib

variable {ε σ E α β : Type} (log : σ → List E)

/-- How a run ends: its result and the state it leaves. -/
def outcome (m : EStateM ε σ α) (s : σ) : Except ε α × σ :=
  match m.run s with
  | .ok a s' => (.ok a, s')
  | .error e s' => (.error e, s')

/-- **Postconditions of a logging program**, over its result, its final state and its new
entries. -/
def Logs (m : EStateM ε σ α) (s : σ) (Q : Except ε α → σ → List E → Prop) : Prop :=
  ∃ es, log (outcome m s).2 = log s ++ es ∧ Q (outcome m s).1 (outcome m s).2 es

variable {log} {m : EStateM ε σ α} {s : σ} {Q : Except ε α → σ → List E → Prop}

namespace Logs

theorem mono {R : Except ε α → σ → List E → Prop} (h : Logs log m s Q)
    (hQ : ∀ r s' es, Q r s' es → R r s' es) : Logs log m s R := by
  obtain ⟨es, hl, hq⟩ := h
  exact ⟨es, hl, hQ _ _ _ hq⟩

theorem pure {a : α} (h : Q (.ok a) s []) : Logs log (Pure.pure a : EStateM ε σ α) s Q :=
  ⟨[], (List.append_nil _).symm, h⟩

theorem throw {e : ε} (h : Q (.error e) s []) :
    Logs log (MonadExcept.throw e : EStateM ε σ α) s Q :=
  ⟨[], (List.append_nil _).symm, h⟩

theorem modify' {g : σ → σ} {l : List E} {Q : Except ε PUnit → σ → List E → Prop}
    (hl : log (g s) = log s ++ l) (h : Q (.ok ⟨⟩) (g s) l) :
    Logs log (modify g : EStateM ε σ PUnit) s Q :=
  ⟨l, hl, h⟩

/-- A sequence: what the second program logs comes after what the first did. -/
theorem bind {k : α → EStateM ε σ β} {R : Except ε β → σ → List E → Prop} (h : Logs log m s Q)
    (hok : ∀ a s' es, Q (.ok a) s' es → Logs log (k a) s' fun r s'' es' => R r s'' (es ++ es'))
    (herr : ∀ e s' es, Q (.error e) s' es → R (.error e) s' es) : Logs log (m >>= k) s R := by
  obtain ⟨es, hl, hq⟩ := h
  have hb : (m >>= k).run s = match m.run s with
    | .ok a s' => (k a).run s'
    | .error e s' => .error e s' := rfl
  rcases hm : m.run s with ⟨a, s'⟩ | ⟨e, s'⟩
  · simp only [outcome, hm] at hl hq
    obtain ⟨es', hl', hr⟩ := hok a s' es hq
    refine ⟨es ++ es', ?_, ?_⟩
    · simp only [outcome, hb, hm] at hl' ⊢
      rw [hl', hl, List.append_assoc]
    · simp only [outcome, hb, hm] at hr ⊢
      exact hr
  · simp only [outcome, hm] at hl hq
    refine ⟨es, ?_, ?_⟩
    · simp only [outcome, hb, hm]
      exact hl
    · simp only [outcome, hb, hm]
      exact herr e s' es hq

theorem get_bind {k : σ → EStateM ε σ β} {R : Except ε β → σ → List E → Prop}
    (h : Logs log (k s) s R) : Logs log (MonadState.get >>= k) s R := h

theorem set_bind {s' : σ} {k : PUnit → EStateM ε σ β} {R : Except ε β → σ → List E → Prop}
    (hl : log s' = log s) (h : Logs log (k ⟨⟩) s' R) :
    Logs log (MonadStateOf.set s' >>= k) s R := by
  obtain ⟨es, hl', hr⟩ := h
  exact ⟨es, hl'.trans (by rw [hl]), hr⟩

end Logs

end Wal.Lib

import Wal.Canonical
import Wal.Rotating

/-!
# Failed appends

An append whose encoding fails leaves the WAL as it is (`append_failing`). `unfailed` deletes these
calls from the labels of a run, each with the step in which it returns, and `runs_unfailed` compares
the two runs: at every point they are in the same state, but for the result of the last call.
-/

namespace Wal

open Lib

section
variable {A C Cb : Type} [Crc32fast] [Encode A] [Encode C]

/-- The encoding of the record fails. -/
def Fails (rec : WALRecord A C) : Bool :=
  match (encode rec).2 with
  | .ok _ => false
  | .error _ => true

/-- **An append whose encoding fails** takes no act and leaves the WAL as it is. -/
theorem append_failing {rec : WALRecord A C} (h : Fails rec) (w : ChunkedWal C) :
    ∃ e, (Op.append rec : Op A C Cb).run w = .done (.error (.io e), w) := by
  unfold Fails at h
  rcases he : (encode rec).2 with e | n
  · refine ⟨e, ?_⟩
    have happ := OpenChunk.appendRecord_error (o := w.open) he
    show (ClientM.bind (ChunkedWal.append rec) fun _ => ClientM.pure Ret.unit) w = _
    unfold ChunkedWal.append
    simp only [bind, ClientM.bind, ClientM.get, ClientM.set, Prog.bind, happ, ClientM.liftFault,
      ClientM.throw]
  · rw [he] at h
    cases h

end

/-! ## Two sessions -/

section
variable {A C Cb : Type}

/-- Another client, and another result of its last call. -/
def Session.clientOf (s : Session A C Cb) (c : Client A C Cb)
    (r : Option (Op A C Cb × Except Fault (Ret C))) :
    Session A C Cb :=
  { s with client := c, returned := r }

section
variable (s : Session A C Cb) (c : Client A C Cb) (r : Option (Op A C Cb × Except Fault (Ret C)))

/-! The worker does not look at the client. -/

theorem recvStep_clientOf : (s.clientOf c r).recvStep = s.recvStep.map (·.clientOf c r) := by
  unfold Session.recvStep Session.clientOf
  rcases s.worker <;> rcases s.queue <;> simp only [Option.map_some, Option.map_none]
  split <;> rfl

theorem collectStep_clientOf :
    (s.clientOf c r).collectStep = s.collectStep.map (·.clientOf c r) := by
  unfold Session.collectStep Session.clientOf
  rcases s.worker <;> rcases s.queue <;> simp only [Option.map_none]
  split <;> rfl

theorem execStep_clientOf (script : Script) :
    (s.clientOf c r).execStep script = (s.execStep script).map (·.clientOf c r) := by
  unfold Session.execStep Session.clientOf
  rcases s.worker <;> simp only [Option.map_none]
  split <;> rfl

theorem releaseAllStep_clientOf :
    System.releaseAllStep (s.clientOf c r) = (System.releaseAllStep s).map (·.clientOf c r) := by
  unfold System.releaseAllStep Session.clientOf
  rcases hw : s.worker with _ | _ | _ | ⟨_ | _⟩ | _ | _ | _ <;> rfl

theorem failStep_clientOf :
    System.failStep (s.clientOf c r) = (System.failStep s).map (·.clientOf c r) := by
  unfold System.failStep Session.clientOf
  rcases hw : s.worker <;> rfl

theorem dropReceiverStep_clientOf :
    System.dropReceiverStep (s.clientOf c r) =
      (System.dropReceiverStep s).map (·.clientOf c r) := by
  unfold System.dropReceiverStep Session.clientOf
  rcases hw : s.worker <;> rfl

end

theorem effectStep_clientOf (sys : System A C Cb) (s : Session A C Cb) (c : Client A C Cb)
    (r : Option (Op A C Cb × Except Fault (Ret C))) (sys' : System A C Cb) (hfs : sys'.fs = sys.fs)
    (hlog : sys'.log = sys.log) (hacked : sys'.acked = sys.acked)
    (hnot : sys'.notified = sys.notified) :
    sys'.effectStep (s.clientOf c r) = (sys.effectStep s).map fun u =>
      { u with session := u.session.map (·.clientOf c r) } := by
  unfold System.effectStep Session.clientOf
  rcases hw : s.worker with _ | _ | ⟨b, effects, stop, held⟩ | _ | _ | _ | _ <;> try rfl
  rcases effects with _ | ⟨e, effects⟩
  · simp [hfs, hlog, hacked, hnot]
  · simp only [hfs]
    rcases sys.fs.onEffect e with _ | fs
    · rfl
    · simp [hlog, hacked, hnot, System.ackedBy, Session.onEffect]

/-! The client does not look at its last result. -/

/-- The result of another call. -/
abbrev Session.forgets (s : Session A C Cb) (r : Option (Op A C Cb × Except Fault (Ret C))) :
    Session A C Cb :=
  s.clientOf s.client r

theorem sendStep_forgets (s : Session A C Cb) (r : Option (Op A C Cb × Except Fault (Ret C)))
    (mark : Nat) (op : Op A C Cb) (req : WorkerRequest C Cb)
    (k : IoResult → Prog (ClientAct A C Cb) IoResult (Except Fault (Ret C) × ChunkedWal C)) :
    (s.forgets r).sendStep mark op req k = (s.sendStep mark op req k).map (·.forgets r) := by
  have hrec : (s.forgets r).receiving = s.receiving := rfl
  unfold Session.sendStep
  simp only [hrec]
  unfold Session.forgets Session.clientOf
  rcases s.sending <;> simp only
  · split
    · rfl
    · split <;> rfl
  · split
    · rfl
    · split <;> rfl
  · split <;> rfl

theorem clientStep_forgets {sys sys' : System A C Cb} {s : Session A C Cb} {i : IoResult}
    (r : Option (Op A C Cb × Except Fault (Ret C))) (hstep : sys.clientStep s i = some sys') :
    ∃ r', System.clientStep { sys with session := some (s.forgets r) } (s.forgets r) i =
      some { sys' with session := sys'.session.map (·.forgets r') } := by
  unfold System.clientStep at hstep ⊢
  simp only [show (s.forgets r).client = s.client from rfl]
  rcases hc : s.client with w | ⟨op, ⟨res, w⟩ | ⟨a, k⟩⟩ | _ <;> rw [hc] at hstep <;>
    simp only at hstep ⊢
  · cases hstep
  · cases hstep
    exact ⟨some (op, res), rfl⟩
  · refine ⟨r, ?_⟩
    cases a with
    | send req =>
      obtain ⟨s', hs', rfl⟩ := Option.map_eq_some_iff.1 hstep
      show Option.map _ ((s.forgets r).sendStep sys.log.length op req k) = _
      rw [sendStep_forgets, hs']
      rfl
    | createNew id =>
      rcases i with e | ⟨⟨⟩⟩
      · cases hstep
        rfl
      · simp only at hstep ⊢
        split at hstep <;> cases hstep
        · rw [if_pos ‹_›]
          rfl
        · rw [if_neg ‹_›]
          rfl
    | syncDir =>
      rcases i with e | ⟨⟨⟩⟩ <;> cases hstep <;> rfl
    | close =>
      cases hstep
      rfl
    | join =>
      simp only at hstep ⊢
      split at hstep <;> cases hstep
      rw [if_neg ‹_›]
      rfl
    | waitIdle =>
      obtain ⟨res, hres, rfl⟩ := Option.map_eq_some_iff.1 hstep
      show Option.map _ (s.waitFor s.sentSeq) = _
      rw [hres]
      rfl
    | note entry =>
      cases hstep
      rfl
  · cases hstep

end

/-! ## Two systems -/

section
variable {A C Cb : Type} [Crc32fast] [Encode A] [Decode A] [Encode C] [Decode C]

/-- A state of a run and the state of the run without its failing appends: the same, but for the
result of the last call. If a failing append has not returned yet, it has not been called there. -/
inductive System.Alike : Bool → System A C Cb → System A C Cb → Prop
  | same {t} (r) : Alike false t { t with session := t.session.map (·.forgets r) }
  | failing {t s op e w} (r) (hs : t.session = some s)
      (hc : s.client = .busy op (.done (.error (.io e), w))) :
      Alike true t { t with session := some (s.clientOf (.idle w) r) }

variable {sm : StateMachine A C}

/-- A call of `append` with a record whose encoding fails. -/
def Label.failing : Label Cb sm → Bool
  | .call (.append rec) => Fails rec
  | _ => false

/-- The labels without the failing calls and the steps in which they return; `mid` is said while one
has not returned. A crash ends the call. -/
def unfailed : Bool → List (Label Cb sm) → List (Label Cb sm)
  | _, [] => []
  | false, l :: ls => if l.failing then unfailed true ls else l :: unfailed false ls
  | true, l :: ls =>
    match l with
    | .client _ => unfailed false ls
    | .crash keep => .crash keep :: unfailed false ls
    | l => l :: unfailed true ls

section
variable {sys sys' : System A C Cb} {s : Session A C Cb} {l : Label Cb sm}

/-- The steps of the worker. -/
def Label.ofWorker : Label Cb sm → Bool
  | .recv | .collect | .exec _ | .effect | .releaseAll | .fail | .dropReceiver => true
  | _ => false

theorem step_clientOf (hl : l.ofWorker) (hs : sys.session = some s) (c : Client A C Cb)
    (r : Option (Op A C Cb × Except Fault (Ret C))) :
    System.step { sys with session := some (s.clientOf c r) } l = (sys.step l).map fun u =>
      { u with session := u.session.map (·.clientOf c r) } := by
  cases l with
  | recv => simp [System.step, hs, recvStep_clientOf, Option.map_map, Function.comp_def]
  | collect => simp [System.step, hs, collectStep_clientOf, Option.map_map, Function.comp_def]
  | exec => simp [System.step, hs, execStep_clientOf, Option.map_map, Function.comp_def]
  | effect =>
    simp only [System.step, hs]
    exact effectStep_clientOf sys s c r _ rfl rfl rfl rfl
  | releaseAll => simp [System.step, hs, releaseAllStep_clientOf, Option.map_map, Function.comp_def]
  | fail => simp [System.step, hs, failStep_clientOf, Option.map_map, Function.comp_def]
  | dropReceiver =>
    simp [System.step, hs, dropReceiverStep_clientOf, Option.map_map, Function.comp_def]
  | _ => cases hl

theorem step_client_eq (hl : l.ofWorker) (hs : sys.session = some s)
    (hstep : sys.step l = some sys') :
    ∃ s', sys'.session = some s' ∧ s'.client = s.client := by
  cases System.step_move hstep with
  | received hs' => cases hs.symm.trans hs'; exact ⟨_, rfl, rfl⟩
  | disconnected hs' => cases hs.symm.trans hs'; exact ⟨_, rfl, rfl⟩
  | collected hs' => cases hs.symm.trans hs'; exact ⟨_, rfl, rfl⟩
  | executed hs' => cases hs.symm.trans hs'; exact ⟨_, rfl, rfl⟩
  | effect hs' => cases hs.symm.trans hs'; exact ⟨_, rfl, rfl⟩
  | batchDone hs' => cases hs.symm.trans hs'; exact ⟨_, rfl, rfl⟩
  | batchStopped hs' => cases hs.symm.trans hs'; exact ⟨_, rfl, rfl⟩
  | releasedAll hs' => cases hs.symm.trans hs'; exact ⟨_, rfl, rfl⟩
  | releasedFailed hs' => cases hs.symm.trans hs'; exact ⟨_, rfl, rfl⟩
  | failed hs' => cases hs.symm.trans hs'; exact ⟨_, rfl, rfl⟩
  | receiverDropped hs' => cases hs.symm.trans hs'; exact ⟨_, rfl, rfl⟩
  | _ => cases hl

omit [Crc32fast] [Encode A] [Decode A] [Encode C] [Decode C] in
theorem forgets_self (sys : System A C Cb) :
    { sys with session := sys.session.map (·.forgets (sys.session.bind (·.returned))) } = sys := by
  rcases sys with ⟨fs, _ | s, log, acked, notified⟩ <;> rfl

/-- **One step of both**, while the client is in none of the failing calls. -/
theorem step_same (hstep : sys.step l = some sys') (r : Option (Op A C Cb × Except Fault (Ret C))) :
    ∃ r', System.step { sys with session := sys.session.map (·.forgets r) } l =
      some { sys' with session := sys'.session.map (·.forgets r') } := by
  rcases hs : sys.session with _ | s
  · have hsame : ({ sys with session := Option.map (Session.forgets · r) none } : System A C Cb)
      = sys := by
      rw [Option.map_none, ← hs]
    refine ⟨sys'.session.bind (·.returned), ?_⟩
    rw [hsame, hstep, forgets_self]
  · by_cases hl : l.ofWorker
    · refine ⟨r, ?_⟩
      obtain ⟨s', hs', hc⟩ := step_client_eq hl hs hstep
      rw [Option.map_some, step_clientOf hl hs, hstep, Option.map_some, hs']
      simp [Session.forgets, hc]
    cases l with
    | client i =>
      simp only [System.step, hs] at hstep
      exact clientStep_forgets r hstep
    | call op =>
      refine ⟨r, ?_⟩
      simp only [System.step, hs, Option.map_some, Option.map_eq_some_iff] at hstep ⊢
      obtain ⟨s', hcall, rfl⟩ := hstep
      refine ⟨s'.forgets r, ?_, rfl⟩
      unfold Session.call at hcall ⊢
      simp only [show (s.forgets r).client = s.client from rfl]
      rcases hc : s.client with w | _ | _ <;> rw [hc] at hcall <;> cases hcall
      rfl
    | crash keep =>
      refine ⟨r, ?_⟩
      simp only [System.step, Option.map_eq_some_iff] at hstep ⊢
      obtain ⟨fs, hfs, rfl⟩ := hstep
      exact ⟨fs, hfs, rfl⟩
    | drop =>
      refine ⟨r, ?_⟩
      simp only [System.step, hs, Option.map_some] at hstep ⊢
      simp only [show (s.forgets r).client = s.client from rfl, show (s.forgets r).worker =
        s.worker from rfl]
      rcases hc : s.client with w | _ | _ <;> rcases hw : s.worker <;> rw [hc, hw] at hstep <;>
        simp only at hstep ⊢ <;> try cases hstep
      split at hstep <;> cases hstep
      rw [if_neg ‹_›]
      rfl
    | «open» =>
      simp only [System.step, hs] at hstep
      cases hstep
    | openCrash =>
      simp only [System.step, hs] at hstep
      cases hstep
    | _ => exact absurd rfl hl

/-- **A step while a failing append has not returned**: it returns, the process dies, or the worker
goes on. -/
theorem step_failing {op : Op A C Cb} {e : IoError} {w : ChunkedWal C} (hs : sys.session = some s)
    (hc : s.client = .busy op (.done (.error (.io e), w))) (hstep : sys.step l = some sys')
    (r : Option (Op A C Cb × Except Fault (Ret C))) :
    (∃ i, l = .client i ∧
      System.Alike false sys' { sys with session := some (s.clientOf (.idle w) r) }) ∨
    (∃ keep, l = .crash keep ∧
      System.step { sys with session := some (s.clientOf (.idle w) r) } l = some sys' ∧
        sys'.session = none) ∨
    (l.ofWorker ∧
      ∃ t, System.step { sys with session := some (s.clientOf (.idle w) r) } l = some t ∧
      System.Alike true sys' t) := by
  by_cases hl : l.ofWorker
  · obtain ⟨s', hs', hc'⟩ := step_client_eq hl hs hstep
    refine .inr (.inr ⟨hl, _, ?_, .failing r hs' (hc'.trans hc)⟩)
    rw [step_clientOf hl hs, hstep, Option.map_some, hs']
    rfl
  cases l with
  | client i =>
    refine .inl ⟨i, rfl, ?_⟩
    simp only [System.step, hs, System.clientStep, hc] at hstep
    cases hstep
    exact .same r
  | crash keep =>
    refine .inr (.inl ⟨keep, rfl, ?_⟩)
    simp only [System.step, Option.map_eq_some_iff] at hstep ⊢
    obtain ⟨fs, hfs, rfl⟩ := hstep
    exact ⟨⟨fs, hfs, rfl⟩, rfl⟩
  | call op =>
    simp [System.step, hs, Session.call, hc] at hstep
  | drop =>
    simp [System.step, hs, hc] at hstep
  | «open» =>
    simp only [System.step, hs] at hstep
    cases hstep
  | openCrash =>
    simp only [System.step, hs] at hstep
    cases hstep
  | _ => exact absurd rfl hl

theorem step_call_failing (hl : l.failing) (hstep : sys.step l = some sys') :
    ∀ r, System.Alike true sys' { sys with session := sys.session.map (·.forgets r) } := by
  intro r
  cases l with
  | call op =>
    cases op with
    | append rec =>
      rcases hs : sys.session with _ | s
      · simp [System.step, hs] at hstep
      · simp only [System.step, hs, Option.map_eq_some_iff] at hstep
        obtain ⟨s', hcall, rfl⟩ := hstep
        unfold Session.call at hcall
        rcases hc : s.client with w | _ | _ <;> rw [hc] at hcall <;> cases hcall
        obtain ⟨e, hrun⟩ : ∃ e, (Op.append rec : Op A C Cb).run w = .done (.error (.io e), w) :=
          append_failing hl w
        let t := sys.withSession
          { s with client := .busy (.append rec) ((Op.append rec).run w), drained := s.drained }
        have : System.Alike true t _ := System.Alike.failing r rfl (congrArg _ hrun)
        rw [Option.map_some, Session.forgets, hc]
        exact this
    | _ => cases hl
  | _ => cases hl

/-! ## The runs -/

omit [Decode A] [Decode C] in
theorem unfailed_prefix (mid : Bool) (ls ls' : List (Label Cb sm)) :
    unfailed mid ls <+: unfailed mid (ls ++ ls') := by
  induction ls generalizing mid with
  | nil =>
    have : unfailed mid ([] : List (Label Cb sm)) = [] := by cases mid <;> rfl
    rw [this]
    exact List.nil_prefix
  | cons l ls ih =>
    rcases mid with _ | _
    · show (if l.failing then unfailed true ls else l :: unfailed false ls) <+:
        if l.failing then unfailed true (ls ++ ls') else l :: unfailed false (ls ++ ls')
      split
      · exact ih true
      · exact List.prefix_cons_inj _ |>.2 (ih false)
    · cases l with
      | client => exact ih false
      | crash => exact List.prefix_cons_inj _ |>.2 (ih false)
      | _ => exact List.prefix_cons_inj _ |>.2 (ih true)

omit [Decode A] [Decode C] in
theorem unfailed_worker {ls : List (Label Cb sm)} (hl : l.ofWorker) :
    unfailed true (l :: ls) = l :: unfailed true ls := by
  cases l <;> first | rfl | cases hl

/-- **Runs of both**, from states that are alike. -/
theorem System.Alike.runs {ls : List (Label Cb sm)} {mid : Bool} {t t' u : System A C Cb}
    (h : System.Alike mid t t') (hr : Lib.runs System.step t ls = some u) :
    ∃ mid' u', Lib.runs System.step t' (unfailed mid ls) = some u' ∧ System.Alike mid' u u' := by
  induction ls generalizing mid t t' with
  | nil =>
    cases hr
    refine ⟨mid, t', ?_, h⟩
    cases mid <;> rfl
  | cons l ls ih =>
    rw [runs_cons] at hr
    obtain ⟨v, hv, hrest⟩ := Option.bind_eq_some_iff.1 hr
    cases h with
    | same r =>
      by_cases hl : l.failing
      · have hun : unfailed false (l :: ls) = unfailed true ls := by
          show (if l.failing then unfailed true ls else l :: unfailed false ls) = _
          rw [if_pos hl]
        rw [hun]
        exact ih (step_call_failing hl hv r) hrest
      · have hun : unfailed false (l :: ls) = l :: unfailed false ls := by
          show (if l.failing then unfailed true ls else l :: unfailed false ls) = _
          rw [if_neg hl]
        obtain ⟨r', hstep⟩ := step_same hv r
        obtain ⟨mid', u', hu', hal⟩ := ih (.same r') hrest
        refine ⟨mid', u', ?_, hal⟩
        rw [hun, runs_cons, hstep]
        exact hu'
    | @failing _ s op e w r hs hc =>
      rcases step_failing hs hc hv r with ⟨i, rfl, hal⟩ | ⟨keep, rfl, hstep, hnone⟩ | ⟨hl, v',
        hstep, hal⟩
      · exact ih hal hrest
      · have hself := System.Alike.same (t := v) (v.session.bind (·.returned))
        rw [forgets_self] at hself
        obtain ⟨mid', u', hu', hal⟩ := ih hself hrest
        refine ⟨mid', u', ?_, hal⟩
        show Lib.runs System.step _ (.crash keep :: unfailed false ls) = _
        rw [runs_cons, hstep]
        exact hu'
      · obtain ⟨mid', u', hu', hal'⟩ := ih hal hrest
        refine ⟨mid', u', ?_, hal'⟩
        rw [unfailed_worker hl, runs_cons, hstep]
        exact hu'

end

/-- **A failed append is invisible**: without the failing appends a run is possible too, and at
every point the two are in the same state, but for the result of the last call. -/
theorem System.runs_unfailed {sys : System A C Cb} {ls : List (Label Cb sm)} {t : System A C Cb}
    (h : runs System.step sys ls = some t) (k : Nat) :
    ∃ mid u u', runs System.step sys (ls.take k) = some u ∧
      runs System.step sys (unfailed false (ls.take k)) = some u' ∧
      unfailed false (ls.take k) <+: unfailed false ls ∧ System.Alike mid u u' := by
  have hsplit := List.take_append_drop k ls
  have hprefix := unfailed_prefix false (ls.take k) (ls.drop k)
  rw [hsplit] at hprefix
  rw [← hsplit, runs_append] at h
  obtain ⟨u, hu, -⟩ := Option.bind_eq_some_iff.1 h
  have hself := System.Alike.same (t := sys) (sys.session.bind (·.returned))
  rw [forgets_self] at hself
  obtain ⟨mid, u', hu', hal⟩ := hself.runs hu
  exact ⟨mid, u, u', hu, hu', hprefix, hal⟩

end

/-! ## A reserved type id -/

namespace Quad

/-- Nothing is made of the records. -/
def machine : StateMachine Quad Register where
  State := Register
  apply st _ _ _ := .ok st
  checkpoint := id

/-- An action with the reserved type id between two others, and a flush. -/
def failingRun : List (Label Nat machine) :=
  [.open Register.config { value := 0 }, .call (.append (.action ⟨0, 0, 1, 7⟩)), .client (.ok ()),
    .client (.ok ()), .call (.append (.action ⟨0, 0, 0, 5⟩)), .client (.ok ()),
    .call (.append (.action ⟨0, 0, 1, 8⟩)), .client (.ok ()), .client (.ok ()),
    .call (.sendPending true none), .client (.ok ()), .client (.ok ()), .client (.ok ())]

theorem runs_unfailed_reserved : (unfailed false failingRun).length + 2 = failingRun.length ∧
    ∃ mid u u', runs System.step (System.fresh Quad Register Nat) failingRun = some u ∧
      runs System.step (System.fresh Quad Register Nat) (unfailed false failingRun) = some u' ∧
      System.Alike mid u u' := by
  have hsome : (runs System.step (System.fresh Quad Register Nat) failingRun).isSome = true := by
    decide +kernel
  obtain ⟨t, ht⟩ := Option.isSome_iff_exists.1 hsome
  obtain ⟨mid, u, u', hu, hu', -, hal⟩ := System.runs_unfailed ht failingRun.length
  rw [List.take_length] at hu hu'
  exact ⟨by decide, mid, u, u', hu, hu', hal⟩

end Quad

end Wal

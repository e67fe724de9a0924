import Wal.Enduring
import Wal.Lib.Durable

/-!
# A durable log

What is seen of the system from outside, the log and the acknowledged records, is a run of `Durable`
(`System.runs_refine`): records go to the end of the log, an answer to a durable write promises
those in front of it, a drained chunk that is passed on dismisses its records, and an opening is the
recovery. A crash is nothing at all.
-/

namespace Wal

open Lib

section
variable {A C : Type} [Crc32fast] [Encode A] [Decode A] [Encode C] [Decode C]
    {sm : StateMachine A C} {config : Config}
  {st : sm.State} {fs : Fs} {x : OpenState A C} {r : Except Fault (Opened sm)}

omit [Crc32fast] [Encode A] [Decode A] [Encode C] [Decode C] in
/-- The record is a checkpoint. -/
def IsCheckpoint (e : LogEntry A C) : Prop := ∃ c, e.1 = .checkpoint c

/-- An opening creates one record at most, the initial one of a new chunk. -/
theorem OpenRun.created_one (h : OpenRun config st (OpenState.init fs) r x) :
    x.created.length ≤ 1 ∧ ∀ e ∈ x.created, IsCheckpoint e := by
  have hnone : x.created = [] → x.created.length ≤ 1 ∧ ∀ e ∈ x.created, IsCheckpoint e :=
    fun hx => by
    rw [hx]
    exact ⟨Nat.zero_le _, fun e he => by cases he⟩
  cases h with
  | invalid => exact hnone rfl
  | untidy _ ht => exact hnone ht.created_eq
  | failed _ ht hr | reopened _ ht hr | blocked _ ht hr | unencoded _ ht hr =>
    exact hnone (hr.created_eq.trans ht.created_eq)
  | created =>
    refine ⟨Nat.le_refl _, fun e he => ?_⟩
    obtain rfl := List.mem_singleton.1 he
    exact ⟨_, rfl⟩

variable [WALRecord.LawfulAction A] [LawfulCodec C] {may : Nat → Prop}
    {log acked : List (LogEntry A C)}
  {old ps : List (Part A C)}

/-- **The initial record of a new chunk** is the last that an opening leaves. -/
theorem LogOnDisk.created_last (h : LogOnDisk may fs log acked old ps)
    (hrun : OpenRun config st (OpenState.init fs) r x) :
    ∀ v ∈ x.trail, v.created ≠ [] → v = x.toOpenView ∧ ∃ o, r = .ok o := by
  have hnone : ∀ {s' : OpenState A C},
      (OpenState.init fs).Through (fun fs => ∃ ps, LogOnDisk may fs log acked old ps) s' →
      ∀ v ∈ s'.trail, v.created = [] := fun hs v hv => by
    rcases hs.trail v hv with hv | ⟨-, hc⟩
    · cases hv
    · exact hc
  have hfile : ∀ {s' : OpenState A C} {id : Nat},
      (OpenState.init fs).Through (fun fs => ∃ ps, LogOnDisk may fs log acked old ps) s' →
      ∀ v ∈ (s'.createdFile id).trail, v.created = [] := by
    intro s' id hs v hv
    have hv : v ∈ (s'.trail ++ [(s'.noteFs (·.createNew id)).toOpenView]) ++
      [(s'.createdFile id).toOpenView] := hv
    rcases List.mem_append.1 hv with hv | hv
    · rcases List.mem_append.1 hv with hv | hv
      · exact hnone hs v hv
      · exact List.mem_singleton.1 hv ▸ hs.created
    · exact List.mem_singleton.1 hv ▸ hs.created
  cases hrun with
  | invalid => exact fun v hv => by cases hv
  | untidy _ ht => exact fun v hv hne => absurd (hnone (h.tidied ht) v hv) hne
  | failed _ ht hr | reopened _ ht hr | blocked _ ht hr =>
    exact fun v hv hne =>
      absurd (hnone ((h.tidied ht).trans (hr.passes (h.tidied ht).now)) v hv) hne
  | unencoded _ ht hr =>
    exact fun v hv hne =>
      absurd (hfile ((h.tidied ht).trans (hr.passes (h.tidied ht).now)) v hv) hne
  | @created k s₁ acc s₂ n _ ht hr =>
    intro v hv hne
    have hv : v ∈ (s₂.createdFile acc.end_).trail ++
        [(s₂.createdWith acc.end_ acc.head (enc acc.head) n).toOpenView] := hv
    rcases List.mem_append.1 hv with hv | hv
    · exact absurd (hfile ((h.tidied ht).trans (hr.passes (h.tidied ht).now)) v hv) hne
    · exact ⟨List.mem_singleton.1 hv, _, rfl⟩

end

namespace System

section
variable {A C Cb : Type} [Crc32fast] [Encode A] [Decode A] [Encode C] [Decode C]
    [WALRecord.LawfulAction A]
  [LawfulCodec C] {sm : StateMachine A C} {may : Nat → Prop}

/-- In an older chunk. -/
def Before (e f : LogEntry A C) : Prop := e.2.1 < f.2.1

/-- **What is seen of a system** after the steps `ls`. -/
def seen (ls : List (Label Cb sm)) (sys : System A C Cb) : Durable (LogEntry A C) where
  log := sys.log
  promised := sys.acked
  dismissed := { e | ∃ l ∈ ls, e.2.1 ∈ l.passed }

/-- **What a step of the system is** to the log. -/
def Shows (l : Label Cb sm) (d d' : Durable (LogEntry A C)) : Prop :=
  match l with
  | .client _ => d' = d ∨ ∃ e, d' = { d with log := d.log ++ [e] }
  | .effect => d' = d ∨ ∃ n, d' = { d with promised := d.promised ++ d.log.take n }
  | .call op => d' = { d with dismissed := d.dismissed ∪ { e | e.2.1 ∈ op.passed } }
  | .open .. | .openCrash .. => d' = d ∨ d.Recovers Before IsCheckpoint d'
  | _ => d' = d

omit [Crc32fast] [Encode A] [Decode A] [Encode C] [Decode C] [WALRecord.LawfulAction A]
  [LawfulCodec C] in
theorem Shows.step {l : Label Cb sm} {d d' : Durable (LogEntry A C)} (h : Shows l d d') :
    d' = d ∨ Durable.Step Before IsCheckpoint d d' := by
  cases l with
  | client =>
    refine h.imp_right fun h => ?_
    obtain ⟨e, rfl⟩ := h
    exact .append e
  | effect =>
    refine h.imp_right fun h => ?_
    obtain ⟨n, rfl⟩ := h
    exact .promise n
  | call op =>
    obtain rfl := h
    exact .inr (.dismiss _)
  | «open» | openCrash => exact h.imp_right .recover
  | _ => exact .inl h

omit [Crc32fast] [Encode A] [Decode A] [Encode C] [Decode C] [WALRecord.LawfulAction A]
  [LawfulCodec C] in
theorem ackedBy_take (log : List (LogEntry A C)) (s : Session A C Cb) (b : WriteBatch C Cb)
    (e : Effect C Cb) :
    ∃ n, ackedBy log s b e = log.take n := by
  unfold ackedBy
  split
  · split
    · split
      · exact ⟨_, rfl⟩
      · exact ⟨0, rfl⟩
    · exact ⟨0, rfl⟩
  · exact ⟨0, rfl⟩

omit [Crc32fast] [Encode A] [Decode A] [Encode C] [Decode C] [WALRecord.LawfulAction A]
  [LawfulCodec C] in
theorem seen_append (ls : List (Label Cb sm)) (l : Label Cb sm) (sys : System A C Cb) :
    seen (ls ++ [l]) sys =
      { seen ls sys with dismissed := (seen ls sys).dismissed ∪ { e | e.2.1 ∈ l.passed } } := by
  unfold seen
  congr 1
  ext e
  simp [or_and_right, exists_or]

omit [Crc32fast] [Encode A] [Decode A] [Encode C] [Decode C] [WALRecord.LawfulAction A]
  [LawfulCodec C] in
/-- Most steps dismiss nothing. -/
theorem seen_quiet (ls : List (Label Cb sm)) {l : Label Cb sm} (h : l.passed = [])
    (sys : System A C Cb) :
    seen (ls ++ [l]) sys = seen ls sys := by
  rw [seen_append, h]
  simp

theorem recovers_seen (hacc : sm.Accepts) {ls : List (Label Cb sm)} {sys : System A C Cb}
    (h : Enduring (fun id => ∃ l ∈ ls, id ∈ l.passed) sys) (hs : sys.session = none)
    {config : Config} {st : sm.State} {o : Opened sm} {x : OpenState A C}
    (hrun : OpenRun config st (OpenState.init sys.fs) (.ok o) x) :
    (seen ls sys).Recovers Before IsCheckpoint { seen ls sys with
      log := x.applied ++ x.created } := by
  obtain ⟨old, ps, hondisk⟩ := h.between hs
  obtain ⟨⟨revived, part, happ, hpart, hrevived⟩, hkept⟩ := hondisk.replays hacc hrun
  rw [happ] at hkept ⊢
  exact .intro hrevived hpart hrun.created_one hkept

/-- **A step of the system** is one of the log, or none. -/
theorem shows_step (hacc : sm.Accepts) {ls : List (Label Cb sm)} {sys sys' : System A C Cb}
    {l : Label Cb sm} (h : Enduring (fun id => ∃ l ∈ ls, id ∈ l.passed) sys)
    (hstep : step sys l = some sys') :
    Shows l (seen ls sys) (seen (ls ++ [l]) sys') := by
  cases step_move hstep with
  | @opened config st o x hs hopen =>
    obtain ⟨r, x', hrun, heq⟩ := openLocked_run config st (OpenState.init sys.fs)
    have := heq.symm.trans hopen
    rcases r with e | o'
    · cases this
    cases this
    rw [seen_quiet ls rfl]
    exact .inr (recovers_seen hacc h hs hrun)
  | @openCrashed config st k x v hs hopen hv =>
    obtain ⟨old, ps, hondisk⟩ := h.between hs
    obtain ⟨r, x', hrun, heq⟩ := openLocked_run config st (OpenState.init sys.fs)
    have hx : x' = x := by
      rcases hopen with ⟨o, ho⟩ | ⟨e, ho⟩
      all_goals
        have := heq.symm.trans ho
        rcases r with e | o' <;> cases this
        rfl
    subst hx
    rw [seen_quiet ls rfl]
    by_cases hc : v.created = []
    · rw [hc]
      exact .inl rfl
    · obtain ⟨rfl, o, rfl⟩ := hondisk.created_last hrun v (List.mem_of_getElem? hv) hc
      rw [if_neg (by simpa using hc)]
      exact .inr (recovers_seen hacc h hs hrun)
  | notOpened =>
    rw [seen_quiet ls rfl]
    exact .inl rfl
  | noted =>
    rw [seen_quiet ls rfl]
    exact .inr ⟨_, rfl⟩
  | @effect s b e effects stop held fs hs hw hf =>
    obtain ⟨n, hn⟩ := ackedBy_take sys.log s b e
    rw [seen_quiet ls rfl, hn]
    exact .inr ⟨n, rfl⟩
  | called => exact seen_append ls _ sys
  | finished | refused | acquired | enqueued | rejected | underflow | givenBack | notCreated
      | «exists» | created
  | notSynced | synced | closed | joined | waited | batchDone | batchStopped =>
    rw [seen_quiet ls rfl]
    exact .inl rfl
  | _ => exact seen_quiet ls rfl _

/-- **The system is a durable log**: what is seen of it in any run of a client that keeps the log is
what may happen to one, and every further step is one of the log, or none, as `Shows` says. So every
acknowledged record is in the log of the session, or in a chunk that the client asked to remove and
that is older than all of the log. -/
theorem runs_refine (hacc : sm.Accepts)
    (hck : ∀ st, Encodes (.checkpoint (sm.checkpoint st) : WALRecord A C)) (ls : List (Label Cb sm))
    (sys : System A C Cb) (hr : RunsOf step Careful (System.fresh A C Cb) ls sys) :
    Durable.Runs Before IsCheckpoint .empty (seen ls sys) ∧
    (∀ l sys', step sys l = some sys' → Shows l (seen ls sys) (seen (ls ++ [l]) sys')) ∧
    ∀ e ∈ sys.acked, e ∈ sys.log ∨
      (∃ l ∈ ls, e.2.1 ∈ l.passed) ∧ ∃ first ∈ sys.log.head?, e.2.1 < first.2.1 := by
  have hfresh : seen ([] : List (Label Cb sm)) (System.fresh A C Cb) = .empty := by
    unfold seen Durable.empty
    congr 1
    ext e
    simp
  have hall : RunsOf step Careful (System.fresh A C Cb) ls sys ∧
      Durable.Runs Before IsCheckpoint .empty (seen ls sys) := by
    refine hr.history (I := fun ls sys => RunsOf step Careful (System.fresh A C Cb) ls sys ∧
      Durable.Runs Before IsCheckpoint .empty (seen ls sys)) ?_ ⟨rfl, hfresh ▸ .refl⟩
    intro ls s l s' h hok hstep
    obtain ⟨hsofar, hruns⟩ := h
    refine ⟨hsofar.append ⟨hok, s', hstep, rfl⟩, ?_⟩
    rcases (shows_step hacc (runs_enduring hacc hck hsofar) hstep).step with heq | hnext
    · rwa [heq]
    · exact hruns.tail hnext
  exact ⟨hall.2, fun l sys' hstep => shows_step hacc (runs_enduring hacc hck hr) hstep, hall.2.kept⟩

end

/-! ## A log that comes back -/

open Register

/-- The next opening behind `cutRun`, with a live session. -/
def cutRunReopened : List Register.Step := cutRun ++ [.open Register.config { value := 9 }]

/-- Half a record is lost, and a removed chunk is back; its records and the one behind it are in the
log of the session. -/
theorem runs_refine_cut : ∃ sys : System Put Register Nat,
    runs step (System.fresh Put Register Nat) cutRunReopened = some sys ∧
      sys.session.isSome = true ∧
    sys.acked.map (fun e => e.2.2.offset) = [0, 13, 18] ∧ sys.log.map (fun e => e.2.2.offset) =
      [0, 13, 18] ∧
    Durable.Runs Before IsCheckpoint .empty (seen cutRunReopened sys) ∧
    (∀ l sys', step sys l = some sys' →
      Shows l (seen cutRunReopened sys) (seen (cutRunReopened ++ [l]) sys')) ∧
    ∀ e ∈ sys.acked, e.2.1 = 18 → e ∈ sys.log := by
  have h : ((runs (guarded Careful step) (System.fresh Put Register Nat)
    cutRunReopened).any fun sys =>
      decide (sys.session.isSome = true ∧ sys.acked.map (fun e => e.2.2.offset) = [0, 13, 18] ∧
        sys.log.map (fun e => e.2.2.offset) = [0, 13, 18])) = true := by decide +kernel
  obtain ⟨sys, hsys, h⟩ := (Option.any_eq_true _ _).1 h
  obtain ⟨hs, hacked, hlog⟩ := of_decide_eq_true h
  have hr := RunsOf.of_guarded hsys
  have hacc : machine.Accepts := fun st r id seg => by cases r <;> exact ⟨_, rfl⟩
  obtain ⟨hrefine, hshows, hkept⟩ := runs_refine hacc (fun _ => ⟨_, rfl⟩) cutRunReopened sys hr
  refine ⟨sys, hr.runs, hs, hacked, hlog, hrefine, hshows,
    fun e he hid => (hkept e he).resolve_right ?_⟩
  intro hgone
  obtain ⟨⟨l, hl, hp⟩, -⟩ := hgone
  have hnone : ∀ l ∈ cutRunReopened, 18 ∉ l.passed := by decide +kernel
  exact hnone l hl (hid ▸ hp)

end System

end Wal

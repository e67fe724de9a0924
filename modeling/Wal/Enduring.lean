import Wal.OpeningCrash
import Wal.Returning

/-!
# What outlives a crash

`Enduring` says of a system that its directory is `LogOnDisk`, or will be wherever the session is
cut off. Every step of a client that keeps the log preserves it (`enduring_step`), and `runs_endure`
is the result for every run, with any number of sessions and crashes.
-/

namespace Wal

open Lib

/-! ## Every run -/

namespace System

section
variable {A C Cb : Type} [Crc32fast] [Encode A] [Decode A] [Encode C] [Decode C]
    [WALRecord.LawfulAction A]
  [LawfulCodec C] {sm : StateMachine A C} {may : Nat → Prop}

/-- Between two sessions the directory keeps the log, and a session will leave such a directory. -/
structure Enduring (may : Nat → Prop) (sys : System A C Cb) : Prop where
  between : sys.session = none → ∃ old ps, LogOnDisk may sys.fs sys.log sys.acked old ps
  during : ∀ s ∈ sys.session, ∃ first g, KeepsLog may sys.fs sys.log sys.acked first s g

theorem Enduring.logOnDisk {sys : System A C Cb} (h : Enduring may sys) :
    ∃ old ps, LogOnDisk may sys.fs sys.log sys.acked old ps := by
  rcases hs : sys.session with _ | s
  · exact h.between hs
  · obtain ⟨first, g, hg⟩ := h.during s hs
    exact hg.kept

theorem enduring_step (hacc : sm.Accepts)
    (hck : ∀ st, Encodes (.checkpoint (sm.checkpoint st) : WALRecord A C))
    {sys sys' : System A C Cb} {l : Label Cb sm} (hready : sys.InSession Session.Ready)
    (hbal : sys.InSession Session.Balanced) (hnum : sys.InSession Session.Numbered)
    (hexp : sys.InSession Session.Explained) (h : Enduring may sys) (hok : Careful sys l)
    (hmay : ∀ id ∈ l.passed, may id) (hstep : step sys l = some sys') :
    Enduring may sys' := by
  by_cases hl : Inside l = true ∨ ∃ op, l = .call op
  · rcases hs : sys.session with _ | s
    · cases l with
      | «open» | openCrash | crash | drop => simp [Inside] at hl
      | client | recv | collect | exec | effect | releaseAll | fail | dropReceiver | call =>
        simp [step, hs] at hstep
    · obtain ⟨first, g, hg⟩ := h.during s hs
      obtain ⟨s', g', hs', hg'⟩ :=
        keepsLog_step (fun rec hrec => LawfulRecord.enc_ne_nil hrec) hs (hready s hs)
        (hbal s hs) (hnum s hs) (hexp s hs) hg hok hmay hl hstep
      refine ⟨fun hn => absurd (hs'.symm.trans hn) (by simp), fun s₁ hs₁ => ?_⟩
      cases hs'.symm.trans hs₁
      exact ⟨first, g', hg'⟩
  obtain ⟨old, ps, hondisk⟩ := h.logOnDisk
  cases step_move hstep with
  | @opened config st o x hs hopen =>
    obtain ⟨r, x', hrun, heq⟩ := openLocked_run config st (OpenState.init sys.fs)
    have := heq.symm.trans hopen
    rcases r with e | o'
    · cases this
    cases this
    refine ⟨fun hn => absurd hn (by simp), fun s hs' => ?_⟩
    cases hs'
    exact hondisk.keepsLog hacc hrun
  | @notOpened config st e x hs hopen =>
    obtain ⟨r, x', hrun, heq⟩ := openLocked_run config st (OpenState.init sys.fs)
    have := heq.symm.trans hopen
    rcases r with e' | o'
    swap
    · cases this
    cases this
    exact ⟨fun _ => ⟨old, hondisk.unopened hck hrun⟩,
      fun s hs' => absurd (hs.symm.trans hs') (by simp)⟩
  | @openCrashed config st k x v hs hopen hv =>
    obtain ⟨r, x', hrun, heq⟩ := openLocked_run config st (OpenState.init sys.fs)
    have hx : x' = x := by
      rcases hopen with ⟨o, ho⟩ | ⟨e, ho⟩
      all_goals
        have := heq.symm.trans ho
        rcases r with e | o' <;> cases this
        rfl
    subst hx
    exact ⟨fun _ => hondisk.passed hacc hck hrun v (List.mem_of_getElem? hv),
      fun s hs' => absurd (hs.symm.trans hs') (by simp)⟩
  | @crashed keep fs hc =>
    exact ⟨fun _ => hondisk.remains (Fs.remains_crash hc hok), fun s hs' => absurd hs' (by simp)⟩
  | dropped hs => exact ⟨fun _ => ⟨old, ps, hondisk⟩, fun s hs' => absurd hs' (by simp)⟩
  | called => exact absurd (.inr ⟨_, rfl⟩) hl
  | _ => exact absurd (.inl rfl) hl

omit [Decode A] [Decode C] [WALRecord.LawfulAction A] [LawfulCodec C] in
theorem logOnDisk_fresh : LogOnDisk may Fs.fresh ([] : List (LogEntry A C)) [] [] [] where
  image := ⟨rfl, .nil, fun p hp => (by cases hp), fun i hi => (by cases hi),
    .nil, fun p hp => (by cases hp), .nil⟩
  nodup := .nil
  pending := .of_nil rfl []
  stubs i hi := by cases hi
  logged := ⟨0, List.infix_refl _, fun p hp => by cases hp⟩
  chained := .nil
  encodes p hp := by cases hp
  asked p hp := by cases hp
  stands h := absurd rfl h
  acked e he := by cases he

theorem runs_enduring (hacc : sm.Accepts)
    (hck : ∀ st, Encodes (.checkpoint (sm.checkpoint st) : WALRecord A C)) {ls : List (Label Cb sm)}
    {sys : System A C Cb} (hr : RunsOf step Careful (System.fresh A C Cb) ls sys) :
    Enduring (fun id => ∃ l ∈ ls, id ∈ l.passed) sys := by
  have hall : sys.InSession Session.Ready ∧ sys.InSession Session.Balanced ∧
    sys.InSession Session.Explained ∧
      sys.InSession Session.Numbered ∧ Enduring (fun id => ∃ l ∈ ls, id ∈ l.passed) sys := by
    refine hr.along.invariant (I := fun sys => sys.InSession Session.Ready ∧
      sys.InSession Session.Balanced ∧
      sys.InSession Session.Explained ∧ sys.InSession Session.Numbered ∧ Enduring _ sys) ?_
        ⟨fresh_inSession,
      fresh_inSession, fresh_inSession, fresh_inSession, fun _ => ⟨[], [], logOnDisk_fresh⟩,
      fun s hs => (by cases hs)⟩
    intro sys₁ l sys₂ h hl hstep
    obtain ⟨h₁, h₂, h₃, h₄, h₅⟩ := h
    obtain ⟨hok, hl⟩ := hl
    exact ⟨ready_step sys₁ l sys₂ h₁ hstep, balanced_step sys₁ l sys₂ h₁ h₂ hstep,
      explained_step sys₁ l sys₂ h₁ h₃ hstep, numbered_step sys₁ l sys₂ h₂ h₄ hstep,
      enduring_step hacc hck h₁ h₂ h₄ h₃ h₅ hok (fun id hid => ⟨l, hl, hid⟩) hstep⟩
  exact hall.2.2.2.2

/-- **No acknowledged record is lost**, whatever fails in the worker, wherever the process dies, in
a session or in an opening, and wherever a crash cuts off what was not synchronized: behind every
run of a client that keeps the log, an opening succeeds, it applies a part of the log without a gap,
and a record whose durable write was answered is in it, or is older and in a chunk that the client
asked to remove. In front of that part are records of such chunks only, whose removal a crash has
undone. -/
theorem runs_endure (hacc : sm.Accepts)
    (hck : ∀ st, Encodes (.checkpoint (sm.checkpoint st) : WALRecord A C)) (ls : List (Label Cb sm))
    (sys : System A C Cb) (hr : RunsOf step Careful (System.fresh A C Cb) ls sys)
    (hs : sys.session = none) (config : Config) (hcfg : config.truncateIncompleteRecord = true)
    (hv : config.validate = .ok ()) (st : sm.State) :
    ∃ o x, openLocked sm config st (OpenState.init sys.fs) = .ok o x ∧
      (∃ revived part, x.applied = revived ++ part ∧ part <:+: sys.log ∧
        ∀ e ∈ revived, ∃ l ∈ ls, e.2.1 ∈ l.passed) ∧
      ∀ e ∈ sys.acked, e ∈ x.applied ∨
        (∃ l ∈ ls, e.2.1 ∈ l.passed) ∧ ∃ first ∈ x.applied.head?, e.2.1 < first.2.1 := by
  obtain ⟨old, ps, h⟩ := (runs_enduring hacc hck hr).between hs
  obtain ⟨r, x, hrun, heq⟩ := openLocked_run config st (OpenState.init sys.fs)
  obtain ⟨o, rfl, hlog, hacked⟩ := h.opens hacc hck hcfg hv hrun
  exact ⟨o, x, heq, hlog, hacked⟩

end

/-! ## A record that is cut -/

end System

instance {A C Cb : Type} [Crc32fast] [Encode A] [Encode C] (drained : List Nat) (clean : Bool)
    (op : Op A C Cb) :
    Decidable (op.Proper drained clean) :=
  match op with
  | .sendRemoveChunks ids => inferInstanceAs (Decidable (ids <+: drained ∧ clean = true))
  | .tryCloseFullChunk c => inferInstanceAs (Decidable (Encodes (.checkpoint c : WALRecord A C)))
  | .append _ | .sendPending .. | .drainClosedChunksWhile _ | .sendGetStat | .waitWorkerIdle
      | .shutdown =>
    .isTrue trivial

namespace System

instance {A C Cb : Type} [Crc32fast] [Encode A] [Decode A] [Encode C] [Decode C]
    {sm : StateMachine A C} (sys : System A C Cb) (l : Label Cb sm) : Decidable (Careful sys l) :=
  match l with
  | .call op => inferInstanceAs (Decidable (∀ s ∈ sys.session, op.Proper s.drained s.covered))
  | .client r => inferInstanceAs (Decidable (r = .ok ()))
  | .crash keep => inferInstanceAs (Decidable (sys.fs.revived keep <:+ sys.fs.unlinked))
  | .open .. | .openCrash .. | .drop | .recv | .collect | .exec _ | .effect | .releaseAll | .fail
  | .dropReceiver => .isTrue trivial

open Register

/-- A rotation, and a drained chunk whose removal is not on stable storage when the process dies.
The next session appends a record. It is in the file when the machine stops, but not on stable
storage; the removed chunk is back, and the next opening stops when it has cut the record. -/
def cutRun : List Register.Step :=
  [start twoRecords] ++ puts 1 ++ rotation (List.replicate 10 go) ++
    [.call (.drainClosedChunksWhile fun id _ => decide (id = 0)),
      go, .call (.sendPending true (some 7)), go, go, go, .call (.sendRemoveChunks [0]), go, go,
      go] ++
    batch 1 7 ++ batch 1 8 ++ batch 0 1 ++
    [.crash fun i => if i = 0 then none else some (13, 13), start Register.config] ++ puts 2 ++
    sends false ++
    batch 0 1 ++ [.crash fun i => some (if i = 0 then (18, 18) else (15, 13)),
      .openCrash Register.config { value := 9 } 1]

/-- The log is there, behind the chunk that has come back, and half a record is not. -/
theorem runs_endure_cut :
    ∃ (sys : System Put Register Nat) (o : Opened machine) (x : OpenState Put Register),
    runs step (System.fresh Put Register Nat) cutRun = some sys ∧
    sys.log.map (fun e => e.2.2.offset) = [18, 31] ∧ sys.acked.map (fun e => e.2.2.offset) =
      [0, 13, 18] ∧
    openLocked machine Register.config { value := 9 } (OpenState.init sys.fs) = .ok o x ∧
    (∃ revived part, x.applied = revived ++ part ∧ part <:+: sys.log ∧
      ∀ e ∈ revived, ∃ l ∈ cutRun, e.2.1 ∈ l.passed) ∧
    ∀ e ∈ sys.acked, e.2.1 = 18 → e ∈ x.applied := by
  have h : ((runs (guarded Careful step) (System.fresh Put Register Nat) cutRun).any fun sys =>
      decide (sys.session.isNone = true ∧ sys.log.map (fun e => e.2.2.offset) = [18, 31] ∧
        sys.acked.map (fun e => e.2.2.offset) = [0, 13, 18])) = true := by decide +kernel
  obtain ⟨sys, hsys, h⟩ := (Option.any_eq_true _ _).1 h
  obtain ⟨hs, hlog, hacked⟩ := of_decide_eq_true h
  have hr := RunsOf.of_guarded hsys
  have hacc : machine.Accepts := fun st r id seg => by cases r <;> exact ⟨_, rfl⟩
  obtain ⟨o, x, hopen, hpart, hkept⟩ := runs_endure hacc (fun _ => ⟨_, rfl⟩) cutRun sys hr
    (Option.isNone_iff_eq_none.1 hs) Register.config rfl (by decide) { value := 9 }
  refine ⟨sys, o, x, hr.runs, hlog, hacked, hopen, hpart,
    fun e he hid => (hkept e he).resolve_right ?_⟩
  intro hgone
  obtain ⟨⟨l, hl, hp⟩, -⟩ := hgone
  have hnone : ∀ l ∈ cutRun, 18 ∉ l.passed := by decide +kernel
  exact hnone l hl (hid ▸ hp)

/-- Two rotations, and two drained chunks whose removals are not on stable storage. -/
def removedRun : List Register.Step :=
  [start twoRecords] ++ puts 1 ++ rotation (List.replicate 10 go) ++ puts 2 ++
  rotation (List.replicate 10 go) ++
    [.call (.drainClosedChunksWhile fun id _ => decide (id < 36)),
      go, .call (.sendPending true (some 7)), go, go, go, .call (.sendRemoveChunks [0, 18]), go, go,
      go] ++
    batch 1 7 ++ batch 2 8 ++ batch 1 8 ++
    [.recv, .exec { writes := [], calls := List.replicate 3 (.ok ()), user := [] },
      .effect, .effect]

/-- A crash undoes the first removal and not the second. -/
def unorderedSteps : List Register.Step :=
  [.crash fun i => if i = 18 then none else some (if i = 0 then (18, 18) else (13, 13)),
    .open Register.config { value := 9 }]

/-- **The order of the removals matters**: the oldest chunk is back without the next one, and the
directory does not open. -/
theorem crash_unordered : ∃ sys sys' : System Put Register Nat,
    RunsOf step Careful (System.fresh Put Register Nat) removedRun sys ∧ sys.fs.unlinked = [0, 18] ∧
    runs step sys unorderedSteps = some sys' ∧ sys'.fs.dir = [36, 0] ∧ sys'.session = none := by
  have h : ((runs (guarded Careful step) (System.fresh Put Register Nat) removedRun).any fun sys =>
      (runs step sys unorderedSteps).any fun sys' =>
        decide (sys.fs.unlinked = [0, 18] ∧ sys'.fs.dir = [36, 0] ∧ sys'.session.isNone = true))
          = true := by
    decide +kernel
  obtain ⟨sys, hsys, h⟩ := (Option.any_eq_true _ _).1 h
  obtain ⟨sys', hsys', h⟩ := (Option.any_eq_true _ _).1 h
  obtain ⟨hu, hd, hs⟩ := of_decide_eq_true h
  exact ⟨sys, sys', RunsOf.of_guarded hsys, hu, hsys', hd, Option.isNone_iff_eq_none.1 hs⟩

end System

end Wal

import Wal.System

/-!
# What a step of the system can do

`Move` lists every way the system can take a step, with its guards and the state it leads to;
`step_move` says that there are no others. Invariants are proved by cases on it.
-/

namespace Wal

open Lib

namespace System

variable {A C Cb : Type} [Crc32fast] [Encode A] [Decode A] [Encode C] [Decode C]
  {sm : StateMachine A C}

/-- The program of a method that the client is in. -/
abbrev ClientProg (A C Cb : Type) :=
  Prog (ClientAct A C Cb) IoResult (Except Fault (Ret C) × ChunkedWal C)

/-- `sys` with its session replaced. -/
abbrev withSession (sys : System A C Cb) (s : Session A C Cb) : System A C Cb :=
  { sys with session := some s }

inductive Move (sys : System A C Cb) : Label Cb sm → System A C Cb → Prop
  -- Between sessions
  | opened {config state o x} (hs : sys.session = none)
      (h : (openLocked sm config state).run (.init sys.fs) = .ok o x) :
      Move sys (.open config state)
        ((sys.afterOpen x.toOpenView (x.applied ++ x.created)).withSession (startSession config o))
  | notOpened {config state e x} (hs : sys.session = none)
      (h : (openLocked sm config state).run (.init sys.fs) = .error e x) :
      Move sys (.open config state) (sys.afterOpen x.toOpenView sys.log)
  | openCrashed {config state k x v} (hs : sys.session = none)
      (h : (∃ o, (openLocked sm config state).run (.init sys.fs) = .ok o x) ∨
        ∃ e, (openLocked sm config state).run (.init sys.fs) = .error e x)
      (hv : x.trail[k]? = some v) :
      Move sys (.openCrash config state k)
        (sys.afterOpen v (if v.created.isEmpty then sys.log else v.applied ++ v.created))
  | crashed {keep fs} (h : sys.fs.crash keep = some fs) :
      Move sys (.crash keep) { sys with fs, session := none }
  | dropped {s w} (hs : sys.session = some s) (hc : s.client = .idle w)
      (hw : s.worker = .terminated) (hh : w.workerHandle = false) :
      Move sys .drop { sys with session := none }
  -- The client
  | called {s op w} (hs : sys.session = some s) (hc : s.client = .idle w) :
      Move sys (.call op) (sys.withSession
        { s with client := .busy op (op.run w), drained := Session.handOver s.drained op })
  | finished {s op res w r} (hs : sys.session = some s)
      (hc : s.client = .busy op (.done (res, w))) :
      Move sys (.client r) (sys.withSession (s.finish op res w))
  | refused {s op req k r} (hs : sys.session = some s)
      (hc : s.client = .busy op (.act (.send req) k))
      (hn : s.sending = .idle) (htx : s.tx = false) :
      Move sys (.client r) (sys.withSession (s.respond op k (.error walIsShutDown)))
  | acquired {s op req k r} (hs : sys.session = some s)
      (hc : s.client = .busy op (.act (.send req) k)) (hn : s.sending = .idle) (htx : s.tx = true)
      (hw : ¬ Session.waits s.used s.config.flushQueueMaxBytes req.reserved) :
      Move sys (.client r) (sys.withSession
        { s with used := s.used + req.reserved, sending := .reserved })
  | enqueued {s op req k r} (hs : sys.session = some s)
      (hc : s.client = .busy op (.act (.send req) k)) (hn : s.sending = .reserved)
      (hr : s.receiving = true) (hq : s.queue.length < CHANNEL_CAPACITY) :
      Move sys (.client r) (sys.withSession { s.respond op k (.ok ()) with
        sentSeq := s.sentSeq + 1
        queue := s.queue ++ [{ seq := s.sentSeq + 1, req }]
        sent := s.sent ++ [{ request := { seq := s.sentSeq + 1, req }, mark := sys.log.length }] })
  | rejected {s op req k r} (hs : sys.session = some s)
      (hc : s.client = .busy op (.act (.send req) k)) (hn : s.sending = .reserved)
      (hr : s.receiving = false) :
      Move sys (.client r) (sys.withSession
        { s with sentSeq := s.sentSeq + 1, sending := .rejected })
  | underflow {s op req k r} (hs : sys.session = some s)
      (hc : s.client = .busy op (.act (.send req) k)) (hn : s.sending = .rejected)
      (hu : s.used < req.reserved) :
      Move sys (.client r) (sys.withSession { s with client := .panicked, sending := .idle })
  | givenBack {s op req k r} (hs : sys.session = some s)
      (hc : s.client = .busy op (.act (.send req) k)) (hn : s.sending = .rejected)
      (hu : req.reserved ≤ s.used) :
      Move sys (.client r) (sys.withSession
        { s.respond op k (.error channelClosed) with used := s.used - req.reserved })
  | notCreated {s op id k e} (hs : sys.session = some s)
      (hc : s.client = .busy op (.act (.createNew id) k)) :
      Move sys (.client (.error e)) (sys.withSession (s.respond op k (.error e)))
  | exists {s op id k} (hs : sys.session = some s)
      (hc : s.client = .busy op (.act (.createNew id) k)) (hd : id ∈ sys.fs.dir) :
      Move sys (.client (.ok ())) (sys.withSession (s.respond op k (.error alreadyExists)))
  | created {s op id k} (hs : sys.session = some s)
      (hc : s.client = .busy op (.act (.createNew id) k)) (hd : id ∉ sys.fs.dir) :
      Move sys (.client (.ok ())) { sys with
        fs := sys.fs.createNew id, session := some (s.respond op k (.ok ())) }
  | notSynced {s op k e} (hs : sys.session = some s)
      (hc : s.client = .busy op (.act .syncDir k)) :
      Move sys (.client (.error e)) (sys.withSession (s.respond op k (.error e)))
  | synced {s op k} (hs : sys.session = some s) (hc : s.client = .busy op (.act .syncDir k)) :
      Move sys (.client (.ok ())) { sys with
        fs := sys.fs.syncDir, session := some (s.respond op k (.ok ())) }
  | closed {s op k r} (hs : sys.session = some s) (hc : s.client = .busy op (.act .close k)) :
      Move sys (.client r) (sys.withSession { s.respond op k (.ok ()) with tx := false })
  | joined {s op k r} (hs : sys.session = some s) (hc : s.client = .busy op (.act .join k))
      (hr : s.receiving = false) :
      Move sys (.client r) (sys.withSession (s.respond op k (.ok ())))
  | waited {s op k r res} (hs : sys.session = some s)
      (hc : s.client = .busy op (.act .waitIdle k)) (hw : s.waitFor s.sentSeq = some res) :
      Move sys (.client r) (sys.withSession (s.respond op k res))
  | noted {s op entry k r} (hs : sys.session = some s)
      (hc : s.client = .busy op (.act (.note entry) k)) :
      Move sys (.client r) { sys with
        log := sys.log ++ [entry], session := some (s.respond op k (.ok ())) }
  -- The worker
  | received {s r queue} (hs : sys.session = some s) (hw : s.worker = .recv)
      (hq : s.queue = r :: queue) :
      Move sys .recv (sys.withSession { s with
        queue, worker :=
        .collect ((WriteBatch.new s.config.flushBatchMaxItems).pushSeqRequest r).2 })
  | disconnected {s} (hs : sys.session = some s) (hw : s.worker = .recv) (hq : s.queue = [])
      (htx : s.tx = false) :
      Move sys .recv (sys.withSession { s with worker := .stopping none })
  | collected {s b r queue} (hs : sys.session = some s) (hw : s.worker = .collect b)
      (hq : s.queue = r :: queue) (hm : b.wantsMore = true) :
      Move sys .collect (sys.withSession { s with
        queue, worker := .collect (b.pushSeqRequest r).2 })
  | executed {s b script} (hs : sys.session = some s) (hw : s.worker = .collect b)
      (hn : (Worker.execBatch s.files script b).1 ≠ some .starved) :
      Move sys (.exec script) (sys.withSession { s with
        files := (Worker.execBatch s.files script b).2.files
        batches := s.batches ++ [b]
        worker := .exec b (Worker.execBatch s.files script b).2.effects
          (Worker.execBatch s.files script b).1 b.bytes })
  | effect {s b e effects stop held fs} (hs : sys.session = some s)
      (hw : s.worker = .exec b (e :: effects) stop held) (hf : sys.fs.onEffect e = some fs) :
      Move sys .effect { sys with
        fs
        session := some { s.onEffect e with
          worker := .exec b effects stop (held - e.release?.getD 0)
          trace := s.trace ++ [e] }
        acked := sys.acked ++ ackedBy sys.log s b e
        notified := sys.notified ++ notifiedBy sys.fs e }
  | batchDone {s b held} (hs : sys.session = some s) (hw : s.worker = .exec b [] none held) :
      Move sys .effect (sys.withSession { s with worker := .recv })
  | batchStopped {s b stop held} (hs : sys.session = some s)
      (hw : s.worker = .exec b [] (some stop) held) :
      Move sys .effect (sys.withSession { s with
        worker := .stopping (some (Session.stopError stop)) })
  | releasedAll {s} (hs : sys.session = some s) (hw : s.worker = .stopping none) :
      Move sys .releaseAll (sys.withSession { s with used := 0, worker := .exiting })
  | releasedFailed {s e} (hs : sys.session = some s) (hw : s.worker = .stopping (some e)) :
      Move sys .releaseAll (sys.withSession { s with used := 0, worker := .released e })
  | failed {s e} (hs : sys.session = some s) (hw : s.worker = .released e) :
      Move sys .fail (sys.withSession { s with status := some e, worker := .exiting })
  | receiverDropped {s} (hs : sys.session = some s) (hw : s.worker = .exiting) :
      Move sys .dropReceiver (sys.withSession { s with queue := [], worker := .terminated })

theorem clientStep_move {sys sys' : System A C Cb} {s : Session A C Cb} {r : IoResult}
    (hs : sys.session = some s) (h : sys.clientStep s r = some sys') :
    Move sys (.client r : Label Cb sm) sys' := by
  unfold clientStep at h
  split at h
  · rename_i op res w hc
    cases h
    exact .finished hs hc
  · rename_i op a k hc
    cases a with
    | send req =>
      simp only [Session.sendStep, Option.map_eq_some_iff] at h
      obtain ⟨s', h, rfl⟩ := h
      split at h
      · rename_i hn
        split at h
        · rename_i htx
          cases h
          exact .refused hs hc hn htx
        · rename_i htx
          split at h
          · cases h
          · rename_i hw
            cases h
            exact .acquired hs hc hn (by simpa using htx) hw
      · rename_i hn
        split at h
        · rename_i hr
          cases h
          exact .rejected hs hc hn hr
        · rename_i hr
          split at h
          · rename_i hq
            cases h
            exact .enqueued hs hc hn (by simpa using hr) hq
          · cases h
      · rename_i hn
        split at h
        · rename_i hu
          cases h
          exact .underflow hs hc hn hu
        · rename_i hu
          cases h
          exact .givenBack hs hc hn (by omega)
    | createNew id =>
      simp only at h
      split at h
      · cases h
        exact .notCreated hs hc
      · split at h
        · rename_i hd
          cases h
          exact .exists hs hc hd
        · rename_i hd
          cases h
          exact .created hs hc hd
    | syncDir =>
      simp only at h
      split at h
      · cases h
        exact .notSynced hs hc
      · cases h
        exact .synced hs hc
    | close =>
      cases h
      exact .closed hs hc
    | join =>
      simp only at h
      split at h
      · cases h
      · rename_i hr
        cases h
        exact .joined hs hc (by simpa using hr)
    | waitIdle =>
      simp only [Option.map_eq_some_iff] at h
      obtain ⟨res, hw, rfl⟩ := h
      exact .waited hs hc hw
    | note entry =>
      cases h
      exact .noted hs hc
  · cases h

theorem effectStep_move {sys sys' : System A C Cb} {s : Session A C Cb}
    (hs : sys.session = some s) (h : sys.effectStep s = some sys') :
    Move sys (.effect : Label Cb sm) sys' := by
  unfold effectStep at h
  split at h
  · rename_i b e effects stop held hw
    split at h
    · cases h
    · rename_i fs hf
      cases h
      exact .effect hs hw hf
  · rename_i b stop held hw
    cases h
    cases stop with
    | none => exact .batchDone hs hw
    | some stop => exact .batchStopped hs hw
  · cases h

/-- **Every step is one of the moves.** -/
theorem step_move {sys sys' : System A C Cb} {l : Label Cb sm} (h : step sys l = some sys') :
    Move sys l sys' := by
  unfold step at h
  split at h
  · rename_i config state hs
    cases h
    unfold openStep
    split
    · rename_i o x ho
      exact .opened hs ho
    · rename_i e x he
      exact .notOpened hs he
  · rename_i config state k hs
    unfold openCrashStep at h
    simp only [Option.map_eq_some_iff] at h
    obtain ⟨v, hv, rfl⟩ := h
    refine .openCrashed hs ?_ hv
    split
    · rename_i o x ho
      exact .inl ⟨o, ho⟩
    · rename_i e x he
      exact .inr ⟨e, he⟩
  · obtain ⟨fs, hf, rfl⟩ := Option.map_eq_some_iff.1 h
    exact .crashed hf
  · rename_i s hs
    split at h
    · rename_i w hc hw
      split at h
      · cases h
      · rename_i hh
        cases h
        exact .dropped hs hc hw (by simpa using hh)
    · cases h
  · rename_i op s hs
    obtain ⟨s', h, rfl⟩ := Option.map_eq_some_iff.1 h
    unfold Session.call at h
    split at h
    · rename_i w hc
      cases h
      exact .called hs hc
    · cases h
  · rename_i r s hs
    exact clientStep_move hs h
  · rename_i s hs
    obtain ⟨s', h, rfl⟩ := Option.map_eq_some_iff.1 h
    unfold Session.recvStep at h
    split at h
    · rename_i hw hq
      cases h
      exact .received hs hw hq
    · rename_i hw hq
      split at h
      · cases h
      · rename_i htx
        cases h
        exact .disconnected hs hw hq (by simpa using htx)
    · cases h
  · rename_i s hs
    obtain ⟨s', h, rfl⟩ := Option.map_eq_some_iff.1 h
    unfold Session.collectStep at h
    split at h
    · rename_i hw hq
      split at h
      · rename_i hm
        cases h
        exact .collected hs hw hq (by simp only [Bool.and_eq_true] at hm; exact hm.1)
      · cases h
    · cases h
  · rename_i script s hs
    obtain ⟨s', h, rfl⟩ := Option.map_eq_some_iff.1 h
    unfold Session.execStep at h
    split at h
    · rename_i hw
      simp only at h
      split at h
      · cases h
      · rename_i hn
        cases h
        exact .executed hs hw hn
    · cases h
  · rename_i s hs
    exact effectStep_move hs h
  · rename_i s hs
    obtain ⟨s', h, rfl⟩ := Option.map_eq_some_iff.1 h
    unfold releaseAllStep at h
    split at h
    · rename_i hw
      cases h
      exact .releasedAll hs hw
    · rename_i hw
      cases h
      exact .releasedFailed hs hw
    · cases h
  · rename_i s hs
    obtain ⟨s', h, rfl⟩ := Option.map_eq_some_iff.1 h
    unfold failStep at h
    split at h
    · rename_i hw
      cases h
      exact .failed hs hw
    · cases h
  · rename_i s hs
    obtain ⟨s', h, rfl⟩ := Option.map_eq_some_iff.1 h
    unfold dropReceiverStep at h
    split at h
    · rename_i hw
      cases h
      exact .receiverDropped hs hw
    · cases h
  · cases h

end System

/-! ## Batches of a session -/

section
variable {A C Cb : Type}

/-- `run_inner` is running: no batch has stopped it. -/
def WorkerPc.running : WorkerPc C Cb → Bool
  | .recv | .collect _ | .exec _ _ none _ => true
  | _ => false

/-- The worker has a current file, and its batches are well formed. -/
structure Session.Ready (s : Session A C Cb) : Prop where
  files : s.worker.running = true → s.files ≠ []
  collected : ∀ b, s.worker = .collect b → Worker.Collected b

/-- A property of every session of a system. -/
def System.InSession (P : Session A C Cb → Prop) (sys : System A C Cb) : Prop :=
  ∀ s, sys.session = some s → P s

end

namespace System

variable {A C Cb : Type}

/-- What an execution step runs: a batch with one of the shapes of `BatchTrace`. -/
theorem executed_trace {s : Session A C Cb} {b : WriteBatch C Cb} (h : s.Ready)
    (hw : s.worker = .collect b) (script : Script) :
    Worker.BatchTrace s.files b (Worker.execBatch s.files script b).1
      (Worker.execBatch s.files script b).2.files (Worker.execBatch s.files script b).2.effects :=
  Worker.execBatch_trace (h.collected b hw) (h.files (by rw [hw]; rfl))

theorem running_exec {b : WriteBatch C Cb} {es : List (Effect C Cb)} {stop : Option Stop}
    {held : Nat} (h : (WorkerPc.exec b es stop held).running = true) : stop = none := by
  cases stop with
  | none => rfl
  | some s => cases h

theorem wantsMore_deferred {b : WriteBatch C Cb} (h : b.wantsMore = true) :
    b.lastNonFlush = none := by
  simp only [WriteBatch.wantsMore, Bool.and_eq_true] at h
  exact Option.isNone_iff_eq_none.1 h.1

variable [Crc32fast] [Encode A] [Decode A] [Encode C] [Decode C] {sm : StateMachine A C}

omit [Crc32fast] [Encode A] [Decode A] [Encode C] [Decode C] in
theorem fresh_inSession {P : Session A C Cb → Prop} : (System.fresh A C Cb).InSession P := by
  intro s hs
  cases hs

theorem ready_step (sys : System A C Cb) (l : Label Cb sm) (sys' : System A C Cb)
    (h : sys.InSession Session.Ready) (hstep : step sys l = some sys') :
    sys'.InSession Session.Ready := by
  intro s' hs'
  cases step_move hstep with
  | opened =>
    cases hs'
    exact ⟨fun _ => by simp [startSession], fun b hb => by cases hb⟩
  | notOpened hn => exact absurd hs' (by simp [afterOpen, hn])
  | openCrashed hn => exact absurd hs' (by simp [afterOpen, hn])
  | received hs hw =>
    cases hs'
    exact ⟨fun _ => (h _ hs).files (by rw [hw]; rfl), fun b hb => by cases hb; exact .first _ _⟩
  | collected hs hw _ hm =>
    cases hs'
    obtain ⟨hf, hc⟩ := h _ hs
    exact ⟨fun _ => hf (by rw [hw]; rfl), fun b hb => by
      cases hb
      exact .push (wantsMore_deferred hm) (hc _ hw).maxSeq _⟩
  | executed hs hw =>
    cases hs'
    exact ⟨fun hr => (executed_trace (h _ hs) hw _).files_ne_nil (running_exec hr)
      ((h _ hs).files (by rw [hw]; rfl)), fun b hb => by cases hb⟩
  | effect hs hw =>
    cases hs'
    refine ⟨fun hr => ?_, fun b hb => by cases hb⟩
    refine (h _ hs).files ?_
    cases running_exec hr
    rw [hw]
    rfl
  | batchDone hs hw =>
    cases hs'
    exact ⟨fun _ => (h _ hs).files (by rw [hw]; rfl), fun b hb => by cases hb⟩
  | disconnected | batchStopped | releasedAll | releasedFailed | failed | receiverDropped =>
    cases hs'
    exact ⟨fun hr => Bool.noConfusion hr, fun b hb => by cases hb⟩
  | crashed | dropped => cases hs'
  | _ =>
    -- the client does not touch what the worker owns
    cases hs'
    have hr := h _ ‹sys.session = some _›
    exact ⟨hr.files, hr.collected⟩

end System

end Wal

import Wal.Unwritten
import Wal.Rotating

/-!
# Steps of a session

What the client, the queue, the worker and the files have to agree on changes in one of a few ways,
whatever fails: `Turn` lists them. Where no batch fails and no request is refused (`Carries`), there
are fewer: `Advance` lists those. The invariants of sessions are proved by their cases.
-/

namespace Wal

open Lib

/-- The batch that is about to be executed. -/
def WorkerPc.collected? {C Cb : Type} : WorkerPc C Cb → Option (WriteBatch C Cb)
  | .collect b => some b
  | _ => none

/-- The batch in execution. -/
def WorkerPc.executing? {C Cb : Type} : WorkerPc C Cb → Option (WriteBatch C Cb)
  | .exec b _ _ _ => some b
  | _ => none

section
variable {A C Cb : Type}

/-- Nothing has failed and nothing was refused. -/
structure Session.Unbroken (s : Session A C Cb) : Prop where
  running : s.failing = false
  status : s.status = none
  accepted : s.sending ≠ .rejected

/-- The worker, its batch and the requests on their way are the same. -/
structure Session.SameCourse (s s' : Session A C Cb) : Prop where
  files : s'.files = s.files
  trace : s'.trace = s.trace
  executing : s'.executing = s.executing
  outstanding : s'.outstanding = s.outstanding

/-- The worker has the same effects and requests before it, and does not begin to run. -/
structure Session.Rests (s s' : Session A C Cb) : Prop where
  files : s'.files = s.files
  executing : s'.executing = s.executing
  outstanding : s'.outstanding = s.outstanding
  batch : ∀ b ∈ s'.worker.executing?, b ∈ s.worker.executing?
  running : s'.worker.running = true → s.worker.running = true

/-- Where the client is, and what it knows. -/
structure Session.SameClient (s s' : Session A C Cb) : Prop where
  client : s'.client = s.client
  tx : s'.tx = s.tx
  drained : s'.drained = s.drained
  sent : s'.sent = s.sent

/-- The client has got an answer, and the worker does nothing. -/
structure Session.Answered (s : Session A C Cb) (op : Op A C Cb)
    (k : IoResult → Prog (ClientAct A C Cb) IoResult (Except Fault (Ret C) × ChunkedWal C))
    (r : IoResult) (s' : Session A C Cb) : Prop where
  client : s'.client = .busy op (k r)
  drained : s'.drained = s.drained
  sent : s'.sent = s.sent
  tx : s.tx = false → s'.tx = false
  receiving : s'.receiving = s.receiving
  rests : s.Rests s'

theorem Session.Rests.of_client {s s' : Session A C Cb} (hw : s'.worker = s.worker)
    (hq : s'.queue = s.queue) (hf : s'.files = s.files) : s.Rests s' where
  files := hf
  executing := by rw [Session.executing, Session.executing, hw]
  outstanding := by
    rw [Session.outstanding, Session.outstanding, Session.collecting, Session.collecting, hw, hq]
  batch b h := hw ▸ h
  running h := hw ▸ h

/-- Neither a request, nor a new file, nor a record. -/
def ClientAct.isPlain : ClientAct A C Cb → IoResult → Bool
  | .send _, _ | .createNew _, .ok () | .note _, _ => false
  | _, _ => true

end

namespace System

variable {A C Cb : Type} [Crc32fast] [Encode A] [Decode A] [Encode C] [Decode C]
  {sm : StateMachine A C}

/-- No request is sent after the shutdown, no `AppendFile` is accepted whose checkpoint cannot be
encoded, and no batch fails. -/
def Carries (sys : System A C Cb) : Label Cb sm → Prop
  | .client _ => ∀ s ∈ sys.session, ∀ req ∈ s.client.request?,
      s.tx = true ∧ (s.sending = .reserved → Fits A req)
  | .exec script => ∀ s ∈ sys.session, ∀ b ∈ s.worker.collected?,
      (Worker.execBatch s.files script b).1 = none
  | _ => True

instance (sys : System A C Cb) (l : Label Cb sm) : Decidable (Carries sys l) :=
  match l with
  | .client _ => inferInstanceAs (Decidable (∀ s ∈ sys.session, ∀ req ∈ s.client.request?, _))
  | .exec _ => inferInstanceAs (Decidable (∀ s ∈ sys.session, ∀ b ∈ s.worker.collected?, _))
  | .open .. | .openCrash .. | .crash _ | .drop | .call _ | .dropReceiver | .recv | .collect
    | .effect | .releaseAll | .fail => .isTrue trivial

/-- **What a step does** to a session, to the files, to the log and to what is acknowledged. -/
inductive Turn (sys : System A C Cb) (s : Session A C Cb) : Label Cb sm →
    Fs → List (LogEntry A C) → List (LogEntry A C) → Session A C Cb → Prop
  | called {op w} (hc : s.client = .idle w) :
      Turn sys s (.call op) sys.fs sys.log sys.acked
        { s with client := .busy op (op.run w), drained := Session.handOver s.drained op }
  | finished {l op res w} (hc : s.client = .busy op (.done (res, w))) :
      Turn sys s l sys.fs sys.log sys.acked (s.finish op res w)
  | rested {l s'} (hc : s.SameClient s') (hr : s.receiving = false → s'.receiving = false)
      (h : s.Rests s') : Turn sys s l sys.fs sys.log sys.acked s'
  | panicked {l} : Turn sys s l sys.fs sys.log sys.acked
      { s with client := .panicked, sending := .idle }
  | refused {l op req k e s'} (hc : s.client = .busy op (.act (.send req) k))
      (h : s.Answered op k (.error e) s') (hgone : s.tx = false ∨ s.receiving = false) :
      Turn sys s l sys.fs sys.log sys.acked s'
  | enqueued {l op req k} (hc : s.client = .busy op (.act (.send req) k))
      (htx : s.tx = true) (hr : s.receiving = true) :
      Turn sys s l sys.fs sys.log sys.acked { s.respond op k (.ok ()) with
        sentSeq := s.sentSeq + 1
        queue := s.queue ++ [{ seq := s.sentSeq + 1, req }]
        sent := s.sent ++ [{ request := { seq := s.sentSeq + 1, req }, mark := sys.log.length }] }
  | created {l op id k} (hc : s.client = .busy op (.act (.createNew id) k)) (hd : id ∉ sys.fs.dir) :
      Turn sys s l (sys.fs.createNew id) sys.log sys.acked (s.respond op k (.ok ()))
  | notCreated {op id k r e} (hc : s.client = .busy op (.act (.createNew id) k))
      (h : r = .error e ∨ id ∈ sys.fs.dir) :
      Turn sys s (.client r) sys.fs sys.log sys.acked (s.respond op k (.error e))
  | synced {op k r} (hc : s.client = .busy op (.act .syncDir k)) :
      Turn sys s (.client r) (if r = .ok () then sys.fs.syncDir else sys.fs) sys.log sys.acked
        (s.respond op k r)
  | noted {l op e k} (hc : s.client = .busy op (.act (.note e) k)) :
      Turn sys s l sys.fs (sys.log ++ [e]) sys.acked (s.respond op k (.ok ()))
  | answered {l op a k r s'} (hc : s.client = .busy op (.act a k))
      (ha : a = .close ∧ s'.tx = false ∨ a = .join ∨ a = .waitIdle) (h : s.Answered op k r s') :
      Turn sys s l sys.fs sys.log sys.acked s'
  | stopped {l s'} (hc : s.SameClient s') (hr : s.receiving = true)
      (he : s'.executing = s.executing) (hb : s'.worker.executing? = none)
      (hrun : s'.worker.running = false) : Turn sys s l sys.fs sys.log sys.acked s'
  | executed {l b script} (hw : s.worker = .collect b) :
      Turn sys s l sys.fs sys.log sys.acked { s with
        files := (Worker.execBatch s.files script b).2.files
        batches := s.batches ++ [b]
        worker := .exec b (Worker.execBatch s.files script b).2.effects
          (Worker.execBatch s.files script b).1 b.bytes }
  | effect {l b e es stop held fs} (hw : s.worker = .exec b (e :: es) stop held)
      (hf : sys.fs.onEffect e = some fs) :
      Turn sys s l fs sys.log (sys.acked ++ ackedBy sys.log s b e) { s.onEffect e with
        worker := .exec b es stop (held - e.release?.getD 0)
        trace := s.trace ++ [e] }

/-- **Every step inside of a session** is a turn. -/
theorem turn_of_step {sys sys' : System A C Cb} {s : Session A C Cb} {l : Label Cb sm}
    (hs : sys.session = some s) (hbal : s.Balanced) (hnum : s.Numbered)
    (hl : Inside l = true ∨ ∃ op, l = .call op) (hstep : step sys l = some sys') :
    ∃ s', sys'.session = some s' ∧ Turn sys s l sys'.fs sys'.log sys'.acked s' := by
  cases step_move hstep with
  | opened hn | notOpened hn | openCrashed hn => exact absurd (hn.symm.trans hs) (by simp)
  | crashed | dropped => simp [Inside] at hl
  | called hs' hc =>
    cases hs.symm.trans hs'
    exact ⟨_, rfl, .called hc⟩
  | finished hs' hc =>
    cases hs.symm.trans hs'
    exact ⟨_, rfl, .finished hc⟩
  | refused hs' hc hn htx =>
    cases hs.symm.trans hs'
    exact ⟨_, rfl, .refused hc ⟨rfl, rfl, rfl, id, rfl, .of_client rfl rfl rfl⟩ (.inl htx)⟩
  | acquired hs' hc | rejected hs' hc =>
    cases hs.symm.trans hs'
    exact ⟨_, rfl, .rested ⟨rfl, rfl, rfl, rfl⟩ id (.of_client rfl rfl rfl)⟩
  | enqueued hs' hc hn hr hq =>
    cases hs.symm.trans hs'
    have htx : s.tx = true := by
      by_contra htx
      exact absurd (hn.symm.trans (hnum.closed (Bool.eq_false_of_not_eq_true htx))) (by simp)
    exact ⟨_, rfl, .enqueued hc htx hr⟩
  | underflow hs' hc hn =>
    cases hs.symm.trans hs'
    exact ⟨_, rfl, .panicked⟩
  | givenBack hs' hc hn hu =>
    cases hs.symm.trans hs'
    have hrec : s.receiving = false := by
      by_contra hr
      exact hbal.receiving (Bool.eq_true_of_not_eq_false hr) hn
    exact ⟨_, rfl, .refused hc ⟨rfl, rfl, rfl, id, rfl, .of_client rfl rfl rfl⟩ (.inr hrec)⟩
  | notCreated hs' hc =>
    cases hs.symm.trans hs'
    exact ⟨_, rfl, .notCreated hc (.inl rfl)⟩
  | «exists» hs' hc hd =>
    cases hs.symm.trans hs'
    exact ⟨_, rfl, .notCreated hc (.inr hd)⟩
  | created hs' hc hd =>
    cases hs.symm.trans hs'
    exact ⟨_, rfl, .created hc hd⟩
  | notSynced hs' hc | synced hs' hc =>
    cases hs.symm.trans hs'
    exact ⟨_, rfl, .synced hc⟩
  | closed hs' hc =>
    cases hs.symm.trans hs'
    exact ⟨_, rfl, .answered hc (.inl ⟨rfl, rfl⟩)
      ⟨rfl, rfl, rfl, fun _ => rfl, rfl, .of_client rfl rfl rfl⟩⟩
  | joined hs' hc =>
    cases hs.symm.trans hs'
    exact ⟨_, rfl, .answered hc (.inr (.inl rfl)) ⟨rfl, rfl, rfl, id, rfl, .of_client rfl rfl rfl⟩⟩
  | waited hs' hc =>
    cases hs.symm.trans hs'
    exact ⟨_, rfl, .answered hc (.inr (.inr rfl)) ⟨rfl, rfl, rfl, id, rfl, .of_client rfl rfl rfl⟩⟩
  | noted hs' hc =>
    cases hs.symm.trans hs'
    exact ⟨_, rfl, .noted hc⟩
  -- The worker
  | @received _ r queue hs' hw hq =>
    cases hs.symm.trans hs'
    refine ⟨_, rfl, .rested ⟨rfl, rfl, rfl, rfl⟩ ?_ ⟨rfl, ?_, ?_, ?_, ?_⟩⟩
    · simp [Session.receiving, hw]
    · simp [Session.executing, hw]
    · have hpush := WriteBatch.push_requests (r := r)
        (b := (WriteBatch.new s.config.flushBatchMaxItems : WriteBatch C Cb)) rfl
      simp only [Session.outstanding, Session.collecting, hw, hq, hpush]
      rfl
    · simp [WorkerPc.executing?]
    · simp [hw, WorkerPc.running]
  | collected hs' hw hq hm =>
    cases hs.symm.trans hs'
    refine ⟨_, rfl, .rested ⟨rfl, rfl, rfl, rfl⟩ ?_ ⟨rfl, ?_, ?_, ?_, ?_⟩⟩
    · simp [Session.receiving, hw]
    · simp [Session.executing, hw]
    · simp [Session.outstanding, Session.collecting, hw, hq,
        WriteBatch.push_requests (wantsMore_deferred hm)]
    · simp [WorkerPc.executing?]
    · simp [hw, WorkerPc.running]
  | batchDone hs' hw =>
    cases hs.symm.trans hs'
    refine ⟨_, rfl, .rested ⟨rfl, rfl, rfl, rfl⟩ ?_ ⟨rfl, ?_, ?_, ?_, ?_⟩⟩
    · simp [Session.receiving, hw]
    · simp [Session.executing, hw]
    · simp [Session.outstanding, Session.collecting, hw]
    · simp [WorkerPc.executing?]
    · simp [hw, WorkerPc.running]
  | executed hs' hw hn =>
    cases hs.symm.trans hs'
    exact ⟨_, rfl, .executed hw⟩
  | effect hs' hw hf =>
    cases hs.symm.trans hs'
    exact ⟨_, rfl, .effect hw hf⟩
  | disconnected hs' hw | batchStopped hs' hw | releasedAll hs' hw | releasedFailed hs' hw
  | failed hs' hw | receiverDropped hs' hw =>
    cases hs.symm.trans hs'
    exact ⟨_, rfl, .stopped ⟨rfl, rfl, rfl, rfl⟩ (by simp [Session.receiving, hw])
      (by simp [Session.executing, hw]) rfl rfl⟩

/-- **What a step does** to a session without a failure, to the files and to the log. -/
inductive Advance (fs : Fs) (log : List (LogEntry A C)) (s : Session A C Cb) :
    Fs → List (LogEntry A C) → Session A C Cb → Prop
  | called {op w s'} (hc : s.client = .idle w) (hc' : s'.client = .busy op (op.run w))
    (h : s.SameCourse s') :
    Advance fs log s fs log s'
  | finished {op res w s'} (hc : s.client = .busy op (.done (res, w)))
      (hidle : ∀ w', s'.client = .idle w' → w' = w) (hbusy : ∀ op p, s'.client ≠ .busy op p)
      (h : s.SameCourse s') : Advance fs log s fs log s'
  | enqueued {op req k s'} (hc : s.client = .busy op (.act (.send req) k))
      (hc' : s'.client = .busy op (k (.ok ()))) (hfits : Fits A req) (hf : s'.files = s.files)
      (ht : s'.trace = s.trace) (he : s'.executing = s.executing)
      (ho : s'.outstanding = s.outstanding ++ [req]) :
      Advance fs log s fs log s'
  | created {op id k s'} (hc : s.client = .busy op (.act (.createNew id) k))
      (hc' : s'.client = .busy op (k (.ok ()))) (h : s.SameCourse s') :
      Advance fs log s (fs.createNew id) log s'
  | noted {op entry k s'} (hc : s.client = .busy op (.act (.note entry) k))
      (hc' : s'.client = .busy op (k (.ok ()))) (h : s.SameCourse s') :
      Advance fs log s fs (log ++ [entry]) s'
  | acted {op a k r fs' s'} (hc : s.client = .busy op (.act a k)) (hc' : s'.client = .busy op (k r))
      (ha : a.isPlain r = true) (hd : ∀ f, (fs'.file f).data = (fs.file f).data)
      (h : s.SameCourse s') :
      Advance fs log s fs' log s'
  | worked {s'} (hc : s'.client = s.client) (h : s.SameCourse s') : Advance fs log s fs log s'
  | executed {b es s'} (hc : s'.client = s.client)
      (ht : Worker.BatchTrace s.files b none s'.files es)
      (hb : Worker.Collected b) (he : s.executing = [])
      (ho : s.outstanding = b.requests.map (·.req) ++ s'.outstanding) (htr : s'.trace = s.trace)
      (he' : s'.executing = es) : Advance fs log s fs log s'
  | effect {e es fs' s'} (hc : s'.client = s.client) (hfs : fs.onEffect e = some fs')
      (he : s.executing = e :: es) (he' : s'.executing = es) (ht : s'.trace = s.trace ++ [e])
      (hf : s'.files = s.files) (ho : s'.outstanding = s.outstanding) : Advance fs log s fs' log s'

variable {s : Session A C Cb}

/-- **Every step inside of a session** advances it, and nothing breaks. -/
theorem advance_of_step {sys sys' : System A C Cb} {l : Label Cb sm} (hs : sys.session = some s)
    (hready : s.Ready) (hnum : s.Numbered) (h : s.Unbroken)
    (hl : Inside l = true ∨ ∃ op, l = .call op) (hok : Carries sys l)
    (hstep : step sys l = some sys') :
    ∃ s', sys'.session = some s' ∧ s'.Unbroken ∧ Advance sys.fs sys.log s sys'.fs sys'.log s' := by
  have same : s.SameCourse s := ⟨rfl, rfl, rfl, rfl⟩
  cases step_move hstep with
  | opened hn | notOpened hn | openCrashed hn => exact absurd (hn.symm.trans hs) (by simp)
  | crashed | dropped => simp [Inside] at hl
  | called hs' hc =>
    cases hs.symm.trans hs'
    exact ⟨_, rfl, ⟨h.running, h.status, h.accepted⟩, .called hc rfl ⟨rfl, rfl, rfl, rfl⟩⟩
  | finished hs' hc =>
    cases hs.symm.trans hs'
    refine ⟨_, rfl, ⟨h.running, h.status, h.accepted⟩,
      .finished hc (fun w' hw => ?_) (fun op p hp => ?_)
      ⟨rfl, rfl, rfl, rfl⟩⟩
    · simp only [Session.finish] at hw
      split at hw <;> cases hw
      rfl
    · simp only [Session.finish] at hp
      split at hp <;> cases hp
  | refused hs' hc hn htx =>
    cases hs.symm.trans hs'
    have := (hok s hs _ (by rw [hc]; rfl)).1
    exact absurd (htx.symm.trans this) (by simp)
  | acquired hs' hc =>
    cases hs.symm.trans hs'
    exact ⟨_, rfl, ⟨h.running, h.status, by simp⟩, .worked rfl ⟨rfl, rfl, rfl, rfl⟩⟩
  | @enqueued _ op req k r hs' hc hn hr hq =>
    cases hs.symm.trans hs'
    have hfits := (hok s hs req (by rw [hc]; rfl)).2 hn
    refine ⟨_, rfl, ⟨h.running, h.status, by simp [Session.respond]⟩,
      .enqueued hc rfl hfits rfl rfl rfl ?_⟩
    simp [Session.outstanding, Session.collecting, Session.respond]
  | rejected hs' hc hn hr =>
    cases hs.symm.trans hs'
    have htx := (hok s hs _ (by rw [hc]; rfl)).1
    have hw := Session.not_receiving.1 hr
    have := (hnum.ended (by simp [Session.ended, hw, h.status])).2
    exact absurd (htx.symm.trans this) (by simp)
  | underflow hs' hc hn | givenBack hs' hc hn =>
    cases hs.symm.trans hs'
    exact absurd hn h.accepted
  | created hs' hc =>
    cases hs.symm.trans hs'
    exact ⟨_, rfl, ⟨h.running, h.status, by simp [Session.respond]⟩,
      .created hc rfl ⟨rfl, rfl, rfl, rfl⟩⟩
  | noted hs' hc =>
    cases hs.symm.trans hs'
    exact ⟨_, rfl, ⟨h.running, h.status, by simp [Session.respond]⟩,
      .noted hc rfl ⟨rfl, rfl, rfl, rfl⟩⟩
  | notCreated hs' hc | «exists» hs' hc | notSynced hs' hc | synced hs' hc | closed hs' hc
  | joined hs' hc | waited hs' hc =>
    cases hs.symm.trans hs'
    exact ⟨_, rfl, ⟨h.running, h.status, by simp [Session.respond]⟩,
      .acted hc rfl rfl (fun _ => rfl) ⟨rfl, rfl, rfl, rfl⟩⟩
  -- The worker
  | @received _ r queue hs' hw hq =>
    cases hs.symm.trans hs'
    refine ⟨_, rfl, ⟨rfl, h.status, h.accepted⟩, .worked rfl ⟨rfl, rfl, ?_, ?_⟩⟩
    · simp [Session.executing, hw]
    · have hpush :=
        WriteBatch.push_requests (r := r) (b := (WriteBatch.new s.config.flushBatchMaxItems :
        WriteBatch C Cb)) rfl
      simp only [Session.outstanding, Session.collecting, hw, hq, hpush]
      rfl
  | disconnected hs' hw hq htx =>
    cases hs.symm.trans hs'
    refine ⟨_, rfl, ⟨rfl, h.status, h.accepted⟩, .worked rfl ⟨rfl, rfl, ?_, ?_⟩⟩
    · simp [Session.executing, hw]
    · simp [Session.outstanding, Session.collecting, hw]
  | collected hs' hw hq hm =>
    cases hs.symm.trans hs'
    refine ⟨_, rfl, ⟨rfl, h.status, h.accepted⟩, .worked rfl ⟨rfl, rfl, ?_, ?_⟩⟩
    · simp [Session.executing, hw]
    · simp [Session.outstanding, Session.collecting, hw, hq,
        WriteBatch.push_requests (wantsMore_deferred hm)]
  | @executed _ b script hs' hw hn =>
    cases hs.symm.trans hs'
    have hnone := hok s hs b (by rw [hw]; rfl)
    have ht := executed_trace hready hw script
    rw [hnone] at ht
    refine ⟨_, rfl, ⟨?_, h.status, h.accepted⟩,
      .executed rfl ht (hready.collected b hw) ?_ ?_ rfl rfl⟩
    · simp [Session.failing, hnone]
    · simp [Session.executing, hw]
    · simp [Session.outstanding, Session.collecting, hw]
  | @effect _ b e es stop held fs' hs' hw hf =>
    cases hs.symm.trans hs'
    have hstop : stop = none := by
      have := h.running
      unfold Session.failing at this
      rw [hw] at this
      cases stop with
      | none => rfl
      | some => cases this
    subst hstop
    refine ⟨_, rfl, ⟨rfl, h.status, h.accepted⟩, .effect rfl hf ?_ rfl rfl rfl ?_⟩
    · simp [Session.executing, hw]
    · simp [Session.outstanding, Session.collecting, hw, Session.onEffect]
  | batchDone hs' hw =>
    cases hs.symm.trans hs'
    refine ⟨_, rfl, ⟨rfl, h.status, h.accepted⟩, .worked rfl ⟨rfl, rfl, ?_, ?_⟩⟩
    · simp [Session.executing, hw]
    · simp [Session.outstanding, Session.collecting, hw]
  | batchStopped hs' hw | releasedFailed hs' hw | failed hs' hw =>
    cases hs.symm.trans hs'
    have := h.running
    unfold Session.failing at this
    rw [hw] at this
    cases this
  | releasedAll hs' hw =>
    cases hs.symm.trans hs'
    refine ⟨_, rfl, ⟨?_, h.status, h.accepted⟩, .worked rfl ⟨rfl, rfl, ?_, ?_⟩⟩
    · simp [Session.failing, h.status]
    · simp [Session.executing, hw]
    · simp [Session.outstanding, Session.collecting, hw]
  | receiverDropped hs' hw =>
    cases hs.symm.trans hs'
    have hq := (hnum.ended (by simp [Session.ended, hw, h.status])).1
    refine ⟨_, rfl, ⟨?_, h.status, h.accepted⟩, .worked rfl ⟨rfl, rfl, ?_, ?_⟩⟩
    · simp [Session.failing, h.status]
    · simp [Session.executing, hw]
    · simp [Session.outstanding, Session.collecting, hw, hq]

end System

end Wal

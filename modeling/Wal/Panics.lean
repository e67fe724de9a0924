import Wal.Flow

/-!
# Panics of the worker

A batch panics with a message of the user's code or not at all (`runBatch_blames`). Two settings
reach the standard library unchecked: `WriteBatch::new` reserves the memory of a whole batch, and
`collect_write_batch` adds the wait to the present time. `clockedStep` runs the system on a
`Platform` with its limits, and `runs_panics` says exactly when a step of such a run panics on its
own.
-/

namespace Wal

open Lib

namespace Worker

variable {C Cb α β : Type}

/-- **A worker program panics** only with a message of the user. -/
def Blames (m : WorkerM C Cb α) (x : Exec C Cb) : Prop :=
  match m x with
  | .ok _ x' => x'.script.user <:+ x.script.user
  | .error s _ => ∀ msg, s = .panicked msg → some msg ∈ x.script.user

variable {m : WorkerM C Cb α} {x : Exec C Cb}

theorem Blames.pure (a : α) : Blames (Pure.pure a : WorkerM C Cb α) x := List.suffix_refl _

theorem Blames.throw {s : Stop} (h : ∀ msg, s = .panicked msg → some msg ∈ x.script.user) :
    Blames (MonadExcept.throw s : WorkerM C Cb α) x := h

theorem Blames.bind {k : α → WorkerM C Cb β} (h : Blames m x)
    (hk : ∀ a x', m x = .ok a x' → Blames (k a) x') : Blames (m >>= k) x := by
  have hb : (m >>= k) x = match m x with
      | .ok a x' => k a x'
      | .error s x' => .error s x' := by
    show EStateM.bind m k x = _
    unfold EStateM.bind
    rcases m x <;> rfl
  unfold Blames at h hk ⊢
  rw [hb]
  rcases hm : m x with ⟨a, x'⟩ | ⟨s, x'⟩
  · rw [hm] at h
    have hk := hk a x' hm
    simp only at h ⊢
    split
    · rename_i h'
      rw [h'] at hk
      exact hk.trans h
    · rename_i h'
      rw [h'] at hk
      exact fun msg hmsg => h.subset (hk msg hmsg)
  · rw [hm] at h
    exact h

theorem Blames.get_bind {k : Exec C Cb → WorkerM C Cb β} (h : Blames (k x) x) :
    Blames (get >>= k) x := h

theorem Blames.set_bind {x' : Exec C Cb} {k : PUnit → WorkerM C Cb β}
    (hu : x'.script.user = x.script.user) (h : Blames (k ⟨⟩) x') : Blames (set x' >>= k) x := by
  have : (set x' >>= k) x = k ⟨⟩ x' := rfl
  unfold Blames at h ⊢
  rw [this, ← hu]
  exact h

theorem emit_blames (e : Effect C Cb) : Blames (emit e) x := List.suffix_refl _

theorem setFiles_blames (files : List (FileEntry C)) :
    Blames (setFiles files : WorkerM C Cb Unit) x :=
  List.suffix_refl _

theorem syscall_blames : Blames (syscall : WorkerM C Cb IoResult) x := by
  unfold syscall
  refine .get_bind ?_
  split
  · exact .throw fun msg h => by cases h
  · exact .set_bind rfl (.pure _)

theorem perform_blames (e : Effect C Cb) : Blames (perform e) x := by
  unfold perform
  refine .bind syscall_blames fun r x' _ => ?_
  split
  · exact .bind (emit_blames _) fun _ _ _ => .pure _
  · exact .bind (emit_blames _) fun _ _ _ => .pure _

theorem callUser_blames (e : Effect C Cb) : Blames (callUser e) x := by
  have hb : callUser e x = match x.script.user with
      | [] => .error .starved x
      | none :: rest => .ok () { x with
          script := { x.script with user := rest }, effects := x.effects ++ [e] }
      | some msg :: rest => .error (.panicked msg) { x with
          script := { x.script with user := rest }, effects := x.effects ++ [e] } := by
    unfold callUser
    rcases hu : x.script.user with _ | ⟨_ | msg, rest⟩ <;>
      simp [bind, EStateM.bind, get, getThe, MonadStateOf.get, EStateM.get, hu, set,
        MonadStateOf.set, EStateM.set, emit, modify, modifyGet, MonadStateOf.modifyGet,
        EStateM.modifyGet, throw, throwThe, MonadExceptOf.throw, EStateM.throw, pure, EStateM.pure]
  unfold Blames
  rw [hb]
  rcases hu : x.script.user with _ | ⟨_ | msg, rest⟩
  · exact fun msg h => by cases h
  · exact List.suffix_cons _ _
  · intro msg' h
    cases h
    exact List.mem_cons_self

theorem liftResult_blames (r : IoResult) : Blames (liftResult r : WorkerM C Cb Unit) x := by
  unfold liftResult
  split
  · exact .pure _
  · exact .throw fun msg h => by cases h

theorem writeVectored_blames (f : Nat) (slices : List Bytes) :
    Blames (writeVectored f slices : WorkerM C Cb (Except IoError Nat)) x := by
  unfold writeVectored
  refine .get_bind ?_
  split
  · exact .throw fun msg h => by cases h
  · refine .set_bind rfl ?_
    split
    · exact .pure _
    · dsimp only
      split
      · exact .bind (emit_blames _) fun _ _ _ => .pure _
      · exact .pure _

theorem writeLoop_blames (f fuel : Nat) (slices : List Bytes) :
    Blames (writeLoop f fuel slices : WorkerM C Cb IoResult) x := by
  induction fuel generalizing slices x with
  | zero =>
    cases slices with
    | nil => exact .pure _
    | cons => exact .throw fun msg h => by cases h
  | succ fuel ih =>
    cases slices with
    | nil => exact .pure _
    | cons s slices =>
      unfold writeLoop
      refine .bind (writeVectored_blames f _) fun r x' _ => ?_
      split
      · exact .bind (emit_blames _) fun _ _ _ => .pure _
      · exact ih _
      · split
        · exact ih _
        · exact .bind (emit_blames _) fun _ _ _ => .pure _

theorem writeChunks_blames (f : Nat) (cs : List (List (QueuedWrite Cb))) :
    Blames (writeChunks f cs : WorkerM C Cb IoResult) x := by
  induction cs generalizing x with
  | nil => exact .pure _
  | cons c cs ih =>
    unfold writeChunks
    simp only
    split
    · exact ih
    · refine .bind (.get_bind (writeLoop_blames f _ _)) fun r x' _ => ?_
      split
      · exact ih
      · exact .pure _

theorem syncFiles_blames (offset : Nat) (files : List (FileEntry C)) :
    Blames (syncFiles offset files : WorkerM C Cb IoResult) x := by
  induction files generalizing x with
  | nil => exact .pure _
  | cons f files ih =>
    cases files with
    | nil =>
      unfold syncFiles
      refine .bind (perform_blames _) fun r x' _ => ?_
      split
      · exact .pure _
      · exact .bind (callUser_blames _) fun _ _ _ => .bind (setFiles_blames _) fun _ _ _ => .pure _
    | cons g files =>
      unfold syncFiles
      refine .bind (setFiles_blames _) fun _ _ _ => .bind (perform_blames _) fun r x' _ => ?_
      split
      · exact .pure _
      · exact ih

theorem removeFiles_blames (ids : List Nat) : Blames (removeFiles ids : WorkerM C Cb Unit) x := by
  induction ids generalizing x with
  | nil => exact .pure _
  | cons id ids ih =>
    unfold removeFiles
    exact .bind (perform_blames _) fun _ _ _ => .bind (liftResult_blames _) fun _ _ _ => ih

theorem collectStats_blames (files : List (FileEntry C)) :
    Blames (collectStats files : WorkerM C Cb (List FlushStat)) x := by
  induction files generalizing x with
  | nil => exact .pure _
  | cons f files ih =>
    unfold collectStats
    refine .bind syscall_blames fun r x' _ => ?_
    split
    · exact .bind (emit_blames _) fun _ _ _ => .throw fun msg h => by cases h
    · exact .bind ih fun _ _ _ => .pure _

theorem handleNonFlushRequest_blames {r : SeqRequest C Cb} (hr : r.req.isWrite = false) :
    Blames (handleNonFlushRequest r) x := by
  obtain ⟨seq, req⟩ := r
  unfold handleNonFlushRequest
  cases req with
  | appendFile entry => exact .bind (emit_blames _) fun _ _ _ => .get_bind (setFiles_blames _)
  | write w => cases hr
  | getFlushStat => exact .get_bind (.bind (collectStats_blames _) fun _ _ _ => emit_blames _)
  | removeChunks ids =>
    refine .bind (removeFiles_blames ids) fun _ _ _ => ?_
    split
    · exact .bind (perform_blames _) fun _ _ _ => liftResult_blames _
    · exact .pure _

theorem answerAll_blames (res : IoResult) (ws : List (QueuedWrite Cb)) :
    Blames (answerAll res ws : WorkerM C Cb Unit) x := by
  induction ws generalizing x with
  | nil => exact .pure _
  | cons w ws ih =>
    simp only [answerAll]
    split
    · exact .bind (callUser_blames _) fun _ _ _ => ih
    · exact ih

theorem flushWrites_blames (f : Nat) (ws : List (QueuedWrite Cb)) (upto : Nat) :
    Blames (flushWrites f ws upto : WorkerM C Cb IoResult) x := by
  unfold flushWrites
  refine .bind (writeChunks_blames f _) fun r x' _ => ?_
  split
  · exact .pure _
  · split
    · exact .get_bind (syncFiles_blames _ _)
    · exact .pure _

/-- **One turn of the loop**, with a batch that was collected and a current file. -/
theorem runBatch_blames {b : WriteBatch C Cb} (hb : Collected b) (hx : x.files ≠ []) :
    Blames (runBatch b) x := by
  unfold runBatch
  split
  · rename_i hw
    have hw : b.writes = [] := by simpa using hw
    split
    · rename_i hn
      exact absurd hn (hb.nonempty.resolve_left (by simp [hw]))
    · rename_i r hr
      exact .bind (handleNonFlushRequest_blames (hb.deferred r hr)) fun _ _ _ => emit_blames _
  · refine .get_bind ?_
    split
    · rename_i hn
      exact absurd (List.getLast?_eq_none_iff.1 hn) hx
    · refine .bind (flushWrites_blames _ _ _) fun _ _ _ =>
        .bind (answerAll_blames _ _) fun _ _ _ => ?_
      refine .bind (emit_blames _) fun _ _ _ => .bind (liftResult_blames _) fun _ _ _ => ?_
      split
      · exact emit_blames _
      · rename_i r hr
        exact .bind (handleNonFlushRequest_blames (hb.deferred r hr)) fun _ _ _ => emit_blames _

theorem execBatch_blames {files : List (FileEntry C)} {script : Script} {b : WriteBatch C Cb}
    (hb : Collected b) (hf : files ≠ []) {msg : String}
    (h : (execBatch files script b).1 = some (.panicked msg)) : some msg ∈ script.user := by
  have := runBatch_blames (x := { files, script, effects := [] }) hb hf
  unfold Blames at this
  unfold execBatch at h
  simp only [EStateM.run] at h
  split at h
  · cases h
  · rename_i h'
    rw [h'] at this
    exact this msg (Option.some.inj h)

end Worker

/-! ## The platform -/

/-- The latest `Instant`, the size of a `QueuedWrite` and that of the largest allocation. -/
structure Platform where
  latest : Nat
  itemSize : Nat
  maxBytes : Nat

/-- `Vec::with_capacity`, for the writes of a batch. -/
def Platform.capacityPanic (p : Platform) (config : Config) : Option String :=
  if config.flushBatchMaxItems * p.itemSize ≤ p.maxBytes then none else some "capacity overflow"

theorem Platform.capacityPanic_none {p : Platform} {config : Config} :
    p.capacityPanic config = none ↔ config.flushBatchMaxItems * p.itemSize ≤ p.maxBytes := by
  unfold capacityPanic
  split
  · exact iff_of_true rfl ‹_›
  · exact iff_of_false (by simp) ‹_›

/-- `Instant + Duration` panics on a sum behind the latest instant. -/
def addDuration (latest now wait : Nat) : Except String Nat :=
  if now + wait ≤ latest then .ok (now + wait)
    else .error "overflow when adding duration to instant"

/-- The deadline of `collect_write_batch`, for a batch that begins with a write. -/
def WorkerRequest.deadline {C Cb : Type} (req : WorkerRequest C Cb) (latest now wait : Nat) :
    Option String :=
  if req.isWrite then
    match addDuration latest now wait with
    | .ok _ => none
    | .error msg => some msg
  else none

theorem WorkerRequest.deadline_none {C Cb : Type} {req : WorkerRequest C Cb}
    {latest now wait : Nat} :
    req.deadline latest now wait = none ↔ (req.isWrite = true → now + wait ≤ latest) := by
  unfold deadline addDuration
  by_cases hw : req.isWrite = true <;> by_cases hn : now + wait ≤ latest <;> simp [hw, hn]

namespace Session

variable {A C Cb : Type}

/-- The worker takes a request at `now`, and with which message it panics then. -/
def deadlinePanic (s : Session A C Cb) (latest now : Nat) : Option String :=
  match s.worker, s.queue with
  | .recv, r :: _ => r.req.deadline latest now s.config.flushBatchWait
  | _, _ => none

/-- `*used -= size` on unsigned numbers. -/
def releasePanic (s : Session A C Cb) : Option String :=
  match s.worker with
  | .exec _ (.release n :: _) _ _ =>
    if s.used < n then some "attempt to subtract with overflow" else none
  | _ => none

/-- The message of a batch that panics. -/
def batchPanic (s : Session A C Cb) (script : Script) : Option String :=
  match s.worker with
  | .collect b =>
    match (Worker.execBatch s.files script b).1 with
    | some (.panicked msg) => some msg
    | _ => none
  | _ => none

end Session

namespace System

open Session

section
variable {A C Cb : Type} [Crc32fast] [Encode A] [Decode A] [Encode C] [Decode C]
    {sm : StateMachine A C}

/-- **A step on a platform**: `run` catches a panic; the request whose deadline panics is gone. -/
def clockedStep (p : Platform) (sys : System A C Cb) (x : Label Cb sm × Nat) :
    Option (System A C Cb) :=
  match x.1, sys.session with
  | .open config _, none =>
    match p.capacityPanic config with
    | some msg => (step sys x.1).map fun sys => { sys with session := sys.session.map fun s =>
        { s with worker := .stopping (some (Session.stopError (.panicked msg))) } }
    | none => step sys x.1
  | .recv, some s =>
    match s.deadlinePanic p.latest x.2 with
    | some msg => some (sys.withSession { s with
        queue := s.queue.tail, worker := .stopping (some (Session.stopError (.panicked msg))) })
    | none => step sys x.1
  | _, _ => step sys x.1

/-- With which message `run_inner` panics in a step. -/
def panicOf (p : Platform) (sys : System A C Cb) (x : Label Cb sm × Nat) : Option String :=
  match x.1, sys.session with
  | .open config _, none => ((step sys x.1).bind (·.session)).bind fun _ => p.capacityPanic config
  | .recv, some s => s.deadlinePanic p.latest x.2
  | .exec script, some s => s.batchPanic script
  | .effect, some s => s.releasePanic
  | _, _ => none

/-- The panic of a write callback or of `on_chunk_persisted`. -/
def FromUser (l : Label Cb sm) (msg : String) : Prop := ∃ script, l = .exec script ∧
    some msg ∈ script.user

/-- **The condition on a step**: a worker that starts can reserve a batch, and a batch of writes
that begins can compute its deadline. -/
def Representable (p : Platform) (sys : System A C Cb) (x : Label Cb sm × Nat) : Prop :=
  match x.1 with
  | .open config _ => (∃ s, (step sys x.1).bind (·.session) = some s) →
      config.flushBatchMaxItems * p.itemSize ≤ p.maxBytes
  | .recv => ∀ s, sys.session = some s → s.worker = .recv → ∀ r q, s.queue = r :: q →
      r.req.isWrite = true →
      x.2 + s.config.flushBatchWait ≤ p.latest
  | _ => True

theorem clockedStep_invariant {p : Platform} {sys sys' : System A C Cb} {x : Label Cb sm × Nat}
    (h : sys.InSession Ready ∧ sys.InSession Balanced) (hstep : clockedStep p sys x = some sys') :
    sys'.InSession Ready ∧ sys'.InSession Balanced := by
  have hplain : step sys x.1 = some sys' → sys'.InSession Ready ∧ sys'.InSession Balanced :=
    fun hs => ⟨ready_step sys x.1 sys' h.1 hs, balanced_step sys x.1 sys' h.1 h.2 hs⟩
  unfold clockedStep at hstep
  split at hstep
  · rename_i config st hl hs
    split at hstep
    · obtain ⟨sys₁, hstep₁, rfl⟩ := Option.map_eq_some_iff.1 hstep
      rw [hl] at hstep₁
      cases step_move hstep₁ with
      | opened =>
        refine ⟨fun s' hs' => ?_, fun s' hs' => ?_⟩ <;> cases hs'
        · exact ⟨fun hr => (by cases hr), fun b hb => (by cases hb)⟩
        · exact ⟨fun _ => Nat.le_refl 0, fun _ _ _ _ he => (by cases he),
            fun _ => (by simp [startSession]), fun hn => absurd rfl hn⟩
      | notOpened hn =>
        refine ⟨fun s' hs' => ?_, fun s' hs' => ?_⟩ <;> simp [afterOpen, hn] at hs'
    · exact hplain hstep
  · rename_i s hl hs
    split at hstep
    · rename_i msg hp
      cases hstep
      unfold deadlinePanic at hp
      split at hp
      · rename_i r queue hw hq
        obtain ⟨hb, -, hrej, hsend⟩ := h.2 s hs
        refine ⟨fun s' hs' => ?_, fun s' hs' => ?_⟩
        · cases hs'
          exact ⟨fun hr => (by cases hr), fun b hb => (by cases hb)⟩
        · cases hs'
          refine ⟨fun _ => ?_, fun _ _ _ _ he => (by cases he),
            fun _ => hrej (by simp [receiving, hw]), hsend⟩
          have := hb (by simp [accounting, hw])
          simp only [queued, held, hw, hq, List.map_cons, List.sum_cons, List.tail_cons,
            inflight] at this ⊢
          omega
      · cases hp
    · exact hplain hstep
  · exact hplain hstep

/-- **The worker panics on its own** in no step of a run but where the platform cannot represent
what the configuration asks for. -/
theorem runs_panics {p : Platform} {xs : List (Label Cb sm × Nat)} {sys : System A C Cb}
    (h : runs (clockedStep p) (System.fresh A C Cb) xs = some sys) (x : Label Cb sm × Nat) :
    (∀ msg, panicOf p sys x = some msg → FromUser x.1 msg) ↔ Representable p sys x := by
  have hall : sys.InSession Ready ∧ sys.InSession Balanced :=
    runs_invariant (I := fun sys => sys.InSession Ready ∧ sys.InSession Balanced)
      (fun _ _ _ hi hs => clockedStep_invariant hi hs) ⟨fresh_inSession, fresh_inSession⟩ h
  obtain ⟨l, now⟩ := x
  have hnone : ∀ o : Option String, (∀ script, l ≠ .exec script) →
      ((∀ msg, o = some msg → FromUser l msg) ↔ o = none) := by
    intro o hl
    refine ⟨fun h => ?_, fun h msg hm => by rw [h] at hm; cases hm⟩
    rcases o with _ | msg
    · rfl
    · obtain ⟨script, he, -⟩ := h msg rfl
      exact absurd he (hl script)
  cases l with
  | «open» config st =>
    rw [hnone _ (by simp)]
    unfold panicOf Representable
    rcases hs : sys.session with _ | s
    · simp only
      rcases hb : (step sys (.open config st : Label Cb sm)).bind (·.session) with _ | s
      · exact iff_of_true rfl fun hex => (by obtain ⟨s, hs⟩ := hex; cases hs)
      · exact Platform.capacityPanic_none.trans ⟨fun h _ => h, fun h => h ⟨s, rfl⟩⟩
    · refine iff_of_true rfl fun hex => ?_
      obtain ⟨s', hs'⟩ := hex
      simp [step, hs] at hs'
  | recv =>
    rw [hnone _ (by simp)]
    unfold panicOf Representable
    rcases hs : sys.session with _ | s
    · exact iff_of_true rfl fun s hs' => by cases hs'
    simp only [deadlinePanic]
    refine ⟨fun h s' hs' hw r q hq hwr => ?_, fun h => ?_⟩
    · cases hs'
      rw [hw, hq] at h
      exact WorkerRequest.deadline_none.1 h hwr
    · split
      · rename_i r q hw hq
        exact WorkerRequest.deadline_none.2 (h s rfl hw r q hq)
      · rfl
  | exec script =>
    refine iff_of_true (fun msg hm => ?_) trivial
    rcases hs : sys.session with _ | s
    · simp [panicOf, hs] at hm
    simp only [panicOf, hs, batchPanic] at hm
    split at hm
    · rename_i b hw
      split at hm
      · rename_i msg' hx
        cases hm
        exact ⟨script, rfl, Worker.execBatch_blames ((hall.1 s hs).collected b hw)
          ((hall.1 s hs).files (by rw [hw]; rfl)) hx⟩
      · cases hm
    · cases hm
  | effect =>
    refine iff_of_true (fun msg hm => ?_) trivial
    rcases hs : sys.session with _ | s
    · simp [panicOf, hs] at hm
    simp only [panicOf, hs, releasePanic] at hm
    split at hm
    · rename_i b n es stop held hw
      have hb := hall.2 s hs
      have ha := hb.account (by simp [accounting, hw])
      have hr := hb.releases _ _ _ _ hw
      have hsum : (released (.release n :: es : List (Effect C Cb))).sum = n + (released es).sum :=
        List.sum_cons
      simp only [Session.held, hw] at ha
      rw [hsum] at hr
      rw [if_neg (by omega)] at hm
      cases hm
    · cases hm
  | openCrash | crash | drop | call | client | collect | releaseAll | fail | dropReceiver =>
    refine iff_of_true (fun msg hm => ?_) trivial
    simp [panicOf] at hm

end

open Register

/-- Signed numbers of 64 bits, for the seconds of an instant and the bytes of an allocation. -/
def signed64 : Platform := { latest := 2 ^ 63 * 1000000000, itemSize := 72, maxBytes := 2 ^ 63 - 1 }

/-- The worker takes a request. -/
def takes (now : Nat) : Register.Step × Nat := (.recv, now)

/-- A request waits for the worker. -/
def sentRun (config : Config) : List (Register.Step × Nat) :=
  (start config :: puts 1 ++ sends true).map fun l => (l, 0)

theorem runs_panics_sent : ∃ sys : System Put Register Nat,
    runs (clockedStep signed64) (System.fresh Put Register Nat) (sentRun Register.config)
      = some sys ∧
    ∀ msg, panicOf signed64 sys (takes 5) = some msg → FromUser (takes 5).1 msg := by
  have h : ((runs (clockedStep signed64) (System.fresh Put Register Nat)
    (sentRun Register.config)).any fun sys =>
      sys.session.all fun s => decide (5 + s.config.flushBatchWait ≤ signed64.latest)) = true :=
        by decide +kernel
  obtain ⟨sys, hsys, h⟩ := (Option.any_eq_true _ _).1 h
  refine ⟨sys, hsys, (runs_panics hsys (takes 5)).2 ?_⟩
  intro s hs _ _ _ _ _
  rw [hs] at h
  exact of_decide_eq_true h

/-- `Duration::MAX`. -/
def longWait : Config :=
  { Register.config with flushBatchWait? := some ((2 ^ 64 - 1) * 1000000000 + 999999999) }

/-- `usize::MAX`. -/
def largeBatch : Config := { Register.config with flushBatchMaxItems? := some (2 ^ 64 - 1) }

/-- **Accepted settings** kill the worker: a wait with its first batch, a batch size when it
starts. -/
theorem settings_panic : ¬ (∀ (xs : List (Register.Step × Nat)) (sys : System Put Register Nat)
      (x : Register.Step × Nat) (msg : String), longWait.validate = .ok () →
      runs (clockedStep signed64) (System.fresh Put Register Nat) xs = some sys →
      panicOf signed64 sys x = some msg → FromUser x.1 msg) ∧
    ¬ ∀ (x : Register.Step × Nat) (msg : String), largeBatch.validate = .ok () →
      panicOf signed64 (System.fresh Put Register Nat) x = some msg → FromUser x.1 msg := by
  refine ⟨fun hall => ?_, fun hall => ?_⟩
  · have h : ((runs (clockedStep signed64) (System.fresh Put Register Nat)
      (sentRun longWait)).any fun sys =>
        (panicOf signed64 sys (takes 0)).isSome) = true := by decide +kernel
    obtain ⟨sys, hsys, h⟩ := (Option.any_eq_true _ _).1 h
    obtain ⟨msg, hmsg⟩ := Option.isSome_iff_exists.1 h
    obtain ⟨script, hl, -⟩ := hall _ sys (takes 0) msg (by decide) hsys hmsg
    cases hl
  · have h : (panicOf signed64 (System.fresh Put Register Nat) (start largeBatch, 0)).isSome
      = true := by
      decide +kernel
    obtain ⟨msg, hmsg⟩ := Option.isSome_iff_exists.1 h
    obtain ⟨script, hl, -⟩ := hall (start largeBatch, 0) msg (by decide) hmsg
    cases hl

end System

end Wal

import Wal.Batching
import Wal.Flow

/-!
# The history of a session

Which batches the worker has run, what they did, and how the sequence numbers relate the requests
that were sent to those that are done. `Session.Traced` splits the trace into the effects of the
batches; `Session.Numbered` says where every accepted request is: in a batch, or in the channel
behind it.
-/

namespace Wal

open Lib

variable {A C Cb : Type}

namespace Worker

/-- Batches that succeeded one after another, with their effects and the files they leave listed. -/
inductive History (files : List (FileEntry C)) :
    List (WriteBatch C Cb) → List (Effect C Cb) → List (FileEntry C) → Prop
  | nil : History files [] [] files
  | snoc {bs es fs b es' fs'} (h : History files bs es fs) (hb : Collected b)
      (ht : BatchTrace fs b none fs' es') : History files (bs ++ [b]) (es ++ es') fs'

/-- What the effects of a batch that succeeds contain: its data goes to the current file, everything
listed is synchronized if a write asks for it, every callback gets `Ok`, and the deferred request is
carried out. -/
structure Fulfilled (files : List (FileEntry C)) (b : WriteBatch C Cb) (es : List (Effect C Cb)) :
    Prop where
  written : ∀ g d, (fileAfter g d es).data =
    d.data ++ if (files.map (·.f)).getLast? = some g then writtenData b.writes else []
  synced : b.writes.any (·.write.sync) = true →
    ∀ g ∈ files.map (·.f), ∀ d, Durable (fileAfter g d es)
  answered : Wal.answered es = replies (.ok ()) b.writes
  deferred : ∀ q, b.lastNonFlush = some q → ∃ fs, handled fs q <:+: es

/-- A batch that succeeds does all it was asked to, and is completed last. -/
theorem BatchTrace.fulfilled {files fs : List (FileEntry C)} {b : WriteBatch C Cb}
    {es : List (Effect C Cb)} (h : BatchTrace files b none fs es) :
    Fulfilled files b es ∧ ∃ es', es = es' ++ [.complete (batchSeq b)] ∧ completed es' = [] := by
  generalize hst : (none : Option Stop) = stop at h
  have infix_of : ∀ {q} {fs₀ fs₁ : List (FileEntry C)} {es' : List (Effect C Cb)}
      (pre : List (Effect C Cb)), HandledDeferred fs₀ b (.ok ()) fs₁ es' → b.lastNonFlush = some q →
      ∃ fs, handled fs q <:+: pre ++ es' ++ [.complete (batchSeq b)] := by
    intro q fs₀ fs₁ es' pre h hq
    unfold HandledDeferred at h
    rw [hq] at h
    obtain ⟨-, rfl⟩ := h
    exact ⟨fs₀, pre, _, rfl⟩
  cases h with
  | @single r _ es hw h =>
    rcases r with s | ⟨⟩
    · cases hst
    rw [completion_ok]
    refine ⟨⟨fun g d => ?_, fun hs => ?_, ?_, fun q hq => ?_⟩, es, rfl,
      completed_handling h.isHandling⟩
    · rw [fileAfter_append, h.neutral, hw]
      simp [fileAfter, Effect.onFile, writtenData]
    · simp [hw] at hs
    · rw [answered_append, answered_handling h.isHandling, hw]
      rfl
    · simpa using infix_of [] h hq
  | flushStopped => cases hst
  | answerStopped => cases hst
  | failed => cases hst
  | @flushed f upto fs₁ es₁ r _ es' ht h h' =>
    rcases r with s | ⟨⟩
    · cases hst
    rw [completion_ok]
    have hfile : ∀ g d,
      fileAfter g d (es₁ ++ answers (.ok ()) b.writes ++ [.release b.bytes] ++ es' ++
        [.complete (batchSeq b)]) = fileAfter g d es₁ := by
      intro g d
      simp only [fileAfter_append, fileAfter_answers fun _ h => h, h'.neutral]
      rfl
    refine ⟨⟨fun g d => ?_, fun hs g hg d => ?_, ?_, fun q hq => infix_of _ h' hq⟩, _, rfl, ?_⟩
    · rw [hfile, (h.file_eq ht.getLast).2, ht.getLast]
      simp only [Option.some.injEq]
      split <;> split <;> simp_all
    · rw [hfile]
      exact ((h.listed_or_durable ht.getLast g d).1 hg).1 hs
    · simp only [answered_append, answered_flush h.isFlush, answered_answers,
        answered_handling h'.isHandling, List.nil_append]
      simp [Wal.answered, Effect.answer?]
    · simp only [completed_append, completed_flush h.isFlush, completed_handling h'.isHandling,
        completed_answers fun _ h => h]
      simp

theorem doneAfter_single (n : Nat) (e : Effect C Cb) :
    doneAfter n [e] = max n (e.complete?.getD 0) := by
  cases e with
  | complete seq => rfl
  | _ => exact (Nat.max_zero n).symm

/-- A batch that stops the worker completes nothing. -/
theorem BatchTrace.completed_nil {files fs : List (FileEntry C)} {b : WriteBatch C Cb} {stop : Stop}
    {es : List (Effect C Cb)} (h : BatchTrace files b (some stop) fs es) : completed es = [] := by
  generalize hst : some stop = stop' at h
  have hcompl : ∀ r, stopOf r = some stop → completed (completion (C := C) b r) = [] := by
    rintro (s | ⟨⟩) hr
    · rfl
    · cases hr
  cases h with
  | single hw h => simp [completed_handling h.isHandling, hcompl _ hst.symm]
  | flushStopped _ h => exact completed_flush h.isFlush
  | answerStopped _ h h' => simp [completed_flush h.isFlush, completed_answers h'.mem]
  | @failed _ _ e _ es _ h =>
    have ha : completed (answers (C := C) (.error e) b.writes) = [] :=
      completed_answers fun _ h => h
    simp [completed_flush h.isFlush, ha]
  | @flushed _ _ _ _ _ _ _ _ h h' =>
    have ha : completed (answers (C := C) (.ok ()) b.writes) = [] :=
      completed_answers fun _ h => h
    simp [completed_flush h.isFlush, ha, completed_handling h'.isHandling, hcompl _ hst.symm]

namespace History

variable {files fs : List (FileEntry C)} {bs : List (WriteBatch C Cb)} {es : List (Effect C Cb)}

/-- Every batch of a history was performed by a piece of it, behind the batches before it. -/
theorem fulfilled (h : History files bs es fs) :
    ∀ b ∈ bs, ∃ before later pre fs₁ es' fs₂ post, bs = before ++ b :: later ∧
      es = pre ++ es' ++ post ∧ History files before pre fs₁ ∧ BatchTrace fs₁ b none fs₂ es' ∧
      Fulfilled fs₁ b es' := by
  induction h with
  | nil => simp
  | @snoc bs es fs b es' fs' h hb ht ih =>
    intro b' hb'
    rcases List.mem_append.1 hb' with hb' | hb'
    · obtain ⟨before, later, pre, fs₁, es'', fs₂, post, rfl, rfl, hh, ht', hp⟩ := ih b' hb'
      exact ⟨before, later ++ [b], pre, fs₁, es'', fs₂, post ++ es', by simp, by simp, hh, ht', hp⟩
    · obtain rfl := List.mem_singleton.1 hb'
      exact ⟨bs, [], es, fs, es', fs', [], rfl, by simp, h, ht, ht.fulfilled.1⟩

theorem doneAfter_eq (h : History files bs es fs) :
    doneAfter 0 es = ((bs.flatMap (·.requests)).map (·.seq)).foldl max 0 := by
  induction h with
  | nil => rfl
  | @snoc bs es fs b es' fs' _ hb ht ih =>
    obtain ⟨-, es'', rfl, hc⟩ := ht.fulfilled
    rw [doneAfter_append, ih, List.flatMap_append, List.map_append, List.foldl_append]
    simp only [List.flatMap_cons, List.flatMap_nil, List.append_nil]
    rw [← max_batchSeq hb]
    simp [doneAfter, hc]

end History

end Worker

namespace Session

/-- The batch `b` is in execution: the effects `rest` are still to come. -/
def InBatch (s : Session A C Cb) (b : WriteBatch C Cb) (rest : List (Effect C Cb))
    (stop : Option Stop) : Prop :=
  ∃ (first : FileEntry C) (bs : List (WriteBatch C Cb)) (pre : List (Effect C Cb))
    (fs : List (FileEntry C)) (done : List (Effect C Cb)), s.batches = bs ++ [b] ∧
    Worker.Collected b ∧ Worker.History [first] bs pre fs ∧ s.trace = pre ++ done ∧
    Worker.BatchTrace fs b stop s.files (done ++ rest)

/-- Every batch so far has succeeded. -/
def Between (s : Session A C Cb) : Prop :=
  ∃ first : FileEntry C, Worker.History [first] s.batches s.trace s.files

/-- The last batch has stopped the worker. -/
def Broken (s : Session A C Cb) : Prop := ∃ b stop, s.InBatch b [] (some stop)

/-- **The trace of a session**, by where the worker stands. -/
def Traced (s : Session A C Cb) : Prop :=
  match s.worker with
  | .exec b rest stop _ => s.InBatch b rest stop ∧ s.status = none
  | .stopping (some _) | .released _ => s.Broken ∧ s.status = none
  | .exiting | .terminated => if s.status = none then s.Between else s.Broken
  | _ => s.Between ∧ s.status = none

/-- The worker stopped behind its last batch, for the reason that the error `e` tells. -/
def StoppedBy (s : Session A C Cb) (e : IoError) : Prop :=
  ∃ b stop, s.InBatch b [] (some stop) ∧ stop ≠ .starved ∧ e = stopError stop

/-- **The trace of a session, and why it ends.** -/
def Explained (s : Session A C Cb) : Prop :=
  match s.worker with
  | .exec b rest stop _ => s.InBatch b rest stop ∧ stop ≠ some .starved ∧ s.status = none
  | .stopping (some e) | .released e => s.StoppedBy e ∧ s.status = none
  | .exiting | .terminated =>
    match s.status with
    | none => s.Between
    | some e => s.StoppedBy e
  | _ => s.Between ∧ s.status = none

/-- The requests of the batch under collection. -/
def collecting (s : Session A C Cb) : List (SeqRequest C Cb) :=
  match s.worker with
  | .collect b => b.requests
  | _ => []

/-- The worker has taken every request, and stops because the channel is closed. -/
def ended (s : Session A C Cb) : Bool :=
  match s.worker with
  | .stopping none => true
  | .exiting | .terminated => s.status.isNone
  | _ => false

/-- **The requests of a session.** Those that the channel accepted are numbered from one; each is in
a batch or in the channel, in this order, unless the channel is gone after a failure. -/
structure Numbered (s : Session A C Cb) : Prop where
  seqs : s.sent.map (·.request.seq) = List.range' 1 s.sent.length
  taken : s.batches.flatMap (·.requests) ++ s.collecting ++ s.queue <+: s.sent.map (·.request)
  all : s.receiving = true ∨ s.status = none →
    s.batches.flatMap (·.requests) ++ s.collecting ++ s.queue = s.sent.map (·.request) ∧
      s.sentSeq = s.sent.length
  le : s.sent.length ≤ s.sentSeq
  done : s.doneSeq = doneAfter 0 s.trace
  ended : s.ended = true → s.queue = [] ∧ s.tx = false
  closed : s.tx = false → s.sending = .idle

theorem not_receiving {s : Session A C Cb} : s.receiving = false ↔ s.worker = .terminated := by
  unfold receiving
  split <;> simp_all

theorem StoppedBy.broken {s : Session A C Cb} {e : IoError} (h : s.StoppedBy e) : s.Broken := by
  obtain ⟨b, stop, hb, -, -⟩ := h
  exact ⟨b, stop, hb⟩

theorem Explained.traced {s : Session A C Cb} (h : s.Explained) : s.Traced := by
  unfold Explained at h
  unfold Traced
  rcases hw : s.worker with _ | b | ⟨b, rest, stop, held⟩ | err | e | _ | _ <;>
    simp only [hw] at h ⊢
  · exact h
  · exact h
  · exact ⟨h.1, h.2.2⟩
  · rcases err with _ | e
    · exact h
    · exact ⟨h.1.broken, h.2⟩
  · exact ⟨h.1.broken, h.2⟩
  all_goals
    rcases hst : s.status with _ | e <;> simp only [hst] at h
    · rwa [if_pos rfl]
    · rw [if_neg (by simp)]
      exact h.broken

theorem Explained.of_eq {s s' : Session A C Cb} (h : s.Explained) (hw : s'.worker = s.worker)
    (hf : s'.files = s.files) (hb : s'.batches = s.batches) (ht : s'.trace = s.trace)
    (hst : s'.status = s.status) : s'.Explained := by
  unfold Explained StoppedBy InBatch Between at h ⊢
  rwa [hw, hf, hb, ht, hst]

theorem Numbered.of_idle {s s' : Session A C Cb} (h : s.Numbered) (hw : s'.worker = s.worker)
    (hq : s'.queue = s.queue) (hb : s'.batches = s.batches) (ht : s'.trace = s.trace)
    (hse : s'.sent = s.sent) (hn : s'.sentSeq = s.sentSeq) (hd : s'.doneSeq = s.doneSeq)
    (hst : s'.status = s.status) (htx : s'.tx = false ∨ s'.tx = s.tx) (hi : s'.sending = .idle) :
    s'.Numbered := by
  obtain ⟨h1, h2, h3, h4, h5, h6, h7⟩ := h
  have hc : s'.collecting = s.collecting := by simp only [collecting, hw]
  have hr : s'.receiving = s.receiving := by simp only [receiving, hw]
  have he : s'.ended = s.ended := by simp only [Session.ended, hw, hst]
  refine ⟨by rwa [hse], ?_, ?_, ?_, by rw [hd, ht]; exact h5, ?_, fun _ => hi⟩
  · rwa [hb, hc, hq, hse]
  · rwa [hr, hst, hb, hc, hq, hse, hn]
  · rwa [hse, hn]
  · rw [he, hq]
    intro he
    obtain ⟨hq0, ht0⟩ := h6 he
    refine ⟨hq0, ?_⟩
    rcases htx with htx | htx
    · exact htx
    · rwa [htx]

/-- The requests that a session has taken and not taken yet, in their order. -/
def accepted (s : Session A C Cb) : List (SeqRequest C Cb) :=
  s.batches.flatMap (·.requests) ++ s.collecting ++ s.queue

/-- While the worker receives, it moves requests on and loses none. -/
theorem Numbered.worker {s s' : Session A C Cb} (h : s.Numbered) (hr : s.receiving = true)
    (ha : s'.accepted = s.accepted) (hse : s'.sent = s.sent) (hn : s'.sentSeq = s.sentSeq)
    (htx : s'.tx = s.tx) (hi : s'.sending = s.sending) (hd : s'.doneSeq = doneAfter 0 s'.trace)
    (he : s'.ended = true → s'.queue = [] ∧ s'.tx = false) : s'.Numbered := by
  have hall : s'.accepted = s'.sent.map (·.request) ∧ s'.sentSeq = s'.sent.length := by
    rw [ha, hse, hn]
    exact h.all (.inl hr)
  refine ⟨hse ▸ h.seqs, hall.1 ▸ List.prefix_refl _, fun _ => hall, ?_, hd, he, ?_⟩
  · rw [hse, hn]
    exact h.le
  · rw [htx, hi]
    exact h.closed

/-- The channel accepts a request. -/
theorem Numbered.enqueued {s : Session A C Cb} (h : s.Numbered) (hn : s.sending = .reserved)
    (hr : s.receiving = true) (op : Op A C Cb)
    (k : IoResult → Prog (ClientAct A C Cb) IoResult (Except Fault (Ret C) × ChunkedWal C))
    (req : WorkerRequest C Cb) (mark : Nat) :
    Numbered { s.respond op k (.ok ()) with
      sentSeq := s.sentSeq + 1
      queue := s.queue ++ [{ seq := s.sentSeq + 1, req }]
      sent := s.sent ++ [{ request := { seq := s.sentSeq + 1, req }, mark }] } := by
  obtain ⟨h1, h2, h3, h4, h5, h6, h7⟩ := h
  obtain ⟨hall, hseq⟩ := h3 (.inl hr)
  have hall' : s.batches.flatMap (·.requests) ++ s.collecting ++
      (s.queue ++ [({ seq := s.sentSeq + 1, req } : SeqRequest C Cb)]) =
      s.sent.map (·.request) ++ [{ seq := s.sentSeq + 1, req }] := by
    rw [← hall]
    simp
  refine ⟨?_, ?_, fun _ => ⟨?_, by simp [hseq]⟩, by simp; omega, h5, fun he => ?_, fun _ => rfl⟩
  · simp only [List.map_append, List.length_append, List.map_cons, List.map_nil, List.length_cons,
      List.length_nil, h1, hseq]
    rw [List.range'_concat]
    simp [Nat.add_comm]
  · rw [List.map_append]
    exact hall' ▸ List.prefix_refl _
  · rw [List.map_append]
    exact hall'
  · obtain ⟨-, htx⟩ := h6 he
    exact absurd (h7 htx) (by simp [hn])

/-- The channel is gone: the worker has failed. -/
theorem Numbered.rejected {s : Session A C Cb} (h : s.Numbered) (hn : s.sending = .reserved)
    (hr : s.receiving = false) :
    Numbered { s with sentSeq := s.sentSeq + 1, sending := .rejected } := by
  obtain ⟨h1, h2, h3, h4, h5, h6, h7⟩ := h
  have htx : s.tx ≠ false := fun htx => absurd (h7 htx) (by simp [hn])
  refine ⟨h1, h2, fun hor => ?_, Nat.le_succ_of_le h4, h5, h6, fun h => absurd h htx⟩
  -- without a failure the worker stops only when the channel is closed
  have hw : s.worker = .terminated := not_receiving.1 hr
  rcases hor with hr' | hst
  · exact absurd (hr.symm.trans hr') (by simp)
  · exact absurd (h6 (by simpa [Session.ended, hw] using hst)).2 htx

/-- What the channel still holds is lost, if anything. -/
theorem Numbered.dropped {s : Session A C Cb} (h : s.Numbered) (hw : s.worker = .exiting) :
    Numbered { s with queue := [], worker := .terminated } := by
  obtain ⟨h1, h2, h3, h4, h5, h6, h7⟩ := h
  have hall := h3 (.inl (by simp [receiving, hw]))
  have hc : s.collecting = [] := by simp only [collecting, hw]
  rw [hc] at h2 hall
  have hend : s.status = none → s.ended = true := fun hst => by simp [Session.ended, hw, hst]
  refine ⟨h1, ?_, fun hor => ?_, h4, h5, fun he => ?_, h7⟩
  · exact ((List.prefix_append_right_inj _).2 List.nil_prefix).trans h2
  · have hq := (h6 (hend (hor.resolve_left (by simp [receiving])))).1
    rw [hq] at hall
    exact hall
  · exact ⟨rfl, (h6 (hend (by simpa [Session.ended] using he))).2⟩

end Session

namespace System

open Session

variable [Crc32fast] [Encode A] [Decode A] [Encode C] [Decode C] {sm : StateMachine A C}

theorem explained_step (sys : System A C Cb) (l : Label Cb sm) (sys' : System A C Cb)
    (hr : sys.InSession Ready) (h : sys.InSession Explained) (hstep : step sys l = some sys') :
    sys'.InSession Explained := by
  intro s' hs'
  cases step_move hstep with
  | opened =>
    cases hs'
    exact ⟨⟨_, .nil⟩, rfl⟩
  | notOpened hn => exact absurd hs' (by simp [afterOpen, hn])
  | openCrashed hn => exact absurd hs' (by simp [afterOpen, hn])
  | crashed | dropped => cases hs'
  | received hs hw | collected hs hw | disconnected hs hw =>
    have := h _ hs
    cases hs'
    rw [Explained, hw] at this
    exact this
  | @executed s b script hs hw hn =>
    have := h _ hs
    cases hs'
    rw [Explained, hw] at this
    obtain ⟨⟨files, hh⟩, hst⟩ := this
    exact ⟨⟨files, _, _, _, [], rfl, (hr _ hs).collected b hw, hh, (List.append_nil _).symm,
      executed_trace (hr _ hs) hw script⟩, hn, hst⟩
  | @effect s b e effects stop held fs' hs hw =>
    have := h _ hs
    cases hs'
    rw [Explained, hw] at this
    obtain ⟨⟨files, bs, pre, fs, done, hb, hc, hh, ht, hbt⟩, hn, hst⟩ := this
    refine ⟨⟨files, bs, pre, fs, done ++ [e], hb, hc, hh, ?_, ?_⟩, hn, hst⟩
    · simp only [ht, List.append_assoc]
    · rwa [List.append_assoc]
  | batchDone hs hw =>
    have := h _ hs
    cases hs'
    rw [Explained, hw] at this
    obtain ⟨⟨files, bs, pre, fs, done, hb, hc, hh, ht, hbt⟩, -, hst⟩ := this
    refine ⟨⟨files, ?_⟩, hst⟩
    rw [List.append_nil] at hbt
    simp only [hb, ht]
    exact hh.snoc hc hbt
  | batchStopped hs hw =>
    have := h _ hs
    cases hs'
    rw [Explained, hw] at this
    obtain ⟨hin, hn, hst⟩ := this
    exact ⟨⟨_, _, hin, fun h => hn (congrArg some h), rfl⟩, hst⟩
  | releasedAll hs hw =>
    have := h _ hs
    cases hs'
    rw [Explained, hw] at this
    simp only [Explained, this.2]
    exact this.1
  | releasedFailed hs hw =>
    have := h _ hs
    cases hs'
    rw [Explained, hw] at this
    exact this
  | failed hs hw =>
    have := h _ hs
    cases hs'
    rw [Explained, hw] at this
    exact this.1
  | receiverDropped hs hw =>
    have := h _ hs
    cases hs'
    rw [Explained, hw] at this
    exact this
  | _ =>
    have := h _ ‹sys.session = some _›
    cases hs'
    exact this.of_eq rfl rfl rfl rfl rfl

theorem numbered_step (sys : System A C Cb) (l : Label Cb sm) (sys' : System A C Cb)
    (hb : sys.InSession Balanced) (h : sys.InSession Numbered) (hstep : step sys l = some sys') :
    sys'.InSession Numbered := by
  intro s' hs'
  cases step_move hstep with
  | opened =>
    cases hs'
    exact ⟨rfl, List.nil_prefix, fun _ => ⟨rfl, rfl⟩, Nat.le_refl _, rfl,
      fun he => Bool.noConfusion he, fun _ => rfl⟩
  | notOpened hn => exact absurd hs' (by simp [afterOpen, hn])
  | openCrashed hn => exact absurd hs' (by simp [afterOpen, hn])
  | crashed | dropped => cases hs'
  | called hs hc | finished hs hc =>
    have hi := (hb _ hs).idle fun _ _ _ hc' => by rw [hc] at hc'; cases hc'
    have := h _ hs
    cases hs'
    exact this.of_idle rfl rfl rfl rfl rfl rfl rfl rfl (.inr rfl) hi
  | acquired hs hc hn htx =>
    obtain ⟨h1, h2, h3, h4, h5, h6, -⟩ := h _ hs
    cases hs'
    exact ⟨h1, h2, h3, h4, h5, h6, fun h => absurd (htx.symm.trans h) (by simp)⟩
  | enqueued hs hc hn hr =>
    cases hs'
    exact (h _ hs).enqueued hn hr _ _ _ _
  | rejected hs hc hn hr =>
    cases hs'
    exact (h _ hs).rejected hn hr
  | underflow hs hc hn | givenBack hs hc hn | refused hs hc hn | notCreated hs | «exists» hs
  | created hs | notSynced hs | synced hs | joined hs | waited hs | noted hs =>
    have := h _ hs
    cases hs'
    exact this.of_idle rfl rfl rfl rfl rfl rfl rfl rfl (.inr rfl) rfl
  | closed hs =>
    have := h _ hs
    cases hs'
    exact this.of_idle rfl rfl rfl rfl rfl rfl rfl rfl (.inl rfl) rfl
  -- The worker
  | @received s r queue hs hw hq =>
    cases hs'
    refine (h _ hs).worker (by simp [receiving, hw]) ?_ rfl rfl rfl rfl (h _ hs).done
      fun he => Bool.noConfusion he
    simp only [accepted, collecting, hw, hq, WriteBatch.push_requests (b := WriteBatch.new _) rfl]
    show _ ++ ([] ++ [r]) ++ queue = _
    simp
  | @collected s b r queue hs hw hq hm =>
    cases hs'
    refine (h _ hs).worker (by simp [receiving, hw]) ?_ rfl rfl rfl rfl (h _ hs).done
      fun he => Bool.noConfusion he
    simp only [accepted, collecting, hw, hq, WriteBatch.push_requests (wantsMore_deferred hm)]
    simp
  | @executed s b script hs hw =>
    cases hs'
    refine (h _ hs).worker (by simp [receiving, hw]) ?_ rfl rfl rfl rfl (h _ hs).done
      fun he => Bool.noConfusion he
    simp [accepted, collecting, hw]
  | @effect s b e effects stop held fs' hs hw =>
    cases hs'
    refine (h _ hs).worker (by simp [receiving, hw]) ?_ rfl rfl rfl rfl ?_
      fun he => Bool.noConfusion he
    · simp [accepted, collecting, hw, onEffect]
    · simp only [onEffect, doneAfter_append, (h _ hs).done, Worker.doneAfter_single]
  | disconnected hs hw hq htx =>
    cases hs'
    exact (h _ hs).worker (by simp [receiving, hw]) (by simp [accepted, collecting, hw]) rfl rfl rfl
      rfl (h _ hs).done fun _ => ⟨hq, htx⟩
  | batchDone hs hw | batchStopped hs hw | releasedFailed hs hw | failed hs hw =>
    cases hs'
    exact (h _ hs).worker (by simp [receiving, hw]) (by simp [accepted, collecting, hw]) rfl rfl rfl
      rfl (h _ hs).done fun he => Bool.noConfusion he
  | releasedAll hs hw =>
    cases hs'
    exact (h _ hs).worker (by simp [receiving, hw]) (by simp [accepted, collecting, hw]) rfl rfl rfl
      rfl (h _ hs).done fun _ => (h _ hs).ended (by simp [Session.ended, hw])
  | receiverDropped hs hw =>
    cases hs'
    exact (h _ hs).dropped hw

theorem runs_explained {ls : List (Label Cb sm)} {sys : System A C Cb}
    (h : runs step (System.fresh A C Cb) ls = some sys) :
    sys.InSession Explained ∧ sys.InSession Numbered := by
  have hall : sys.InSession Ready ∧ sys.InSession Balanced ∧ sys.InSession Explained ∧
      sys.InSession Numbered := by
    refine runs_invariant (I := fun sys => sys.InSession Ready ∧ sys.InSession Balanced ∧
      sys.InSession Explained ∧ sys.InSession Numbered) ?_ ?_ h
    · rintro s l s' ⟨h1, h2, h3, h4⟩ hs
      exact ⟨ready_step s l s' h1 hs, balanced_step s l s' h1 h2 hs, explained_step s l s' h1 h3 hs,
        numbered_step s l s' h2 h4 hs⟩
    · exact ⟨fresh_inSession, fresh_inSession, fresh_inSession, fresh_inSession⟩
  exact hall.2.2

theorem runs_history {ls : List (Label Cb sm)} {sys : System A C Cb}
    (h : runs step (System.fresh A C Cb) ls = some sys) :
    sys.InSession Traced ∧ sys.InSession Numbered := by
  obtain ⟨he, hn⟩ := runs_explained h
  exact ⟨fun s hs => (he s hs).traced, hn⟩

end System

end Wal

import Wal.ClientRules
import Wal.FailStop
import Wal.History

/-!
# Waiting for the worker

What `wait_worker_idle` and `shutdown` can rely on. If the worker has completed the last sequence
number, every request was carried out; after a failure it never does; and when its thread is gone
the status decides at once. `runs_wait` puts this together for runs in which no byte of the queue is
lost or left behind (`Orderly`), so that the client always gets to its answer.
-/

namespace Wal

open Lib

variable {A C Cb : Type}

namespace Session

/-- A request was carried out without an error: the batch that holds it ran to its end with the
effects `es`, behind the batches before it, which leave the files `fs` listed, and did all it was
asked to do with these files. -/
def Processed (s : Session A C Cb) (r : SeqRequest C Cb) : Prop :=
  ∃ (first : FileEntry C) (before : List (WriteBatch C Cb)) (b : WriteBatch C Cb)
    (later : List (WriteBatch C Cb)) (pre es post : List (Effect C Cb))
    (fs fs' : List (FileEntry C)),
    s.batches = before ++ b :: later ∧ r ∈ b.requests ∧ s.trace = pre ++ es ++ post ∧
    Worker.History [first] before pre fs ∧ Worker.BatchTrace fs b none fs' es ∧
    Worker.Fulfilled fs b es

/-- A request has failed, or has panicked the worker. -/
def failing (s : Session A C Cb) : Bool :=
  match s.worker with
  | .exec _ _ (some _) _ | .stopping (some _) | .released _ => true
  | .exiting | .terminated => s.status.isSome
  | _ => false

theorem foldl_max_range' (n : Nat) : (List.range' 1 n).foldl max 0 = n := by
  induction n with
  | zero => rfl
  | succ n ih =>
    rw [List.range'_concat, List.foldl_append, ih]
    simp
    omega

/-- The batches of a history have completed as many requests as they hold. -/
theorem Numbered.doneAfter_eq {s : Session A C Cb} (h : s.Numbered) {files fs : List (FileEntry C)}
    {bs : List (WriteBatch C Cb)} {es : List (Effect C Cb)} (hh : Worker.History files bs es fs)
    (hp : bs.flatMap (·.requests) <+: s.sent.map (·.request)) :
    doneAfter 0 es = (bs.flatMap (·.requests)).length := by
  have hseq : (bs.flatMap (·.requests)).map (·.seq) =
      List.range' 1 (bs.flatMap (·.requests)).length := by
    have hp' := hp.map (·.seq)
    rw [List.map_map, Function.comp_def, h.seqs] at hp'
    rw [List.prefix_iff_eq_take.1 hp', List.take_range'_of_length_ge (by simpa using hp'.length_le),
      List.length_map]
  rw [hh.doneAfter_eq, hseq, foldl_max_range']

theorem Collected.requests_ne_nil {b : WriteBatch C Cb} (h : Worker.Collected b) :
    b.requests ≠ [] := by
  rcases h.nonempty with hw | hd
  · simp [WriteBatch.requests, hw]
  · obtain ⟨q, hq⟩ := Option.ne_none_iff_exists'.1 hd
    simp [WriteBatch.requests, hq]

/-- A batch that has not done all of its effects, or will stop the worker, is not completed. -/
theorem InBatch.doneSeq_lt {s : Session A C Cb} {b : WriteBatch C Cb} {rest : List (Effect C Cb)}
    {stop : Option Stop} (h : s.InBatch b rest stop) (hn : s.Numbered)
    (hr : stop ≠ none ∨ rest ≠ []) : s.doneSeq < s.sent.length := by
  obtain ⟨files, bs, pre, fs, done, hb, hc, hh, ht, hbt⟩ := h
  have hnil : completed done = [] := by
    rcases stop with _ | stop
    · -- the completion is the last effect, and still to come
      obtain ⟨-, es', he, hc'⟩ := hbt.fulfilled
      have hne := hr.resolve_left (by simp)
      rw [← List.dropLast_append_getLast hne, ← List.append_assoc] at he
      rw [← (List.append_inj' he rfl).1, completed_append, List.append_eq_nil_iff] at hc'
      exact hc'.1
    · have := hbt.completed_nil
      rw [completed_append, List.append_eq_nil_iff] at this
      exact this.1
  have hp : bs.flatMap (·.requests) ++ b.requests <+: s.sent.map (·.request) := by
    refine List.IsPrefix.trans ?_ hn.taken
    rw [hb, List.append_assoc, List.flatMap_append]
    simp
  have hd : s.doneSeq = (bs.flatMap (·.requests)).length := by
    rw [hn.done, ht, doneAfter_append, hn.doneAfter_eq hh ((List.prefix_append _ _).trans hp)]
    simp [doneAfter, hnil]
  have hlt := hp.length_le
  have := List.length_pos_of_ne_nil (Collected.requests_ne_nil hc)
  simp only [List.length_append, List.length_map] at hlt
  omega

/-- Between batches, everything taken from the channel is completed. -/
theorem Between.doneSeq_eq {s : Session A C Cb} (h : s.Between) (hn : s.Numbered) :
    s.doneSeq = (s.batches.flatMap (·.requests)).length := by
  obtain ⟨files, hh⟩ := h
  rw [hn.done, hn.doneAfter_eq hh]
  refine List.IsPrefix.trans ?_ hn.taken
  rw [List.append_assoc]
  exact List.prefix_append _ _

/-- If as many requests are completed as were sent, each of them was carried out. -/
theorem Between.processed {s : Session A C Cb} (h : s.Between) (hn : s.Numbered)
    (hd : s.sent.length ≤ s.doneSeq) : ∀ r ∈ s.sent, s.Processed r.request := by
  intro r hr
  rw [h.doneSeq_eq hn] at hd
  have hp : s.batches.flatMap (·.requests) <+: s.sent.map (·.request) := by
    refine List.IsPrefix.trans ?_ hn.taken
    rw [List.append_assoc]
    exact List.prefix_append _ _
  have hm : r.request ∈ s.batches.flatMap (·.requests) := by
    rw [hp.eq_of_length_le (by simpa using hd)]
    exact List.mem_map_of_mem hr
  obtain ⟨b, hb, hrb⟩ := List.mem_flatMap.1 hm
  obtain ⟨first, hh⟩ := h
  obtain ⟨before, later, pre, fs, es, fs', post, hbs, ht, hh', hbt, hf⟩ := hh.fulfilled b hb
  exact ⟨first, before, b, later, pre, es, post, fs, fs', hbs, hrb, ht, hh', hbt, hf⟩

/-- The last batch, when all of its effects have happened and it has not stopped the worker. -/
theorem InBatch.between {s : Session A C Cb} {b : WriteBatch C Cb} (h : s.InBatch b [] none) :
    s.Between := by
  obtain ⟨files, bs, pre, fs, done, hb, hc, hh, ht, hbt⟩ := h
  rw [List.append_nil] at hbt
  refine ⟨files, ?_⟩
  rw [hb, ht]
  exact hh.snoc hc hbt

/-- A failing worker is behind a batch that stops it. -/
theorem Traced.of_failing {s : Session A C Cb} (ht : s.Traced) (hf : s.failing = true) :
    ∃ b rest stop, s.InBatch b rest (some stop) := by
  have broken : s.Broken → ∃ b rest stop, s.InBatch b rest (some stop) :=
    fun ⟨b, stop, hb⟩ => ⟨b, [], stop, hb⟩
  unfold Traced at ht
  unfold failing at hf
  rcases hw : s.worker with _ | b | ⟨b, rest, stop, held⟩ | err | e | _ | _ <;>
    simp only [hw] at ht hf
  · cases hf
  · cases hf
  · rcases stop with _ | stop
    · cases hf
    · exact ⟨b, rest, stop, ht.1⟩
  · rcases err with _ | e
    · cases hf
    · exact broken ht.1
  · exact broken ht.1
  · exact broken (by simpa only [if_neg (Option.isSome_iff_ne_none.1 hf)] using ht)
  · exact broken (by simpa only [if_neg (Option.isSome_iff_ne_none.1 hf)] using ht)

theorem Traced.of_not_failing {s : Session A C Cb} (ht : s.Traced) (hf : s.failing = false) :
    s.Between ∨ ∃ b rest, s.InBatch b rest none := by
  unfold Traced at ht
  unfold failing at hf
  rcases hw : s.worker with _ | b | ⟨b, rest, stop, held⟩ | err | e | _ | _ <;>
    simp only [hw] at ht hf
  · exact .inl ht.1
  · exact .inl ht.1
  · rcases stop with _ | stop
    · exact .inr ⟨b, rest, ht.1⟩
    · cases hf
  · rcases err with _ | e
    · exact .inl ht.1
    · cases hf
  · cases hf
  · have hst : s.status = none := by simpa using hf
    exact .inl (by simpa only [if_pos hst] using ht)
  · have hst : s.status = none := by simpa using hf
    exact .inl (by simpa only [if_pos hst] using ht)

/-- **A failure stays visible**: the last number is not completed. -/
theorem doneSeq_lt_of_failing {s : Session A C Cb} (ht : s.Traced) (hn : s.Numbered)
    (hf : s.failing = true) : s.doneSeq < s.sentSeq := by
  obtain ⟨b, rest, stop, hb⟩ := ht.of_failing hf
  exact (hb.doneSeq_lt hn (.inl (by simp))).trans_le hn.le

/-- **Waiting is sound.** -/
theorem waitFor_sound {s : Session A C Cb} (ht : s.Traced) (hn : s.Numbered)
    (hw : s.waitFor s.sentSeq = some (.ok ())) : ∀ r ∈ s.sent, s.Processed r.request := by
  have hd : s.sentSeq ≤ s.doneSeq := by
    unfold waitFor at hw
    split at hw
    · assumption
    · split at hw <;> cases hw
  have hf : s.failing = false := by
    by_contra hf
    have := doneSeq_lt_of_failing ht hn (by simpa using hf)
    omega
  rcases ht.of_not_failing hf with hb | ⟨b, rest, hb⟩
  · exact hb.processed hn (hn.le.trans hd)
  · by_cases hr : rest = []
    · subst hr
      exact hb.between.processed hn (hn.le.trans hd)
    · have := hb.doneSeq_lt hn (.inr hr)
      have := hn.le
      omega

/-- **A stopped worker keeps nobody waiting.** -/
theorem waitFor_terminated {s : Session A C Cb} (ht : s.Traced) (hn : s.Numbered)
    (hw : s.worker = .terminated) : s.waitFor s.sentSeq ≠ none := by
  unfold waitFor
  split
  · simp
  · rename_i hlt
    rcases hst : s.status with _ | e
    · -- without a failure everything is completed
      refine absurd ?_ hlt
      rw [Traced, hw] at ht
      simp only [hst, if_true] at ht
      obtain ⟨hall, hseq⟩ := hn.all (.inr hst)
      have hq := (hn.ended (by simp [Session.ended, hw, hst])).1
      rw [hq, collecting, hw] at hall
      rw [ht.doneSeq_eq hn, hseq, ← List.length_map (f := SentRequest.request), ← hall]
      simp
    · simp

theorem waitFor_failing {s : Session A C Cb} (ht : s.Traced) (hn : s.Numbered)
    (hf : s.failing = true) {r : IoResult} (hw : s.waitFor s.sentSeq = some r) :
    ∃ e, r = .error e := by
  have := doneSeq_lt_of_failing ht hn hf
  unfold waitFor at hw
  rw [if_neg (by omega)] at hw
  split at hw
  · exact ⟨_, (Option.some.inj hw).symm⟩
  · cases hw

theorem failing_of_failed {s : Session A C Cb} (ht : s.Traced) {e : IoError}
    (he : .failed e ∈ s.trace) : s.failing = true := by
  have calm : ∀ {files bs es fs}, Worker.History files bs es fs →
    (.failed e : Effect C Cb) ∉ es := by
    intro files bs es fs hh
    induction hh with
    | nil => simp
    | snoc _ _ hbt ih =>
      rw [List.mem_append, not_or]
      refine ⟨ih, fun hm => ?_⟩
      rcases hbt.failStop with ⟨hc, -⟩ | ⟨hn, -⟩
      · cases hc _ hm
      · exact hn rfl
  by_contra hf
  rcases ht.of_not_failing (by simpa using hf) with ⟨files, hh⟩ | ⟨b, rest, hb⟩
  · exact calm hh he
  · obtain ⟨files, bs, pre, fs, done, -, -, hh, htr, hbt⟩ := hb
    rw [htr, List.mem_append] at he
    rcases he with he | he
    · exact calm hh he
    · rcases hbt.failStop with ⟨hc, -⟩ | ⟨hn, -⟩
      · cases hc _ (List.mem_append_left _ he)
      · exact hn rfl

end Session

namespace System

open Session

section
variable [Crc32fast] [Encode A] [Decode A] [Encode C] [Decode C] {sm : StateMachine A C}

/-- A step of the client's method or of the worker. -/
def Inside : Label Cb sm → Bool
  | .open .. | .openCrash .. | .crash _ | .drop | .call _ => false
  | _ => true

/-- The conditions of `runs_release` and `runs_stopped`. -/
def Orderly (sys : System A C Cb) (l : Label Cb sm) : Prop :=
  KeepsReservation sys l ∧ NoLateRequest sys l

theorem orderly_runs {ls : List (Label Cb sm)} {sys sys' : System A C Cb}
    (h : RunsOf step Orderly sys ls sys') :
    RunsOf step KeepsReservation sys ls sys' ∧ RunsOf step NoLateRequest sys ls sys' :=
  ⟨h.mono fun _ _ h => h.1, h.mono fun _ _ h => h.2⟩

theorem failing_step {sys sys' : System A C Cb} {l : Label Cb sm} {s : Session A C Cb}
    (hs : sys.session = some s) (hf : s.failing = true) (hl : Inside l = true ∨ ∃ op, l = .call op)
    (hstep : step sys l = some sys') : ∃ s', sys'.session = some s' ∧ s'.failing = true := by
  cases step_move hstep with
  | opened hn | notOpened hn | openCrashed hn => exact absurd (hn.symm.trans hs) (by simp)
  | crashed | dropped => simp [Inside] at hl
  | received hs' hw | disconnected hs' hw | collected hs' hw | executed hs' hw | batchDone hs' hw
    | releasedAll hs' hw =>
    cases hs.symm.trans hs'
    simp [failing, hw] at hf
  | @effect s b e effects stop held fs' hs' hw =>
    cases hs.symm.trans hs'
    refine ⟨_, rfl, ?_⟩
    cases stop with
    | none => simp [failing, hw] at hf
    | some stop => rfl
  | batchStopped | releasedFailed | failed => exact ⟨_, rfl, rfl⟩
  | receiverDropped hs' hw =>
    cases hs.symm.trans hs'
    refine ⟨_, rfl, ?_⟩
    simp only [failing, hw] at hf ⊢
    exact hf
  | _ =>
    cases hs.symm.trans ‹sys.session = some _›
    exact ⟨_, rfl, hf⟩

/-! ## Shutting down -/

/-- How far a shutdown is: the worker is gone behind the join, and if waiting gave `Ok` behind it,
without a failure. -/
inductive Closing
  | started
  | joined
  | settled

/-- What a client relies on to tell from its answers how far its shutdown is. -/
def shutdownContract : Contract (ClientAct A C Cb) IoResult Closing where
  pre _ _ := True
  step
    | .join, _, _, g' => g' = .joined
    | .waitIdle, .joined, .ok (), g' => g' = .settled
    | _, g, _, g' => g' = g

/-- What the state of the worker is then. -/
def Closing.Holds (s : Session A C Cb) : Closing → Prop
  | .started => True
  | .joined => s.worker = .terminated
  | .settled => s.worker = .terminated ∧ s.failing = false

/-- A `shutdown` returns an error, or has joined a worker that was not failing. -/
def ShutdownResult (x : Except Fault (Ret C)) (g : Closing) : Prop :=
  (∃ e, x = .error (.io e)) ∨ (∃ r, x = .ok r) ∧ g = .settled

omit [Decode A] [Decode C] in
theorem shutdown_meets (w : ChunkedWal C) (hw : w.workerHandle = true) :
    ClientM.Meets shutdownContract (fun x _ g => ShutdownResult x g)
      (Op.run .shutdown : ClientM A C Cb (Ret C)) w .started := by
  unfold Op.run
  refine .bind (Q := fun x _ g => (∃ e, x = .error (.io e)) ∨ x = .ok () ∧ g = .settled) ?_ ?_ ?_
  · unfold ChunkedWal.shutdown
    refine .get_bind ?_
    simp only [hw, Bool.not_true, Bool.false_eq_true, if_false]
    refine .set_bind ?_
    refine .bind (Q := fun x _ _ => ∃ r, x = .ok r) ?_ ?_ (by simp)
    · exact .get_bind (.set_bind (.perform trivial fun r _ _ => ⟨r, rfl⟩))
    rintro flushRes w _ ⟨-, -⟩
    refine .perform_bind trivial fun _ _ _ => .perform_bind trivial fun joinRes _ hj => ?_
    obtain rfl := hj
    refine .require_bind (fun _ => ?_) fun e _ => .inl ⟨e, rfl⟩
    refine .require_bind (fun _ => ?_) fun e _ => .inl ⟨e, rfl⟩
    refine .perform_bind trivial fun r g hr => ?_
    refine .require (fun h => .inr ⟨rfl, ?_⟩) fun e _ => .inl ⟨e, rfl⟩
    subst h
    exact hr
  · rintro ⟨⟩ w g (⟨e, he⟩ | ⟨-, hg⟩)
    · cases he
    · exact .inr ⟨⟨_, rfl⟩, hg⟩
  · rintro e w g (⟨e', he⟩ | ⟨he, -⟩)
    · exact .inl ⟨e', by rw [Except.error.inj he]⟩
    · cases he

/-- The client is in the first `shutdown`, or got its result. -/
def ShutsDown (s : Session A C Cb) : Prop :=
  match s.client with
  | .busy op p => op = .shutdown ∧
      ∃ g, p.Safe shutdownContract (fun x g => ShutdownResult x.1 g) g ∧ g.Holds s
  | .idle _ => ∃ x g, s.returned = some (.shutdown, x) ∧ ShutdownResult x g ∧ g.Holds s
  | .panicked => False

omit [Crc32fast] [Encode A] [Decode A] [Encode C] [Decode C] in
theorem ShutsDown.respond {s : Session A C Cb} (h : ShutsDown s) {op : Op A C Cb}
    {a : ClientAct A C Cb} {k : IoResult → ClientProg A C Cb} (hc : s.client = .busy op (.act a k))
    {r : IoResult} {s' : Session A C Cb} (hs' : s'.client = .busy op (k r))
    (hg : ∀ g, g.Holds s → ∃ g', shutdownContract.step a g r g' ∧ g'.Holds s') : ShutsDown s' := by
  unfold ShutsDown at h ⊢
  rw [hc] at h
  rw [hs']
  obtain ⟨hop, g, ⟨-, hk⟩, hh⟩ := h
  obtain ⟨g', hstep, hh'⟩ := hg g hh
  exact ⟨hop, g', hk r g' hstep, hh'⟩

omit [Crc32fast] [Encode A] [Decode A] [Encode C] [Decode C] in
theorem Closing.Holds.of_eq {s s' : Session A C Cb} {g : Closing} (h : g.Holds s)
    (hw : s'.worker = s.worker) (hst : s'.status = s.status) : g.Holds s' := by
  have hf : s'.failing = s.failing := by simp only [failing, hw, hst]
  cases g with
  | started => trivial
  | joined => exact hw.trans h
  | settled => exact ⟨hw.trans h.1, hf.trans h.2⟩

omit [Crc32fast] [Encode A] [Decode A] [Encode C] [Decode C] in
/-- A step of the worker comes before the join. -/
theorem Closing.Holds.of_alive {s s' : Session A C Cb} {g : Closing} (h : g.Holds s)
    (hw : s.worker ≠ .terminated) : g.Holds s' := by
  cases g with
  | started => trivial
  | joined => exact absurd h hw
  | settled => exact absurd h.1 hw

omit [Crc32fast] [Encode A] [Decode A] [Encode C] [Decode C] in
theorem ShutsDown.of_same {s s' : Session A C Cb} (h : ShutsDown s) (hc : s'.client = s.client)
    (hr : s'.returned = s.returned) (hw : s'.worker = s.worker) (hst : s'.status = s.status) :
    ShutsDown s' := by
  unfold ShutsDown at h ⊢
  rw [hc, hr]
  split at h
  · obtain ⟨hop, g, hsafe, hg⟩ := h
    exact ⟨hop, g, hsafe, hg.of_eq hw hst⟩
  · obtain ⟨x, g, hx, hres, hg⟩ := h
    exact ⟨x, g, hx, hres, hg.of_eq hw hst⟩
  · exact h

omit [Crc32fast] [Encode A] [Decode A] [Encode C] [Decode C] in
theorem ShutsDown.of_alive {s s' : Session A C Cb} (h : ShutsDown s) (hw : s.worker ≠ .terminated)
    (hc : s'.client = s.client) (hr : s'.returned = s.returned) : ShutsDown s' := by
  unfold ShutsDown at h ⊢
  rw [hc, hr]
  split at h
  · obtain ⟨hop, g, hsafe, hg⟩ := h
    exact ⟨hop, g, hsafe, hg.of_alive hw⟩
  · obtain ⟨x, g, hx, hres, hg⟩ := h
    exact ⟨x, g, hx, hres, hg.of_alive hw⟩
  · exact h

theorem shutsDown_step {sys sys' : System A C Cb} {l : Label Cb sm} {s : Session A C Cb}
    (hs : sys.session = some s) (ht : s.Traced) (hn : s.Numbered) (hrel : s.Releasable)
    (h : ShutsDown s) (hl : Inside l = true) (hstep : step sys l = some sys') :
    ∃ s', sys'.session = some s' ∧ ShutsDown s' := by
  cases step_move hstep with
  | opened hn | notOpened hn | openCrashed hn => exact absurd (hn.symm.trans hs) (by simp)
  | crashed | dropped | called => simp [Inside] at hl
  | finished hs' hc =>
    cases hs.symm.trans hs'
    unfold ShutsDown at h
    rw [hc] at h
    obtain ⟨rfl, g, hres, hg⟩ := h
    refine ⟨_, rfl, ?_⟩
    rcases hres with ⟨e, he⟩ | ⟨⟨r, he⟩, hset⟩
    · simp only at he
      subst he
      exact ⟨_, g, rfl, .inl ⟨e, rfl⟩, hg.of_eq rfl rfl⟩
    · simp only at he
      subst he
      exact ⟨_, g, rfl, .inr ⟨⟨r, rfl⟩, hset⟩, hg.of_eq rfl rfl⟩
  | @waited s op k r res hs' hc hw =>
    cases hs.symm.trans hs'
    refine ⟨_, rfl, h.respond hc rfl fun g hg => ?_⟩
    rcases g with _ | _ | _
    · exact ⟨.started, rfl, trivial⟩
    · rcases res with e | ⟨⟩
      · exact ⟨.joined, rfl, hg⟩
      · -- the worker is gone, and has completed everything
        refine ⟨.settled, rfl, hg, ?_⟩
        by_contra hf
        obtain ⟨e, he⟩ := waitFor_failing ht hn (eq_true_of_ne_false hf) hw
        cases he
    · exact ⟨.settled, rfl, hg.of_eq rfl rfl⟩
  | underflow hs' hc hsn hu =>
    cases hs.symm.trans hs'
    have := hrel.client hsn
    rw [inflight_send (by simp [hsn]), hc] at this
    exact absurd hu (by simpa [reservation] using this)
  | joined hs' hc hr =>
    cases hs.symm.trans hs'
    exact ⟨_, rfl, h.respond hc rfl fun _ _ => ⟨_, rfl, not_receiving.1 hr⟩⟩
  | refused hs' hc | enqueued hs' hc | givenBack hs' hc | notCreated hs' hc | «exists» hs' hc
    | created hs' hc | notSynced hs' hc | synced hs' hc | closed hs' hc | noted hs' hc =>
    cases hs.symm.trans hs'
    exact ⟨_, rfl, h.respond hc rfl fun g hg => ⟨g, rfl, hg.of_eq rfl rfl⟩⟩
  | acquired hs' | rejected hs' =>
    cases hs.symm.trans hs'
    exact ⟨_, rfl, h.of_same rfl rfl rfl rfl⟩
  | received hs' hw | disconnected hs' hw | collected hs' hw | executed hs' hw | effect hs' hw
    | batchDone hs' hw | batchStopped hs' hw | releasedAll hs' hw | releasedFailed hs' hw
    | failed hs' hw | receiverDropped hs' hw =>
    cases hs.symm.trans hs'
    exact ⟨_, rfl, h.of_alive (by simp [hw]) rfl rfl⟩

/-! ## A client without a worker -/

/-- How far a send is from its answer, when nothing blocks it. -/
def stage : Sending → Nat
  | .idle => 2
  | .reserved => 1
  | .rejected => 0

/-- A step of the client from the program `p` to `s'`: closer to its next answer, or at it. -/
def Advances (s s' : Session A C Cb) (op : Op A C Cb) : ClientProg A C Cb → Prop
  | .done (res, w) => s' = s.finish op res w
  | .act _ k => (∃ r, s'.client = .busy op (k r)) ∨
      s'.client = s.client ∧ stage s'.sending < stage s.sending

/-- **Once the receiver is gone, the client is never stuck** when only its own bytes are counted:
its next step is possible, and brings it closer to the end of its method. -/
theorem client_moves {ls : List (Label Cb sm)} {sys : System A C Cb}
    (h : runs step (System.fresh A C Cb) ls = some sys) {s : Session A C Cb}
    (hs : sys.session = some s) (hr : s.receiving = false) (hu : s.used = s.inflight)
    {op : Op A C Cb} {p : ClientProg A C Cb} (hc : s.client = .busy op p) :
    ∃ sys' s', step sys (.client (.ok ()) : Label Cb sm) = some sys' ∧ sys'.session = some s' ∧
      s'.worker = s.worker ∧ s'.used = s'.inflight ∧ Advances s s' op p := by
  have hone : step sys (.client (.ok ()) : Label Cb sm) = sys.clientStep s (.ok ()) := by
    simp only [step, hs]
  rw [hone]
  unfold clientStep
  rw [hc]
  have hb := (runs_balanced h).2
  cases p with
  | done x =>
    obtain ⟨res, w⟩ := x
    have hn := (hb s hs).idle fun _ _ _ hc' => by rw [hc] at hc'; cases hc'
    rw [inflight_idle hn] at hu
    exact ⟨_, _, rfl, rfl, rfl, hu.trans (@inflight_idle _ _ _ (s.finish op res w) hn).symm, rfl⟩
  | act a k =>
    have hidle : (∀ req, a ≠ .send req) → s.sending = .idle := fun ha =>
      (hb s hs).idle fun _ req _ hc' => by
        rw [hc] at hc'
        cases hc'
        exact ha req rfl
    cases a with
    | send req =>
      rcases hn : s.sending with _ | _ | _
      · rw [inflight_idle hn] at hu
        by_cases htx : s.tx = false
        · simp only [sendStep, hn, htx, if_true, Option.map_some]
          exact ⟨_, _, rfl, rfl, rfl, hu, .inl ⟨_, rfl⟩⟩
        · have hw : ¬ waits s.used s.config.flushQueueMaxBytes req.reserved := by simp [waits, hu]
          simp only [sendStep, hn, if_neg htx, if_neg hw, Option.map_some]
          refine ⟨_, _, rfl, rfl, rfl, ?_, .inr ⟨rfl, by simp [stage, hn]⟩⟩
          simp [inflight, hc, reservation, hu]
      · simp only [sendStep, hn, hr, if_true, Option.map_some]
        refine ⟨_, _, rfl, rfl, rfl, ?_, .inr ⟨rfl, by simp [stage, hn]⟩⟩
        rw [inflight_send (by simp [hn])] at hu
        rwa [inflight_send (by simp)]
      · rw [inflight_send (by simp [hn]), hc, reservation] at hu
        simp only [sendStep, hn, if_neg (Nat.not_lt.2 hu.ge), Option.map_some]
        refine ⟨_, _, rfl, rfl, rfl, ?_, .inl ⟨_, rfl⟩⟩
        show s.used - req.reserved = 0
        omega
    | createNew id =>
      have hn := hidle (by simp)
      rw [inflight_idle hn] at hu
      simp only
      split
      · exact ⟨_, _, rfl, rfl, rfl, hu, .inl ⟨_, rfl⟩⟩
      · exact ⟨_, _, rfl, rfl, rfl, hu, .inl ⟨_, rfl⟩⟩
    | join =>
      have hn := hidle (by simp)
      rw [inflight_idle hn] at hu
      simp only [hr, Bool.false_eq_true, if_false]
      exact ⟨_, _, rfl, rfl, rfl, hu, .inl ⟨_, rfl⟩⟩
    | waitIdle =>
      have hn := hidle (by simp)
      rw [inflight_idle hn] at hu
      obtain ⟨ht, hnum⟩ := runs_history h
      obtain ⟨res, hres⟩ := Option.ne_none_iff_exists'.1
        (waitFor_terminated (ht s hs) (hnum s hs) (not_receiving.1 hr))
      simp only [hres, Option.map_some]
      exact ⟨_, _, rfl, rfl, rfl, hu, .inl ⟨_, rfl⟩⟩
    | syncDir | close | note =>
      have hn := hidle (by simp)
      rw [inflight_idle hn] at hu
      exact ⟨_, _, rfl, rfl, rfl, hu, .inl ⟨_, rfl⟩⟩

/-- Once the receiver is gone, every method returns by the client's own steps. -/
theorem client_returns (ok : System A C Cb → Label Cb sm → Prop)
    (hok : ∀ sys s r, sys.session = some s → s.receiving = false → ok sys (.client r))
    {op : Op A C Cb} (p : ClientProg A C Cb) :
    ∀ (n : Nat) {ls : List (Label Cb sm)} {sys : System A C Cb} {s : Session A C Cb},
      runs step (System.fresh A C Cb) ls = some sys → sys.session = some s →
      s.receiving = false → s.used = s.inflight → s.client = .busy op p → stage s.sending = n →
      ∃ (ls' : List (Label Cb sm)) (sys' : System A C Cb) (s₀ : Session A C Cb)
        (res : Except Fault (Ret C)) (w : ChunkedWal C), (∀ l ∈ ls', l = .client (.ok ())) ∧
        RunsOf step ok sys ls' sys' ∧ sys'.session = some (s₀.finish op res w) := by
  induction p with
  | done x =>
    intro n ls sys s h hs hr hu hc _
    obtain ⟨sys', s', hstep, hs', -, -, hadv⟩ := client_moves h hs hr hu hc
    refine ⟨[.client (.ok ())], sys', s, x.1, x.2, by simp,
      ⟨hok sys s _ hs hr, sys', hstep, rfl⟩, ?_⟩
    rw [hs', show s' = s.finish op x.1 x.2 from hadv]
  | act a k ih =>
    intro n
    induction n using Nat.strong_induction_on with
    | _ n ihn =>
      intro ls sys s h hs hr hu hc hn
      obtain ⟨sys', s', hstep, hs', hw, hu', hadv⟩ := client_moves h hs hr hu hc
      have hone : RunsOf step ok sys [.client (.ok ())] sys' :=
        ⟨hok sys s _ hs hr, sys', hstep, rfl⟩
      have hnext : runs step (System.fresh A C Cb) (ls ++ [.client (.ok ())]) = some sys' := by
        rw [runs_append, h]
        exact hone.runs
      have hr' : s'.receiving = false := not_receiving.2 (hw.trans (not_receiving.1 hr))
      obtain ⟨ls', sys'', s₀, res, w, hall, hrun, hfin⟩ : ∃ (ls' : List (Label Cb sm))
          (sys'' : System A C Cb) (s₀ : Session A C Cb) (res : Except Fault (Ret C))
          (w : ChunkedWal C), (∀ l ∈ ls', l = .client (.ok ())) ∧
          RunsOf step ok sys' ls' sys'' ∧ sys''.session = some (s₀.finish op res w) := by
        rcases hadv with ⟨r, hc'⟩ | ⟨hc', hlt⟩
        · exact ih r _ hnext hs' hr' hu' hc' rfl
        · exact ihn _ (hn ▸ hlt) hnext hs' hr' hu' (hc'.trans hc) rfl
      refine ⟨.client (.ok ()) :: ls', sys'', s₀, res, w, ?_, hone.append hrun, hfin⟩
      simpa using hall

omit [Crc32fast] [Encode A] [Decode A] [Encode C] [Decode C] in
theorem noLateRequest_client {sys : System A C Cb} {s : Session A C Cb} (hs : sys.session = some s)
    (hr : s.receiving = false) (r : IoResult) : NoLateRequest sys (.client r : Label Cb sm) := by
  intro s' _ _ _ hs' _ _ _ hr'
  cases hs.symm.trans hs'
  exact absurd (hr.symm.trans hr') (by simp)

/-- In an orderly run, a client behind the worker finds its own bytes counted. -/
theorem orderly_used {ls : List (Label Cb sm)} {sys : System A C Cb}
    (h : RunsOf step Orderly (System.fresh A C Cb) ls sys) {s : Session A C Cb}
    (hs : sys.session = some s) (hr : s.receiving = false) : s.used = s.inflight := by
  rcases runs_used (orderly_runs h).2 hs hr with hu | hu
  · have := (runs_counted (orderly_runs h).1).2 s hs hr
    omega
  · exact hu

/-- **A stopped worker leaves no sender blocked** in a run without late requests: when the worker
has dropped its receiver and the client stands before the byte limit, it does not wait for any size,
a send returns an error, and every method comes to its end by the client's own steps, also a
`shutdown`, which `Drop` calls. -/
theorem runs_stopped {ls : List (Label Cb sm)} {sys : System A C Cb}
    (h : RunsOf step NoLateRequest (System.fresh A C Cb) ls sys) {s : Session A C Cb}
    (hs : sys.session = some s) (hr : s.receiving = false) (hn : s.sending = .idle) :
    (∀ size, ¬ waits s.used s.config.flushQueueMaxBytes size) ∧
    (∀ op req k, s.client = .busy op (.act (.send req) k) →
      ∃ (ls : List (Label Cb sm)) (e : IoError) (s' : Session A C Cb),
        runs step sys ls = some (sys.withSession s') ∧ s'.client = .busy op (k (.error e)) ∧
        (e = channelClosed ∨ e = walIsShutDown) ∧ ls.length ≤ 3) ∧
    ∀ op p, s.client = .busy op p →
      ∃ (ls : List (Label Cb sm)) (sys' : System A C Cb) (s' : Session A C Cb)
        (res : Except Fault (Ret C)),
        (∀ l ∈ ls, l = .client (.ok ())) ∧ RunsOf step NoLateRequest sys ls sys' ∧
        sys'.session = some s' ∧ s'.returned = some (op, res) := by
  have hu : s.used = 0 := by
    rcases runs_used h hs hr with hu | hu
    · exact hu
    · rw [hu, inflight_idle hn]
  refine ⟨fun size hw => ?_, fun op req k hc => send_gone hs hr hn hu hc, fun op p hc => ?_⟩
  · simp [waits, hu] at hw
  · obtain ⟨ls', sys', s₀, res, w, hall, hrun, hfin⟩ := client_returns NoLateRequest
      (fun _ _ r hs hr => noLateRequest_client hs hr r) p _ h.runs hs hr
      (hu.trans (inflight_idle hn).symm) hc rfl
    exact ⟨ls', sys', _, res, hall, hrun, hfin, rfl⟩

end

open Register in
/-- The worker fails, and the client sends again. -/
def failsBeforeCall : List Step :=
  [start Register.config] ++ puts 1 ++ sends false ++ failedBatch ++
  [.releaseAll, .fail, .dropReceiver] ++
    puts 2 ++ [.call (.sendPending true none)]

theorem runs_stopped_failed : ∃ (sys : System Put Register Nat) (s : Session Put Register Nat)
    (op : Op Put Register Nat) (k : IoResult → ClientProg Put Register Nat),
    runs step (System.fresh Put Register Nat) failsBeforeCall = some sys ∧ sys.session = some s ∧
    (∀ size, ¬ waits s.used s.config.flushQueueMaxBytes size) ∧
    (∃ (ls : List Register.Step) (e : IoError) (s' : Session Put Register Nat),
      runs step sys ls = some (sys.withSession s') ∧ s'.client = .busy op (k (.error e)) ∧
      (e = channelClosed ∨ e = walIsShutDown) ∧ ls.length ≤ 3) ∧
    ∃ (ls : List Register.Step) (sys' : System Put Register Nat) (s' : Session Put Register Nat)
      (res : Except Fault (Ret Register)), (∀ l ∈ ls, l = .client (.ok ())) ∧
      RunsOf step NoLateRequest sys ls sys' ∧ sys'.session = some s' ∧
        s'.returned = some (op, res) := by
  have h : ((runs (guarded NoLateRequest step) (System.fresh Put Register Nat) failsBeforeCall).any
      fun sys => sys.session.any fun s => decide (atSend s.client = true ∧ s.receiving = false ∧
        s.sending = .idle)) = true := by decide +kernel
  obtain ⟨sys, hsys, hs⟩ := (Option.any_eq_true _ _).1 h
  obtain ⟨s, hs, hd⟩ := (Option.any_eq_true _ _).1 hs
  obtain ⟨hc, hr, hn⟩ := of_decide_eq_true hd
  obtain ⟨op, req, k, hc⟩ := atSend_iff.1 hc
  have hrun := RunsOf.of_guarded hsys
  have hst := runs_stopped hrun hs hr hn
  exact ⟨sys, s, op, k, hrun.runs, hs, hst.1, hst.2.1 op req k hc, hst.2.2 op _ hc⟩

open Register in
/-- A request is sent behind `release_all`, before the receiver is gone. -/
def sendsBeforeDrop : List Step :=
  [start { Register.config with flushQueueMaxBytes? := some 1 }] ++ puts 1 ++ sends false ++
  failedBatch ++
    [.releaseAll] ++ puts 2 ++ sends false ++ [.fail, .dropReceiver]

/-- A request that nobody will process blocks the next one. -/
theorem sender_blocked : ¬ ∀ (ls : List Register.Step) (sys : System Put Register Nat)
    (s : Session Put Register Nat), runs step (System.fresh Put Register Nat) ls = some sys →
    sys.session = some s → s.receiving = false → s.sending = .idle →
    ∀ size, ¬ waits s.used s.config.flushQueueMaxBytes size := by
  intro h
  have hrun : ((runs step (System.fresh Put Register Nat) sendsBeforeDrop).any fun sys =>
      sys.session.any fun s => decide (s.receiving = false ∧ s.sending = .idle ∧
        waits s.used s.config.flushQueueMaxBytes 5)) = true := by decide +kernel
  obtain ⟨sys, hsys, hs⟩ := (Option.any_eq_true _ _).1 hrun
  obtain ⟨s, hs, hd⟩ := (Option.any_eq_true _ _).1 hs
  obtain ⟨hr, hn, hw⟩ := of_decide_eq_true hd
  exact h _ sys s hsys hs hr hn 5 hw

/-! ## The whole of a run -/

section
variable [Crc32fast] [Encode A] [Decode A] [Encode C] [Decode C] {sm : StateMachine A C}

theorem runs_shutsDown {ls ls' : List (Label Cb sm)} {sys sys' : System A C Cb}
    (h : RunsOf step Orderly (System.fresh A C Cb) ls sys) {s : Session A C Cb}
    (hs : sys.session = some s) (hsd : ShutsDown s) (hl : ∀ l ∈ ls', Inside l = true)
    (hr : RunsOf step Orderly sys ls' sys') : ∃ s', sys'.session = some s' ∧ ShutsDown s' := by
  induction ls' generalizing ls sys s with
  | nil =>
    cases hr
    exact ⟨s, hs, hsd⟩
  | cons l ls' ih =>
    obtain ⟨hok, sys₁, hstep, hr⟩ := hr
    obtain ⟨ht, hn⟩ := runs_history h.runs
    obtain ⟨s₁, hs₁, hsd₁⟩ := shutsDown_step hs (ht s hs) (hn s hs)
      (runs_release (orderly_runs h).1 s hs) hsd (hl l List.mem_cons_self) hstep
    have hone : RunsOf step Orderly sys [l] sys₁ := ⟨hok, sys₁, hstep, rfl⟩
    exact ih (h.append hone) hs₁ hsd₁ (fun l hl' => hl l (List.mem_cons_of_mem _ hl')) hr

theorem runs_failing {ok : System A C Cb → Label Cb sm → Prop}
    (hok : ∀ sys l, ok sys l → Inside l = true ∨ ∃ op, l = .call op) {ls : List (Label Cb sm)}
    {sys sys' : System A C Cb} {s : Session A C Cb} (hs : sys.session = some s)
    (hf : s.failing = true) (hr : RunsOf step ok sys ls sys') :
    ∃ s', sys'.session = some s' ∧ s'.failing = true :=
  hr.invariant (I := fun sys => ∃ s, sys.session = some s ∧ s.failing = true)
    (fun _ l _ ⟨_, hs, hf⟩ hl hstep => failing_step hs hf (hok _ l hl) hstep) ⟨s, hs, hf⟩

omit [Crc32fast] [Encode A] [Decode A] [Encode C] [Decode C] in
theorem ShutdownResult.of_failing {x : Except Fault (Ret C)} {g : Closing} {s : Session A C Cb}
    (h : ShutdownResult x g) (hg : g.Holds s) (hf : s.failing = true) :
    ∃ e, x = .error (.io e) := by
  rcases h with h | ⟨-, rfl⟩
  · exact h
  · exact absurd (hf.symm.trans hg.2) (by simp)

/-- **Waiting for the worker is sound, sticky and never hangs**, in an orderly run. If the wait is
over with `Ok`, every request was carried out. Once a request has failed or has panicked the worker,
in every later state of the session the last number is not completed, and waiting gives errors only.
The first `shutdown`, whenever it is called, does not panic and returns when the worker is gone; if
a request has failed until then, also in its own flush, it returns nothing but an error. And when
the worker is gone nobody waits for it. -/
theorem runs_wait {ls : List (Label Cb sm)} {sys : System A C Cb}
    (h : RunsOf step Orderly (System.fresh A C Cb) ls sys) {s : Session A C Cb}
    (hs : sys.session = some s) :
    (s.waitFor s.sentSeq = some (.ok ()) → ∀ r ∈ s.sent, s.Processed r.request) ∧
    ((∃ e, .failed e ∈ s.trace) → s.failing = true) ∧
    (s.failing = true → ∀ (ls' : List (Label Cb sm)) (sys' : System A C Cb),
      RunsOf step (fun _ l => Inside l = true ∨ ∃ op, l = .call op) sys ls' sys' →
      ∃ s', sys'.session = some s' ∧ s'.failing = true ∧ s'.doneSeq < s'.sentSeq ∧
        ∀ r, s'.waitFor s'.sentSeq = some r → ∃ e, r = .error e) ∧
    (∀ w, s.client = .idle w → w.workerHandle = true →
      ∀ (ls' : List (Label Cb sm)) (sys' : System A C Cb), (∀ l ∈ ls', Inside l = true) →
      RunsOf step Orderly sys (.call .shutdown :: ls') sys' →
      ∃ s', sys'.session = some s' ∧ s'.client ≠ .panicked ∧
        (∀ w, s'.client = .idle w → ∃ x, s'.returned = some (.shutdown, x) ∧
          (s'.failing = true → ∃ e, x = .error (.io e))) ∧
        (s'.receiving = false → ∀ p, s'.client = .busy .shutdown p →
          ∃ (ls'' : List (Label Cb sm)) (sys'' : System A C Cb) (s'' : Session A C Cb)
            (x : Except Fault (Ret C)), (∀ l ∈ ls'', l = .client (.ok ())) ∧
            RunsOf step Orderly sys' ls'' sys'' ∧ sys''.session = some s'' ∧
            s''.returned = some (.shutdown, x) ∧
            (s'.failing = true → ∃ e, x = .error (.io e)))) ∧
    (s.worker = .terminated → s.waitFor s.sentSeq ≠ none) := by
  obtain ⟨ht, hn⟩ := runs_history h.runs
  refine ⟨waitFor_sound (ht s hs) (hn s hs), fun ⟨e, he⟩ => failing_of_failed (ht s hs) he,
    fun hf ls' sys' hr => ?_, fun w hc hw ls' sys' hl hr => ?_,
    waitFor_terminated (ht s hs) (hn s hs)⟩
  · obtain ⟨s', hs', hf'⟩ := runs_failing (fun _ _ h => h) hs hf hr
    have hrun : runs step (System.fresh A C Cb) (ls ++ ls') = some sys' := by
      rw [runs_append, h.runs]
      exact hr.runs
    obtain ⟨ht', hn'⟩ := runs_history hrun
    exact ⟨s', hs', hf', doneSeq_lt_of_failing (ht' s' hs') (hn' s' hs') hf',
      fun r hr => waitFor_failing (ht' s' hs') (hn' s' hs') hf' hr⟩
  · obtain ⟨hok, sys₁, hstep, hr⟩ := hr
    have hone : RunsOf step Orderly sys [.call .shutdown] sys₁ := ⟨hok, sys₁, hstep, rfl⟩
    obtain ⟨s₁, hs₁, hsd₁⟩ : ∃ s₁, sys₁.session = some s₁ ∧ ShutsDown s₁ := by
      cases step_move hstep with
      | called hs' hc' =>
        cases hs.symm.trans hs'
        cases hc.symm.trans hc'
        exact ⟨_, rfl, rfl, .started, shutdown_meets w hw, trivial⟩
    obtain ⟨s', hs', hsd'⟩ := runs_shutsDown (h.append hone) hs₁ hsd₁ hl hr
    refine ⟨s', hs', fun hp => ?_, fun w hi => ?_, fun hrec p hb => ?_⟩
    · rw [ShutsDown, hp] at hsd'
      exact hsd'
    · simp only [ShutsDown, hi] at hsd'
      obtain ⟨x, g, hx, hres, hg⟩ := hsd'
      exact ⟨x, hx, hres.of_failing hg⟩
    · obtain ⟨ls'', sys'', s₀, res, w', hall, hr'', hfin⟩ :=
        client_returns Orderly (fun _ _ r hs hr => ⟨trivial, noLateRequest_client hs hr r⟩) p _
          ((h.append hone).append hr).runs hs' hrec
          (orderly_used ((h.append hone).append hr) hs' hrec) hb rfl
      have hin'' : ∀ l ∈ ls'', Inside l = true := fun l hl' => by
        rw [hall l hl']
        rfl
      obtain ⟨s'', hs'', hsd''⟩ :=
        runs_shutsDown ((h.append hone).append hr) hs' hsd' hin'' hr''
      cases hfin.symm.trans hs''
      refine ⟨ls'', sys'', _, res, hall, hr'', hfin, ?_⟩
      rcases res with (e | msg) | r
      · exact ⟨rfl, fun _ => ⟨e, rfl⟩⟩
      · exact hsd''.elim
      · refine ⟨rfl, fun hf => ?_⟩
        obtain ⟨x, g, hx, hres, hg⟩ := hsd''
        cases hx
        have hlater : RunsOf step (fun _ l => Inside l = true) sys' ls'' sys'' :=
          hr''.along.mono fun _ l hl' => hin'' l hl'.2
        obtain ⟨s₂, hs₂, hf₂⟩ := runs_failing (fun _ _ h => .inl h) hs' hf hlater
        cases hfin.symm.trans hs₂
        exact hres.of_failing hg hf₂

end

instance (sys : System A C Cb) {sm : StateMachine A C} (l : Label Cb sm) :
    Decidable (Orderly sys l) := inferInstanceAs (Decidable (_ ∧ _))

open Register in
/-- The worker has failed, and its thread is gone. -/
def failedRun : List Step :=
  [start Register.config] ++ puts 1 ++ sends false ++ failedBatch ++
    [.releaseAll, .fail, .dropReceiver]

theorem runs_wait_failed : ∃ (sys : System Put Register Nat) (s : Session Put Register Nat),
    runs step (System.fresh Put Register Nat) failedRun = some sys ∧ sys.session = some s ∧
    s.failing = true ∧ s.waitFor s.sentSeq ≠ none ∧
    ∀ r, s.waitFor s.sentSeq = some r → ∃ e, r = .error e := by
  have h : ((runs (guarded Orderly step) (System.fresh Put Register Nat) failedRun).any fun sys =>
      sys.session.any fun s => s.failing && !s.receiving) = true := by decide +kernel
  obtain ⟨sys, hsys, hs⟩ := (Option.any_eq_true _ _).1 h
  obtain ⟨s, hs, hf⟩ := (Option.any_eq_true _ _).1 hs
  simp only [Bool.and_eq_true, Bool.not_eq_true'] at hf
  have hrun := RunsOf.of_guarded hsys
  obtain ⟨-, -, hw, -, ht⟩ := runs_wait hrun hs
  obtain ⟨s', hs', -, -, he⟩ := hw hf.1 [] sys rfl
  cases hs.symm.trans hs'
  exact ⟨sys, s, hrun.runs, hs, hf.1, ht (not_receiving.1 hf.2), he⟩

/-- The client is inside `shutdown`. -/
def inShutdown {A C Cb : Type} : Client A C Cb → Bool
  | .busy .shutdown _ => true
  | _ => false

open Register in
/-- After a failure, the first `shutdown` waits for bytes that nobody will release. -/
theorem shutdown_hangs : ¬ ∀ (ls : List Register.Step) (sys : System Put Register Nat)
    (s : Session Put Register Nat) (p : ClientProg Put Register Nat),
    runs step (System.fresh Put Register Nat) ls = some sys → sys.session = some s →
    s.failing = true → s.receiving = false → s.client = .busy .shutdown p →
    ∃ (r : IoResult) (sys' : System Put Register Nat), step sys (.client r : Step) = some sys' := by
  intro h
  have hrun : ((runs step (System.fresh Put Register Nat)
      (sendsBeforeDrop ++ puts 3 ++ [.call .shutdown])).any fun sys => sys.session.any fun s =>
      s.failing && !s.receiving && inShutdown s.client &&
      atSend s.client && decide (s.sending = .idle) && s.tx &&
      decide (waits s.used s.config.flushQueueMaxBytes (reservation s.client))) = true := by
    decide +kernel
  obtain ⟨sys, hsys, hs⟩ := (Option.any_eq_true _ _).1 hrun
  obtain ⟨s, hs, hd⟩ := (Option.any_eq_true _ _).1 hs
  simp only [Bool.and_eq_true, Bool.not_eq_true', decide_eq_true_eq] at hd
  obtain ⟨⟨⟨⟨⟨⟨hf, hr⟩, hop⟩, hat⟩, hn⟩, htx⟩, hw⟩ := hd
  obtain ⟨op, req, k, hc⟩ := atSend_iff.1 hat
  rw [hc] at hop hw
  simp only [reservation] at hw
  cases op <;> simp [inShutdown] at hop
  obtain ⟨r, sys', hstep⟩ := h _ sys s _ hsys hs hf hr hc
  simp only [step, hs, clientStep, hc, sendStep, hn, htx, Bool.true_eq_false, if_false, if_pos hw,
    Option.map_none] at hstep
  cases hstep

end System

end Wal

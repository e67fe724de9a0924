import Wal.FailStop
import Wal.History
import Wal.Register

/-!
# The callbacks of a session

`callsOf` are the calls of one write's callback. A batch either calls all its callbacks once, with
the result of its flush, or user code panics in it and a first part of them was called
(`BatchTrace.fate`). From the history of a session (`Explained`) follows what became of every
callback when the worker is gone (`runs_answered`).
-/

namespace Wal

open Lib

variable {A C Cb : Type}

/-- The calls of the callback of the write number `seq`. -/
def callsOf (seq : Nat) (es : List (Effect C Cb)) : List (Cb × IoResult) :=
  ((answered es).filter fun a => a.1 = seq).map (·.2)

/-- The callback of a request. -/
def SeqRequest.callback? (r : SeqRequest C Cb) : Option Cb :=
  match r.req with
  | .write w => w.callback
  | _ => none

/-- A batch that was executed: the files before it, its effects, and how it stopped the worker, if
it did. -/
structure Executed (C Cb : Type) where
  files : List (FileEntry C)
  batch : WriteBatch C Cb
  stop : Option Stop
  effects : List (Effect C Cb)

namespace Executed

variable (x : Executed C Cb)

/-- The effects of the writes and of the synchronization, in front of the callbacks. -/
def flush : List (Effect C Cb) := x.effects.takeWhile (·.isFlush)

/-- The batch was written, and synchronized if a write of it asks for it. -/
structure Flushed : Prop where
  calm : Worker.Calm x.flush
  written : ∀ g d, (fileAfter g d x.flush).data =
    d.data ++ if (x.files.map (·.f)).getLast? = some g then Worker.writtenData x.batch.writes
    else []
  synced : x.batch.writes.any (·.write.sync) = true →
    ∀ g ∈ x.files.map (·.f), ∀ d, Worker.Durable (fileAfter g d x.flush)

/-- What a callback of the batch experienced: the result of the flush, or nothing. -/
inductive Fate (cb : Cb) (calls : List (Cb × IoResult)) : Prop
  | ok (hc : calls = [(cb, .ok ())]) (hf : x.Flushed)
  | failed {e} (hc : calls = [(cb, .error e)]) (hf : .failed e ∈ x.flush)
  | panicked {msg} (hc : calls = []) (hp : x.stop = some (.panicked msg))

end Executed

theorem callsOf_append (seq : Nat) (es es' : List (Effect C Cb)) :
    callsOf seq (es ++ es') = callsOf seq es ++ callsOf seq es' := by
  unfold callsOf
  rw [answered_append, List.filter_append, List.map_append]

theorem callsOf_eq_nil {seq : Nat} {es : List (Effect C Cb)} (h : ∀ a ∈ answered es, a.1 ≠ seq) :
    callsOf seq es = [] := by
  unfold callsOf
  rw [List.filter_eq_nil_iff.2, List.map_nil]
  intro a ha
  simpa using h a ha

namespace Worker

theorem replies_filter {res : IoResult} {ws : List (QueuedWrite Cb)} (hn : (ws.map (·.seq)).Nodup)
    {w : QueuedWrite Cb} (hw : w ∈ ws) {cb : Cb} (hcb : w.write.callback = some cb) :
    (replies res ws).filter (fun a => a.1 = w.seq) = [(w.seq, cb, res)] := by
  induction ws with
  | nil => cases hw
  | cons v ws ih =>
    obtain ⟨hv, hn⟩ := List.nodup_cons.1 hn
    rcases List.mem_cons.1 hw with rfl | hw
    · have hrest : (replies res ws).filter (fun a => a.1 = w.seq) = [] := by
        refine List.filter_eq_nil_iff.2 fun a ha => ?_
        obtain ⟨u, hu, ha⟩ := List.mem_filterMap.1 ha
        obtain ⟨_, -, rfl⟩ := Option.map_eq_some_iff.1 ha
        have hne : u.seq ≠ w.seq := fun he => hv (List.mem_map.2 ⟨u, hu, he⟩)
        simpa using hne
      have hcons : replies res (w :: ws) = (w.seq, cb, res) :: replies res ws := by
        simp [replies, hcb]
      rw [hcons, List.filter_cons_of_pos (by simp), hrest]
    · have hne : v.seq ≠ w.seq := fun he => hv (List.mem_map.2 ⟨w, hw, he.symm⟩)
      have hcons : (replies res (v :: ws)).filter (fun a => a.1 = w.seq) =
          (replies res ws).filter fun a => a.1 = w.seq := by
        unfold replies
        rw [List.filterMap_cons]
        split
        · rfl
        · rename_i a ha
          obtain ⟨_, -, rfl⟩ := Option.map_eq_some_iff.1 ha
          exact List.filter_cons_of_neg (by simpa using hne)
      rw [hcons]
      exact ih hn hw

/-- The calls of one callback in a batch that answers a first part of its writes. -/
theorem callsOf_of_prefix {res : IoResult} {ws : List (QueuedWrite Cb)} {es : List (Effect C Cb)}
    (h : answered es <+: replies res ws) (hn : (ws.map (·.seq)).Nodup) {w : QueuedWrite Cb}
    (hw : w ∈ ws) {cb : Cb} (hcb : w.write.callback = some cb) :
    callsOf w.seq es = [] ∨ callsOf w.seq es = [(cb, res)] := by
  have hsub := (h.sublist.filter fun a => a.1 = w.seq).map (·.2)
  rw [replies_filter hn hw hcb, List.map_cons, List.map_nil] at hsub
  exact List.sublist_singleton.1 hsub

theorem callsOf_of_eq {res : IoResult} {ws : List (QueuedWrite Cb)} {es : List (Effect C Cb)}
    (h : answered es = replies res ws) (hn : (ws.map (·.seq)).Nodup) {w : QueuedWrite Cb}
    (hw : w ∈ ws) {cb : Cb} (hcb : w.write.callback = some cb) :
    callsOf w.seq es = [(cb, res)] := by
  unfold callsOf
  rw [h, replies_filter hn hw hcb]
  rfl

/-! ## The flush of a batch -/

/-- The flush ends where the callbacks begin. -/
theorem takeWhile_flush {es rest : List (Effect C Cb)} (h : ∀ e ∈ es, e.isFlush = true)
    (hr : ∀ e, rest.head? = some e → e.isFlush = false) :
    (es ++ rest).takeWhile (·.isFlush) = es := by
  rw [List.takeWhile_append_of_pos h]
  cases rest with
  | nil => simp
  | cons e rest => simp [hr e rfl]

/-- Behind the flush come callbacks, and the release. -/
theorem head_answers {res : IoResult} {ws : List (QueuedWrite Cb)} {n : Nat}
    {es : List (Effect C Cb)} {e : Effect C Cb}
    (h : (answers res ws ++ (.release n : Effect C Cb) :: es).head? = some e) :
    e.isFlush = false := by
  rw [List.head?_append] at h
  rcases ha : (answers res ws : List (Effect C Cb)).head? with _ | a
  · rw [ha] at h
    cases h
    rfl
  · rw [ha] at h
    cases h
    obtain ⟨w, -, cb, -, rfl⟩ := mem_answers (List.mem_of_head? ha)
    rfl

theorem FlushTrace.flushed {files fs : List (FileEntry C)} {b : WriteBatch C Cb} {f upto : Nat}
    {stop : Option Stop} {es es' : List (Effect C Cb)}
    (h : FlushTrace files b.writes f upto (.ok (.ok ())) fs es) (ht : Target files b f upto)
    (hf : (Executed.mk files b stop es').flush = es) : (Executed.mk files b stop es').Flushed := by
  refine ⟨?_, fun g d => ?_, fun hs g hg d => ?_⟩
  · rw [hf]
    exact h.failsLast
  · rw [hf, (h.file_eq ht.getLast).2, ht.getLast]
    simp only [Option.some.injEq]
    split <;> split <;> simp_all
  · rw [hf]
    exact ((h.listed_or_durable ht.getLast g d).1 hg).1 hs

theorem FlushTrace.failed_mem {files fs : List (FileEntry C)} {ws : List (QueuedWrite Cb)}
    {f upto : Nat} {e : IoError} {es : List (Effect C Cb)}
    (h : FlushTrace files ws f upto (.ok (.error e)) fs es) :
    .failed e ∈ es := by
  obtain ⟨es', rfl, -⟩ := h.failsLast
  simp

/-- The result of a flush is what its callbacks get. -/
theorem FlushTrace.fate {files fs : List (FileEntry C)} {b : WriteBatch C Cb} {f upto : Nat}
    {stop : Option Stop} {es es' : List (Effect C Cb)} {res : IoResult}
    (h : FlushTrace files b.writes f upto (.ok res) fs es) (ht : Target files b f upto)
    (hf : (Executed.mk files b stop es').flush = es) {cb : Cb} {calls : List (Cb × IoResult)}
    (hc : calls = [(cb, res)]) : (Executed.mk files b stop es').Fate cb calls := by
  rcases res with e | ⟨⟩
  · exact .failed hc (hf ▸ h.failed_mem)
  · exact .ok hc (h.flushed ht hf)

/-- **The callbacks of a batch**, by the way it ends. -/
theorem BatchTrace.fate {files fs : List (FileEntry C)} {b : WriteBatch C Cb} {stop : Option Stop}
    {es : List (Effect C Cb)} (h : BatchTrace files b stop fs es) (hn : stop ≠ some .starved)
    (hb : (b.writes.map (·.seq)).Nodup) {w : QueuedWrite Cb} (hw : w ∈ b.writes) {cb : Cb}
    (hcb : w.write.callback = some cb) :
    (Executed.mk files b stop es).Fate cb (callsOf w.seq es) := by
  cases h with
  | single hw' => simp [hw'] at hw
  | @flushStopped _ _ s _ _ ht h =>
    have ha : answered es = replies (.ok ()) [] := answered_flush h.isFlush
    have hc : callsOf w.seq es = [] := callsOf_eq_nil (by simp [ha])
    cases h with
    | unwritten h =>
      obtain ⟨_, hs, -⟩ := h
      exact absurd (congrArg some hs) hn
    | synced _ _ h =>
      rcases s with e | msg | _
      · exact h.elim
      · exact .panicked hc rfl
      · exact absurd rfl hn
  | @answerStopped f upto res _ es s es' ht h h' =>
    have hflush : (es ++ es').takeWhile (·.isFlush) = es := by
      refine takeWhile_flush h.isFlush fun e he => ?_
      obtain ⟨v, -, cb, -, rfl⟩ := mem_answers (h'.mem e (List.mem_of_head? he))
      rfl
    have hans : answered (es ++ es') <+: replies res b.writes := by
      rw [answered_append, answered_flush h.isFlush, List.nil_append]
      exact h'.replies_le
    rcases callsOf_of_prefix hans hb hw hcb with hc | hc
    · rcases s with e | msg | _
      · exact h'.elim
      · exact .panicked hc rfl
      · exact absurd rfl hn
    · exact h.fate ht hflush hc
  | @failed f upto e _ es ht h =>
    have hflush : (es ++ answers (.error e) b.writes ++ [Effect.release b.bytes]).takeWhile
      (·.isFlush) = es := by
      rw [List.append_assoc]
      exact takeWhile_flush h.isFlush fun _ => head_answers
    have hans : answered (es ++ answers (.error e) b.writes ++ [.release b.bytes]) =
        replies (.error e) b.writes := by
      rw [answered_append, answered_append, answered_flush h.isFlush, answered_answers]
      exact List.append_nil _
    exact h.fate ht hflush (callsOf_of_eq hans hb hw hcb)
  | @flushed f upto _ es r _ es' ht h h' =>
    have hflush : (es ++ answers (.ok ()) b.writes ++ [Effect.release b.bytes] ++ es' ++
        completion b r).takeWhile (·.isFlush) = es := by
      simp only [List.append_assoc]
      exact takeWhile_flush h.isFlush fun _ => head_answers
    have hcompl : answered (completion b r : List (Effect C Cb)) = [] := by
      cases r <;> rfl
    have hans : answered (es ++ answers (.ok ()) b.writes ++ [.release b.bytes] ++ es' ++
        completion b r) = replies (.ok ()) b.writes := by
      simp only [answered_append, answered_flush h.isFlush, answered_answers,
        answered_handling h'.isHandling, hcompl, answered_release, answered_nil, List.nil_append,
        List.append_nil]
    exact h.fate ht hflush (callsOf_of_eq hans hb hw hcb)

end Worker

/-! ## The batches of a session -/

namespace Executed

/-- The batch has run to its end, or has stopped the worker. -/
structure Ran (x : Executed C Cb) : Prop where
  collected : Worker.Collected x.batch
  trace : ∃ fs, Worker.BatchTrace x.files x.batch x.stop fs x.effects
  told : x.stop ≠ some .starved

theorem Ran.answered {x : Executed C Cb} (h : x.Ran) :
    ∃ res, Wal.answered x.effects <+: Worker.replies res x.batch.writes := by
  obtain ⟨fs, ht⟩ := h.trace
  rcases ht.failStop with ⟨-, ha⟩ | ⟨-, pre, e, post, hf⟩
  · exact ⟨_, ha⟩
  · rw [hf.split, answered_append]
    rcases hf.answers with ⟨hp, ha⟩ | ⟨hp, rfl⟩
    · have hpre : Wal.answered pre = [] := by
        refine Worker.answered_flush fun a ha => ?_
        have := hp a ha
        cases a <;> first | rfl | cases this
      rw [hpre, List.nil_append]
      exact ⟨_, ha⟩
    · have hpost : Wal.answered [(.failed e : Effect C Cb)] = [] := rfl
      rw [hp, hpost, List.append_nil]
      exact ⟨_, List.prefix_refl _⟩

/-- The numbers of a batch. -/
def seqs (x : Executed C Cb) : List Nat := x.batch.requests.map (·.seq)

theorem Ran.mem_seqs {x : Executed C Cb} (h : x.Ran) {a : Nat × Cb × IoResult}
    (ha : a ∈ Wal.answered x.effects) : a.1 ∈ x.seqs := by
  obtain ⟨res, hle⟩ := h.answered
  obtain ⟨-, w, hw, hseq, -⟩ := Worker.replies_ok (hle.subset ha)
  rw [← hseq]
  exact List.mem_map_of_mem (Worker.mem_requests hw)

theorem Ran.mem_writes {x : Executed C Cb} (h : x.Ran) {r : SeqRequest C Cb}
    (hr : r ∈ x.batch.requests) {cb : Cb} (hcb : r.callback? = some cb) :
    ∃ w ∈ x.batch.writes, w.seq = r.seq ∧ w.write.callback = some cb := by
  rcases List.mem_append.1 hr with hr | hr
  · obtain ⟨w, hw, rfl⟩ := List.mem_map.1 hr
    exact ⟨w, hw, rfl, hcb⟩
  · obtain ⟨seq, req⟩ := r
    have hd := h.collected.deferred _ (Option.mem_toList.1 hr)
    cases req with
    | write w => cases hd
    | _ => cases hcb

/-- **The fate of a callback** in a list of batches with distinct numbers. -/
theorem fate_of_ran {xs : List (Executed C Cb)} (h : ∀ x ∈ xs, x.Ran) (hn : (xs.flatMap seqs).Nodup)
    {x : Executed C Cb} (hx : x ∈ xs) {r : SeqRequest C Cb} (hr : r ∈ x.batch.requests) {cb : Cb}
    (hcb : r.callback? = some cb) : x.Fate cb (callsOf r.seq (xs.flatMap (·.effects))) := by
  obtain ⟨pre, post, rfl⟩ := List.append_of_mem hx
  have hseq : r.seq ∈ x.seqs := List.mem_map_of_mem hr
  obtain ⟨hnodup, hdisj⟩ := List.nodup_flatMap.1 hn
  obtain ⟨-, hcons, hpre⟩ := List.pairwise_append.1 hdisj
  have hpost := (List.pairwise_cons.1 hcons).1
  -- no other batch has a request of this number
  have other : ∀ ys : List (Executed C Cb), (∀ y ∈ ys, y.Ran ∧ r.seq ∉ y.seqs) →
      callsOf r.seq (ys.flatMap (·.effects)) = [] := by
    intro ys hys
    induction ys with
    | nil => rfl
    | cons y ys ih =>
      obtain ⟨hy, hys⟩ := List.forall_mem_cons.1 hys
      have hnil : callsOf r.seq y.effects = [] :=
        callsOf_eq_nil fun a ha he => hy.2 (he ▸ hy.1.mem_seqs ha)
      rw [List.flatMap_cons, callsOf_append, hnil, ih hys]
      rfl
  have h1 := other pre fun y hy => ⟨h y (List.mem_append_left _ hy), fun hm =>
    hpre y hy x List.mem_cons_self hm hseq⟩
  have h2 := other post fun y hy =>
    ⟨h y (List.mem_append_right _ (List.mem_cons_of_mem _ hy)), fun hm =>
    hpost y hy hseq hm⟩
  rw [List.flatMap_append, List.flatMap_cons, callsOf_append, callsOf_append, h1, h2,
    List.nil_append, List.append_nil]
  obtain ⟨w, hw, hws, hwcb⟩ := (h x hx).mem_writes hr hcb
  obtain ⟨fs, ht⟩ := (h x hx).trace
  have hb : (x.batch.writes.map (·.seq)).Nodup := by
    have := hnodup x hx
    unfold seqs WriteBatch.requests at this
    rw [List.map_append, List.map_map] at this
    exact (List.nodup_append.1 this).1
  rw [← hws]
  exact ht.fate (h x hx).told hb hw hwcb

end Executed

/-- Batches that follow one another: each finds the files that the one before it leaves listed. -/
inductive Executed.Chained : List (FileEntry C) → List (Executed C Cb) → List (FileEntry C) → Prop
  | nil {files} : Chained files [] files
  | snoc {files xs fs x fs'} (h : Chained files xs fs) (hf : x.files = fs)
      (ht : Worker.BatchTrace fs x.batch x.stop fs' x.effects) : Chained files (xs ++ [x]) fs'

/-- A history is a list of batches that ran to their end. -/
theorem Worker.History.executed {files fs : List (FileEntry C)} {bs : List (WriteBatch C Cb)}
    {es : List (Effect C Cb)} (h : Worker.History files bs es fs) :
    ∃ xs : List (Executed C Cb), bs = xs.map (·.batch) ∧ es = xs.flatMap (·.effects) ∧
      Executed.Chained files xs fs ∧ ∀ x ∈ xs, x.Ran ∧ x.stop = none := by
  induction h with
  | nil => exact ⟨[], rfl, rfl, .nil, by simp⟩
  | @snoc bs es fs b es' fs' _ hb ht ih =>
    obtain ⟨xs, rfl, rfl, hch, hxs⟩ := ih
    refine ⟨xs ++ [⟨fs, b, none, es'⟩], by simp, by simp, .snoc hch rfl ht, fun x hx => ?_⟩
    rcases List.mem_append.1 hx with hx | hx
    · exact hxs x hx
    · obtain rfl := List.mem_singleton.1 hx
      exact ⟨⟨hb, ⟨fs', ht⟩, by simp⟩, rfl⟩

/-- **The batches of a worker that is gone**: only the last one may have stopped it. -/
theorem Session.Explained.executed {s : Session A C Cb} (h : s.Explained)
    (hw : s.worker = .terminated) :
    ∃ (first : FileEntry C) (xs : List (Executed C Cb)), s.batches = xs.map (·.batch) ∧
      s.trace = xs.flatMap (·.effects) ∧ Executed.Chained [first] xs s.files ∧ (∀ x ∈ xs, x.Ran) ∧
      (∀ x ∈ xs.dropLast, x.stop = none) ∧
      s.status = (xs.getLast?.bind (·.stop)).map Session.stopError := by
  rw [Session.Explained, hw] at h
  rcases hst : s.status with _ | e <;> simp only [hst] at h
  · obtain ⟨first, hh⟩ := h
    obtain ⟨xs, hb, ht, hch, hxs⟩ := hh.executed
    refine ⟨first, xs, hb, ht, hch, fun x hx => (hxs x hx).1,
      fun x hx => (hxs x (List.mem_of_mem_dropLast hx)).2, ?_⟩
    rcases hl : xs.getLast? with _ | x
    · rfl
    · rw [Option.bind_some, (hxs x (List.mem_of_getLast? hl)).2]
      rfl
  · obtain ⟨b, stop, ⟨first, bs, pre, fs, done, hb, hc, hh, ht, hbt⟩, hn, rfl⟩ := h
    obtain ⟨xs, rfl, rfl, hch, hxs⟩ := hh.executed
    rw [List.append_nil] at hbt
    refine ⟨first, xs ++ [⟨fs, b, some stop, done⟩], by simp [hb], by simp [ht],
      .snoc hch rfl hbt, fun x hx => ?_, fun x hx => ?_, ?_⟩
    · rcases List.mem_append.1 hx with hx | hx
      · exact (hxs x hx).1
      · obtain rfl := List.mem_singleton.1 hx
        exact ⟨hc, ⟨_, hbt⟩, by simpa using hn⟩
    · rw [List.dropLast_concat] at hx
      exact (hxs x hx).2
    · simp

/-! ## Every callback of a session -/

namespace System

open Session

section
variable [Crc32fast] [Encode A] [Decode A] [Encode C] [Decode C] {sm : StateMachine A C}

/-- **The callbacks of a session whose worker is gone.** Its trace is what its batches did, one
after another: each found the files that the one before it left, and ran to its end or stopped the
worker. Accepted requests are in the batches, in their order, or were dropped with the channel. Only
the last batch may have stopped the worker, and requests are dropped only then. The callback of a
dropped write is never called. That of a write in a batch is called once, with `Ok` if the batch was
written, and synchronized if it asks for it, and with the error otherwise; but user code that panics
in the last batch leaves the callbacks behind it uncalled. -/
theorem runs_answered {ls : List (Label Cb sm)} {sys : System A C Cb}
    (h : runs step (System.fresh A C Cb) ls = some sys) {s : Session A C Cb}
    (hs : sys.session = some s) (hw : s.worker = .terminated) :
    ∃ (first : FileEntry C) (xs : List (Executed C Cb)) (dropped : List (SeqRequest C Cb)),
      s.sent.map (·.request) = (xs.flatMap (·.batch.requests)) ++ dropped ∧
      s.trace = xs.flatMap (·.effects) ∧
      Executed.Chained [first] xs s.files ∧
      (∀ x ∈ xs, x.Ran) ∧
      (∀ x ∈ xs.dropLast, x.stop = none) ∧
      s.status = (xs.getLast?.bind (·.stop)).map stopError ∧
      (s.status = none → dropped = []) ∧
      (∀ x ∈ xs, ∃ res, answered x.effects <+: Worker.replies res x.batch.writes) ∧
      ∀ r ∈ s.sent, ∀ cb, r.request.callback? = some cb →
        (r.request ∈ dropped ∧ callsOf r.request.seq s.trace = []) ∨
        ∃ x ∈ xs, r.request ∈ x.batch.requests ∧ x.Fate cb (callsOf r.request.seq s.trace) := by
  obtain ⟨hexpl, hnum⟩ := runs_explained h
  have hn := hnum s hs
  obtain ⟨first, xs, hb, ht, hch, hran, hlast, hst⟩ := (hexpl s hs).executed hw
  have hreq : s.batches.flatMap (·.requests) = xs.flatMap (·.batch.requests) := by
    rw [hb, List.flatMap_map]
  have htaken := hn.taken
  rw [collecting, hw, List.append_nil, hreq] at htaken
  obtain ⟨dropped, hdropped⟩ := (List.prefix_append _ _).trans htaken
  have hnodup : ((xs.flatMap (·.batch.requests) ++ dropped).map (·.seq)).Nodup := by
    rw [hdropped, List.map_map]
    show (s.sent.map (·.request.seq)).Nodup
    rw [hn.seqs]
    exact List.nodup_range'
  rw [List.map_append, List.map_flatMap, List.nodup_append] at hnodup
  obtain ⟨hnx, -, hdisj⟩ := hnodup
  refine ⟨first, xs, dropped, hdropped.symm, ht, hch, hran, hlast, hst, fun hnone => ?_,
    fun x hx => (hran x hx).answered, ?_⟩
  · -- every accepted request has been taken
    have hall := (hn.all (.inr hnone)).1
    rw [collecting, hw, List.append_nil, (hn.ended (by simp [Session.ended, hw, hnone])).1,
      List.append_nil, hreq, ← hdropped] at hall
    simpa using hall
  · intro r hr cb hcb
    have hmem : r.request ∈ xs.flatMap (·.batch.requests) ++ dropped :=
      hdropped ▸ List.mem_map_of_mem hr
    rcases List.mem_append.1 hmem with hmem | hmem
    · obtain ⟨x, hx, hrx⟩ := List.mem_flatMap.1 hmem
      refine .inr ⟨x, hx, hrx, ?_⟩
      rw [ht]
      exact Executed.fate_of_ran hran hnx hx hrx hcb
    · refine .inl ⟨hmem, callsOf_eq_nil fun a ha he => ?_⟩
      rw [ht, answered, List.filterMap_flatMap, List.mem_flatMap] at ha
      obtain ⟨x, hx, ha⟩ := ha
      have hax : a.1 ∈ xs.flatMap Executed.seqs :=
        List.mem_flatMap.2 ⟨x, hx, (hran x hx).mem_seqs ha⟩
      exact hdisj a.1 hax r.request.seq (List.mem_map_of_mem hmem) he

end

end System

/-- Every callback of an accepted write was called once. -/
def Session.AnsweredOnce (s : Session A C Cb) : Prop :=
  ∀ r ∈ s.sent, r.request.callback?.isSome = true → (callsOf r.request.seq s.trace).length = 1

instance (s : Session A C Cb) : Decidable s.AnsweredOnce :=
  inferInstanceAs (Decidable (∀ r ∈ _, _ → _))

namespace System

open Session

section
open Register

/-- Two writes with callbacks are sent. -/
def twoWrites : List Step :=
  [start Register.config] ++ puts 1 ++ [.call (.sendPending true (some 7)), go, go, go] ++
    puts 2 ++ [.call (.sendPending true (some 8)), go, go, go]

/-- The first write fails, and the second is still in the channel. -/
def lostInChannel : List Step :=
  twoWrites ++ [.recv, .exec { writes := [.error diskError], calls := [], user := [none] }] ++
    List.replicate 4 .effect ++ [.releaseAll, .fail, .dropReceiver]

/-- Both writes are in one batch, and the first callback panics. -/
def lostInBatch : List Step :=
  twoWrites ++ [.recv, .collect,
    .exec { writes := [.ok 100], calls := [.ok ()], user := [none, some "callback"] }] ++
    List.replicate 5 .effect ++ [.releaseAll, .fail, .dropReceiver]

/-- The worker is gone at the end of a run, and a callback was not called once. -/
def Loses (ls : List Step) : Prop :=
  ∃ (sys : System Put Register Nat) (s : Session Put Register Nat),
    runs step (System.fresh Put Register Nat) ls = some sys ∧ sys.session = some s ∧
    s.worker = .terminated ∧ ¬ s.AnsweredOnce

theorem loses_of_run {ls : List Step}
    (h : ((runs step (System.fresh Put Register Nat) ls).any fun sys => sys.session.any fun s =>
      !s.receiving && !decide s.AnsweredOnce) = true) : Loses ls := by
  obtain ⟨sys, hsys, hs⟩ := (Option.any_eq_true _ _).1 h
  obtain ⟨s, hs, hd⟩ := (Option.any_eq_true _ _).1 hs
  simp only [Bool.and_eq_true, Bool.not_eq_true', decide_eq_false_iff_not] at hd
  exact ⟨sys, s, hsys, hs, not_receiving.1 hd.1, hd.2⟩

/-- Callbacks are lost with the channel, and behind a panic. -/
theorem callbacks_lost : Loses lostInChannel ∧ Loses lostInBatch :=
  ⟨loses_of_run (by decide +kernel), loses_of_run (by decide +kernel)⟩

theorem runs_answered_lost : ∃ (sys : System Put Register Nat) (s : Session Put Register Nat)
    (xs : List (Executed Register Nat)) (dropped : List (SeqRequest Register Nat)),
    runs step (System.fresh Put Register Nat) lostInChannel = some sys ∧ sys.session = some s ∧
    (∀ x ∈ xs, x.Ran) ∧ s.status = (xs.getLast?.bind (·.stop)).map stopError ∧ s.status ≠ none ∧
    s.sent.length = 2 ∧ ∀ r ∈ s.sent, ∀ cb, r.request.callback? = some cb →
      (r.request ∈ dropped ∧ callsOf r.request.seq s.trace = []) ∨
      ∃ x ∈ xs, r.request ∈ x.batch.requests ∧ x.Fate cb (callsOf r.request.seq s.trace) := by
  have h : ((runs step (System.fresh Put Register Nat) lostInChannel).any fun sys =>
      sys.session.any fun s => !s.receiving && s.status.isSome && decide (s.sent.length = 2))
        = true := by
    decide +kernel
  obtain ⟨sys, hsys, hs⟩ := (Option.any_eq_true _ _).1 h
  obtain ⟨s, hs, hd⟩ := (Option.any_eq_true _ _).1 hs
  simp only [Bool.and_eq_true, Bool.not_eq_true', decide_eq_true_eq] at hd
  obtain ⟨⟨hr, hst⟩, hlen⟩ := hd
  obtain ⟨-, xs, dropped, -, -, -, hran, -, hstatus, -, -, hfate⟩ :=
    runs_answered hsys hs (not_receiving.1 hr)
  exact ⟨sys, s, xs, dropped, hsys, hs, hran, hstatus, Option.isSome_iff_ne_none.1 hst, hlen, hfate⟩

end

end System

end Wal

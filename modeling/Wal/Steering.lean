import Wal.Contiguous
import Wal.Notifying

/-!
# The rotation and the notifications

A rotation places a sync write right in front of its `AppendFile`, and the checkpoint right behind
it. `steering` is the contract that says so, and every method keeps to it (`Op.steers`). `Steered`
joins it to the course of the worker, and every step of a session keeps it.
-/

namespace Wal

open Lib

/-! ## Methods -/

section
variable {A C Cb : Type} [Crc32fast] [Encode A] [Encode C]

/-- What the client ensures of its requests, when none of them is refused. -/
def steering : Contract (ClientAct A C Cb) IoResult (Heading C) where
  pre a g :=
    match a with
    | .send req => Allows A g req
    | .createNew id => g.cur < id
    | _ => True
  step a g r g' :=
    match a, r with
    | .send req, .ok () => g' = g.sent req ∧ Fits A req
    | .send _, .error _ => False
    | .createNew id, .ok () => g' = g.created id
    | _, _ => g' = g

/-- **Between two calls**: the open chunk ends where its file will, once everything is written, and
each chunk that was closed since the file `first` began was followed by the one at its end. -/
structure ClosedFollowed (first : Nat) (w : ChunkedWal C) (g : Heading C) : Prop where
  chained : Chained w
  start : w.open.chunk.globalStart = g.cur
  stop : w.open.chunk.globalEnd = g.cur + (g.total g.cur ++ w.open.pendingData).length
  settled : g.place.awaits = none
  closed : ∀ p ∈ w.closed, first ≤ p.1 → (p.1, p.2.chunk.globalEnd) ∈ g.turns
  increasing : g.turns.Pairwise fun a b => a.2 < b.2
  below : ∀ t ∈ g.turns, t.2 ≤ g.cur

variable {first : Nat} {w : ChunkedWal C} {g : Heading C}

/-- The buffer of the WAL is sent. -/
def Heading.flushed (g : Heading C) (data : Bytes) (sync : Bool) : Heading C :=
  { g with
    total := Function.update g.total g.cur (g.total g.cur ++ data)
    place := { synced := sync, awaits := none } }

theorem sendPending_steers
    (hstop : w.open.chunk.globalEnd = g.cur + (g.total g.cur ++ w.open.pendingData).length)
    (hc : ∀ c, g.place.awaits = some c → enc (.checkpoint c : WALRecord A C) <+: w.open.pendingData)
    (sync : Bool) (callback : Option Cb) :
    ClientM.Meets steering (fun (res : Except Fault IoResult) w' g' => res = .ok (.ok ()) ∧
      w' = w.flushed ∧
      g' = g.flushed w.open.pendingData sync)
      (ChunkedWal.sendPending sync callback : ClientM A C Cb IoResult) w g := by
  unfold ChunkedWal.sendPending
  refine .get_bind (.set_bind (.perform ⟨hstop, hc⟩ fun r g' hstep => ?_))
  rcases r with e | ⟨⟩
  · exact hstep.elim
  · exact ⟨rfl, rfl, hstep.1⟩

omit [Crc32fast] [Encode C] in
theorem ClosedFollowed.flushed (h : ClosedFollowed first w g) (sync : Bool) :
    ClosedFollowed first w.flushed (g.flushed w.open.pendingData sync) where
  chained := h.chained.congr rfl rfl
  start := h.start
  stop := by
    show w.open.chunk.globalEnd = g.cur + (Function.update g.total g.cur _ g.cur ++ []).length
    rw [Function.update_self, List.append_nil]
    exact h.stop
  settled := rfl
  closed := h.closed
  increasing := h.increasing
  below := h.below

omit [Crc32fast] [Encode C] in
theorem ClosedFollowed.created (h : ClosedFollowed first w g) {id : Nat} (hid : g.cur < id) :
    ClosedFollowed first w (g.created id) where
  chained := h.chained
  start := h.start
  stop := by
    show w.open.chunk.globalEnd = g.cur +
      (Function.update g.total id [] g.cur ++ w.open.pendingData).length
    rw [Function.update_of_ne (Nat.ne_of_lt hid)]
    exact h.stop
  settled := h.settled
  closed := h.closed
  increasing := h.increasing
  below := h.below

theorem append_steers [SizedCodec A] [SizedCodec C] (rec : WALRecord A C) :
    ClientM.Meets steering (fun (res : Except Fault Unit) w' g' => g' = g ∧
      ((¬ Encodes rec ∧ (∃ e, res = .error e) ∧ w' = w) ∨
        (Encodes rec ∧ res = .ok () ∧ w' = w.pushed rec)))
      (ChunkedWal.append rec : ClientM A C Cb Unit) w g := by
  unfold ChunkedWal.append
  refine .get_bind ?_
  by_cases hr : Encodes rec
  · simp only [OpenChunk.appendRecord_ok hr]
    refine .set_bind (.liftFault_bind (fun seg hseg => ?_) fun e he => absurd he (by simp))
    exact .perform_bind trivial fun r g' hg => .pure ⟨hg, .inr ⟨hr, rfl, rfl⟩⟩
  · obtain ⟨e, he⟩ : ∃ e, (encode rec).2 = .error e := by
      rcases hn : (encode rec).2 with e | n
      · exact ⟨e, rfl⟩
      · exact absurd ⟨n, hn⟩ hr
    simp only [OpenChunk.appendRecord_error he]
    exact .set_bind (.liftFault_bind (fun _ h => absurd h (by simp)) fun e' _ =>
      ⟨rfl, .inl ⟨hr, ⟨_, rfl⟩, rfl⟩⟩)

theorem ClosedFollowed.pushed [SizedCodec A] [SizedCodec C]
    (hne : ∀ rec : WALRecord A C, Encodes rec → enc rec ≠ []) (h : ClosedFollowed first w g)
    {rec : WALRecord A C} (hr : Encodes rec) : ClosedFollowed first (w.pushed rec) g where
  chained := by
    obtain ⟨n, hn⟩ := hr
    obtain rfl : n = (enc rec).length := SizedCodec.size_eq hn
    refine ⟨?_, h.chained.filled.push (List.length_pos_of_ne_nil (hne rec ⟨_, hn⟩))⟩
    show ∃ first, Linked first w.closed (w.open.chunk.appendRecordSize (enc rec).length).globalStart
    rw [Chunk.appendRecordSize_globalStart]
    exact h.chained.linked
  start := (Chunk.appendRecordSize_globalStart _ _).trans h.start
  stop := by
    show (w.open.chunk.appendRecordSize (enc rec).length).globalEnd =
      g.cur + (g.total g.cur ++ (w.open.pendingData ++ enc rec)).length
    have hlen : (g.total g.cur ++ w.open.pendingData ++ enc rec).length =
        (g.total g.cur ++ w.open.pendingData).length + (enc rec).length := List.length_append
    rw [Chunk.appendRecordSize_globalEnd, h.stop, ← List.append_assoc, hlen, Nat.add_assoc]
  settled := h.settled
  closed := h.closed
  increasing := h.increasing
  below := h.below

theorem createEmpty_steers {id : Nat} (hid : g.cur < id) :
    ClientM.Meets steering (fun res w' g' => w' = w ∧
      ((∃ e, res = .error (.io e)) ∧ (g' = g ∨ g' = g.created id) ∨
        res = .ok (OpenChunk.fromFile id) ∧ g' = g.created id))
      (ChunkedWal.createEmpty id : ClientM A C Cb OpenChunk) w g := by
  unfold ChunkedWal.createEmpty
  refine .perform_bind hid fun r g' hstep => ?_
  rcases r with e | ⟨⟩
  · obtain rfl : g' = g := hstep
    exact .require_bind (fun h => absurd h (by simp)) fun e _ => ⟨rfl, .inl ⟨⟨e, rfl⟩, .inl rfl⟩⟩
  obtain rfl : g' = g.created id := hstep
  refine .require_bind (fun _ => .perform_bind trivial fun r g' hstep => ?_) fun e he =>
    absurd he (by simp)
  obtain rfl : g' = g.created id := by cases r <;> exact hstep
  exact .require_bind (fun _ => .pure ⟨rfl, .inr ⟨rfl, rfl⟩⟩) fun e _ =>
    ⟨rfl, .inl ⟨⟨e, rfl⟩, .inr rfl⟩⟩

/-- Behind the `AppendFile` of a rotation. -/
def Heading.turned (g : Heading C) (id : Nat) (c : C) : Heading C :=
  { g.created id with
    cur := id, place := { synced := false, awaits := some c }, turns := g.turns ++ [(g.cur, id)] }

/-- **A rotation** sends the open chunk with a synchronization, then the new file, then its
checkpoint. -/
theorem tryCloseFullChunk_steers [SizedCodec A] [SizedCodec C] (h : ClosedFollowed first w g)
    (c : C) :
    ClientM.Meets steering (fun (_ : Except Fault (Option C)) w' g' => ClosedFollowed first w' g')
      (ChunkedWal.tryCloseFullChunk c : ClientM A C Cb (Option C)) w g := by
  unfold ChunkedWal.tryCloseFullChunk
  refine .get_bind ?_
  by_cases hf : w.isOpenChunkFull = true
  swap
  · simp only [hf, Bool.not_false, if_true]
    exact .pure h
  simp only [hf, Bool.not_true, Bool.false_eq_true, if_false]
  have hsettled : ∀ {bs : Bytes} c, g.place.awaits = some c →
    enc (.checkpoint c : WALRecord A C) <+: bs :=
    fun c hc => absurd (h.settled.symm.trans hc) (by simp)
  refine .bind (sendPending_steers h.stop hsettled true none) ?_ fun e w' g' hr =>
    absurd hr.1 (by simp)
  rintro r₁ _ _ ⟨-, rfl, rfl⟩
  have h₁ := h.flushed true
  refine .require_bind (fun _ => ?_) fun e _ => h₁
  obtain ⟨seg, hseg, hend⟩ :=
    Chunk.lastSegment_of_increasing h.chained.filled.increasing h.chained.filled.records
  refine .liftFault_bind (fun seg' hseg' => ?_) fun e he => absurd (hseg.symm.trans he) (by simp)
  obtain rfl := Except.ok.inj (hseg.symm.trans hseg')
  have hlt : g.cur < seg.end_ := by
    rw [hend, ← h.start]
    exact h.chained.filled.lt
  refine .bind (createEmpty_steers hlt) ?_ ?_
  swap
  · rintro e _ g' ⟨rfl, ⟨-, rfl | rfl⟩ | ⟨he, -⟩⟩
    · exact h₁
    · exact h₁.created hlt
    · cases he
  rintro o _ g' ⟨rfl, ⟨⟨e, he⟩, -⟩ | ⟨he, rfl⟩⟩
  · cases he
  obtain rfl := Except.ok.inj he
  have hallows : Allows A ((g.flushed w.open.pendingData true).created seg.end_)
      (.appendFile (FileEntry.new seg.end_ (OpenChunk.fromFile seg.end_).chunk.f (some c)) :
        WorkerRequest C Cb) := by
    refine ⟨rfl, rfl, ⟨c, rfl⟩, ?_, Function.update_self ..⟩
    show seg.end_ = g.cur +
      (Function.update (Function.update g.total g.cur _) seg.end_ [] g.cur).length
    rw [Function.update_of_ne (Nat.ne_of_lt hlt), Function.update_self, hend]
    exact h.stop
  refine .perform_bind hallows fun r₂ g₂ h₂ => ?_
  rcases r₂ with e | ⟨⟩
  · exact h₂.elim
  obtain ⟨hg₂, hfits⟩ := h₂
  obtain rfl : g₂ = (g.flushed w.open.pendingData true).turned seg.end_ c := hg₂
  have hc : Encodes (.checkpoint c : WALRecord A C) := hfits c rfl
  refine .require_bind (fun _ => ?_) fun e he => absurd he (by simp)
  refine .get_bind (.set_bind (.bind (append_steers (.checkpoint c)) ?_ ?_))
  swap
  · rintro e w' g' ⟨-, ⟨hn, -⟩ | ⟨-, he, -⟩⟩
    · exact absurd hc hn
    · cases he
  rintro u _ _ ⟨rfl, ⟨hn, -⟩ | ⟨-, -, rfl⟩⟩
  · exact absurd hc hn
  have hnil : ((g.flushed w.open.pendingData true).turned seg.end_ c).total seg.end_ = [] :=
    Function.update_self ..
  refine .bind (sendPending_steers ?_ ?_ false none) ?_ fun e w' g' hr => absurd hr.1 (by simp)
  · show ((OpenChunk.fromFile seg.end_).chunk.appendRecordSize _).globalEnd =
      seg.end_ + (((g.flushed w.open.pendingData true).turned seg.end_ c).total seg.end_ ++
        ([] ++ _)).length
    rw [hnil, Chunk.appendRecordSize_globalEnd]
    rfl
  · intro c' hc'
    cases hc'
    exact List.prefix_refl _
  rintro r₃ _ _ ⟨hr₃, rfl, rfl⟩
  obtain rfl := Except.ok.inj hr₃
  refine .require_bind (fun _ => .get_bind (.set_bind (.pure ?_))) fun e he => absurd he (by simp)
  have hpos : 0 < (enc (.checkpoint c : WALRecord A C)).length := by
    obtain ⟨n, hn⟩ := hc
    obtain rfl : n = (enc (.checkpoint c : WALRecord A C)).length := SizedCodec.size_eq hn
    exact checkpoint_pos hn
  refine ⟨h₁.chained.rotate hpos c ?_ rfl, ?_, ?_, rfl, fun p hp hle => ?_, ?_, fun t ht => ?_⟩
  · show (OpenChunk.fromFile seg.end_).chunk.appendRecordSize _ = _
    rw [hend]
    rfl
  · exact Chunk.appendRecordSize_globalStart _ _
  · show ((OpenChunk.fromFile seg.end_).chunk.appendRecordSize _).globalEnd = seg.end_ +
      (Function.update ((g.flushed w.open.pendingData true).turned seg.end_ c).total seg.end_
        (((g.flushed w.open.pendingData true).turned seg.end_ c).total seg.end_ ++ ([] ++ _))
        seg.end_ ++ []).length
    rw [Function.update_self, hnil, Chunk.appendRecordSize_globalEnd, List.append_nil]
    rfl
  · obtain ⟨first', hl⟩ := h.chained.linked
    have hins : insertChunk w.open.chunk.chunkId { state := c, chunk := w.open.chunk } w.closed =
        w.closed ++ [(w.open.chunk.chunkId, { state := c, chunk := w.open.chunk })] :=
      insertChunk_of_lt hl.bounds.2
    have hp : p ∈ w.closed ++ [(w.open.chunk.chunkId, { state := c, chunk := w.open.chunk })] :=
      hins ▸ hp
    show (p.1, p.2.chunk.globalEnd) ∈ g.turns ++ [(g.cur, seg.end_)]
    rcases List.mem_append.1 hp with hp | hp
    · exact List.mem_append_left _ (h.closed p hp hle)
    · obtain rfl := List.mem_singleton.1 hp
      refine List.mem_append_right _ (List.mem_singleton.2 ?_)
      show (w.open.chunk.globalStart, w.open.chunk.globalEnd) = _
      rw [h.start, hend]
  · show (g.turns ++ [(g.cur, seg.end_)]).Pairwise fun a b => a.2 < b.2
    refine List.pairwise_append.2 ⟨h.increasing, List.pairwise_singleton _ _, fun a ha b hb => ?_⟩
    obtain rfl := List.mem_singleton.1 hb
    exact (h.below a ha).trans_lt hlt
  · have ht : t ∈ g.turns ++ [(g.cur, seg.end_)] := ht
    show t.2 ≤ seg.end_
    rcases List.mem_append.1 ht with ht | ht
    · exact (h.below t ht).trans (Nat.le_of_lt hlt)
    · rw [List.mem_singleton.1 ht]

omit [Crc32fast] [Encode A] [Encode C] in
theorem ClosedFollowed.drained (h : ClosedFollowed first w g) {w' : ChunkedWal C}
    (ho : w'.open = w.open) (k : Nat) (hc : w'.closed = w.closed.drop k) :
    ClosedFollowed first w' g where
  chained := by
    obtain ⟨first', hl⟩ := h.chained.linked
    refine ⟨?_, ho ▸ h.chained.filled⟩
    rw [hc, ho]
    exact hl.drop k
  start := ho ▸ h.start
  stop := ho ▸ h.stop
  settled := h.settled
  closed p hp := h.closed p (List.mem_of_mem_drop (hc ▸ hp))
  increasing := h.increasing
  below := h.below

theorem send_steers {req : WorkerRequest C Cb} (hpre : Allows A g req) (hsent : g.sent req = g) :
    ClientM.Meets steering (fun (_ : Except Fault Unit) w' g' => w' = w ∧ g' = g)
      (do ClientM.require (← ClientM.perform (.send req)) : ClientM A C Cb Unit) w g := by
  refine .perform_bind hpre fun r g' hstep => ?_
  rcases r with e | ⟨⟩
  · exact hstep.elim
  · obtain ⟨rfl, -⟩ := hstep
    rw [hsent]
    exact .require (fun _ => ⟨rfl, rfl⟩) fun _ _ => ⟨rfl, rfl⟩

theorem shutdown_steers (h : ClosedFollowed first w g) :
    ClientM.Meets steering (fun (_ : Except Fault Unit) w' g' => ClosedFollowed first w' g')
      (ChunkedWal.shutdown : ClientM A C Cb Unit) w g := by
  unfold ChunkedWal.shutdown
  refine .get_bind ?_
  by_cases hw : w.workerHandle = true
  swap
  · simp only [hw, Bool.not_false, if_true]
    exact .pure h
  simp only [hw, Bool.not_true, Bool.false_eq_true, if_false]
  have h' : ClosedFollowed first { w with workerHandle := false } g := h.drained rfl 0 rfl
  refine .set_bind (.bind (sendPending_steers h'.stop (fun c hc => ?_) true none) ?_
    fun e w' g' hr => absurd hr.1 (by simp))
  · exact absurd (h.settled.symm.trans hc) (by simp)
  rintro r _ _ ⟨-, rfl, rfl⟩
  refine .perform_bind trivial fun r₁ g₁ h₁ => .perform_bind trivial fun r₂ g₂ h₂ => ?_
  obtain rfl : g₁ = _ := by cases r₁ <;> exact h₁
  obtain rfl : g₂ = _ := by cases r₂ <;> exact h₂
  have hflushed := h'.flushed true
  refine .require_bind (fun _ => .require_bind (fun _ => ?_) fun e _ => hflushed) fun e _ =>
    hflushed
  refine .perform_bind trivial fun r₃ g₃ h₃ => ?_
  obtain rfl : g₃ = _ := by cases r₃ <;> exact h₃
  exact .require (fun _ => hflushed) fun _ _ => hflushed

/-- **Every method** keeps to the contract. -/
theorem Op.steers [SizedCodec A] [SizedCodec C]
    (hne : ∀ rec : WALRecord A C, Encodes rec → enc rec ≠ []) (op : Op A C Cb)
    (h : ClosedFollowed first w g) :
    ClientM.Meets steering (fun (_ : Except Fault (Ret C)) w' g' => ClosedFollowed first w' g')
      op.run w g := by
  have hsettled : ∀ c, g.place.awaits = some c → enc (.checkpoint c : WALRecord A C) <+:
    w.open.pendingData :=
    fun c hc => absurd (h.settled.symm.trans hc) (by simp)
  cases op with
  | append rec =>
    refine .bind (append_steers rec) ?_ ?_
    · rintro u _ _ ⟨rfl, ⟨-, ⟨e, he⟩, -⟩ | ⟨hr, -, rfl⟩⟩
      · cases he
      · exact .pure (h.pushed hne hr)
    · rintro e _ _ ⟨rfl, ⟨-, -, rfl⟩ | ⟨-, he, -⟩⟩
      · exact h
      · cases he
  | sendPending sync callback =>
    refine .bind (sendPending_steers h.stop hsettled sync callback) ?_ fun e w' g' hr =>
      absurd hr.1 (by simp)
    rintro r _ _ ⟨-, rfl, rfl⟩
    exact .require_bind (fun _ => .pure (h.flushed sync)) fun e _ => h.flushed sync
  | tryCloseFullChunk c =>
    exact .bind (tryCloseFullChunk_steers h c) (fun _ _ _ h => .pure h) fun _ _ _ h => h
  | drainClosedChunksWhile shouldDrain =>
    obtain ⟨k, hk⟩ := ChunkedWal.drainLoop_eq shouldDrain 0 w.closed
    refine .bind (Q := fun _ w' g' => ClosedFollowed first w' g') ?_ (fun _ _ _ h => .pure h)
      fun _ _ _ h => h
    refine .get_bind ?_
    rw [hk]
    exact .set_bind (.pure (h.drained rfl k rfl))
  | sendRemoveChunks ids =>
    refine .bind
      (send_steers
        (show Allows A g (.removeChunks ids : WorkerRequest C Cb) from trivial) rfl) ?_ ?_
    · rintro u _ _ ⟨rfl, rfl⟩
      exact .pure h
    · rintro f _ _ ⟨rfl, rfl⟩
      exact h
  | sendGetStat =>
    refine .bind
      (send_steers (show Allows A g (.getFlushStat : WorkerRequest C Cb) from trivial) rfl) ?_ ?_
    · rintro u _ _ ⟨rfl, rfl⟩
      exact .pure h
    · rintro f _ _ ⟨rfl, rfl⟩
      exact h
  | waitWorkerIdle =>
    refine .bind (Q := fun _ w' g' => ClosedFollowed first w' g') ?_ (fun _ _ _ h => .pure h)
      fun _ _ _ h => h
    refine .perform_bind trivial fun r g' hstep => ?_
    obtain rfl : g' = g := by cases r <;> exact hstep
    exact .require (fun _ => h) fun _ _ => h
  | shutdown => exact .bind (shutdown_steers h) (fun _ _ _ h => .pure h) fun _ _ _ h => h

end

/-! ## Sessions -/

section
variable {A C Cb : Type} [Crc32fast] [Encode A] [Encode C]

/-- **The worker on its way**: behind the batch it executes, the files stand at a heading from which
the requests that are left lead to `g`. -/
structure Way (first : FileEntry C) (fs : Fs) (s : Session A C Cb) (g : Heading C)
    (base : Nat → Bytes) (entry : FileEntry C) (g₀ : Heading C) : Prop where
  data : ∀ f, (fs.file f).data = bytesBehind base s.trace f
  listed : s.files.getLast? = some entry
  steers : Steers A first base (s.trace ++ s.executing) entry g₀
  follows : Follows A g₀ s.outstanding g

/-- **Between two steps of a session.** -/
structure Steered (first : FileEntry C) (fs : Fs) (s : Session A C Cb) (g : Heading C) : Prop where
  way : ∃ base entry g₀, Way first fs s g base entry g₀
  idle : ∀ w, s.client = .idle w → ClosedFollowed first.f w g
  busy : ∀ op p, s.client = .busy op p → p.Safe steering (fun x g => ClosedFollowed first.f x.2 g) g
  running : s.failing = false
  status : s.status = none
  accepted : s.sending ≠ .rejected

variable {first : FileEntry C} {fs fs' : Fs} {s s' : Session A C Cb} {g g' g₀ : Heading C}
    {base : Nat → Bytes}
  {entry : FileEntry C}

theorem Way.same (h : Way first fs s g base entry g₀) (hs : s.SameCourse s')
    (hd : ∀ f, (fs'.file f).data = (fs.file f).data) : Way first fs' s' g base entry g₀ where
  data f := by rw [hd, hs.trace, h.data]
  listed := hs.files ▸ h.listed
  steers := by
    rw [hs.trace, hs.executing]
    exact h.steers
  follows := hs.outstanding ▸ h.follows

theorem Way.created (h : Way first fs s g base entry g₀) {id : Nat} (hid : g.cur < id) :
    Way first (fs.createNew id) s (g.created id) (Function.update base id []) entry
      (g₀.created id) := by
  have hlt : g₀.cur < id := Nat.lt_of_le_of_lt (Follows.le h.follows) hid
  refine ⟨fun f => ?_, h.listed, h.steers.created hlt, h.follows.created hid⟩
  unfold bytesBehind
  by_cases hf : f = id
  · subst hf
    have hnil : bytesFor f (landing s.trace) = [] := by
      refine bytesFor_eq_nil fun t ht he => ?_
      have hle := h.steers.story.landed t (by
        rw [landing_append]
        exact List.mem_append_left _ ht)
      have := h.steers.cur
      omega
    rw [Fs.createNew_file_self, Function.update_self, hnil]
    rfl
  · rw [Fs.createNew_file_ne hf, Function.update_of_ne hf]
    exact h.data f

theorem Way.enqueued (h : Way first fs s g base entry g₀) {req : WorkerRequest C Cb}
    (hpre : Allows A g req) (hf : s'.files = s.files) (ht : s'.trace = s.trace)
    (he : s'.executing = s.executing) (ho : s'.outstanding = s.outstanding ++ [req]) :
    Way first fs s' (g.sent req) base entry g₀ where
  data f := by rw [ht, h.data]
  listed := hf ▸ h.listed
  steers := by
    rw [ht, he]
    exact h.steers
  follows := by
    rw [ho]
    exact follows_append.2 ⟨g, h.follows, hpre, rfl⟩

theorem Way.executed (h : Way first fs s g base entry g₀) {b : WriteBatch C Cb}
    {files : List (FileEntry C)} {es : List (Effect C Cb)}
    (ht : Worker.BatchTrace s.files b none files es) (hb : Worker.Collected b)
    (he : s.executing = []) (ho : s.outstanding = b.requests.map (·.req) ++ s'.outstanding)
    (hf : s'.files = files) (htr : s'.trace = s.trace) (he' : s'.executing = es) :
    ∃ entry' g₁, Way first fs s' g base entry' g₁ := by
  obtain ⟨g₁, h₁, h₂⟩ := follows_append.1 (ho ▸ h.follows)
  have hs := h.steers
  rw [he, List.append_nil] at hs
  obtain ⟨entry', hl, hs'⟩ := hs.batch hb ht h.listed h₁
  refine ⟨entry', g₁, fun f => ?_, hf ▸ hl, ?_, h₂⟩
  · rw [htr]
    exact h.data f
  · rw [htr, he']
    exact hs'

omit [Crc32fast] [Encode A] [Encode C] in
theorem onEffect_behind {e : Effect C Cb} (h : fs.onEffect e = some fs') {es : List (Effect C Cb)}
    (hd : ∀ f, (fs.file f).data = bytesBehind base es f) (f : Nat) :
    (fs'.file f).data = bytesBehind base (es ++ [e]) f := by
  have hdata := onEffect_data h [] f []
  rw [List.append_nil, List.append_nil, landing_nil, bytesFor_nil, List.append_nil] at hdata
  rw [hdata, hd, bytesBehind_append]

theorem Way.effect (h : Way first fs s g base entry g₀) {e : Effect C Cb} {es : List (Effect C Cb)}
    (hfs : fs.onEffect e = some fs') (he : s.executing = e :: es) (he' : s'.executing = es)
    (ht : s'.trace = s.trace ++ [e]) (hf : s'.files = s.files)
      (ho : s'.outstanding = s.outstanding) :
    Way first fs' s' g base entry g₀ where
  data f := by
    rw [ht]
    exact onEffect_behind hfs h.data f
  listed := hf ▸ h.listed
  steers := by
    rw [ht, he', List.append_assoc, List.singleton_append, ← he]
    exact h.steers
  follows := ho ▸ h.follows

theorem Steered.worker (h : Steered first fs s g) (hc : s'.client = s.client) (hu : s'.Unbroken)
    (hw : ∃ base entry g₀, Way first fs' s' g base entry g₀) : Steered first fs' s' g where
  way := hw
  idle w hi := h.idle w (hc ▸ hi)
  busy op p hp := h.busy op p (hc ▸ hp)
  running := hu.running
  status := hu.status
  accepted := hu.accepted

theorem Steered.respond (h : Steered first fs s g) {op : Op A C Cb} {a : ClientAct A C Cb}
    {k : IoResult → System.ClientProg A C Cb} {r : IoResult} (hc : s.client = .busy op (.act a k))
    (hs : s'.client = .busy op (k r)) (hu : s'.Unbroken) (hstep : steering.step a g r g')
    (hway : ∃ base entry g₀, Way first fs' s' g' base entry g₀) : Steered first fs' s' g' where
  way := hway
  idle w hi := by
    rw [hs] at hi
    cases hi
  busy op' p hp := by
    rw [hs] at hp
    cases hp
    exact (h.busy _ _ hc).2 r g' hstep
  running := hu.running
  status := hu.status
  accepted := hu.accepted

theorem steering_plain {a : ClientAct A C Cb} {r : IoResult} (h : a.isPlain r = true) :
    steering.step a g r g := by
  cases a <;> cases r <;> first | rfl | cases h

/-- **The worker stays on its way** in every step. -/
theorem Steered.advance [SizedCodec A] [SizedCodec C]
    (hne : ∀ rec : WALRecord A C, Encodes rec → enc rec ≠ []) {log log' : List (LogEntry A C)}
    (h : Steered first fs s g) (hu : s'.Unbroken) (ha : System.Advance fs log s fs' log' s') :
    ∃ g', Steered first fs' s' g' := by
  obtain ⟨base, entry, g₀, hway⟩ := h.way
  cases ha with
  | @called op w _ hc hc' hsame =>
    refine ⟨g, ⟨base, entry, g₀, hway.same hsame fun _ => rfl⟩, fun w hw => ?_, fun op' p hp => ?_,
      hu.running, hu.status, hu.accepted⟩
    · rw [hc'] at hw
      cases hw
    · rw [hc'] at hp
      cases hp
      exact op.steers hne (h.idle w hc)
  | finished hc hidle hbusy hsame =>
    refine ⟨g, ⟨base, entry, g₀, hway.same hsame fun _ => rfl⟩, fun w hw => ?_,
      fun op p hp => absurd hp (hbusy op p), hu.running, hu.status, hu.accepted⟩
    obtain rfl := hidle w hw
    exact h.busy _ _ hc
  | @enqueued op req k _ hc hc' hfits hf ht he ho =>
    have hpre := (h.busy _ _ hc).1
    exact ⟨g.sent req, h.respond (r := .ok ()) hc hc' hu ⟨rfl, hfits⟩
      ⟨base, entry, g₀, hway.enqueued hpre hf ht he ho⟩⟩
  | @created op id k _ hc hc' hsame =>
    have hpre : g.cur < id := (h.busy _ _ hc).1
    exact ⟨g.created id, h.respond (r := .ok ()) hc hc' hu rfl
      ⟨_, _, _, (hway.created hpre).same hsame fun _ => rfl⟩⟩
  | noted hc hc' hsame =>
    exact ⟨g, h.respond (r := .ok ()) hc hc' hu rfl ⟨base, entry, g₀, hway.same hsame fun _ => rfl⟩⟩
  | acted hc hc' ha hd hsame =>
    exact ⟨g, h.respond hc hc' hu (steering_plain ha) ⟨base, entry, g₀, hway.same hsame hd⟩⟩
  | worked hc hsame => exact ⟨g, h.worker hc hu ⟨base, entry, g₀, hway.same hsame fun _ => rfl⟩⟩
  | executed hc ht hb he ho htr he' =>
    exact ⟨g, h.worker hc hu ⟨base, hway.executed ht hb he ho rfl htr he'⟩⟩
  | effect hc hfs he he' ht hf ho =>
    exact ⟨g, h.worker hc hu ⟨base, entry, g₀, hway.effect hfs he he' ht hf ho⟩⟩

end

namespace System

section
variable {A C Cb : Type} [Crc32fast] [Encode A] [Decode A] [Encode C] [Decode C]
  {sm : StateMachine A C} [SizedCodec A] [SizedCodec C] {first : FileEntry C} {s : Session A C Cb}
    {g : Heading C}

/-- **A step inside of a session.** -/
theorem steered_step (hne : ∀ rec : WALRecord A C, Encodes rec → enc rec ≠ [])
    {sys sys' : System A C Cb} {l : Label Cb sm} (hs : sys.session = some s) (hready : s.Ready)
    (hnum : s.Numbered) (h : Steered first sys.fs s g) (hl : Inside l = true ∨ ∃ op, l = .call op)
    (hok : Carries sys l) (hstep : step sys l = some sys') :
    ∃ s' g', sys'.session = some s' ∧ Steered first sys'.fs s' g' := by
  obtain ⟨s', hs', hu, ha⟩ :=
    advance_of_step hs hready hnum ⟨h.running, h.status, h.accepted⟩ hl hok hstep
  obtain ⟨g', h'⟩ := h.advance hne hu ha
  exact ⟨s', g', hs', h'⟩

end

end System

end Wal

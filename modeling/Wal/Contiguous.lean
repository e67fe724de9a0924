import Wal.Canonical
import Wal.Fullness
import Wal.Idempotent

/-!
# The chain of chunks

The chunks of a WAL follow one another without a gap: `Linked` for the closed ones and `Chained` for
all. It holds after every opening, of whatever directory (`OpenRun.chained`), and every method that
does not fail in the middle of a rotation keeps it (`Op.chains`). `Chained.onDiskSize` is what it is
good for.
-/

namespace Wal

open Lib

/-! ## The chain -/

/-- A chunk with records, none of which is empty. -/
structure Chunk.Filled (c : Chunk) : Prop where
  increasing : c.globalOffsets.Pairwise (· < ·)
  records : 0 < c.recordsCount

theorem Chunk.Filled.lt {c : Chunk} (h : c.Filled) : c.globalStart < c.globalEnd :=
  Chunk.lt_of_recordsCount h.increasing h.records

theorem Chunk.Filled.push {c : Chunk} (h : c.Filled) {n : Nat} (hn : 0 < n) :
    (c.appendRecordSize n).Filled := by
  refine ⟨Chunk.appendRecordSize_increasing h.increasing hn, ?_⟩
  have hpos := List.length_pos_of_ne_nil c.nonempty
  show 0 < (c.globalOffsets ++ [c.globalEnd + n]).length - 1
  rw [List.length_append, List.length_singleton]
  omega

theorem filled_fresh (id : Nat) {n : Nat} (hn : 0 < n) :
    ((OpenChunk.fromFile id).chunk.appendRecordSize n).Filled := by
  refine ⟨Chunk.appendRecordSize_increasing (List.pairwise_singleton _ _) hn, ?_⟩
  show 0 < ([id] ++ [_]).length - 1
  simp

section
variable {C : Type}

/-- Closed chunks under their first offsets, one behind the other, from an offset to another. -/
def Linked : Nat → List (Nat × ClosedChunk C) → Nat → Prop
  | first, [], stop => first = stop
  | first, p :: rest, stop => p.1 = first ∧ p.2.chunk.globalStart = first ∧ p.2.chunk.Filled ∧
      Linked p.2.chunk.globalEnd rest stop

variable {first stop : Nat} {l : List (Nat × ClosedChunk C)}

theorem Linked.bounds (h : Linked first l stop) : first ≤ stop ∧ ∀ p ∈ l, p.1 < stop := by
  induction l generalizing first with
  | nil => exact ⟨Nat.le_of_eq h, by simp⟩
  | cons p rest ih =>
    obtain ⟨hkey, hstart, hfilled, hrest⟩ := h
    obtain ⟨hle, hlt⟩ := ih hrest
    have := hfilled.lt
    refine ⟨by omega, fun q hq => ?_⟩
    rcases List.mem_cons.1 hq with rfl | hq
    · omega
    · exact hlt q hq

theorem Linked.snoc (h : Linked first l stop) {p : Nat × ClosedChunk C} (hkey : p.1 = stop)
    (hstart : p.2.chunk.globalStart = stop) (hp : p.2.chunk.Filled) :
    Linked first (l ++ [p]) p.2.chunk.globalEnd := by
  induction l generalizing first with
  | nil =>
    cases h
    exact ⟨hkey, hstart, hp, rfl⟩
  | cons q rest ih =>
    obtain ⟨h1, h2, h3, hrest⟩ := h
    exact ⟨h1, h2, h3, ih hrest⟩

theorem Linked.unsnoc {p : Nat × ClosedChunk C} (h : Linked first (l ++ [p]) stop) :
    Linked first l p.2.chunk.globalStart ∧ p.2.chunk.Filled ∧ p.1 = p.2.chunk.globalStart := by
  induction l generalizing first with
  | nil =>
    obtain ⟨h1, h2, h3, -⟩ := h
    exact ⟨h2.symm, h3, h1.trans h2.symm⟩
  | cons q rest ih =>
    obtain ⟨h1, h2, h3, hrest⟩ := h
    obtain ⟨h4, h5, h6⟩ := ih hrest
    exact ⟨⟨h1, h2, h3, h4⟩, h5, h6⟩

theorem Linked.drop (h : Linked first l stop) (k : Nat) :
    ∃ first', Linked first' (l.drop k) stop := by
  induction k generalizing first l with
  | zero => exact ⟨first, h⟩
  | succ k ih =>
    cases l with
    | nil => exact ⟨first, h⟩
    | cons p rest => exact ih h.2.2.2

theorem Linked.keys (h : Linked first l stop) :
    ∀ p ∈ l, p.1 = p.2.chunk.globalStart ∧ p.2.chunk.Filled := by
  induction l generalizing first with
  | nil => simp
  | cons q rest ih =>
    obtain ⟨h1, h2, h3, hrest⟩ := h
    intro p hp
    rcases List.mem_cons.1 hp with rfl | hp
    · exact ⟨h1.trans h2.symm, h3⟩
    · exact ih hrest p hp

/-! ## The chain of a WAL -/

/-- All chunks that are loaded, the open one last. -/
def ChunkedWal.chunks (w : ChunkedWal C) : List Chunk := w.closed.map (·.2.chunk) ++ [w.open.chunk]

/-- `last_segment` of the WAL. -/
def ChunkedWal.lastSegment (w : ChunkedWal C) : Except Fault Segment := w.open.chunk.lastSegment

/-- `on_disk_size`; the subtraction is checked. -/
def ChunkedWal.onDiskSize (w : ChunkedWal C) : Except Fault Nat :=
  let firstClosedStart :=
    (w.closed.head?.map fun p => p.2.chunk.globalStart).getD w.open.chunk.globalStart
  if w.open.chunk.globalEnd < firstClosedStart
    then .error (.panic "attempt to subtract with overflow")
  else .ok (w.open.chunk.globalEnd - firstClosedStart)

/-- **The chunks follow one another**, and the open one has a record. -/
structure Chained (w : ChunkedWal C) : Prop where
  linked : ∃ first, Linked first w.closed w.open.chunk.globalStart
  filled : w.open.chunk.Filled

variable {w : ChunkedWal C}

theorem Chained.congr (h : Chained w) {w' : ChunkedWal C} (hclosed : w'.closed = w.closed)
    (hopen : w'.open.chunk = w.open.chunk) : Chained w' := by
  refine ⟨?_, hopen ▸ h.filled⟩
  rw [hclosed, hopen]
  exact h.linked

theorem linked_chain (h : Linked first l stop) {c : Chunk} (hc : c.globalStart = stop) :
    (l.map (·.2.chunk) ++ [c]).IsChain (fun c c' => c.globalEnd = c'.globalStart) ∧
      ((l.head?.map fun p => p.2.chunk.globalStart).getD c.globalStart) = first ∧
      first + ((l.map (·.2.chunk)).map Chunk.chunkSize).sum = stop := by
  induction l generalizing first with
  | nil =>
    cases h
    exact ⟨List.isChain_singleton _, hc, rfl⟩
  | cons p rest ih =>
    obtain ⟨h1, h2, h3, hrest⟩ := h
    obtain ⟨hchain, hhead, hsum⟩ := ih hrest
    have hlt := h3.lt
    refine ⟨?_, h2, ?_⟩
    · cases rest with
      | nil =>
        cases hrest
        exact List.IsChain.cons_cons hc.symm (List.isChain_singleton _)
      | cons q rest => exact List.IsChain.cons_cons hhead.symm hchain
    · simp only [List.map_cons, List.sum_cons, Chunk.chunkSize, Chunk.endOffset] at hsum ⊢
      omega

theorem Chained.chain (h : Chained w) : w.chunks.IsChain fun c c' =>
    c.globalEnd = c'.globalStart := by
  obtain ⟨first, hl⟩ := h.linked
  exact (linked_chain hl rfl).1

theorem Chained.all (h : Chained w) : ∀ c ∈ w.chunks, c.Filled := by
  obtain ⟨first, hl⟩ := h.linked
  intro c hc
  rcases List.mem_append.1 hc with hc | hc
  · obtain ⟨p, hp, rfl⟩ := List.mem_map.1 hc
    exact (hl.keys p hp).2
  · rw [List.mem_singleton.1 hc]
    exact h.filled

/-- **The size on disk** is that of the chunks. -/
theorem Chained.onDiskSize (h : Chained w) :
    w.onDiskSize = .ok (w.chunks.map Chunk.chunkSize).sum := by
  obtain ⟨first, hl⟩ := h.linked
  obtain ⟨-, hhead, hsum⟩ := linked_chain hl rfl
  have hlt := h.filled.lt
  unfold ChunkedWal.onDiskSize ChunkedWal.chunks
  rw [hhead, List.map_append, List.sum_append, if_neg (by omega)]
  simp only [List.map_cons, List.map_nil, List.sum_cons, List.sum_nil, Chunk.chunkSize,
    Chunk.endOffset] at hsum ⊢
  congr 1
  omega

end

/-! ## Sizes -/

section
variable {A C : Type} [Crc32fast] [Encode A] [Encode C]

theorem checkpoint_pos {c : C} {n : Nat} (h : (encode (.checkpoint c : WALRecord A C)).2 = .ok n) :
    0 < n := by
  simp only [encode, WALRecord.encodeRecord] at h
  split at h
  · cases h
  · cases h
    omega

/-- An encoding that is accepted has bytes. -/
def Solid (A : Type) [Encode A] : Prop := ∀ a : A, Encodes a → enc a ≠ []

theorem record_pos [SizedCodec A] (hact : Solid A) {rec : WALRecord A C} {n : Nat}
    (h : (encode rec).2 = .ok n) : 0 < n := by
  cases rec with
  | action a =>
    obtain ⟨t, ht, h5, ha, -⟩ := WALRecord.encodes_action (C := C) ⟨n, h⟩
    simp only [encode, WALRecord.encodeRecord, ht, h5, if_false] at h
    rw [SizedCodec.size_eq h]
    exact List.length_pos_of_ne_nil (hact a ha)
  | checkpoint c => exact checkpoint_pos h

end

/-! ## Openings -/

section
variable {A C : Type} [Crc32fast] [Encode A] [Decode A] [Encode C] [Decode C]
    {sm : StateMachine A C}
  {config : Config} {st : sm.State}

omit [Crc32fast] [Encode A] [Decode A] [Encode C] [Decode C] in
/-- The chunks that a replay has behind it. -/
def Replay.Linked (acc : Replay sm) : Prop :=
  match acc.prevEndOffset with
  | none => acc.closed = []
  | some e => ∃ first, Wal.Linked first acc.closed e

omit [Encode C] in
theorem chunkIn_filled {data : Bytes} {id : Nat} {t : Option Nat} (h : recordsIn A C data id ≠ []) :
    (chunkIn A C data id t).Filled := by
  refine ⟨chunkIn_increasing A C data id t, ?_⟩
  have := List.length_pos_of_ne_nil h
  simpa [Chunk.recordsCount, chunkIn, tableOf] using this

omit [Encode C] in
theorem Replay.Linked.next {acc : Replay sm} (h : acc.Linked) {data : Bytes} {id : Nat}
    {t : Option Nat} {st : sm.State} (hp : acc.Follows id) (hr : recordsIn A C data id ≠ []) :
    (acc.next data id t st).Linked := by
  unfold Replay.Linked at h
  have hone : ∀ {first : Nat} {l : List (Nat × ClosedChunk C)}, Wal.Linked first l id →
      ∃ first, Wal.Linked first
        (insertChunk id { state := sm.checkpoint st, chunk := chunkIn A C data id t } l)
        (id + recordsEnd A C data id) := by
    intro first l hl
    rw [insertChunk_of_lt hl.bounds.2, ← chunkIn_globalEnd (t := t)]
    exact ⟨first, hl.snoc rfl rfl (chunkIn_filled hr)⟩
  show ∃ first, _
  split at h
  · rw [show (acc.next data id t st).closed = insertChunk id _ acc.closed from rfl, h]
    exact hone (show Wal.Linked id [] id from rfl)
  · rename_i e he
    obtain ⟨first, hl⟩ := h
    have := hp e he
    subst this
    exact hone hl

omit [Encode C] in
theorem Replayed.linked {tail : Option Nat} {ids : List Nat} {acc acc' : Replay sm}
    {s s' : OpenState A C} {r : Except Fault (Replay sm)} (h : Replayed config tail ids acc s r s')
    (hr : r = .ok acc') (hl : acc.Linked) : acc'.Linked := by
  induction h with
  | nil =>
    cases hr
    exact hl
  | stopped => cases hr
  | refused => cases hr
  | panicked => cases hr
  | step hp ho hrec ha h ih => exact ih hr (hl.next hp hrec)

/-- **An opening**, of whatever directory, leaves a chain. -/
theorem OpenRun.chained {s s' : OpenState A C} {o : Opened sm}
    (h : OpenRun config st s (.ok o) s') : Chained o.wal := by
  cases h with
  | @reopened k s₁ acc _ oc closed hv ht hr hl =>
    have hlinked := hr.linked rfl (show (Replay.start sm st).Linked from rfl)
    unfold reopenLastClosed at hl
    split at hl
    · cases hl
    rename_i id last hlast
    split at hl
    · cases hl
    cases hl
    have hsplit : acc.closed = acc.closed.dropLast ++ [(id, last)] :=
      (List.dropLast_append_getLast? _ hlast).symm
    unfold Replay.Linked at hlinked
    split at hlinked
    · rw [hlinked] at hlast
      cases hlast
    · obtain ⟨first, hl⟩ := hlinked
      rw [hsplit] at hl
      obtain ⟨h1, h2, -⟩ := hl.unsnoc
      exact ⟨⟨first, h1⟩, h2⟩
  | @created k s₁ acc s₂ n hv ht hr hl hm he =>
    have hlinked := hr.linked rfl (show (Replay.start sm st).Linked from rfl)
    have hn : 0 < n := checkpoint_pos he
    refine ⟨?_, filled_fresh acc.end_ hn⟩
    show ∃ first, Linked first acc.closed acc.end_
    unfold Replay.Linked at hlinked
    unfold Replay.end_
    split at hlinked
    · rename_i he'
      rw [hlinked, he']
      exact ⟨0, rfl⟩
    · rename_i e he'
      rw [he']
      exact hlinked

end

/-! ## Methods -/

section
variable {A C Cb : Type} [Crc32fast] [Encode A] [Encode C]

/-- What a method leaves: a chain, unless it was a rotation that failed. -/
def LeavesChain (op : Op A C Cb) (res : Except Fault (Ret C)) (w : ChunkedWal C) : Prop :=
  (∀ c e, op = .tryCloseFullChunk c → res ≠ .error e) → Chained w

variable {w : ChunkedWal C}

omit [Crc32fast] [Encode A] [Encode C] in
theorem sendPending_outcome (sync : Bool) (callback : Option Cb) :
    ClientM.Meets anyContract (fun (_ : Except Fault IoResult) w' _ => w' = w.flushed)
      (ChunkedWal.sendPending sync callback : ClientM A C Cb IoResult) w () := by
  unfold ChunkedWal.sendPending
  exact .get_bind (.set_bind (.perform trivial fun r g' _ => rfl))

omit [Crc32fast] [Encode A] [Encode C] in
theorem createEmpty_outcome (id : Nat) :
    ClientM.Meets anyContract (fun res w' _ => w' = w ∧ ∀ o, res = .ok o →
      o = OpenChunk.fromFile id)
      (ChunkedWal.createEmpty id : ClientM A C Cb OpenChunk) w () := by
  unfold ChunkedWal.createEmpty
  refine .perform_bind trivial fun r g' _ => .require_bind (fun _ => ?_) fun e _ =>
    ⟨rfl, fun o h => by cases h⟩
  refine .perform_bind trivial fun r g' _ => .require_bind (fun _ => ?_) fun e _ =>
    ⟨rfl, fun o h => by cases h⟩
  exact .pure ⟨rfl, fun o h => (Except.ok.inj h).symm⟩

theorem append_outcome (rec : WALRecord A C) :
    ClientM.Meets anyContract (fun (res : Except Fault Unit) w' _ => w'.closed = w.closed ∧
      ((w'.open.chunk = w.open.chunk ∧ res ≠ .ok ()) ∨
        ∃ n, (encode rec).2 = .ok n ∧ w'.open.chunk = w.open.chunk.appendRecordSize n))
      (ChunkedWal.append rec : ClientM A C Cb Unit) w () := by
  unfold ChunkedWal.append
  refine .get_bind ?_
  rcases he : (encode rec).2 with e | n
  · rw [OpenChunk.appendRecord_error he]
    exact .set_bind (.liftFault_bind (fun _ h => by cases h) fun _ _ => ⟨rfl, .inl ⟨rfl, by simp⟩⟩)
  · have henc : encode rec = ((encode rec).1, .ok n) := Prod.ext rfl he
    unfold OpenChunk.appendRecord
    rw [henc]
    refine .set_bind (.liftFault_bind (fun seg _ => ?_) fun _ _ => ⟨rfl, .inr ⟨n, rfl, rfl⟩⟩)
    exact .perform_bind trivial fun r g' _ => .pure ⟨rfl, .inr ⟨n, rfl, rfl⟩⟩

theorem append_chain (hpos : ∀ {rec : WALRecord A C} {n : Nat}, (encode rec).2 = .ok n → 0 < n)
    (h : Chained w) (rec : WALRecord A C) :
    ClientM.Meets anyContract (fun (_ : Except Fault Unit) w' _ => Chained w')
      (ChunkedWal.append rec : ClientM A C Cb Unit) w () := by
  refine (append_outcome rec).mono fun res w' g' hw => ?_
  obtain ⟨hclosed, ⟨hopen, -⟩ | ⟨n, hn, hopen⟩⟩ := hw
  · exact h.congr hclosed hopen
  · refine ⟨?_, ?_⟩
    · rw [hclosed, hopen, Chunk.appendRecordSize_globalStart]
      exact h.linked
    · rw [hopen]
      exact h.filled.push (hpos hn)

omit [Crc32fast] [Encode C] in
theorem Chained.rotate (h : Chained w) {n : Nat} (hn : 0 < n) (c : C) {w' : ChunkedWal C}
    (hopen : w'.open.chunk = (OpenChunk.fromFile w.open.chunk.globalEnd).chunk.appendRecordSize n)
    (hclosed : w'.closed = insertChunk w.open.chunk.chunkId { state := c, chunk := w.open.chunk }
      w.closed) : Chained w' := by
  obtain ⟨first, hl⟩ := h.linked
  refine ⟨⟨first, ?_⟩, by rw [hopen]; exact filled_fresh _ hn⟩
  have hins : ∀ x, insertChunk w.open.chunk.chunkId x w.closed = w.closed ++
    [(w.open.chunk.chunkId, x)] :=
    fun x => insertChunk_of_lt hl.bounds.2
  rw [hclosed, hins, hopen, Chunk.appendRecordSize_globalStart]
  exact hl.snoc (p := (w.open.chunk.chunkId, { state := c, chunk := w.open.chunk })) rfl
    rfl h.filled

/-- **A rotation** that succeeds adds a chunk to the chain. -/
theorem tryCloseFullChunk_chain (h : Chained w) (c : C) :
    ClientM.Meets anyContract (fun res w' _ => (∀ e, res ≠ .error e) → Chained w')
      (ChunkedWal.tryCloseFullChunk c : ClientM A C Cb (Option C)) w () := by
  unfold ChunkedWal.tryCloseFullChunk
  refine .get_bind ?_
  by_cases hf : w.isOpenChunkFull = true
  swap
  · simp only [hf, Bool.not_false, if_true]
    exact .pure fun _ => h
  simp only [hf, Bool.not_true, Bool.false_eq_true, if_false]
  obtain ⟨seg, hseg, hend⟩ := Chunk.lastSegment_of_increasing h.filled.increasing h.filled.records
  refine .bind (sendPending_outcome true none) (fun r w₁ g₁ hw₁ => ?_) fun e w' g' _ hne =>
    absurd rfl (hne e)
  subst hw₁
  refine .require_bind (fun _ => ?_) fun e _ hne => absurd rfl (hne _)
  refine .liftFault_bind (fun seg' hseg' => ?_) fun e _ hne => absurd rfl (hne _)
  cases hseg.symm.trans hseg'
  refine .bind (createEmpty_outcome seg.end_) (fun o w₂ g₂ hw₂ => ?_) fun e w' g' _ hne =>
    absurd rfl (hne e)
  obtain ⟨rfl, ho⟩ := hw₂
  obtain rfl := ho o rfl
  rw [hend]
  refine .perform_bind trivial fun r₂ g₃ _ => .require_bind (fun _ => ?_) fun e _ hne =>
    absurd rfl (hne _)
  refine .get_bind (.set_bind (.bind (append_outcome (.checkpoint c)) (fun u w₃ g₄ hw₃ => ?_)
    fun e w' g' _ hne => absurd rfl (hne e)))
  obtain ⟨hclosed, ⟨-, hres⟩ | ⟨n, hn, hopen⟩⟩ := hw₃
  · exact absurd rfl hres
  refine .bind (sendPending_outcome false none) (fun r₃ w₄ g₅ hw₄ => ?_) fun e w' g' _ hne =>
    absurd rfl (hne e)
  subst hw₄
  refine .require_bind (fun _ => .get_bind (.set_bind (.pure fun _ => ?_))) fun e _ hne =>
    absurd rfl (hne _)
  refine h.rotate (checkpoint_pos hn) c hopen ?_
  show insertChunk _ _ w₃.closed = _
  rw [hclosed]
  rfl

theorem Op.chains (hpos : ∀ {rec : WALRecord A C} {n : Nat}, (encode rec).2 = .ok n → 0 < n)
    (op : Op A C Cb) (h : Chained w) :
    ClientM.Meets anyContract (fun res w' _ => LeavesChain op res w') op.run w () := by
  cases op with
  | append rec =>
    refine .bind (append_chain hpos h rec) (fun _ w' g' hw => .pure fun _ => hw) fun e w' g' hw _ =>
      hw
  | sendPending sync callback =>
    have hflushed : Chained w.flushed := h.congr rfl rfl
    refine .bind (sendPending_outcome sync callback) (fun r w' g' hw => ?_) fun e w' g' hw _ =>
      hw ▸ hflushed
    subst hw
    exact .require_bind (fun _ => .pure fun _ => hflushed) fun e _ _ => hflushed
  | tryCloseFullChunk c =>
    refine .bind (tryCloseFullChunk_chain h c) (fun o w' g' hw => .pure fun _ => hw fun e he => by
      cases he)
      fun e w' g' _ hne => absurd rfl (hne c e rfl)
  | drainClosedChunksWhile shouldDrain =>
    obtain ⟨k, hk⟩ := ChunkedWal.drainLoop_eq shouldDrain 0 w.closed
    refine .bind (m := ChunkedWal.drainClosedChunksWhile shouldDrain) (Q :=
      fun _ w' _ => Chained w') ?_
      (fun _ w' g' hw => .pure fun _ => hw) fun e w' g' hw _ => hw
    unfold ChunkedWal.drainClosedChunksWhile
    refine .get_bind ?_
    rw [hk]
    obtain ⟨first, hl⟩ := h.linked
    exact .set_bind (.pure ⟨hl.drop k, h.filled⟩)
  | sendRemoveChunks ids =>
    refine .bind (m := ChunkedWal.sendRemoveChunks ids) (Q := fun _ w' _ => Chained w') ?_
      (fun _ w' g' hw => .pure fun _ => hw) fun e w' g' hw _ => hw
    exact .perform_bind trivial fun r g' _ => .require (fun _ => h) fun e _ => h
  | sendGetStat =>
    refine .bind (m := ChunkedWal.sendGetStat) (Q := fun _ w' _ => Chained w') ?_
      (fun _ w' g' hw => .pure fun _ => hw) fun e w' g' hw _ => hw
    exact .perform_bind trivial fun r g' _ => .require (fun _ => h) fun e _ => h
  | waitWorkerIdle =>
    refine .bind (m := ChunkedWal.waitWorkerIdle) (Q := fun _ w' _ => Chained w') ?_
      (fun _ w' g' hw => .pure fun _ => hw) fun e w' g' hw _ => hw
    exact .perform_bind trivial fun r g' _ => .require (fun _ => h) fun e _ => h
  | shutdown =>
    refine .bind (m := ChunkedWal.shutdown) (Q := fun _ w' _ => Chained w') ?_
      (fun _ w' g' hw => .pure fun _ => hw) fun e w' g' hw _ => hw
    unfold ChunkedWal.shutdown
    refine .get_bind ?_
    by_cases hh : w.workerHandle = true
    swap
    · simp only [hh, Bool.not_false, if_true]
      exact .pure h
    simp only [hh, Bool.not_true, Bool.false_eq_true, if_false]
    have h' : Chained ({ w with workerHandle := false } : ChunkedWal C).flushed := h.congr rfl rfl
    refine .set_bind
      (.bind (sendPending_outcome true none) (fun r w₁ g₁ hw₁ => ?_) fun e w' g' hw => hw ▸ h')
    subst hw₁
    refine .perform_bind trivial fun r₂ g₂ _ => .perform_bind trivial fun r₃ g₃ _ => ?_
    refine .require_bind (fun _ => ?_) fun e _ => h'
    refine .require_bind (fun _ => ?_) fun e _ => h'
    exact .perform_bind trivial fun r₄ g₄ _ => .require (fun _ => h') fun e _ => h'

end

/-! ## Runs -/

namespace System

section
variable {A C Cb : Type} [Crc32fast] [Encode A] [Decode A] [Encode C] [Decode C]
    {sm : StateMachine A C}

/-- A rotation does not return an error in this step. -/
def RotationOk (sys : System A C Cb) (l : Label Cb sm) : Prop :=
  match l, sys.session with
  | .client _, some s =>
    match s.client with
    | .busy (.tryCloseFullChunk _) (.done (.error _, _)) => False
    | _ => True
  | _, _ => True

instance (sys : System A C Cb) (l : Label Cb sm) : Decidable (RotationOk sys l) := by
  unfold RotationOk
  split
  · split <;> infer_instance
  · infer_instance

/-- Between two calls the chunks follow one another, and the method in progress leaves them so. -/
structure Chaining (s : Session A C Cb) : Prop where
  idle : ∀ w, s.client = .idle w → Chained w
  busy : ∀ op p, s.client = .busy op p → p.Safe anyContract (fun x _ => LeavesChain op x.1 x.2) ()

theorem chaining_step (hpos : ∀ {rec : WALRecord A C} {n : Nat}, (encode rec).2 = .ok n → 0 < n)
    (sys : System A C Cb) (l : Label Cb sm) (sys' : System A C Cb) (h : sys.InSession Chaining)
    (hok : RotationOk sys l) (hstep : step sys l = some sys') : sys'.InSession Chaining := by
  have hgo : ∀ {s s' : Session A C Cb} {op a k r}, sys.session = some s →
    s.client = .busy op (.act a k) →
      s'.client = .busy op (k r) → Chaining s' := by
    intro s s' op a k r hs hc hc'
    refine ⟨fun w hw => ?_, fun op' p hp => ?_⟩
    · rw [hc'] at hw
      cases hw
    · rw [hc'] at hp
      cases hp
      exact ((h s hs).busy _ _ hc).2 r () trivial
  have hkeep : ∀ {s s' : Session A C Cb}, sys.session = some s → s'.client = s.client →
    Chaining s' := by
    intro s s' hs hc
    exact ⟨fun w hw => (h s hs).idle w (hc ▸ hw), fun op p hp => (h s hs).busy op p (hc ▸ hp)⟩
  intro s' hs'
  cases step_move hstep with
  | @opened config state o x hs hopen =>
    cases hs'
    refine ⟨fun w hw => ?_, fun op p hp => (by cases hp)⟩
    cases hw
    obtain ⟨r, x', hrun, heq⟩ := openLocked_run config state (OpenState.init sys.fs)
    have := heq.symm.trans hopen
    rcases r with e | o'
    · cases this
    cases this
    exact hrun.chained
  | notOpened hn => exact absurd hs' (by simp [afterOpen, hn])
  | openCrashed hn => exact absurd hs' (by simp [afterOpen, hn])
  | crashed | dropped => cases hs'
  | @called s op w hs hc =>
    cases hs'
    refine ⟨fun w hw => (by cases hw), fun op' p hp => ?_⟩
    cases hp
    exact op.chains hpos ((h s hs).idle w hc)
  | @finished s op res w r hs hc =>
    cases hs'
    have hdone : LeavesChain op res w := (h s hs).busy _ _ hc
    have hchained : Chained w := by
      apply hdone
      rintro c e rfl rfl
      simp only [RotationOk, hs, hc] at hok
    refine ⟨fun w' hw => ?_, fun op' p hp => ?_⟩
    · simp only [Session.finish] at hw
      split at hw
      · cases hw
      · cases hw
        exact hchained
    · simp only [Session.finish] at hp
      split at hp <;> cases hp
  | acquired hs | rejected hs => cases hs'; exact hkeep hs rfl
  | underflow hs =>
    cases hs'
    exact ⟨fun w hw => (by cases hw), fun _ _ hp => (by cases hp)⟩
  | refused hs hc | enqueued hs hc | givenBack hs hc | notCreated hs hc | «exists» hs hc
      | created hs hc
    | notSynced hs hc | synced hs hc | closed hs hc | joined hs hc | waited hs hc | noted hs hc =>
    cases hs'
    exact hgo hs hc rfl
  | _ =>
    have hs := ‹sys.session = some _›
    cases hs'
    exact hkeep hs rfl

/-- **The chunks are contiguous**, between the calls of every run that starts from a directory, if
no rotation fails and no action is encoded as nothing. -/
theorem runs_contiguous [SizedCodec A] (hact : Solid A) (start sys : System A C Cb)
    (hstart : start.session = none) (ls : List (Label Cb sm))
    (hr : RunsOf step RotationOk start ls sys) (s : Session A C Cb) (w : ChunkedWal C)
    (hs : sys.session = some s) (hc : s.client = .idle w) :
    (∀ p ∈ w.closed, p.1 = p.2.chunk.globalStart) ∧
    (∀ c ∈ w.chunks, c.globalOffsets.Pairwise (· < ·)) ∧
    (w.chunks.IsChain fun c c' => c.globalEnd = c'.globalStart) ∧
    0 < w.open.chunk.recordsCount ∧
    (∃ seg, w.lastSegment = .ok seg ∧ seg.end_ = w.open.chunk.globalEnd) ∧
    w.onDiskSize = .ok (w.chunks.map Chunk.chunkSize).sum := by
  have hinit : start.InSession Chaining := by
    intro s' hs'
    rw [hstart] at hs'
    cases hs'
  have hall : sys.InSession Chaining :=
    hr.invariant (I := fun sys => sys.InSession Chaining) (chaining_step (record_pos hact)) hinit
  have h := (hall s hs).idle w hc
  obtain ⟨first, hl⟩ := h.linked
  refine ⟨fun p hp => (hl.keys p hp).1, fun c hc => (h.all c hc).increasing, h.chain,
    h.filled.records, ?_, h.onDiskSize⟩
  exact Chunk.lastSegment_of_increasing h.filled.increasing h.filled.records

end

open Register

theorem put_solid : Solid Put := by
  intro p _
  rw [Put.enc_eq]
  simp

/-- A rotation, and two chunks. -/
theorem runs_contiguous_two : ∃ (sys : System Put Register Nat) (s : Session Put Register Nat)
    (w : ChunkedWal Register), sys.session = some s ∧ s.client = .idle w ∧ w.closed.length = 1 ∧
    w.onDiskSize = .ok (w.chunks.map Chunk.chunkSize).sum := by
  have h : ((runs (guarded RotationOk step) (System.fresh Put Register Nat)
      (fullRun ++ rotation (List.replicate 10 go))).any fun sys =>
      sys.session.any fun s => s.client.wal?.any fun w => decide (w.closed.length = 1)) = true := by
    decide +kernel
  obtain ⟨sys, hsys, h⟩ := (Option.any_eq_true _ _).1 h
  obtain ⟨s, hs, h⟩ := (Option.any_eq_true _ _).1 h
  obtain ⟨w, hw, h⟩ := (Option.any_eq_true _ _).1 h
  have := runs_contiguous put_solid (System.fresh Put Register Nat) sys rfl _
    (RunsOf.of_guarded hsys) s w hs
    (Client.wal?_eq hw)
  exact ⟨sys, s, w, hs, Client.wal?_eq hw, of_decide_eq_true h, this.2.2.2.2.2⟩

end System

/-! ## An action without bytes -/

namespace Silent

/-- Nothing is made of the records. -/
def machine : StateMachine Silent Register where
  State := Register
  apply st _ _ _ := .ok st
  checkpoint := id

/-- An action that is accepted and has no bytes. -/
def silentRun : List (Label Nat machine) :=
  [.open Register.config { value := 0 }, .call (.append (.action silent)), .client (.ok ()),
    .client (.ok ())]

/-- **Two equal offsets**: the encoder returns the number of bytes it writes, which is none. -/
theorem contiguous_silent : ¬ ∀ (sys : System Silent Register Nat) (ls : List (Label Nat machine))
    (s : Session Silent Register Nat) (w : ChunkedWal Register),
    RunsOf System.step System.RotationOk (System.fresh Silent Register Nat) ls sys →
      sys.session = some s →
    s.client = .idle w → ∀ c ∈ w.chunks, c.globalOffsets.Pairwise (· < ·) := by
  intro hall
  have h : ((runs (guarded System.RotationOk System.step) (System.fresh Silent Register Nat)
    silentRun).any fun sys =>
      sys.session.any fun s => s.client.wal?.any fun w =>
        !decide (w.open.chunk.globalOffsets.Pairwise (· < ·))) = true := by decide +kernel
  obtain ⟨sys, hsys, h⟩ := (Option.any_eq_true _ _).1 h
  obtain ⟨s, hs, h⟩ := (Option.any_eq_true _ _).1 h
  obtain ⟨w, hw, h⟩ := (Option.any_eq_true _ _).1 h
  have hinc := hall sys _ s w (RunsOf.of_guarded hsys) hs (Client.wal?_eq hw) w.open.chunk
    (List.mem_append_right _ (List.mem_singleton_self _))
  simp [hinc] at h

end Silent

end Wal

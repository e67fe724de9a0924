import Wal.Codec
import Wal.Config
import Wal.Num

/-!
# Chunks

`Chunk` (the offset table of one file), `OpenChunk` (with the encoded records not yet handed to the
worker), `ClosedChunk`, and the iterator that decodes a file record by record.
-/

namespace Wal

/-- The offset table holds `N + 1` global offsets for `N` records, the chunk's start first. -/
structure Chunk where
  f : Nat
  globalOffsets : List Nat
  truncated : Option Nat
  nonempty : globalOffsets ≠ []

namespace Chunk

variable (c : Chunk)

def recordsCount : Nat := c.globalOffsets.length - 1

def globalStart : Nat := c.globalOffsets.head c.nonempty

def globalEnd : Nat := c.globalOffsets.getLast c.nonempty

def chunkId : Nat := c.globalStart

def endOffset : Nat := c.globalEnd - c.globalStart

def chunkSize : Nat := c.endOffset

/-- A chunk without records has no last segment: `l - 2` underflows. -/
def lastSegment : Except Fault Segment :=
  match c.globalOffsets.dropLast.getLast? with
  | none => .error (.panic "attempt to subtract with overflow")
  | some start => .ok { offset := start, size := c.globalEnd - start }

def recordSegment (index : Nat) : Except Fault Segment :=
  match c.globalOffsets[index]?, c.globalOffsets[index + 1]? with
  | some start, some stop => .ok { offset := start, size := stop - start }
  | _, _ => .error (.panic "index out of bounds")

def isTruncated : Bool := c.truncated.isSome

def appendRecordSize (size : Nat) : Chunk where
  f := c.f
  globalOffsets := c.globalOffsets ++ [c.globalEnd + size]
  truncated := c.truncated
  nonempty := by simp

@[simp] theorem appendRecordSize_globalEnd (size : Nat) :
    (c.appendRecordSize size).globalEnd = c.globalEnd + size := by
  simp [appendRecordSize, globalEnd]

@[simp] theorem appendRecordSize_globalStart (size : Nat) :
    (c.appendRecordSize size).globalStart = c.globalStart := by
  simp [appendRecordSize, globalStart, List.head_append_of_ne_nil c.nonempty]

@[simp] theorem appendRecordSize_f (size : Nat) : (c.appendRecordSize size).f = c.f := rfl

@[simp] theorem appendRecordSize_truncated (size : Nat) :
    (c.appendRecordSize size).truncated = c.truncated := rfl

theorem appendRecordSize_lastSegment (size : Nat) :
    (c.appendRecordSize size).lastSegment = .ok { offset := c.globalEnd, size } := by
  simp [appendRecordSize, lastSegment, globalEnd, List.getLast?_eq_getLast_of_ne_nil c.nonempty]

section
variable {c : Chunk}

theorem appendRecordSize_increasing (h : c.globalOffsets.Pairwise (· < ·)) {n : Nat}
    (hn : 0 < n) : (c.appendRecordSize n).globalOffsets.Pairwise (· < ·) := by
  obtain ⟨init, z, hz⟩ := List.eq_nil_or_concat c.globalOffsets |>.resolve_left c.nonempty
  rw [List.concat_eq_append] at hz
  have hend : c.globalEnd = z := by simp [globalEnd, hz]
  simp only [appendRecordSize, hend]
  refine List.pairwise_append.2 ⟨h, by simp, fun x hx y hy => ?_⟩
  obtain rfl := List.mem_singleton.1 hy
  rw [hz, List.mem_append, List.mem_singleton] at hx
  rw [hz, List.pairwise_append] at h
  rcases hx with hx | rfl
  · have := h.2.2 x hx z (by simp)
    omega
  · omega

theorem lt_of_recordsCount (h : c.globalOffsets.Pairwise (· < ·))
    (hc : 0 < c.recordsCount) : c.globalStart < c.globalEnd := by
  obtain ⟨ofs, hne⟩ : ∃ ofs, c.globalOffsets = ofs := ⟨_, rfl⟩
  match ofs, hne with
  | [], hne => exact absurd hne c.nonempty
  | [x], hne => simp [recordsCount, hne] at hc
  | x :: y :: ofs, hne =>
    simp only [globalStart, globalEnd, hne, List.head_cons]
    rw [hne] at h
    exact (List.pairwise_cons.1 h).1 _ (by
      rw [List.getLast_cons (List.cons_ne_nil _ _)]
      exact List.getLast_mem _)

theorem recordsCount_pos (h : 0 < c.chunkSize) : 0 < c.recordsCount := by
  by_contra hc
  have hl : c.globalOffsets.length ≤ 1 := by
    simp only [recordsCount] at hc
    omega
  obtain ⟨x, hx⟩ : ∃ x, c.globalOffsets = [x] := by
    match hm : c.globalOffsets with
    | [] => exact absurd hm c.nonempty
    | [x] => exact ⟨x, rfl⟩
    | _ :: _ :: _ => simp [hm] at hl
  simp [chunkSize, endOffset, globalStart, globalEnd, hx] at h

theorem lastSegment_of_increasing (h : c.globalOffsets.Pairwise (· < ·))
    (hc : 0 < c.recordsCount) : ∃ seg, c.lastSegment = .ok seg ∧ seg.end_ = c.globalEnd := by
  obtain ⟨init, z, hz⟩ := List.eq_nil_or_concat c.globalOffsets |>.resolve_left c.nonempty
  rw [List.concat_eq_append] at hz
  have hend : c.globalEnd = z := by simp [globalEnd, hz]
  have hne : init ≠ [] := by
    rintro rfl
    simp [recordsCount, hz] at hc
  have hlast : c.globalOffsets.dropLast.getLast? = some (init.getLast hne) := by
    rw [hz, List.dropLast_concat, List.getLast?_eq_getLast_of_ne_nil hne]
  refine ⟨_, by rw [lastSegment, hlast], ?_⟩
  rw [hz, List.pairwise_append] at h
  have := h.2.2 _ (List.getLast_mem hne) z (by simp)
  simp only [Segment.end_mk, hend]
  omega

end

end Chunk

/-- `pendingData`: encoded records not yet handed to the flush worker. -/
structure OpenChunk where
  pendingData : Bytes
  chunk : Chunk

namespace OpenChunk

def new (chunk : Chunk) : OpenChunk := { pendingData := [], chunk }

/-- The pending bytes, and the chunk without them. -/
def takePendingData (o : OpenChunk) : Bytes × OpenChunk :=
  (o.pendingData, { o with pendingData := [] })

/-- A chunk without records, over the file of that name. -/
def fromFile (id : Nat) : OpenChunk :=
  { pendingData := [],
    chunk := { f := id, globalOffsets := [id], truncated := none, nonempty := by simp } }

/-- A failed encoder may have written part of the record: the buffer is cut back. -/
def appendRecord {Rec : Type} [Encode Rec] (o : OpenChunk) (rec : Rec) :
    Except Fault Segment × OpenChunk :=
  let pendingLen := o.pendingData.length
  match encode rec with
  | (bs, .error e) =>
    (.error (.io e), { o with pendingData := (o.pendingData ++ bs).take pendingLen })
  | (bs, .ok size) =>
    let chunk := o.chunk.appendRecordSize size
    (chunk.lastSegment, { pendingData := o.pendingData ++ bs, chunk })

section
variable {Rec : Type} [Encode Rec] {o : OpenChunk} {rec : Rec}

theorem appendRecord_error {e : IoError} (h : (encode rec).2 = .error e) :
    o.appendRecord rec = (.error (.io e), o) := by
  have he : encode rec = ((encode rec).1, .error e) := Prod.ext rfl h
  unfold appendRecord
  rw [he]
  simp

theorem appendRecord_ok [SizedCodec Rec] (h : Encodes rec) :
    o.appendRecord rec = (.ok { offset := o.chunk.globalEnd, size := (enc rec).length },
      { pendingData := o.pendingData ++ enc rec,
        chunk := o.chunk.appendRecordSize (enc rec).length }) := by
  unfold appendRecord
  rw [encode_eq_of_encodes h]
  simp [Chunk.appendRecordSize_lastSegment]

end

end OpenChunk

/-- A closed chunk with the state-machine checkpoint after its last record. -/
structure ClosedChunk (C : Type) where
  state : C
  chunk : Chunk

/-! ## Decoding a file -/

/-- `data` is what the reader yields from the start of the file. -/
structure RecordIterator where
  data : Bytes
  offset : Nat
  totalSize : Nat
  chunkId : Nat
  error : Option IoError

namespace RecordIterator

def new (data : Bytes) (size : Nat) (chunkId : Nat) : RecordIterator :=
  { data, offset := 0, totalSize := size, chunkId, error := none }

def next (Rec : Type) [Decode Rec] (it : RecordIterator) :
    Option (Except IoError (Segment × Rec)) × RecordIterator :=
  if it.error.isSome then (none, it)
  else if it.offset = it.totalSize then (none, it)
  else
    match decode (α := Rec) (it.data.drop it.offset) with
    | (.ok r, k) => (some (.ok ({ offset := it.offset, size := k }, r)),
        { it with offset := it.offset + k })
    | (.error e, k) =>
      let e := (e.context ("decode Record at offset " ++ toString it.offset)).context
        ("iterate " ++ displayChunkId it.chunkId)
      (some (.error e), { it with offset := it.offset + k, error := some e })

/-- The items the iterator yields, at most `fuel` of them. -/
def items (Rec : Type) [Decode Rec] : Nat → RecordIterator → List (Except IoError (Segment × Rec))
  | 0, _ => []
  | fuel + 1, it =>
    match it.next Rec with
    | (none, _) => []
    | (some x, it) => x :: items Rec fuel it

end RecordIterator

/-- Every item takes a byte or ends the iteration, so a file has at most one more item than
bytes. -/
def loadRecordsIter (Rec : Type) [Decode Rec] (data : Bytes) (chunkId : Nat) :
    List (Except IoError (Segment × Rec)) :=
  (RecordIterator.new data data.length chunkId).items Rec (data.length + 1)

/-- The records before the first error, and that error. -/
def splitItems {Rec : Type} : List (Except IoError (Segment × Rec)) →
    List (Segment × Rec) × Option IoError
  | [] => ([], none)
  | .ok x :: rest => (x :: (splitItems rest).1, (splitItems rest).2)
  | .error e :: _ => ([], some e)

/-! ## Trailing zeros -/

def READ_CHUNK_SIZE : Nat := 1024

/-- The loop of `verify_trailing_zeros`: `reads k` bounds what the `k`-th positional read returns,
and the buffer keeps old bytes behind a short read. -/
def scanZeros (data : Bytes) (reads : Nat → Nat) : Nat → Nat → Bytes → Nat → Bool
  | 0, _, _, _ => true
  | fuel + 1, k, buffer, offset =>
    let got := (data.drop offset).take (min READ_CHUNK_SIZE (max 1 (reads k)))
    if got.length = 0 then true
    else
      let buffer := got ++ buffer.drop got.length
      if (buffer.take got.length).any (· ≠ 0) then false
      else scanZeros data reads fuel (k + 1) buffer (offset + got.length)

def verifyTrailingZeros (data : Bytes) (reads : Nat → Nat) (startOffset : Nat) :
    Except IoError Bool :=
  if startOffset > data.length then
    .error { kind := .invalidInput,
             msg := "Start offset " ++ toString startOffset ++ " exceeds file size "
               ++ toString data.length }
  else if data.length = startOffset then .ok true
  else .ok (scanZeros data reads (data.length + 1) 0 (List.replicate READ_CHUNK_SIZE 0) startOffset)

end Wal

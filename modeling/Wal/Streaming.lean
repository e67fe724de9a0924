import Wal.Lib.Reader
import Wal.Register

/-!
# Records from a reader

`WALRecord::decode` and `RecordIterator` as they run over a reader that may return less than it is
asked for: the four type bytes are read, replayed in front of the reader (`Chain`) and, for a
checkpoint, read again under the checksum (`Recording`), while an `OffsetReader` underneath counts
what is taken. `WALRecord.lawfulStream`: such a record codec is lawful when the action and
checkpoint codecs are. `stream_round_trip`: what the iterator yields from encoded records and a torn
one behind them.
-/

namespace Wal

open Lib

/-- `codeq::Decode` over any reader. -/
class StreamDecode (α : Type) where
  decodeFrom : {R : Type} → [Read UInt8 R] → R → Except IoError α × R

export StreamDecode (decodeFrom)

/-- A self-delimiting codec, whatever pieces the reader returns: an encoding is decoded back and
what follows it is left, and a strict prefix of an encoding is a short read. -/
class LawfulStream (α : Type) [Encode α] [StreamDecode α] : Prop extends SizedCodec α where
  decode_enc : ∀ {a : α}, Encodes a → ∀ {R : Type} [Read UInt8 R] {sem : R → Bytes → Prop},
    Faithful sem → ∀ {r : R} {rest : Bytes}, sem r (enc a ++ rest) →
      ∃ r', decodeFrom r = (.ok a, r') ∧ sem r' rest
  decode_prefix : ∀ {a : α}, Encodes a → ∀ {p : Bytes}, p <+: enc a → p ≠ enc a →
    ∀ {R : Type} [Read UInt8 R] {sem : R → Bytes → Prop}, Faithful sem → ∀ {r : R}, sem r p →
      ∃ e r', decodeFrom (α := α) r = (.error e, r') ∧ e.kind = .unexpectedEof

/-- An encoding of an action starts with its big-endian type id (a `u32`). -/
class LeadingTypeId (A : Type) [Encode A] : Prop where
  typeId_prefix : ∀ {a : A} {t : Nat}, Encodes a → typeId a = some t → t < 2 ^ 32 ∧ be 4 t <+: enc a

/-- `Read::read_exact`. -/
def readFull {R : Type} [Read UInt8 R] (n : Nat) (r : R) : Except IoError Bytes × R :=
  match readExact n r with
  | (none, r) => (.error WALRecord.shortRead, r)
  | (some bs, r) => (.ok bs, r)

namespace WALRecord

variable {A C : Type} [Crc32fast] [Encode A] [StreamDecode A] [StreamDecode C] {R : Type}
    [Read UInt8 R]

/-- An action: the decoder reads the type bytes again. -/
def decodeActionFrom (typeBytes : Bytes) (r : R) : Except IoError (WALRecord A C) × R :=
  match decodeFrom (α := A) (Chain.new typeBytes r) with
  | (.error e, c) => (.error e, c.second)
  | (.ok a, c) =>
    match typeId a with
    | none => (.error noDecodedTypeId, c.second)
    | some t =>
      if t ≠ ofBe typeBytes then (.error (typeIdMismatch (ofBe typeBytes) t), c.second)
      else (.ok (.action a), c.second)

/-- A checkpoint: the type bytes are read again under the checksum, which is then compared. -/
def decodeCheckpointFrom (typeBytes : Bytes) (r : R) : Except IoError (WALRecord A C) × R :=
  match readFull 4
    ({ inner := Chain.new typeBytes r, seen := [] } : Recording UInt8 (Chain UInt8 R)) with
  | (.error e, cr) => (.error e, cr.inner.second)
  | (.ok _, cr) =>
    match decodeFrom (α := C) cr with
    | (.error e, cr) => (.error e, cr.inner.second)
    | (.ok c, cr) =>
      match readFull 8 cr.inner with
      | (.error e, inner) => (.error e, inner.second)
      | (.ok sum, inner) =>
        if ofBe sum = Crc32fast.crc cr.seen then (.ok (.checkpoint c), inner.second)
        else (.error badChecksum, inner.second)

def decodeRecordFrom (r : R) : Except IoError (WALRecord A C) × R :=
  match readFull 4 r with
  | (.error e, r) => (.error e, r)
  | (.ok typeBytes, r) =>
    if ofBe typeBytes ≠ CHECKPOINT_RECORD_TYPE then decodeActionFrom typeBytes r
    else decodeCheckpointFrom typeBytes r

instance : StreamDecode (WALRecord A C) where
  decodeFrom := decodeRecordFrom

end WALRecord

/-! ## Lawful records -/

section
variable {R : Type} [Read UInt8 R] {sem : R → Bytes → Prop} {bs : Bytes}

theorem readFull_ok (hf : Faithful sem) {n : Nat} {r : R} (h : sem r bs) (hn : n ≤ bs.length) :
    ∃ r', readFull n r = (.ok (bs.take n), r') ∧ sem r' (bs.drop n) := by
  obtain ⟨r', h1, h2⟩ := readExact_ok hf h hn
  exact ⟨r', by rw [readFull, h1], h2⟩

theorem readFull_short (hf : Faithful sem) {n : Nat} {r : R} (h : sem r bs) (hn : bs.length < n) :
    ∃ r', readFull n r = (.error WALRecord.shortRead, r') := by
  obtain ⟨r', h1⟩ := readExact_short hf h hn
  exact ⟨r', by rw [readFull, h1]⟩

end

namespace WALRecord

section
variable {A C : Type} [Crc32fast] [Encode A] [StreamDecode A] [Encode C] [StreamDecode C]
  [LawfulStream A] [LeadingTypeId A] [LawfulStream C] {R : Type} [Read UInt8 R] {sem : R → Bytes →
    Prop}

omit [StreamDecode A] [StreamDecode C] [LawfulStream A] [LawfulStream C] in
theorem enc_typeId_split {a : A} (h : Encodes (α := WALRecord A C) (.action a)) :
    ∃ t body, typeId a = some t ∧ t ≠ CHECKPOINT_RECORD_TYPE ∧ ofBe (be 4 t) = t ∧ Encodes a ∧
      enc (α := WALRecord A C) (.action a) = be 4 t ++ body ∧ enc a = be 4 t ++ body := by
  obtain ⟨t, ht, h5, ha, he⟩ := encodes_action h
  obtain ⟨hlt, body, hb⟩ := LeadingTypeId.typeId_prefix ha ht
  exact ⟨t, body, ht, h5, ofBe_be_of_lt (by omega), ha, he.trans hb.symm, hb.symm⟩

omit [LawfulStream C] in
theorem decodeFrom_action (hf : Faithful sem) {a : A} (h : Encodes (α := WALRecord A C) (.action a))
    {r : R} {rest : Bytes} (hr : sem r (enc (α := WALRecord A C) (.action a) ++ rest)) :
    ∃ r', decodeRecordFrom (A := A) (C := C) r = (.ok (.action a), r') ∧ sem r' rest := by
  obtain ⟨t, body, ht, h5, hbe, ha, he, hb⟩ := enc_typeId_split h
  rw [he, List.append_assoc] at hr
  have h4 : (be 4 t).length = 4 := be_length _ _
  obtain ⟨r₁, hread, hr₁⟩ := readFull_ok hf (n := 4) hr (by simp)
  rw [List.take_left' h4] at hread
  rw [List.drop_left' h4] at hr₁
  have hchain : Chain.Sem sem (body ++ rest) (Chain.new (be 4 t) r₁) (enc a ++ rest) := by
    rw [hb, List.append_assoc]
    exact Chain.sem_new hr₁ _
  obtain ⟨c, hdec, hc⟩ := LawfulStream.decode_enc ha (Chain.faithful hf _) hchain
  refine ⟨c.second, ?_, Chain.sem_second hc (by simp)⟩
  unfold decodeRecordFrom decodeActionFrom
  simp only [hread, hbe, if_pos h5, hdec, ht]
  simp

omit [Crc32fast] in
/-- The type of a checkpoint record is read twice, the second time under the checksum. -/
theorem checkpoint_types (hf : Faithful sem) {r : R} {body : Bytes}
    (hr : sem r (be 4 CHECKPOINT_RECORD_TYPE ++ body)) :
    ∃ r₁ cr, readFull 4 r = (.ok (be 4 CHECKPOINT_RECORD_TYPE), r₁) ∧
      readFull 4 ({ inner := Chain.new (be 4 CHECKPOINT_RECORD_TYPE) r₁, seen := [] } :
        Recording UInt8 (Chain UInt8 R)) = (.ok (be 4 CHECKPOINT_RECORD_TYPE), cr) ∧
      Recording.Sem (Chain.Sem sem body) (be 4 CHECKPOINT_RECORD_TYPE ++ body) cr body := by
  have h4 : (be 4 CHECKPOINT_RECORD_TYPE).length = 4 := be_length _ _
  obtain ⟨r₁, hread, hr₁⟩ := readFull_ok hf (n := 4) hr (by simp)
  rw [List.take_left' h4] at hread
  rw [List.drop_left' h4] at hr₁
  have hrec : Recording.Sem (Chain.Sem sem body) (be 4 CHECKPOINT_RECORD_TYPE ++ body)
      { inner := Chain.new (be 4 CHECKPOINT_RECORD_TYPE) r₁, seen := [] }
      (be 4 CHECKPOINT_RECORD_TYPE ++ body) := ⟨Chain.sem_new hr₁ _, rfl⟩
  obtain ⟨cr, hread', hcr⟩ :=
    readFull_ok (Recording.faithful (Chain.faithful hf body) _) (n := 4) hrec (by simp)
  rw [List.take_left' h4] at hread'
  rw [List.drop_left' h4] at hcr
  exact ⟨r₁, cr, hread, hread', hcr⟩

omit [LeadingTypeId A] [LawfulStream A] in
theorem decodeFrom_checkpoint (hf : Faithful sem) {c : C}
    (h : Encodes (α := WALRecord A C) (.checkpoint c)) {r : R} {rest : Bytes}
    (hr : sem r (enc (α := WALRecord A C) (.checkpoint c) ++ rest)) :
    ∃ r', decodeRecordFrom (A := A) (C := C) r = (.ok (.checkpoint c), r') ∧ sem r' rest := by
  obtain ⟨hc, he⟩ := encodes_checkpoint h
  rw [he, checkpointBody, List.append_assoc, List.append_assoc, ← checkpointBody] at hr
  obtain ⟨r₁, cr, hread, hread', hcr⟩ := checkpoint_types hf hr
  obtain ⟨cr', hdec, hsem, hseen⟩ := LawfulStream.decode_enc hc
    (Recording.faithful (Chain.faithful hf _) _) hcr
  -- what was read under the checksum is the type and the payload
  have hbody : cr'.seen = checkpointBody c := by
    rw [← List.append_assoc (be 4 CHECKPOINT_RECORD_TYPE)] at hseen
    exact List.append_cancel_right hseen
  have h8 : (checksum (checkpointBody c)).length = 8 := be_length _ _
  obtain ⟨inner, hsum, hinner⟩ := readFull_ok (Chain.faithful hf _) (n := 8) hsem (by simp [h8])
  rw [List.take_left' h8] at hsum
  rw [List.drop_left' h8] at hinner
  have hcrc : ofBe (checksum (checkpointBody c)) = Crc32fast.crc (checkpointBody c) :=
    ofBe_be_of_lt (Nat.lt_trans (Crc32fast.crc_lt _) (by decide))
  have htype : ofBe (be 4 CHECKPOINT_RECORD_TYPE) = CHECKPOINT_RECORD_TYPE :=
    ofBe_be_of_lt (by decide)
  refine ⟨inner.second, ?_, Chain.sem_second hinner (by simp only [List.length_append]; omega)⟩
  unfold decodeRecordFrom decodeCheckpointFrom
  simp only [hread, htype, ne_eq, not_true, if_false, hread', hdec, hsum, hcrc, hbody, if_true]

omit [LawfulStream C] in
theorem decodeFrom_prefix_action (hf : Faithful sem) {a : A}
    (h : Encodes (α := WALRecord A C) (.action a)) {p : Bytes}
    (hp : p <+: enc (α := WALRecord A C) (.action a))
    (hne : p ≠ enc (α := WALRecord A C) (.action a)) {r : R} (hr : sem r p) :
    ∃ e r', decodeRecordFrom (A := A) (C := C) r = (.error e, r') ∧ e.kind = .unexpectedEof := by
  obtain ⟨t, body, ht, h5, hbe, ha, he, hb⟩ := enc_typeId_split h
  rw [he] at hp hne
  rcases Nat.lt_or_ge p.length 4 with hlt | hge
  · obtain ⟨r', hread⟩ := readFull_short hf hr hlt
    exact ⟨shortRead, r', by rw [decodeRecordFrom, hread], rfl⟩
  · obtain ⟨q, rfl⟩ : be 4 t <+: p :=
      List.prefix_of_prefix_length_le (List.prefix_append _ _) hp (by rw [be_length]; exact hge)
    have h4 : (be 4 t).length = 4 := be_length _ _
    obtain ⟨r₁, hread, hr₁⟩ := readFull_ok hf (n := 4) hr (by simp)
    rw [List.take_left' h4] at hread
    rw [List.drop_left' h4] at hr₁
    rw [← hb] at hp hne
    obtain ⟨e, c, hdec, hk⟩ :=
      LawfulStream.decode_prefix ha hp hne (Chain.faithful hf _) (Chain.sem_new hr₁ _)
    refine ⟨e, c.second, ?_, hk⟩
    unfold decodeRecordFrom decodeActionFrom
    simp only [hread, hbe, if_pos h5, hdec]

omit [LeadingTypeId A] [LawfulStream A] in
theorem decodeFrom_prefix_checkpoint (hf : Faithful sem) {c : C}
    (h : Encodes (α := WALRecord A C) (.checkpoint c)) {p : Bytes}
    (hp : p <+: enc (α := WALRecord A C) (.checkpoint c))
    (hne : p ≠ enc (α := WALRecord A C) (.checkpoint c)) {r : R} (hr : sem r p) :
    ∃ e r', decodeRecordFrom (A := A) (C := C) r = (.error e, r') ∧ e.kind = .unexpectedEof := by
  obtain ⟨hc, he⟩ := encodes_checkpoint h
  rw [he, checkpointBody, List.append_assoc, ← checkpointBody] at hp hne
  rcases Nat.lt_or_ge p.length 4 with hlt | hge
  · obtain ⟨r', hread⟩ := readFull_short hf hr hlt
    exact ⟨shortRead, r', by rw [decodeRecordFrom, hread], rfl⟩
  obtain ⟨q, rfl⟩ : be 4 CHECKPOINT_RECORD_TYPE <+: p :=
    List.prefix_of_prefix_length_le (List.prefix_append _ _) hp (by rw [be_length]; exact hge)
  have htype : ofBe (be 4 CHECKPOINT_RECORD_TYPE) = CHECKPOINT_RECORD_TYPE :=
    ofBe_be_of_lt (by decide)
  obtain ⟨r₁, cr, hread, hread', hcr⟩ := checkpoint_types hf hr
  rw [List.prefix_append_right_inj] at hp
  have hq : q ≠ enc c ++ checksum (checkpointBody c) := fun h => hne (by rw [h])
  rcases Nat.lt_or_ge q.length (enc c).length with hs | hs
  · -- the payload itself is cut
    have hpc : q <+: enc c :=
      List.prefix_of_prefix_length_le hp (List.prefix_append _ _) (Nat.le_of_lt hs)
    obtain ⟨e, cr', hdec, hk⟩ := LawfulStream.decode_prefix hc hpc (fun h => by rw [h] at hs; omega)
      (Recording.faithful (Chain.faithful hf _) _) hcr
    refine ⟨e, cr'.inner.second, ?_, hk⟩
    unfold decodeRecordFrom decodeCheckpointFrom
    simp only [hread, htype, ne_eq, not_true, if_false, hread', hdec]
  · -- the payload is complete, the checksum is cut
    obtain ⟨u, rfl⟩ : enc c <+: q := List.prefix_of_prefix_length_le (List.prefix_append _ _) hp hs
    rw [List.prefix_append_right_inj] at hp
    have hu : u.length < 8 := by
      have hle := hp.length_le
      rw [show (checksum (checkpointBody c)).length = 8 from be_length _ _] at hle
      refine lt_of_le_of_ne hle fun hl => hq ?_
      rw [hp.eq_of_length (hl.trans (be_length _ _).symm)]
    obtain ⟨cr', hdec, hsem, -⟩ :=
      LawfulStream.decode_enc hc (Recording.faithful (Chain.faithful hf _) _) hcr
    obtain ⟨inner, hsum⟩ := readFull_short (Chain.faithful hf _) hsem hu
    refine ⟨shortRead, inner.second, ?_, rfl⟩
    unfold decodeRecordFrom decodeCheckpointFrom
    simp only [hread, htype, ne_eq, not_true, if_false, hread', hdec, hsum]

instance lawfulStream : LawfulStream (WALRecord A C) where
  decode_enc := by
    intro rec h R _ sem hf r rest hr
    cases rec with
    | action a => exact decodeFrom_action hf h hr
    | checkpoint c => exact decodeFrom_checkpoint hf h hr
  decode_prefix := by
    intro rec h p hp hne R _ sem hf r hr
    cases rec with
    | action a => exact decodeFrom_prefix_action hf h hp hne hr
    | checkpoint c => exact decodeFrom_prefix_checkpoint hf h hp hne hr

omit [StreamDecode A] [StreamDecode C] [LawfulStream A] [LawfulStream C] in
theorem enc_ne_nil {rec : WALRecord A C} (h : Encodes rec) : enc rec ≠ [] := by
  cases rec with
  | action a =>
    obtain ⟨t, body, -, -, -, -, he, -⟩ := enc_typeId_split h
    rw [he]
    simp [be]
  | checkpoint c =>
    rw [(encodes_checkpoint h).2]
    simp [checkpointBody, be]

end

end WALRecord

/-! ## The iterator -/

/-- `OffsetReader`. -/
abbrev OffsetReader (R : Type) := Counting R

/-- `RecordIterator` over any reader. -/
structure StreamIterator (R : Type) where
  r : OffsetReader R
  totalSize : Nat
  chunkId : Nat
  error : Option IoError

namespace StreamIterator

variable {R Rec : Type} [Read UInt8 R] [StreamDecode Rec]

def new (r : R) (size : Nat) (chunkId : Nat) : StreamIterator R :=
  { r := { inner := r, offset := 0 }, totalSize := size, chunkId, error := none }

variable (Rec) in
def next (it : StreamIterator R) : Option (Except IoError (Segment × Rec)) × StreamIterator R :=
  if it.error.isSome then (none, it)
  else if it.r.offset = it.totalSize then (none, it)
  else
    match decodeFrom (α := Rec) it.r with
    | (.ok rec, r) =>
      (some (.ok ({ offset := it.r.offset, size := r.offset - it.r.offset }, rec)), { it with r })
    | (.error e, r) =>
      let e := (e.context ("decode Record at offset " ++ toString it.r.offset)).context
        ("iterate " ++ displayChunkId it.chunkId)
      (some (.error e), { it with r, error := some e })

/-- The iterator yields these items and then `None`. -/
inductive Yields : StreamIterator R → List (Except IoError (Segment × Rec)) → Prop
  | done {it it'} (h : it.next Rec = (none, it')) : Yields it []
  | step {it it' x xs} (h : it.next Rec = (some x, it')) (hrest : Yields it' xs) : Yields
      it (x :: xs)

variable {it : StreamIterator R} {r : OffsetReader R}

theorem next_of_ok (he : it.error = none) (ho : it.r.offset ≠ it.totalSize) {rec : Rec}
    (hd : decodeFrom it.r = (.ok rec, r)) : it.next Rec =
      (some (.ok ({ offset := it.r.offset, size := r.offset - it.r.offset }, rec)),
        { it with r }) := by
  simp [StreamIterator.next, he, ho, hd]

theorem next_of_error (he : it.error = none) (ho : it.r.offset ≠ it.totalSize) {e : IoError}
    (hd : decodeFrom (α := Rec) it.r = (.error e, r)) : it.next Rec =
      (some (.error (iterError it.chunkId it.r.offset e)),
        { it with r, error := some (iterError it.chunkId it.r.offset e) }) := by
  simp [StreamIterator.next, iterError, he, ho, hd]

theorem next_after_error {e : IoError} (he : it.error = some e) : it.next Rec = (none, it) := by
  simp [StreamIterator.next, he]

end StreamIterator

/-- The segments tile a file from one offset to another. -/
def Tiles : Nat → List Segment → Nat → Prop
  | off, [], stop => off = stop
  | off, seg :: segs, stop => seg.offset = off ∧ Tiles seg.end_ segs stop

theorem tiles_segments {Rec : Type} [Encode Rec] (off : Nat) (rs : List Rec) :
    Tiles off (segments off rs) (off + (encAll rs).length) := by
  induction rs generalizing off with
  | nil => rfl
  | cons r rs ih =>
    refine ⟨rfl, ?_⟩
    rw [encAll_cons, List.length_append, ← Nat.add_assoc]
    exact ih _

theorem sizes_segments {Rec : Type} [Encode Rec] [SizedCodec Rec] (off : Nat) {rs : List Rec}
    (h : ∀ r ∈ rs, Encodes r) :
    (segments off rs).map (fun seg => Except.ok seg.size) = rs.map fun r => (encode r).2 := by
  induction rs generalizing off with
  | nil => rfl
  | cons r rs ih =>
    have hr := encode_eq_of_encodes (h r List.mem_cons_self)
    rw [segments, List.map_cons, List.map_cons, hr, ih _ fun r hr =>
      h r (List.mem_cons_of_mem _ hr)]

section
variable {Rec : Type} [Encode Rec] [StreamDecode Rec] [LawfulStream Rec] {R : Type} [Read UInt8 R]
  {sem : R → Bytes → Prop} {total : Nat}

open StreamIterator

/-- **From a reader that has encoded records left**, and a torn one behind them. -/
theorem yields_frame (hf : Faithful sem) {t : Bytes} {last : Rec} (hlast : Encodes last)
    (ht : t <+: enc last) (hne : t ≠ enc last) : ∀ {rs : List Rec} {it : StreamIterator R},
      (∀ r ∈ rs, Encodes r ∧ enc r ≠ []) → it.error = none →
      Counting.Sem sem it.totalSize it.r (encAll rs ++ t) → ∃ err, TornError t err ∧
        Yields it (((segments it.r.offset rs).zip rs).map .ok ++ err.toList.map .error)
  | [], it, _, he, hsem => by
    by_cases hnil : t = []
    · subst hnil
      have hend : it.r.offset = it.totalSize := by simpa using hsem.2
      have hnext : it.next Rec = (none, it) := by simp [StreamIterator.next, he, hend]
      exact ⟨none, .inl ⟨rfl, rfl⟩, .done hnext⟩
    · obtain ⟨e, r, hdec, hk⟩ :=
        LawfulStream.decode_prefix hlast ht hne (Counting.faithful hf _) hsem
      have hoff : it.r.offset ≠ it.totalSize := by
        have hpos := List.length_pos_of_ne_nil hnil
        have htotal := hsem.2
        simp only [encAll_nil, List.nil_append] at htotal
        omega
      refine ⟨some (iterError it.chunkId it.r.offset e), .inr ⟨hnil, _, rfl, hk⟩, ?_⟩
      exact .step (next_of_error he hoff hdec) (.done (next_after_error rfl))
  | r :: rs, it, hrs, he, hsem => by
    obtain ⟨hr, hr0⟩ := hrs r List.mem_cons_self
    have hpos := List.length_pos_of_ne_nil hr0
    have htotal := hsem.2
    rw [encAll_cons, List.append_assoc, List.length_append] at htotal
    have hoff : it.r.offset ≠ it.totalSize := by omega
    rw [encAll_cons, List.append_assoc] at hsem
    obtain ⟨o, hdec, ho⟩ := LawfulStream.decode_enc hr (Counting.faithful hf _) hsem
    have ho' : o.offset = it.r.offset + (enc r).length := by
      have := ho.2
      omega
    have hrs' : ∀ r ∈ rs, Encodes r ∧ enc r ≠ [] := fun r hr => hrs r (List.mem_cons_of_mem _ hr)
    let it' : StreamIterator R := { it with r := o }
    have hsem' : Counting.Sem sem it'.totalSize it'.r (encAll rs ++ t) := ho
    have he' : it'.error = none := he
    obtain ⟨err, herr, hih⟩ := yields_frame hf hlast ht hne hrs' he' hsem'
    have hnext := next_of_ok he hoff hdec
    rw [ho', Nat.add_sub_cancel_left] at hnext
    refine ⟨err, herr, .step hnext ?_⟩
    rw [← ho']
    exact hih

end

/-! ## The theorem -/

/-- **The record stream round-trips**: from encoded records and a strict prefix of the encoding of
another, whatever pieces the reader returns them in, the iterator yields the records with segments
that tile what it read and have the sizes that `encode` returned, and then ends or yields one short
read and ends. -/
theorem stream_round_trip {A C : Type} [Crc32fast] [Encode A] [StreamDecode A] [Encode C]
    [StreamDecode C] [LawfulStream A] [LeadingTypeId A] [LawfulStream C] (rs : List (WALRecord A C))
    (last : WALRecord A C) (t : Bytes) (hrs : ∀ r ∈ rs, Encodes r) (hlast : Encodes last)
    (ht : t <+: enc last) (hne : t ≠ enc last) {R : Type} [Read UInt8 R] (sem : R → Bytes → Prop)
    (hf : Faithful sem) (r : R) (hr : sem r (encAll rs ++ t)) (chunkId : Nat) :
    (∀ r ∈ rs, (encode r).2 = .ok (enc r).length) ∧
    ∃ (segs : List Segment) (err : Option IoError),
      (StreamIterator.new r (encAll rs ++ t).length chunkId).Yields
        ((segs.zip rs).map .ok ++ err.toList.map .error) ∧
      Tiles 0 segs (encAll rs).length ∧
      segs.map (fun seg => Except.ok seg.size) = rs.map (fun r => (encode r).2) ∧
      ((t = [] ∧ err = none) ∨ (t ≠ [] ∧ ∃ e, err = some e ∧ e.kind = .unexpectedEof)) := by
  refine ⟨fun r hr => by rw [encode_eq_of_encodes (hrs r hr)], ?_⟩
  let it := StreamIterator.new r (encAll rs ++ t).length chunkId
  have hsem : Counting.Sem sem it.totalSize it.r (encAll rs ++ t) := ⟨hr, Nat.zero_add _⟩
  obtain ⟨err, herr, hyields⟩ := yields_frame hf hlast ht hne
    (fun r hr => ⟨hrs r hr, WALRecord.enc_ne_nil (hrs r hr)⟩) rfl hsem
  refine ⟨segments 0 rs, err, hyields, ?_, sizes_segments 0 hrs, herr⟩
  have := tiles_segments 0 rs
  rwa [Nat.zero_add] at this

/-! ## A register over a reader -/

instance : StreamDecode Put where
  decodeFrom r :=
    match readFull 5 r with
    | (.error e, r) => (.error e, r)
    | (.ok bs, r) => (.ok { value := bs.getLastD 0 }, r)

instance : StreamDecode Register where
  decodeFrom r :=
    match readFull 1 r with
    | (.error e, r) => (.error e, r)
    | (.ok bs, r) => (.ok { value := bs.getLastD 0 }, r)

instance : LawfulStream Put where
  decode_enc := by
    intro p _ R _ sem hf r rest hr
    obtain ⟨r', hread, hr'⟩ := readFull_ok hf (n := 5) hr (by simp [Put.enc_eq])
    refine ⟨r', ?_, hr'⟩
    show (match readFull 5 r with | (.error e, r) => _ | (.ok bs, r) => _) = _
    rw [hread]
    rfl
  decode_prefix := by
    intro p _ bs hp hne R _ sem hf r hr
    have hl : bs.length < 5 := lt_of_le_of_ne hp.length_le fun hl => hne (hp.eq_of_length hl)
    obtain ⟨r', hread⟩ := readFull_short hf hr hl
    refine ⟨WALRecord.shortRead, r', ?_, rfl⟩
    show (match readFull 5 r with | (.error e, r) => _ | (.ok bs, r) => _) = _
    rw [hread]

instance : LeadingTypeId Put where
  typeId_prefix := WALRecord.LawfulAction.typeId_prefix

instance : LawfulStream Register where
  decode_enc := by
    intro p _ R _ sem hf r rest hr
    obtain ⟨r', hread, hr'⟩ := readFull_ok hf (n := 1) hr (by simp [enc, encode])
    refine ⟨r', ?_, hr'⟩
    show (match readFull 1 r with | (.error e, r) => _ | (.ok bs, r) => _) = _
    rw [hread]
    rfl
  decode_prefix := by
    intro p _ bs hp hne R _ sem hf r hr
    have hl : bs.length < 1 := lt_of_le_of_ne hp.length_le fun hl => hne (hp.eq_of_length hl)
    obtain ⟨r', hread⟩ := readFull_short hf hr hl
    refine ⟨WALRecord.shortRead, r', ?_, rfl⟩
    show (match readFull 1 r with | (.error e, r) => _ | (.ok bs, r) => _) = _
    rw [hread]

/-- A reader that returns one byte at a time. -/
structure Dripping where
  left : Bytes

namespace Dripping

instance : Read UInt8 Dripping where
  read r n := (r.left.take (min n 1), { left := r.left.drop (min n 1) })

theorem faithful : Faithful fun (r : Dripping) bs => r.left = bs := by
  rintro r _ n rfl
  exact ⟨min n 1, Nat.min_le_left _ _, fun hn _ => by omega, rfl, rfl⟩

/-- A checkpoint and an action. -/
abbrev records : List (WALRecord Put Register) :=
  [.checkpoint { value := 3 }, .action { value := 7 }]

/-- The records and three bytes of another, byte by byte. -/
theorem stream_round_trip_dripping : ∃ (segs : List Segment) (err : Option IoError),
    (StreamIterator.new ({ left := encAll records ++ [0, 0, 0] } : Dripping) 21 4).Yields
      ((segs.zip records).map .ok ++ err.toList.map .error) ∧
    Tiles 0 segs 18 ∧ err.map (·.kind) = some .unexpectedEof := by
  have h := stream_round_trip records (.action { value := 9 }) [0, 0, 0] (by decide) (by decide)
    (by decide)
    (by decide) _ faithful { left := encAll records ++ [0, 0, 0] } rfl 4
  obtain ⟨-, segs, err, hyields, htiles, -, ht | ⟨-, e, rfl, hk⟩⟩ := h
  · cases ht.1
  · exact ⟨segs, _, hyields, htiles, congrArg some hk⟩

end Dripping

end Wal

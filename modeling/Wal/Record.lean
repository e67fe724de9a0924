import Wal.Codec

/-!
# WAL records

`WALRecord` with its `Encode` and `Decode` implementations: an action is delegated to its own codec
after a look at its leading type id, a checkpoint is framed by the reserved type and a checksum
over type and payload (`Crc32fast`, third-party). `WALRecord.lawful`: the record codec is lawful
when the action and checkpoint codecs are (`LawfulAction`, `LawfulCodec`).
-/

namespace Wal

/-- The third-party checksum over the bytes written or read so far, a `u32`. -/
class Crc32fast where
  crc : Bytes → Nat
  crc_lt : ∀ b, crc b < 2 ^ 32

/-- `0..=4` are user actions by convention, `5` is reserved for checkpoints. -/
def CHECKPOINT_RECORD_TYPE : Nat := 5

inductive WALRecord (A C : Type)
  | action (a : A)
  | checkpoint (c : C)
  deriving DecidableEq, Repr

namespace WALRecord

variable {A C : Type}

def noTypeId : IoError :=
  { kind := .invalidInput, msg := "action encoding does not provide a leading type id" }

def conflictingTypeId : IoError :=
  { kind := .invalidInput, msg := "action type id 5 conflicts with checkpoint" }

def noDecodedTypeId : IoError :=
  { kind := .invalidData, msg := "decoded action does not provide a leading type id" }

def typeIdMismatch (encoded decoded : Nat) : IoError :=
  { kind := .invalidData,
    msg := "action type id mismatch: encoded " ++ toString encoded ++ ", decoded "
      ++ toString decoded }

/-- `Read::read_exact` on a reader that ends too early. -/
def shortRead : IoError := { kind := .unexpectedEof, msg := "failed to fill whole buffer" }

def badChecksum : IoError :=
  { kind := .invalidData, msg := "crc32 checksum mismatch: Record::decode()" }

section
variable [Crc32fast] [Encode A] [Encode C]

/-- The type and payload of a checkpoint record, which its checksum covers. -/
def checkpointBody (c : C) : Bytes := be 4 CHECKPOINT_RECORD_TYPE ++ enc c

/-- `write_checksum`: the CRC as a big-endian `u64`. -/
def checksum (body : Bytes) : Bytes := be 8 (Crc32fast.crc body)

def encodeRecord : WALRecord A C → Bytes × Except IoError Nat
  | .action a =>
    match typeId a with
    | none => ([], .error noTypeId)
    | some t => if t = CHECKPOINT_RECORD_TYPE then ([], .error conflictingTypeId) else encode a
  | .checkpoint c =>
    match (encode c).2 with
    | .error e => (checkpointBody c, .error e)
    | .ok n => (checkpointBody c ++ checksum (checkpointBody c), .ok (4 + n + 8))

instance : Encode (WALRecord A C) where
  encode := encodeRecord

end

section
variable [Crc32fast] [Encode A] [Decode A] [Decode C]

/-- The four type bytes are replayed in front of the rest for the action decoder. -/
def decodeAction (b : Bytes) (typeId : Nat) : Except IoError (WALRecord A C) × Nat :=
  match decode (α := A) b with
  | (.error e, k) => (.error e, max 4 k)
  | (.ok a, k) =>
    match Encode.typeId a with
    | none => (.error noDecodedTypeId, max 4 k)
    | some t =>
      if t ≠ typeId then (.error (typeIdMismatch typeId t), max 4 k)
      else (.ok (.action a), max 4 k)

/-- The checksum covers the type bytes and what the checkpoint decoder consumed. -/
def decodeCheckpoint (b : Bytes) : Except IoError (WALRecord A C) × Nat :=
  match decode (α := C) (b.drop 4) with
  | (.error e, k) => (.error e, 4 + k)
  | (.ok c, k) =>
    if b.length < 4 + k + 8 then (.error shortRead, b.length)
    else if ofBe ((b.drop (4 + k)).take 8) = Crc32fast.crc (b.take (4 + k)) then
      (.ok (.checkpoint c), 4 + k + 8)
    else (.error badChecksum, 4 + k + 8)

def decodeRecord (b : Bytes) : Except IoError (WALRecord A C) × Nat :=
  if b.length < 4 then (.error shortRead, b.length)
  else
    let typeId := ofBe (b.take 4)
    if typeId ≠ CHECKPOINT_RECORD_TYPE then decodeAction b typeId else decodeCheckpoint b

theorem decodeRecord_consumed (b : Bytes) :
    (decodeRecord (A := A) (C := C) b).2 ≤ b.length := by
  have ha := Decode.consumed_le (α := A) b
  have hc := Decode.consumed_le (α := C) (b.drop 4)
  simp only [List.length_drop] at hc
  unfold decodeRecord decodeAction decodeCheckpoint
  simp only
  split
  · exact Nat.le_refl _
  · split
    · split <;> rename_i h <;> rw [h] at ha <;> simp only at ha
      · simp only; omega
      · split
        · simp only; omega
        · split <;> simp only <;> omega
    · split <;> rename_i h <;> rw [h] at hc <;> simp only at hc
      · simp only; omega
      · split
        · simp
        · split <;> simp only <;> omega

instance : Decode (WALRecord A C) where
  decode := decodeRecord
  consumed_le := decodeRecord_consumed

theorem decodeRecord_progress {b : Bytes} {r : WALRecord A C}
    (h : (decodeRecord b).1 = .ok r) : 4 ≤ (decodeRecord (A := A) (C := C) b).2 := by
  unfold decodeRecord at h ⊢
  split
  · rename_i hb; simp [hb] at h
  · rename_i hb
    simp only [hb, if_false] at h ⊢
    split
    · unfold decodeAction
      split
      · simp only; omega
      · split
        · simp only; omega
        · split <;> simp only <;> omega
    · unfold decodeCheckpoint
      split
      · simp only; omega
      · split
        · simp only; omega
        · split <;> simp only <;> omega

end

/-! ## Lawful records -/

/-- A lawful action codec: in addition, an encoding starts with the big-endian type id (a `u32`). -/
class LawfulAction (A : Type) [Encode A] [Decode A] : Prop extends LawfulCodec A where
  typeId_prefix : ∀ {a : A} {t : Nat}, Encodes a → typeId a = some t →
    t < 2 ^ 32 ∧ be 4 t <+: enc a

section
variable [Crc32fast] [Encode A] [Encode C]

theorem encodes_action {a : A} (h : Encodes (α := WALRecord A C) (.action a)) :
    ∃ t, typeId a = some t ∧ t ≠ CHECKPOINT_RECORD_TYPE ∧ Encodes a ∧
      enc (α := WALRecord A C) (.action a) = enc a := by
  obtain ⟨n, hn⟩ := h
  simp only [enc, encode, encodeRecord] at hn ⊢
  split at hn
  · cases hn
  · rename_i t ht
    split at hn
    · cases hn
    · rename_i h5
      exact ⟨t, ht, h5, ⟨n, hn⟩, by simp only [h5, if_false]⟩

theorem encodes_checkpoint {c : C} (h : Encodes (α := WALRecord A C) (.checkpoint c)) :
    Encodes c ∧ enc (α := WALRecord A C) (.checkpoint c) =
      checkpointBody c ++ checksum (checkpointBody c) := by
  obtain ⟨n, hn⟩ := h
  simp only [enc, encode, encodeRecord] at hn ⊢
  split at hn
  · cases hn
  · rename_i m hm
    exact ⟨⟨m, hm⟩, rfl⟩

instance [SizedCodec A] [SizedCodec C] : SizedCodec (WALRecord A C) where
  size_eq := by
    intro r n h
    cases r with
    | action a =>
      obtain ⟨t, ht, h5, ha, he⟩ := encodes_action (C := C) ⟨n, h⟩
      simp only [encode, encodeRecord, ht, h5, if_false] at h
      rw [he]
      exact SizedCodec.size_eq h
    | checkpoint c =>
      obtain ⟨⟨m, hm⟩, he⟩ := encodes_checkpoint (A := A) ⟨n, h⟩
      have hs := SizedCodec.size_eq hm
      simp only [encode, encodeRecord] at h hm
      rw [hm] at h
      simp only [Except.ok.injEq] at h
      rw [he]
      simp only [checkpointBody, checksum, List.length_append, be_length]
      omega

end

section
variable [Crc32fast] [Encode A] [Decode A] [Encode C] [Decode C] [LawfulAction A] [LawfulCodec C]

omit [Decode C] [LawfulCodec C] in
theorem enc_action_split {a : A} (h : Encodes (α := WALRecord A C) (.action a)) :
    ∃ t body, typeId a = some t ∧ t ≠ CHECKPOINT_RECORD_TYPE ∧ t < 256 ^ 4 ∧ Encodes a ∧
      enc (α := WALRecord A C) (.action a) = enc a ∧ enc a = be 4 t ++ body := by
  obtain ⟨t, ht, h5, ha, he⟩ := encodes_action h
  obtain ⟨hlt, body, hb⟩ := LawfulAction.typeId_prefix ha ht
  exact ⟨t, body, ht, h5, by omega, ha, he, hb.symm⟩

omit [Crc32fast] in
theorem ofBe_take_be {t : Nat} (ht : t < 256 ^ 4) {p q : Bytes} (hl : 4 ≤ p.length)
    (hp : p <+: be 4 t ++ q) : ofBe (p.take 4) = t := by
  obtain ⟨s, hs⟩ := hp
  have h4 : p.take 4 = be 4 t := by
    rw [show p.take 4 = (p ++ s).take 4 from (List.take_append_of_le_length hl).symm, hs,
      List.take_append_of_le_length (by simp), List.take_of_length_le (by simp)]
  rw [h4, ofBe_be_of_lt ht]

omit [LawfulCodec C] in
theorem decode_enc_action {a : A} (h : Encodes (α := WALRecord A C) (.action a)) (rest : Bytes) :
    decodeRecord (A := A) (C := C) (enc (α := WALRecord A C) (.action a) ++ rest) =
      (.ok (.action a), (enc (α := WALRecord A C) (.action a)).length) := by
  obtain ⟨t, body, ht, h5, hlt, ha, he, hb⟩ := enc_action_split h
  have hlen : 4 ≤ (enc a).length := by rw [hb]; simp
  have hty : ofBe ((enc a ++ rest).take 4) = t := by
    refine ofBe_take_be hlt (by simp; omega) (q := body ++ rest) ?_
    rw [hb, List.append_assoc]
  rw [he]
  simp only [decodeRecord, List.length_append, hty, decodeAction,
    LawfulCodec.decode_enc ha rest, ht]
  rw [if_neg (by omega), if_pos h5, if_neg (by simp), Nat.max_eq_right hlen]

omit [LawfulAction A] in
theorem decode_enc_checkpoint {c : C} (h : Encodes (α := WALRecord A C) (.checkpoint c))
    (rest : Bytes) :
    decodeRecord (A := A) (C := C) (enc (α := WALRecord A C) (.checkpoint c) ++ rest) =
      (.ok (.checkpoint c), (enc (α := WALRecord A C) (.checkpoint c)).length) := by
  obtain ⟨hc, he⟩ := encodes_checkpoint h
  have hbody : (checkpointBody c).length = 4 + (enc c).length := by simp [checkpointBody]
  have hty : ofBe ((checkpointBody c ++ checksum (checkpointBody c) ++ rest).take 4) =
      CHECKPOINT_RECORD_TYPE := by
    refine ofBe_take_be (by decide) (by simp [hbody]; omega)
      (q := enc c ++ checksum (checkpointBody c) ++ rest) ?_
    simp [checkpointBody]
  have hdrop : (checkpointBody c ++ checksum (checkpointBody c) ++ rest).drop 4 =
      enc c ++ (checksum (checkpointBody c) ++ rest) := by
    simp [checkpointBody]
  have hsum : ofBe (checksum (checkpointBody c)) = Crc32fast.crc (checkpointBody c) :=
    ofBe_be_of_lt (Nat.lt_trans (Crc32fast.crc_lt _) (by decide))
  have htail : (checkpointBody c ++ checksum (checkpointBody c) ++ rest).drop
      (4 + (enc c).length) = checksum (checkpointBody c) ++ rest := by
    rw [← hbody, List.append_assoc, List.drop_left]
  have htake : (checkpointBody c ++ checksum (checkpointBody c) ++ rest).take
      (4 + (enc c).length) = checkpointBody c := by
    rw [← hbody, List.append_assoc, List.take_left]
  have h8 : (checksum (checkpointBody c)).length = 8 := be_length _ _
  rw [he]
  simp only [decodeRecord, hty, decodeCheckpoint, hdrop, LawfulCodec.decode_enc hc, htail, htake]
  rw [if_neg (by simp [hbody]; omega), if_neg (by simp), if_neg (by simp [hbody, h8]),
    List.take_append_of_le_length (by omega), List.take_of_length_le (by omega), hsum, if_pos rfl]
  simp [hbody, h8]

omit [LawfulCodec C] in
theorem decode_prefix_action {a : A} (h : Encodes (α := WALRecord A C) (.action a)) {p : Bytes}
    (hp : p <+: enc (α := WALRecord A C) (.action a))
    (hne : p ≠ enc (α := WALRecord A C) (.action a)) :
    ∃ e, (decodeRecord (A := A) (C := C) p).1 = .error e ∧ e.kind = .unexpectedEof := by
  obtain ⟨t, body, ht, h5, hlt, ha, he, hb⟩ := enc_action_split h
  rw [he] at hp hne
  by_cases hl : p.length < 4
  · exact ⟨shortRead, by simp [decodeRecord, hl], rfl⟩
  · have hty : ofBe (p.take 4) = t := ofBe_take_be hlt (by omega) (hb ▸ hp)
    obtain ⟨e, hde, hk⟩ := LawfulCodec.decode_prefix ha p hp hne
    refine ⟨e, ?_, hk⟩
    simp only [decodeRecord, if_neg hl, hty, if_pos h5, decodeAction]
    split
    · rename_i e' k hd
      rw [hd] at hde
      simpa using hde
    · rename_i a' k hd
      rw [hd] at hde
      cases hde

omit [LawfulAction A] in
theorem decode_prefix_checkpoint {c : C} (h : Encodes (α := WALRecord A C) (.checkpoint c))
    {p : Bytes} (hp : p <+: enc (α := WALRecord A C) (.checkpoint c))
    (hne : p ≠ enc (α := WALRecord A C) (.checkpoint c)) :
    ∃ e, (decodeRecord (A := A) (C := C) p).1 = .error e ∧ e.kind = .unexpectedEof := by
  obtain ⟨hc, he⟩ := encodes_checkpoint h
  rw [he] at hp hne
  by_cases hl : p.length < 4
  · exact ⟨shortRead, by simp [decodeRecord, hl], rfl⟩
  have hty : ofBe (p.take 4) = CHECKPOINT_RECORD_TYPE := by
    refine ofBe_take_be (by decide) (by omega) (q := enc c ++ checksum (checkpointBody c)) ?_
    simpa [checkpointBody] using hp
  have hd : p.drop 4 <+: enc c ++ checksum (checkpointBody c) := by
    have := hp.drop 4
    simpa [checkpointBody, List.drop_append] using this
  have hlt : p.length < 4 + (enc c).length + 8 := by
    rcases Nat.lt_or_ge p.length (4 + (enc c).length + 8) with hlt | hge
    · exact hlt
    · refine absurd (hp.eq_of_length_le ?_) hne
      simp [checkpointBody, checksum]
      omega
  simp only [decodeRecord, if_neg hl, hty, ne_eq, not_true, if_false, decodeCheckpoint]
  rcases Nat.lt_or_ge (p.drop 4).length (enc c).length with hs | hs
  · -- the payload itself is cut
    have hpc : p.drop 4 <+: enc c :=
      List.prefix_of_prefix_length_le hd (List.prefix_append _ _) (by omega)
    obtain ⟨e, hde, hk⟩ := LawfulCodec.decode_prefix hc _ hpc (fun h => by rw [h] at hs; omega)
    refine ⟨e, ?_, hk⟩
    split
    · rename_i e' k hdec
      rw [hdec] at hde
      simpa using hde
    · rename_i c' k hdec
      rw [hdec] at hde
      cases hde
  · -- the payload is complete, the checksum is cut
    obtain ⟨q, hq⟩ : enc c <+: p.drop 4 :=
      List.prefix_of_prefix_length_le (List.prefix_append _ _) hd hs
    refine ⟨shortRead, ?_, rfl⟩
    rw [← hq, LawfulCodec.decode_enc hc q]
    simp only
    rw [if_pos hlt]

instance lawful : LawfulRecord (WALRecord A C) where
  decode_enc := by
    intro r h rest
    cases r with
    | action a => exact decode_enc_action h rest
    | checkpoint c => exact decode_enc_checkpoint h rest
  decode_prefix := by
    intro r h p hp hne
    cases r with
    | action a => exact decode_prefix_action h hp hne
    | checkpoint c => exact decode_prefix_checkpoint h hp hne
  enc_ne_nil := by
    intro r h
    cases r with
    | action a =>
      obtain ⟨t, body, -, -, -, -, he, hb⟩ := enc_action_split h
      rw [he, hb]
      simp [be]
    | checkpoint c =>
      rw [(encodes_checkpoint h).2]
      simp [checkpointBody, be]

end

end WALRecord

end Wal

import Wal.Record
import Wal.Register

/-!
# Canonical codecs

A codec is canonical when encoding what was decoded writes the bytes that were consumed.
`decode_canonical`: records inherit this from actions and checkpoints, if the action decoder reads
its type id.
-/

namespace Wal

/-! ## Big-endian numbers -/

theorem ofBe_lt (bs : Bytes) : ofBe bs < 256 ^ bs.length := by
  induction bs with
  | nil => exact Nat.one_pos
  | cons b bs ih =>
    have hb := b.toNat_lt
    rw [ofBe, List.length_cons, Nat.pow_succ]
    calc b.toNat * 256 ^ bs.length + ofBe bs
        < b.toNat * 256 ^ bs.length + 256 ^ bs.length := Nat.add_lt_add_left ih _
      _ = (b.toNat + 1) * 256 ^ bs.length := by rw [Nat.add_mul, Nat.one_mul]
      _ ≤ 256 * 256 ^ bs.length := Nat.mul_le_mul_right _ (by omega)
      _ = 256 ^ bs.length * 256 := Nat.mul_comm _ _

theorem ofBe_inj {bs cs : Bytes} (hl : bs.length = cs.length) (h : ofBe bs = ofBe cs) :
    bs = cs := by
  induction bs generalizing cs with
  | nil => exact (List.length_eq_zero_iff.1 hl.symm).symm
  | cons b bs ih =>
    obtain ⟨c, cs, rfl⟩ := List.exists_cons_of_length_eq_add_one hl.symm
    have hlen : bs.length = cs.length := Nat.succ.inj hl
    have hpos : 0 < 256 ^ cs.length := Nat.pow_pos (by decide)
    have hb := hlen ▸ ofBe_lt bs
    have hc := ofBe_lt cs
    simp only [ofBe, hlen] at h
    have hdiv : ∀ x a, a < 256 ^ cs.length → (x * 256 ^ cs.length + a) / 256 ^ cs.length = x := by
      intro x a ha
      rw [Nat.add_comm, Nat.add_mul_div_right _ _ hpos, Nat.div_eq_of_lt ha, Nat.zero_add]
    have hhead := congrArg (· / 256 ^ cs.length) h
    simp only [hdiv _ _ hb, hdiv _ _ hc] at hhead
    obtain rfl := UInt8.toNat_inj.1 hhead
    exact congrArg (b :: ·) (ih hlen (Nat.add_left_cancel h))

theorem be_ofBe (bs : Bytes) : be bs.length (ofBe bs) = bs :=
  ofBe_inj (be_length _ _) (ofBe_be_of_lt (ofBe_lt bs))

/-! ## Records -/

/-- Encoding a decoded value gives the bytes back. -/
def Canonical (α : Type) [Encode α] [Decode α] : Prop :=
  ∀ (b : Bytes) (a : α) (k : Nat), decode b = (.ok a, k) → encode a = (b.take k, .ok k)

/-- The decoder reads as far as the type id. -/
def ReadsTypeId (A : Type) [Decode A] : Prop :=
  ∀ (b : Bytes) (a : A) (k : Nat), decode b = (.ok a, k) → 4 ≤ k

section
variable {A C : Type} [Crc32fast] [Encode A] [Decode A] [Encode C] [Decode C]

open WALRecord

omit [Decode C] in
theorem decodeAction_canonical (hA : Canonical A) (h4 : ReadsTypeId A) {b : Bytes} {t k : Nat}
    {r : WALRecord A C} (ht : t ≠ CHECKPOINT_RECORD_TYPE) (h : decodeAction b t = (.ok r, k)) :
    encode r = (b.take k, .ok k) ∧ ∀ c, r ≠ .checkpoint c := by
  unfold decodeAction at h
  rcases hd : decode (α := A) b with ⟨e | a, k'⟩ <;> rw [hd] at h
  · cases h
  simp only at h
  have hk := h4 b a k' hd
  split at h
  · cases h
  rename_i t' hty
  split at h
  · cases h
  rename_i heq
  cases h
  refine ⟨?_, fun c hc => by cases hc⟩
  rw [Nat.max_eq_right hk, ← hA b a k' hd]
  have ht' : t' ≠ CHECKPOINT_RECORD_TYPE := not_not.1 heq ▸ ht
  simp only [encode, encodeRecord, hty, ht', if_false]

omit [Decode A] in
theorem decodeCheckpoint_canonical (hC : Canonical C) {b : Bytes} {k : Nat} {r : WALRecord A C}
    (hb : b.take 4 = be 4 CHECKPOINT_RECORD_TYPE) (h : decodeCheckpoint b = (.ok r, k)) :
    encode r = (b.take k, .ok k) ∧ ∃ c, r = .checkpoint c := by
  unfold decodeCheckpoint at h
  rcases hd : decode (α := C) (b.drop 4) with ⟨e | c, k'⟩ <;> rw [hd] at h
  · cases h
  simp only at h
  split at h
  · cases h
  rename_i hlen
  split at h
  swap
  · cases h
  rename_i hsum
  cases h
  refine ⟨?_, c, rfl⟩
  have henc := hC (b.drop 4) c k' hd
  have hbody : checkpointBody c = b.take (4 + k') := by
    rw [checkpointBody, enc, henc, ← hb, List.take_add]
  have hcheck : checksum (checkpointBody c) = (b.drop (4 + k')).take 8 := by
    rw [checksum, hbody, ← hsum]
    have := be_ofBe ((b.drop (4 + k')).take 8)
    rwa [show ((b.drop (4 + k')).take 8).length = 8 by
      rw [List.length_take, List.length_drop]; omega] at this
  rw [List.take_add, ← hbody, ← hcheck]
  simp only [encode, encodeRecord] at henc ⊢
  rw [henc]

omit [Encode C] in
theorem decodeRecord_cases {b : Bytes} {r : WALRecord A C} {k : Nat}
    (h : decodeRecord b = (.ok r, k)) :
    (b.take 4 ≠ be 4 CHECKPOINT_RECORD_TYPE ∧ ofBe (b.take 4) ≠ CHECKPOINT_RECORD_TYPE ∧
      decodeAction b (ofBe (b.take 4)) = (.ok r, k)) ∨
    (b.take 4 = be 4 CHECKPOINT_RECORD_TYPE ∧ decodeCheckpoint b = (.ok r, k)) := by
  unfold decodeRecord at h
  split at h
  · cases h
  rename_i hb
  have h4 : (b.take 4).length = 4 := by rw [List.length_take]; omega
  by_cases ht : ofBe (b.take 4) = CHECKPOINT_RECORD_TYPE
  · simp only [ht, ne_eq, not_true, if_false] at h
    have := be_ofBe (b.take 4)
    rw [h4, ht] at this
    exact .inr ⟨this.symm, h⟩
  · simp only [ht, ne_eq, not_false_eq_true, if_true] at h
    refine .inl ⟨fun hb => ht ?_, ht, h⟩
    rw [hb]
    decide

/-- **Decoding accepts only what encoding produces**: the record is encoded as the bytes it was read
from, and it is a checkpoint exactly if they begin with the type of checkpoints. -/
theorem decode_canonical (hA : Canonical A) (hC : Canonical C) (h4 : ReadsTypeId A) {b : Bytes}
    {r : WALRecord A C} {k : Nat} (h : decode b = (.ok r, k)) :
    encode r = (b.take k, .ok k) ∧ (b.take k).length = k ∧
      ((∃ c, r = .checkpoint c) ↔ b.take 4 = be 4 CHECKPOINT_RECORD_TYPE) := by
  have hle : k ≤ b.length := by
    have := Decode.consumed_le (α := WALRecord A C) b
    rw [h] at this
    exact this
  rcases decodeRecord_cases h with ⟨hne, ht, ha⟩ | ⟨heq, hc⟩
  · obtain ⟨he, hno⟩ := decodeAction_canonical hA h4 ht ha
    refine ⟨he, List.length_take_of_le hle, fun hex => ?_, fun heq => absurd heq hne⟩
    obtain ⟨c, hc⟩ := hex
    exact absurd hc (hno c)
  · obtain ⟨he, hex⟩ := decodeCheckpoint_canonical hC heq hc
    exact ⟨he, List.length_take_of_le hle, fun _ => heq, fun _ => hex⟩

end

/-! ## An action that is its type id -/

theorem Register.canonical : Canonical Register := by
  intro b a k h
  change Register.decodeRegister b = _ at h
  cases b with
  | nil => cases h
  | cons v b =>
    cases h
    rfl

/-- Four bytes. -/
structure Quad where
  a : UInt8
  b : UInt8
  c : UInt8
  d : UInt8
  deriving DecidableEq, Repr

namespace Quad

instance : Encode Quad where
  encode q := ([q.a, q.b, q.c, q.d], .ok 4)
  typeId q := some (ofBe [q.a, q.b, q.c, q.d])

def decodeQuad (b : Bytes) : Except IoError Quad × Nat :=
  match b with
  | a :: b :: c :: d :: _ => (.ok { a, b, c, d }, 4)
  | _ => (.error WALRecord.shortRead, b.length)

instance : Decode Quad where
  decode := decodeQuad
  consumed_le b := by
    unfold decodeQuad
    split <;> simp

theorem decode_eq {bs : Bytes} {q : Quad} {k : Nat} (h : decode bs = (.ok q, k)) :
    k = 4 ∧ bs.take 4 = [q.a, q.b, q.c, q.d] := by
  change decodeQuad bs = _ at h
  unfold decodeQuad at h
  split at h
  · cases h
    exact ⟨rfl, rfl⟩
  · cases h

theorem canonical : Canonical Quad := by
  intro bs q k h
  obtain ⟨rfl, hq⟩ := decode_eq h
  rw [hq]
  rfl

theorem readsTypeId : ReadsTypeId Quad := by
  intro bs q k h
  exact Nat.le_of_eq (decode_eq h).1.symm

theorem decode_canonical_quad :
    encode (.action ⟨0, 0, 1, 7⟩ : WALRecord Quad Register) = ([0, 0, 1, 7], .ok 4) := by
  have h : decode [0, 0, 1, 7, 9] = (.ok (.action ⟨0, 0, 1, 7⟩ : WALRecord Quad Register), 4) := by
    decide
  exact (decode_canonical canonical Register.canonical readsTypeId h).1

end Quad

/-! ## An action without bytes -/

inductive Silent
  | silent
  deriving DecidableEq, Repr

namespace Silent

instance : Encode Silent where
  encode _ := ([], .ok 0)
  typeId _ := some 0

instance : Decode Silent where
  decode _ := (.ok silent, 0)
  consumed_le _ := Nat.zero_le _

/-- **The type id** is read although the action does not write it. -/
theorem decode_not_canonical :
    ¬ ∀ (A C : Type) [Crc32fast] [Encode A] [Decode A] [Encode C] [Decode C],
    Canonical A → Canonical C → ∀ (b : Bytes) (r : WALRecord A C) (k : Nat), decode b = (.ok r, k) →
    encode r = (b.take k, .ok k) := by
  intro hall
  have hs : Canonical Silent := by
    intro b a k h
    cases h
    rfl
  have hd : decode [0, 0, 0, 0] = (.ok (.action silent : WALRecord Silent Register), 4) := by decide
  have h := hall Silent Register hs Register.canonical [0, 0, 0, 0] (.action silent) 4 hd
  cases h

end Silent

end Wal

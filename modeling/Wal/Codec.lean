import Wal.Basic

/-!
# Codecs

The traits `codeq::Encode` and `codeq::Decode` that records are written and read with. Their
implementations for actions and checkpoints are user code: the laws such an implementation must
satisfy are the classes `LawfulCodec` (any payload) and `LawfulRecord` (what a chunk file holds).
-/

namespace Wal

/-- `codeq::Encode`: the bytes handed to the writer, also when the encoder then fails, and the
returned size or error. -/
class Encode (α : Type) where
  encode : α → Bytes × Except IoError Nat
  typeId : α → Option Nat := fun _ => none

/-- `codeq::Decode` on what a reader still yields: the decoded value or error, and how many bytes
were taken from the reader. -/
class Decode (α : Type) where
  decode : Bytes → Except IoError α × Nat
  consumed_le : ∀ b, (decode b).2 ≤ b.length

export Encode (encode typeId)
export Decode (decode)

/-- The bytes of an encoded value. -/
def enc {α : Type} [Encode α] (a : α) : Bytes := (encode a).1

/-- The encoder accepts `a`. -/
def Encodes {α : Type} [Encode α] (a : α) : Prop := ∃ n, (encode a).2 = .ok n

instance {α : Type} [Encode α] (a : α) : Decidable (Encodes a) :=
  match h : (encode a).2 with
  | .ok n => .isTrue ⟨n, h⟩
  | .error _ => .isFalse fun ⟨n, hn⟩ => by rw [h] at hn; cases hn

/-- The encoder returns the number of bytes it writes. -/
class SizedCodec (α : Type) [Encode α] : Prop where
  size_eq : ∀ {a : α} {n : Nat}, (encode a).2 = .ok n → n = (enc a).length

/-- A self-delimiting codec: an encoding is decoded back whatever follows it, and a strict prefix
of an encoding is a short read. -/
class LawfulCodec (α : Type) [Encode α] [Decode α] : Prop extends SizedCodec α where
  decode_enc : ∀ {a : α}, Encodes a → ∀ rest, decode (enc a ++ rest) = (.ok a, (enc a).length)
  decode_prefix : ∀ {a : α}, Encodes a → ∀ p, p <+: enc a → p ≠ enc a →
    ∃ e, (decode (α := α) p).1 = .error e ∧ e.kind = .unexpectedEof

/-- A codec for whole records: no record is empty. -/
class LawfulRecord (α : Type) [Encode α] [Decode α] : Prop extends LawfulCodec α where
  enc_ne_nil : ∀ {a : α}, Encodes a → enc a ≠ []

theorem encode_eq_of_encodes {α : Type} [Encode α] [SizedCodec α] {a : α} (h : Encodes a) :
    encode a = (enc a, .ok (enc a).length) := by
  obtain ⟨n, hn⟩ := h
  have hs := SizedCodec.size_eq hn
  subst hs
  exact Prod.ext rfl hn

/-- The concatenated encodings of a list of records. -/
def encAll {α : Type} [Encode α] (rs : List α) : Bytes := rs.flatMap enc

section
variable {α : Type} [Encode α]

@[simp] theorem encAll_nil : encAll ([] : List α) = [] := rfl

@[simp] theorem encAll_cons (r : α) (rs : List α) : encAll (r :: rs) = enc r ++ encAll rs := rfl

@[simp] theorem encAll_append (rs ss : List α) : encAll (rs ++ ss) = encAll rs ++ encAll ss := by
  simp [encAll]

theorem encAll_mono {rs ss : List α} (h : rs <+: ss) : encAll rs <+: encAll ss := by
  obtain ⟨t, rfl⟩ := h
  exact ⟨encAll t, (encAll_append rs t).symm⟩

end

end Wal

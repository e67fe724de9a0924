import Wal.Decoding
import Wal.System

/-!
# A register kept in a WAL

A minimal user of the WAL: the state is a byte, an action puts a new one, the checkpoint is the byte
itself. Its codecs are lawful, so what the other modules assume about a user can be met, and its
runs are small enough to be computed.
-/

namespace Wal

structure Put where
  value : UInt8
  deriving DecidableEq, Repr

structure Register where
  value : UInt8
  deriving DecidableEq, Repr

namespace Put

/-- Type id `0`, then the value. -/
instance : Encode Put where
  encode p := (be 4 0 ++ [p.value], .ok 5)
  typeId _ := some 0

def decodePut (b : Bytes) : Except IoError Put × Nat :=
  match b with
  | _ :: _ :: _ :: _ :: v :: _ => (.ok { value := v }, 5)
  | _ => (.error WALRecord.shortRead, b.length)

instance : Decode Put where
  decode := decodePut
  consumed_le b := by
    unfold decodePut
    split <;> simp

theorem enc_eq (p : Put) : enc p = [0, 0, 0, 0, p.value] := rfl

instance : WALRecord.LawfulAction Put where
  size_eq := by
    intro p n h
    cases h
    rfl
  decode_enc _ _ := rfl
  decode_prefix := by
    intro p _ bs hp hne
    refine ⟨WALRecord.shortRead, ?_, rfl⟩
    have hl : bs.length < 5 := by
      refine lt_of_le_of_ne hp.length_le fun hl => hne (hp.eq_of_length hl)
    match bs, hl with
    | [], _ | [_], _ | [_, _], _ | [_, _, _], _ | [_, _, _, _], _ => rfl
    | _ :: _ :: _ :: _ :: _ :: _, hl => simp at hl; omega
  typeId_prefix := by
    intro p t _ ht
    cases ht
    exact ⟨by decide, [p.value], rfl⟩

instance : LocalDecode Put where
  decode_local := by
    intro b p k hd b' hp
    change decodePut b = _ at hd
    show decodePut b' = _
    unfold decodePut at hd
    split at hd
    · cases hd
      obtain ⟨t, rfl⟩ := hp
      rfl
    · cases hd

end Put

namespace Register

instance : Encode Register where
  encode r := ([r.value], .ok 1)

def decodeRegister (b : Bytes) : Except IoError Register × Nat :=
  match b with
  | v :: _ => (.ok { value := v }, 1)
  | [] => (.error WALRecord.shortRead, 0)

instance : Decode Register where
  decode := decodeRegister
  consumed_le b := by
    unfold decodeRegister
    split <;> simp

instance : LawfulCodec Register where
  size_eq := by
    intro r n h
    cases h
    rfl
  decode_enc _ _ := rfl
  decode_prefix := by
    intro r _ bs hp hne
    have hl : bs.length < 1 := by
      refine lt_of_le_of_ne hp.length_le fun hl => hne (hp.eq_of_length hl)
    match bs, hl with
    | [], _ => exact ⟨WALRecord.shortRead, rfl, rfl⟩

instance : LocalDecode Register where
  decode_local := by
    intro b r k hd b' hp
    change decodeRegister b = _ at hd
    show decodeRegister b' = _
    unfold decodeRegister at hd
    split at hd
    · cases hd
      obtain ⟨t, rfl⟩ := hp
      rfl
    · cases hd

/-- A sum stands in for the checksum. -/
instance : Crc32fast where
  crc b := (b.map UInt8.toNat).sum % 2 ^ 32
  crc_lt _ := Nat.mod_lt _ (by decide)

def machine : StateMachine Put Register where
  State := Register
  apply _ r _ _ :=
    match r with
    | .action p => .ok { value := p.value }
    | .checkpoint c => .ok c
  checkpoint := id

def config : Config := { dir := "wal" }

def put (v : UInt8) : Op Put Register Nat := .append (.action { value := v })

/-! ## Pieces of runs -/

abbrev Step := Label Nat machine

def start (config : Config) : Step := .open config { value := 0 }

/-- The client goes on, and its I/O succeeds. -/
def go : Step := .client (.ok ())

def puts (v : UInt8) : List Step := [.call (put v), go, go]

def sends (sync : Bool) : List Step := [.call (.sendPending sync none), go, go, go]

def diskError : IoError := .other "Input/output error"

/-- A batch whose first write fails, up to the end of `run_inner`. -/
def failedBatch : List Step :=
  [.recv, .exec { writes := [.error diskError], calls := [], user := [] }, .effect,
    .effect, .effect]

end Register

end Wal

import Mathlib

/-!
# Bytes, errors, offsets

The vocabulary shared by every module: bytes, the `io::Error` the code returns, the panics it can
raise, and segments. Offsets (`u64`), chunk ids (the global offset at which a chunk begins) and
sizes (`usize`) are natural numbers: a log of `2 ^ 64` bytes is out of reach, and no result of these
modules depends on the difference.
-/

namespace Wal

abbrev Bytes := List UInt8

/-- The kinds of `io::Error` that the code distinguishes or creates. -/
inductive ErrorKind
  | notFound | alreadyExists | wouldBlock | invalidInput | invalidData | unexpectedEof
  | writeZero | interrupted | other
  deriving DecidableEq, Repr

structure IoError where
  kind : ErrorKind
  msg : String
  deriving DecidableEq, Repr

namespace IoError

def other (msg : String) : IoError := { kind := .other, msg }

/-- `ErrorContextExt::context`: the kind stays, the text grows. -/
def context (e : IoError) (ctx : String) : IoError :=
  { e with msg := e.msg ++ "; when:(" ++ ctx ++ ")" }

@[simp] theorem context_kind (e : IoError) (ctx : String) : (e.context ctx).kind = e.kind := rfl

end IoError

/-- How a call ends when it does not return a value: an error returned to the caller, or a panic. -/
inductive Fault
  | io (e : IoError)
  | panic (msg : String)
  deriving DecidableEq, Repr

abbrev IoResult := Except IoError Unit

/-- A piece of the log: global offset and size. -/
structure Segment where
  offset : Nat
  size : Nat
  deriving DecidableEq, Repr

/-- `Segment::end`, the offset right after the segment. -/
def Segment.end_ (s : Segment) : Nat := s.offset + s.size

@[simp] theorem Segment.end_mk (o n : Nat) : (Segment.mk o n).end_ = o + n := rfl

/-! ## Big-endian integers -/

/-- The `k` big-endian bytes of `n`. -/
def be : Nat → Nat → Bytes
  | 0, _ => []
  | k + 1, n => UInt8.ofNat (n / 256 ^ k) :: be k n

/-- The number that big-endian bytes stand for. -/
def ofBe : Bytes → Nat
  | [] => 0
  | b :: bs => b.toNat * 256 ^ bs.length + ofBe bs

@[simp] theorem be_length (k n : Nat) : (be k n).length = k := by
  induction k with
  | zero => rfl
  | succ k ih => simp [be, ih]

theorem ofBe_be (k n : Nat) : ofBe (be k n) = n % 256 ^ k := by
  induction k with
  | zero => simp [be, ofBe, Nat.mod_one]
  | succ k ih =>
    have hb : (UInt8.ofNat (n / 256 ^ k)).toNat = n / 256 ^ k % 256 := by simp
    rw [be, ofBe, ih, be_length, hb, Nat.pow_succ, Nat.mod_mul, Nat.mul_comm, Nat.add_comm]

theorem ofBe_be_of_lt {k n : Nat} (h : n < 256 ^ k) : ofBe (be k n) = n := by
  rw [ofBe_be, Nat.mod_eq_of_lt h]

end Wal

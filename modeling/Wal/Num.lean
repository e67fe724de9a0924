import Wal.Basic

/-!
# Number formatting

The grouped, zero-padded decimal form that chunk file names and error texts use.
-/

namespace Wal

/-- The decimal digits of `n`, padded with zeros to `minWidth`. -/
def paddedDigits (n minWidth : Nat) : List Char :=
  let s := Nat.toDigits 10 n
  List.replicate (minWidth - s.length) '0' ++ s

/-- Underscores between groups of three digits, counted from the right. -/
def formatGrouped (n minWidth : Nat) : List Char :=
  let s := paddedDigits n minWidth
  s.zipIdx.foldl
    (fun acc (c, i) =>
      (if i > 0 ∧ (s.length - i) % 3 = 0 then acc ++ ['_'] else acc) ++ [c]) []

def formatPadU64 (n : Nat) : String := String.ofList (formatGrouped n 20)

/-- `Display for ChunkId`. -/
def displayChunkId (id : Nat) : String := "ChunkId(" ++ formatPadU64 id ++ ")"

example : formatGrouped 1200000 20 = "00_000_000_000_001_200_000".toList := by decide +kernel

end Wal

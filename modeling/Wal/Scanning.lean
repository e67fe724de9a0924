import Wal.Chunk

/-!
# The scan for trailing zeros

`Verifies` is `verify_trailing_zeros` turn by turn, without a bound on the number of turns: a
derivation of it is a run of the loop that ends. `scanZeros_scans` finds the run within the fuel of
`verifyTrailingZeros`.
-/

namespace Wal

section
variable (data : Bytes) (reads : Nat → Nat)

/-- What the `k`-th `read_at` returns at `offset`: at least a byte if there is one. -/
def readAt (k offset : Nat) : Bytes :=
  (data.drop offset).take (min READ_CHUNK_SIZE (max 1 (reads k)))

/-- The loop from its `k`-th turn on: the buffer and `start_offset` before the turn, and what is
returned. -/
inductive Scans : Nat → Bytes → Nat → Bool → Prop
  | eof {k offset : Nat} {buffer : Bytes} (h : (readAt data reads k offset).length = 0) :
    Scans k buffer offset true
  | nonZero {k offset : Nat} {buffer got : Bytes} (hgot : readAt data reads k offset = got)
      (h : got.length ≠ 0)
      (hany : ((got ++ buffer.drop got.length).take got.length).any (· ≠ 0) = true) : Scans k buffer
      offset false
  | zeros {k offset : Nat} {buffer got : Bytes} {b : Bool} (hgot : readAt data reads k offset = got)
      (h : got.length ≠ 0)
      (hany : ¬ ((got ++ buffer.drop got.length).take got.length).any (· ≠ 0) = true)
      (next : Scans (k + 1) (got ++ buffer.drop got.length) (offset + got.length) b) : Scans k
      buffer offset b

/-- The function. -/
inductive Verifies (startOffset : Nat) : Except IoError Bool → Prop
  | exceeds (h : startOffset > data.length) : Verifies startOffset (.error
      { kind := .invalidInput,
        msg := "Start offset " ++ toString startOffset ++ " exceeds file size " ++
          toString data.length })
  | atEnd (h : data.length = startOffset) : Verifies startOffset (.ok true)
  | scanned {b : Bool} (h : startOffset < data.length)
      (scan : Scans data reads 0 (List.replicate READ_CHUNK_SIZE 0) startOffset b) : Verifies
      startOffset (.ok b)

end

variable {data : Bytes} {reads : Nat → Nat}

theorem readAt_length_eq_zero {k offset : Nat} (h : (readAt data reads k offset).length = 0) :
    data.length ≤ offset := by
  rw [readAt, List.length_take, List.length_drop] at h
  have : 0 < min READ_CHUNK_SIZE (max 1 (reads k)) := by
    have : 0 < READ_CHUNK_SIZE := by decide
    omega
  omega

theorem drop_eq_readAt (k offset : Nat) : data.drop offset =
    readAt data reads k offset ++ data.drop (offset + (readAt data reads k offset).length) := by
  rw [← List.drop_drop]
  conv => lhs; rw [← List.take_append_drop (readAt data reads k offset).length (data.drop offset)]
  congr 1
  rw [readAt, List.take_eq_take_iff, List.length_take]
  omega

/-- A turn of the loop judges what it has read, whatever the buffer held before. -/
theorem any_buffer (got buffer : Bytes) :
    ((got ++ buffer.drop got.length).take got.length).any (· ≠ 0) = !got.all (· = 0) := by
  rw [List.take_left, List.not_all_eq_any_not]
  congr 1
  funext b
  simp

/-- **The loop returns** whether all bytes from `start_offset` on are zero. -/
theorem Scans.eq {k offset : Nat} {buffer : Bytes} {b : Bool}
    (h : Scans data reads k buffer offset b) :
    b = (data.drop offset).all (· = 0) := by
  induction h with
  | eof h => rw [List.drop_of_length_le (readAt_length_eq_zero h), List.all_nil]
  | @nonZero k offset buffer got hgot h hany =>
    rw [any_buffer, Bool.not_eq_true'] at hany
    rw [drop_eq_readAt k offset, hgot, List.all_append, hany, Bool.false_and]
  | @zeros k offset buffer got b hgot h hany next ih =>
    rw [any_buffer, Bool.not_eq_true, Bool.not_eq_false'] at hany
    rw [drop_eq_readAt k offset, hgot, List.all_append, hany, Bool.true_and, ih]

/-- **The loop ends** before the fuel does: every turn but the last moves on by a byte. -/
theorem scanZeros_scans (fuel k : Nat) (buffer : Bytes) (offset : Nat)
    (hf : data.length - offset < fuel) :
    Scans data reads k buffer offset (scanZeros data reads fuel k buffer offset) := by
  induction fuel generalizing k buffer offset with
  | zero => omega
  | succ fuel ih =>
    unfold scanZeros
    simp only
    generalize hgot : (data.drop offset).take (min READ_CHUNK_SIZE (max 1 (reads k))) = got
    have hgot : readAt data reads k offset = got := hgot
    split
    · rename_i h
      exact .eof (hgot ▸ h)
    · rename_i h
      have hlen : got.length ≤ data.length - offset := by
        rw [← hgot, readAt, List.length_take, List.length_drop]
        omega
      split
      · rename_i hany
        exact .nonZero hgot h hany
      · rename_i hany
        exact .zeros hgot h hany (ih _ _ _ (by omega))

theorem verifyTrailingZeros_verifies (data : Bytes) (reads : Nat → Nat) (startOffset : Nat) :
    Verifies data reads startOffset (verifyTrailingZeros data reads startOffset) := by
  unfold verifyTrailingZeros
  split
  · rename_i h
    exact .exceeds h
  · split
    · rename_i h
      exact .atEnd h
    · exact .scanned (by omega) (scanZeros_scans _ _ _ _ (by omega))

theorem verifyTrailingZeros_within {n : Nat} (h : n ≤ data.length) :
    verifyTrailingZeros data reads n = .ok ((data.drop n).all (· = 0)) := by
  generalize hr : verifyTrailingZeros data reads n = r
  have hv := hr ▸ verifyTrailingZeros_verifies data reads n
  cases hv with
  | exceeds h' => omega
  | atEnd h' => rw [List.drop_of_length_le (by omega), List.all_nil]
  | scanned _ scan => rw [scan.eq]

/-- **The scan is exact**, for every file, every start and every pattern of short reads: it
ends, it fails just behind the end of the file, and within it tells whether a byte other than
zero is left. -/
theorem verifyTrailingZeros_exact (data : Bytes) (reads : Nat → Nat) (startOffset : Nat) :
    Verifies data reads startOffset (verifyTrailingZeros data reads startOffset) ∧
    ((∃ e, verifyTrailingZeros data reads startOffset = .error e) ↔ startOffset > data.length) ∧
    (verifyTrailingZeros data reads startOffset = .ok true ↔
      startOffset ≤ data.length ∧ ∀ b ∈ data.drop startOffset, b = 0) ∧
    (verifyTrailingZeros data reads startOffset = .ok false ↔
      startOffset ≤ data.length ∧ ∃ b ∈ data.drop startOffset, b ≠ 0) := by
  refine ⟨verifyTrailingZeros_verifies data reads startOffset, ?_⟩
  by_cases h : startOffset ≤ data.length
  · rw [verifyTrailingZeros_within h]
    refine ⟨⟨?_, fun h' => absurd h' (by omega)⟩, ?_, ?_⟩
    · rintro ⟨e, he⟩
      cases he
    · simp [h]
    · simp [h]
  · have he : ∃ e, verifyTrailingZeros data reads startOffset = .error e := ⟨_, if_pos (by omega)⟩
    obtain ⟨e, he⟩ := he
    rw [he]
    simp [h]
    omega

end Wal

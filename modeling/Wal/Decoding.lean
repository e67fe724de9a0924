import Wal.Framing
import Wal.Record

/-!
# Decoding any file

`Decodes off rest xs err`: from offset `off` on, where the file still holds `rest`, the iterator
yields the records `xs` and then stops, at the end of the file or with the error `err` of a decode
that took a number of bytes. It holds of one `xs` and `err` for every file (`splitItems_decodes`,
`Decodes.unique`).

A decoder is `Local` if its result depends only on the bytes it takes. Then a file that is cut
behind its last record decodes to the same records (`Decodes.take`).
-/

namespace Wal

/-- The failure of a decode, and how many bytes it took. -/
abbrev DecodeError := IoError × Nat

inductive Decodes {Rec : Type} [Decode Rec] :
    Nat → Bytes → List (Segment × Rec) → Option DecodeError → Prop
  | done {off} : Decodes off [] [] none
  | fail {off rest e k} (hne : rest ≠ []) (hd : decode (α := Rec) rest = (.error e, k)) :
      Decodes off rest [] (some (e, k))
  | step {off rest r k xs err} (hne : rest ≠ []) (hd : decode rest = (.ok r, k)) (hk : 0 < k)
      (h : Decodes (off + k) (rest.drop k) xs err) :
      Decodes off rest (({ offset := off, size := k }, r) :: xs) err

/-- The error as the iterator reports it. -/
def iterError (chunkId off : Nat) (e : IoError) : IoError :=
  (e.context ("decode Record at offset " ++ toString off)).context
  ("iterate " ++ displayChunkId chunkId)

@[simp] theorem iterError_kind (chunkId off : Nat) (e : IoError) :
    (iterError chunkId off e).kind = e.kind :=
  rfl

section
variable {Rec : Type} [Decode Rec] {off : Nat} {rest : Bytes} {xs : List (Segment × Rec)}
  {err : Option DecodeError}

theorem items_decodes (hprog : ∀ b (r : Rec), (decode b).1 = .ok r → 0 < (decode (α := Rec) b).2) :
    ∀ (fuel : Nat) (it : RecordIterator), it.error = none → it.totalSize = it.data.length →
      it.offset ≤ it.data.length → it.data.length - it.offset < fuel →
      ∃ xs err, Decodes it.offset (it.data.drop it.offset) xs err ∧
        splitItems (it.items Rec fuel) =
          (xs, err.map fun e => iterError it.chunkId (lastEnd it.offset (xs.map (·.1))) e.1)
  | 0, _, _, _, _, hf => absurd hf (by omega)
  | fuel + 1, it, he, ht, ho, hf => by
    unfold RecordIterator.items RecordIterator.next
    simp only [he, Option.isSome_none, Bool.false_eq_true, if_false, ht]
    by_cases hoff : it.offset = it.data.length
    · refine ⟨[], none, ?_, by simp [hoff, splitItems]⟩
      rw [hoff, List.drop_length]
      exact .done
    · have hne : it.data.drop it.offset ≠ [] := by
        rw [ne_eq, List.drop_eq_nil_iff]
        omega
      simp only [if_neg hoff]
      have hle := Decode.consumed_le (α := Rec) (it.data.drop it.offset)
      rw [List.length_drop] at hle
      rcases hd : decode (α := Rec) (it.data.drop it.offset) with ⟨e | r, k⟩
      · exact ⟨[], some (e, k), .fail hne hd, rfl⟩
      · have hpos := hprog (it.data.drop it.offset) r (by rw [hd])
        rw [hd] at hle hpos
        simp only at hle hpos
        obtain ⟨xs, err, hx, hs⟩ :=
          items_decodes hprog fuel { it with offset := it.offset + k } he ht
          (by simp only; omega) (by simp only; omega)
        refine ⟨({ offset := it.offset, size := k }, r) :: xs, err, .step hne hd hpos ?_, ?_⟩
        · rw [List.drop_drop]
          exact hx
        · simp only [splitItems, List.map_cons, lastEnd, Segment.end_mk]
          simp only [he, ht] at hs
          rw [hs]

theorem Decodes.lastEnd_le (h : Decodes off rest xs err) :
    off ≤ lastEnd off (xs.map (·.1)) ∧ lastEnd off (xs.map (·.1)) ≤ off + rest.length := by
  induction h with
  | done => simp [lastEnd]
  | fail => simp [lastEnd]
  | @step off rest r k xs err hne hd hk h ih =>
    have hle := Decode.consumed_le (α := Rec) rest
    rw [hd] at hle
    simp only [List.length_drop] at ih
    simp only [List.map_cons, lastEnd, Segment.end_mk]
    simp only at hle
    omega

theorem Decodes.lastEnd_eq (h : Decodes off rest xs none) :
    lastEnd off (xs.map (·.1)) = off + rest.length := by
  generalize hn : (none : Option DecodeError) = err at h
  induction h with
  | done => simp [lastEnd]
  | fail => cases hn
  | @step off rest r k xs err hne hd hk h ih =>
    have hle := Decode.consumed_le (α := Rec) rest
    rw [hd] at hle
    simp only at hle
    simp only [List.map_cons, lastEnd, Segment.end_mk, ih hn, List.length_drop]
    omega

theorem Decodes.failing {e : IoError} {k : Nat} (h : Decodes off rest xs (some (e, k))) :
    decode (α := Rec) (rest.drop (lastEnd off (xs.map (·.1)) - off)) = (.error e, k) ∧
      lastEnd off (xs.map (·.1)) < off + rest.length := by
  generalize hn : some (e, k) = err at h
  induction h with
  | done => cases hn
  | fail hne hd =>
    cases hn
    have := List.length_pos_of_ne_nil hne
    simp only [List.map_nil, lastEnd, Nat.sub_self, List.drop_zero]
    exact ⟨hd, by omega⟩
  | @step off rest r k' xs err hne hd hk h ih =>
    obtain ⟨h1, h2⟩ := ih hn
    have hle := h.lastEnd_le
    have hle' := Decode.consumed_le (α := Rec) rest
    rw [hd] at hle'
    simp only [List.length_drop] at h2 hle hle'
    simp only [List.map_cons, lastEnd, Segment.end_mk]
    rw [List.drop_drop] at h1
    refine ⟨?_, by omega⟩
    rw [← h1]
    congr 2
    omega

theorem Decodes.unique {ys : List (Segment × Rec)} {err' : Option DecodeError}
    (h : Decodes off rest xs err) (h' : Decodes off rest ys err') : xs = ys ∧ err = err' := by
  induction h generalizing ys err' with
  | done =>
    cases h' with
    | done => exact ⟨rfl, rfl⟩
    | fail hne => exact absurd rfl hne
    | step hne => exact absurd rfl hne
  | fail hne hd =>
    cases h' with
    | done => exact absurd rfl hne
    | fail _ hd' =>
      cases hd.symm.trans hd'
      exact ⟨rfl, rfl⟩
    | step _ hd' => cases hd.symm.trans hd'
  | step hne hd hk h ih =>
    cases h' with
    | done => exact absurd rfl hne
    | fail _ hd' => cases hd.symm.trans hd'
    | step _ hd' _ h' =>
      cases hd.symm.trans hd'
      obtain ⟨rfl, rfl⟩ := ih h'
      exact ⟨rfl, rfl⟩

end

/-! ## Local decoders -/

/-- The result of a decode depends only on the bytes that it takes. -/
class LocalDecode (α : Type) [Decode α] : Prop where
  decode_local : ∀ {b : Bytes} {a : α} {k : Nat}, decode b = (.ok a, k) → ∀ b', b.take k <+: b' →
    decode b' = (.ok a, k)

/-- **A file cut behind its last record** decodes to the same records, and to its end. -/
theorem Decodes.take {Rec : Type} [Decode Rec] [LocalDecode Rec] {off : Nat} {rest : Bytes}
    {xs : List (Segment × Rec)} {err : Option DecodeError} (h : Decodes off rest xs err) :
    Decodes off (rest.take (lastEnd off (xs.map (·.1)) - off)) xs none := by
  induction h with
  | done => simpa [lastEnd] using Decodes.done
  | fail => simpa [lastEnd] using Decodes.done
  | @step off rest r k xs err hne hd hk h ih =>
    have hle := h.lastEnd_le.1
    have hk' := Decode.consumed_le (α := Rec) rest
    rw [hd] at hk'
    simp only at hk'
    simp only [List.map_cons, lastEnd, Segment.end_mk]
    refine .step ?_ (LocalDecode.decode_local hd _ ?_) hk ?_
    · rw [ne_eq, List.take_eq_nil_iff, not_or]
      exact ⟨by omega, hne⟩
    · exact List.take_prefix_take_left (by omega)
    · rw [List.drop_take, show lastEnd (off + k) (xs.map (·.1)) - off - k =
        lastEnd (off + k) (xs.map (·.1)) - (off + k) by omega]
      exact ih

namespace WALRecord

theorem take_eq_of_take_prefix {b b' : Bytes} {n k : Nat} (h : b.take k <+: b') (hn : n ≤ k)
    (hb : n ≤ b.length) : b'.take n = b.take n := by
  obtain ⟨t, rfl⟩ := h
  rw [List.take_append_of_le_length (by simp; omega), List.take_take, Nat.min_eq_left hn]

variable {A C : Type} [Crc32fast] [Encode A] [Decode A] [Decode C]

theorem decode_pos (b : Bytes) (r : WALRecord A C) (h : (decode b).1 = .ok r) :
    0 < (decode (α := WALRecord A C) b).2 := by
  have := decodeRecord_progress (A := A) (C := C) (b := b) h
  exact Nat.lt_of_lt_of_le (by decide) this

theorem splitItems_decodes (data : Bytes) (chunkId : Nat) : ∃ xs err,
    Decodes 0 data (xs : List (Segment × WALRecord A C)) err ∧
      splitItems (loadRecordsIter (WALRecord A C) data chunkId) =
        (xs, err.map fun e => iterError chunkId (lastEnd 0 (xs.map (·.1))) e.1) := by
  obtain ⟨xs, err, h, hs⟩ := items_decodes (decode_pos (A := A) (C := C)) (data.length + 1)
    (RecordIterator.new data data.length chunkId) rfl rfl (Nat.zero_le _)
    (by simp [RecordIterator.new])
  exact ⟨xs, err, h, hs⟩

instance localDecode [LocalDecode A] [LocalDecode C] : LocalDecode (WALRecord A C) where
  decode_local := by
    intro b r k hd b' hp
    show decodeRecord b' = (.ok r, k)
    change decodeRecord b = (.ok r, k) at hd
    have hprog := decodeRecord_progress (A := A) (C := C) (b := b) (r := r) (by rw [hd])
    have hcons := decodeRecord_consumed (A := A) (C := C) b
    rw [hd] at hprog hcons
    simp only at hprog hcons
    have hlen : k ≤ b'.length := by
      have := hp.length_le
      rw [List.length_take] at this
      omega
    have h4 : b'.take 4 = b.take 4 := take_eq_of_take_prefix hp hprog (by omega)
    unfold decodeRecord at hd ⊢
    rw [if_neg (by omega)] at hd ⊢
    simp only [h4] at hd ⊢
    split
    · -- an action
      rename_i ht
      simp only [if_pos ht, decodeAction] at hd ⊢
      rcases ha : decode (α := A) b with ⟨e | a, n⟩
      · rw [ha] at hd
        cases hd
      · rw [ha] at hd
        simp only at hd
        split at hd
        · cases hd
        · rename_i t hta
          split at hd
          · cases hd
          · rename_i hne
            cases hd
            have hb' : decode (α := A) b' = (.ok a, n) :=
              LocalDecode.decode_local ha _ ((List.take_prefix_take_left (by omega)).trans hp)
            simp only [hb', hta, if_neg hne]
    · rename_i ht
      simp only [if_neg ht, decodeCheckpoint] at hd ⊢
      rcases hc : decode (α := C) (b.drop 4) with ⟨e | c, n⟩
      · rw [hc] at hd
        cases hd
      · rw [hc] at hd
        simp only at hd
        split at hd
        · cases hd
        · split at hd
          · rename_i hl hcrc
            cases hd
            have hb' : decode (α := C) (b'.drop 4) = (.ok c, n) := by
              refine LocalDecode.decode_local hc _ ?_
              obtain ⟨t, rfl⟩ := hp
              rw [List.drop_append_of_le_length (by rw [List.length_take]; omega), List.drop_take]
              exact (List.take_prefix_take_left (by omega)).trans (List.prefix_append _ _)
            have hbody : b'.take (4 + n) = b.take (4 + n) :=
              take_eq_of_take_prefix hp (by omega) (by omega)
            have hsum : (b'.drop (4 + n)).take 8 = (b.drop (4 + n)).take 8 := by
              have := take_eq_of_take_prefix hp (Nat.le_refl _) hcons
              rw [List.take_drop, List.take_drop, this]
            simp only [hb', if_neg (show ¬ b'.length < 4 + n + 8 by omega), hsum, hbody,
              if_pos hcrc]
          · cases hd

end WALRecord

end Wal

import Wal.Idempotent
import Wal.Layout

/-!
# Files of encoded records

What an opening reads from a file that holds encoded records and something behind them: these
records, at the places of the layout (`recordsIn_encoded`), and then what the decoder makes of the
rest. `leftover` is that rest for any file that begins like a list of encoded records.
-/

namespace Wal

section
variable {A C : Type} [Crc32fast] [Encode A] [Decode A] [Encode C] [Decode C]
  [WALRecord.LawfulAction A] [LawfulCodec C]

/-- The records of a list with their segments. -/
abbrev spelled (off : Nat) (rs : List (WALRecord A C)) : List (Segment × WALRecord A C) :=
  (segments off rs).zip rs

theorem decodes_encoded {rs : List (WALRecord A C)} (h : ∀ r ∈ rs, Encodes r) {off : Nat}
    {rest : Bytes} {xs : List (Segment × WALRecord A C)} {err : Option DecodeError}
    (hd : Decodes (off + (encAll rs).length) rest xs err) :
    Decodes off (encAll rs ++ rest) (spelled off rs ++ xs) err := by
  induction rs generalizing off with
  | nil => simpa using hd
  | cons r rs ih =>
    have hr := h r List.mem_cons_self
    have hpos := List.length_pos_of_ne_nil (LawfulRecord.enc_ne_nil hr)
    rw [encAll_cons, List.append_assoc]
    refine .step (by simp [LawfulRecord.enc_ne_nil hr]) (LawfulCodec.decode_enc hr _) hpos ?_
    rw [List.drop_left]
    refine ih (fun r hr => h r (List.mem_cons_of_mem _ hr)) ?_
    rw [encAll_cons, List.length_append, ← Nat.add_assoc] at hd
    exact hd

omit [Decode A] [Decode C] [WALRecord.LawfulAction A] [LawfulCodec C] in
theorem placed_spelled (id off : Nat) (rs : List (WALRecord A C)) :
    (spelled off rs).map (placed id) = entriesFrom id (id + off) rs := by
  induction rs generalizing off with
  | nil => rfl
  | cons r rs ih =>
    rw [entriesFrom, Nat.add_assoc]
    exact congrArg (placed id (⟨off, (enc r).length⟩, r) :: ·) (ih _)

omit [Decode A] [Decode C] [WALRecord.LawfulAction A] [LawfulCodec C] in
theorem spelled_eq_nil {off : Nat} {rs : List (WALRecord A C)} : spelled off rs = [] ↔ rs = [] := by
  cases rs <;> simp [segments]

omit [Decode A] [Decode C] [WALRecord.LawfulAction A] [LawfulCodec C] in
theorem lastEnd_spelled (off : Nat) (rs : List (WALRecord A C)) :
    lastEnd off ((spelled off rs).map (·.1)) = off + (encAll rs).length := by
  induction rs generalizing off with
  | nil => rfl
  | cons r rs ih =>
    rw [encAll_cons, List.length_append, ← Nat.add_assoc]
    exact ih _

section
variable {rs : List (WALRecord A C)} (h : ∀ r ∈ rs, Encodes r) (id : Nat)

include h

/-- **A file of complete records** reads as these. -/
theorem recordsIn_encAll : recordsIn A C (encAll rs) id = spelled 0 rs ∧
    failureIn A C (encAll rs) id = none := by
  have : Decodes 0 (encAll rs ++ []) (spelled 0 rs ++ []) none := decodes_encoded h .done
  rw [List.append_nil, List.append_nil] at this
  exact recordsIn_of_decodes this

/-- **A file of complete records with something undecodable behind them.** -/
theorem recordsIn_encoded {rest : Bytes} {e : IoError} {k : Nat} (hne : rest ≠ [])
    (hd : decode (α := WALRecord A C) rest = (.error e, k)) :
    recordsIn A C (encAll rs ++ rest) id = spelled 0 rs ∧
      recordsEnd A C (encAll rs ++ rest) id = (encAll rs).length ∧
      ∃ e', failureIn A C (encAll rs ++ rest) id = some e' ∧ e'.kind = e.kind := by
  have hdec : Decodes 0 (encAll rs ++ rest) (spelled 0 rs ++ []) _ :=
    decodes_encoded h (.fail hne hd)
  rw [List.append_nil] at hdec
  obtain ⟨err, hd', he⟩ := records_decodes A C (encAll rs ++ rest) id
  obtain ⟨h1, rfl⟩ := hd'.unique hdec
  refine ⟨h1, ?_, _, he, rfl⟩
  rw [recordsEnd, h1, lastEnd_spelled, Nat.zero_add]

omit [WALRecord.LawfulAction A] [LawfulCodec C] h in
theorem entriesIn_of {data : Bytes} (hr : recordsIn A C data id = spelled 0 rs) :
    entriesIn A C data id = entriesFrom id id rs := by
  rw [entriesIn, hr, placed_spelled, Nat.add_zero]

end

end

/-! ## What is left behind complete records -/

section
variable {Rec : Type} [Encode Rec]

/-- The rest of the file behind those of the records that it holds completely. -/
def leftover : List Rec → Bytes → Bytes
  | [], b => b
  | r :: rs, b => if enc r <+: b then leftover rs (b.drop (enc r).length) else b

/-- Which records the file holds, and that the next one is not among them. -/
theorem leftover_split : ∀ (rs : List Rec) (b : Bytes), ∃ rs₁ rest, rs = rs₁ ++ rest ∧
    b = encAll rs₁ ++ leftover rs b ∧ ∀ r ∈ rest.head?, ¬ enc r <+: leftover rs b
  | [], b => ⟨[], [], rfl, rfl, by simp⟩
  | r :: rs, b => by
    unfold leftover
    by_cases hp : enc r <+: b
    · obtain ⟨b', rfl⟩ := hp
      rw [if_pos (List.prefix_append _ _), List.drop_left]
      obtain ⟨rs₁, rest, h1, h2, h3⟩ := leftover_split rs b'
      exact ⟨r :: rs₁, rest, by rw [h1, List.cons_append],
        by rw [encAll_cons, List.append_assoc, ← h2], h3⟩
    · rw [if_neg hp]
      exact ⟨[], r :: rs, rfl, rfl, fun r' hr' => by cases hr'; exact hp⟩

end

end Wal

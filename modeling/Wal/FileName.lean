import Wal.Lib.Decimal
import Wal.Num

/-!
# Chunk file names

A chunk file is named after the global offset at which it begins: `r-`, the offset in 20 digits
grouped by threes, and `.wal`. `parse_chunk_file_name` reads such a name back;
`parseChunkFileName_ok_iff` says of which names it makes a number.
-/

namespace Wal

open Lib

/-! ## The names -/

/-- `Config::chunk_file_name`. -/
def chunkFileName (chunkId : Nat) : String := "r-" ++ formatPadU64 chunkId ++ ".wal"

structure InvalidChunkFileName where
  badFileName : String
  reason : String
  deriving DecidableEq, Repr

/-- `str::strip_suffix`. -/
def stripSuffix (s suffix : List Char) : Option (List Char) :=
  if suffix <:+ s then some (s.take (s.length - suffix.length)) else none

/-- `str::strip_prefix`. -/
def stripPrefix (s start : List Char) : Option (List Char) :=
  if start <+: s then some (s.drop start.length) else none

/-- `str::len`, in bytes. -/
def strLen (s : List Char) : Nat := (s.map Char.utf8Size).sum

/-- `str::parse::<u64>` of a text of digits, and what the error displays. -/
def parseU64 (digits : List Char) : Except String Nat :=
  if digits = [] then .error "cannot parse integer from empty string"
  else if ofDigits digits < 2 ^ 64 then .ok (ofDigits digits)
  else .error "number too large to fit in target type"

/-- `Config::parse_chunk_file_name`. -/
def parseChunkFileName (fileName : String) : Except InvalidChunkFileName Nat :=
  match stripSuffix fileName.toList ".wal".toList with
  | none => .error { badFileName := fileName, reason := "has no '.wal' suffix" }
  | some withoutSuffix =>
    match stripPrefix withoutSuffix "r-".toList with
    | none => .error { badFileName := fileName, reason := "has no 'r-' prefix" }
    | some withoutPrefix =>
      if strLen withoutPrefix ≠ 26 then
        .error { badFileName := fileName, reason := "does not have 26 digit after 'r-' prefix" }
      else
        match parseU64 (withoutPrefix.filter Char.isDigit) with
        | .ok n => .ok n
        | .error e => .error { badFileName := fileName, reason := "cannot parse as u64: " ++ e }

/-! ## The printer -/

theorem foldl_groups (cs : List Char) (k len : Nat) (acc : List Char) (hlen : len = k + cs.length) :
    (cs.zipIdx k).foldl (fun acc (c, i) =>
      (if i > 0 ∧ (len - i) % 3 = 0 then acc ++ ['_'] else acc) ++ [c]) acc =
    acc ++ if k > 0 ∧ cs ≠ [] ∧ cs.length % 3 = 0 then '_' :: groups '_' cs else groups '_' cs := by
  induction cs generalizing k acc with
  | nil => simp [groups]
  | cons c cs ih =>
    have hk : len - k = (c :: cs).length := by omega
    rw [List.zipIdx_cons, List.foldl_cons, ih (k + 1) _ (by rw [hlen, List.length_cons]; omega)]
    simp only [hk, groups, Nat.succ_pos, true_and, ne_eq, List.cons_ne_nil,
      not_false_eq_true, gt_iff_lt]
    split <;> simp

/-- What the fold makes of the digits. -/
theorem formatGrouped_eq (n minWidth : Nat) :
    formatGrouped n minWidth = groups '_' (paddedDigits n minWidth) := by
  unfold formatGrouped
  simp only
  rw [foldl_groups _ 0 _ [] (by simp)]
  simp

theorem paddedDigits_digits (n minWidth : Nat) : AllDigits (paddedDigits n minWidth) := by
  intro c hc
  rcases List.mem_append.1 hc with hc | hc
  · rw [List.eq_of_mem_replicate hc]
    rfl
  · exact Nat.isDigit_of_mem_toDigits (by decide) (by decide) hc

theorem ofDigits_paddedDigits (n minWidth : Nat) : ofDigits (paddedDigits n minWidth) = n := by
  rw [ofDigits, paddedDigits, Nat.ofDigitChars_append, Nat.ofDigitChars_replicate_zero,
    Nat.mul_zero, Nat.ofDigitChars_ten_toDigits]

theorem paddedDigits_length {n w : Nat} (hw : 0 < w) (h : n < 10 ^ w) :
    (paddedDigits n w).length = w := by
  have := (Nat.length_toDigits_le_iff (by decide) hw).2 h
  rw [paddedDigits, List.length_append, List.length_replicate]
  omega

/-- Digits are the padded form of their number. -/
theorem paddedDigits_ofDigits {ds : List Char} (hds : AllDigits ds) (hne : ds ≠ []) :
    paddedDigits (ofDigits ds) ds.length = ds :=
  ofDigits_injective (paddedDigits_length (List.length_pos_of_ne_nil hne) (ofDigits_lt hds))
    (paddedDigits_digits _ _) hds (ofDigits_paddedDigits _ _)

theorem lt_pow_twenty {n : Nat} (h : n < 2 ^ 64) : n < 10 ^ 20 := lt_trans h (by norm_num)

/-! ## The parser -/

theorem stripSuffix_eq_some {s suffix m : List Char} :
    stripSuffix s suffix = some m ↔ s = m ++ suffix := by
  unfold stripSuffix
  constructor
  · intro h
    split at h
    · rename_i hs
      obtain ⟨t, rfl⟩ := hs
      rw [List.length_append, Nat.add_sub_cancel, List.take_left] at h
      rw [Option.some.inj h]
    · cases h
  · rintro rfl
    rw [if_pos (List.suffix_append _ _), List.length_append, Nat.add_sub_cancel, List.take_left]

theorem stripPrefix_eq_some {s start m : List Char} :
    stripPrefix s start = some m ↔ s = start ++ m := by
  unfold stripPrefix
  constructor
  · intro h
    split at h
    · rename_i hs
      obtain ⟨t, rfl⟩ := hs
      rw [List.drop_left] at h
      rw [Option.some.inj h]
    · cases h
  · rintro rfl
    rw [if_pos (List.prefix_append _ _), List.drop_left]

theorem parseU64_eq_ok {ds : List Char} {n : Nat} :
    parseU64 ds = .ok n ↔ ds ≠ [] ∧ ofDigits ds = n ∧ n < 2 ^ 64 := by
  unfold parseU64
  constructor
  · intro h
    split at h
    · cases h
    · rename_i hne
      split at h
      · cases h
        exact ⟨hne, rfl, ‹_›⟩
      · cases h
  · rintro ⟨hne, rfl, hn⟩
    rw [if_neg hne, if_pos hn]

/-- **The names that are parsed**: 26 bytes between `r-` and `.wal`, and their digits, wherever they
stand, denote a number of 64 bits. -/
theorem parseChunkFileName_ok_iff {s : String} {n : Nat} : parseChunkFileName s = .ok n ↔
    ∃ m, s.toList = "r-".toList ++ m ++ ".wal".toList ∧ strLen m = 26 ∧ m.filter Char.isDigit ≠ [] ∧
      ofDigits (m.filter Char.isDigit) = n ∧ n < 2 ^ 64 := by
  unfold parseChunkFileName
  constructor
  · intro h
    split at h
    · cases h
    · rename_i m₁ h₁
      split at h
      · cases h
      · rename_i m h₂
        split at h
        · cases h
        · rename_i hlen
          split at h
          · rename_i n' hn
            cases h
            have := parseU64_eq_ok.1 hn
            exact ⟨m, by rw [stripSuffix_eq_some.1 h₁, stripPrefix_eq_some.1 h₂], not_not.1 hlen,
              this⟩
          · cases h
  · rintro ⟨m, hs, hlen, hn⟩
    rw [stripSuffix_eq_some.2 hs]
    simp only
    rw [stripPrefix_eq_some.2 rfl]
    simp only
    rw [if_neg (not_not.2 hlen), parseU64_eq_ok.2 hn]

/-! ## Names and numbers -/

theorem chunkFileName_toList (n : Nat) :
    (chunkFileName n).toList = "r-".toList ++ groups '_' (paddedDigits n 20) ++ ".wal".toList := by
  simp [chunkFileName, formatPadU64, formatGrouped_eq]

theorem strLen_spaced {m : List Char} (h : Spaced '_' Char.isDigit m) : strLen m = m.length := by
  induction m with
  | nil => rfl
  | cons c m ih =>
    obtain ⟨hc, hm⟩ := h
    have : c.utf8Size = 1 := by
      split at hc
      · rw [hc]
        rfl
      · have := Char.isDigit_iff_toNat.1 hc
        rw [Char.utf8Size_eq_one_iff, UInt32.le_iff_toNat_le]
        exact this.2.trans (by decide)
    have ih := ih hm
    rw [strLen] at ih ⊢
    rw [List.map_cons, List.sum_cons, ih, this, List.length_cons, Nat.add_comm]

theorem parseChunkFileName_chunkFileName {n : Nat} (h : n < 2 ^ 64) :
    parseChunkFileName (chunkFileName n) = .ok n := by
  have hds := paddedDigits_digits n 20
  have hlen := paddedDigits_length (by decide) (lt_pow_twenty h)
  have hfilter : (groups '_' (paddedDigits n 20)).filter Char.isDigit = paddedDigits n 20 :=
    filter_groups rfl hds
  refine parseChunkFileName_ok_iff.2 ⟨_, chunkFileName_toList n, ?_, ?_, ?_, h⟩
  · rw [strLen_spaced (spaced_groups hds), groups_length, hlen]
  · rw [hfilter]
    exact List.ne_nil_of_length_pos (by rw [hlen]; decide)
  · rw [hfilter, ofDigits_paddedDigits]

theorem chunkFileName_lt {m n : Nat} (hmn : m < n) (hn : n < 2 ^ 64) :
    chunkFileName m < chunkFileName n := by
  have hm := paddedDigits_length (by decide) (lt_pow_twenty (hmn.trans hn))
  have hn := paddedDigits_length (by decide) (lt_pow_twenty hn)
  have hlt : paddedDigits m 20 < paddedDigits n 20 := by
    refine (ofDigits_lt_iff (hm.trans hn.symm) (paddedDigits_digits _ _)
      (paddedDigits_digits _ _)).1 ?_
    rwa [ofDigits_paddedDigits, ofDigits_paddedDigits]
  rw [String.lt_iff_toList_lt, chunkFileName_toList, chunkFileName_toList]
  have hgroups : groups '_' (paddedDigits m 20) < groups '_' (paddedDigits n 20) :=
    groups_lt (hm.trans hn.symm) hlt
  rw [List.append_assoc, List.append_assoc]
  refine List.append_left_lt (append_right_lt ?_ hgroups _)
  rw [groups_length, groups_length, hm, hn]

theorem chunkFileName_lt_iff {m n : Nat} (hm : m < 2 ^ 64) (hn : n < 2 ^ 64) :
    chunkFileName m < chunkFileName n ↔ m < n := by
  refine ⟨fun h => ?_, fun h => chunkFileName_lt h hn⟩
  by_contra hge
  rcases Nat.lt_or_eq_of_le (Nat.le_of_not_lt hge) with hlt | rfl
  · exact lt_asymm h (chunkFileName_lt hlt hm)
  · exact lt_irrefl _ h

/-- **Names and numbers**: a name is read back as its number, for every number of 64 bits, and files
in the order of their names are in the order of their offsets. -/
theorem chunkFileName_round_trip :
    (∀ n : UInt64, parseChunkFileName (chunkFileName n.toNat) = .ok n.toNat) ∧
    (∀ m n : UInt64, chunkFileName m.toNat < chunkFileName n.toNat ↔ m < n) ∧
    ∀ ids : List UInt64, (ids.map fun i => chunkFileName i.toNat).insertionSort (· ≤ ·) =
      (ids.insertionSort (· ≤ ·)).map fun i => chunkFileName i.toNat := by
  have hlt : ∀ m n : UInt64, chunkFileName m.toNat < chunkFileName n.toNat ↔ m < n := fun m n => by
    rw [chunkFileName_lt_iff m.toNat_lt n.toNat_lt, UInt64.lt_iff_toNat_lt]
  refine ⟨fun n => parseChunkFileName_chunkFileName n.toNat_lt, hlt, fun ids => ?_⟩
  refine (List.map_insertionSort (· ≤ ·) (· ≤ ·) _ ids fun m _ n _ => ?_).symm
  rw [← not_lt (a := chunkFileName n.toNat), hlt, UInt64.not_lt]

end Wal

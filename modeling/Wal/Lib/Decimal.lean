import Mathlib

/-!
# Decimal digits

Lists of decimal digits as numbers: of two lists of one length, the smaller number comes first in
the order of words (`ofDigits_lt_iff`), so no two of them denote the same (`ofDigits_injective`).
`groups` separates a list into groups of three, counted from the right, and `Spaced` tells its
results from all other lists.
-/

namespace Wal.Lib

/-! ## Numbers -/

/-- The digit that a character stands for. -/
def digitOf (c : Char) : Nat := c.toNat - '0'.toNat

/-- The number that a list of digits denotes. -/
def ofDigits (ds : List Char) : Nat := Nat.ofDigitChars 10 ds 0

def AllDigits (ds : List Char) : Prop := ∀ c ∈ ds, c.isDigit = true

theorem AllDigits.cons {c : Char} {ds : List Char} :
    AllDigits (c :: ds) ↔ c.isDigit = true ∧ AllDigits ds :=
  List.forall_mem_cons

theorem AllDigits.filter {l : List Char} : AllDigits (l.filter Char.isDigit) :=
  fun _ hc => (List.mem_filter.1 hc).2

theorem digitOf_lt {c : Char} (h : c.isDigit = true) : digitOf c < 10 := by
  have h := Char.isDigit_iff_toNat.1 h
  simp only [digitOf, Char.reduceToNat] at h ⊢
  omega

theorem digitOf_lt_iff {c d : Char} (hc : c.isDigit = true) : digitOf c < digitOf d ↔ c < d := by
  have hc := Char.isDigit_iff_toNat.1 hc
  rw [Char.lt_def, UInt32.lt_iff_toNat_lt]
  simp only [digitOf, Char.toNat] at hc ⊢
  omega

theorem ofDigits_cons (c : Char) (ds : List Char) :
    ofDigits (c :: ds) = 10 ^ ds.length * digitOf c + ofDigits ds := by
  rw [ofDigits, Nat.ofDigitChars_cons, Nat.ofDigitChars_eq_ofDigitChars_zero, Nat.mul_zero,
    Nat.zero_add]
  rfl

theorem ofDigits_lt {ds : List Char} (h : AllDigits ds) : ofDigits ds < 10 ^ ds.length := by
  induction ds with
  | nil => simp [ofDigits]
  | cons c ds ih =>
    obtain ⟨hc, hds⟩ := AllDigits.cons.1 h
    rw [ofDigits_cons, List.length_cons, Nat.pow_succ]
    calc 10 ^ ds.length * digitOf c + ofDigits ds
        < 10 ^ ds.length * digitOf c + 10 ^ ds.length := Nat.add_lt_add_left (ih hds) _
      _ = 10 ^ ds.length * (digitOf c + 1) := (Nat.mul_succ _ _).symm
      _ ≤ 10 ^ ds.length * 10 := Nat.mul_le_mul_left _ (digitOf_lt hc)

theorem ofDigits_cons_lt {c d : Char} {ds es : List Char} (hlen : ds.length = es.length)
    (hds : AllDigits ds) (hcd : digitOf c < digitOf d) :
    ofDigits (c :: ds) < ofDigits (d :: es) := by
  rw [ofDigits_cons, ofDigits_cons]
  calc 10 ^ ds.length * digitOf c + ofDigits ds
      < 10 ^ ds.length * digitOf c + 10 ^ ds.length := Nat.add_lt_add_left (ofDigits_lt hds) _
    _ = 10 ^ ds.length * (digitOf c + 1) := (Nat.mul_succ _ _).symm
    _ ≤ 10 ^ es.length * digitOf d := hlen ▸ Nat.mul_le_mul_left _ hcd
    _ ≤ 10 ^ es.length * digitOf d + ofDigits es := Nat.le_add_right _ _

/-- **The order of numbers is the order of words**, among digits of one length. -/
theorem ofDigits_lt_iff {ds es : List Char} (hlen : ds.length = es.length) (hds : AllDigits ds)
    (hes : AllDigits es) : ofDigits ds < ofDigits es ↔ ds < es := by
  induction ds generalizing es with
  | nil =>
    obtain rfl : es = [] := List.length_eq_zero_iff.1 hlen.symm
    simp
  | cons c ds ih =>
    rcases es with _ | ⟨d, es⟩
    · cases hlen
    obtain ⟨hc, hds'⟩ := AllDigits.cons.1 hds
    obtain ⟨hd, hes'⟩ := AllDigits.cons.1 hes
    rw [List.length_cons, List.length_cons, Nat.add_right_cancel_iff] at hlen
    rw [List.cons_lt_cons_iff]
    rcases lt_trichotomy c d with h | rfl | h
    · exact iff_of_true (ofDigits_cons_lt hlen hds' ((digitOf_lt_iff hc).2 h)) (.inl h)
    · rw [ofDigits_cons, ofDigits_cons, hlen, Nat.add_lt_add_iff_left, ih hlen hds' hes']
      simp
    · refine iff_of_false
        (Nat.lt_asymm (ofDigits_cons_lt hlen.symm hes' ((digitOf_lt_iff hd).2 h))) ?_
      rintro (h' | ⟨rfl, -⟩)
      · exact lt_asymm h h'
      · exact lt_irrefl _ h

/-- Digits of one length are known by the number that they denote. -/
theorem ofDigits_injective {ds es : List Char} (hlen : ds.length = es.length) (hds : AllDigits ds)
    (hes : AllDigits es) (h : ofDigits ds = ofDigits es) : ds = es := by
  rcases lt_trichotomy ds es with hlt | heq | hlt
  · exact absurd h (Nat.ne_of_lt ((ofDigits_lt_iff hlen hds hes).2 hlt))
  · exact heq
  · exact absurd h.symm (Nat.ne_of_lt ((ofDigits_lt_iff hlen.symm hes hds).2 hlt))

/-! ## Groups of three -/

section
variable {α : Type} {sep : α}

/-- `sep` between groups of three, counted from the right. -/
def groups (sep : α) : List α → List α
  | [] => []
  | c :: cs => c :: if cs ≠ [] ∧ cs.length % 3 = 0 then sep :: groups sep cs else groups sep cs

theorem groups_length (cs : List α) : (groups sep cs).length = cs.length + (cs.length - 1) / 3 := by
  induction cs with
  | nil => simp [groups]
  | cons c cs ih =>
    unfold groups
    split
    · rename_i h
      have := List.length_pos_of_ne_nil h.1
      simp only [List.length_cons, ih]
      omega
    · rename_i h
      have := not_and_or.1 h
      rw [not_not, ← List.length_eq_zero_iff] at this
      simp only [List.length_cons, ih]
      omega

theorem filter_groups {p : α → Bool} (hsep : p sep = false) {cs : List α}
    (h : ∀ c ∈ cs, p c = true) :
    (groups sep cs).filter p = cs := by
  induction cs with
  | nil => rfl
  | cons c cs ih =>
    obtain ⟨hc, hcs⟩ := List.forall_mem_cons.1 h
    unfold groups
    split
    · rw [List.filter_cons_of_pos hc, List.filter_cons_of_neg (by simp [hsep]), ih hcs]
    · rw [List.filter_cons_of_pos hc, ih hcs]

theorem groups_lt [LinearOrder α] {cs ds : List α} (hlen : cs.length = ds.length) (h : cs < ds) :
    groups sep cs < groups sep ds := by
  induction cs generalizing ds with
  | nil =>
    obtain rfl : ds = [] := List.length_eq_zero_iff.1 hlen.symm
    exact absurd h (lt_irrefl _)
  | cons c cs ih =>
    rcases ds with _ | ⟨d, ds⟩
    · cases hlen
    rw [List.length_cons, List.length_cons, Nat.add_right_cancel_iff] at hlen
    have hnil : cs ≠ [] ↔ ds ≠ [] := by rw [← List.length_pos_iff, ← List.length_pos_iff, hlen]
    unfold groups
    rw [List.cons_lt_cons_iff]
    rcases List.cons_lt_cons_iff.1 h with hcd | ⟨rfl, hcs⟩
    · exact .inl hcd
    · refine .inr ⟨rfl, ?_⟩
      simp only [hlen, hnil]
      split
      · exact List.cons_lt_cons_iff.2 (.inr ⟨rfl, ih hlen hcs⟩)
      · exact ih hlen hcs

/-- What follows two different words of one length does not matter. -/
theorem append_right_lt [LinearOrder α] {as bs : List α} (hlen : as.length = bs.length)
    (h : as < bs) (cs : List α) : as ++ cs < bs ++ cs := by
  induction as generalizing bs with
  | nil =>
    obtain rfl : bs = [] := List.length_eq_zero_iff.1 hlen.symm
    exact absurd h (lt_irrefl _)
  | cons a as ih =>
    rcases bs with _ | ⟨b, bs⟩
    · cases hlen
    rw [List.length_cons, List.length_cons, Nat.add_right_cancel_iff] at hlen
    rw [List.cons_append, List.cons_append, List.cons_lt_cons_iff]
    exact (List.cons_lt_cons_iff.1 h).imp_right fun h => ⟨h.1, ih hlen h.2⟩

/-- Every fourth element from the right is a separator, and all others satisfy `p`. -/
def Spaced (sep : α) (p : α → Bool) : List α → Prop
  | [] => True
  | c :: cs => (if cs.length % 4 = 3 then c = sep else p c = true) ∧ Spaced sep p cs

instance Spaced.instDecidable [DecidableEq α] {p : α → Bool} :
    ∀ cs : List α, Decidable (Spaced sep p cs)
  | [] => .isTrue trivial
  | c :: cs =>
    have := Spaced.instDecidable (p := p) cs
    inferInstanceAs
      (Decidable ((if cs.length % 4 = 3 then c = sep else p c = true) ∧ Spaced sep p cs))

variable {p : α → Bool}

theorem spaced_groups {cs : List α} (h : ∀ c ∈ cs, p c = true) : Spaced sep p (groups sep cs) := by
  induction cs with
  | nil => trivial
  | cons c cs ih =>
    obtain ⟨hc, hcs⟩ := List.forall_mem_cons.1 h
    have hlen : (groups sep cs).length = cs.length + (cs.length - 1) / 3 := groups_length cs
    unfold groups
    split
    · rename_i h
      have := List.length_pos_of_ne_nil h.1
      refine ⟨?_, ?_, ih hcs⟩
      · rw [if_neg (by rw [List.length_cons, hlen]; omega)]
        exact hc
      · rw [if_pos (by rw [hlen]; omega)]
    · rename_i h
      have := not_and_or.1 h
      rw [not_not, ← List.length_eq_zero_iff] at this
      refine ⟨?_, ih hcs⟩
      rw [if_neg (by rw [hlen]; omega)]
      exact hc

theorem Spaced.eq_or {cs : List α} (h : Spaced sep p cs) {c : α} (hc : c ∈ cs) :
    c = sep ∨ p c = true := by
  induction cs with
  | nil => cases hc
  | cons d cs ih =>
    obtain ⟨hd, hcs⟩ := h
    rcases List.mem_cons.1 hc with rfl | hc
    · split at hd
      · exact .inl hd
      · exact .inr hd
    · exact ih hcs hc

theorem Spaced.length_filter (hsep : p sep = false) {cs : List α} (h : Spaced sep p cs) :
    (cs.filter p).length = cs.length - cs.length / 4 := by
  induction cs with
  | nil => simp
  | cons c cs ih =>
    obtain ⟨hc, hcs⟩ := h
    split at hc
    · rw [List.filter_cons_of_neg (by simp [hc, hsep]), ih hcs, List.length_cons]
      omega
    · rw [List.filter_cons_of_pos hc, List.length_cons, ih hcs, List.length_cons]
      omega

/-- **A spaced list is grouped**, apart from a separator at its head. -/
theorem Spaced.groups_filter (hsep : p sep = false) {cs : List α} (h : Spaced sep p cs) :
    groups sep (cs.filter p) = if cs.length % 4 = 0 then cs.tail else cs := by
  induction cs with
  | nil => rfl
  | cons c cs ih =>
    obtain ⟨hc, hcs⟩ := h
    have hlen := hcs.length_filter hsep
    have ih := ih hcs
    split at hc
    · rename_i h3
      rw [if_neg (by omega)] at ih
      rw [List.filter_cons_of_neg (by simp [hc, hsep]), ih, List.length_cons, if_pos (by omega),
        List.tail_cons]
    · rename_i h3
      rw [List.filter_cons_of_pos hc, List.length_cons, if_neg (by omega)]
      unfold groups
      congr 1
      rcases cs with _ | ⟨d, cs⟩
      · rfl
      by_cases h0 : (d :: cs).length % 4 = 0
      · -- A separator comes next.
        rw [if_pos h0] at ih
        have hd : d = sep := by
          have hd := hcs.1
          rwa [if_pos (by rw [List.length_cons] at h0; omega)] at hd
        have hpos : 0 < ((d :: cs).filter p).length := by
          rw [hlen]
          simp only [List.length_cons] at h0 ⊢
          omega
        rw [if_pos ⟨List.ne_nil_of_length_pos hpos, by rw [hlen]; omega⟩, ih, hd, List.tail_cons]
      · rw [if_neg h0] at ih
        rw [if_neg (by rw [hlen]; omega), ih]

end

end Wal.Lib

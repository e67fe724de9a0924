import Mathlib

/-!
# Readers with short reads

A reader is asked for up to `n` items and gives back as many of the next ones as it likes. `Faithful
sem` says that `sem r xs` (the reader `r` still has to give `xs`) is kept by every read, and that a
read returns nothing only if nothing is asked for or left. What is read from a faithful reader with
`readExact` does not depend on how the reads were cut (`readExact_ok`, `readExact_short`).

`Chain` reads a buffer and then another reader, `Recording` keeps what was read, and `Counting` how
much.
-/

namespace Wal.Lib

/-- A reader of items of type `β`. -/
class Read (β : outParam Type) (R : Type) where
  read : R → Nat → List β × R

variable {β R : Type} [Read β R]

/-- `sem r xs`: the reader `r` gives back `xs`, in pieces of its own choice. -/
def Faithful (sem : R → List β → Prop) : Prop :=
  ∀ r xs n, sem r xs → ∃ k, k ≤ n ∧ (0 < n → xs ≠ [] → 0 < k) ∧
    (Read.read r n).1 = xs.take k ∧ sem (Read.read r n).2 (xs.drop k)

/-! ## Exact reads -/

/-- The loop of an exact read of `n` more items, behind those in `buf`; every turn of it reads one
at least. -/
def readLoop : Nat → Nat → R → List β → Option (List β) × R
  | 0, n, r, buf => (if n = 0 then some buf else none, r)
  | fuel + 1, n, r, buf =>
    if n = 0 then (some buf, r)
    else
      let (got, r) := Read.read r n
      if got.length = 0 then (none, r) else readLoop fuel (n - got.length) r (buf ++ got)

/-- Reads until there are `n` items, or the reader has no more. -/
def readExact (n : Nat) (r : R) : Option (List β) × R := readLoop n n r []

section
variable {sem : R → List β → Prop} {xs : List β}

theorem readLoop_ok (hf : Faithful sem) :
    ∀ {fuel n : Nat} {r : R} {xs : List β} (buf : List β), n ≤ fuel →
    n ≤ xs.length → sem r xs → ∃ r', readLoop fuel n r buf = (some (buf ++ xs.take n), r') ∧
      sem r' (xs.drop n)
  | 0, n, r, xs, buf, hn, _, h => by
    obtain rfl : n = 0 := by omega
    exact ⟨r, by simp [readLoop], h⟩
  | fuel + 1, n, r, xs, buf, hn, hlen, h => by
    unfold readLoop
    by_cases h0 : n = 0
    · subst h0
      exact ⟨r, by simp, h⟩
    obtain ⟨k, hk, hpos, hgot, hsem⟩ := hf r xs n h
    have hne : xs ≠ [] := by
      intro hnil
      rw [hnil, List.length_nil] at hlen
      omega
    have hkpos := hpos (by omega) hne
    have hgotlen : (Read.read r n).1.length = k := by
      rw [hgot, List.length_take]
      omega
    simp only [if_neg h0, hgotlen, if_neg (Nat.ne_of_gt hkpos)]
    obtain ⟨r', hr', hs'⟩ := readLoop_ok hf (buf ++ (Read.read r n).1) (show n - k ≤ fuel by omega)
      (by rw [List.length_drop]; omega) hsem
    refine ⟨r', ?_, ?_⟩
    · rw [hr', hgot, List.append_assoc, ← List.take_add, Nat.add_sub_cancel' hk]
    · rw [List.drop_drop, Nat.add_sub_cancel' hk] at hs'
      exact hs'

theorem readLoop_short (hf : Faithful sem) :
    ∀ {fuel n : Nat} {r : R} {xs : List β} (buf : List β), n ≤ fuel →
    xs.length < n → sem r xs → (readLoop fuel n r buf).1 = none
  | 0, n, r, xs, buf, hn, hlen, h => by omega
  | fuel + 1, n, r, xs, buf, hn, hlen, h => by
    unfold readLoop
    have h0 : n ≠ 0 := by omega
    obtain ⟨k, hk, hpos, hgot, hsem⟩ := hf r xs n h
    simp only [if_neg h0]
    split
    · rfl
    · rename_i hgotlen
      rw [hgot, List.length_take] at hgotlen ⊢
      have := readLoop_short hf (buf ++ (Read.read r n).1) (show n - min k xs.length ≤ fuel by
        omega)
        (by rw [List.length_drop]; omega) hsem
      rwa [hgot] at this

/-- **An exact read** of what is there. -/
theorem readExact_ok (hf : Faithful sem) {n : Nat} {r : R} (h : sem r xs) (hn : n ≤ xs.length) :
    ∃ r', readExact n r = (some (xs.take n), r') ∧ sem r' (xs.drop n) := by
  obtain ⟨r', h1, h2⟩ := readLoop_ok hf [] (Nat.le_refl n) hn h
  exact ⟨r', h1, h2⟩

/-- **An exact read** of more than is there. -/
theorem readExact_short (hf : Faithful sem) {n : Nat} {r : R} (h : sem r xs) (hn : xs.length < n) :
    ∃ r', readExact n r = (none, r') :=
  ⟨_, Prod.ext (readLoop_short hf [] (Nat.le_refl n) hn h) rfl⟩

end

/-! ## Readers made of readers -/

/-- A buffer, and another reader once a read of the buffer came back empty. -/
structure Chain (β R : Type) where
  first : List β
  doneFirst : Bool
  second : R

namespace Chain

def new (first : List β) (second : R) : Chain β R := { first, doneFirst := false, second }

/-- A read of the second reader. -/
def readSecond (c : Chain β R) (n : Nat) : List β × Chain β R :=
  let (got, second) := Read.read c.second n
  (got, { c with doneFirst := true, second })

instance : Read β (Chain β R) where
  read c n :=
    if c.doneFirst then c.readSecond n
    else
      let got := c.first.take n
      if got.length = 0 ∧ n ≠ 0 then c.readSecond n else (got, { c with first := c.first.drop n })

/-- What is left of the buffer and then `ys`, of which nothing is read before the end of the
buffer. -/
def Sem (sem : R → List β → Prop) (ys : List β) (c : Chain β R) (xs : List β) : Prop :=
  ∃ zs, sem c.second zs ∧ xs = c.first ++ zs ∧ (c.first ≠ [] → c.doneFirst = false ∧ zs = ys)

variable {sem : R → List β → Prop} {ys xs : List β}

theorem faithful (hf : Faithful sem) (ys : List β) : Faithful (Chain.Sem sem ys) := by
  rintro c xs n ⟨zs, hsem, rfl, hfirst⟩
  have hsecond : c.first = [] → ∃ k, k ≤ n ∧ (0 < n → c.first ++ zs ≠ [] → 0 < k) ∧
      (c.readSecond n).1 = (c.first ++ zs).take k ∧
      Chain.Sem sem ys (c.readSecond n).2 ((c.first ++ zs).drop k) := by
    intro hnil
    obtain ⟨k, hk, hpos, hgot, hsem'⟩ := hf c.second zs n hsem
    rw [hnil, List.nil_append]
    exact ⟨k, hk, hpos, hgot, _, hsem', by rw [readSecond, hnil]; rfl, fun hne => absurd hnil hne⟩
  show ∃ k, _ ∧ _ ∧ (ite _ _ _ : List β × Chain β R).1 = _ ∧
    Chain.Sem sem ys (ite _ _ _ : List β × Chain β R).2 _
  by_cases hd : c.doneFirst = true
  · rw [if_pos hd]
    apply hsecond
    by_contra hne
    rw [(hfirst hne).1] at hd
    cases hd
  · rw [if_neg hd]
    simp only
    split
    · rename_i hgot
      apply hsecond
      have hlen := hgot.1
      rw [List.length_take] at hlen
      apply List.eq_nil_of_length_eq_zero
      omega
    · rename_i hgot
      have hle : n ≤ c.first.length ∨ c.first.length < n := Nat.lt_or_ge c.first.length n |>.symm
      refine ⟨min n c.first.length, Nat.min_le_left _ _, fun hn _ => ?_, ?_, zs, hsem, ?_,
        fun hne => ?_⟩
      · rw [List.length_take, not_and_or, not_not] at hgot
        omega
      · rw [List.take_append_of_le_length (Nat.min_le_right _ _), List.take_eq_take_iff]
        omega
      · rw [List.drop_append_of_le_length (Nat.min_le_right _ _)]
        congr 1
        rcases hle with h | h
        · rw [Nat.min_eq_left h]
        · rw [Nat.min_eq_right (Nat.le_of_lt h), List.drop_length,
            List.drop_eq_nil_iff.2 (Nat.le_of_lt h)]
      · refine ⟨by simpa using hd, (hfirst fun hnil => hne ?_).2⟩
        show c.first.drop n = []
        rw [hnil, List.drop_nil]

omit [Read β R] in
theorem sem_new (h : sem r ys) (first : List β) : Chain.Sem sem ys (new first r) (first ++ ys) :=
  ⟨ys, h, rfl, fun _ => ⟨rfl, rfl⟩⟩

omit [Read β R] in
/-- Once less is left than the second reader had, it is the second reader that has it. -/
theorem sem_second {c : Chain β R} (h : Chain.Sem sem ys c xs) (hlen : xs.length ≤ ys.length) :
    sem c.second xs := by
  obtain ⟨zs, hsem, rfl, hfirst⟩ := h
  by_cases hne : c.first = []
  · rw [hne, List.nil_append]
    exact hsem
  · rw [(hfirst hne).2, List.length_append] at hlen
    have := List.length_pos_of_ne_nil hne
    omega

end Chain

/-- A reader that keeps what it has given back. -/
structure Recording (β R : Type) where
  inner : R
  seen : List β

namespace Recording

instance : Read β (Recording β R) where
  read c n :=
    let (got, inner) := Read.read c.inner n
    (got, { inner, seen := c.seen ++ got })

/-- What was given back and what is left make up `all`. -/
def Sem (sem : R → List β → Prop) (all : List β) (c : Recording β R) (xs : List β) : Prop :=
  sem c.inner xs ∧ c.seen ++ xs = all

theorem faithful {sem : R → List β → Prop} (hf : Faithful sem) (all : List β) :
    Faithful (Recording.Sem sem all) := by
  rintro c xs n ⟨hsem, hall⟩
  obtain ⟨k, hk, hpos, hgot, hsem'⟩ := hf c.inner xs n hsem
  refine ⟨k, hk, hpos, hgot, hsem', ?_⟩
  show c.seen ++ (Read.read c.inner n).1 ++ xs.drop k = all
  rw [hgot, List.append_assoc, List.take_append_drop, hall]

end Recording

/-- A reader that counts what it has given back. -/
structure Counting (R : Type) where
  inner : R
  offset : Nat

namespace Counting

instance : Read β (Counting R) where
  read c n :=
    let (got, inner) := Read.read c.inner n
    (got, { inner, offset := c.offset + got.length })

/-- What was given back and what is left are `total` items. -/
def Sem (sem : R → List β → Prop) (total : Nat) (c : Counting R) (xs : List β) : Prop :=
  sem c.inner xs ∧ c.offset + xs.length = total

theorem faithful {sem : R → List β → Prop} (hf : Faithful sem) (total : Nat) :
    Faithful (Counting.Sem sem total) := by
  rintro c xs n ⟨hsem, htotal⟩
  obtain ⟨k, hk, hpos, hgot, hsem'⟩ := hf c.inner xs n hsem
  refine ⟨k, hk, hpos, hgot, hsem', ?_⟩
  show c.offset + (Read.read c.inner n).1.length + (xs.drop k).length = total
  rw [hgot, List.length_take, List.length_drop]
  omega

end Counting

end Wal.Lib

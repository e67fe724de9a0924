import Mathlib

/-!
# Durable logs

What a client may rely on who appends entries to a log and is told that some of them will stay. Now
and then the log comes back as a part of what it was, behind entries that were dismissed, and with
at most one new entry at its end: what is then missing of the promised entries was dismissed before,
and is older than all that came back. `Runs.kept` is what follows for every run.
-/

namespace Wal.Lib

/-- A log as its client sees it: the entries, those that were promised to stay, and those that may
go. -/
structure Durable (E : Type) where
  log : List E
  promised : List E
  dismissed : Set E

namespace Durable

variable {E : Type} {older : E → E → Prop} {mark : E → Prop} {d d' : Durable E}

def empty : Durable E := { log := [], promised := [], dismissed := ∅ }

/-- **The log comes back.** Its new entry is a mark. -/
inductive Recovers (older : E → E → Prop) (mark : E → Prop) (d : Durable E) : Durable E → Prop
  | intro {back part new : List E} (hback : ∀ e ∈ back, e ∈ d.dismissed) (hpart : part <:+: d.log)
      (hnew : new.length ≤ 1 ∧ ∀ e ∈ new, mark e)
      (hkept : ∀ e ∈ d.promised, e ∈ back ++ part ∨
        e ∈ d.dismissed ∧ ∃ first ∈ (back ++ part).head?, older e first) :
      Recovers older mark d { d with log := back ++ part ++ new }

/-- What may happen to the log. -/
inductive Step (older : E → E → Prop) (mark : E → Prop) (d : Durable E) : Durable E → Prop
  | append (e : E) : Step older mark d { d with log := d.log ++ [e] }
  | promise (n : Nat) : Step older mark d { d with promised := d.promised ++ d.log.take n }
  | dismiss (es : Set E) : Step older mark d { d with dismissed := d.dismissed ∪ es }
  | recover {after : Durable E} (h : Recovers older mark d after) : Step older mark d after

/-- Any number of steps. -/
abbrev Runs (older : E → E → Prop) (mark : E → Prop) : Durable E → Durable E → Prop :=
  Relation.ReflTransGen (Step older mark)

/-- What was promised is in the log, or was dismissed and is older. -/
def Kept (older : E → E → Prop) (d : Durable E) : Prop :=
  ∀ e ∈ d.promised, e ∈ d.log ∨ e ∈ d.dismissed ∧ ∃ first ∈ d.log.head?, older e first

theorem Kept.extends {l : List E}
    (h : ∀ e ∈ d.promised, e ∈ l ∨ e ∈ d.dismissed ∧ ∃ first ∈ l.head?, older e first)
    (new : List E) : Kept older { d with log := l ++ new } := by
  intro e he
  refine (h e he).imp (List.mem_append_left _) fun hgone => ?_
  obtain ⟨hd, first, hfirst, hold⟩ := hgone
  exact ⟨hd, first, List.mem_head?_append_of_mem_head? hfirst, hold⟩

theorem Kept.step (h : Kept older d) (hs : Step older mark d d') : Kept older d' := by
  cases hs with
  | append e => exact .extends h [e]
  | promise n =>
    intro e he
    rcases List.mem_append.1 he with he | he
    · exact h e he
    · exact .inl (List.mem_of_mem_take he)
  | dismiss es =>
    intro e he
    refine (h e he).imp_right fun hgone => ?_
    obtain ⟨hd, hold⟩ := hgone
    exact ⟨.inl hd, hold⟩
  | recover hr =>
    cases hr with
    | intro _ _ _ hkept => exact .extends hkept _

/-- **In every run** what was promised stays until it is dismissed. -/
theorem Runs.kept (h : Runs older mark empty d) : Kept older d := by
  induction h with
  | refl => exact fun e he => by cases he
  | tail _ hs ih => exact ih.step hs

end Durable

end Wal.Lib

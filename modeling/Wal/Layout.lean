import Wal.Framing
import Wal.Recover
import Wal.Tape

/-!
# The layout of the log

A `Part` is a chunk as the log sees it: an id and the records in it. The offset table of the chunk,
the bytes of its file and the entries of the log all follow from it.
-/

namespace Wal

/-- A chunk id and the records of that chunk. -/
structure Part (A C : Type) where
  id : Nat
  records : List (WALRecord A C)

variable {A C : Type} [Crc32fast] [Encode A] [Encode C]

/-- The entries of records that lie in a chunk from an offset on. -/
def entriesFrom (chunkId : Nat) : Nat → List (WALRecord A C) → List (LogEntry A C)
  | _, [] => []
  | off, r :: rs =>
    (r, chunkId, { offset := off, size := (enc r).length }) ::
      entriesFrom chunkId (off + (enc r).length) rs

/-- The offset table of records from an offset on. -/
def offsetsFrom : Nat → List (WALRecord A C) → List Nat
  | off, [] => [off]
  | off, r :: rs => off :: offsetsFrom (off + (enc r).length) rs

namespace Part

variable (p : Part A C)

def entries : List (LogEntry A C) := entriesFrom p.id p.id p.records

def offsets : List Nat := offsetsFrom p.id p.records

/-- The chunk as a piece of the tape. -/
def spell : Nat × Bytes := (p.id, encAll p.records)

def end_ : Nat := p.id + (encAll p.records).length

end Part

/-- The entries of the log that chunks amount to. -/
def history (ps : List (Part A C)) : List (LogEntry A C) := ps.flatMap Part.entries

@[simp] theorem history_nil : history ([] : List (Part A C)) = [] := rfl

@[simp] theorem history_cons (p : Part A C) (ps : List (Part A C)) :
    history (p :: ps) = p.entries ++ history ps := rfl

@[simp] theorem history_append (ps qs : List (Part A C)) :
    history (ps ++ qs) = history ps ++ history qs := List.flatMap_append

/-! ## Offset tables -/

section
variable (off : Nat) (rs : List (WALRecord A C))

theorem offsetsFrom_head? : (offsetsFrom off rs).head? = some off := by
  cases rs <;> rfl

theorem offsetsFrom_getLast? : (offsetsFrom off rs).getLast? = some (off + (encAll rs).length) := by
  induction rs generalizing off with
  | nil => rfl
  | cons r rs ih =>
    rw [offsetsFrom, List.getLast?_cons, ih]
    simp [Nat.add_assoc]

theorem offsetsFrom_concat (r : WALRecord A C) : offsetsFrom off (rs ++ [r]) =
    offsetsFrom off rs ++ [off + (encAll rs).length + (enc r).length] := by
  induction rs generalizing off with
  | nil => simp [offsetsFrom]
  | cons r' rs ih => simp [offsetsFrom, ih, Nat.add_assoc]

theorem offsetsFrom_length : (offsetsFrom off rs).length = rs.length + 1 := by
  induction rs generalizing off with
  | nil => rfl
  | cons r rs ih => simp [offsetsFrom, ih]

theorem mem_offsetsFrom {off : Nat} {rs : List (WALRecord A C)} {x : Nat}
    (h : x ∈ offsetsFrom off rs) :
    off ≤ x := by
  induction rs generalizing off with
  | nil =>
    obtain rfl := List.mem_singleton.1 h
    exact Nat.le_refl _
  | cons r rs ih =>
    rcases List.mem_cons.1 h with rfl | h
    · exact Nat.le_refl _
    · exact (Nat.le_add_right _ _).trans (ih h)

theorem offsetsFrom_increasing {rs : List (WALRecord A C)} (h : ∀ r ∈ rs, enc r ≠ []) :
    (offsetsFrom off rs).Pairwise (· < ·) := by
  induction rs generalizing off with
  | nil => simp [offsetsFrom]
  | cons r rs ih =>
    refine List.pairwise_cons.2 ⟨fun x hx => ?_,
      ih _ fun r' hr' => h r' (List.mem_cons_of_mem _ hr')⟩
    have := mem_offsetsFrom hx
    have := List.length_pos_of_ne_nil (h r List.mem_cons_self)
    omega

theorem tableOf_segments (id : Nat) (rs : List (WALRecord A C)) :
    tableOf id (segments 0 rs) = offsetsFrom id rs := by
  have h : ∀ (rs : List (WALRecord A C)) (off : Nat),
      (id + off) :: (segments off rs).map (fun seg => id + seg.end_) =
        offsetsFrom (id + off) rs := by
    intro rs
    induction rs with
    | nil => exact fun _ => rfl
    | cons r rs ih =>
      intro off
      have := ih (off + (enc r).length)
      rw [← Nat.add_assoc] at this
      simp only [segments, List.map_cons, Segment.end_mk, offsetsFrom, ← this, ← Nat.add_assoc]
  exact h rs 0

end

namespace Chunk

variable {c : Chunk} {off : Nat} {rs : List (WALRecord A C)}

theorem globalStart_of (h : c.globalOffsets = offsetsFrom off rs) : c.globalStart = off := by
  have := offsetsFrom_head? off rs
  rw [← h, List.head?_eq_some_head c.nonempty] at this
  exact Option.some.inj this

theorem globalEnd_of (h : c.globalOffsets = offsetsFrom off rs) :
    c.globalEnd = off + (encAll rs).length := by
  have := offsetsFrom_getLast? off rs
  rw [← h, List.getLast?_eq_getLast_of_ne_nil c.nonempty] at this
  exact Option.some.inj this

theorem appendRecordSize_of (h : c.globalOffsets = offsetsFrom off rs) (r : WALRecord A C) :
    (c.appendRecordSize (enc r).length).globalOffsets = offsetsFrom off (rs ++ [r]) := by
  rw [offsetsFrom_concat, ← h, ← globalEnd_of h]
  rfl

theorem recordSegment_of {pre : List Nat} {r : WALRecord A C}
    (h : c.globalOffsets = pre ++ offsetsFrom off (r :: rs)) :
    c.recordSegment pre.length = .ok { offset := off, size := (enc r).length } := by
  have h0 : (offsetsFrom (off + (enc r).length) rs)[0]? = some (off + (enc r).length) := by
    have := offsetsFrom_head? (off + (enc r).length) rs
    rwa [List.head?_eq_getElem?] at this
  have h1 : c.globalOffsets[pre.length]? = some off := by simp [h, offsetsFrom]
  have h2 : c.globalOffsets[pre.length + 1]? = some (off + (enc r).length) := by
    rw [h, List.getElem?_append_right (by omega), Nat.add_sub_cancel_left, offsetsFrom,
      List.getElem?_cons_succ, h0]
  unfold recordSegment
  rw [h1, h2]
  simp

end Chunk

/-! ## Entries -/

/-- The end of an entry in the log. -/
abbrev LogEntry.end_ (e : LogEntry A C) : Nat := e.2.2.end_

section
variable {chunkId off : Nat} {rs ss : List (WALRecord A C)} {e : LogEntry A C}

theorem entriesFrom_append : entriesFrom chunkId off (rs ++ ss) =
    entriesFrom chunkId off rs ++ entriesFrom chunkId (off + (encAll rs).length) ss := by
  induction rs generalizing off with
  | nil => rfl
  | cons r rs ih => simp [entriesFrom, ih, Nat.add_assoc]

theorem mem_entriesFrom (h : e ∈ entriesFrom chunkId off rs) :
    e.1 ∈ rs ∧ e.2.1 = chunkId ∧ off + (enc e.1).length ≤ e.2.2.end_ ∧
      e.2.2.end_ ≤ off + (encAll rs).length := by
  induction rs generalizing off with
  | nil => cases h
  | cons r rs ih =>
    simp only [encAll_cons, List.length_append]
    rcases List.mem_cons.1 h with rfl | h
    · exact ⟨List.mem_cons_self, rfl, Nat.le_refl _, by simp [Segment.end_]⟩
    · obtain ⟨h1, h2, h3, h4⟩ := ih h
      exact ⟨List.mem_cons_of_mem _ h1, h2, by omega, by omega⟩

theorem head_le_of_mem_entriesFrom {r : WALRecord A C} (h : e ∈ entriesFrom chunkId off (r :: rs)) :
    off + (enc r).length ≤ e.2.2.end_ := by
  rcases List.mem_cons.1 h with rfl | h
  · exact Nat.le_refl _
  · have := (mem_entriesFrom h).2.2.1
    omega

end

section
variable {p : Part A C} {ps qs : List (Part A C)} {e : LogEntry A C}

theorem mem_entries (h : e ∈ p.entries) : e.1 ∈ p.records ∧ e.2.1 = p.id ∧
    p.id + (enc e.1).length ≤ e.2.2.end_ ∧ e.2.2.end_ ≤ p.end_ := mem_entriesFrom h

theorem mem_history : e ∈ history ps ↔ ∃ p ∈ ps, e ∈ p.entries := List.mem_flatMap

end

end Wal

import Wal.Chunk

/-!
# Framing

What a file holds that was cut in the middle of a list of encoded records: the encodings of the
first records, and a torn piece of the next one. The iterator finds these records and then a short
read (`splitItems_frame`).
-/

namespace Wal

variable {Rec : Type} [Encode Rec]

/-- A strict prefix of the encoding of the next record, or nothing. -/
def Torn (rest : List Rec) (t : Bytes) : Prop :=
  t = [] ∨ ∃ r rest', rest = r :: rest' ∧ t <+: enc r ∧ t ≠ enc r

theorem Torn.length_lt {r : Rec} {rest : List Rec} {t : Bytes} (h : Torn (r :: rest) t)
    (hr : enc r ≠ []) : t.length < (enc r).length := by
  rcases h with rfl | ⟨r', rest', he, hp, hne⟩
  · exact List.length_pos_of_ne_nil hr
  · obtain ⟨rfl, rfl⟩ := List.cons.inj he
    exact lt_of_le_of_ne hp.length_le fun hl => hne (hp.eq_of_length hl)

/-- **Every cut falls into a record or between two.** -/
theorem exists_frame : ∀ (rs : List Rec) {data : Bytes}, data <+: encAll rs →
    ∃ rs' rest t, rs = rs' ++ rest ∧ data = encAll rs' ++ t ∧ Torn rest t
  | [], data, h => ⟨[], [], [], rfl, by simpa using h, .inl rfl⟩
  | r :: rs, data, h => by
    rw [encAll_cons] at h
    rcases Nat.lt_or_ge data.length (enc r).length with hl | hl
    · have hp : data <+: enc r := List.prefix_of_prefix_length_le h (List.prefix_append _ _) hl.le
      exact ⟨[], r :: rs, data, rfl, rfl, .inr ⟨r, rs, rfl, hp, fun he => by rw [he] at hl; omega⟩⟩
    · obtain ⟨d, rfl⟩ := List.prefix_of_prefix_length_le (List.prefix_append _ _) h hl
      obtain ⟨rs', rest, t, rfl, rfl, ht⟩ :=
        exists_frame rs ((List.prefix_append_right_inj _).1 h)
      exact ⟨r :: rs', rest, t, rfl, by simp, ht⟩

theorem length_le_encAll {rs : List Rec} (h : ∀ r ∈ rs, enc r ≠ []) :
    rs.length ≤ (encAll rs).length := by
  induction rs with
  | nil => simp
  | cons r rs ih =>
    have := List.length_pos_of_ne_nil (h r List.mem_cons_self)
    have := ih fun r hr => h r (List.mem_cons_of_mem _ hr)
    simp only [List.length_cons, encAll_cons, List.length_append]
    omega

/-! ## What the iterator finds -/

/-- The segments of a list of records, from an offset on. -/
def segments : Nat → List Rec → List Segment
  | _, [] => []
  | off, r :: rs => { offset := off, size := (enc r).length } :: segments (off + (enc r).length) rs

@[simp] theorem segments_length (off : Nat) (rs : List Rec) :
    (segments off rs).length = rs.length := by
  induction rs generalizing off with
  | nil => rfl
  | cons r rs ih => simp [segments, ih]

/-- What becomes of the torn piece: nothing, or a short read. -/
def TornError (t : Bytes) (err : Option IoError) : Prop :=
  (t = [] ∧ err = none) ∨ (t ≠ [] ∧ ∃ e, err = some e ∧ e.kind = .unexpectedEof)

section
variable [Decode Rec] [LawfulRecord Rec]

theorem items_frame (chunkId : Nat) (t : Bytes) (rest : List Rec) (hrest : ∀ r ∈ rest, Encodes r)
    (ht : Torn rest t) : ∀ (rs : List Rec) (pre : Bytes) (fuel : Nat), (∀ r ∈ rs, Encodes r) →
      rs.length < fuel → ∃ err, TornError t err ∧
        splitItems (RecordIterator.items Rec fuel
          { data := pre ++ encAll rs ++ t, offset := pre.length,
            totalSize := (pre ++ encAll rs ++ t).length, chunkId, error := none }) =
          ((segments pre.length rs).zip rs, err)
  | _, _, 0, _, hf => absurd hf (by omega)
  | [], pre, fuel + 1, _, _ => by
    rcases ht with rfl | ⟨r, rest', rfl, hp, hne⟩
    · exact ⟨none, .inl ⟨rfl, rfl⟩, by simp [RecordIterator.items, RecordIterator.next, splitItems,
        segments]⟩
    · by_cases hnil : t = []
      · subst hnil
        exact ⟨none, .inl ⟨rfl, rfl⟩,
          by simp [RecordIterator.items, RecordIterator.next, splitItems, segments]⟩
      · obtain ⟨e, he, hk⟩ := LawfulCodec.decode_prefix (hrest r List.mem_cons_self) t hp hne
        have hd : decode (α := Rec) t = (.error e, (decode (α := Rec) t).2) := Prod.ext he rfl
        have hoff : pre.length ≠ (pre ++ encAll ([] : List Rec) ++ t).length := by
          have := List.length_pos_of_ne_nil hnil
          simp
          omega
        have hdrop : (pre ++ encAll ([] : List Rec) ++ t).drop pre.length = t := by simp
        unfold RecordIterator.items RecordIterator.next
        simp only [Option.isSome_none, Bool.false_eq_true, if_false, if_neg hoff, hdrop]
        rw [hd]
        refine ⟨_, .inr ⟨hnil, _, rfl, ?_⟩, rfl⟩
        exact hk
  | r :: rs, pre, fuel + 1, hrs, hf => by
    have hr := hrs r List.mem_cons_self
    have hpos := List.length_pos_of_ne_nil (LawfulRecord.enc_ne_nil hr)
    have hoff : pre.length ≠ (pre ++ encAll (r :: rs) ++ t).length := by
      simp only [List.length_append, encAll_cons]
      omega
    have hdrop : (pre ++ encAll (r :: rs) ++ t).drop pre.length = enc r ++ (encAll rs ++ t) := by
      simp [List.append_assoc]
    have hassoc : pre ++ encAll (r :: rs) ++ t = (pre ++ enc r) ++ encAll rs ++ t := by
      simp [List.append_assoc]
    obtain ⟨err, herr, hih⟩ := items_frame chunkId t rest hrest ht rs (pre ++ enc r) fuel
      (fun r' hr' => hrs r' (List.mem_cons_of_mem _ hr')) (by simp at hf; omega)
    refine ⟨err, herr, ?_⟩
    unfold RecordIterator.items RecordIterator.next
    simp only [Option.isSome_none, Bool.false_eq_true, if_false, if_neg hoff, hdrop,
      LawfulCodec.decode_enc hr, splitItems]
    rw [hassoc, ← List.length_append, hih]
    simp [segments]

/-- **Reading a cut file**: its complete records, and a short read if a record is torn. -/
theorem splitItems_frame {chunkId : Nat} {rs rest : List Rec} {t : Bytes}
    (hrs : ∀ r ∈ rs, Encodes r) (hrest : ∀ r ∈ rest, Encodes r) (ht : Torn rest t) :
    ∃ err, TornError t err ∧
      splitItems (loadRecordsIter Rec (encAll rs ++ t) chunkId) =
        ((segments 0 rs).zip rs, err) := by
  have hlen := length_le_encAll fun r hr => LawfulRecord.enc_ne_nil (hrs r hr)
  have h := items_frame chunkId t rest hrest ht rs [] ((encAll rs ++ t).length + 1) hrs
    (by simp; omega)
  simpa [loadRecordsIter, RecordIterator.new] using h

end

/-! ## Any file -/

/-- Where the last of some segments ends. -/
def lastEnd : Nat → List Segment → Nat
  | off, [] => off
  | _, seg :: segs => lastEnd seg.end_ segs

end Wal

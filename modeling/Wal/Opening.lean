import Wal.Decoding
import Wal.Recover
import Wal.Scanning

/-!
# What an opening does

The functions of `Recover` step by step: how the initial record of a chunk is judged, which trailing
files are removed (`Tidied`), what becomes of a chunk file on the way (`Replayed`), and how the open
chunk comes about (`OpenRun`). `openLocked_run` says that an opening is one of these, over every
directory.
-/

namespace Wal

open OpenM

/-! ## A chunk file -/

section
variable (A C : Type) [Crc32fast] [Encode A] [Decode A] [Decode C] (data : Bytes) (id : Nat)

/-- The records that a file decodes to from its start. -/
def recordsIn : List (Segment × WALRecord A C) :=
  (splitItems (loadRecordsIter (WALRecord A C) data id)).1

/-- Where the last of them ends. -/
def recordsEnd : Nat := lastEnd 0 ((recordsIn A C data id).map (·.1))

/-- The error that ends them. -/
def failureIn : Option IoError := (splitItems (loadRecordsIter (WALRecord A C) data id)).2

/-- Nothing in the file but a torn first record, or zeros. -/
def Blank : Prop :=
  recordsIn A C data id = [] ∧ ∀ e, failureIn A C data id = some e →
    e.kind = .unexpectedEof ∨ data.all (· = 0) = true

/-- The file may be cut behind its last record. -/
def Truncates (config : Config) (allowTruncate : Bool) : Prop :=
  (config.truncateIncompleteRecord && allowTruncate) = true ∧ ∃ e, failureIn A C data id = some e ∧
    (e.kind = .unexpectedEof ∨ (data.drop (recordsEnd A C data id)).all (· = 0) = true)

variable {A C} {data id}

variable (A C data id) in
theorem records_decodes : ∃ err, Decodes 0 data (recordsIn A C data id) err ∧
    failureIn A C data id = err.map fun e => iterError id (recordsEnd A C data id) e.1 := by
  obtain ⟨xs, err, h, hs⟩ := WALRecord.splitItems_decodes (A := A) (C := C) data id
  refine ⟨err, ?_, ?_⟩
  · rw [recordsIn, hs]
    exact h
  · rw [failureIn, recordsEnd, recordsIn, hs]

theorem recordsEnd_le : recordsEnd A C data id ≤ data.length := by
  obtain ⟨err, h, -⟩ := records_decodes A C data id
  have := h.lastEnd_le.2
  rwa [Nat.zero_add] at this

theorem recordsEnd_eq (h : failureIn A C data id = none) :
    recordsEnd A C data id = data.length := by
  obtain ⟨err, hd, he⟩ := records_decodes A C data id
  rw [h] at he
  cases err with
  | some e => cases he
  | none =>
    have := hd.lastEnd_eq
    rwa [Nat.zero_add] at this

end

/-! ## The functions on one file -/

section
variable {A C : Type}

/-- What a visible step does to the state of an opening. -/
def OpenState.note (s : OpenState A C) (g : OpenView A C → OpenView A C) : OpenState A C :=
  { toOpenView := g s.toOpenView, trail := s.trail ++ [g s.toOpenView] }

def OpenState.noteFs (s : OpenState A C) (g : Fs → Fs) : OpenState A C :=
  s.note fun v => { v with fs := g v.fs }

@[simp] theorem OpenState.noteFs_fs (s : OpenState A C) (g : Fs → Fs) : (s.noteFs g).fs = g s.fs :=
  rfl

/-- A file without a first record is removed. -/
def OpenState.removed (s : OpenState A C) (id : Nat) : OpenState A C :=
  (s.noteFs (·.unlink id)).noteFs (·.syncDir)

/-- A file is cut behind its last record. -/
def OpenState.truncated (s : OpenState A C) (id n : Nat) : OpenState A C :=
  (s.noteFs (·.setLen id n)).noteFs (·.syncData id)

theorem getLast_tableOf (id : Nat) (segs : List Segment) :
    (tableOf id segs).getLast (tableOf_ne_nil _ _) = id + lastEnd 0 segs := by
  have h : ∀ (segs : List Segment) (off : Nat),
      ((id + off) :: segs.map fun seg => id + seg.end_).getLast (by simp) =
        id + lastEnd off segs := by
    intro segs
    induction segs with
    | nil => intro off; rfl
    | cons seg segs ih =>
      intro off
      rw [List.map_cons, List.getLast_cons (by simp)]
      exact ih seg.end_
  exact h segs 0

section
variable {s : OpenState A C} {id : Nat}

theorem openChunkFile_of_mem (h : id ∈ s.fs.dir) : openChunkFile id s = .ok () s := by
  simp [openChunkFile, bind, EStateM.bind, get, getThe, MonadStateOf.get, EStateM.get, h, pure,
    EStateM.pure]

theorem openChunkFile_of_not_mem (h : id ∉ s.fs.dir) :
    openChunkFile id s = .error (.io (noSuchFile id)) s := by
  simp [openChunkFile, bind, EStateM.bind, get, getThe, MonadStateOf.get, EStateM.get, h,
    fail, throw, throwThe, MonadExceptOf.throw, EStateM.throw]

end

variable [Crc32fast] [Encode A] [Decode A] [Decode C]

/-- What `next` on a fresh iterator says about the file. -/
def FirstItem (data : Bytes) (id : Nat) : Option (Except IoError (Segment × WALRecord A C)) → Prop
  | none => recordsIn A C data id = [] ∧ failureIn A C data id = none
  | some (.ok _) => recordsIn A C data id ≠ []
  | some (.error e) => recordsIn A C data id = [] ∧ failureIn A C data id = some e

theorem firstItem (data : Bytes) (id : Nat) : FirstItem (A := A) (C := C) data id
    ((RecordIterator.new data data.length id).next (WALRecord A C)).1 := by
  unfold FirstItem recordsIn failureIn loadRecordsIter RecordIterator.items
  rcases (RecordIterator.new data data.length id).next (WALRecord A C) with ⟨_ | _ | _, it⟩ <;>
    simp [splitItems]

section
variable {s : OpenState A C} {id : Nat}

theorem hasCompleteInitialRecord_of_mem (h : id ∈ s.fs.dir) :
    hasCompleteInitialRecord id s =
      match ((RecordIterator.new (s.fs.file id).data (s.fs.file id).data.length id).next
        (WALRecord A C)).1 with
      | none => .ok false s
      | some (.ok _) => .ok true s
      | some (.error e) =>
        if e.kind = .unexpectedEof ∨ (s.fs.file id).data.all (· = 0) = true then .ok false s
        else .error (.io e) s := by
  unfold hasCompleteInitialRecord
  simp only [bind, EStateM.bind, openChunkFile_of_mem h, get, getThe, MonadStateOf.get, EStateM.get]
  generalize ((RecordIterator.new (s.fs.file id).data (s.fs.file id).data.length id).next
    (WALRecord A C)).1 = x
  rcases x with _ | e | rec
  · rfl
  · simp only
    by_cases hk : e.kind = .unexpectedEof
    · rw [if_pos hk, if_pos (Or.inl hk)]
      rfl
    · rw [if_neg hk, verifyTrailingZeros_within (Nat.zero_le _), List.drop_zero]
      by_cases hz : (s.fs.file id).data.all (· = 0) = true
      · rw [if_pos (Or.inr hz)]
        simp [EStateM.bind, lift, hz, pure, EStateM.pure]
      · rw [if_neg (not_or.2 ⟨hk, hz⟩)]
        simp [EStateM.bind, lift, hz, pure, EStateM.pure, fail, throw, throwThe,
          MonadExceptOf.throw, EStateM.throw]
  · rfl

variable (s id) in
/-- **How the first record of a chunk is judged**: the state is not changed. -/
theorem hasCompleteInitialRecord_cases :
    (id ∉ s.fs.dir ∧ hasCompleteInitialRecord id s = .error (.io (noSuchFile id)) s) ∨
    (id ∈ s.fs.dir ∧ recordsIn A C (s.fs.file id).data id ≠ [] ∧
      hasCompleteInitialRecord id s = .ok true s) ∨
    (id ∈ s.fs.dir ∧ Blank A C (s.fs.file id).data id ∧
      hasCompleteInitialRecord id s = .ok false s) ∨
    (id ∈ s.fs.dir ∧ recordsIn A C (s.fs.file id).data id = [] ∧
      ∃ e, hasCompleteInitialRecord id s =
      .error (.io e) s ∧ failureIn A C (s.fs.file id).data id = some e ∧ e.kind ≠ .unexpectedEof ∧
        ¬ (s.fs.file id).data.all (· = 0) = true) := by
  by_cases hm : id ∈ s.fs.dir
  · have hrun := hasCompleteInitialRecord_of_mem hm
    have hfirst := firstItem (A := A) (C := C) (s.fs.file id).data id
    revert hrun hfirst
    generalize ((RecordIterator.new (s.fs.file id).data (s.fs.file id).data.length id).next
      (WALRecord A C)).1 = x
    intro hrun hfirst
    match x with
    | none =>
      refine .inr (.inr (.inl ⟨hm, ⟨hfirst.1, fun e he => ?_⟩, hrun⟩))
      rw [hfirst.2] at he
      cases he
    | some (.ok _) => exact .inr (.inl ⟨hm, hfirst, hrun⟩)
    | some (.error e) =>
      simp only at hrun
      split at hrun
      · rename_i hz
        refine .inr (.inr (.inl ⟨hm, ⟨hfirst.1, fun e' he => ?_⟩, hrun⟩))
        rw [hfirst.2] at he
        cases he
        exact hz
      · rename_i hz
        rw [not_or] at hz
        exact .inr (.inr (.inr ⟨hm, hfirst.1, e, hrun, hfirst.2, hz⟩))
  · refine .inl ⟨hm, ?_⟩
    unfold hasCompleteInitialRecord
    simp only [bind, EStateM.bind, openChunkFile_of_not_mem hm]

end

variable (A C) in
/-- The offset table of a file and its records, as a chunk. -/
def chunkIn (data : Bytes) (id : Nat) (truncated : Option Nat) : Chunk where
  f := id
  globalOffsets := tableOf id ((recordsIn A C data id).map (·.1))
  truncated := truncated
  nonempty := tableOf_ne_nil _ _

/-- The file is read as a chunk: as a whole, or cut behind its last record. -/
inductive Opens (config : Config) (allowTruncate : Bool) (id : Nat) (s : OpenState A C) :
    Option Nat → OpenState A C → Prop
  | whole (hm : id ∈ s.fs.dir) (hf : failureIn A C (s.fs.file id).data id = none) :
      Opens config allowTruncate id s none s
  | cut (hm : id ∈ s.fs.dir) (ht : Truncates A C (s.fs.file id).data id config allowTruncate) :
      Opens config allowTruncate id s (some (s.fs.file id).data.length)
        (s.truncated id (recordsEnd A C (s.fs.file id).data id))

/-- The file is missing, or holds damage. -/
def Unreadable (config : Config) (allowTruncate : Bool) (id : Nat) (s : OpenState A C) : Prop :=
  id ∈ s.fs.dir → ∃ e, failureIn A C (s.fs.file id).data id = some e ∧
    ¬ Truncates A C (s.fs.file id).data id config allowTruncate

theorem handleRecordError_cases {data : Bytes} {id : Nat} {e : IoError} (config : Config)
    (allowTruncate : Bool) (hf : failureIn A C data id = some e) :
    (Truncates A C data id config allowTruncate ∧ handleRecordError e data
      (id + recordsEnd A C data id) id config allowTruncate = .ok true) ∨
    (¬ Truncates A C data id config allowTruncate ∧ handleRecordError e data
      (id + recordsEnd A C data id) id config allowTruncate = .error e) := by
  unfold handleRecordError
  rw [Nat.add_sub_cancel_left, verifyTrailingZeros_within recordsEnd_le]
  by_cases hcan : (config.truncateIncompleteRecord && allowTruncate) = true
  · by_cases hk : e.kind = .unexpectedEof
    · exact .inl ⟨⟨hcan, e, hf, .inl hk⟩, by simp [hcan, hk, pure, Except.pure]⟩
    · by_cases hz : (data.drop (recordsEnd A C data id)).all (· = 0) = true
      · refine .inl ⟨⟨hcan, e, hf, .inr hz⟩, ?_⟩
        simp [hcan, hk, hz, bind, Except.bind, pure, Except.pure]
      · refine .inr ⟨?_, ?_⟩
        · rintro ⟨-, e', he', h⟩
          rw [hf] at he'
          cases he'
          exact h.elim hk hz
        · simp [hcan, hk, hz, bind, Except.bind, throw, throwThe, MonadExceptOf.throw]
  · refine .inr ⟨fun h => hcan h.1, ?_⟩
    by_cases hk : e.kind = .unexpectedEof <;>
      simp [hcan, hk, bind, Except.bind, throw, throwThe, MonadExceptOf.throw]

/-- **How a chunk file is read.** -/
theorem openWithTruncate_cases (config : Config) (allowTruncate : Bool) (id : Nat)
    (s : OpenState A C) :
    (Unreadable config allowTruncate id s ∧
      ∃ e, openWithTruncate (A := A) (C := C) config id allowTruncate s = .error (.io e) s) ∨
    (∃ t s', Opens config allowTruncate id s t s' ∧
      openWithTruncate config id allowTruncate s =
        .ok (chunkIn A C (s.fs.file id).data id t,
          (recordsIn A C (s.fs.file id).data id).map (·.2)) s') := by
  by_cases hm : id ∈ s.fs.dir
  · obtain ⟨xs, err, hs⟩ : ∃ xs err,
        splitItems (loadRecordsIter (WALRecord A C) (s.fs.file id).data id) = (xs, err) :=
          ⟨_, _, rfl⟩
    have hx : recordsIn A C (s.fs.file id).data id = xs := by rw [recordsIn, hs]
    have hf : failureIn A C (s.fs.file id).data id = err := by rw [failureIn, hs]
    have hlast : (tableOf id (xs.map (·.1))).getLast (tableOf_ne_nil _ _) =
        id + recordsEnd A C (s.fs.file id).data id := by
      rw [getLast_tableOf, recordsEnd, hx]
    unfold openWithTruncate
    simp only [bind, EStateM.bind, openChunkFile_of_mem hm, get, getThe, MonadStateOf.get,
      EStateM.get, hs, hlast]
    cases err with
    | none =>
      refine .inr ⟨none, s, .whole hm hf, ?_⟩
      simp only [chunkIn, hx]
      rfl
    | some e =>
      simp only [Nat.add_sub_cancel_left]
      rcases handleRecordError_cases config allowTruncate hf with ⟨ht, hr⟩ | ⟨ht, hr⟩
      · refine .inr ⟨_, _, .cut hm ht, ?_⟩
        rw [hr]
        simp only [chunkIn, hx]
        rfl
      · refine .inl ⟨fun _ => ⟨e, hf, ht⟩, e, ?_⟩
        rw [hr]
        rfl
  · refine .inl ⟨fun h => absurd h hm, noSuchFile id, ?_⟩
    unfold openWithTruncate
    simp only [bind, EStateM.bind, openChunkFile_of_not_mem hm]

/-! ## The trailing files -/

/-- The loop over the files, the newest first. -/
inductive Tidied : List Nat → OpenState A C → Except IoError (List Nat) → OpenState A C → Prop
  | empty {s} : Tidied [] s (.ok []) s
  | complete {id older s} (hm : id ∈ s.fs.dir) (hr : recordsIn A C (s.fs.file id).data id ≠ []) :
      Tidied (id :: older) s (.ok (id :: older)) s
  | stopped {id older s e} (h : id ∈ s.fs.dir → recordsIn A C (s.fs.file id).data id = [] ∧
      ¬ Blank A C (s.fs.file id).data id) : Tidied (id :: older) s (.error e) s
  | removed {id older s r s'} (hm : id ∈ s.fs.dir) (hb : Blank A C (s.fs.file id).data id)
      (h : Tidied older (s.removed id) r s') : Tidied (id :: older) s r s'

/-- The result of a run, an I/O error apart. -/
def resultOf {σ α : Type} : Except IoError α → σ → EStateM.Result Fault σ α
  | .ok a, s => .ok a s
  | .error e, s => .error (.io e) s

theorem removeIncomplete_run : ∀ (ids : List Nat) (s : OpenState A C),
    ∃ r s', Tidied ids s r s' ∧ removeIncomplete ids s = resultOf r s'
  | [], s => ⟨_, _, .empty, rfl⟩
  | id :: older, s => by
    unfold removeIncomplete
    simp only [bind, EStateM.bind]
    rcases hasCompleteInitialRecord_cases s id with
      ⟨hm, h⟩ | ⟨hm, hr, h⟩ | ⟨hm, hb, h⟩ | ⟨hm, hr, e, h, hf, hk, hz⟩ <;> rw [h]
    · exact ⟨.error (noSuchFile id), s, .stopped fun hm' => absurd hm' hm, rfl⟩
    · exact ⟨_, _, .complete hm hr, rfl⟩
    · obtain ⟨r, s', ht, hrun⟩ := removeIncomplete_run older (s.removed id)
      exact ⟨r, s', .removed hm hb ht, hrun⟩
    · refine ⟨.error e, s, .stopped fun _ => ⟨hr, fun hb => ?_⟩, rfl⟩
      exact (hb.2 e hf).elim hk hz

end

/-! ## The replay -/

/-- The state that a machine is in after the records of a log. -/
def StateMachine.run {A C : Type} (sm : StateMachine A C) : sm.State → List (LogEntry A C) →
    Except String sm.State
  | st, [] => .ok st
  | st, e :: es =>
    match sm.apply st e.1 e.2.1 e.2.2 with
    | .error m => .error m
    | .ok st => StateMachine.run sm st es

section
variable {A C : Type} [Crc32fast] [Encode A] [Decode A] [Encode C] [Decode C]

omit [Crc32fast] [Encode A] [Decode A] [Encode C] [Decode C] in
theorem StateMachine.run_append (sm : StateMachine A C) (st : sm.State)
    (es fs : List (LogEntry A C)) :
    sm.run st (es ++ fs) = (sm.run st es).bind fun st => sm.run st fs := by
  induction es generalizing st with
  | nil => rfl
  | cons e es ih =>
    simp only [List.cons_append, StateMachine.run]
    rcases sm.apply st e.1 e.2.1 e.2.2 with m | st'
    · rfl
    · exact ih st'

/-- A decoded record at its place in the log. -/
def placed (chunkId : Nat) (x : Segment × WALRecord A C) : LogEntry A C :=
  (x.2, chunkId, { offset := chunkId + x.1.offset, size := x.1.size })

variable (A C) in
/-- The part of the log that a chunk file holds. -/
def entriesIn (data : Bytes) (id : Nat) : List (LogEntry A C) :=
  (recordsIn A C data id).map (placed id)

omit [Encode C] in
theorem tableOf_increasing {off : Nat} {rest : Bytes} {xs : List (Segment × WALRecord A C)}
    {err : Option DecodeError} (id : Nat) (h : Decodes off rest xs err) :
    ((id + off) :: (xs.map (·.1)).map fun seg => id + seg.end_).Pairwise (· < ·) := by
  induction h with
  | done => simp
  | fail => simp
  | @step off rest r k xs err hne hd hk h ih =>
    refine List.pairwise_cons.2 ⟨fun x hx => ?_, ?_⟩
    · rcases List.mem_cons.1 hx with rfl | hx
      · simp only [Segment.end_mk]
        omega
      · have := (List.pairwise_cons.1 ih).1 x hx
        omega
    · exact ih

variable (sm : StateMachine A C)

omit [Encode C] in
theorem applyRecords_cases {off : Nat} {rest : Bytes} {xs : List (Segment × WALRecord A C)}
    {err : Option DecodeError} (h : Decodes off rest xs err) {id : Nat} {chunk : Chunk} :
    ∀ {pre : List Nat} (_ : chunk.globalOffsets =
        pre ++ (id + off) :: (xs.map (·.1)).map fun seg => id + seg.end_)
      (st : sm.State) (s : OpenState A C),
    (∃ st', sm.run st (xs.map (placed id)) = .ok st' ∧
      applyRecords sm id chunk (xs.map (·.2)) pre.length st s =
        .ok st' { s with applied := s.applied ++ xs.map (placed id) }) ∨
    (∃ m done, sm.run st (xs.map (placed id)) = .error m ∧ done <+: xs.map (placed id) ∧
      applyRecords sm id chunk (xs.map (·.2)) pre.length st s =
        .error (.io (.other m)) { s with applied := s.applied ++ done }) := by
  induction h with
  | done => exact fun _ st s => .inl ⟨st, rfl, by simp [applyRecords, pure, EStateM.pure]⟩
  | fail => exact fun _ st s => .inl ⟨st, rfl, by simp [applyRecords, pure, EStateM.pure]⟩
  | @step off rest r k xs err hne hd hk h ih =>
    intro pre ht st s
    have hseg : chunk.recordSegment pre.length = .ok { offset := id + off, size := k } := by
      unfold Chunk.recordSegment
      rw [ht]
      simp [List.getElem?_append_right, ← Nat.add_assoc]
    have hrest := @ih (pre ++ [id + off]) (by rw [ht]; simp)
    rw [List.length_append, List.length_singleton] at hrest
    have hrun : ∀ st, applyRecords sm id chunk ((({ offset := off, size := k }, r) :: xs).map (·.2))
        pre.length st s =
        match sm.apply st r id { offset := id + off, size := k } with
        | .error e => .error (.io (.other e))
            { s with applied := s.applied ++ [(r, id, { offset := id + off, size := k })] }
        | .ok st => applyRecords sm id chunk (xs.map (·.2)) (pre.length + 1) st
            { s with applied := s.applied ++ [(r, id, { offset := id + off, size := k })] } := by
      intro st
      simp only [List.map_cons, applyRecords, bind, EStateM.bind, hseg, liftFault, pure,
        EStateM.pure, modify, modifyGet, MonadStateOf.modifyGet, EStateM.modifyGet]
      rcases sm.apply st r id { offset := id + off, size := k } with m | st' <;> rfl
    rw [hrun st]
    simp only [List.map_cons, StateMachine.run, placed]
    rcases hap : sm.apply st r id { offset := id + off, size := k } with m | st'
    · exact .inr ⟨m, [(r, id, { offset := id + off, size := k })], rfl, by simp, rfl⟩
    · rcases hrest st' { s with
        applied := s.applied ++ [(r, id, { offset := id + off, size := k })] }
        with ⟨st'', hr, hx⟩ | ⟨m, done, hr, hdone, hx⟩
      · refine .inl ⟨st'', hr, ?_⟩
        simpa [placed] using hx
      · refine .inr ⟨m, (r, id, { offset := id + off, size := k }) :: done, hr, ?_, ?_⟩
        · exact List.cons_prefix_cons.2 ⟨rfl, hdone⟩
        · simpa using hx

section
variable {data : Bytes} {id : Nat} {t : Option Nat}

omit [Encode C] in
theorem chunkIn_globalEnd : (chunkIn A C data id t).globalEnd = id + recordsEnd A C data id :=
  getLast_tableOf id _

variable (A C data id t) in
omit [Encode C] in
theorem chunkIn_increasing : (chunkIn A C data id t).globalOffsets.Pairwise (· < ·) := by
  obtain ⟨err, h, -⟩ := records_decodes A C data id
  exact tableOf_increasing id h

omit [Encode C] in
theorem chunkIn_lastSegment_nil (h : recordsIn A C data id = []) :
    (chunkIn A C data id t).lastSegment = .error (.panic "attempt to subtract with overflow") := by
  simp [Chunk.lastSegment, chunkIn, tableOf, h]

omit [Encode C] in
theorem chunkIn_lastSegment (h : recordsIn A C data id ≠ []) :
    ∃ seg, (chunkIn A C data id t).lastSegment = .ok seg ∧
      seg.end_ = id + recordsEnd A C data id := by
  obtain ⟨seg, hs, he⟩ := Chunk.lastSegment_of_increasing
    (chunkIn_increasing A C data id t) (by
      have := List.length_pos_of_ne_nil h
      simp [Chunk.recordsCount, chunkIn, tableOf, this])
  exact ⟨seg, hs, he.trans chunkIn_globalEnd⟩

end

/-- A chunk is announced as persisted before its records are applied. -/
def OpenState.announced {A C : Type} (s : OpenState A C) (chunk : Chunk) (checkpoint : Option C) :
    OpenState A C :=
  s.note fun v => { v with
    persisted := v.persisted ++ [{
      persisted := { startingOffset := chunk.globalStart, syncedOffset := chunk.globalEnd }
      checkpoint
      durable := (v.fs.file chunk.globalStart).synced }] }

/-- Records are handed to the state machine. -/
def OpenState.applying {A C : Type} (s : OpenState A C) (es : List (LogEntry A C)) :
    OpenState A C :=
  { s with applied := s.applied ++ es }

variable {sm}

/-- What the loop carries on after a chunk. -/
def Replay.next (acc : Replay sm) (data : Bytes) (id : Nat) (t : Option Nat) (state : sm.State) :
    Replay sm where
  closed := insertChunk id
    { state := sm.checkpoint state, chunk := chunkIn A C data id t } acc.closed
  prevEndOffset := some (id + recordsEnd A C data id)
  prevCheckpoint := some (sm.checkpoint state)
  state := state

/-- The chunk begins where the one before it ends. -/
def Replay.Follows (acc : Replay sm) (id : Nat) : Prop :=
  ∀ prevEnd, acc.prevEndOffset = some prevEnd → prevEnd = id

/-- `last_segment` of a chunk without records. -/
def noLastSegment : Fault := .panic "attempt to subtract with overflow"

/-- The replay loop, chunk by chunk. -/
inductive Replayed (config : Config) (tail : Option Nat) : List Nat → Replay sm → OpenState A C →
    Except Fault (Replay sm) → OpenState A C → Prop
  | nil {acc s} : Replayed config tail [] acc s (.ok acc) s
  | stopped {id ids acc s e} (h : acc.Follows id → Unreadable config (some id == tail) id s) :
      Replayed config tail (id :: ids) acc s (.error (.io e)) s
  | refused {id ids acc s t s₁ m done} (hp : acc.Follows id)
      (ho : Opens config (some id == tail) id s t s₁)
      (ha : sm.run acc.state (entriesIn A C (s.fs.file id).data id) = .error m)
      (hd : done <+: entriesIn A C (s.fs.file id).data id) :
      Replayed config tail (id :: ids) acc s (.error (.io (.other m)))
        ((s₁.announced (chunkIn A C (s.fs.file id).data id t) acc.prevCheckpoint).applying done)
  | panicked {id ids acc s t s₁} (hp : acc.Follows id)
      (ho : Opens config (some id == tail) id s t s₁)
      (hr : recordsIn A C (s.fs.file id).data id = []) :
      Replayed config tail (id :: ids) acc s (.error noLastSegment)
        (s₁.announced (chunkIn A C (s.fs.file id).data id t) acc.prevCheckpoint)
  | step {id ids acc s t s₁ st r s'} (hp : acc.Follows id)
      (ho : Opens config (some id == tail) id s t s₁)
      (hr : recordsIn A C (s.fs.file id).data id ≠ [])
      (ha : sm.run acc.state (entriesIn A C (s.fs.file id).data id) = .ok st)
      (h : Replayed config tail ids (acc.next (s.fs.file id).data id t st)
        ((s₁.announced (chunkIn A C (s.fs.file id).data id t) acc.prevCheckpoint).applying
          (entriesIn A C (s.fs.file id).data id)) r s') :
      Replayed config tail (id :: ids) acc s r s'

/-- The result of a run. -/
def resultIn {σ α : Type} : Except Fault α → σ → EStateM.Result Fault σ α
  | .ok a, s => .ok a s
  | .error e, s => .error e s

omit [Encode A] [Encode C] [Decode A] [Decode C] [Crc32fast] in
theorem ensureConsecutiveChunks_cases (acc : Replay sm) (id : Nat) :
    (acc.Follows id ∧ ensureConsecutiveChunks acc.prevEndOffset id = .ok ()) ∨
    (¬ acc.Follows id ∧ ∃ e, ensureConsecutiveChunks acc.prevEndOffset id = .error e) := by
  unfold ensureConsecutiveChunks Replay.Follows
  rcases acc.prevEndOffset with _ | prevEnd
  · exact .inl ⟨fun _ h => (nomatch h), rfl⟩
  · by_cases h : prevEnd = id
    · refine .inl ⟨fun p hp => ?_, by simp [h]⟩
      cases hp
      exact h
    · exact .inr ⟨fun hf => h (hf prevEnd rfl), _, if_pos h⟩

omit [Crc32fast] [Encode A] [Decode A] [Encode C] [Decode C] in
theorem onChunkPersisted_run (chunk : Chunk) (checkpoint : Option C) (s : OpenState A C) :
    onChunkPersisted chunk checkpoint s = .ok () (s.announced chunk checkpoint) := rfl

omit [Encode C] in
theorem replayChunks_run (config : Config) (tail : Option Nat) :
    ∀ (ids : List Nat) (acc : Replay sm) (s : OpenState A C),
      ∃ r s', Replayed config tail ids acc s r s' ∧
        replayChunks sm config tail ids acc s = resultIn r s'
  | [], acc, s => ⟨_, _, .nil, rfl⟩
  | id :: ids, acc, s => by
    unfold replayChunks replayChunk
    simp only [bind, EStateM.bind]
    rcases ensureConsecutiveChunks_cases acc id with ⟨hp, h⟩ | ⟨hp, e, h⟩ <;> rw [h]
    · simp only [lift, pure, EStateM.pure]
      rcases openWithTruncate_cases config (some id == tail) id s with
        ⟨hu, e, h⟩ | ⟨t, s₁, ho, h⟩ <;> rw [h]
      · exact ⟨_, _, .stopped fun _ => hu, rfl⟩
      · obtain ⟨err, hd, -⟩ := records_decodes A C (s.fs.file id).data id
        have htable : (chunkIn A C (s.fs.file id).data id t).globalOffsets = [] ++ (id + 0) ::
            ((recordsIn A C (s.fs.file id).data id).map (·.1)).map fun seg => id + seg.end_ := rfl
        have happ := applyRecords_cases sm hd htable acc.state
          (s₁.announced (chunkIn A C (s.fs.file id).data id t) acc.prevCheckpoint)
        simp only [onChunkPersisted_run]
        rcases happ with ⟨st, hr, hx⟩ | ⟨m, done, hr, hdone, hx⟩ <;>
          simp only [List.length_nil] at hx <;> rw [hx]
        · by_cases hnil : recordsIn A C (s.fs.file id).data id = []
          · simp only [chunkIn_lastSegment_nil hnil]
            refine ⟨_, _, .panicked hp ho hnil, ?_⟩
            simp [hnil, liftFault, throw, throwThe, MonadExceptOf.throw, EStateM.throw, resultIn,
              noLastSegment]
          · obtain ⟨seg, hseg, hend⟩ := chunkIn_lastSegment (t := t) hnil
            obtain ⟨r, s', hrest, hrun⟩ := replayChunks_run config tail ids
              (acc.next (s.fs.file id).data id t st)
              ((s₁.announced (chunkIn A C (s.fs.file id).data id t) acc.prevCheckpoint).applying
                (entriesIn A C (s.fs.file id).data id))
            refine ⟨r, s', .step hp ho hnil hr hrest, ?_⟩
            rw [← hrun]
            simp only [hseg, hend, liftFault, pure, EStateM.pure]
            rfl
        · exact ⟨_, _, .refused hp ho hr hdone, rfl⟩
    · exact ⟨_, _, .stopped fun hf => absurd hf hp, rfl⟩

/-! ## The whole opening -/

/-- `ChunkedWal::new` after the replay. -/
def Replay.start (sm : StateMachine A C) (st : sm.State) : Replay sm :=
  { closed := [], prevEndOffset := none, prevCheckpoint := none, state := st }

/-- A chunk is created for the offset where the last one ends, and its first record written. -/
def OpenState.createdFile {A C : Type} (s : OpenState A C) (id : Nat) : OpenState A C :=
  (s.noteFs (·.createNew id)).noteFs (·.syncDir)

def OpenState.createdWith {A C : Type} (s : OpenState A C) (id : Nat) (rec : WALRecord A C)
    (bs : Bytes) (n : Nat) : OpenState A C :=
  (s.createdFile id).note fun v => { v with
    fs := v.fs.append id bs
    created := [(rec, id, { offset := id, size := n })] }

/-- The open chunk that a new file begins as. -/
def createdChunk (id n : Nat) : OpenChunk :=
  { pendingData := [], chunk := (OpenChunk.fromFile id).chunk.appendRecordSize n }

/-- The record that begins a new chunk. -/
def Replay.head (acc : Replay sm) : WALRecord A C := .checkpoint (sm.checkpoint acc.state)

/-- The id of a new chunk. -/
def Replay.end_ (acc : Replay sm) : Nat := acc.prevEndOffset.getD 0

/-- An opening from beginning to end. -/
inductive OpenRun (config : Config) (st : sm.State) (s : OpenState A C) :
    Except Fault (Opened sm) → OpenState A C → Prop
  | invalid {e} (hv : config.validate = .error e) : OpenRun config st s (.error (.io e)) s
  | untidy {e s'} (hv : config.validate = .ok ())
      (ht : Tidied (loadChunkIds s.fs).reverse s (.error e) s') :
      OpenRun config st s (.error (.io e)) s'
  | failed {kept s₁ f s'} (hv : config.validate = .ok ())
      (ht : Tidied (loadChunkIds s.fs).reverse s (.ok kept) s₁)
      (hr : Replayed config kept.reverse.getLast? kept.reverse (Replay.start sm st) s₁
        (.error f) s') :
      OpenRun config st s (.error f) s'
  | reopened {kept s₁ acc s' o closed} (hv : config.validate = .ok ())
      (ht : Tidied (loadChunkIds s.fs).reverse s (.ok kept) s₁)
      (hr : Replayed config kept.reverse.getLast? kept.reverse (Replay.start sm st) s₁ (.ok acc) s')
      (hl : reopenLastClosed acc.closed = some (o, closed)) :
      OpenRun config st s (.ok (ChunkedWal.new sm config closed o acc.state)) s'
  | blocked {kept s₁ acc s₂ e} (hv : config.validate = .ok ())
      (ht : Tidied (loadChunkIds s.fs).reverse s (.ok kept) s₁)
      (hr : Replayed config kept.reverse.getLast? kept.reverse (Replay.start sm st) s₁ (.ok acc) s₂)
      (hl : reopenLastClosed acc.closed = none) (hm : acc.end_ ∈ s₂.fs.dir) :
      OpenRun config st s (.error (.io e)) s₂
  | unencoded {kept s₁ acc s₂ e} (hv : config.validate = .ok ())
      (ht : Tidied (loadChunkIds s.fs).reverse s (.ok kept) s₁)
      (hr : Replayed config kept.reverse.getLast? kept.reverse (Replay.start sm st) s₁ (.ok acc) s₂)
      (hl : reopenLastClosed acc.closed = none) (hm : acc.end_ ∉ s₂.fs.dir)
      (he : (encode acc.head).2 = .error e) :
      OpenRun config st s (.error (.io e)) (s₂.createdFile acc.end_)
  | created {kept s₁ acc s₂ n} (hv : config.validate = .ok ())
      (ht : Tidied (loadChunkIds s.fs).reverse s (.ok kept) s₁)
      (hr : Replayed config kept.reverse.getLast? kept.reverse (Replay.start sm st) s₁ (.ok acc) s₂)
      (hl : reopenLastClosed acc.closed = none) (hm : acc.end_ ∉ s₂.fs.dir)
      (he : (encode acc.head).2 = .ok n) :
      OpenRun config st s
        (.ok (ChunkedWal.new sm config acc.closed (createdChunk acc.end_ n) acc.state))
        (s₂.createdWith acc.end_ acc.head (enc acc.head) n)

omit [Decode A] [Decode C] in
theorem createWithInitialRecord_cases (id : Nat) (rec : WALRecord A C) (s : OpenState A C) :
    (id ∈ s.fs.dir ∧ createWithInitialRecord id rec s = .error (.io alreadyExists) s) ∨
    (id ∉ s.fs.dir ∧ ∃ e, (encode rec).2 = .error e ∧
      createWithInitialRecord id rec s = .error (.io e) (s.createdFile id)) ∨
    (id ∉ s.fs.dir ∧ ∃ n, (encode rec).2 = .ok n ∧
      createWithInitialRecord id rec s =
        .ok (createdChunk id n) (s.createdWith id rec (enc rec) n)) := by
  unfold createWithInitialRecord createFile
  simp only [bind, EStateM.bind, get, getThe, MonadStateOf.get, EStateM.get]
  by_cases hm : id ∈ s.fs.dir
  · refine .inl ⟨hm, ?_⟩
    simp [hm, fail, throw, throwThe, MonadExceptOf.throw, EStateM.throw, EStateM.bind]
  · refine .inr ?_
    rcases hn : (encode rec).2 with e | n
    · refine .inl ⟨hm, e, rfl, ?_⟩
      simp only [if_neg hm, OpenChunk.appendRecord_error hn, liftFault]
      rfl
    · refine .inr ⟨hm, n, rfl, ?_⟩
      have he : encode rec = (enc rec, .ok n) := Prod.ext rfl hn
      simp only [if_neg hm, OpenChunk.appendRecord, he,
        Chunk.appendRecordSize_lastSegment, liftFault]
      rfl

/-- **An opening, over every directory.** -/
theorem openLocked_run (config : Config) (st : sm.State) (s : OpenState A C) :
    ∃ r s', OpenRun config st s r s' ∧ openLocked sm config st s = resultIn r s' := by
  unfold openLocked removeIncompleteTailChunks
  simp only [bind, EStateM.bind, get, getThe, MonadStateOf.get, EStateM.get]
  rcases hv : config.validate with e | u
  · exact ⟨_, _, .invalid hv, rfl⟩
  obtain ⟨r, s₁, ht, hrun⟩ := removeIncomplete_run (loadChunkIds s.fs).reverse s
  simp only [lift, pure, EStateM.pure, Functor.map, EStateM.map, hrun]
  rcases r with e | kept
  · exact ⟨_, _, .untidy hv ht, rfl⟩
  simp only [resultOf]
  obtain ⟨r, s₂, hr, hrun⟩ := replayChunks_run config kept.reverse.getLast? kept.reverse
    (Replay.start sm st) s₁
  unfold Replay.start at hrun
  rw [hrun]
  rcases r with f | acc
  · exact ⟨_, _, .failed hv ht hr, rfl⟩
  simp only [resultIn]
  rcases hl : reopenLastClosed acc.closed with _ | ⟨o, closed⟩
  · rcases createWithInitialRecord_cases acc.end_ acc.head s₂ with
      ⟨hm, h⟩ | ⟨hm, e, he, h⟩ | ⟨hm, n, he, h⟩ <;> unfold Replay.head Replay.end_ at h <;>
      simp only [EStateM.bind, h]
    · exact ⟨_, _, .blocked hv ht hr hl hm, rfl⟩
    · exact ⟨_, _, .unencoded hv ht hr hl hm he, rfl⟩
    · exact ⟨_, _, .created hv ht hr hl hm he, rfl⟩
  · exact ⟨_, _, .reopened hv ht hr hl, rfl⟩

end

end Wal

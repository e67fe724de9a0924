import Wal.Memory

/-!
# Dumping the log

`dumpRecords` reads every chunk file and changes none: what it hands to `write_record` is, file by
file, the records that decode and then the error that ends them (`dumpRecords_run`).
`dumpRecords_agrees` compares it with an opening of the same directory, which removes files, cuts
one and creates another, and replays the same records in the same order.
-/

namespace Wal

/-- What `write_record` is called with: a chunk, an index in it, and a record or an error. -/
abbrev DumpItem (A C : Type) := Nat × Nat × Except IoError (Segment × WALRecord A C)

section
variable {A C : Type} [Crc32fast] [Encode A] [Decode A] [Decode C] {σ : Type}

variable (A C) in
/-- `Chunk::dump`. -/
def Chunk.dump (fs : Fs) (chunkId : Nat) :
    Except IoError (List (Except IoError (Segment × WALRecord A C))) :=
  if chunkId ∈ fs.dir then .ok (loadRecordsIter (WALRecord A C) (fs.file chunkId).data chunkId)
  else .error (noSuchFile chunkId)

/-- The user's `write_record`, which may change the user's state and fail. -/
abbrev WriteRecord (A C σ : Type) :=
  Nat → Nat → Except IoError (Segment × WALRecord A C) → EStateM IoError σ Unit

/-- The items of one chunk, of which the first has the given index. -/
def dumpItems (writeRecord : WriteRecord A C σ) (chunkId : Nat) :
    List (Except IoError (Segment × WALRecord A C)) → Nat → EStateM IoError σ Unit
  | [], _ => pure ()
  | res :: it, i => do
    writeRecord chunkId i res
    dumpItems writeRecord chunkId it (i + 1)

/-- The loop of `dump_records`. -/
def dumpChunks (fs : Fs) (writeRecord : WriteRecord A C σ) : List Nat → EStateM IoError σ Unit
  | [] => pure ()
  | chunkId :: chunkIds => do
    match Chunk.dump A C fs chunkId with
    | .error e => throw e
    | .ok it => dumpItems writeRecord chunkId it 0
    dumpChunks fs writeRecord chunkIds

/-- `ChunkedWal::dump_records`. -/
def dumpRecords (config : Config) (fs : Fs) (writeRecord : WriteRecord A C σ) :
    EStateM IoError σ Unit := do
  match config.validate with
  | .error e => throw e
  | .ok () => dumpChunks fs writeRecord (loadChunkIds fs)

/-- A `write_record` that keeps everything it gets. -/
def collect : WriteRecord A C (List (DumpItem A C)) :=
  fun chunkId i res => modify (· ++ [(chunkId, i, res)])

/-! ## The items of a file -/

omit [Crc32fast] [Encode A] [Decode A] [Decode C] in
theorem items_of_error {Rec : Type} [Decode Rec] {it : RecordIterator} (h : it.error.isSome = true)
    (fuel : Nat) : it.items Rec fuel = [] := by
  cases fuel with
  | zero => rfl
  | succ fuel => simp [RecordIterator.items, RecordIterator.next, h]

omit [Crc32fast] [Encode A] [Decode A] [Decode C] in
/-- **Records and then at most one error.** -/
theorem items_shape {Rec : Type} [Decode Rec] (fuel : Nat) (it : RecordIterator) :
    it.items Rec fuel = (splitItems (it.items Rec fuel)).1.map .ok ++
      (splitItems (it.items Rec fuel)).2.toList.map .error := by
  induction fuel generalizing it with
  | zero => rfl
  | succ fuel ih =>
    unfold RecordIterator.items
    unfold RecordIterator.next
    by_cases he : it.error.isSome = true
    · simp [he, splitItems]
    by_cases ho : it.offset = it.totalSize
    · simp [he, ho, splitItems]
    simp only [he, ho, if_false, Bool.false_eq_true]
    rcases hd : decode (α := Rec) (it.data.drop it.offset) with ⟨e | r, k⟩
    · simp only [splitItems]
      rw [items_of_error (by rfl)]
      rfl
    · simp only [splitItems, List.map_cons, List.cons_append]
      exact congrArg _ (ih _)

theorem loadRecordsIter_eq (data : Bytes) (id : Nat) :
    loadRecordsIter (WALRecord A C) data id =
      (recordsIn A C data id).map .ok ++ (failureIn A C data id).toList.map .error :=
  items_shape _ _

/-! ## What is dumped -/

variable (A C) in
/-- The items of a chunk file. -/
def dumped (fs : Fs) (id : Nat) : List (DumpItem A C) :=
  (loadRecordsIter (WALRecord A C) (fs.file id).data id).zipIdx.map fun p => (id, p.2, p.1)

omit [Crc32fast] [Encode A] [Decode A] [Decode C] in
theorem dumpItems_collect (id : Nat) (it : List (Except IoError (Segment × WALRecord A C)))
    (i : Nat) (out : List (DumpItem A C)) : dumpItems collect id it i out =
      .ok () (out ++ (it.zipIdx i).map fun p => (id, p.2, p.1)) := by
  induction it generalizing i out with
  | nil => simp [dumpItems, pure, EStateM.pure]
  | cons res it ih =>
    show dumpItems collect id it (i + 1) (out ++ [(id, i, res)]) = _
    rw [ih, List.append_assoc]
    rfl

theorem dumpChunks_collect {fs : Fs} {ids : List Nat} (h : ∀ i ∈ ids, i ∈ fs.dir)
    (out : List (DumpItem A C)) :
    dumpChunks fs collect ids out = .ok () (out ++ ids.flatMap (dumped A C fs)) := by
  induction ids generalizing out with
  | nil => simp [dumpChunks, pure, EStateM.pure]
  | cons id ids ih =>
    have hid := h id List.mem_cons_self
    unfold dumpChunks
    simp only [Chunk.dump, if_pos hid, bind, EStateM.bind, dumpItems_collect]
    rw [ih fun i hi => h i (List.mem_cons_of_mem _ hi), List.append_assoc]
    rfl

/-- **A dump** of a directory whose listed files are there. -/
theorem dumpRecords_run {config : Config} {fs : Fs} (hv : config.validate = .ok ())
    (h : ∀ i ∈ loadChunkIds fs, i ∈ fs.dir) (out : List (DumpItem A C)) :
    dumpRecords config fs collect out =
      .ok () (out ++ (loadChunkIds fs).flatMap (dumped A C fs)) := by
  unfold dumpRecords
  rw [hv]
  exact dumpChunks_collect h out

/-! ## Calls of `apply` -/

/-- What an item is to `apply`: its segment begins where the chunk does. An error is nothing to
it. -/
def DumpItem.call : DumpItem A C → Option (Nat × LogEntry A C)
  | (id, i, .ok x) => some (i, placed id x)
  | (_, _, .error _) => none

/-- Calls of `apply` with their indexes in their chunks, behind the calls `before`. -/
def indexedFrom (before : List (LogEntry A C)) : List (LogEntry A C) → List (Nat × LogEntry A C)
  | [] => []
  | e :: es => ((inChunk e.2.1 before).length, e) :: indexedFrom (before ++ [e]) es

/-- Calls of `apply` with their indexes in their chunks. -/
def indexed (es : List (LogEntry A C)) : List (Nat × LogEntry A C) := indexedFrom [] es

omit [Crc32fast] [Encode A] [Decode A] [Decode C] in
theorem indexedFrom_append (before es fs : List (LogEntry A C)) :
    indexedFrom before (es ++ fs) = indexedFrom before es ++ indexedFrom (before ++ es) fs := by
  induction es generalizing before with
  | nil => simp [indexedFrom]
  | cons e es ih =>
    show _ :: indexedFrom (before ++ [e]) (es ++ fs) = _
    rw [ih, List.append_assoc]
    rfl

omit [Crc32fast] [Encode A] [Decode A] [Decode C] in
theorem indexedFrom_placed (id : Nat) (xs : List (Segment × WALRecord A C))
    (before : List (LogEntry A C)) : indexedFrom before (xs.map (placed id)) =
      (xs.zipIdx (inChunk id before).length).map fun p => (p.2, placed id p.1) := by
  induction xs generalizing before with
  | nil => rfl
  | cons x xs ih =>
    have hlen : (inChunk id (before ++ [placed id x])).length = (inChunk id before).length + 1 := by
      rw [inChunk_append, inChunk_self (show (placed id x).2.1 = id from rfl)]
      simp
    show _ :: indexedFrom (before ++ [placed id x]) (xs.map (placed id)) = _
    rw [ih, hlen]
    rfl

omit [Crc32fast] [Encode A] [Decode A] [Decode C] in
theorem call_of_items (id : Nat) (xs : List (Segment × WALRecord A C)) (err : List IoError)
    (i : Nat) :
    (((xs.map .ok ++ err.map .error : List (Except IoError (Segment × WALRecord A C))).zipIdx i).map
      fun p => (id, p.2, p.1)).filterMap DumpItem.call =
      (xs.zipIdx i).map fun p => (p.2, placed id p.1) := by
  induction xs generalizing i with
  | nil =>
    rw [List.map_nil, List.nil_append, List.zipIdx_nil, List.map_nil, List.filterMap_eq_nil_iff]
    intro x hx
    obtain ⟨⟨item, j⟩, hp, rfl⟩ := List.mem_map.1 hx
    obtain ⟨e, -, rfl⟩ := List.mem_map.1 (List.fst_mem_of_mem_zipIdx hp)
    rfl
  | cons x xs ih =>
    show (i, placed id x) :: _ = _
    rw [List.zipIdx_cons, List.map_cons]
    exact congrArg _ (ih (i + 1))

theorem dumped_calls (fs : Fs) (id : Nat) : (dumped A C fs id).filterMap DumpItem.call =
    (recordsIn A C (fs.file id).data id).zipIdx.map fun p => (p.2, placed id p.1) := by
  unfold dumped
  rw [loadRecordsIter_eq]
  exact call_of_items id _ _ 0

/-- **The calls of a dump** are those of a replay of the same files. -/
theorem dumped_indexed {fs : Fs} {ids : List Nat} (hn : ids.Nodup) {before : List (LogEntry A C)}
    (hb : ∀ i ∈ ids, inChunk i before = []) :
    (ids.flatMap (dumped A C fs)).filterMap DumpItem.call =
      indexedFrom before (ids.flatMap fun i => entriesIn A C (fs.file i).data i) := by
  induction ids generalizing before with
  | nil => rfl
  | cons id ids ih =>
    obtain ⟨hid, hn⟩ := List.nodup_cons.1 hn
    rw [List.flatMap_cons, List.flatMap_cons, List.filterMap_append, indexedFrom_append,
      dumped_calls]
    unfold entriesIn
    rw [indexedFrom_placed, hb id List.mem_cons_self, List.length_nil]
    apply congrArg
    apply ih hn
    intro i hi
    have hne : i ≠ id := fun h => hid (h ▸ hi)
    rw [inChunk_append, hb i (List.mem_cons_of_mem _ hi), List.nil_append]
    have := inChunk_entriesIn (A := A) (C := C) (fs.file id).data id i
    rw [if_neg hne] at this
    exact this

/-- Of a chunk that is listed once, the dump yields its items, and of others none. -/
theorem dumped_filter {fs : Fs} {ids : List Nat} (hn : ids.Nodup) (i : Nat) :
    ((ids.flatMap (dumped A C fs)).filter fun it => it.1 = i) = if i ∈ ids then dumped A C fs i
      else [] := by
  have hmem : ∀ j, ∀ it ∈ dumped A C fs j, it.1 = j := by
    intro j it hit
    obtain ⟨p, -, rfl⟩ := List.mem_map.1 hit
    rfl
  induction ids with
  | nil => rfl
  | cons id ids ih =>
    obtain ⟨hid, hn⟩ := List.nodup_cons.1 hn
    rw [List.flatMap_cons, List.filter_append, ih hn]
    by_cases h : i = id
    · subst h
      rw [if_neg hid, if_pos List.mem_cons_self, List.append_nil]
      apply List.filter_eq_self.2
      exact fun it hit => decide_eq_true (hmem i it hit)
    · have hnone : (dumped A C fs id).filter (fun it => it.1 = i) = [] := by
        apply List.filter_eq_nil_iff.2
        intro it hit
        rw [decide_eq_true_eq, hmem id it hit]
        exact Ne.symm h
      rw [hnone, List.nil_append]
      simp [h]

theorem dumped_shape (fs : Fs) (id : Nat) : (dumped A C fs id).map (·.2.2) =
    (recordsIn A C (fs.file id).data id).map .ok ++
      (failureIn A C (fs.file id).data id).toList.map .error := by
  unfold dumped
  rw [List.map_map, ← loadRecordsIter_eq]
  exact List.zipIdx_map_fst 0 _

end

/-! ## What an opening removes -/

section
variable {A C : Type} [Crc32fast] [Encode A] [Decode A] [Encode C] [Decode C]
    {sm : StateMachine A C}
  {config : Config} {st : sm.State} {s s' : OpenState A C} {o : Opened sm}

/-- **A file with records stays** through an opening that succeeds. -/
theorem OpenRun.keeps (h : OpenRun config st s (.ok o) s') (hs : s.trail = []) {i : Nat}
    (hi : i ∈ s.fs.dir) (hr : recordsIn A C (s.fs.file i).data i ≠ []) :
    ∀ v ∈ s'.trail, i ∈ v.fs.dir := by
  have hreplay : ∀ {k : List Nat} {s₁ : OpenState A C} {acc : Replay sm} {s₂ : OpenState A C},
      Tidied (loadChunkIds s.fs).reverse s (.ok k) s₁ →
      Replayed config k.reverse.getLast? k.reverse (Replay.start sm st) s₁ (.ok acc) s₂ →
      i ∈ s₂.fs.dir ∧ ∀ v ∈ s₂.trail, i ∈ v.fs.dir := by
    intro k s₁ acc s₂ ht hr'
    obtain ⟨removed, c, hsound, hdir⟩ := ht.sound hr'
    obtain ⟨_, htidy, hdir₁, hfile, -⟩ := ht.tidy
    have hkept : i ∈ k.reverse :=
      ((hsound.mem i).1 hi).resolve_right fun hrem => hr (hsound.blank i hrem).1
    have hmem : ∀ j ∈ k.reverse, j ∈ s₁.fs.dir := by
      intro j hj
      rw [hdir₁, List.mem_filter]
      exact ⟨(hsound.mem j).2 (.inl hj), decide_eq_true (htidy.disjoint hj)⟩
    obtain ⟨-, hfs, -⟩ := hsound.reads.replayed hr' (fun j hj => hsound.reads.cut_mem hj) hmem
      fun j _ => by rw [hfile]
    have hi₂ : i ∈ s₂.fs.dir := by
      rw [hfs, Fs.healed_dir]
      exact hmem i hkept
    refine ⟨hi₂, fun v hv => ?_⟩
    rcases hsound.reads.trail hr' (fun j hj => hsound.reads.cut_mem hj) hmem
      (fun j _ => by rw [hfile]) v hv with hv | hv | hv
    · rcases ht.trail v hv with hv | ⟨pre, post, hids, hblank, hvdir, -⟩
      · rw [hs] at hv
        cases hv
      · rw [hvdir, List.mem_filter]
        exact ⟨hi, decide_eq_true fun hp => hr (hblank i hp).1⟩
    · rw [hv.dir]
      exact hmem i hkept
    · rw [hv.dir, Fs.healed_dir]
      exact hmem i hkept
  cases h with
  | reopened hv ht hr' hl => exact (hreplay ht hr').2
  | @created k s₁ acc s₂ n hv ht hr' hl hm he =>
    obtain ⟨hi₂, hpast⟩ := hreplay ht hr'
    have hnew : ∀ j, j ∈ s₂.fs.dir → j ∈ ((s₂.createdFile acc.end_).fs).dir := fun j hj =>
      List.mem_append_left _ hj
    intro v hv
    have hv' : v ∈ s₂.trail ++ [(s₂.noteFs (·.createNew acc.end_)).toOpenView] ++
        [(s₂.createdFile acc.end_).toOpenView] ++
        [(s₂.createdWith acc.end_ acc.head (enc acc.head) n).toOpenView] := hv
    simp only [List.append_assoc, List.mem_append, List.mem_singleton] at hv'
    rcases hv' with hv | rfl | rfl | rfl
    · exact hpast v hv
    · exact hnew i hi₂
    · exact hnew i hi₂
    · exact hnew i hi₂

theorem OpenRun.replays (h : OpenRun config st s (.ok o) s') : config.validate = .ok () ∧
    ∃ kept removed acc c, Sound config st s.fs kept removed acc c ∧
      s'.applied = s.applied ++ kept.flatMap fun i => entriesIn A C (s.fs.file i).data i := by
  cases h with
  | @reopened k s₁ acc _ _ _ hv ht hr =>
    obtain ⟨removed, c, hsound, -⟩ := ht.sound hr
    obtain ⟨-, -, -, -, happ, -⟩ := ht.replayed hr
    exact ⟨hv, k.reverse, removed, acc, c, hsound, happ⟩
  | @created k s₁ acc s₂ n hv ht hr =>
    obtain ⟨removed, c, hsound, -⟩ := ht.sound hr
    obtain ⟨-, -, -, -, happ, -⟩ := ht.replayed hr
    exact ⟨hv, k.reverse, removed, acc, c, hsound, happ⟩

/-! ## The theorem -/

/-- **A dump yields what an opening replays**: of every chunk records and then at most one error;
the records, with their chunks, their indexes and their places in the log, are the calls of `apply`;
and of a chunk that the opening deletes there is no record. -/
theorem dumpRecords_agrees (sm : StateMachine A C) (config : Config) (st : sm.State) (fs : Fs)
    (o : Opened sm) (s' : OpenState A C)
    (h : openLocked sm config st (OpenState.init fs) = .ok o s') :
    ∃ items : List (DumpItem A C), dumpRecords config fs collect [] = .ok () items ∧
      (∀ id, ∃ (oks : List (Segment × WALRecord A C)) (err : Option IoError),
        (items.filter fun it => it.1 = id).map (·.2.2) = oks.map .ok ++ err.toList.map .error) ∧
      items.filterMap DumpItem.call = indexed s'.applied ∧
      ∀ id ∈ fs.dir, ∀ v ∈ s'.trail, id ∉ v.fs.dir →
        ∀ it ∈ items, it.1 = id → it.call = none := by
  obtain ⟨r, s₂, hrun, heq⟩ := @openLocked_run _ _ _ _ _ _ _ sm config st (OpenState.init fs)
  rw [h] at heq
  rcases r with f | o'
  · cases heq
  cases heq
  obtain ⟨hv, kept, removed, acc, c, hsound, happ⟩ := hrun.replays
  have hlisted : loadChunkIds fs = kept ++ removed := hsound.tidy.listed
  have hnodup : (kept ++ removed).Nodup := hsound.increasing.imp Nat.ne_of_lt
  have hmem : ∀ i ∈ loadChunkIds fs, i ∈ fs.dir := by
    intro i hi
    rw [hlisted, List.mem_append] at hi
    exact (hsound.mem i).2 hi
  have hblank : ∀ i ∈ removed, entriesIn A C (fs.file i).data i = [] := by
    intro i hi
    have hnil : recordsIn A C (fs.file i).data i = [] := (hsound.blank i hi).1
    rw [entriesIn, hnil]
    rfl
  have happ : s'.applied = (kept ++ removed).flatMap fun i => entriesIn A C (fs.file i).data i := by
    rw [List.flatMap_append, List.flatMap_eq_nil_iff.2 hblank, List.append_nil]
    exact happ
  refine ⟨_, dumpRecords_run hv hmem [], fun id => ?_, ?_, fun id hid v hv hn it hit hi => ?_⟩
  · rw [List.nil_append, hlisted, dumped_filter hnodup]
    split
    · exact ⟨_, _, dumped_shape fs id⟩
    · exact ⟨[], none, rfl⟩
  · rw [List.nil_append, hlisted, happ]
    exact dumped_indexed hnodup fun _ _ => rfl
  · rw [List.nil_append] at hit
    obtain ⟨j, -, hit⟩ := List.mem_flatMap.1 hit
    obtain rfl : j = id := by
      rw [← hi]
      obtain ⟨p, -, rfl⟩ := List.mem_map.1 hit
      rfl
    by_contra hcall
    obtain ⟨call, hcall⟩ := Option.ne_none_iff_exists'.1 hcall
    have hin : call ∈ (dumped A C fs j).filterMap DumpItem.call :=
      List.mem_filterMap.2 ⟨it, hit, hcall⟩
    rw [dumped_calls] at hin
    apply hn
    apply hrun.keeps rfl hid _ v hv
    intro hnil
    change recordsIn A C (fs.file j).data j = [] at hnil
    rw [hnil] at hin
    cases hin

end

namespace Register

/-- The first file of `tornDir` ends in a torn record, and the other holds nothing but a part of
one. -/
theorem dumpRecords_agrees_torn : ∃ o s' items,
    openLocked machine config { value := 0 } (OpenState.init tornDir) = .ok o s' ∧
    dumpRecords config tornDir collect [] = .ok () items ∧
    items.filterMap DumpItem.call = indexed s'.applied := by
  have hok : (match openLocked machine config { value := 0 } (OpenState.init tornDir) with
    | .ok _ _ => true
    | .error _ _ => false) = true := by decide +kernel
  rcases hrun : openLocked machine config { value := 0 } (OpenState.init tornDir) with ⟨o, s'⟩ | ⟨e,
    s'⟩
  · obtain ⟨items, h1, -, h2, -⟩ :=
      dumpRecords_agrees machine config { value := 0 } tornDir o s' hrun
    exact ⟨o, s', items, rfl, h1, h2⟩
  · rw [hrun] at hok
    cases hok

end Register

end Wal

import Wal.Preserving

/-!
# Openings that panic

Offsets are `u64`: an opening adds chunk ids, which are read from file names, and sizes, and a sum
from `2 ^ 64` on is a panic. The functions of `Recover` are repeated here with their additions
checked (`U64`). `openLockedU64_returns` says over which directories an opening does not panic: the
replay comes to no chunk whose records end beyond `2 ^ 64` and to no empty file, and the initial
record of the new chunk fits. There it does what `openLocked` does (`openLockedU64_eq`).
-/

namespace Wal

open OpenM

def U64_LIMIT : Nat := 2 ^ 64

def addOverflow : Fault := .panic "attempt to add with overflow"

/-- The sum of two `u64`. -/
def addU64 (a b : Nat) : Except Fault Nat :=
  if a + b < U64_LIMIT then .ok (a + b) else .error addOverflow

/-- `record_offsets.push(chunk_id.offset() + seg.end().0)` for each segment. -/
def pushOffsets (chunkId : Nat) : List Segment → Except Fault (List Nat)
  | [] => .ok []
  | seg :: segs =>
    match addU64 chunkId seg.end_ with
    | .error e => .error e
    | .ok x => match pushOffsets chunkId segs with
      | .error e => .error e
      | .ok xs => .ok (x :: xs)

section
variable {A C : Type} [Crc32fast] [Encode A] [Decode A] [Decode C]

/-- `Chunk::open_with_truncate`: the offsets are pushed before an error is handled. -/
def openWithTruncateU64 (config : Config) (chunkId : Nat) (allowTruncate : Bool) :
    OpenM A C (Chunk × List (WALRecord A C)) := do
  openChunkFile chunkId
  let data := ((← get).fs.file chunkId).data
  let (items, _) := splitItems (loadRecordsIter (WALRecord A C) data chunkId)
  let _ ← liftFault (pushOffsets chunkId (items.map (·.1)))
  openWithTruncate config chunkId allowTruncate

end

section
variable {A C : Type} [Crc32fast] [Encode A] [Decode A] [Encode C] [Decode C]

/-- `OpenChunk::create_with_initial_record`: `append_record_size` adds the size of the record. -/
def createWithInitialRecordU64 (id : Nat) (initialRecord : WALRecord A C) :
    OpenM A C OpenChunk := do
  createFile id
  let size ← liftFault (match (encode initialRecord).2 with
    | .error e => .error (.io e)
    | .ok size => .ok size)
  let _ ← liftFault (addU64 id size)
  let (res, o) := (OpenChunk.fromFile id).appendRecord initialRecord
  let seg ← liftFault res
  record fun v => { v with
    fs := v.fs.append id o.pendingData
    created := [(initialRecord, id, seg)] }
  return { o with pendingData := [] }

variable (sm : StateMachine A C)

/-- The body of the replay loop. -/
def replayChunkU64 (config : Config) (tailChunkId : Option Nat) (chunkId : Nat) (acc : Replay sm) :
    OpenM A C (Replay sm) := do
  lift (ensureConsecutiveChunks acc.prevEndOffset chunkId)
  let (chunk, records) ← openWithTruncateU64 config chunkId (some chunkId == tailChunkId)
  onChunkPersisted chunk acc.prevCheckpoint
  let state ← applyRecords sm chunkId chunk records 0 acc.state
  let seg ← liftFault chunk.lastSegment
  let checkpoint := sm.checkpoint state
  return { closed := insertChunk chunkId { state := checkpoint, chunk } acc.closed,
           prevEndOffset := some seg.end_, prevCheckpoint := some checkpoint, state }

def replayChunksU64 (config : Config) (tailChunkId : Option Nat) :
    List Nat → Replay sm → OpenM A C (Replay sm)
  | [], acc => pure acc
  | chunkId :: ids, acc => do
    let acc ← replayChunkU64 sm config tailChunkId chunkId acc
    replayChunksU64 config tailChunkId ids acc

/-- `ChunkedWal::open_locked`. -/
def openLockedU64 (config : Config) (state : sm.State) : OpenM A C (Opened sm) := do
  lift config.validate
  let chunkIds := loadChunkIds (← get).fs
  let chunkIds ← removeIncompleteTailChunks chunkIds
  let acc ← replayChunksU64 sm config chunkIds.getLast? chunkIds
    { closed := [], prevEndOffset := none, prevCheckpoint := none, state }
  match reopenLastClosed acc.closed with
  | some (o, closed) => return ChunkedWal.new sm config closed o acc.state
  | none =>
    let o ← createWithInitialRecordU64 (acc.prevEndOffset.getD 0)
      (.checkpoint (sm.checkpoint acc.state))
    return ChunkedWal.new sm config acc.closed o acc.state

end

/-! ## One chunk -/

section
variable (A C : Type) [Crc32fast] [Encode A] [Decode A] [Decode C]

/-- The records of the file end beyond the largest offset. -/
def Overflows (data : Bytes) (id : Nat) : Prop :=
  recordsIn A C data id ≠ [] ∧ U64_LIMIT ≤ id + recordsEnd A C data id

variable {A C}

theorem pushOffsets_cases {off : Nat} {rest : Bytes} {xs : List (Segment × WALRecord A C)}
    {err : Option DecodeError} (id : Nat) (h : Decodes off rest xs err) :
    ((xs ≠ [] ∧ U64_LIMIT ≤ id + lastEnd off (xs.map (·.1))) ∧
      pushOffsets id (xs.map (·.1)) = .error addOverflow) ∨
    (¬ (xs ≠ [] ∧ U64_LIMIT ≤ id + lastEnd off (xs.map (·.1))) ∧
      ∃ ys, pushOffsets id (xs.map (·.1)) = .ok ys) := by
  induction h with
  | done => exact .inr ⟨fun h => h.1 rfl, [], rfl⟩
  | fail => exact .inr ⟨fun h => h.1 rfl, [], rfl⟩
  | @step off rest r k xs err hne hd hk h ih =>
    have hle := h.lastEnd_le.1
    have hend : lastEnd off ((({ offset := off, size := k }, r) :: xs).map (·.1)) =
        lastEnd (off + k) (xs.map (·.1)) := rfl
    rw [hend]
    simp only [List.map_cons, pushOffsets, Segment.end_mk]
    by_cases hlt : id + (off + k) < U64_LIMIT
    · rw [addU64, if_pos hlt]
      rcases ih with ⟨⟨-, hov⟩, hp⟩ | ⟨hov, ys, hp⟩
      · exact .inl ⟨⟨List.cons_ne_nil _ _, hov⟩, by rw [hp]⟩
      · refine .inr ⟨fun hcon => ?_, by rw [hp]; exact ⟨_, rfl⟩⟩
        by_cases hnil : xs = []
        · subst hnil
          simp only [List.map_nil, lastEnd] at hcon
          omega
        · exact hov ⟨hnil, hcon.2⟩
    · rw [addU64, if_neg hlt]
      exact .inl ⟨⟨List.cons_ne_nil _ _, by omega⟩, rfl⟩

variable {s : OpenState A C} {id : Nat} {config : Config} {allow : Bool}

/-- The opening of a chunk whose records end too far panics, before an error is looked at. -/
theorem openWithTruncateU64_overflows (hm : id ∈ s.fs.dir)
    (ho : Overflows A C (s.fs.file id).data id) :
    openWithTruncateU64 (A := A) (C := C) config id allow s = .error addOverflow s := by
  obtain ⟨err, hd, -⟩ := records_decodes A C (s.fs.file id).data id
  have hp := (pushOffsets_cases id hd).resolve_right fun h => h.1 ho
  unfold openWithTruncateU64
  simp only [bind, EStateM.bind, openChunkFile_of_mem hm, get, getThe, MonadStateOf.get,
    EStateM.get]
  have hp := hp.2
  unfold recordsIn at hp
  rw [hp]
  rfl

/-- Any other chunk is opened as before. -/
theorem openWithTruncateU64_eq (ho : ¬ (id ∈ s.fs.dir ∧ Overflows A C (s.fs.file id).data id)) :
    openWithTruncateU64 (A := A) (C := C) config id allow s =
      openWithTruncate config id allow s := by
  by_cases hm : id ∈ s.fs.dir
  · obtain ⟨err, hd, -⟩ := records_decodes A C (s.fs.file id).data id
    obtain ⟨-, ys, hp⟩ := (pushOffsets_cases id hd).resolve_left fun h => ho ⟨hm, h.1⟩
    unfold openWithTruncateU64
    simp only [bind, EStateM.bind, openChunkFile_of_mem hm, get, getThe, MonadStateOf.get,
      EStateM.get]
    unfold recordsIn at hp
    rw [hp]
    rfl
  · unfold openWithTruncateU64 openWithTruncate
    simp only [bind, EStateM.bind, openChunkFile_of_not_mem hm]

end

/-! ## The replay -/

section
variable {A C : Type} [Crc32fast] [Encode A] [Decode A] [Encode C] [Decode C]
    {sm : StateMachine A C}
  {config : Config} {tail : Option Nat} {id : Nat} {acc acc' : Replay sm} {s s' : OpenState A C}

omit [Encode C] in
theorem replayChunkU64_overflows (hp : acc.Follows id) (hm : id ∈ s.fs.dir)
    (ho : Overflows A C (s.fs.file id).data id) :
    replayChunkU64 sm config tail id acc s = .error addOverflow s := by
  unfold replayChunkU64
  rcases ensureConsecutiveChunks_cases acc id with ⟨-, h⟩ | ⟨hn, -⟩
  · simp only [bind, EStateM.bind, h, lift, pure, EStateM.pure, openWithTruncateU64_overflows hm ho]
  · exact absurd hp hn

omit [Encode C] in
theorem replayChunkU64_eq
    (ho : ¬ (acc.Follows id ∧ id ∈ s.fs.dir ∧ Overflows A C (s.fs.file id).data id)) :
    replayChunkU64 sm config tail id acc s = replayChunk sm config tail id acc s := by
  unfold replayChunkU64 replayChunk
  rcases ensureConsecutiveChunks_cases acc id with ⟨hp, h⟩ | ⟨hn, e, h⟩
  · simp only [bind, EStateM.bind, h, lift, pure, EStateM.pure,
      openWithTruncateU64_eq fun hov => ho ⟨hp, hov⟩]
  · simp only [bind, EStateM.bind, h, lift, fail, throw, throwThe, MonadExceptOf.throw,
      EStateM.throw]

omit [Encode C] in
theorem replayChunk_cases (config : Config) (tail : Option Nat) (id : Nat) (acc : Replay sm)
    (s : OpenState A C) :
    ∃ r s', Replayed config tail [id] acc s r s' ∧ replayChunk sm config tail id acc s =
      resultIn r s' := by
  obtain ⟨r, s', h, hrun⟩ := replayChunks_run config tail [id] acc s
  refine ⟨r, s', h, ?_⟩
  rw [← hrun]
  simp only [replayChunks, bind, EStateM.bind]
  rcases replayChunk sm config tail id acc s with ⟨_, _⟩ | ⟨_, _⟩ <;> rfl

variable (A C) in
/-- The chunk makes the replay panic. -/
def Stumbles (data : Bytes) (id : Nat) : Prop := data = [] ∨ Overflows A C data id

/-- The replay comes to a chunk that makes it panic. -/
def StumbleAhead (config : Config) (fs : Fs) (ids : List Nat) (acc : Replay sm) : Prop :=
  ∃ older id rest acc', ids = older ++ id :: rest ∧ (∀ i ∈ older, i ∈ fs.dir) ∧ id ∈ fs.dir ∧
    Reads config (fun i => (fs.file i).data) older acc acc' none ∧ acc'.Follows id ∧
    Stumbles A C (fs.file id).data id

omit [Encode C] in
theorem failureIn_nil (id : Nat) : failureIn A C [] id = none := rfl

omit [Encode C] in
theorem recordsIn_nil (id : Nat) : recordsIn A C [] id = [] := rfl

omit [Encode C] in
theorem data_eq_nil {data : Bytes} (hr : recordsIn A C data id = [])
    (hf : failureIn A C data id = none) :
    data = [] := by
  have := recordsEnd_eq hf
  rw [recordsEnd, hr] at this
  exact List.eq_nil_of_length_eq_zero this.symm

/-- Panics of a run. -/
def Panics {σ α : Type} (r : EStateM.Result Fault σ α) : Prop := ∃ msg s, r = .error (.panic msg) s

instance {σ α : Type} (r : EStateM.Result Fault σ α) : Decidable (Panics r) :=
  match r with
  | .error (.panic msg) s => .isTrue ⟨msg, s, rfl⟩
  | .error (.io _) _ => .isFalse fun ⟨_, _, h⟩ => by cases h
  | .ok _ _ => .isFalse fun ⟨_, _, h⟩ => by cases h

omit [Crc32fast] in
theorem not_panics_ok {σ α : Type} (a : α) (s : σ) :
    ¬ Panics (.ok a s : EStateM.Result Fault σ α) := by
  rintro ⟨msg, s', h⟩
  cases h

omit [Crc32fast] in
theorem not_panics_io {σ α : Type} (e : IoError) (s : σ) :
    ¬ Panics (.error (.io e) s : EStateM.Result Fault σ α) := by
  rintro ⟨msg, s', h⟩
  cases h

omit [Encode C] in
/-- **A replay that comes to such a chunk panics.** -/
theorem StumbleAhead.panics {ids : List Nat} (h : StumbleAhead config s.fs ids acc) :
    Panics (replayChunksU64 sm config tail ids acc s) := by
  obtain ⟨older, id, rest, acc', rfl, hm, hid, hreads, hp, hst⟩ := h
  generalize hc : (none : Option Nat) = c at hreads
  generalize hfile : (fun i => (s.fs.file i).data) = file at hreads
  induction hreads generalizing s with
  | @nil acc =>
    simp only [List.nil_append, replayChunksU64, bind, EStateM.bind]
    by_cases ho : Overflows A C (s.fs.file id).data id
    · rw [replayChunkU64_overflows hp hid ho]
      exact ⟨_, _, rfl⟩
    · have hnil := hst.resolve_right ho
      rw [replayChunkU64_eq fun h => ho h.2.2]
      obtain ⟨r, s', hr, hrun⟩ := replayChunk_cases config tail id acc s
      rw [hrun]
      cases hr with
      | stopped h =>
        obtain ⟨e, he, -⟩ := h hp hid
        rw [hnil, failureIn_nil] at he
        cases he
      | refused _ _ ha =>
        rw [entriesIn, hnil, recordsIn_nil] at ha
        cases ha
      | panicked => exact ⟨_, _, rfl⟩
      | step _ _ hr => exact absurd (by rw [hnil, recordsIn_nil]) hr
  | cut => cases hc
  | @whole i ids acc st acc' c hp' hf hr ha h' ih =>
    simp only [List.cons_append, replayChunksU64, bind, EStateM.bind]
    by_cases ho : Overflows A C (s.fs.file i).data i
    · rw [replayChunkU64_overflows hp' (hm i List.mem_cons_self) ho]
      exact ⟨_, _, rfl⟩
    · rw [replayChunkU64_eq fun h => ho h.2.2]
      obtain ⟨r, s', hrep, hrun⟩ := replayChunk_cases config tail i acc s
      have hone : Reads config file [i] acc (acc.next (file i) i none st) none :=
        .whole hp' hf hr ha .nil
      rw [← List.append_nil [i]] at hrep
      obtain ⟨s₁, ⟨hfs, -⟩, hrest, -⟩ := hone.through rfl hrep (fun j hj => hm j (by simp_all))
        fun j _ => congrFun hfile j
      cases hrest
      rw [hrun]
      exact ih (fun j hj => by rw [hfs]; exact hm j (List.mem_cons_of_mem _ hj))
        (by rw [hfs]; exact hid) hp (by rw [hfs]; exact hst) hc (by rw [hfs]; exact hfile)

omit [Encode C] in
/-- **A replay that panics has come to such a chunk**, and one that does not gives what it gives on
numbers. -/
theorem replayChunksU64_cases {t : Nat} {ids : List Nat} {acc : Replay sm} {s : OpenState A C}
    (ht : recordsIn A C (s.fs.file t).data t ≠ []) (hle : ∀ i ∈ ids, i ≤ t) :
    (Panics (replayChunksU64 sm config (some t) ids acc s) ∧ StumbleAhead config s.fs ids acc) ∨
    (¬ Panics (replayChunksU64 sm config (some t) ids acc s) ∧
      replayChunksU64 sm config (some t) ids acc s =
        replayChunks sm config (some t) ids acc s) := by
  induction ids generalizing acc s with
  | nil => exact .inr ⟨not_panics_ok _ _, rfl⟩
  | cons id ids ih =>
    have hid := hle id List.mem_cons_self
    have hids : ∀ i ∈ ids, i ≤ t := fun i hi => hle i (List.mem_cons_of_mem _ hi)
    simp only [replayChunksU64, replayChunks, bind, EStateM.bind]
    by_cases ho : acc.Follows id ∧ id ∈ s.fs.dir ∧ Overflows A C (s.fs.file id).data id
    · obtain ⟨hp, hm, ho⟩ := ho
      rw [replayChunkU64_overflows hp hm ho]
      exact .inl ⟨⟨_, _, rfl⟩, [], id, ids, acc, rfl, by simp, hm, .nil, hp, .inr ho⟩
    rw [replayChunkU64_eq ho]
    obtain ⟨r, s', hr, hrun⟩ := replayChunk_cases config (some t) id acc s
    rw [hrun]
    cases hr with
    | stopped => exact .inr ⟨not_panics_io _ _, rfl⟩
    | refused => exact .inr ⟨not_panics_io _ _, rfl⟩
    | panicked hp ho hr =>
      refine .inl ⟨⟨_, _, rfl⟩, [], id, ids, acc, rfl, by simp, ?_, .nil, hp, .inl ?_⟩
      · cases ho <;> assumption
      · cases ho with
        | whole hm hf => exact data_eq_nil hr hf
        | cut hm htr =>
          have heq : id = t := htr.tail_eq
          exact absurd (heq ▸ hr) ht
    | @step _ _ _ _ tr s₁ st _ _ hp hop hr ha h =>
      cases h
      simp only [resultIn]
      cases hop with
      | whole hm hf =>
        refine (ih (s := (s.announced (chunkIn A C (s.fs.file id).data id none)
          acc.prevCheckpoint).applying (entriesIn A C (s.fs.file id).data id)) ht hids).imp_left
            fun h => ⟨h.1, ?_⟩
        obtain ⟨older, i, rest, acc', rfl, h3, h4, h5, h6, h7⟩ := h.2
        refine ⟨id :: older, i, rest, acc', rfl, fun j hj => ?_, h4, .whole hp hf hr ha h5, h6, h7⟩
        rcases List.mem_cons.1 hj with rfl | hj
        · exact hm
        · exact h3 j hj
      | cut hm htr =>
        -- behind the end of the last file there is nothing to follow
        have heq : id = t := htr.tail_eq
        subst heq
        have hpos := recordsEnd_pos hr
        cases ids with
        | nil => exact .inr ⟨not_panics_ok _ _, rfl⟩
        | cons j ids =>
          have hj := hids j List.mem_cons_self
          have hnot : ¬
            (acc.next (s.fs.file id).data id (some (s.fs.file id).data.length) st).Follows j := by
            intro hf
            have := hf _ rfl
            omega
          simp only [replayChunksU64, replayChunks, bind, EStateM.bind]
          rw [replayChunkU64_eq fun h => hnot h.1]
          obtain ⟨r, s', hr, hrun⟩ := replayChunk_cases config (some id) j
            (acc.next (s.fs.file id).data id (some (s.fs.file id).data.length) st)
            (((s.truncated id (recordsEnd A C (s.fs.file id).data id)).announced
              (chunkIn A C (s.fs.file id).data id (some (s.fs.file id).data.length))
                acc.prevCheckpoint).applying (entriesIn A C (s.fs.file id).data id))
          rw [hrun]
          cases hr with
          | stopped => exact .inr ⟨not_panics_io _ _, rfl⟩
          | refused hf => exact absurd hf hnot
          | panicked hf => exact absurd hf hnot
          | step hf => exact absurd hf hnot

/-! ## The whole opening -/

variable (sm) in
/-- The initial record of the new chunk ends beyond the largest offset. -/
def HeadOverflows (config : Config) (st : sm.State) (fs : Fs) (kept : List Nat) : Prop :=
  ∃ (acc : Replay sm) (c : Option Nat) (n : Nat), (∀ i ∈ kept, i ∈ fs.dir) ∧
    Reads config (fun i => (fs.file i).data) kept (Replay.start sm st) acc c ∧
    (kept = [] ∨ c.isSome) ∧ (encode acc.head).2 = .ok n ∧ U64_LIMIT ≤ acc.end_ + n

omit [Decode A] [Decode C] in
theorem createWithInitialRecordU64_cases (rec : WALRecord A C) (hm : id ∉ s.fs.dir) :
    Panics (createWithInitialRecordU64 id rec s) ↔
      ∃ n, (encode rec).2 = .ok n ∧ U64_LIMIT ≤ id + n := by
  unfold createWithInitialRecordU64 createFile
  simp only [bind, EStateM.bind, get, getThe, MonadStateOf.get, EStateM.get, if_neg hm, pure,
    EStateM.pure, modifyFs, record, modify, modifyGet, MonadStateOf.modifyGet, EStateM.modifyGet]
  rcases hn : (encode rec).2 with e | n
  · refine ⟨fun h => absurd h (not_panics_io _ _), fun h => ?_⟩
    obtain ⟨n, h, -⟩ := h
    cases h
  · simp only [liftFault, pure, EStateM.pure, addU64]
    have he : encode rec = (enc rec, .ok n) := Prod.ext rfl hn
    by_cases hlt : id + n < U64_LIMIT
    · rw [if_pos hlt]
      simp only [OpenChunk.appendRecord, he, Chunk.appendRecordSize_lastSegment]
      refine ⟨fun h => absurd h (not_panics_ok _ _), fun h => ?_⟩
      obtain ⟨m, hm, hle⟩ := h
      cases hm
      omega
    · rw [if_neg hlt]
      exact ⟨fun _ => ⟨n, rfl, by omega⟩, fun _ => ⟨_, _, rfl⟩⟩

omit [Encode C] in
/-- A stumble does not depend on what is removed. -/
theorem StumbleAhead.congr {fs fs' : Fs} {kept : List Nat} (hfile : fs'.file = fs.file)
    (hdir : ∀ i ∈ kept, i ∈ fs.dir → i ∈ fs'.dir) (h : StumbleAhead config fs kept acc) :
    StumbleAhead config fs' kept acc := by
  obtain ⟨older, id, rest, acc', rfl, h1, h2, h3, h4, h5⟩ := h
  refine ⟨older, id, rest, acc', rfl, fun i hi => hdir i (by simp [hi]) (h1 i hi),
    hdir id (by simp) h2, ?_, h4, ?_⟩
  · rwa [hfile]
  · rwa [hfile]

theorem OpenState.panics_iff (sm : StateMachine A C) (config : Config) (st : sm.State)
    (s : OpenState A C) (hv : config.validate = .ok ()) :
    Panics (openLockedU64 sm config st s) ↔
      ∃ kept removed, Tidy A C s.fs kept removed ∧
        (StumbleAhead config s.fs kept (Replay.start sm st) ∨
          HeadOverflows sm config st s.fs kept) := by
  obtain ⟨r, s₁, ht, hrun⟩ := removeIncomplete_run (loadChunkIds s.fs).reverse s
  unfold openLockedU64 removeIncompleteTailChunks
  simp only [bind, EStateM.bind, get, getThe, MonadStateOf.get, EStateM.get, hv, lift, pure,
    EStateM.pure, Functor.map, EStateM.map, hrun]
  rcases r with e | k
  · refine ⟨fun h => absurd h (not_panics_io _ _), fun h => ?_⟩
    obtain ⟨kept, removed, h, -⟩ := h
    cases (h.tidied ht).1
  simp only [resultOf]
  obtain ⟨removed, htidy, hdir, hfile, -⟩ := ht.tidy
  -- the files that stay are the same for every description of the directory
  have huniq : ∀ {kept removed'}, Tidy A C s.fs kept removed' → kept = k.reverse := by
    intro kept removed' h
    have := (h.tidied ht).1
    cases this
    rw [List.reverse_reverse]
  have hstay : ∀ i ∈ k.reverse, i ∈ s.fs.dir → i ∈ s₁.fs.dir := fun i hi hm => by
    rw [hdir]
    exact List.mem_filter.2 ⟨hm, decide_eq_true (htidy.disjoint hi)⟩
  have hcond : (∃ kept removed', Tidy A C s.fs kept removed' ∧
      (StumbleAhead config s.fs kept (Replay.start sm st) ∨ HeadOverflows sm config st s.fs kept)) ↔
      (StumbleAhead config s₁.fs k.reverse (Replay.start sm st) ∨
        HeadOverflows sm config st s.fs k.reverse) := by
    constructor
    · rintro ⟨kept, removed', h, hc⟩
      rw [huniq h] at hc
      exact hc.imp_left (.congr hfile hstay)
    · refine fun hc => ⟨_, removed, htidy, hc.imp_left (.congr hfile.symm fun i hi hm => ?_)⟩
      rw [hdir] at hm
      exact (List.mem_filter.1 hm).1
  rw [hcond]
  -- the replay
  have hcases : (Panics
    (replayChunksU64 sm config k.reverse.getLast? k.reverse (Replay.start sm st) s₁) ∧
        StumbleAhead config s₁.fs k.reverse (Replay.start sm st)) ∨
      (¬ Panics (replayChunksU64 sm config k.reverse.getLast? k.reverse (Replay.start sm st) s₁) ∧
        replayChunksU64 sm config k.reverse.getLast? k.reverse (Replay.start sm st) s₁ =
          replayChunks sm config k.reverse.getLast? k.reverse (Replay.start sm st) s₁) := by
    rcases hlast : k.reverse.getLast? with _ | t
    · rw [List.getLast?_eq_none_iff] at hlast
      rw [hlast]
      exact .inr ⟨not_panics_ok _ _, rfl⟩
    · refine replayChunksU64_cases ?_ (le_tail htidy.listed hlast)
      rw [hfile]
      exact (htidy.last t hlast).2
  unfold Replay.start at hcases
  rcases hcases with ⟨⟨msg, s₂, hp⟩, hst⟩ | ⟨hnp, heq⟩
  · rw [hp]
    exact ⟨fun _ => .inl hst, fun _ => ⟨_, _, rfl⟩⟩
  have hnst : ¬ StumbleAhead config s₁.fs k.reverse (Replay.start sm st) := fun h => hnp h.panics
  obtain ⟨r, s₂, hr, hrun₂⟩ :=
    replayChunks_run config k.reverse.getLast? k.reverse (Replay.start sm st) s₁
  unfold Replay.start at hrun₂
  rw [heq, hrun₂] at hnp ⊢
  have hfiles : (fun i => (s₁.fs.file i).data) = fun i => (s.fs.file i).data := by rw [hfile]
  have hread : ∀ {acc c}, (∀ i ∈ k.reverse, i ∈ s.fs.dir) →
      Reads config (fun i => (s.fs.file i).data) k.reverse (Replay.start sm st) acc c →
      r = .ok acc :=
    fun hm h => (h.replayed hr (fun i hi => h.cut_mem hi) (fun i hi => hstay i hi (hm i hi))
      fun i _ => congrFun hfiles i).1
  rcases r with f | acc
  · refine ⟨fun hpan => ?_, fun hc => ?_⟩
    · obtain ⟨m, s', h⟩ := hpan
      simp only [resultIn] at h
      cases h
      exact absurd ⟨_, _, rfl⟩ hnp
    obtain ⟨acc, c, n, hm, h, -⟩ := hc.resolve_left hnst
    cases hread hm h
  simp only [resultIn]
  have hok : ∃ c, (∀ i ∈ k.reverse, i ∈ s.fs.dir) ∧
      Reads config (fun i => (s.fs.file i).data) k.reverse (Replay.start sm st) acc c ∧
      s₂.fs.dir = s₁.fs.dir := by
    rcases hlast : k.reverse.getLast? with _ | t
    · rw [List.getLast?_eq_none_iff] at hlast
      rw [hlast] at hr ⊢
      cases hr
      exact ⟨none, by simp, .nil, rfl⟩
    · rw [hlast] at hr
      obtain ⟨c, hfs, -, hok⟩ := hr.healed (le_tail htidy.listed hlast)
      obtain ⟨hm, hreads⟩ := hok acc rfl
      rw [hfiles] at hreads
      refine ⟨c, fun i hi => ht.dir_subset (hm i hi), hreads, ?_⟩
      rw [hfs]
      cases c <;> rfl
  obtain ⟨c, hm, hreads, hdir₂⟩ := hok
  have hhead : HeadOverflows sm config st s.fs k.reverse ↔ reopenLastClosed acc.closed = none ∧
      ∃ n, (encode acc.head).2 = .ok n ∧ U64_LIMIT ≤ acc.end_ + n := by
    constructor
    · rintro ⟨acc', c', n, hm', hreads', hc', hn, hle⟩
      cases hread hm' hreads'
      exact ⟨hreads'.reopens.2 hc', n, hn, hle⟩
    · rintro ⟨hl, n, hn, hle⟩
      exact ⟨acc, c, n, hm, hreads, hreads.reopens.1 hl, hn, hle⟩
  rw [or_iff_right hnst, hhead]
  rcases hl : reopenLastClosed acc.closed with _ | ⟨o, closed⟩
  · have hfree : acc.end_ ∉ s₂.fs.dir := by
      rw [hdir₂, hdir]
      exact htidy.free hreads
    have hcreate := createWithInitialRecordU64_cases acc.head hfree
    rw [and_iff_right rfl, ← hcreate]
    unfold Replay.end_ Replay.head
    simp only [EStateM.bind]
    rcases createWithInitialRecordU64 (acc.prevEndOffset.getD 0)
      (WALRecord.checkpoint (sm.checkpoint acc.state)) s₂ with ⟨_, _⟩ | ⟨_, _⟩
    · exact iff_of_false (not_panics_ok _ _) (not_panics_ok _ _)
    · constructor <;> rintro ⟨m, s', h⟩ <;> cases h <;> exact ⟨m, _, rfl⟩
  · exact iff_of_false (not_panics_ok _ _) fun h => by cases h.1

/-- **Where an opening returns**: exactly over the directories in which the replay of the files that
stay does not come to an empty file or to one whose records end beyond `2 ^ 64`, and in which the
initial record of the new chunk does not end there. -/
theorem openLockedU64_returns (sm : StateMachine A C) (config : Config) (st : sm.State) (fs : Fs)
    (hv : config.validate = .ok ()) :
    ¬ Panics (openLockedU64 sm config st (OpenState.init fs)) ↔
      ∀ kept removed, Tidy A C fs kept removed →
        ¬ StumbleAhead config fs kept (Replay.start sm st) ∧
          ¬ HeadOverflows sm config st fs kept := by
  rw [OpenState.panics_iff sm config st _ hv]
  simp only [not_exists, not_and, not_or]
  rfl

/-! ## Where nothing overflows -/

omit [Crc32fast] [Encode A] [Decode A] [Encode C] [Decode C] in
/-- Two computations agree from a state on where neither of their parts panics. -/
theorem bind_eq_of_not_panics {α β : Type} {x x' : OpenM A C α} {f g : α → OpenM A C β}
    {s : OpenState A C} (h : ¬ Panics ((x >>= f) s)) (hx : ¬ Panics (x s) → x s = x' s)
    (hf : ∀ a s', ¬ Panics (f a s') → f a s' = g a s') : (x >>= f) s = (x' >>= g) s := by
  simp only [bind, EStateM.bind] at h ⊢
  rcases hr : x s with ⟨a, s'⟩ | ⟨e, s'⟩
  · rw [← hx (hr ▸ not_panics_ok a s'), hr]
    rw [hr] at h
    exact hf a s' h
  · rw [hr] at h
    rw [← hx fun hp => h ?_, hr]
    obtain ⟨msg, s'', hp⟩ := hp
    rw [hr] at hp
    cases hp
    exact ⟨msg, s', rfl⟩

omit [Encode C] in
theorem replayChunksU64_eq {ids : List Nat} {acc : Replay sm} {s : OpenState A C}
    (h : ¬ Panics (replayChunksU64 sm config tail ids acc s)) :
    replayChunksU64 sm config tail ids acc s = replayChunks sm config tail ids acc s := by
  induction ids generalizing acc s with
  | nil => rfl
  | cons id ids ih =>
    refine bind_eq_of_not_panics h (fun h => ?_) fun _ _ h => ih h
    by_cases ho : acc.Follows id ∧ id ∈ s.fs.dir ∧ Overflows A C (s.fs.file id).data id
    · rw [replayChunkU64_overflows ho.1 ho.2.1 ho.2.2] at h
      exact absurd ⟨_, _, rfl⟩ h
    · exact replayChunkU64_eq ho

omit [Decode A] [Decode C] in
theorem createWithInitialRecordU64_eq {rec : WALRecord A C}
    (h : ¬ Panics (createWithInitialRecordU64 id rec s)) :
    createWithInitialRecordU64 id rec s = createWithInitialRecord id rec s := by
  by_cases hm : id ∈ s.fs.dir
  · unfold createWithInitialRecordU64 createWithInitialRecord createFile
    simp only [bind, EStateM.bind, get, getThe, MonadStateOf.get, EStateM.get, if_pos hm,
      fail, throw, throwThe, MonadExceptOf.throw, EStateM.throw]
  · rw [createWithInitialRecordU64_cases rec hm] at h
    unfold createWithInitialRecordU64 createWithInitialRecord createFile
    simp only [bind, EStateM.bind, get, getThe, MonadStateOf.get, EStateM.get, if_neg hm, pure,
      EStateM.pure, modifyFs, record, modify, modifyGet, MonadStateOf.modifyGet, EStateM.modifyGet]
    rcases hn : (encode rec).2 with e | n
    · have he : encode rec = (enc rec, .error e) := Prod.ext rfl hn
      simp only [OpenChunk.appendRecord, he]
      rfl
    · have hlt : id + n < U64_LIMIT := by
        by_contra hge
        exact h ⟨n, hn, by omega⟩
      simp only [liftFault, pure, EStateM.pure, addU64, if_pos hlt]

/-- **An opening that does not panic** gives what it gives with numbers of any size. -/
theorem openLockedU64_eq {st : sm.State} (h : ¬ Panics (openLockedU64 sm config st s)) :
    openLockedU64 sm config st s = openLocked sm config st s := by
  refine bind_eq_of_not_panics h (fun _ => rfl) fun _ s₀ h => ?_
  refine bind_eq_of_not_panics h (fun _ => rfl) fun _ s₁ h => ?_
  refine bind_eq_of_not_panics h (fun _ => rfl) fun ids s₂ h => ?_
  refine bind_eq_of_not_panics h replayChunksU64_eq fun acc s₃ h => ?_
  rcases hl : reopenLastClosed acc.closed with _ | ⟨o, closed⟩ <;> simp only [hl] at h ⊢
  exact bind_eq_of_not_panics h createWithInitialRecordU64_eq fun _ _ _ => rfl

end

namespace Register

/-- Between two good chunks, an empty file. -/
def emptyMiddle : Fs where
  dir := [0, 13, 20]
  aliases := []
  committed := fun _ => true
  file := fun id => if id = 13 then .empty else
    FileData.append .empty (enc (α := WALRecord Put Register) (.checkpoint { value := 0 }))

theorem emptyMiddle_panics :
    Panics (openLockedU64 machine config { value := 0 } (OpenState.init emptyMiddle)) := by
  decide +kernel

theorem openLockedU64_returns_torn :
    ¬ Panics (openLockedU64 machine config { value := 0 } (OpenState.init tornDir)) ↔
      ∀ kept removed, Tidy Put Register tornDir kept removed →
        ¬ StumbleAhead config tornDir kept (Replay.start machine { value := 0 }) ∧
        ¬ HeadOverflows machine config { value := 0 } tornDir kept :=
  openLockedU64_returns machine config { value := 0 } tornDir rfl

end Register

end Wal

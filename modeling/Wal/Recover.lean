import Wal.Fs
import Wal.Record
import Wal.Requests

/-!
# Opening a WAL

`openLocked` and the functions under it: listing the chunk files, removing trailing files that an
interrupted rotation left behind, decoding and replaying every chunk, truncating an incomplete tail,
and reopening or creating the open chunk.

The functions run in `OpenM`. Its state holds what is visible of the opening (`OpenView`: the
directory and what user code was told) and every view it passed through (`trail`, the points at
which the process can die). I/O itself succeeds unless a file is missing or a name is taken.
-/

namespace Wal

/-- The user's state machine. -/
structure StateMachine (A C : Type) where
  State : Type
  apply : State → WALRecord A C → Nat → Segment → Except String State
  checkpoint : State → C

/-- A call of `on_chunk_persisted`; `durable` is how much of the file is on stable storage then. -/
structure PersistedCall (C : Type) where
  persisted : ChunkPersisted
  checkpoint : Option C
  durable : Nat
  deriving DecidableEq, Repr

/-- What a session's calls of `apply` are about: a record, its chunk, its place in the log. -/
abbrev LogEntry (A C : Type) := WALRecord A C × Nat × Segment

/-- What is visible of an opening: the directory, what user code was told, and the initial record of
the chunk it created. -/
structure OpenView (A C : Type) where
  fs : Fs
  persisted : List (PersistedCall C)
  applied : List (LogEntry A C)
  created : List (LogEntry A C)

structure OpenState (A C : Type) extends OpenView A C where
  trail : List (OpenView A C)

def OpenState.init {A C : Type} (fs : Fs) : OpenState A C :=
  { fs, persisted := [], applied := [], created := [], trail := [] }

abbrev OpenM (A C : Type) := EStateM Fault (OpenState A C)

namespace OpenM

variable {A C α : Type}

def record (g : OpenView A C → OpenView A C) : OpenM A C Unit :=
  modify fun s => { toOpenView := g s.toOpenView, trail := s.trail ++ [g s.toOpenView] }

def modifyFs (g : Fs → Fs) : OpenM A C Unit := record fun v => { v with fs := g v.fs }

def fail (e : IoError) : OpenM A C α := throw (.io e)

def lift (r : Except IoError α) : OpenM A C α :=
  match r with
  | .ok a => pure a
  | .error e => fail e

def liftFault (r : Except Fault α) : OpenM A C α :=
  match r with
  | .ok a => pure a
  | .error e => throw e

end OpenM

open OpenM

/-! ## One chunk file -/

section
variable {A C : Type} [Crc32fast] [Encode A] [Decode A] [Decode C]

/-- Positional reads of a regular file return what was asked for. -/
def fullReads : Nat → Nat := fun _ => READ_CHUNK_SIZE

def noSuchFile (id : Nat) : IoError :=
  { kind := .notFound, msg := "No such file or directory; when:(open " ++ displayChunkId id ++ ")" }

/-- `Chunk::open_chunk_file`; a handle is the id it was opened under. -/
def openChunkFile (id : Nat) : OpenM A C Unit := do
  unless id ∈ (← get).fs.dir do fail (noSuchFile id)

/-- Whether to truncate at the first record that does not decode. -/
def handleRecordError (ioErr : IoError) (data : Bytes) (globalOffset chunkId : Nat)
    (config : Config) (allowTruncate : Bool) : Except IoError Bool := do
  let canTruncate := config.truncateIncompleteRecord && allowTruncate
  if ioErr.kind = .unexpectedEof then
    if canTruncate then return true
    throw ioErr
  let allZero ← verifyTrailingZeros data fullReads (globalOffset - chunkId)
  if allZero && canTruncate then return true
  throw ioErr

/-- The offset table for the decoded segments of a chunk. -/
def tableOf (chunkId : Nat) (segs : List Segment) : List Nat :=
  chunkId :: segs.map fun seg => chunkId + seg.end_

omit [Crc32fast] in
theorem tableOf_ne_nil (chunkId : Nat) (segs : List Segment) : tableOf chunkId segs ≠ [] := by
  simp [tableOf]

/-- `Chunk::open_with_truncate`. -/
def openWithTruncate (config : Config) (chunkId : Nat) (allowTruncate : Bool) :
    OpenM A C (Chunk × List (WALRecord A C)) := do
  openChunkFile chunkId
  let data := ((← get).fs.file chunkId).data
  let (items, err) := splitItems (loadRecordsIter (WALRecord A C) data chunkId)
  let table := tableOf chunkId (items.map (·.1))
  let last := table.getLast (tableOf_ne_nil _ _)
  let truncate ← match err with
    | none => pure false
    | some e => lift (handleRecordError e data last chunkId config allowTruncate)
  let truncated ← if truncate then do
      modifyFs (·.setLen chunkId (last - chunkId))
      modifyFs (·.syncData chunkId)
      pure (some data.length)
    else pure none
  pure ({ f := chunkId, globalOffsets := table, truncated, nonempty := tableOf_ne_nil _ _ },
    items.map (·.2))

/-- `has_complete_initial_record`: a short or all-zero file has none. -/
def hasCompleteInitialRecord (id : Nat) : OpenM A C Bool := do
  openChunkFile id
  let data := ((← get).fs.file id).data
  match ((RecordIterator.new data data.length id).next (WALRecord A C)).1 with
  | none => return false
  | some (.ok _) => return true
  | some (.error e) =>
    if e.kind = .unexpectedEof then return false
    let allZero ← lift (verifyTrailingZeros data fullReads 0)
    if allZero then return false
    fail e

/-! ## The directory -/

/-- The listed ids, ascending. -/
def loadChunkIds (fs : Fs) : List Nat := (fs.dir ++ fs.aliases).insertionSort (· ≤ ·)

/-- The loop of `remove_incomplete_tail_chunks`, over the ids with the newest first. -/
def removeIncomplete : List Nat → OpenM A C (List Nat)
  | [] => pure []
  | id :: older => do
    if ← hasCompleteInitialRecord id then return id :: older
    modifyFs (·.unlink id)
    modifyFs (·.syncDir)
    removeIncomplete older

def removeIncompleteTailChunks (ids : List Nat) : OpenM A C (List Nat) :=
  List.reverse <$> removeIncomplete ids.reverse

def gapBetweenChunks (prevEnd chunkId : Nat) : IoError :=
  { kind := .invalidData,
    msg := "Gap between chunks: " ++ formatPadU64 prevEnd ++ " -> " ++ formatPadU64 chunkId
      ++ "; Can not open, fix this error and re-open" }

def ensureConsecutiveChunks (prevEndOffset : Option Nat) (chunkId : Nat) : IoResult :=
  match prevEndOffset with
  | none => .ok ()
  | some prevEnd =>
    if prevEnd ≠ chunkId then .error (gapBetweenChunks prevEnd chunkId) else .ok ()

def alreadyExists : IoError := { kind := .alreadyExists, msg := "File exists" }

/-- `OpenChunk::create_file`. -/
def createFile (id : Nat) : OpenM A C Unit := do
  if id ∈ (← get).fs.dir then fail alreadyExists
  modifyFs (·.createNew id)
  modifyFs (·.syncDir)

end

/-! ## Replay -/

section
variable {A C : Type} [Crc32fast] [Encode A] [Decode A] [Encode C] [Decode C]

/-- `OpenChunk::create_with_initial_record`: the record is written but not synchronized. -/
def createWithInitialRecord (id : Nat) (initialRecord : WALRecord A C) : OpenM A C OpenChunk := do
  createFile id
  let (res, o) := (OpenChunk.fromFile id).appendRecord initialRecord
  let seg ← liftFault res
  record fun v => { v with
    fs := v.fs.append id o.pendingData
    created := [(initialRecord, id, seg)] }
  return { o with pendingData := [] }

variable (sm : StateMachine A C)

/-- What the replay loop carries from chunk to chunk. -/
structure Replay where
  closed : List (Nat × ClosedChunk C)
  prevEndOffset : Option Nat
  prevCheckpoint : Option C
  state : sm.State

/-- Applies the records of a chunk, of which the first has the given index. -/
def applyRecords (chunkId : Nat) (chunk : Chunk) :
    List (WALRecord A C) → Nat → sm.State → OpenM A C sm.State
  | [], _, st => pure st
  | r :: rs, i, st => do
    let seg ← liftFault (chunk.recordSegment i)
    modify fun s => { s with applied := s.applied ++ [(r, chunkId, seg)] }
    match sm.apply st r chunkId seg with
    | .error e => fail (.other e)
    | .ok st => applyRecords chunkId chunk rs (i + 1) st

def onChunkPersisted (chunk : Chunk) (checkpoint : Option C) : OpenM A C Unit :=
  record fun v => { v with
    persisted := v.persisted ++ [{
      persisted := { startingOffset := chunk.globalStart, syncedOffset := chunk.globalEnd }
      checkpoint
      durable := (v.fs.file chunk.globalStart).synced }] }

/-- The body of the replay loop. -/
def replayChunk (config : Config) (tailChunkId : Option Nat) (chunkId : Nat) (acc : Replay sm) :
    OpenM A C (Replay sm) := do
  lift (ensureConsecutiveChunks acc.prevEndOffset chunkId)
  let (chunk, records) ← openWithTruncate config chunkId (some chunkId == tailChunkId)
  onChunkPersisted chunk acc.prevCheckpoint
  let state ← applyRecords sm chunkId chunk records 0 acc.state
  let seg ← liftFault chunk.lastSegment
  let checkpoint := sm.checkpoint state
  return { closed := insertChunk chunkId { state := checkpoint, chunk } acc.closed,
           prevEndOffset := some seg.end_, prevCheckpoint := some checkpoint, state }

def replayChunks (config : Config) (tailChunkId : Option Nat) :
    List Nat → Replay sm → OpenM A C (Replay sm)
  | [], acc => pure acc
  | chunkId :: ids, acc => do
    let acc ← replayChunk sm config tailChunkId chunkId acc
    replayChunks config tailChunkId ids acc

/-- The last chunk is written to again, unless recovery truncated it. -/
def reopenLastClosed (closed : List (Nat × ClosedChunk C)) :
    Option (OpenChunk × List (Nat × ClosedChunk C)) :=
  match closed.getLast? with
  | none => none
  | some (_, last) =>
    if last.chunk.isTruncated then none else some (OpenChunk.new last.chunk, closed.dropLast)

/-- What `open_locked` returns: the WAL, the file entry its worker starts with, and the state
machine. -/
structure Opened where
  wal : ChunkedWal C
  entry : FileEntry C
  state : sm.State

/-- `ChunkedWal::new`. -/
def ChunkedWal.new (config : Config) (closed : List (Nat × ClosedChunk C)) («open» : OpenChunk)
    (state : sm.State) : Opened sm where
  wal := { config, «open», closed, workerHandle := true }
  entry := FileEntry.new open.chunk.globalStart open.chunk.f
    (closed.getLast?.map fun p => p.2.state)
  state := state

/-- `ChunkedWal::open_locked`. -/
def openLocked (config : Config) (state : sm.State) : OpenM A C (Opened sm) := do
  lift config.validate
  let chunkIds := loadChunkIds (← get).fs
  let chunkIds ← removeIncompleteTailChunks chunkIds
  let acc ← replayChunks sm config chunkIds.getLast? chunkIds
    { closed := [], prevEndOffset := none, prevCheckpoint := none, state }
  match reopenLastClosed acc.closed with
  | some (o, closed) => return ChunkedWal.new sm config closed o acc.state
  | none =>
    let o ← createWithInitialRecord (acc.prevEndOffset.getD 0)
      (.checkpoint (sm.checkpoint acc.state))
    return ChunkedWal.new sm config acc.closed o acc.state

end

end Wal

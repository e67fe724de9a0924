import Wal.Lib.Prog
import Wal.Recover

/-!
# The client side of a live WAL

The methods of `ChunkedWal`, as programs over the points at which another thread, the disk or the
channel takes part: the acts of `ClientAct`. Everything between two acts is local to the client. An
act answers with an `io::Result<()>`; `FlushClient::send`, which waits for the byte limit and for
the bounded channel, is one act here and several steps of the system.
-/

namespace Wal

open Lib

inductive ClientAct (A C Cb : Type)
  | send (req : WorkerRequest C Cb)
  | createNew (id : Nat)
  | syncDir
  | close
  | join
  | waitIdle
  /-- Not an act of the code: the record was accepted, with its chunk and segment. -/
  | note (entry : LogEntry A C)

/-- A program of the client; errors and panics leave the WAL as it is at that point. -/
def ClientM (A C Cb α : Type) : Type :=
  ChunkedWal C → Prog (ClientAct A C Cb) IoResult (Except Fault α × ChunkedWal C)

namespace ClientM

variable {A C Cb α β : Type}

protected def pure (a : α) : ClientM A C Cb α := fun w => .done (.ok a, w)

protected def bind (m : ClientM A C Cb α) (k : α → ClientM A C Cb β) : ClientM A C Cb β :=
  fun w => (m w).bind fun
    | (.ok a, w) => k a w
    | (.error e, w) => .done (.error e, w)

instance : Monad (ClientM A C Cb) where
  pure := ClientM.pure
  bind := ClientM.bind

def get : ClientM A C Cb (ChunkedWal C) := fun w => .done (.ok w, w)

def set (w : ChunkedWal C) : ClientM A C Cb Unit := fun _ => .done (.ok (), w)

def throw (e : Fault) : ClientM A C Cb α := fun w => .done (.error e, w)

def perform (a : ClientAct A C Cb) : ClientM A C Cb IoResult :=
  fun w => .act a fun r => .done (.ok r, w)

/-- The `?` operator. -/
def require (r : IoResult) : ClientM A C Cb Unit :=
  match r with
  | .ok () => pure ()
  | .error e => throw (.io e)

def liftFault (r : Except Fault α) : ClientM A C Cb α :=
  match r with
  | .ok a => pure a
  | .error e => throw e

end ClientM

namespace ChunkedWal

open ClientM

variable {A C Cb : Type}

/-- `is_open_chunk_full`. -/
def isOpenChunkFull (w : ChunkedWal C) : Bool :=
  decide (w.open.chunk.recordsCount ≥ w.config.chunkMaxRecords) ||
    decide (w.open.chunk.chunkSize ≥ w.config.chunkMaxSize)

/-- `send_pending`, with the result of sending. -/
def sendPending (sync : Bool) (callback : Option Cb) : ClientM A C Cb IoResult := do
  let w ← get
  let (data, o) := w.open.takePendingData
  set { w with «open» := o }
  perform (.send (.write { uptoOffset := o.chunk.globalEnd, data, sync, callback }))

def sendRemoveChunks (chunkIds : List Nat) : ClientM A C Cb Unit := do
  require (← perform (.send (.removeChunks chunkIds)))

def sendGetStat : ClientM A C Cb Unit := do
  require (← perform (.send .getFlushStat))

def waitWorkerIdle : ClientM A C Cb Unit := do
  require (← perform .waitIdle)

/-- The loop of `drain_closed_chunks_while`; `shouldDrain` is stateful, `i` counts its calls. -/
def drainLoop (shouldDrain : Nat → C → Bool) : Nat → List (Nat × ClosedChunk C) →
    List Nat × List (Nat × ClosedChunk C)
  | _, [] => ([], [])
  | i, (chunkId, c) :: rest =>
    if shouldDrain i c.state then
      let (chunkIds, rest) := drainLoop shouldDrain (i + 1) rest
      (chunkId :: chunkIds, rest)
    else ([], (chunkId, c) :: rest)

def drainClosedChunksWhile (shouldDrain : Nat → C → Bool) : ClientM A C Cb (List Nat) := do
  let w ← get
  let (chunkIds, closed) := drainLoop shouldDrain 0 w.closed
  set { w with closed }
  return chunkIds

theorem drainLoop_eq (shouldDrain : Nat → C → Bool) (i : Nat)
    (closed : List (Nat × ClosedChunk C)) :
    ∃ k, drainLoop shouldDrain i closed = ((closed.take k).map (·.1), closed.drop k) := by
  induction closed generalizing i with
  | nil => exact ⟨0, rfl⟩
  | cons p rest ih =>
    obtain ⟨id, c⟩ := p
    unfold drainLoop
    split
    · obtain ⟨k, hk⟩ := ih (i + 1)
      exact ⟨k + 1, by rw [hk]; rfl⟩
    · exact ⟨0, rfl⟩

section
variable [Crc32fast] [Encode A] [Encode C]

/-- `append`: only the pending buffer and the offset table change. -/
def append (rec : WALRecord A C) : ClientM A C Cb Unit := do
  let w ← get
  let (res, o) := w.open.appendRecord rec
  set { w with «open» := o }
  let seg ← liftFault res
  let _ ← perform (.note (rec, o.chunk.chunkId, seg))

/-- `OpenChunk::create_empty`. -/
def createEmpty (id : Nat) : ClientM A C Cb OpenChunk := do
  require (← perform (.createNew id))
  require (← perform .syncDir)
  return OpenChunk.fromFile id

/-- `try_close_full_chunk`, with the state machine's checkpoint. -/
def tryCloseFullChunk (checkpoint : C) : ClientM A C Cb (Option C) := do
  let w ← get
  if !w.isOpenChunkFull then return none
  require (← sendPending true none)
  let seg ← liftFault w.open.chunk.lastSegment
  let offset := seg.end_
  let newOpen ← createEmpty offset
  require (← perform (.send (.appendFile
    (FileEntry.new offset newOpen.chunk.f (some checkpoint)))))
  let w ← get
  let oldOpen := w.open
  set { w with «open» := newOpen }
  append (.checkpoint checkpoint)
  require (← sendPending false none)
  let w ← get
  set { w with closed :=
    insertChunk oldOpen.chunk.chunkId { state := checkpoint, chunk := oldOpen.chunk } w.closed }
  return some checkpoint

end

/-- `shutdown`: the sender is dropped and the worker joined whether or not the flush was sent. -/
def shutdown : ClientM A C Cb Unit := do
  let w ← get
  if !w.workerHandle then return ()
  set { w with workerHandle := false }
  let flushRes ← sendPending true none
  let _ ← perform .close
  let joinRes ← perform .join
  require flushRes
  require joinRes
  require (← perform .waitIdle)

end ChunkedWal

/-- The calls of a user. -/
inductive Op (A C Cb : Type)
  | append (rec : WALRecord A C)
  | sendPending (sync : Bool) (callback : Option Cb)
  | tryCloseFullChunk (checkpoint : C)
  | drainClosedChunksWhile (shouldDrain : Nat → C → Bool)
  | sendRemoveChunks (chunkIds : List Nat)
  | sendGetStat
  | waitWorkerIdle
  | shutdown

inductive Ret (C : Type)
  | unit
  | checkpoint (c : Option C)
  | chunkIds (ids : List Nat)

section
variable {A C Cb : Type} [Crc32fast] [Encode A] [Encode C]

open ClientM in
def Op.run : Op A C Cb → ClientM A C Cb (Ret C)
  | .append rec => do
    ChunkedWal.append rec
    return .unit
  | .sendPending sync callback => do
    require (← ChunkedWal.sendPending sync callback)
    return .unit
  | .tryCloseFullChunk checkpoint => do
    return .checkpoint (← ChunkedWal.tryCloseFullChunk checkpoint)
  | .drainClosedChunksWhile shouldDrain => do
    return .chunkIds (← ChunkedWal.drainClosedChunksWhile shouldDrain)
  | .sendRemoveChunks chunkIds => do
    ChunkedWal.sendRemoveChunks chunkIds
    return .unit
  | .sendGetStat => do
    ChunkedWal.sendGetStat
    return .unit
  | .waitWorkerIdle => do
    ChunkedWal.waitWorkerIdle
    return .unit
  | .shutdown => do
    ChunkedWal.shutdown
    return .unit

end

end Wal

import Wal.Requests

/-!
# The flush worker

`runBatch` is the body of the loop of `run_inner` for one collected batch, with the functions under
it: the vectored writes, `sync_data_files` and `handle_non_flush_request`. They run in `WorkerM`,
which is given the results of the I/O and of the user code beforehand (`Script`) and logs, as
`Effect`s in the order they happen, everything that another thread, the disk or the user can see.
A failing operation logs the marker `Effect.failed` in its place.

`runInner` iterates the loop over a queue: each `Cut` says how many requests arrive before the
deadline of its batch, and with which results the batch runs.
-/

namespace Wal

structure FlushStat where
  startingOffset : Nat
  syncId : Nat
  ino : Nat
  deriving DecidableEq, Repr

/-- What a running worker does to the world outside of it. A write callback and a statistics reply
are named by the request's sequence number. -/
inductive Effect (C Cb : Type)
  /-- One successful `write_vectored`. -/
  | append (f : Nat) (bs : Bytes)
  | sync (f : Nat)
  | persisted (p : ChunkPersisted) (checkpoint : Option C)
  | answer (seq : Nat) (cb : Cb) (res : IoResult)
  | release (n : Nat)
  | appendFile (f : Nat)
  | unlink (id : Nat)
  | syncDir
  | stat (seq : Nat) (stats : List FlushStat)
  | failed (e : IoError)
  | complete (seq : Nat)

/-- Why `run_inner` stops in the middle of a batch; `starved` if its script is too short to tell. -/
inductive Stop
  | failed (e : IoError)
  | panicked (msg : String)
  | starved
  deriving DecidableEq, Repr

/-- The results of the write calls (how much is written at most), of the other system calls, and of
the user's callbacks (a panic message). -/
structure Script where
  writes : List (Except IoError Nat)
  calls : List IoResult
  user : List (Option String)

structure Exec (C Cb : Type) where
  files : List (FileEntry C)
  script : Script
  effects : List (Effect C Cb)

abbrev WorkerM (C Cb : Type) := EStateM Stop (Exec C Cb)

namespace Worker

variable {C Cb : Type}

def emit (e : Effect C Cb) : WorkerM C Cb Unit :=
  modify fun x => { x with effects := x.effects ++ [e] }

def setFiles (files : List (FileEntry C)) : WorkerM C Cb Unit := modify fun x => { x with files }

/-- A system call other than a write. -/
def syscall : WorkerM C Cb IoResult := do
  let x ← get
  match x.script.calls with
  | [] => throw .starved
  | r :: rest =>
    set { x with script := { x.script with calls := rest } }
    return r

/-- A system call whose success is visible as `e`. -/
def perform (e : Effect C Cb) : WorkerM C Cb IoResult := do
  match ← syscall with
  | .ok () =>
    emit e
    return .ok ()
  | .error err =>
    emit (.failed err)
    return .error err

/-- User code runs on this thread and may panic. -/
def callUser (e : Effect C Cb) : WorkerM C Cb Unit := do
  let x ← get
  match x.script.user with
  | [] => throw .starved
  | p :: rest =>
    set { x with script := { x.script with user := rest } }
    emit e
    match p with
    | none => return ()
    | some msg => throw (.panicked msg)

/-- The `?` operator. -/
def liftResult (r : IoResult) : WorkerM C Cb Unit :=
  match r with
  | .ok () => pure ()
  | .error e => throw (.failed e)

/-! ## Writing -/

/-- `IoSlice::advance_slices`. -/
def advanceSlices : List Bytes → Nat → List Bytes
  | [], _ => []
  | s :: ss, n => if s.length ≤ n then advanceSlices ss (n - s.length) else s.drop n :: ss

/-- `write_vectored`: never more than the slices hold. -/
def writeVectored (f : Nat) (slices : List Bytes) : WorkerM C Cb (Except IoError Nat) := do
  let x ← get
  match x.script.writes with
  | [] => throw .starved
  | r :: rest =>
    set { x with script := { x.script with writes := rest } }
    match r with
    | .error e => return .error e
    | .ok n =>
      let bs := slices.flatten.take n
      if bs ≠ [] then emit (.append f bs)
      return .ok bs.length

def writeZero : IoError := { kind := .writeZero, msg := "failed to write whole buffer" }

/-- The loop of `write_all_vectored`. Every turn takes a result of the script, which bounds them. -/
def writeLoop (f : Nat) : Nat → List Bytes → WorkerM C Cb IoResult
  | _, [] => return .ok ()
  | 0, _ => throw .starved
  | fuel + 1, slices => do
    match ← writeVectored f slices with
    | .ok 0 =>
      emit (.failed writeZero)
      return .error writeZero
    | .ok n => writeLoop f fuel (advanceSlices slices n)
    | .error e =>
      if e.kind = .interrupted then writeLoop f fuel slices
      else
        emit (.failed e)
        return .error e

def writeAllVectored (f : Nat) (slices : List Bytes) : WorkerM C Cb IoResult := do
  writeLoop f ((← get).script.writes.length + 1) slices

def MAX_VECTORED_WRITE_SLICES : Nat := 1024

/-- `slice::chunks`: `acc` is the chunk under construction. -/
def chunks {α : Type} (n : Nat) : List α → List α → List (List α)
  | [], [] => []
  | a :: acc, [] => [a :: acc]
  | acc, x :: xs => if acc.length < n then chunks n (acc ++ [x]) xs else acc :: chunks n [x] xs

/-- The loop of `write_batch_vectored`. -/
def writeChunks (f : Nat) : List (List (QueuedWrite Cb)) → WorkerM C Cb IoResult
  | [] => return .ok ()
  | chunk :: rest => do
    let ioSlices := (chunk.filter fun w => !w.write.data.isEmpty).map fun w => w.write.data
    if ioSlices.isEmpty then writeChunks f rest
    else
      match ← writeAllVectored f ioSlices with
      | .ok () => writeChunks f rest
      | .error e => return .error e

def writeBatchVectored (f : Nat) (writes : List (QueuedWrite Cb)) : WorkerM C Cb IoResult :=
  writeChunks f (chunks MAX_VECTORED_WRITE_SLICES [] writes)

/-! ## Synchronizing -/

/-- `sync_data_files` on the files still listed: all but the last leave the list. -/
def syncFiles (offset : Nat) : List (FileEntry C) → WorkerM C Cb IoResult
  | [] => return .ok ()
  | [f] => do
    match ← perform (.sync f.f) with
    | .error e => return .error e
    | .ok () =>
      callUser (.persisted { startingOffset := f.startingOffset, syncedOffset := offset }
        f.onPersisted)
      setFiles [{ f with syncId := offset }]
      return .ok ()
  | f :: g :: fs => do
    setFiles (g :: fs)
    match ← perform (.sync f.f) with
    | .error e => return .error e
    | .ok () => syncFiles offset (g :: fs)

def syncDataFiles (offset : Nat) : WorkerM C Cb IoResult := do
  syncFiles offset (← get).files

/-! ## Other requests -/

def removeFiles : List Nat → WorkerM C Cb Unit
  | [] => return ()
  | id :: ids => do
    liftResult (← perform (.unlink id))
    removeFiles ids

/-- The `metadata` calls of `GetFlushStat`. -/
def collectStats : List (FileEntry C) → WorkerM C Cb (List FlushStat)
  | [] => return []
  | f :: fs => do
    match ← syscall with
    | .error e =>
      emit (.failed e)
      throw (.failed e)
    | .ok () =>
      let rest ← collectStats fs
      return { startingOffset := f.startingOffset, syncId := f.syncId, ino := f.f } :: rest

def handleNonFlushRequest (r : SeqRequest C Cb) : WorkerM C Cb Unit := do
  match r.req with
  | .appendFile entry =>
    emit (.appendFile entry.f)
    setFiles ((← get).files ++ [entry])
  | .write _ => throw (.panicked "Write request should be handled in run()")
  | .getFlushStat =>
    let stats ← collectStats (← get).files
    emit (.stat r.seq stats)
  | .removeChunks ids =>
    removeFiles ids
    if ids ≠ [] then liftResult (← perform .syncDir)

/-! ## One batch -/

/-- The callbacks of a batch share its result. -/
def answerAll (res : IoResult) : List (QueuedWrite Cb) → WorkerM C Cb Unit
  | [] => return ()
  | w :: ws => do
    match w.write.callback with
    | some cb => callUser (.answer w.seq cb res)
    | none => pure ()
    answerAll res ws

/-- Writes the batch to the current file and, if a write asks for it, synchronizes. -/
def flushWrites (f : Nat) (writes : List (QueuedWrite Cb)) (uptoOffset : Nat) :
    WorkerM C Cb IoResult := do
  match ← writeBatchVectored f writes with
  | .error e => return .error e
  | .ok () => if writes.any (·.write.sync) then syncDataFiles uptoOffset else return .ok ()

/-- The loop of `run_inner`, from a collected batch on. -/
def runBatch (batch : WriteBatch C Cb) : WorkerM C Cb Unit := do
  match batch.writes.getLast? with
  | none =>
    match batch.lastNonFlush with
    | none => throw (.panicked "non-write request must be stored")
    | some r =>
      handleNonFlushRequest r
      emit (.complete r.seq)
  | some lastWrite =>
    match (← get).files.getLast? with
    | none => throw (.panicked "called `Option::unwrap()` on a `None` value")
    | some lastFile =>
      let syncResult ← flushWrites lastFile.f batch.writes lastWrite.write.uptoOffset
      answerAll syncResult batch.writes
      emit (.release batch.bytes)
      liftResult syncResult
      match batch.lastNonFlush with
      | none => emit (.complete batch.maxSeq)
      | some r =>
        handleNonFlushRequest r
        emit (.complete (max batch.maxSeq r.seq))

/-- Runs a batch: how it stops, if it does, the files after it, and its effects. -/
def execBatch (files : List (FileEntry C)) (script : Script) (batch : WriteBatch C Cb) :
    Option Stop × Exec C Cb :=
  match (runBatch batch).run { files, script, effects := [] } with
  | .ok _ x => (none, x)
  | .error e x => (some e, x)

/-! ## The whole loop -/

/-- `collect_write_batch`: at most `budget` requests arrive before the deadline. -/
def collectWriteBatch : Nat → WriteBatch C Cb → List (SeqRequest C Cb) →
    WriteBatch C Cb × List (SeqRequest C Cb)
  | 0, b, q => (b, q)
  | _ + 1, b, [] => (b, [])
  | budget + 1, b, r :: q =>
    if b.wantsMore then
      let (isWrite, b) := b.pushSeqRequest r
      if isWrite then collectWriteBatch budget b q else (b, q)
    else (b, r :: q)

/-- How one turn of the loop goes. -/
structure Cut where
  budget : Nat
  script : Script

/-- The worker between two turns of its loop, or stopped. -/
structure Run (C Cb : Type) where
  files : List (FileEntry C)
  effects : List (Effect C Cb)
  queue : List (SeqRequest C Cb)
  stop : Option Stop

/-- The first batch that a turn takes from a queue. -/
def nextBatch (maxItems budget : Nat) (r : SeqRequest C Cb) (q : List (SeqRequest C Cb)) :
    WriteBatch C Cb × List (SeqRequest C Cb) :=
  let (isWrite, b) := (WriteBatch.new maxItems).pushSeqRequest r
  if isWrite then collectWriteBatch budget b q else (b, q)

/-- The batch of a turn that starts with the request `r`, and its execution. -/
def turn (maxItems : Nat) (c : Cut) (files : List (FileEntry C)) (r : SeqRequest C Cb)
    (q : List (SeqRequest C Cb)) : WriteBatch C Cb × Option Stop × Exec C Cb :=
  let batch := (nextBatch maxItems c.budget r q).1
  (batch, execBatch files c.script batch)

/-- `run_inner`, turn by turn, until the queue or the list of turns ends or a batch fails. -/
def runInner (maxItems : Nat) : List Cut → Run C Cb → Run C Cb
  | [], w => w
  | c :: cuts, w =>
    match w.stop, w.queue with
    | some _, _ => w
    | none, [] => w
    | none, r :: q =>
      let (_, stop, x) := turn maxItems c w.files r q
      runInner maxItems cuts
        { files := x.files, effects := w.effects ++ x.effects,
          queue := (nextBatch maxItems c.budget r q).2, stop }

end Worker

end Wal

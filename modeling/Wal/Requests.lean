import Wal.Chunk

/-!
# Requests to the flush worker

What the WAL sends through the channel, and the batch the worker collects from it. Time stamps and
metrics are left out; a queued write keeps its sequence number instead, which names the request in
traces.
-/

namespace Wal

/-- A chunk file the worker may still have to synchronize. `onPersisted` is the checkpoint handed to
`on_chunk_persisted`, `syncId` the last synchronized offset. -/
structure FileEntry (C : Type) where
  startingOffset : Nat
  f : Nat
  onPersisted : Option C
  syncId : Nat
  deriving DecidableEq, Repr

def FileEntry.new {C : Type} (startingOffset : Nat) (f : Nat) (onPersisted : Option C) :
    FileEntry C := { startingOffset, f, onPersisted, syncId := 0 }

/-- What `on_chunk_persisted` is told: the records up to `syncedOffset` are on stable storage. -/
structure ChunkPersisted where
  startingOffset : Nat
  syncedOffset : Nat
  deriving DecidableEq, Repr

/-- `Cb` identifies the user's callback. -/
structure WriteRequest (Cb : Type) where
  uptoOffset : Nat
  data : Bytes
  sync : Bool
  callback : Option Cb
  deriving DecidableEq, Repr

inductive WorkerRequest (C Cb : Type)
  | appendFile (entry : FileEntry C)
  | removeChunks (chunks : List Nat)
  | write (w : WriteRequest Cb)
  | getFlushStat
  deriving DecidableEq, Repr

structure SeqRequest (C Cb : Type) where
  seq : Nat
  req : WorkerRequest C Cb
  deriving DecidableEq, Repr

structure QueuedWrite (Cb : Type) where
  seq : Nat
  write : WriteRequest Cb
  deriving DecidableEq, Repr

structure WriteBatch (C Cb : Type) where
  writes : List (QueuedWrite Cb)
  maxSeq : Nat
  lastNonFlush : Option (SeqRequest C Cb)
  maxSize : Nat
  deriving DecidableEq, Repr

namespace WorkerRequest

variable {C Cb : Type}

/-- The bytes a request reserves in the queue: only writes carry data. -/
def reserved : WorkerRequest C Cb → Nat
  | .write w => w.data.length
  | _ => 0

def isWrite : WorkerRequest C Cb → Bool
  | .write _ => true
  | _ => false

end WorkerRequest

namespace WriteBatch

variable {C Cb : Type}

def new (maxSize : Nat) : WriteBatch C Cb :=
  { writes := [], maxSeq := 0, lastNonFlush := none, maxSize }

/-- `true` if the request is a write and was added to the batch. -/
def pushSeqRequest (b : WriteBatch C Cb) (r : SeqRequest C Cb) : Bool × WriteBatch C Cb :=
  match r.req with
  | .write write =>
    (true, { b with maxSeq := max b.maxSeq r.seq, writes := b.writes ++ [{ seq := r.seq, write }] })
  | _ => (false, { b with lastNonFlush := some r })

/-- The loop condition of `collect_write_batch`: the batch has room and no request to end it. -/
def wantsMore (b : WriteBatch C Cb) : Bool :=
  b.lastNonFlush.isNone && decide (b.writes.length < b.maxSize)

/-- The requests of a batch, in the order they were taken from the channel. -/
def requests (b : WriteBatch C Cb) : List (SeqRequest C Cb) :=
  b.writes.map (fun w => { seq := w.seq, req := .write w.write }) ++ b.lastNonFlush.toList

/-- The bytes that the batch gives back to the queue. -/
def bytes (b : WriteBatch C Cb) : Nat := (b.writes.map fun w => w.write.data.length).sum

theorem push_requests {b : WriteBatch C Cb} {r : SeqRequest C Cb} (h : b.lastNonFlush = none) :
    (b.pushSeqRequest r).2.requests = b.requests ++ [r] := by
  obtain ⟨seq, req⟩ := r
  cases req <;> simp [pushSeqRequest, requests, h]

theorem push_true {b : WriteBatch C Cb} {r : SeqRequest C Cb} :
    (b.pushSeqRequest r).1 = true → (b.pushSeqRequest r).2.lastNonFlush = b.lastNonFlush := by
  unfold pushSeqRequest
  split <;> simp

theorem push_bytes {b : WriteBatch C Cb} {r : SeqRequest C Cb} :
    (b.pushSeqRequest r).2.bytes = b.bytes + r.req.reserved := by
  obtain ⟨seq, req⟩ := r
  cases req <;> simp [pushSeqRequest, bytes, WorkerRequest.reserved]

end WriteBatch

/-- The live WAL: the open chunk, and the closed ones ordered by id (a `BTreeMap`). The channel to
the worker is part of the session, where both threads see it. -/
structure ChunkedWal (C : Type) where
  config : Config
  «open» : OpenChunk
  closed : List (Nat × ClosedChunk C)
  /-- `worker_handle.is_some()`. -/
  workerHandle : Bool

/-- `BTreeMap::insert`. -/
def insertChunk {α : Type} (id : Nat) (v : α) : List (Nat × α) → List (Nat × α)
  | [] => [(id, v)]
  | (i, w) :: rest =>
    if id < i then (id, v) :: (i, w) :: rest
    else if id = i then (id, v) :: rest
    else (i, w) :: insertChunk id v rest

theorem insertChunk_of_lt {α : Type} {id : Nat} {v : α} {l : List (Nat × α)}
    (h : ∀ p ∈ l, p.1 < id) : insertChunk id v l = l ++ [(id, v)] := by
  induction l with
  | nil => rfl
  | cons p rest ih =>
    obtain ⟨i, w⟩ := p
    have hi : i < id := h (i, w) (by simp)
    simp only [insertChunk, List.cons_append]
    rw [if_neg (by omega), if_neg (by omega), ih fun p hp => h p (List.mem_cons_of_mem _ hp)]

end Wal

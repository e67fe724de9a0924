import Wal.Client
import Wal.Trace

/-!
# The WAL, its worker and the disk

The state of a session is shared by two threads: the client, who runs one method of the WAL at a
time, and the flush worker. `System.step` takes one step of one of them, or opens the WAL, or ends
the session; its label says which, and what the environment decides there: results of I/O, when a
batch is complete, what a crash keeps. A batch runs with results fixed in advance, and its effects
become visible one at a time.

Beside what the code has, the state keeps the history that statements are about: the log of accepted
records, the requests that were sent, the effects of the worker, the notifications, and the records
that were acknowledged.
-/

namespace Wal

open Lib

/-- `sync_channel(1024)`. -/
def CHANNEL_CAPACITY : Nat := 1024

/-- Where the client stands in `FlushClient::send`: before the byte limit; with its bytes reserved;
or with the error of a closed channel, before it gives them back. -/
inductive Sending
  | idle
  | reserved
  | rejected
  deriving DecidableEq, Repr

inductive Client (A C Cb : Type)
  | idle (wal : ChunkedWal C)
  | busy (op : Op A C Cb)
      (p : Prog (ClientAct A C Cb) IoResult (Except Fault (Ret C) × ChunkedWal C))
  | panicked

/-- Where the worker stands in `run`. In `exec`, `held` of the batch's bytes are not given back
yet, and `run_inner` stops behind the effects if `stop` says so. The others are the steps of the
termination: release every byte, record the failure, drop the receiver. -/
inductive WorkerPc (C Cb : Type)
  | recv
  | collect (b : WriteBatch C Cb)
  | exec (b : WriteBatch C Cb) (effects : List (Effect C Cb)) (stop : Option Stop) (held : Nat)
  | stopping (err : Option IoError)
  | released (err : IoError)
  | exiting
  | terminated

/-- A request that the channel accepted, and how many records the log had then. -/
structure SentRequest (C Cb : Type) where
  request : SeqRequest C Cb
  mark : Nat

/-- A call of `on_chunk_persisted`, and how much of that file was on stable storage then. -/
structure Notification where
  persisted : ChunkPersisted
  durable : Nat
  deriving DecidableEq, Repr

structure Session (A C Cb : Type) where
  config : Config
  client : Client A C Cb
  /-- `FlushClient::tx.is_some()`. -/
  tx : Bool
  sentSeq : Nat
  sending : Sending
  queue : List (SeqRequest C Cb)
  doneSeq : Nat
  /-- `WorkerStatus::Failed`. -/
  status : Option IoError
  used : Nat
  files : List (FileEntry C)
  worker : WorkerPc C Cb
  sent : List (SentRequest C Cb)
  /-- The batches that were executed, the current one last. -/
  batches : List (WriteBatch C Cb)
  trace : List (Effect C Cb)
  /-- Chunks that were drained and not yet passed to `send_remove_chunks`. -/
  drained : List Nat
  returned : Option (Op A C Cb × Except Fault (Ret C))

/-- `log` is the history of the last session: the records replayed when it was opened, the initial
record of the chunk created then, and the records accepted since. `acked` are the records of all
sessions that were acknowledged. -/
structure System (A C Cb : Type) where
  fs : Fs
  session : Option (Session A C Cb)
  log : List (LogEntry A C)
  acked : List (LogEntry A C)
  notified : List Notification

/-- A WAL directory that was never opened. -/
def System.fresh (A C Cb : Type) : System A C Cb :=
  { fs := .fresh, session := none, log := [], acked := [], notified := [] }

inductive Label {A C : Type} (Cb : Type) (sm : StateMachine A C)
  | open (config : Config) (state : sm.State)
  /-- The process dies while it opens the WAL, at the `k`-th visible point. -/
  | openCrash (config : Config) (state : sm.State) (k : Nat)
  | crash (keep : Fs.Keep)
  /-- The WAL is dropped after its shutdown. -/
  | drop
  | call (op : Op A C Cb)
  | client (r : IoResult)
  | recv
  | collect
  | exec (script : Script)
  | effect
  | releaseAll
  | fail
  | dropReceiver

def walIsShutDown : IoError := .other "Failed to send request: WAL is shut down"

def channelClosed : IoError := .other "Failed to send request: sending on a closed channel"

namespace Session

variable {A C Cb : Type}

/-- `FlushClient::acquire` waits. -/
def waits (used limit size : Nat) : Prop := used > 0 ∧ used + size > limit

instance (used limit size : Nat) : Decidable (waits used limit size) :=
  inferInstanceAs (Decidable (_ ∧ _))

/-- The client goes on with an answer. -/
def respond (s : Session A C Cb) (op : Op A C Cb)
    (k : IoResult → Prog (ClientAct A C Cb) IoResult (Except Fault (Ret C) × ChunkedWal C))
    (r : IoResult) : Session A C Cb :=
  { s with client := .busy op (k r), sending := .idle }

/-- The receiver still exists. -/
def receiving (s : Session A C Cb) : Bool :=
  match s.worker with
  | .terminated => false
  | _ => true

/-- `FlushClient::send`. -/
def sendStep (s : Session A C Cb) (mark : Nat) (op : Op A C Cb) (req : WorkerRequest C Cb)
    (k : IoResult → Prog (ClientAct A C Cb) IoResult (Except Fault (Ret C) × ChunkedWal C)) :
    Option (Session A C Cb) :=
  match s.sending with
  | .idle =>
    if s.tx = false then some (s.respond op k (.error walIsShutDown))
    else if waits s.used s.config.flushQueueMaxBytes req.reserved then none
    else some { s with used := s.used + req.reserved, sending := .reserved }
  | .reserved =>
    if s.receiving = false then
      some { s with sentSeq := s.sentSeq + 1, sending := .rejected }
    else if s.queue.length < CHANNEL_CAPACITY then
      let request : SeqRequest C Cb := { seq := s.sentSeq + 1, req }
      some { s.respond op k (.ok ()) with
        sentSeq := s.sentSeq + 1
        queue := s.queue ++ [request]
        sent := s.sent ++ [{ request, mark }] }
    else none
  | .rejected =>
    -- the subtraction of `release` is checked
    if s.used < req.reserved then some { s with client := .panicked, sending := .idle }
    else some { s.respond op k (.error channelClosed) with used := s.used - req.reserved }

/-- `WorkerState::wait_for`, if it does not have to wait. -/
def waitFor (s : Session A C Cb) (targetSeq : Nat) : Option IoResult :=
  if s.doneSeq ≥ targetSeq then some (.ok ())
  else match s.status with
    | some e => some (.error e)
    | none => none

/-- A method returns. -/
def finish (s : Session A C Cb) (op : Op A C Cb) (res : Except Fault (Ret C)) (w : ChunkedWal C) :
    Session A C Cb :=
  { s with
    client := match res with
      | .error (.panic _) => .panicked
      | _ => .idle w
    drained := match res with
      | .ok (.chunkIds ids) => s.drained ++ ids
      | _ => s.drained
    returned := some (op, res) }

/-- The chunks left to remove when `ids` are handed to `send_remove_chunks`. -/
def handOver (drained : List Nat) : Op A C Cb → List Nat
  | .sendRemoveChunks ids => if ids <+: drained then drained.drop ids.length else drained
  | _ => drained

section
variable [Crc32fast] [Encode A] [Encode C]

def call (s : Session A C Cb) (op : Op A C Cb) : Option (Session A C Cb) :=
  match s.client with
  | .idle w => some { s with client := .busy op (op.run w), drained := handOver s.drained op }
  | _ => none

end

/-! ## The worker -/

def recvStep (s : Session A C Cb) : Option (Session A C Cb) :=
  match s.worker, s.queue with
  | .recv, r :: queue =>
    let b := ((WriteBatch.new s.config.flushBatchMaxItems).pushSeqRequest r).2
    some { s with queue, worker := .collect b }
  | .recv, [] => if s.tx then none else some { s with worker := .stopping none }
  | _, _ => none

/-- One more request arrives before the deadline. -/
def collectStep (s : Session A C Cb) : Option (Session A C Cb) :=
  match s.worker, s.queue with
  | .collect b, r :: queue =>
    if b.wantsMore && decide (0 < s.config.flushBatchWait) then
      some { s with queue, worker := .collect (b.pushSeqRequest r).2 }
    else none
  | _, _ => none

def execStep (s : Session A C Cb) (script : Script) : Option (Session A C Cb) :=
  match s.worker with
  | .collect b =>
    let (stop, x) := Worker.execBatch s.files script b
    if stop = some .starved then none
    else some { s with
      files := x.files
      batches := s.batches ++ [b]
      worker := .exec b x.effects stop b.bytes }
  | _ => none

/-- The error that `run` records. -/
def stopError : Stop → IoError
  | .failed e => e
  | .panicked msg => .other ("FlushWorker panicked: " ++ msg)
  | .starved => .other ""

/-- What an effect does to the state that the worker shares with the client: `release` and
`complete`. -/
def onEffect (s : Session A C Cb) (e : Effect C Cb) : Session A C Cb :=
  { s with
    used := s.used - e.release?.getD 0
    doneSeq := max s.doneSeq (e.complete?.getD 0) }

end Session

/-- What an effect does to the directory; a file that is not there cannot be removed. -/
def Fs.onEffect {C Cb : Type} (fs : Fs) (e : Effect C Cb) : Option Fs :=
  match e with
  | .append f bs => some (fs.append f bs)
  | .sync f => some (fs.syncData f)
  | .unlink id => if id ∈ fs.dir then some (fs.unlink id) else none
  | .syncDir => some fs.syncDir
  | _ => some fs

namespace System

variable {A C Cb : Type}

/-- The records that an answer acknowledges: a sync write that got `Ok` covers those that were in
the log when it was sent. -/
def ackedBy (log : List (LogEntry A C)) (s : Session A C Cb) (b : WriteBatch C Cb)
    (e : Effect C Cb) : List (LogEntry A C) :=
  match e with
  | .answer seq _ (.ok ()) =>
    match s.sent.find? (fun r => r.request.seq = seq),
      b.writes.find? (fun w => w.seq = seq) with
    | some r, some w => if w.write.sync then log.take r.mark else []
    | _, _ => []
  | _ => []

def notifiedBy (fs : Fs) (e : Effect C Cb) : List Notification :=
  match e with
  | .persisted p _ => [{ persisted := p, durable := (fs.file p.startingOffset).synced }]
  | _ => []

/-- The next effect of the batch in execution, or the end of the batch. -/
def effectStep (sys : System A C Cb) (s : Session A C Cb) : Option (System A C Cb) :=
  match s.worker with
  | .exec b (e :: effects) stop held =>
    match sys.fs.onEffect e with
    | none => none
    | some fs =>
      some { sys with
        fs
        session := some { s.onEffect e with
          worker := .exec b effects stop (held - e.release?.getD 0)
          trace := s.trace ++ [e] }
        acked := sys.acked ++ ackedBy sys.log s b e
        notified := sys.notified ++ notifiedBy sys.fs e }
  | .exec _ [] stop _ =>
    let worker := match stop with
      | none => .recv
      | some stop => .stopping (some (Session.stopError stop))
    some { sys with session := some { s with worker } }
  | _ => none

/-- `release_all`, the first step of `run` behind `run_inner`. -/
def releaseAllStep (s : Session A C Cb) : Option (Session A C Cb) :=
  match s.worker with
  | .stopping none => some { s with used := 0, worker := .exiting }
  | .stopping (some e) => some { s with used := 0, worker := .released e }
  | _ => none

/-- `WorkerState::fail`. -/
def failStep (s : Session A C Cb) : Option (Session A C Cb) :=
  match s.worker with
  | .released e => some { s with status := some e, worker := .exiting }
  | _ => none

/-- The thread ends, and the receiver with it. -/
def dropReceiverStep (s : Session A C Cb) : Option (Session A C Cb) :=
  match s.worker with
  | .exiting => some { s with queue := [], worker := .terminated }
  | _ => none

/-- One step of the client: an act, with the environment's answer `r` where I/O decides, or the
return of the method. -/
def clientStep (sys : System A C Cb) (s : Session A C Cb) (r : IoResult) :
    Option (System A C Cb) :=
  match s.client with
  | .busy op (.done (res, w)) => some { sys with session := some (s.finish op res w) }
  | .busy op (.act a k) =>
    match a with
    | .send req =>
      (s.sendStep sys.log.length op req k).map fun s => { sys with session := some s }
    | .createNew id =>
      match r with
      | .error _ => some { sys with session := some (s.respond op k r) }
      | .ok () =>
        if id ∈ sys.fs.dir then
          some { sys with session := some (s.respond op k (.error alreadyExists)) }
        else some { sys with fs := sys.fs.createNew id, session := some (s.respond op k r) }
    | .syncDir =>
      match r with
      | .error _ => some { sys with session := some (s.respond op k r) }
      | .ok () => some { sys with fs := sys.fs.syncDir, session := some (s.respond op k r) }
    | .close => some { sys with session := some { s.respond op k (.ok ()) with tx := false } }
    | .join =>
      if s.receiving then none else some { sys with session := some (s.respond op k (.ok ())) }
    | .waitIdle =>
      (s.waitFor s.sentSeq).map fun r => { sys with session := some (s.respond op k r) }
    | .note entry =>
      some { sys with log := sys.log ++ [entry], session := some (s.respond op k (.ok ())) }
  | _ => none

section
variable [Crc32fast] [Encode A] [Decode A] [Encode C] [Decode C]

/-- A session as `ChunkedWal::new` starts it. -/
def startSession {sm : StateMachine A C} (config : Config) (o : Opened sm) : Session A C Cb where
  config
  client := .idle o.wal
  tx := true
  sentSeq := 0
  sending := .idle
  queue := []
  doneSeq := 0
  status := none
  used := 0
  files := [o.entry]
  worker := .recv
  sent := []
  batches := []
  trace := []
  drained := []
  returned := none

/-- What the world sees of an opening, complete or not. -/
def afterOpen (sys : System A C Cb) (v : OpenView A C) (log : List (LogEntry A C)) :
    System A C Cb :=
  { sys with
    fs := v.fs
    log
    notified := sys.notified ++ v.persisted.map fun c =>
      { persisted := c.persisted, durable := c.durable } }

def openStep {sm : StateMachine A C} (sys : System A C Cb) (config : Config) (state : sm.State) :
    System A C Cb :=
  match (openLocked sm config state).run (.init sys.fs) with
  | .ok o x =>
    { sys.afterOpen x.toOpenView (x.applied ++ x.created) with
      session := some (startSession config o) }
  | .error _ x => sys.afterOpen x.toOpenView sys.log

/-- The process dies at a visible point of the opening: if the initial record of a new chunk is
written then, the log is the one a complete opening would have. -/
def openCrashStep {sm : StateMachine A C} (sys : System A C Cb) (config : Config)
    (state : sm.State) (k : Nat) : Option (System A C Cb) :=
  let x := match (openLocked sm config state).run (.init sys.fs) with
    | .ok _ x => x
    | .error _ x => x
  (x.trail[k]?).map fun v =>
    sys.afterOpen v (if v.created.isEmpty then sys.log else v.applied ++ v.created)

/-- **One step of the system.** -/
def step {sm : StateMachine A C} (sys : System A C Cb) (l : Label Cb sm) :
    Option (System A C Cb) :=
  match l, sys.session with
  | .open config state, none => some (sys.openStep config state)
  | .openCrash config state k, none => sys.openCrashStep config state k
  | .crash keep, _ => (sys.fs.crash keep).map fun fs => { sys with fs, session := none }
  | .drop, some s =>
    match s.client, s.worker with
    | .idle w, .terminated => if w.workerHandle then none else some { sys with session := none }
    | _, _ => none
  | .call op, some s => (s.call op).map fun s => { sys with session := some s }
  | .client r, some s => sys.clientStep s r
  | .recv, some s => s.recvStep.map fun s => { sys with session := some s }
  | .collect, some s => s.collectStep.map fun s => { sys with session := some s }
  | .exec script, some s => (s.execStep script).map fun s => { sys with session := some s }
  | .effect, some s => sys.effectStep s
  | .releaseAll, some s => (releaseAllStep s).map fun s => { sys with session := some s }
  | .fail, some s => (failStep s).map fun s => { sys with session := some s }
  | .dropReceiver, some s => (dropReceiverStep s).map fun s => { sys with session := some s }
  | _, _ => none

end

end System

end Wal

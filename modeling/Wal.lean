import Wal.Record
import Wal.Fs
import Wal.Requests
import Wal.Recover
import Wal.Worker
import Wal.WorkerSpec
import Wal.Trace
import Wal.FailStop
import Wal.Batching
import Wal.Lib.Runs
import Wal.Client
import Wal.System
import Wal.Register
import Wal.Moves
import Wal.Flow
import Wal.History
import Wal.Waiting
import Wal.ClientRules
import Wal.Framing
import Wal.Tape
import Wal.Layout
import Wal.Contract
import Wal.Decoding
import Wal.Opening
import Wal.Reads
import Wal.Preserving
import Wal.Discarding
import Wal.Overflow
import Wal.Idempotent
import Wal.Encoded
import Wal.ZeroFilled
import Wal.BitFlip
import Wal.Reading
import Wal.Rotating
import Wal.Unwritten
import Wal.Advancing
import Wal.Agreeing
import Wal.Memory
import Wal.Readable
import Wal.Bounded
import Wal.Fullness
import Wal.Canonical
import Wal.Panics
import Wal.Dumping
import Wal.Lib.Reader
import Wal.Streaming
import Wal.Unseen
import Wal.Contiguous
import Wal.Answering
import Wal.Notifying
import Wal.Steering
import Wal.Truthful
import Wal.Scanning
import Wal.FileName
import Wal.Listing
import Wal.Vectored
import Wal.Announcing
import Wal.Ledger
import Wal.UserSession
import Wal.Reviving
import Wal.Returning
import Wal.Surviving
import Wal.CarefulClient
import Wal.KeepingLog
import Wal.LogOnDisk
import Wal.OpeningCrash
import Wal.Enduring
import Wal.Refining
import Wal.Reporting

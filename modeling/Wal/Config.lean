import Wal.Basic

/-!
# Configuration

`Config`: every setting is optional, and a getter of the setting's name gives its value or default.
`validate` is what opening a WAL checks first.
-/

namespace Wal

structure Config where
  dir : String
  readBufferSize? : Option Nat := none
  chunkMaxRecords? : Option Nat := none
  chunkMaxSize? : Option Nat := none
  truncateIncompleteRecord? : Option Bool := none
  /-- A `Duration`, in nanoseconds. -/
  flushBatchWait? : Option Nat := none
  flushBatchMaxItems? : Option Nat := none
  flushQueueMaxBytes? : Option Nat := none
  deriving DecidableEq, Repr

def MAX_READ_BUFFER_SIZE : Nat := 1024 * 1024 * 1024

namespace Config

variable (c : Config)

def readBufferSize : Nat := c.readBufferSize?.getD (64 * 1024 * 1024)

def chunkMaxRecords : Nat := c.chunkMaxRecords?.getD (1024 * 1024)

def chunkMaxSize : Nat := c.chunkMaxSize?.getD (1024 * 1024 * 1024)

def truncateIncompleteRecord : Bool := c.truncateIncompleteRecord?.getD true

def flushBatchWait : Nat := c.flushBatchWait?.getD 1000000

def flushBatchMaxItems : Nat := c.flushBatchMaxItems?.getD 2048

def flushQueueMaxBytes : Nat := c.flushQueueMaxBytes?.getD (64 * 1024 * 1024)

def rejectZero (name : String) (value : Option Nat) : IoResult :=
  if value ≠ some 0 then .ok ()
  else .error { kind := .invalidInput, msg := "Config::" ++ name ++ " is 0" }

def validate : IoResult := do
  if c.dir.isEmpty then
    throw { kind := .invalidInput, msg := "Config::dir is empty" }
  rejectZero "read_buffer_size" c.readBufferSize?
  rejectZero "chunk_max_records" c.chunkMaxRecords?
  rejectZero "chunk_max_size" c.chunkMaxSize?
  rejectZero "flush_batch_max_items" c.flushBatchMaxItems?
  rejectZero "flush_queue_max_bytes" c.flushQueueMaxBytes?
  if c.readBufferSize > MAX_READ_BUFFER_SIZE then
    throw { kind := .invalidInput,
            msg := "Config::read_buffer_size " ++ toString c.readBufferSize ++ " exceeds the "
              ++ toString MAX_READ_BUFFER_SIZE ++ " byte limit" }

variable {c}

theorem rejectZero_ok {name : String} {value : Option Nat} (h : rejectZero name value = .ok ()) :
    value ≠ some 0 := by
  unfold rejectZero at h
  split at h
  · assumption
  · cases h

theorem validate_pos (h : c.validate = .ok ()) :
    0 < c.readBufferSize ∧ 0 < c.chunkMaxRecords ∧ 0 < c.chunkMaxSize ∧
      0 < c.flushBatchMaxItems ∧ 0 < c.flushQueueMaxBytes := by
  unfold validate at h
  simp only [bind, Except.bind, throw, throwThe, MonadExceptOf.throw, pure, Except.pure] at h
  split at h
  · cases h
  have pos : ∀ {o : Option Nat} {d : Nat}, 0 < d → o ≠ some 0 → 0 < o.getD d := by
    intro o d hd ho
    cases o with
    | none => exact hd
    | some n => exact Nat.pos_of_ne_zero fun h => ho (congrArg some h)
  repeat' (split at h; · cases h)
  rename_i h1 _ _ h2 _ _ h3 _ _ h4 _ _ h5 _
  exact ⟨pos (by decide) (rejectZero_ok h1), pos (by decide) (rejectZero_ok h2),
    pos (by decide) (rejectZero_ok h3), pos (by decide) (rejectZero_ok h4),
    pos (by decide) (rejectZero_ok h5)⟩

end Config

end Wal

import Wal.Encoded

/-!
# Reading a record back

`read_record` reads the bytes of a segment from the file of its chunk and decodes them. The file
handle of a chunk is open as long as the chunk is loaded, so it can be read after the file was
unlinked. The assertion on the segment in debug builds is left out; `debug` is how a segment is
printed.
-/

namespace Wal

section
variable (Rec : Type) [Decode Rec] (debug : Segment → String)

/-- `read_record`, over the present contents of the file. -/
def Chunk.readRecord (c : Chunk) (data : Bytes) (segment : Segment) : Except IoError Rec :=
  let offset := segment.offset - c.globalStart
  if data.length < offset + segment.size then .error WALRecord.shortRead
  else
    match (decode (α := Rec) ((data.drop offset).take segment.size)).1 with
    | .ok r => .ok r
    | .error e => .error (e.context
        ("decode Record " ++ debug segment ++ " in " ++ displayChunkId c.chunkId))

end

section
variable (A : Type) {C : Type} [Crc32fast] [Encode A] [Decode A] [Decode C]
    (debug : Segment → String)

/-- `load_record`. -/
def ChunkedWal.loadRecord (w : ChunkedWal C) (fs : Fs) (chunkId : Nat) (segment : Segment) :
    Except IoError (WALRecord A C) :=
  match w.closed.lookup chunkId with
  | none => .error { kind := .notFound,
                     msg := "Chunk not found: " ++ displayChunkId chunkId ++
                       "; when:(open cache-miss read)" }
  | some c => c.chunk.readRecord (WALRecord A C) debug (fs.file c.chunk.f).data segment

/-- A `ClosedChunkReader` has a copy of the closed chunks. -/
structure ClosedChunkReader (C : Type) where
  chunks : List (Nat × ClosedChunk C)

def ChunkedWal.reader (w : ChunkedWal C) : ClosedChunkReader C := { chunks := w.closed }

def ClosedChunkReader.readRecord (r : ClosedChunkReader C) (fs : Fs) (chunkId : Nat)
    (segment : Segment) :
    Except IoError (WALRecord A C) :=
  match r.chunks.lookup chunkId with
  | none => .error { kind := .notFound, msg := "Chunk not found: " ++ displayChunkId chunkId }
  | some c => c.chunk.readRecord (WALRecord A C) debug (fs.file c.chunk.f).data segment

end

end Wal

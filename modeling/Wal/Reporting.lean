import Wal.Dumping
import Wal.Readable
import Wal.Surviving

/-!
# What a WAL reports of itself

`dump_loaded_records` reads the files of the chunks that are loaded, whatever of them the worker has
written by then, and the statistics come from the index. `runs_reported` compares both with the log:
a dump yields the records whose last byte is in the file (`stored`) and then at most one error, and
the statistics count every record of the chunk, in the file or not.
-/

namespace Wal

open Lib

section
variable {A C : Type}

structure ChunkStat (C : Type) where
  chunkId : Nat
  recordsCount : Nat
  globalStart : Nat
  globalEnd : Nat
  size : Nat
  logState : C

def ClosedChunk.stat (c : ClosedChunk C) : ChunkStat C where
  chunkId := c.chunk.chunkId
  recordsCount := c.chunk.recordsCount
  globalStart := c.chunk.globalStart
  globalEnd := c.chunk.globalEnd
  size := c.chunk.chunkSize
  logState := c.state

namespace ChunkedWal

variable (w : ChunkedWal C)

def closedChunkStats : List (ChunkStat C) := w.closed.map fun p => p.2.stat

def openChunkStat (checkpoint : C) : ChunkStat C where
  chunkId := w.open.chunk.chunkId
  recordsCount := w.open.chunk.recordsCount
  globalStart := w.open.chunk.globalStart
  globalEnd := w.open.chunk.globalEnd
  size := w.open.chunk.chunkSize
  logState := checkpoint

/-- The chunks that `dump_loaded_records` reads: the closed ones in the order of the table, then the
open one. -/
def loadedIds : List Nat := w.closed.map (·.1) ++ [w.open.chunk.chunkId]

variable [Crc32fast] [Encode A] [Decode A] [Decode C] {σ : Type}

/-- `dump_loaded_records`, of the files as they are at one moment. -/
def dumpLoadedRecords (fs : Fs) (writeRecord : WriteRecord A C σ) : EStateM IoError σ Unit :=
  dumpChunks fs writeRecord w.loadedIds

end ChunkedWal

end

/-! ## The records in a file -/

section
variable {A C : Type}

/-- The records of a chunk in the log whose last byte is in its file. -/
def stored (fs : Fs) (log : List (LogEntry A C)) (id : Nat) : List (LogEntry A C) :=
  (inChunk id log).filter fun e => e.end_ ≤ id + (fs.file id).data.length

/-- A record of a chunk as a dump shows it, with its place in the file. -/
def LogEntry.shown (id : Nat) (e : LogEntry A C) : Segment × WALRecord A C :=
  ({ offset := e.2.2.offset - id, size := e.2.2.size }, e.1)

/-- The error that ends a dump of a chunk. -/
def tornIn (A C : Type) [Crc32fast] [Encode A] [Decode A] [Decode C] (fs : Fs) (id : Nat) :
    Option IoError :=
  failureIn A C (fs.file id).data id

/-- What a dump of a chunk shows: the records in the file, and the error `torn` behind them. -/
def reported (fs : Fs) (log : List (LogEntry A C)) (torn : Nat → Option IoError) (id : Nat) :
    List (DumpItem A C) :=
  let items : List (Except IoError (Segment × WALRecord A C)) :=
    (stored fs log id).map (fun e => .ok (e.shown id)) ++ (torn id).toList.map .error
  items.zipIdx.map fun p => (id, p.2, p.1)

variable [Crc32fast] [Encode A] [Encode C]

theorem shown_entriesFrom (id off : Nat) (rs : List (WALRecord A C)) :
    (entriesFrom id (id + off) rs).map (LogEntry.shown id) = spelled off rs := by
  induction rs generalizing off with
  | nil => rfl
  | cons r rs ih =>
    rw [entriesFrom, Nat.add_assoc, List.map_cons, ih]
    show (({ offset := id + off - id, size := (enc r).length } : Segment), r) :: _ = _
    rw [Nat.add_sub_cancel_left]
    rfl

variable [Decode A] [Decode C] [WALRecord.LawfulAction A] [LawfulCodec C]

theorem entriesFrom_filter_cut {id : Nat} {rs rest : List (WALRecord A C)} {t : Bytes}
    (hrest : ∀ r ∈ rest, Encodes r) (ht : Torn rest t) :
    (entriesFrom id id (rs ++ rest)).filter (fun e => e.end_ ≤ id + (encAll rs ++ t).length) =
      entriesFrom id id rs := by
  have hin : ∀ e ∈ entriesFrom id id rs, e.end_ ≤ id + (encAll rs ++ t).length := by
    intro e he
    have hle : e.end_ ≤ id + (encAll rs).length := (mem_entriesFrom he).2.2.2
    rw [List.length_append]
    omega
  have hout : ∀ e ∈ entriesFrom id (id + (encAll rs).length) rest,
    ¬ e.end_ ≤ id + (encAll rs ++ t).length := by
    intro e he
    cases rest with
    | nil => cases he
    | cons r rest =>
      have hhead : id + (encAll rs).length + (enc r).length ≤ e.end_ :=
        head_le_of_mem_entriesFrom he
      have hlt := ht.length_lt (LawfulRecord.enc_ne_nil (hrest r List.mem_cons_self))
      rw [List.length_append]
      omega
  rw [entriesFrom_append, List.filter_append, List.filter_eq_self.2 fun e he =>
    decide_eq_true (hin e he), List.filter_eq_nil_iff.2 fun e he => by
    rw [decide_eq_true_eq]; exact hout e he, List.append_nil]

variable {fs : Fs} {log : List (LogEntry A C)} {id : Nat} {rs : List (WALRecord A C)}
    {waiting : Bytes}

/-- **The file of a chunk** of which some bytes are still `waiting`. -/
theorem stored_split (henc : ∀ r ∈ rs, Encodes r) (hlog : inChunk id log = entriesFrom id id rs)
    (hbytes : (fs.file id).data ++ waiting = encAll rs) : ∃ rs' rest t, rs = rs' ++ rest ∧
      (fs.file id).data = encAll rs' ++ t ∧ Torn rest t ∧ recordsIn A C (fs.file id).data id =
        spelled 0 rs' ∧
      TornError t (failureIn A C (fs.file id).data id) ∧
        stored fs log id = entriesFrom id id rs' := by
  obtain ⟨rs', rest, t, rfl, hdata, ht, hrec, -, herr⟩ := recordsIn_cut henc ⟨waiting, hbytes⟩ id
  refine ⟨rs', rest, t, rfl, hdata, ht, hrec, herr, ?_⟩
  unfold stored
  rw [hlog, hdata]
  exact entriesFrom_filter_cut (fun r hr => henc r (List.mem_append_right _ hr)) ht

/-- **A dump of a chunk** shows the records in its file, and an error if and only if something is
behind them. -/
theorem dumped_reported (henc : ∀ r ∈ rs, Encodes r) (hlog : inChunk id log = entriesFrom id id rs)
    (hbytes : (fs.file id).data ++ waiting = encAll rs) :
    dumped A C fs id = reported fs log (tornIn A C fs) id ∧
      (failureIn A C (fs.file id).data id = none ↔
        (fs.file id).data = encAll ((stored fs log id).map (·.1))) ∧
      ∀ e ∈ failureIn A C (fs.file id).data id, e.kind = .unexpectedEof := by
  obtain ⟨rs', rest, t, rfl, hdata, -, hrec, herr, hst⟩ := stored_split henc hlog hbytes
  have hshown : (entriesFrom id id rs').map (LogEntry.shown id) = spelled 0 rs' :=
    shown_entriesFrom id 0 rs'
  refine ⟨?_, ?_, fun e he => ?_⟩
  · unfold dumped reported
    rw [loadRecordsIter_eq, hrec, hst, ← hshown, List.map_map]
    rfl
  · rw [hst, entriesFrom_records, hdata]
    rcases herr with ⟨rfl, hnone⟩ | ⟨hne, e, hsome, -⟩
    · rw [hdata] at hnone
      exact ⟨fun _ => List.append_nil _, fun _ => hnone⟩
    · rw [hdata] at hsome
      rw [hsome]
      exact ⟨fun h => (by cases h), fun h => absurd (List.append_right_eq_self.1 h) hne⟩
  · rcases herr with ⟨-, hnone⟩ | ⟨-, e', hsome, hkind⟩
    · rw [hnone] at he
      cases he
    · rw [hsome] at he
      cases he
      exact hkind

/-- **All records of a chunk are in its file** if and only if nothing waits. -/
theorem stored_all (henc : ∀ r ∈ rs, Encodes r) (hlog : inChunk id log = entriesFrom id id rs)
    (hbytes : (fs.file id).data ++ waiting = encAll rs) :
    stored fs log id = inChunk id log ↔ waiting = [] := by
  obtain ⟨rs', rest, t, rfl, hdata, ht, -, -, hst⟩ := stored_split henc hlog hbytes
  rw [hdata] at hbytes
  rw [hst, hlog]
  constructor
  · intro h
    have hrest : rest = [] := by
      have := congrArg (List.map (·.1)) h
      rw [entriesFrom_records, entriesFrom_records] at this
      exact List.append_right_eq_self.1 this.symm
    subst hrest
    rw [List.append_nil, List.append_assoc] at hbytes
    exact (List.append_eq_nil_iff.1 (List.append_right_eq_self.1 hbytes)).2
  · rintro rfl
    rw [List.append_nil, encAll_append] at hbytes
    have htail := List.append_cancel_left hbytes
    cases rest with
    | nil => rw [List.append_nil]
    | cons r rest =>
      have hlt := ht.length_lt (LawfulRecord.enc_ne_nil (henc r (by simp)))
      rw [htail, encAll_cons, List.length_append] at hlt
      omega

end

/-! ## A dump that does not find a file -/

section
variable {A C : Type} [Crc32fast] [Encode A] [Decode A] [Decode C]

/-- **A dump** ends at the first file that is not there. -/
theorem dumpChunks_missing {fs : Fs} {pre post : List Nat} {i : Nat} (h : ∀ j ∈ pre, j ∈ fs.dir)
    (hi : i ∉ fs.dir) (out : List (DumpItem A C)) : dumpChunks fs collect (pre ++ i :: post) out =
      .error (noSuchFile i) (out ++ pre.flatMap (dumped A C fs)) := by
  induction pre generalizing out with
  | nil =>
    rw [List.nil_append, List.flatMap_nil, List.append_nil]
    unfold dumpChunks
    simp only [Chunk.dump, if_neg hi]
    rfl
  | cons j pre ih =>
    have hj := h j List.mem_cons_self
    rw [List.cons_append]
    unfold dumpChunks
    simp only [Chunk.dump, if_pos hj, bind, EStateM.bind, dumpItems_collect]
    rw [ih fun i hi => h i (List.mem_cons_of_mem _ hi), List.append_assoc]
    rfl

end

/-! ## Every run -/

section
variable {A C Cb : Type}

/-- The bytes of a chunk that are on their way to its file, and those in the buffer. -/
def Session.waiting (s : Session A C Cb) (w : ChunkedWal C) (id : Nat) : Bytes :=
  bytesFor id s.unwritten ++ if id = w.open.chunk.chunkId then w.open.pendingData else []

variable [Crc32fast] [Encode A] [Encode C] {fs : Fs} {log : List (LogEntry A C)}
    {s : Session A C Cb} {g : ExpectedFiles A C}
  {w : ChunkedWal C}

theorem Held.counted {chunk : Chunk} {pending : Bytes} {id : Nat} (h : Held g chunk pending id)
    {waiting : Bytes} (ht : (fs.file id).data ++ waiting = g.total id ++ pending) :
    chunk.chunkId = id ∧ chunk.globalStart = id ∧ chunk.globalEnd = id + chunk.chunkSize ∧
      chunk.recordsCount = (inChunk id g.log).length ∧
      chunk.chunkSize = (fs.file id).data.length + waiting.length := by
  have hstart := Chunk.globalStart_of h.table
  have hend := h.globalEnd
  have hlen := congrArg List.length ht
  rw [List.length_append] at hlen
  refine ⟨hstart, hstart, ?_, ?_, ?_⟩
  · rw [hend, Chunk.chunkSize, Chunk.endOffset, hstart, hend, Nat.add_sub_cancel_left]
  · rw [Chunk.recordsCount, h.table, offsetsFrom_length, Nat.add_sub_cancel, recordsOf,
      List.length_map]
  · rw [Chunk.chunkSize, Chunk.endOffset, hstart, hend, Nat.add_sub_cancel_left, hlen]

end

namespace System

section
variable {A C Cb : Type} [Crc32fast] [Encode A] [Decode A] [Encode C] [Decode C]
    {sm : StateMachine A C}

section
variable {fs : Fs} {log : List (LogEntry A C)} {s : Session A C Cb} {g : ExpectedFiles A C}
    {w : ChunkedWal C}

omit [Decode A] [Decode C] in
theorem SessionAgrees.loaded (hg : SessionAgrees fs log s g) (hc : s.client = .idle w) {id : Nat}
    (hid : id ∈ w.loadedIds) :
    (∀ r ∈ recordsOf id log, Encodes r) ∧ inChunk id log = entriesFrom id id (recordsOf id log) ∧
      (fs.file id).data ++ s.waiting w id = encAll (recordsOf id log) := by
  have hagree := hg.idle w hc
  obtain rfl := hg.log
  have hopen : w.open.chunk.chunkId = g.cur := Chunk.globalStart_of hagree.open.table
  have held : Held g w.open.chunk w.open.pendingData w.open.chunk.chunkId := hopen ▸ hagree.open
  unfold ChunkedWal.loadedIds at hid
  unfold Session.waiting
  rcases List.mem_append.1 hid with hid | hid
  · obtain ⟨p, hp, rfl⟩ := List.mem_map.1 hid
    obtain ⟨hlt, hheld⟩ := hagree.closed p hp
    refine ⟨hheld.encodes, hheld.entries, ?_⟩
    rw [if_neg (by rw [hopen]; exact Nat.ne_of_lt hlt), ← List.append_assoc, hg.flowing.total,
      hheld.bytes]
  · obtain rfl := List.mem_singleton.1 hid
    refine ⟨held.encodes, held.entries, ?_⟩
    rw [if_pos rfl, ← List.append_assoc, hg.flowing.total, held.bytes]

omit [Decode A] [Decode C] in
theorem SessionAgrees.stats (hg : SessionAgrees fs log s g) (hc : s.client = .idle w)
    {checkpoint : C} {x : ChunkStat C} (hx : x ∈ w.closedChunkStats ++
      [w.openChunkStat checkpoint]) : x.chunkId ∈ w.loadedIds ∧
      x.globalStart = x.chunkId ∧ x.globalEnd = x.chunkId + x.size ∧
      x.recordsCount = (inChunk x.chunkId log).length ∧
      x.size = (fs.file x.chunkId).data.length + (s.waiting w x.chunkId).length := by
  have hagree := hg.idle w hc
  obtain rfl := hg.log
  have hopen : w.open.chunk.chunkId = g.cur := Chunk.globalStart_of hagree.open.table
  rcases List.mem_append.1 hx with hx | hx
  · obtain ⟨p, hp, rfl⟩ := List.mem_map.1 hx
    obtain ⟨hlt, hheld⟩ := hagree.closed p hp
    have hwait : (fs.file p.1).data ++ s.waiting w p.1 = g.total p.1 ++ [] := by
      rw [Session.waiting, if_neg (by rw [hopen]; exact Nat.ne_of_lt hlt), ← List.append_assoc,
        hg.flowing.total]
    obtain ⟨h₁, h₂, h₃, h₄, h₅⟩ := hheld.counted hwait
    have hid : p.2.stat.chunkId = p.1 := h₁
    rw [hid]
    exact ⟨List.mem_append_left _ (List.mem_map_of_mem hp), h₂, h₃, h₄, h₅⟩
  · obtain rfl := List.mem_singleton.1 hx
    have hwait : (fs.file g.cur).data ++ s.waiting w g.cur =
      g.total g.cur ++ w.open.pendingData := by
      rw [Session.waiting, if_pos hopen.symm, ← List.append_assoc, hg.flowing.total]
    obtain ⟨-, h₂, h₃, h₄, h₅⟩ := hagree.open.counted hwait
    have hid : (w.openChunkStat checkpoint).chunkId = g.cur := hopen
    rw [hid]
    exact ⟨List.mem_append_right _ (List.mem_singleton.2 hopen.symm), h₂, h₃, h₄, h₅⟩

end

variable [WALRecord.LawfulAction A] [LawfulCodec C]

/-- **A WAL reports what is in its log**, at every moment of every run in which no batch fails, no
request follows a shutdown and the checkpoint of every new chunk can be encoded (`Carries`): a dump
shows the records of the chunks that are loaded, each once its last byte is in the file, and ends at
a file that is not there; the error behind them says that the file ends within a record. The
statistics count all records of a chunk, and its bytes in the file and on their way there, so that
they agree with a dump if and only if nothing waits. -/
theorem runs_reported (ls : List (Label Cb sm)) (sys : System A C Cb) (s : Session A C Cb)
    (w : ChunkedWal C) (hr : RunsOf step Carries (System.fresh A C Cb) ls sys)
    (hs : sys.session = some s) (hc : s.client = .idle w) (checkpoint : C) :
    ((∀ i ∈ w.loadedIds, i ∈ sys.fs.dir) → w.dumpLoadedRecords sys.fs collect [] =
      .ok () (w.loadedIds.flatMap (reported sys.fs sys.log (tornIn A C sys.fs)))) ∧
    (∀ pre i post, w.loadedIds = pre ++ i :: post → (∀ j ∈ pre, j ∈ sys.fs.dir) → i ∉ sys.fs.dir →
      w.dumpLoadedRecords sys.fs collect [] =
        .error (noSuchFile i) (pre.flatMap (reported sys.fs sys.log (tornIn A C sys.fs)))) ∧
    (∀ i ∈ w.loadedIds, (∀ e ∈ tornIn A C sys.fs i, e.kind = .unexpectedEof) ∧
      (tornIn A C sys.fs i = none ↔
        (sys.fs.file i).data = encAll ((stored sys.fs sys.log i).map (·.1)))) ∧
    (w.closedChunkStats ++ [w.openChunkStat checkpoint]).map (·.chunkId) = w.loadedIds ∧
    ∀ x ∈ w.closedChunkStats ++ [w.openChunkStat checkpoint],
      x.globalStart = x.chunkId ∧ x.globalEnd = x.chunkId + x.size ∧
      x.recordsCount = (inChunk x.chunkId sys.log).length ∧
      x.size = (sys.fs.file x.chunkId).data.length + (s.waiting w x.chunkId).length ∧
      (x.recordsCount = (stored sys.fs sys.log x.chunkId).length ↔ s.waiting w x.chunkId = []) := by
  obtain ⟨g, hg⟩ := (runs_agreed hr).within s hs
  have hdumped : ∀ i ∈ w.loadedIds,
    dumped A C sys.fs i = reported sys.fs sys.log (tornIn A C sys.fs) i :=
    fun i hi => by
      obtain ⟨henc, hlog, hbytes⟩ := hg.loaded hc hi
      exact (dumped_reported henc hlog hbytes).1
  refine ⟨fun hall => ?_, fun pre i post hsplit hpre hi => ?_, fun i hi => ?_, ?_, fun x hx => ?_⟩
  · unfold ChunkedWal.dumpLoadedRecords
    rw [dumpChunks_collect hall, List.nil_append, List.flatMap_congr hdumped]
  · unfold ChunkedWal.dumpLoadedRecords
    rw [hsplit, dumpChunks_missing hpre hi, List.nil_append,
      List.flatMap_congr fun j hj => hdumped j (hsplit ▸ List.mem_append_left _ hj)]
  · obtain ⟨henc, hlog, hbytes⟩ := hg.loaded hc hi
    obtain ⟨-, hnone, hkind⟩ := dumped_reported henc hlog hbytes
    exact ⟨hkind, hnone⟩
  · rw [List.map_append, ChunkedWal.loadedIds, ChunkedWal.closedChunkStats, List.map_map]
    refine congrArg (· ++ [w.open.chunk.chunkId]) (List.map_congr_left fun p hp => ?_)
    exact Chunk.globalStart_of ((hg.idle w hc).closed p hp).2.table
  · obtain ⟨hid, h₁, h₂, h₃, h₄⟩ := hg.stats hc hx
    obtain ⟨henc, hlog, hbytes⟩ := hg.loaded hc hid
    refine ⟨h₁, h₂, h₃, h₄, ?_⟩
    rw [h₃, ← stored_all henc hlog hbytes]
    exact ⟨fun h => (List.filter_sublist.eq_of_length h.symm), fun h => by rw [h]⟩

end

/-! ## A record that is half written -/

open Register

/-- A chunk is closed, and the worker has written two bytes of its last record. -/
def halfRun : List Register.Step :=
  rotatedRun ++
    [.recv, .exec { writes := [.ok 2, .ok 3], calls := [.ok ()], user := [none] }, .effect]

/-- The dump shows the checkpoint and an error, and of the open chunk nothing; the statistics count
three records. -/
theorem runs_reported_half : ∃ (sys : System Put Register Nat) (s : Session Put Register Nat)
    (w : ChunkedWal Register) (items : List (DumpItem Put Register)),
    runs step (System.fresh Put Register Nat) halfRun = some sys ∧ sys.session = some s ∧
      s.client = .idle w ∧
    w.dumpLoadedRecords sys.fs collect [] = .ok () items ∧
    items.map (fun it => (it.1, it.2.1, it.2.2.isOk)) = [(0, 0, true), (0, 1, false)] ∧
    ((w.closedChunkStats ++ [w.openChunkStat { value := 1 }]).map fun x =>
      (x.chunkId, x.recordsCount)) =
      [(0, 2), (18, 1)] ∧ (s.waiting w 0).length = 3 ∧ (s.waiting w 18).length = 13 := by
  have h : ((runs (guarded Carries step) (System.fresh Put Register Nat) halfRun).any fun sys =>
      sys.session.any fun s => s.client.wal?.any fun w =>
      decide ((∀ i ∈ w.loadedIds, i ∈ sys.fs.dir) ∧
        (w.loadedIds.flatMap (reported sys.fs sys.log (tornIn Put Register sys.fs))).map
          (fun it => (it.1, it.2.1, it.2.2.isOk)) = [(0, 0, true), (0, 1, false)] ∧
        ((w.closedChunkStats ++ [w.openChunkStat { value := 1 }]).map fun x =>
          (x.chunkId, x.recordsCount)) =
          [(0, 2), (18, 1)] ∧ (s.waiting w 0).length = 3 ∧ (s.waiting w 18).length = 13))
            = true := by
    decide +kernel
  obtain ⟨sys, hsys, h⟩ := (Option.any_eq_true _ _).1 h
  obtain ⟨s, hs, h⟩ := (Option.any_eq_true _ _).1 h
  obtain ⟨w, hw, h⟩ := (Option.any_eq_true _ _).1 h
  obtain ⟨hdir, hitems, hstats, h₀, h₁⟩ := of_decide_eq_true h
  have hr := RunsOf.of_guarded hsys
  have hc := Client.wal?_eq hw
  obtain ⟨hdump, -⟩ := runs_reported halfRun sys s w hr hs hc { value := 1 }
  exact ⟨sys, s, w, _, hr.runs, hs, hc, hdump hdir, hitems, hstats, h₀, h₁⟩

end System

end Wal

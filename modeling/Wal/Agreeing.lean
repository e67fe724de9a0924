import Wal.Unwritten
import Wal.Rotating

/-!
# The index and the bytes

`ExpectedFiles` is what the client knows of the files: what each holds once everything sent is
written, and which one the next write goes to. `Agrees` says that the index of a WAL, open and
closed chunks, counts exactly the records in the log, and that their encodings are these bytes
followed by the buffer of the open chunk. No method breaks it, as long as its requests are accepted
(`Op.carries`).
-/

namespace Wal

open Lib

/-- What the client knows of the files. -/
structure ExpectedFiles (A C : Type) where
  /-- Where the next write goes. -/
  cur : Nat
  /-- The contents of a file once everything sent is written. -/
  total : Nat → Bytes
  log : List (LogEntry A C)

section
variable {A C Cb : Type}

/-- The part of the log in a chunk. -/
def inChunk (id : Nat) (log : List (LogEntry A C)) : List (LogEntry A C) := log.filter fun e =>
    e.2.1 = id

/-- The records of a chunk. -/
def recordsOf (id : Nat) (log : List (LogEntry A C)) : List (WALRecord A C) :=
  (inChunk id log).map (·.1)

@[simp] theorem inChunk_append (id : Nat) (log log' : List (LogEntry A C)) :
    inChunk id (log ++ log') = inChunk id log ++ inChunk id log' := List.filter_append ..

@[simp] theorem recordsOf_append (id : Nat) (log log' : List (LogEntry A C)) :
    recordsOf id (log ++ log') = recordsOf id log ++ recordsOf id log' := by
  simp [recordsOf]

theorem inChunk_ne {id : Nat} {e : LogEntry A C} (h : e.2.1 ≠ id) : inChunk id [e] = [] := by
  simp [inChunk, h]

theorem inChunk_self {id : Nat} {e : LogEntry A C} (h : e.2.1 = id) : inChunk id [e] = [e] := by
  simp [inChunk, h]

/-- Of a request that was sent. -/
def ExpectedFiles.sent (g : ExpectedFiles A C) : WorkerRequest C Cb → ExpectedFiles A C
  | .write w => { g with total := Function.update g.total g.cur (g.total g.cur ++ w.data) }
  | .appendFile e => { g with cur := e.f }
  | .removeChunks _ | .getFlushStat => g

variable {g : ExpectedFiles A C}

/-- The buffer of the WAL is sent. -/
def ExpectedFiles.wrote (g : ExpectedFiles A C) (data : Bytes) : ExpectedFiles A C :=
  { g with total := Function.update g.total g.cur (g.total g.cur ++ data) }

@[simp] theorem ExpectedFiles.wrote_cur (data : Bytes) : (g.wrote data).cur = g.cur := rfl
@[simp] theorem ExpectedFiles.wrote_log (data : Bytes) : (g.wrote data).log = g.log := rfl
@[simp] theorem ExpectedFiles.wrote_total (data : Bytes) :
    (g.wrote data).total g.cur = g.total g.cur ++ data := by
  simp [ExpectedFiles.wrote]

theorem ExpectedFiles.wrote_total_ne {id : Nat} (h : id ≠ g.cur) (data : Bytes) :
    (g.wrote data).total id = g.total id := by
  simp [ExpectedFiles.wrote, h]

/-- A file was created. -/
def ExpectedFiles.created (g : ExpectedFiles A C) (id : Nat) : ExpectedFiles A C :=
  { g with total := Function.update g.total id [] }

@[simp] theorem ExpectedFiles.created_total (id : Nat) : (g.created id).total id = [] := by
  simp [ExpectedFiles.created]

theorem ExpectedFiles.created_total_ne {i id : Nat} (h : i ≠ id) :
    (g.created id).total i = g.total i := by
  simp [ExpectedFiles.created, h]

section
variable [Crc32fast] [Encode A] [Encode C]

variable (A C) in
/-- The first part of a list of encoded records. -/
def Spelt (bs : Bytes) : Prop := ∃ rs : List (WALRecord A C), (∀ r ∈ rs, Encodes r) ∧
    bs <+: encAll rs

theorem Spelt.nil : Spelt A C [] := ⟨[], by simp, List.nil_prefix⟩

theorem Spelt.mono {bs cs : Bytes} (h : Spelt A C cs) (hp : bs <+: cs) : Spelt A C bs := by
  obtain ⟨rs, hrs, hcs⟩ := h
  exact ⟨rs, hrs, hp.trans hcs⟩

/-- What the client ensures of its requests, when none of them is refused. -/
def carrying : Contract (ClientAct A C Cb) IoResult (ExpectedFiles A C) where
  pre a g :=
    match a with
    | .send (.write w) => w.uptoOffset = g.cur + (g.total g.cur ++ w.data).length ∧
        Spelt A C (g.total g.cur ++ w.data)
    | .send (.appendFile e) => g.cur < e.f
    | .createNew id => g.cur < id
    | _ => True
  step a g r g' :=
    match a, r with
    | .send req, .ok () => g' = g.sent req ∧ Fits A req
    | .send _, .error _ => False
    | .createNew id, .ok () => g' = g.created id
    | .note e, _ => g' = { g with log := g.log ++ [e] }
    | _, _ => g' = g

/-- The records of a chunk are in its file once everything sent is written, but for the `pending`
bytes. -/
structure Held (g : ExpectedFiles A C) (chunk : Chunk) (pending : Bytes) (id : Nat) : Prop where
  file : chunk.f = id
  table : chunk.globalOffsets = offsetsFrom id (recordsOf id g.log)
  entries : inChunk id g.log = entriesFrom id id (recordsOf id g.log)
  bytes : g.total id ++ pending = encAll (recordsOf id g.log)
  encodes : ∀ r ∈ recordsOf id g.log, Encodes r

/-- **The index agrees with the log and the bytes.** -/
structure Agrees (w : ChunkedWal C) (g : ExpectedFiles A C) : Prop where
  «open» : Held g w.open.chunk w.open.pendingData g.cur
  closed : ∀ p ∈ w.closed, p.1 < g.cur ∧ Held g p.2.chunk [] p.1
  nonempty : recordsOf g.cur g.log ≠ []
  newest : ∀ e ∈ g.log, e.2.1 ≤ g.cur

end

end

/-! ## The methods -/

section
variable {A C Cb : Type} [Crc32fast] [Encode A] [Encode C] {w : ChunkedWal C}
    {g : ExpectedFiles A C}

theorem Held.congr {chunk : Chunk} {pending : Bytes} {id : Nat} (h : Held g chunk pending id)
    {g' : ExpectedFiles A C} (ht : g'.total id = g.total id)
    (hl : inChunk id g'.log = inChunk id g.log) :
    Held g' chunk pending id := by
  have hr : recordsOf id g'.log = recordsOf id g.log := by unfold recordsOf; rw [hl]
  obtain ⟨h1, h2, h3, h4, h5⟩ := h
  exact ⟨h1, hr ▸ h2, by rw [hl, hr]; exact h3, by rw [ht, hr]; exact h4, hr ▸ h5⟩

theorem Held.globalEnd {chunk : Chunk} {pending : Bytes} {id : Nat} (h : Held g chunk pending id) :
    chunk.globalEnd = id + (g.total id ++ pending).length := by
  rw [Chunk.globalEnd_of h.table, h.bytes]

theorem sendPending_carries (h : Held g w.open.chunk w.open.pendingData g.cur) (sync : Bool)
    (callback : Option Cb) :
    ClientM.Meets carrying (fun (res : Except Fault IoResult) w' g' => res = .ok (.ok ()) ∧
      w' = w.flushed ∧
      g' = g.wrote w.open.pendingData)
      (ChunkedWal.sendPending sync callback) w g := by
  unfold ChunkedWal.sendPending
  refine .get_bind (.set_bind (.perform ⟨?_, ?_⟩ fun r g' hstep => ?_))
  · exact h.globalEnd
  · exact ⟨_, h.encodes, by rw [← h.bytes]⟩
  · rcases r with e | ⟨⟩
    · exact hstep.elim
    · exact ⟨rfl, rfl, hstep.1⟩

theorem Held.flushed (h : Held g w.open.chunk w.open.pendingData g.cur) :
    Held (g.wrote w.open.pendingData) w.open.chunk [] g.cur where
  file := h.file
  table := h.table
  entries := h.entries
  bytes := by rw [ExpectedFiles.wrote_total, List.append_nil]; exact h.bytes
  encodes := h.encodes

theorem Agrees.flushed (h : Agrees w g) : Agrees w.flushed (g.wrote w.open.pendingData) where
  «open» := h.open.flushed
  closed p hp := by
    obtain ⟨hlt, hh⟩ := h.closed p hp
    exact ⟨hlt, hh.congr (ExpectedFiles.wrote_total_ne (Nat.ne_of_lt hlt) _) rfl⟩
  nonempty := h.nonempty
  newest := h.newest

theorem Agrees.created (h : Agrees w g) {id : Nat} (hid : g.cur < id) :
    Agrees w (g.created id) where
  «open» := h.open.congr (ExpectedFiles.created_total_ne (Nat.ne_of_lt hid)) rfl
  closed p hp := by
    obtain ⟨hlt, hh⟩ := h.closed p hp
    exact ⟨hlt, hh.congr (ExpectedFiles.created_total_ne (Nat.ne_of_lt (hlt.trans hid))) rfl⟩
  nonempty := h.nonempty
  newest := h.newest

/-- A record was appended. -/
def ExpectedFiles.noted (g : ExpectedFiles A C) (rec : WALRecord A C) : ExpectedFiles A C :=
  { g with log := g.log ++ [(rec, g.cur,
      { offset := g.cur + (encAll (recordsOf g.cur g.log)).length, size := (enc rec).length })] }

theorem Held.pushed (h : Held g w.open.chunk w.open.pendingData g.cur) {rec : WALRecord A C}
    (hr : Encodes rec) :
    Held (g.noted rec) (w.pushed rec).open.chunk (w.pushed rec).open.pendingData g.cur := by
  have hin : inChunk g.cur (g.noted rec).log = inChunk g.cur g.log ++ [(rec, g.cur,
      { offset := g.cur + (encAll (recordsOf g.cur g.log)).length
        size := (enc rec).length })] := by
    simp [ExpectedFiles.noted, inChunk]
  have hrec : recordsOf g.cur (g.noted rec).log = recordsOf g.cur g.log ++ [rec] := by
    unfold recordsOf
    rw [hin, List.map_append]
    rfl
  refine ⟨h.file, ?_, ?_, ?_, ?_⟩
  · rw [hrec]
    exact Chunk.appendRecordSize_of h.table rec
  · rw [hrec, hin, h.entries, entriesFrom_append]
    rfl
  · rw [hrec, encAll_append, ← h.bytes, List.append_assoc]
    simp [ChunkedWal.pushed, ExpectedFiles.noted]
  · rw [hrec]
    intro r hm
    rcases List.mem_append.1 hm with hm | hm
    · exact h.encodes r hm
    · obtain rfl := List.mem_singleton.1 hm
      exact hr

theorem Held.noted_ne {chunk : Chunk} {pending : Bytes} {id : Nat} (h : Held g chunk pending id)
    (hid : id ≠ g.cur) (rec : WALRecord A C) : Held (g.noted rec) chunk pending id := by
  refine h.congr rfl ?_
  rw [ExpectedFiles.noted, inChunk_append, inChunk_ne (Ne.symm hid), List.append_nil]

theorem newest_noted (h : ∀ e ∈ g.log, e.2.1 ≤ g.cur) (rec : WALRecord A C) :
    ∀ e ∈ (g.noted rec).log, e.2.1 ≤ g.cur := by
  intro e he
  rcases List.mem_append.1 he with he | he
  · exact h e he
  · obtain rfl := List.mem_singleton.1 he
    exact Nat.le_refl _

theorem Agrees.pushed (h : Agrees w g) {rec : WALRecord A C} (hr : Encodes rec) :
    Agrees (w.pushed rec) (g.noted rec) where
  «open» := h.open.pushed hr
  closed p hp := by
    obtain ⟨hlt, hh⟩ := h.closed p hp
    exact ⟨hlt, hh.noted_ne (Nat.ne_of_lt hlt) rec⟩
  nonempty := by
    rw [ExpectedFiles.noted, recordsOf_append]
    exact List.append_ne_nil_of_left_ne_nil h.nonempty _
  newest := newest_noted h.newest rec

theorem append_carries [SizedCodec A] [SizedCodec C]
    (h : Held g w.open.chunk w.open.pendingData g.cur) (rec : WALRecord A C) :
    ClientM.Meets carrying (fun (res : Except Fault Unit) w' g' =>
      (¬ Encodes rec ∧ (∃ e, res = .error (.io e)) ∧ w' = w ∧ g' = g) ∨
      (Encodes rec ∧ res = .ok () ∧ w' = w.pushed rec ∧ g' = g.noted rec))
      (ChunkedWal.append rec : ClientM A C Cb Unit) w g := by
  unfold ChunkedWal.append
  refine .get_bind ?_
  by_cases hr : Encodes rec
  · simp only [OpenChunk.appendRecord_ok hr]
    refine .set_bind (.liftFault_bind (fun seg hseg => ?_) fun e he => absurd he (by simp))
    obtain rfl := Except.ok.inj hseg
    refine .perform_bind trivial fun r g' hg => .pure (.inr ⟨hr, rfl, rfl, ?_⟩)
    have hstart : (w.open.chunk.appendRecordSize (enc rec).length).chunkId = g.cur :=
      (Chunk.appendRecordSize_globalStart w.open.chunk (enc rec).length).trans
        (Chunk.globalStart_of h.table)
    rw [hstart, Chunk.globalEnd_of h.table] at hg
    exact hg
  · have he : ∃ e, (encode rec).2 = .error e := by
      rcases hn : (encode rec).2 with e | n
      · exact ⟨e, rfl⟩
      · exact absurd ⟨n, hn⟩ hr
    obtain ⟨e, he⟩ := he
    simp only [OpenChunk.appendRecord_error he]
    exact .set_bind (.liftFault_bind (fun _ h => absurd h (by simp)) fun e' he' =>
      .inl ⟨hr, ⟨e, Except.error.inj he' |>.symm ▸ rfl⟩, rfl, rfl⟩)

theorem createEmpty_carries {id : Nat} (hid : g.cur < id) :
    ClientM.Meets carrying (fun res w' g' => w' = w ∧
      ((∃ e, res = .error (.io e)) ∧ (g' = g ∨ g' = g.created id) ∨
        res = .ok (OpenChunk.fromFile id) ∧ g' = g.created id))
      (ChunkedWal.createEmpty id : ClientM A C Cb OpenChunk) w g := by
  unfold ChunkedWal.createEmpty
  refine .perform_bind hid fun r g' hstep => ?_
  rcases r with e | ⟨⟩
  · obtain rfl : g' = g := hstep
    exact .require_bind (fun h => absurd h (by simp)) fun e _ => ⟨rfl, .inl ⟨⟨e, rfl⟩, .inl rfl⟩⟩
  obtain rfl : g' = g.created id := hstep
  refine .require_bind (fun _ => .perform_bind trivial fun r g' hstep => ?_) fun e he =>
    absurd he (by simp)
  obtain rfl : g' = g.created id := by cases r <;> exact hstep
  exact .require_bind (fun _ => .pure ⟨rfl, .inr ⟨rfl, rfl⟩⟩) fun e _ =>
    ⟨rfl, .inl ⟨⟨e, rfl⟩, .inr rfl⟩⟩

theorem Agrees.lt_end (h : Held g w.open.chunk w.open.pendingData g.cur)
    (hne : ∀ r ∈ recordsOf g.cur g.log, enc r ≠ []) (hrec : recordsOf g.cur g.log ≠ []) :
    Indexed w ∧ ∃ seg, w.open.chunk.lastSegment = .ok seg ∧ seg.end_ = w.open.chunk.globalEnd ∧
      g.cur < seg.end_ := by
  have hi : Indexed w := by
    refine ⟨?_, ?_⟩
    · rw [h.table]
      exact offsetsFrom_increasing _ hne
    · have := List.length_pos_of_ne_nil hrec
      rw [Chunk.recordsCount, h.table, offsetsFrom_length]
      omega
  obtain ⟨seg, hseg, hend⟩ := Chunk.lastSegment_of_increasing hi.increasing hi.nonempty
  refine ⟨hi, seg, hseg, hend, ?_⟩
  rw [hend, Chunk.globalEnd_of h.table]
  obtain ⟨r, rs, hrs⟩ := List.exists_cons_of_ne_nil hrec
  have := List.length_pos_of_ne_nil (hne r (hrs ▸ List.mem_cons_self))
  rw [hrs, encAll_cons, List.length_append]
  omega

/-- A new chunk was begun. -/
def ExpectedFiles.begun (g : ExpectedFiles A C) (id : Nat) : ExpectedFiles A C :=
  { g.created id with cur := id }

omit [Crc32fast] [Encode A] [Encode C] in
theorem inChunk_of_newest (h : ∀ e ∈ g.log, e.2.1 ≤ g.cur) {id : Nat} (hid : g.cur < id) :
    inChunk id g.log = [] := by
  simp only [inChunk, List.filter_eq_nil_iff, decide_eq_true_eq]
  intro e he
  have := h e he
  omega

theorem Held.begun (h : ∀ e ∈ g.log, e.2.1 ≤ g.cur) {id : Nat} (hid : g.cur < id) :
    Held (g.begun id) (OpenChunk.fromFile id).chunk [] id := by
  have hin : inChunk id (g.begun id).log = [] := inChunk_of_newest h hid
  have hrec : recordsOf id (g.begun id).log = [] := by
    unfold recordsOf
    rw [hin]
    rfl
  refine ⟨rfl, ?_, ?_, ?_, ?_⟩
  · rw [hrec]
    rfl
  · rw [hrec, hin]
    rfl
  · rw [hrec, List.append_nil]
    exact ExpectedFiles.created_total id
  · rw [hrec]
    simp

theorem Held.moved {chunk : Chunk} {pending : Bytes} {i id : Nat} (h : Held g chunk pending i)
    (hid : i ≠ id) (rec : WALRecord A C) (data : Bytes) :
    Held (((g.begun id).noted rec).wrote data) chunk pending i := by
  have h₁ : Held (g.begun id) chunk pending i := h.congr (ExpectedFiles.created_total_ne hid) rfl
  exact (h₁.noted_ne hid rec).congr
    (ExpectedFiles.wrote_total_ne (g := (g.begun id).noted rec) hid data) rfl

section
variable [Decode A] [Decode C] [WALRecord.LawfulAction A] [LawfulCodec C]

theorem tryCloseFullChunk_carries (h : Agrees w g) (c : C) :
    ClientM.Meets carrying (fun (_ : Except Fault (Option C)) w' g' => Agrees w' g')
      (ChunkedWal.tryCloseFullChunk c : ClientM A C Cb (Option C)) w g := by
  unfold ChunkedWal.tryCloseFullChunk
  refine .get_bind ?_
  by_cases hf : w.isOpenChunkFull = true
  swap
  · simp only [hf, Bool.not_false, if_true]
    exact .pure h
  simp only [hf, Bool.not_true, Bool.false_eq_true, if_false]
  refine .bind (sendPending_carries h.open true none) ?_ fun e w' g' hr => absurd hr.1 (by simp)
  rintro r₁ _ _ ⟨-, rfl, rfl⟩
  have h₁ := h.flushed
  refine .require_bind (fun _ => ?_) fun e _ => h₁
  obtain ⟨-, seg, hseg, hend, hlt⟩ := Agrees.lt_end h.open
    (fun r hr => LawfulRecord.enc_ne_nil (h.open.encodes r hr)) h.nonempty
  refine .liftFault_bind (fun seg' hseg' => ?_) fun e he => absurd (hseg.symm.trans he) (by simp)
  obtain rfl := Except.ok.inj (hseg.symm.trans hseg')
  refine .bind (createEmpty_carries hlt) ?_ ?_
  swap
  · rintro e _ g' ⟨rfl, ⟨-, rfl | rfl⟩ | ⟨he, -⟩⟩
    · exact h₁
    · exact h₁.created hlt
    · cases he
  rintro o _ g' ⟨rfl, ⟨⟨e, he⟩, -⟩ | ⟨he, rfl⟩⟩
  · cases he
  obtain rfl := Except.ok.inj he
  refine .perform_bind hlt fun r₂ g₂ h₂ => ?_
  rcases r₂ with e | ⟨⟩
  · exact h₂.elim
  obtain ⟨rfl, hfits⟩ := h₂
  have hc : Encodes (.checkpoint c : WALRecord A C) := hfits c rfl
  refine .require_bind (fun _ => ?_) fun e he => absurd he (by simp)
  have hnew : Held ((g.wrote w.open.pendingData).begun seg.end_)
    (OpenChunk.fromFile seg.end_).chunk []
      seg.end_ := .begun h₁.newest hlt
  have hpushed := hnew.pushed (w := { w.flushed with «open» := OpenChunk.fromFile seg.end_ }) hc
  refine .get_bind (.set_bind (.bind (append_carries hnew (.checkpoint c)) ?_ ?_))
  swap
  · rintro e w' g' (⟨hn, -⟩ | ⟨-, he, -⟩)
    · exact absurd hc hn
    · cases he
  rintro u _ _ (⟨hn, -⟩ | ⟨-, -, rfl, rfl⟩)
  · exact absurd hc hn
  refine .bind (sendPending_carries hpushed false none) ?_ fun e w' g' hr => absurd hr.1 (by simp)
  rintro r₃ _ _ ⟨hr₃, rfl, rfl⟩
  obtain rfl := Except.ok.inj hr₃
  have hcur : w.flushed.open.chunk.chunkId = g.cur := Chunk.globalStart_of h.open.table
  have hins : ∀ x, insertChunk w.flushed.open.chunk.chunkId x w.closed =
      w.closed ++ [(w.flushed.open.chunk.chunkId, x)] := fun x =>
    insertChunk_of_lt fun p hp => by rw [hcur]; exact (h.closed p hp).1
  refine .require_bind
    (fun _ => .get_bind (.set_bind (.pure ⟨hpushed.flushed, fun p hp => ?_, ?_, ?_⟩)))
    fun e he => absurd he (by simp)
  · have hp : p ∈ w.closed ++ [(w.flushed.open.chunk.chunkId, _)] := hins _ ▸ hp
    rcases List.mem_append.1 hp with hp | hp
    · obtain ⟨hlt', hh⟩ := h₁.closed p hp
      have hlt' : p.1 < seg.end_ := Nat.lt_trans hlt' hlt
      exact ⟨hlt', hh.moved (Nat.ne_of_lt hlt') _ _⟩
    · obtain rfl := List.mem_singleton.1 hp
      simp only [hcur]
      exact ⟨hlt, h₁.open.moved (Nat.ne_of_lt hlt) _ _⟩
  · rw [ExpectedFiles.wrote_log, ExpectedFiles.noted, recordsOf_append]
    refine List.append_ne_nil_of_right_ne_nil _ ?_
    simp [recordsOf, inChunk]
  · refine newest_noted (g := (g.wrote w.open.pendingData).begun seg.end_) (fun e he => ?_) _
    exact (h.newest e he).trans (Nat.le_of_lt hlt)

omit [Decode A] [Decode C] [WALRecord.LawfulAction A] [LawfulCodec C] in
theorem Agrees.drained (h : Agrees w g) {w' : ChunkedWal C} (ho : w'.open = w.open)
    (hc : ∀ p ∈ w'.closed, p ∈ w.closed) : Agrees w' g where
  «open» := ho ▸ h.open
  closed p hp := h.closed p (hc p hp)
  nonempty := h.nonempty
  newest := h.newest

omit [Decode A] [Decode C] [WALRecord.LawfulAction A] [LawfulCodec C] in
theorem send_carries {req : WorkerRequest C Cb}
    (hpre : carrying.pre (.send req : ClientAct A C Cb) g) (hsent : g.sent req = g) :
    ClientM.Meets carrying (fun (_ : Except Fault Unit) w' g' => w' = w ∧ g' = g)
      (do ClientM.require (← ClientM.perform (.send req)) : ClientM A C Cb Unit) w g := by
  refine .perform_bind hpre fun r g' hstep => ?_
  rcases r with e | ⟨⟩
  · exact hstep.elim
  · obtain ⟨rfl, -⟩ := hstep
    rw [hsent]
    exact .require (fun _ => ⟨rfl, rfl⟩) fun _ _ => ⟨rfl, rfl⟩

omit [Decode A] [Decode C] [WALRecord.LawfulAction A] [LawfulCodec C] in
theorem waitWorkerIdle_carries :
    ClientM.Meets carrying (fun (_ : Except Fault Unit) w' g' => w' = w ∧ g' = g)
      (ChunkedWal.waitWorkerIdle : ClientM A C Cb Unit) w g := by
  refine .perform_bind trivial fun r g' hstep => ?_
  obtain rfl : g' = g := by cases r <;> exact hstep
  exact .require (fun _ => ⟨rfl, rfl⟩) fun _ _ => ⟨rfl, rfl⟩

omit [Decode A] [Decode C] [WALRecord.LawfulAction A] [LawfulCodec C] in
theorem shutdown_carries (h : Agrees w g) :
    ClientM.Meets carrying (fun (_ : Except Fault Unit) w' g' => Agrees w' g')
      (ChunkedWal.shutdown : ClientM A C Cb Unit) w g := by
  unfold ChunkedWal.shutdown
  refine .get_bind ?_
  by_cases hw : w.workerHandle = true
  swap
  · simp only [hw, Bool.not_false, if_true]
    exact .pure h
  simp only [hw, Bool.not_true, Bool.false_eq_true, if_false]
  have h' : Agrees { w with workerHandle := false } g := h.drained rfl fun _ hp => hp
  refine .set_bind (.bind (sendPending_carries h'.open true none) ?_ fun e w' g' hr =>
    absurd hr.1 (by simp))
  rintro r _ _ ⟨-, rfl, rfl⟩
  refine .perform_bind trivial fun r₁ g₁ h₁ => .perform_bind trivial fun r₂ g₂ h₂ => ?_
  obtain rfl : g₁ = _ := by cases r₁ <;> exact h₁
  obtain rfl : g₂ = _ := by cases r₂ <;> exact h₂
  refine .require_bind (fun _ => .require_bind (fun _ => ?_) fun e _ => h'.flushed) fun e _ =>
    h'.flushed
  refine .perform_bind trivial fun r₃ g₃ h₃ => ?_
  obtain rfl : g₃ = _ := by cases r₃ <;> exact h₃
  exact .require (fun _ => h'.flushed) fun _ _ => h'.flushed

/-- **Every method** keeps the index in agreement with the bytes. -/
theorem Op.carries (op : Op A C Cb) (h : Agrees w g) :
    ClientM.Meets carrying (fun (_ : Except Fault (Ret C)) w' g' => Agrees w' g') op.run w g := by
  cases op with
  | append rec =>
    refine .bind (append_carries h.open rec) ?_ ?_
    · rintro u _ _ (⟨-, ⟨e, he⟩, -⟩ | ⟨hr, -, rfl, rfl⟩)
      · cases he
      · exact .pure (h.pushed hr)
    · rintro e _ _ (⟨-, -, rfl, rfl⟩ | ⟨-, he, -⟩)
      · exact h
      · cases he
  | sendPending sync callback =>
    refine .bind (sendPending_carries h.open sync callback) ?_ fun e w' g' hr =>
      absurd hr.1 (by simp)
    rintro r _ _ ⟨-, rfl, rfl⟩
    exact .require_bind (fun _ => .pure h.flushed) fun e _ => h.flushed
  | tryCloseFullChunk c =>
    exact .bind (tryCloseFullChunk_carries h c) (fun _ _ _ h => .pure h) fun _ _ _ h => h
  | drainClosedChunksWhile shouldDrain =>
    obtain ⟨k, hk⟩ := ChunkedWal.drainLoop_eq shouldDrain 0 w.closed
    refine .bind (Q := fun _ w' g' => Agrees w' g') ?_ (fun _ _ _ h => .pure h) fun _ _ _ h => h
    refine .get_bind ?_
    rw [hk]
    exact .set_bind (.pure (h.drained rfl fun p hp => List.mem_of_mem_drop hp))
  | sendRemoveChunks ids =>
    refine .bind
      (send_carries
        (show carrying.pre (.send (.removeChunks ids) : ClientAct A C Cb) g from trivial) rfl) ?_ ?_
    · rintro u _ _ ⟨rfl, rfl⟩
      exact .pure h
    · rintro f _ _ ⟨rfl, rfl⟩
      exact h
  | sendGetStat =>
    refine .bind
      (send_carries
        (show carrying.pre (.send .getFlushStat : ClientAct A C Cb) g from trivial) rfl) ?_ ?_
    · rintro u _ _ ⟨rfl, rfl⟩
      exact .pure h
    · rintro f _ _ ⟨rfl, rfl⟩
      exact h
  | waitWorkerIdle =>
    refine .bind waitWorkerIdle_carries ?_ ?_
    · rintro u _ _ ⟨rfl, rfl⟩
      exact .pure h
    · rintro f _ _ ⟨rfl, rfl⟩
      exact h
  | shutdown => exact .bind (shutdown_carries h) (fun _ _ _ h => .pure h) fun _ _ _ h => h

end

end

end Wal

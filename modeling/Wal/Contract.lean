import Wal.ClientRules
import Wal.Layout

/-!
# What the client keeps to

The methods of a WAL, seen from the worker and the disk: which requests they send, which files they
create, and how the open chunk matches what was sent. `View` is what a method works with, `contract`
says what it must ensure before an act, and `Op.meets` verifies every method. A `Mode` says what
else is known of the calls and of the disk.
-/

namespace Wal

open Lib

/-- What is promised of a run. -/
structure Mode where
  /-- The records in the chunks are known, and only the oldest chunks are removed. -/
  strict : Bool
  /-- Chunks are removed only when everything sent before is behind a synchronization. -/
  covered : Bool
  /-- The chunks that may be removed. -/
  removable : Nat → Prop
  /-- The client may fail to create a chunk file. -/
  fails : Bool
  /-- No method returns an error. -/
  exact : Bool
  /-- A WAL is not used after its shutdown. -/
  once : Bool
  strict_of_fails : fails = false → strict = true

/-- What the client has sent and created, and the records of the chunks. -/
structure View (A C : Type) where
  plan : Plan
  parts : List (Part A C)
  /-- The records of the open chunk, sent or not. -/
  records : List (WALRecord A C)
  /-- Files behind the open chunk. -/
  extras : List Nat
  /-- The directory was synchronized since a file was created. -/
  synced : Bool
  /-- A request could not be sent. -/
  dead : Bool
  joined : Bool
  /-- The worker has ended without a failure. -/
  settled : Bool

section
variable {A C Cb : Type} [Crc32fast] [Encode A] [Encode C]

variable (A C) in
def Mode.rules (m : Mode) : Rules where
  oldest := m.strict
  covered := m.covered
  begun bs := m.strict = true → ∃ r : WALRecord A C, Encodes r ∧ enc r <+: bs

namespace View

variable (g : View A C)

/-- The open chunk. -/
def newest : Part A C := { id := g.plan.tape.id, records := g.records }

def layout : List (Part A C) := g.parts ++ [g.newest]

/-- A request was sent. -/
def sent (req : WorkerRequest C Cb) (p : Plan) : View A C :=
  match req with
  | .appendFile e =>
    { g with
      plan := p, parts := g.layout, records := []
      extras := g.extras.filter (e.f < ·), settled := false }
  | _ => { g with plan := p, settled := false }

omit [Crc32fast] [Encode A] [Encode C] in
theorem sent_plan (req : WorkerRequest C Cb) (p : Plan) : (g.sent req p).plan = p := by
  cases req <;> rfl

omit [Crc32fast] [Encode A] [Encode C] in
theorem sent_dead (req : WorkerRequest C Cb) (p : Plan) : (g.sent req p).dead = g.dead := by
  cases req <;> rfl

/-- What the client learns of the worker. -/
def told : ClientAct A C Cb → IoResult → View A C
  | .join, _ => { g with joined := true }
  | .waitIdle, .ok () => { g with settled := g.joined }
  | _, _ => g

omit [Crc32fast] [Encode A] [Encode C] in
theorem told_eq (a : ClientAct A C Cb) (r : IoResult) :
    (g.told a r).plan = g.plan ∧ (g.told a r).dead = g.dead ∧ (g.told a r).parts = g.parts ∧
      (g.told a r).records = g.records ∧ (g.told a r).extras = g.extras ∧
      (g.told a r).synced = g.synced := by
  cases a <;> rcases r with _ | ⟨⟩ <;> exact ⟨rfl, rfl, rfl, rfl, rfl, rfl⟩

/-- The tape spells the records of the chunks; of the open chunk, those that were sent. -/
structure Spelled : Prop where
  prev : g.plan.tape.prev = g.parts.map Part.spell
  cut : g.plan.tape.bytes <+: encAll g.records
  encodes : ∀ p ∈ g.layout, ∀ r ∈ p.records, Encodes r

end View

/-- What a request must agree with, beside the plan. -/
def Allowed (m : Mode) (g : View A C) : WorkerRequest C Cb → Prop
  | .write w => m.strict = true → g.plan.tape.bytes ++ w.data = encAll g.records
  | .appendFile e => e.f ∈ g.extras ∧ g.synced = true ∧ (m.fails = false → g.extras = [e.f]) ∧
      (m.strict = true → g.plan.tape.bytes = encAll g.records)
  | .removeChunks ids => ∀ id ∈ ids, m.removable id
  | .getFlushStat => True

/-- **The contract between the client and the rest.** -/
def contract (m : Mode) : Contract (ClientAct A C Cb) IoResult (View A C) where
  pre a g :=
    match a with
    | .send req => g.dead = false → (g.plan.accept (m.rules A C) req).isSome ∧ Allowed m g req
    | .createNew id => g.dead = false ∧ id = g.plan.tape.end_ ∧ g.plan.tape.bytes ≠ [] ∧
        (m.fails = false → g.extras = [])
    | .note e => m.strict = true → Encodes e.1 ∧
        e = (e.1, g.newest.id, { offset := g.newest.end_, size := (enc e.1).length })
    | _ => True
  step a g r g' :=
    match a, r with
    | .send req, .ok () => g.dead = false ∧ Allowed m g req ∧
        ∃ p, g.plan.accept (m.rules A C) req = some p ∧ g' = g.sent req p
    | .send _, .error _ => g' = { g with dead := true }
    | .createNew id, .ok () => g' = { g with extras := g.extras ++ [id], synced := false }
    | .createNew _, .error _ => m.fails = true ∧ g' = g
    | .syncDir, .ok () => g' = { g with synced := true }
    | .syncDir, .error _ => m.fails = true ∧ g' = g
    | .join, _ => g' = { g with joined := true }
    | .waitIdle, .ok () => g' = { g with settled := g.joined }
    | .note e, _ => g' = { g with records := g.records ++ [e.1] }
    | _, _ => g' = g

theorem View.told_step {m : Mode} {g : View A C} {a : ClientAct A C Cb} {r : IoResult}
    (ha : a = .close ∨ a = .join ∨ a = .waitIdle) : (contract m).step a g r (g.told a r) := by
  rcases ha with rfl | rfl | rfl <;> rcases r with _ | ⟨⟩ <;> rfl

/-! ## The open chunk -/

/-- The offset table and the pending bytes of the open chunk belong to its records. -/
structure Laid (w : ChunkedWal C) (g : View A C) : Prop where
  table : w.open.chunk.globalOffsets = g.newest.offsets
  bytes : g.dead = false → g.plan.tape.bytes ++ w.open.pendingData = encAll g.records
  encodes : ∀ r ∈ g.records, Encodes r

/-- **The open chunk continues what was sent.** -/
structure WalOk (m : Mode) (w : ChunkedWal C) (g : View A C) : Prop where
  file : w.open.chunk.f = g.plan.tape.id
  start : w.open.chunk.globalStart = g.plan.tape.id
  increasing : w.open.chunk.globalOffsets.Pairwise (· < ·)
  stop : g.dead = false → w.open.chunk.globalEnd = g.plan.tape.end_ + w.open.pendingData.length
  clear : m.fails = false → g.dead = false → g.extras = []
  limits : 0 < w.config.chunkMaxRecords ∧ 0 < w.config.chunkMaxSize
  laid : m.strict = true → Laid w g

/-- **The oldest chunks are drained, the others are in the table.** -/
structure Shelved (g : View A C) (closed : List (Nat × ClosedChunk C)) (drained : List Nat) :
    Prop where
  begun : g.plan.tape.bytes ≠ []
  ids : g.plan.tape.ids = g.parts.map (·.id)
  below : ∀ c ∈ closed, c.1 < g.plan.tape.id
  split : ∃ old ps qs, g.parts = old ++ ps ++ qs ∧ old.length = g.plan.tape.gone ∧
    drained = ps.map (·.id) ∧ closed.map (·.1) = qs.map (·.id)

end

/-! ## The methods -/

section
variable {A C Cb : Type} [Crc32fast] [Encode A] [Encode C] {m : Mode} {w : ChunkedWal C}
    {g : View A C}

/-- The WAL with a record in its buffer. -/
def ChunkedWal.pushed (w : ChunkedWal C) (rec : WALRecord A C) : ChunkedWal C :=
  { w with «open» := {
      pendingData := w.open.pendingData ++ enc rec
      chunk := w.open.chunk.appendRecordSize (enc rec).length } }

/-- The WAL with an empty buffer. -/
def ChunkedWal.flushed (w : ChunkedWal C) : ChunkedWal C :=
  { w with «open» := { w.open with pendingData := [] } }

theorem Laid.push (h : Laid w g) {rec : WALRecord A C} (hr : Encodes rec) :
    Laid (w.pushed rec) { g with records := g.records ++ [rec] } where
  table := Chunk.appendRecordSize_of h.table rec
  bytes hd := by
    have := h.bytes hd
    simp [ChunkedWal.pushed, ← List.append_assoc, this]
  encodes r hm := by
    rcases List.mem_append.1 hm with hm | hm
    · exact h.encodes r hm
    · obtain rfl := List.mem_singleton.1 hm
      exact hr

/-- The view once the buffer is sent. -/
def View.wrote (g : View A C) (sync : Bool) (data : Bytes) : View A C :=
  { g with
    plan := { tape := g.plan.tape.write data, clean := sync || (g.plan.clean && data.isEmpty) }
    settled := false }

theorem WalOk.wrote (h : WalOk m w g) (hd : g.dead = false) (sync : Bool) :
    WalOk m w.flushed (g.wrote sync w.open.pendingData) where
  file := h.file
  start := h.start
  increasing := h.increasing
  stop _ := by
    have := h.stop hd
    simpa [ChunkedWal.flushed, View.wrote] using this
  clear := h.clear
  limits := h.limits
  laid hs := by
    obtain ⟨ht, hb, he⟩ := h.laid hs
    exact ⟨ht, fun _ => by simpa [ChunkedWal.flushed, View.wrote] using hb hd, he⟩

theorem WalOk.lost (h : WalOk m w g) : WalOk m w.flushed { g with dead := true } where
  file := h.file
  start := h.start
  increasing := h.increasing
  stop hd := nomatch hd
  clear _ hd := nomatch hd
  limits := h.limits
  laid hs := ⟨(h.laid hs).table, fun hd => (nomatch hd), (h.laid hs).encodes⟩

theorem WalOk.of_open (h : WalOk m w g) {w' : ChunkedWal C} (ho : w'.open = w.open)
    (hc : w'.config = w.config) : WalOk m w' g := by
  obtain ⟨h1, h2, h3, h4, h5, h6, h7⟩ := h
  exact ⟨ho ▸ h1, ho ▸ h2, ho ▸ h3, ho ▸ h4, h5, hc ▸ h6, fun hs =>
    ⟨ho ▸ (h7 hs).table, ho ▸ (h7 hs).bytes, (h7 hs).encodes⟩⟩

theorem Laid.whole (h : Laid w g) (hd : g.dead = false) :
    (m.rules A C).Whole (g.plan.tape.bytes ++ w.open.pendingData) := by
  rw [h.bytes hd]
  cases hr : g.records with
  | nil => exact .inl rfl
  | cons r rs => exact .inr fun _ => ⟨r, h.encodes r (hr ▸ List.mem_cons_self), by simp⟩

theorem WalOk.accept (h : WalOk m w g) (hd : g.dead = false) (sync : Bool) (callback : Option Cb) :
    g.plan.accept (C := C) (m.rules A C) (.write {
      uptoOffset := w.open.chunk.globalEnd, data := w.open.pendingData, sync, callback }) =
      some (g.wrote sync w.open.pendingData).plan := by
  have hwhole : (m.rules A C).Whole (g.plan.tape.bytes ++ w.open.pendingData) := by
    by_cases hs : m.strict = true
    · exact (h.laid hs).whole hd
    · exact .inr fun h => absurd h hs
  simp only [Plan.accept]
  rw [if_pos ⟨h.stop hd, hwhole⟩]
  rfl

theorem sendPending_meets (h : WalOk m w g) (sync : Bool) (callback : Option Cb) :
    ClientM.Meets (contract m) (fun res w' g' => w' = w.flushed ∧
      ((res = .ok (.ok ()) ∧ g.dead = false ∧ g' = g.wrote sync w.open.pendingData) ∨
        ∃ e, res = .ok (.error e) ∧ g' = { g with dead := true }))
      (ChunkedWal.sendPending sync callback) w g := by
  unfold ChunkedWal.sendPending
  refine .get_bind (.set_bind (.perform (fun hd => ⟨?_, fun hs => (h.laid hs).bytes hd⟩) ?_))
  · exact Option.isSome_iff_exists.2 ⟨_, h.accept hd sync callback⟩
  · intro r g' hg
    rcases r with e | ⟨⟩
    · exact ⟨rfl, .inr ⟨e, rfl, hg⟩⟩
    · obtain ⟨hd, -, p, hp, rfl⟩ := hg
      obtain rfl := Option.some.inj (hp.symm.trans (h.accept hd sync callback))
      exact ⟨rfl, .inl ⟨rfl, hd, rfl⟩⟩

theorem WalOk.full (h : WalOk m w g) (hf : w.isOpenChunkFull = true) :
    0 < w.open.chunk.recordsCount := by
  simp only [ChunkedWal.isOpenChunkFull, Bool.or_eq_true, decide_eq_true_eq] at hf
  obtain ⟨h1, h2⟩ := h.limits
  rcases hf with hf | hf
  · omega
  · exact Chunk.recordsCount_pos (by omega)

/-- The view once a new chunk is begun. -/
def View.begunAt (g : View A C) (id : Nat) : View A C :=
  { g with
    plan := { tape := g.plan.tape.rotate, clean := true }
    parts := g.layout, records := [], extras := g.extras.filter (id < ·), settled := false }

theorem WalOk.rotate (hl : 0 < w.config.chunkMaxRecords ∧ 0 < w.config.chunkMaxSize) {id : Nat}
    (hid : id = g.plan.tape.end_) (hx : m.fails = false → g.extras = [id]) :
    WalOk m { w with «open» := OpenChunk.fromFile id } (g.begunAt id) where
  file := hid
  start := hid
  increasing := by simp [OpenChunk.fromFile]
  stop _ := by simp [OpenChunk.fromFile, Chunk.globalEnd, View.begunAt, Tape.rotate, Tape.end_, hid]
  clear hf _ := by simp [View.begunAt, hx hf]
  limits := hl
  laid hs := by
    refine ⟨?_, fun _ => rfl, fun r hr => by cases hr⟩
    simp only [OpenChunk.fromFile, hid]
    rfl

theorem WalOk.push (h : WalOk m w g) {rec : WALRecord A C} (hr : Encodes rec) (hne : enc rec ≠ []) :
    WalOk m (w.pushed rec) { g with records := g.records ++ [rec] } where
  file := h.file
  start := (Chunk.appendRecordSize_globalStart _ _).trans h.start
  increasing := Chunk.appendRecordSize_increasing h.increasing (List.length_pos_of_ne_nil hne)
  stop hd := by
    have := h.stop hd
    simp only [ChunkedWal.pushed, Chunk.appendRecordSize_globalEnd, List.length_append]
    omega
  clear := h.clear
  limits := h.limits
  laid hs := (h.laid hs).push hr

theorem append_meets [SizedCodec A] [SizedCodec C] (h : WalOk m w g) (rec : WALRecord A C) :
    ClientM.Meets (contract m) (fun res w' g' =>
      (∃ e, res = .error e ∧ w' = w ∧ g' = g) ∨
      (res = .ok () ∧ Encodes rec ∧ w' = w.pushed rec ∧
        g' = { g with records := g.records ++ [rec] }))
      (ChunkedWal.append rec : ClientM A C Cb Unit) w g := by
  unfold ChunkedWal.append
  refine .get_bind ?_
  by_cases hr : Encodes rec
  · simp only [OpenChunk.appendRecord_ok hr]
    refine .set_bind (.liftFault_bind (fun seg hseg => ?_) fun e he => absurd he (by simp))
    obtain rfl := Except.ok.inj hseg
    refine .perform_bind (fun hs => ⟨hr, ?_⟩) fun r g' hg => .pure (.inr ⟨rfl, hr, rfl, hg⟩)
    have hstart := (Chunk.appendRecordSize_globalStart w.open.chunk (enc rec).length).trans h.start
    simp only [Chunk.chunkId, hstart, Chunk.globalEnd_of (h.laid hs).table]
    rfl
  · obtain ⟨e, he⟩ : ∃ e, (encode rec).2 = .error e := by
      rcases hn : (encode rec).2 with e | n
      · exact ⟨e, rfl⟩
      · exact absurd ⟨n, hn⟩ hr
    simp only [OpenChunk.appendRecord_error he]
    exact .set_bind (.liftFault_bind (fun _ h => absurd h (by simp)) fun e' he' =>
      .inl ⟨_, rfl, rfl, rfl⟩)

/-! ## Every method -/

/-- Nothing is promised beyond the rules of a rotation. -/
def Mode.loose : Mode where
  strict := false
  covered := false
  removable _ := True
  fails := true
  exact := false
  once := false
  strict_of_fails h := Bool.noConfusion h

/-- What is in `extras`, and whether the directory was synchronized, does not matter to the open
chunk. -/
theorem WalOk.of_view (h : WalOk Mode.loose w g) {g' : View A C} (hp : g'.plan = g.plan)
    (hd : g'.dead = false → g.dead = false) : WalOk Mode.loose w g' where
  file := hp ▸ h.file
  start := hp ▸ h.start
  increasing := h.increasing
  stop hd' := hp ▸ h.stop (hd hd')
  clear hf := Bool.noConfusion hf
  limits := h.limits
  laid hs := Bool.noConfusion hs

theorem createEmpty_meets {id : Nat} (hd : g.dead = false) (hid : id = g.plan.tape.end_)
    (hne : g.plan.tape.bytes ≠ []) :
    ClientM.Meets (contract Mode.loose) (fun res w' g' => w' = w ∧ g'.plan = g.plan ∧
      g'.dead = false ∧
      ((∃ e, res = .error (.io e)) ∨ res = .ok (OpenChunk.fromFile id) ∧ id ∈ g'.extras ∧
        g'.synced = true))
      (ChunkedWal.createEmpty id : ClientM A C Cb OpenChunk) w g := by
  unfold ChunkedWal.createEmpty
  refine .perform_bind ⟨hd, hid, hne, fun hf => Bool.noConfusion hf⟩ fun r g₁ h₁ => ?_
  rcases r with e | ⟨⟩
  · obtain ⟨-, rfl⟩ := h₁
    exact .require_bind (fun h => absurd h (by simp)) fun e _ => ⟨rfl, rfl, hd, .inl ⟨e, rfl⟩⟩
  obtain rfl : g₁ = { g with extras := g.extras ++ [id], synced := false } := h₁
  refine .require_bind (fun _ => .perform_bind trivial fun r g₂ h₂ => ?_) fun e he =>
    absurd he (by simp)
  rcases r with e | ⟨⟩
  · obtain ⟨-, rfl⟩ := h₂
    exact .require_bind (fun h => absurd h (by simp)) fun e _ => ⟨rfl, rfl, hd, .inl ⟨e, rfl⟩⟩
  obtain rfl : g₂ = { g with extras := g.extras ++ [id], synced := true } := h₂
  refine .require_bind (fun _ => .pure ⟨rfl, rfl, hd, .inr ⟨rfl, ?_, rfl⟩⟩) fun e he =>
    absurd he (by simp)
  exact List.mem_append_right _ (List.mem_singleton_self _)

theorem flush_meets (h : WalOk Mode.loose w g) (sync : Bool) (callback : Option Cb) :
    ClientM.Meets (contract Mode.loose) (fun (res : Except Fault IoResult) w' g' => w' = w.flushed ∧
      WalOk Mode.loose w' g' ∧ ∃ r, res = .ok r ∧
        (r = .ok () → g.dead = false ∧ g' = g.wrote sync w.open.pendingData))
      (ChunkedWal.sendPending sync callback : ClientM A C Cb IoResult) w g := by
  refine (sendPending_meets h sync callback).mono ?_
  rintro res w' g' ⟨rfl, ⟨rfl, hd, rfl⟩ | ⟨e, rfl, rfl⟩⟩
  · exact ⟨rfl, h.wrote hd sync, _, rfl, fun _ => ⟨hd, rfl⟩⟩
  · exact ⟨rfl, h.lost, _, rfl, fun hr => absurd hr (by simp)⟩

variable [SizedCodec A] [SizedCodec C]

/-- **A rotation**, whatever fails in it. -/
theorem tryCloseFullChunk_meets (hne : ∀ rec : WALRecord A C, Encodes rec → enc rec ≠ [])
    (h : WalOk Mode.loose w g) (c : C) :
    ClientM.Meets (contract Mode.loose) (fun (_ : Except Fault (Option C)) w' g' =>
      WalOk Mode.loose w' g')
      (ChunkedWal.tryCloseFullChunk c : ClientM A C Cb (Option C)) w g := by
  unfold ChunkedWal.tryCloseFullChunk
  refine .get_bind ?_
  by_cases hf : w.isOpenChunkFull = true
  swap
  · simp only [hf, Bool.not_false, if_true]
    exact .pure h
  simp only [hf, Bool.not_true, Bool.false_eq_true, if_false]
  refine .bind (flush_meets h true none) ?_ ?_
  swap
  · rintro e w' g' ⟨-, -, r, hr, -⟩
    cases hr
  rintro r₁ _ g₁ ⟨rfl, h₁, r, hr, hok⟩
  obtain rfl := Except.ok.inj hr
  refine .require_bind (fun hr => ?_) fun e _ => h₁
  obtain ⟨hd, rfl⟩ := hok hr
  have hcount := h.full hf
  obtain ⟨seg, hseg, hend⟩ := Chunk.lastSegment_of_increasing h.increasing hcount
  refine .liftFault_bind (fun seg' hseg' => ?_) fun e he => absurd (hseg.symm.trans he) (by simp)
  obtain rfl := Except.ok.inj (hseg.symm.trans hseg')
  have hstop : w.open.chunk.globalEnd = (g.wrote true w.open.pendingData).plan.tape.end_ :=
    h₁.stop hd
  have hid : seg.end_ = (g.wrote true w.open.pendingData).plan.tape.end_ := hend.trans hstop
  have hbegun : (g.wrote true w.open.pendingData).plan.tape.bytes ≠ [] := by
    have hlt := Chunk.lt_of_recordsCount h.increasing hcount
    have hstart : w.open.chunk.globalStart = (g.wrote true w.open.pendingData).plan.tape.id :=
      h₁.start
    refine List.ne_nil_of_length_pos ?_
    unfold Tape.end_ at hstop
    omega
  refine .bind (createEmpty_meets hd hid hbegun) ?_ ?_
  swap
  · rintro e _ g₂ ⟨rfl, hp, hd₂, -⟩
    exact h₁.of_view hp fun _ => hd
  rintro o _ g₂ ⟨rfl, hp, hd₂, ⟨e, he⟩ | ⟨ho, hmem, hsync⟩⟩
  · cases he
  obtain rfl := Except.ok.inj ho
  have h₂ : WalOk Mode.loose w.flushed g₂ := h₁.of_view hp fun _ => hd
  have hp' : g₂.plan = { tape := g.plan.tape.write w.open.pendingData, clean := true } := hp
  have haccept : g₂.plan.accept (Mode.loose.rules A C) (.appendFile (FileEntry.new seg.end_
      (OpenChunk.fromFile seg.end_).chunk.f (some c)) : WorkerRequest C Cb) =
        some { tape := g₂.plan.tape.rotate, clean := true } := by
    rw [hp']
    exact if_pos ⟨rfl, hbegun, hid, hid⟩
  refine .perform_bind (fun _ => ⟨by rw [haccept]; rfl, hmem, hsync, fun hf => Bool.noConfusion hf,
    fun hs => Bool.noConfusion hs⟩) fun r₂ g₃ h₃ => ?_
  rcases r₂ with e | ⟨⟩
  · obtain rfl : g₃ = { g₂ with dead := true } := h₃
    exact .require_bind (fun h => absurd h (by simp)) fun e _ => h₂.lost
  obtain ⟨-, -, p, hacc, rfl⟩ := h₃
  obtain rfl := Option.some.inj (haccept.symm.trans hacc)
  have h₃ : WalOk Mode.loose { w.flushed with «open» := OpenChunk.fromFile seg.end_ }
    (g₂.begunAt seg.end_) :=
    .rotate h.limits (by rw [hid, hp]) fun hf => Bool.noConfusion hf
  refine .require_bind (fun _ => ?_) fun e he => absurd he (by simp)
  refine .get_bind (.set_bind (.bind (append_meets h₃ (.checkpoint c)) ?_ ?_))
  swap
  · rintro e _ _ (⟨-, -, rfl, rfl⟩ | ⟨he, -⟩)
    · exact h₃
    · cases he
  rintro u _ _ (⟨e, he, -⟩ | ⟨-, hr, rfl, rfl⟩)
  · cases he
  have h₄ := h₃.push hr (hne _ hr)
  refine .bind (flush_meets h₄ false none) ?_ ?_
  swap
  · rintro e _ _ ⟨-, -, r, hr, -⟩
    cases hr
  rintro r₃ _ g₅ ⟨rfl, h₅, -⟩
  exact .require_bind (fun _ => .get_bind (.set_bind (.pure (h₅.of_open rfl rfl)))) fun e _ => h₅

omit [SizedCodec A] [SizedCodec C] in
theorem shutdown_meets (h : WalOk Mode.loose w g) :
    ClientM.Meets (contract Mode.loose) (fun (_ : Except Fault Unit) w' g' =>
      WalOk Mode.loose w' g')
      (ChunkedWal.shutdown : ClientM A C Cb Unit) w g := by
  unfold ChunkedWal.shutdown
  refine .get_bind ?_
  by_cases hw : w.workerHandle = true
  swap
  · simp only [hw, Bool.not_false, if_true]
    exact .pure h
  simp only [hw, Bool.not_true, Bool.false_eq_true, if_false]
  have h' : WalOk Mode.loose { w with workerHandle := false } g := h.of_open rfl rfl
  refine .set_bind (.bind (flush_meets h' true none) ?_ ?_)
  swap
  · rintro e _ _ ⟨-, -, r, hr, -⟩
    cases hr
  rintro r _ g₁ ⟨rfl, h₁, -⟩
  refine .perform_bind trivial fun r₁ g₂ h₂ => .perform_bind trivial fun r₂ g₃ h₃ => ?_
  obtain rfl : g₂ = g₁ := by cases r₁ <;> exact h₂
  obtain rfl : g₃ = { g₂ with joined := true } := by cases r₂ <;> exact h₃
  have hjoined : WalOk Mode.loose _ { g₂ with joined := true } := h₁.of_view rfl id
  refine .require_bind (fun _ => .require_bind (fun _ => ?_) fun e _ => hjoined) fun e _ => hjoined
  refine .perform_bind trivial fun r₄ g₄ h₄ => ?_
  have h₄ : g₄.plan = g₂.plan ∧ g₄.dead = g₂.dead := by
    cases r₄ <;> cases h₄ <;> exact ⟨rfl, rfl⟩
  have hlast := h₁.of_view h₄.1 fun hd => h₄.2.symm.trans hd
  exact .require (fun _ => hlast) fun _ _ => hlast

omit [SizedCodec A] [SizedCodec C] in
theorem send_meets (h : WalOk Mode.loose w g) {req : WorkerRequest C Cb}
    (haccept : g.plan.accept (Mode.loose.rules A C) req = some g.plan)
    (hallowed : Allowed Mode.loose g req) (hsent : g.sent req g.plan =
      { g with settled := false }) :
    ClientM.Meets (contract Mode.loose) (fun (_ : Except Fault Unit) w' g' =>
      WalOk Mode.loose w' g')
      (do ClientM.require (← ClientM.perform (.send req)) : ClientM A C Cb Unit) w g := by
  refine .perform_bind (fun _ => ⟨by rw [haccept]; rfl, hallowed⟩) fun r g' hstep => ?_
  rcases r with e | ⟨⟩
  · obtain rfl : g' = { g with dead := true } := hstep
    have hdead : WalOk Mode.loose w { g with dead := true } := h.of_view rfl fun hd =>
      Bool.noConfusion hd
    exact .require (fun _ => hdead) fun _ _ => hdead
  · obtain ⟨-, -, p, hp, rfl⟩ := hstep
    obtain rfl := Option.some.inj (haccept.symm.trans hp)
    have hlive : WalOk Mode.loose w (g.sent req g.plan) := by
      rw [hsent]
      exact h.of_view rfl id
    exact .require (fun _ => hlive) fun _ _ => hlive

/-- **Every method** keeps to the contract. -/
theorem Op.meets (hne : ∀ rec : WALRecord A C, Encodes rec → enc rec ≠ []) (op : Op A C Cb)
    (h : WalOk Mode.loose w g) :
    ClientM.Meets (contract Mode.loose) (fun (_ : Except Fault (Ret C)) w' g' =>
      WalOk Mode.loose w' g')
      op.run w g := by
  cases op with
  | append rec =>
    refine .bind (append_meets h rec) ?_ ?_
    · rintro u _ _ (⟨e, he, -⟩ | ⟨-, hr, rfl, rfl⟩)
      · cases he
      · exact .pure (h.push hr (hne _ hr))
    · rintro e _ _ (⟨-, -, rfl, rfl⟩ | ⟨he, -⟩)
      · exact h
      · cases he
  | sendPending sync callback =>
    refine .bind (flush_meets h sync callback) ?_ ?_
    · rintro r _ g₁ ⟨rfl, h₁, -⟩
      exact .require_bind (fun _ => .pure h₁) fun e _ => h₁
    · rintro e _ _ ⟨-, -, r, hr, -⟩
      cases hr
  | tryCloseFullChunk c =>
    exact .bind (tryCloseFullChunk_meets hne h c) (fun _ _ _ h => .pure h) fun _ _ _ h => h
  | drainClosedChunksWhile shouldDrain =>
    refine .bind (Q := fun _ w' g' => WalOk Mode.loose w' g') ?_ (fun _ _ _ h => .pure h)
      fun _ _ _ h => h
    exact .get_bind (.set_bind (.pure (h.of_open rfl rfl)))
  | sendRemoveChunks ids =>
    exact .bind (send_meets h (by simp [Plan.accept, Mode.rules, Mode.loose]) (fun _ _ =>
      trivial) rfl)
      (fun _ _ _ h => .pure h) fun _ _ _ h => h
  | sendGetStat =>
    exact .bind (send_meets h rfl trivial rfl) (fun _ _ _ h => .pure h) fun _ _ _ h => h
  | waitWorkerIdle =>
    refine .bind (Q := fun _ w' g' => WalOk Mode.loose w' g') ?_ (fun _ _ _ h => .pure h)
      fun _ _ _ h => h
    refine .perform_bind trivial fun r g' hstep => ?_
    have hg : g'.plan = g.plan ∧ g'.dead = g.dead := by
      cases r <;> cases hstep <;> exact ⟨rfl, rfl⟩
    have h' := h.of_view hg.1 fun hd => hg.2.symm.trans hd
    exact .require (fun _ => h') fun _ _ => h'
  | shutdown => exact .bind (shutdown_meets h) (fun _ _ _ h => .pure h) fun _ _ _ h => h

end

end Wal

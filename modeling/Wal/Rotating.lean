import Wal.Contract
import Wal.Reading
import Wal.Waiting

/-!
# A rotation that fails

`try_close_full_chunk` replaces the open chunk once its successor is handed to the worker, and puts
the old one among the closed ones when the first record of the successor is sent. An error in
between leaves it in neither place. `runs_rotation` says that every other error leaves the index as
it was: in every run in which whatever follows an accepted `AppendFile` goes well (`HandsOver`).
-/

namespace Wal

open Lib

section
variable {A C Cb : Type}

/-- The open chunk has a record. -/
structure Indexed (w : ChunkedWal C) : Prop where
  increasing : w.open.chunk.globalOffsets.Pairwise (· < ·)
  nonempty : 0 < w.open.chunk.recordsCount

/-- The same chunks with the same records. -/
structure Intact (w w' : ChunkedWal C) : Prop where
  closed : w'.closed = w.closed
  «open» : w'.open.chunk = w.open.chunk

theorem Intact.refl (w : ChunkedWal C) : Intact w w := ⟨rfl, rfl⟩

/-- The open chunk begins with a checkpoint. -/
def Headed (w : ChunkedWal C) (log : List (LogEntry A C)) : Prop :=
  ∃ c seg, (.checkpoint c, w.open.chunk.globalStart, seg) ∈ log ∧
  seg.offset = w.open.chunk.globalStart

theorem Headed.mono {w w' : ChunkedWal C} {log log' : List (LogEntry A C)} (h : Headed w log)
    (hs : w'.open.chunk.globalStart = w.open.chunk.globalStart) (hl : log <+: log') :
    Headed w' log' := by
  obtain ⟨c, seg, hm, ho⟩ := h
  unfold Headed
  rw [hs]
  exact ⟨c, seg, hl.subset hm, ho⟩

theorem Indexed.of_chunk {w w' : ChunkedWal C} (h : Indexed w) (ho : w'.open.chunk = w.open.chunk) :
    Indexed w' := ⟨ho ▸ h.increasing, ho ▸ h.nonempty⟩

def WorkerRequest.isAppendFile : WorkerRequest C Cb → Bool
  | .appendFile _ => true
  | _ => false

/-- The checkpoint that comes with a file. -/
def WorkerRequest.onPersisted? : WorkerRequest C Cb → Option C
  | .appendFile e => e.onPersisted
  | _ => none

/-- What a rotation relies on: whether the last request was an `AppendFile`, and the log. -/
structure Handing (A C : Type) where
  handed : Bool
  log : List (LogEntry A C)

section
variable [Crc32fast] [Encode A] [Encode C]

variable (A) in
/-- The checkpoint that comes with the file can be encoded. -/
def Fits (req : WorkerRequest C Cb) : Prop :=
  ∀ c ∈ req.onPersisted?, Encodes (WALRecord.checkpoint c : WALRecord A C)

instance (req : WorkerRequest C Cb) : Decidable (Fits A req) :=
  inferInstanceAs (Decidable (∀ c ∈ req.onPersisted?, _))

/-- After an `AppendFile`, the next request is not refused. -/
def handingContract : Contract (ClientAct A C Cb) IoResult (Handing A C) where
  pre _ _ := True
  step a g r g' :=
    match a, r with
    | .send req, .ok () => g' = { g with handed := req.isAppendFile } ∧ Fits A req
    | .send _, .error _ => g.handed = false ∧ g' = g
    | .note e, _ => g' = { g with log := g.log ++ [e] }
    | _, _ => g' = g

/-- What a rotation does when it succeeds: the chunk is closed, and the next begins with a
checkpoint. -/
structure Rotated (c : C) (w : ChunkedWal C) (log : List (LogEntry A C)) (w' : ChunkedWal C)
    (log' : List (LogEntry A C)) : Prop where
  closed : w'.closed =
    insertChunk w.open.chunk.chunkId { state := c, chunk := w.open.chunk } w.closed
  «open» : w'.open.chunk = (OpenChunk.fromFile w.open.chunk.globalEnd).chunk.appendRecordSize
    (enc (.checkpoint c : WALRecord A C)).length
  log : log' = log ++ [(.checkpoint c, w.open.chunk.globalEnd,
    { offset := w.open.chunk.globalEnd, size := (enc (.checkpoint c : WALRecord A C)).length })]

/-- What holds after a call. -/
structure Kept (op : Op A C Cb) (w : ChunkedWal C) (log : List (LogEntry A C))
    (res : Except Fault (Ret C)) (w' : ChunkedWal C) (g : Handing A C) : Prop where
  handed : g.handed = false
  indexed : Indexed w'
  headed : Headed w log → Headed w' g.log
  failed : ∀ c e, op = .tryCloseFullChunk c → res = .error e → Intact w w' ∧ g.log = log
  rotated : ∀ c c', op = .tryCloseFullChunk c → res = .ok (.checkpoint (some c')) →
    c' = c ∧ Rotated c w log w' g.log

end

/-! ## The methods -/

section
variable [Crc32fast] [Encode A] [Encode C] {w : ChunkedWal C} {g : Handing A C}

theorem sendPending_hands (hg : g.handed = false) (sync : Bool) (callback : Option Cb) :
    ClientM.Meets handingContract (fun (res : Except Fault IoResult) w' g' => (∃ r, res = .ok r) ∧
      w' = w.flushed ∧ g' = g)
      (ChunkedWal.sendPending sync callback) w g := by
  unfold ChunkedWal.sendPending
  refine .get_bind (.set_bind (.perform trivial fun r g' hstep => ⟨⟨r, rfl⟩, rfl, ?_⟩))
  rcases r with e | ⟨⟩
  · exact hstep.2
  · obtain ⟨handed, log⟩ := g
    change handed = false at hg
    subst hg
    exact hstep.1

theorem sendPending_handed (hg : g.handed = true) (sync : Bool) (callback : Option Cb) :
    ClientM.Meets handingContract (fun (res : Except Fault IoResult) w' g' => res = .ok (.ok ()) ∧
      w' = w.flushed ∧ g' = { g with handed := false })
      (ChunkedWal.sendPending sync callback) w g := by
  unfold ChunkedWal.sendPending
  refine .get_bind (.set_bind (.perform trivial fun r g' hstep => ?_))
  rcases r with e | ⟨⟩
  · exact absurd (hg.symm.trans hstep.1) (by simp)
  · exact ⟨rfl, rfl, hstep.1⟩

/-- Neither a request nor a record. -/
def ClientAct.isQuiet : ClientAct A C Cb → Bool
  | .send _ | .note _ => false
  | _ => true

theorem quiet_hands {a : ClientAct A C Cb} (ha : a.isQuiet = true) {β : Type}
    {k : IoResult → ClientM A C Cb β} {R : Except Fault β → ChunkedWal C → Handing A C → Prop}
    (hk : ∀ r, ClientM.Meets handingContract R (k r) w g) :
    ClientM.Meets handingContract R (ClientM.perform a >>= k) w g := by
  refine .perform_bind trivial fun r g' hstep => ?_
  have heq : g' = g := by
    cases a with
    | send | note => cases ha
    | createNew | syncDir | close | join | waitIdle => cases r <;> exact hstep
  rw [heq]
  exact hk r

theorem createEmpty_hands (id : Nat) :
    ClientM.Meets handingContract (fun res w' g' => w' = w ∧ g' = g ∧
      ((∃ e, res = .error (.io e)) ∨ res = .ok (OpenChunk.fromFile id)))
      (ChunkedWal.createEmpty id : ClientM A C Cb OpenChunk) w g := by
  unfold ChunkedWal.createEmpty
  refine quiet_hands rfl fun r => .require_bind (fun _ => ?_) fun e _ => ⟨rfl, rfl, .inl ⟨e, rfl⟩⟩
  exact quiet_hands rfl fun r => .require_bind (fun _ => .pure ⟨rfl, rfl, .inr rfl⟩)
    fun e _ => ⟨rfl, rfl, .inl ⟨e, rfl⟩⟩

theorem append_hands [SizedCodec A] [SizedCodec C] (rec : WALRecord A C) :
    ClientM.Meets handingContract (fun (res : Except Fault Unit) (w' : ChunkedWal C) g' =>
      (¬ Encodes rec ∧ (∃ e, res = .error (.io e)) ∧ w' = w ∧ g' = g) ∨
      (Encodes rec ∧ res = .ok () ∧ w' = w.pushed rec ∧
        g' = { g with log := g.log ++ [(rec, w.open.chunk.globalStart,
          { offset := w.open.chunk.globalEnd, size := (enc rec).length })] }))
      (ChunkedWal.append rec : ClientM A C Cb Unit) w g := by
  unfold ChunkedWal.append
  refine .get_bind ?_
  by_cases hr : Encodes rec
  · simp only [OpenChunk.appendRecord_ok hr]
    refine .set_bind (.liftFault_bind (fun seg hseg => ?_) fun e he => (nomatch he))
    obtain rfl := Except.ok.inj hseg
    refine .perform_bind trivial fun r g' hg => .pure (.inr ⟨hr, rfl, rfl, ?_⟩)
    rw [← Chunk.appendRecordSize_globalStart w.open.chunk (enc rec).length]
    exact hg
  · have he : ∃ e, (encode rec).2 = .error e := by
      rcases hn : (encode rec).2 with e | n
      · exact ⟨e, rfl⟩
      · exact absurd ⟨n, hn⟩ hr
    obtain ⟨e, he⟩ := he
    simp only [OpenChunk.appendRecord_error he]
    exact .set_bind (.liftFault_bind (fun _ h => nomatch h) fun e' he' =>
      .inl ⟨hr, ⟨e, Except.error.inj he' |>.symm ▸ rfl⟩, rfl, rfl⟩)

/-- **A rotation**: an error leaves the index as it was. -/
theorem tryCloseFullChunk_hands [SizedCodec A] [SizedCodec C] (h : Indexed w)
    (hg : g.handed = false) (c : C) :
    ClientM.Meets handingContract (fun (res : Except Fault (Option C)) w' g' => g'.handed = false ∧
      ((∃ e, res = .error (.io e) ∧ Intact w w' ∧ g'.log = g.log) ∨
        (res = .ok none ∧ w' = w ∧ g'.log = g.log) ∨
          (res = .ok (some c) ∧ Rotated c w g.log w' g'.log)))
      (ChunkedWal.tryCloseFullChunk c : ClientM A C Cb (Option C)) w g := by
  unfold ChunkedWal.tryCloseFullChunk
  refine .get_bind ?_
  by_cases hf : w.isOpenChunkFull = true
  swap
  · simp only [hf, Bool.not_false, if_true]
    exact .pure ⟨hg, .inr (.inl ⟨rfl, rfl, rfl⟩)⟩
  simp only [hf, Bool.not_true, Bool.false_eq_true, if_false]
  refine .bind (sendPending_hands hg true none) ?_ fun e w' g' hr => absurd hr.1 (by simp)
  rintro r₁ _ _ ⟨-, rfl, rfl⟩
  refine .require_bind (fun _ => ?_) fun e _ => ⟨hg, .inl ⟨e, rfl, ⟨rfl, rfl⟩, rfl⟩⟩
  obtain ⟨seg, hseg, hend⟩ := Chunk.lastSegment_of_increasing h.increasing h.nonempty
  refine .liftFault_bind (fun seg' hseg' => ?_) fun e he => absurd (hseg.symm.trans he) (by simp)
  rw [hseg] at hseg'
  obtain rfl := Except.ok.inj hseg'
  refine .bind (createEmpty_hands seg.end_) ?_ ?_
  swap
  · rintro e _ _ ⟨rfl, rfl, ⟨e', he⟩ | he⟩
    · exact ⟨hg, .inl ⟨e', by rw [Except.error.inj he], ⟨rfl, rfl⟩, rfl⟩⟩
    · cases he
  rintro o _ _ ⟨rfl, rfl, ⟨e', he⟩ | he⟩
  · cases he
  obtain rfl := Except.ok.inj he
  refine .perform_bind trivial fun r₂ g₂ h₂ => ?_
  rcases r₂ with e | ⟨⟩
  · obtain ⟨-, rfl⟩ := h₂
    exact .require_bind (fun h => nomatch h) fun e _ => ⟨hg, .inl ⟨e, rfl, ⟨rfl, rfl⟩, rfl⟩⟩
  obtain ⟨rfl, hfits⟩ := h₂
  have hc : Encodes (.checkpoint c : WALRecord A C) := hfits c rfl
  refine .require_bind (fun _ => ?_) fun e he => (nomatch he)
  refine .get_bind (.set_bind (.bind (append_hands (.checkpoint c)) ?_ ?_))
  swap
  · rintro e w' g' (⟨hn, -⟩ | ⟨-, he, -⟩)
    · exact absurd hc hn
    · cases he
  rintro u _ _ (⟨hn, -⟩ | ⟨-, -, rfl, rfl⟩)
  · exact absurd hc hn
  refine .bind (sendPending_handed rfl false none) ?_ fun e w' g' h => absurd h.1 (by simp)
  rintro r₃ _ _ ⟨hr₃, rfl, rfl⟩
  obtain rfl := Except.ok.inj hr₃
  refine .require_bind (fun _ => .get_bind (.set_bind (.pure ⟨rfl, .inr (.inr ⟨rfl, ?_⟩)⟩)))
    fun e he => (nomatch he)
  rw [hend]
  exact ⟨rfl, rfl, rfl⟩

omit [Encode A] [Encode C] [Crc32fast] in
theorem Kept.of_open {op : Op A C Cb} {log : List (LogEntry A C)} {res : Except Fault (Ret C)}
    {w' : ChunkedWal C} [Crc32fast] [Encode A] [Encode C] (hop : ∀ c, op ≠ .tryCloseFullChunk c)
    (hi : Indexed w') (hg : g.handed = false)
    (hs : w'.open.chunk.globalStart = w.open.chunk.globalStart) (hl : log <+: g.log) :
    Kept op w log res w' g :=
  ⟨hg, hi, fun h => h.mono hs hl, fun c _ h => absurd h (hop c), fun c _ h => absurd h (hop c)⟩

theorem length_enc_checkpoint (c : C) : 0 < (enc (.checkpoint c : WALRecord A C)).length := by
  have h : 0 < (WALRecord.checkpointBody c).length := by simp [WALRecord.checkpointBody]
  show 0 < (WALRecord.encodeRecord (.checkpoint c : WALRecord A C)).1.length
  unfold WALRecord.encodeRecord
  simp only
  split
  · exact h
  · rw [List.length_append]
    omega

omit [Crc32fast] [Encode C] in
theorem Indexed.pushed_size (h : Indexed w) {n : Nat} (hn : 0 < n) {w' : ChunkedWal C}
    (ho : w'.open.chunk = w.open.chunk.appendRecordSize n) : Indexed w' := by
  refine ⟨ho ▸ Chunk.appendRecordSize_increasing h.increasing hn, ?_⟩
  have := List.length_pos_of_ne_nil w.open.chunk.nonempty
  simp only [ho, Chunk.recordsCount, Chunk.appendRecordSize, List.length_append,
    List.length_singleton]
  omega

theorem Rotated.indexed {c : C} {log log' : List (LogEntry A C)} {w' : ChunkedWal C}
    (h : Rotated c w log w' log') : Indexed w' := by
  refine ⟨?_, ?_⟩
  · rw [h.open]
    exact Chunk.appendRecordSize_increasing (by simp [OpenChunk.fromFile]) (length_enc_checkpoint c)
  · rw [h.open]
    exact Nat.zero_lt_one

theorem Rotated.headed {c : C} {log log' : List (LogEntry A C)} {w' : ChunkedWal C}
    (h : Rotated c w log w' log') : Headed w' log' := by
  have hs : w'.open.chunk.globalStart = w.open.chunk.globalEnd := by
    rw [h.open, Chunk.appendRecordSize_globalStart]
    rfl
  unfold Headed
  rw [hs, h.log]
  exact ⟨c, _, List.mem_append_right _ List.mem_cons_self, rfl⟩

theorem send_hands (hg : g.handed = false) {req : WorkerRequest C Cb}
    (hr : req.isAppendFile = false) {β : Type} {k : IoResult → ClientM A C Cb β}
    {R : Except Fault β → ChunkedWal C → Handing A C → Prop}
    (hk : ∀ r, ClientM.Meets handingContract R (k r) w g) :
    ClientM.Meets handingContract R (ClientM.perform (.send req) >>= k) w g := by
  refine .perform_bind trivial fun r g' hstep => ?_
  have heq : g' = g := by
    rcases r with e | ⟨⟩
    · exact hstep.2
    · obtain ⟨handed, log⟩ := g
      change handed = false at hg
      subst hg
      rw [hstep.1, hr]
  rw [heq]
  exact hk r

theorem sendRemoveChunks_hands (hg : g.handed = false) (ids : List Nat) :
    ClientM.Meets handingContract (fun (_ : Except Fault Unit) w' g' => w' = w ∧ g' = g)
      (ChunkedWal.sendRemoveChunks ids : ClientM A C Cb Unit) w g :=
  send_hands hg rfl fun _ => .require (fun _ => ⟨rfl, rfl⟩) fun _ _ => ⟨rfl, rfl⟩

theorem sendGetStat_hands (hg : g.handed = false) :
    ClientM.Meets handingContract (fun (_ : Except Fault Unit) w' g' => w' = w ∧ g' = g)
      (ChunkedWal.sendGetStat : ClientM A C Cb Unit) w g :=
  send_hands hg rfl fun _ => .require (fun _ => ⟨rfl, rfl⟩) fun _ _ => ⟨rfl, rfl⟩

theorem waitWorkerIdle_hands :
    ClientM.Meets handingContract (fun (_ : Except Fault Unit) w' g' => w' = w ∧ g' = g)
      (ChunkedWal.waitWorkerIdle : ClientM A C Cb Unit) w g :=
  quiet_hands rfl fun _ => .require (fun _ => ⟨rfl, rfl⟩) fun _ _ => ⟨rfl, rfl⟩

theorem drainClosedChunksWhile_hands (shouldDrain : Nat → C → Bool) :
    ClientM.Meets handingContract (fun (_ : Except Fault (List Nat)) w' g' =>
      w'.open.chunk = w.open.chunk ∧ g' = g)
      (ChunkedWal.drainClosedChunksWhile shouldDrain : ClientM A C Cb (List Nat)) w g :=
  .get_bind (.set_bind (.pure ⟨rfl, rfl⟩))

theorem shutdown_hands (hg : g.handed = false) :
    ClientM.Meets handingContract (fun (_ : Except Fault Unit) w' g' => w'.open.chunk =
      w.open.chunk ∧
      g' = g) (ChunkedWal.shutdown : ClientM A C Cb Unit) w g := by
  unfold ChunkedWal.shutdown
  refine .get_bind ?_
  by_cases hw : w.workerHandle = true
  swap
  · simp only [hw, Bool.not_false, if_true]
    exact .pure ⟨rfl, rfl⟩
  simp only [hw, Bool.not_true, Bool.false_eq_true, if_false]
  refine .set_bind (.bind (sendPending_hands hg true none) ?_ fun e w' g' h => absurd h.1 (by simp))
  rintro r _ _ ⟨-, rfl, rfl⟩
  refine quiet_hands rfl fun r₁ => quiet_hands rfl fun r₂ => ?_
  refine .require_bind (fun _ => .require_bind (fun _ => ?_) fun e _ => ⟨rfl, rfl⟩) fun e _ =>
    ⟨rfl, rfl⟩
  exact quiet_hands rfl fun r₃ => .require (fun _ => ⟨rfl, rfl⟩) fun e _ => ⟨rfl, rfl⟩

variable [Decode A] [Decode C] [WALRecord.LawfulAction A] [LawfulCodec C]

/-- **Every method** keeps a record in the open chunk. -/
theorem Op.hands (op : Op A C Cb) (h : Indexed w) (hg : g.handed = false) :
    ClientM.Meets handingContract (Kept op w g.log) op.run w g := by
  cases op with
  | append rec =>
    refine .bind (append_hands rec) ?_ ?_
    · rintro u _ _ (⟨-, ⟨e, he⟩, -⟩ | ⟨hr, -, rfl, rfl⟩)
      · cases he
      · refine .pure (.of_open (by simp) (h.pushed_size
          (List.length_pos_of_ne_nil (LawfulRecord.enc_ne_nil hr)) rfl) hg ?_
            (List.prefix_append _ _))
        exact Chunk.appendRecordSize_globalStart _ _
    · rintro e _ _ (⟨-, -, rfl, rfl⟩ | ⟨-, he, -⟩)
      · exact .of_open (by simp) h hg rfl List.prefix_rfl
      · cases he
  | sendPending sync callback =>
    refine .bind (sendPending_hands hg sync callback) ?_ fun e w' g' h => absurd h.1 (by simp)
    rintro r _ _ ⟨-, rfl, rfl⟩
    exact .require_bind (fun _ =>
      .pure (.of_open (by simp) (h.of_chunk rfl) hg rfl List.prefix_rfl))
      fun e _ => Kept.of_open (by simp) (h.of_chunk rfl) hg rfl List.prefix_rfl
  | tryCloseFullChunk c =>
    refine .bind (tryCloseFullChunk_hands h hg c) ?_ ?_
    · rintro a w' g' ⟨hg', ⟨e, he, -⟩ | ⟨ha, rfl, hlog⟩ | ⟨ha, hr⟩⟩
      · cases he
      · cases ha
        refine .pure ⟨hg', h, fun hh => hh.mono rfl ?_, by simp, by simp⟩
        rw [hlog]
      · cases ha
        refine .pure ⟨hg', hr.indexed, fun _ => hr.headed, by simp,
          fun c₁ c₂ h₁ h₂ => ?_⟩
        cases h₁
        cases h₂
        exact ⟨rfl, hr⟩
    · rintro f w' g' ⟨hg', ⟨e, he, hi, hlog⟩ | ⟨ha, -⟩ | ⟨ha, -⟩⟩
      · refine ⟨hg', h.of_chunk hi.open, fun hh => hh.mono (by rw [hi.open]) ?_,
          fun _ _ _ _ => ⟨hi, hlog⟩, by simp⟩
        rw [hlog]
      · cases ha
      · cases ha
  | drainClosedChunksWhile shouldDrain =>
    refine .bind (drainClosedChunksWhile_hands shouldDrain) ?_ ?_
    · rintro ids w' _ ⟨ho, rfl⟩
      exact .pure (Kept.of_open (by simp) (h.of_chunk ho) hg (by rw [ho]) List.prefix_rfl)
    · rintro f w' _ ⟨ho, rfl⟩
      exact Kept.of_open (by simp) (h.of_chunk ho) hg (by rw [ho]) List.prefix_rfl
  | sendRemoveChunks ids =>
    refine .bind (sendRemoveChunks_hands hg ids) ?_ ?_
    · rintro u _ _ ⟨rfl, rfl⟩
      exact .pure (.of_open (by simp) h hg rfl List.prefix_rfl)
    · rintro f _ _ ⟨rfl, rfl⟩
      exact Kept.of_open (by simp) h hg rfl List.prefix_rfl
  | sendGetStat =>
    refine .bind (sendGetStat_hands hg) ?_ ?_
    · rintro u _ _ ⟨rfl, rfl⟩
      exact .pure (.of_open (by simp) h hg rfl List.prefix_rfl)
    · rintro f _ _ ⟨rfl, rfl⟩
      exact Kept.of_open (by simp) h hg rfl List.prefix_rfl
  | waitWorkerIdle =>
    refine .bind waitWorkerIdle_hands ?_ ?_
    · rintro u _ _ ⟨rfl, rfl⟩
      exact .pure (.of_open (by simp) h hg rfl List.prefix_rfl)
    · rintro f _ _ ⟨rfl, rfl⟩
      exact .of_open (by simp) h hg rfl List.prefix_rfl
  | shutdown =>
    refine .bind (shutdown_hands hg) ?_ ?_
    · rintro u w' _ ⟨ho, rfl⟩
      exact .pure (Kept.of_open (by simp) (h.of_chunk ho) hg (by rw [ho]) List.prefix_rfl)
    · rintro f w' _ ⟨ho, rfl⟩
      exact Kept.of_open (by simp) (h.of_chunk ho) hg (by rw [ho]) List.prefix_rfl

end

end

/-! ## After an opening -/

section
variable {A C Cb : Type} [Crc32fast] [Encode A] [Decode A] [Encode C] [Decode C]

def WALRecord.isCheckpoint : WALRecord A C → Bool
  | .checkpoint _ => true
  | .action _ => false

variable (A C) in
/-- Every chunk file that has a record begins with a checkpoint. -/
def FilesHeaded (fs : Fs) : Prop :=
  ∀ id ∈ fs.dir, ∀ p ∈ (recordsIn A C (fs.file id).data id).head?, p.2.isCheckpoint = true

instance (fs : Fs) : Decidable (FilesHeaded A C fs) :=
  inferInstanceAs (Decidable (∀ id ∈ fs.dir, ∀ p ∈ (recordsIn A C (fs.file id).data id).head?, _))

omit [Encode C] in
theorem Reads.chunks {sm : StateMachine A C} {config : Config} {file : Nat → Bytes} {ids : List Nat}
    {acc acc' : Replay sm} {c : Option Nat} (h : Reads config file ids acc acc' c)
    (ho : acc.Ordered) :
    ∃ cs, acc'.closed = acc.closed ++ cs ∧ ∀ p ∈ cs, p.1 ∈ ids ∧
      recordsIn A C (file p.1) p.1 ≠ [] ∧ ∃ t, p.2.chunk = chunkIn A C (file p.1) p.1 t := by
  induction h with
  | nil => exact ⟨[], by simp, by simp⟩
  | @whole id ids acc st acc' c hp hf hr ha h ih =>
    obtain ⟨cs, hcs, hall⟩ := ih (ho.next hp hr)
    rw [Replay.next_closed ho hp, List.append_assoc] at hcs
    refine ⟨_, hcs, fun p hpm => ?_⟩
    rcases List.mem_append.1 hpm with hpm | hpm
    · obtain rfl := List.mem_singleton.1 hpm
      exact ⟨List.mem_cons_self, hr, none, rfl⟩
    · exact ⟨List.mem_cons_of_mem _ (hall p hpm).1, (hall p hpm).2⟩
  | @cut id acc st hp ht hr ha =>
    refine ⟨_, Replay.next_closed ho hp, fun p hpm => ?_⟩
    obtain rfl := List.mem_singleton.1 hpm
    exact ⟨List.mem_cons_self, hr, _, rfl⟩

omit [Encode C] in
theorem chunkIn_recordsCount {data : Bytes} {id : Nat} {t : Option Nat} :
    (chunkIn A C data id t).recordsCount = (recordsIn A C data id).length := by
  simp [Chunk.recordsCount, chunkIn, tableOf]

omit [Encode C] in
theorem recordsIn_head {data : Bytes} {id : Nat} {p : Segment × WALRecord A C}
    (h : p ∈ (recordsIn A C data id).head?) : p.1.offset = 0 := by
  obtain ⟨err, hd, -⟩ := records_decodes A C data id
  generalize recordsIn A C data id = xs at h hd
  cases hd with
  | done => cases h
  | fail => cases h
  | step => cases h; rfl

/-- **The open chunk of a successful opening** has a record, and its first is a checkpoint. -/
theorem OpenRun.headed [SizedCodec C] [SizedCodec A] {sm : StateMachine A C} {config : Config}
    {st : sm.State} {s s' : OpenState A C} {o : Opened sm} (h : OpenRun config st s (.ok o) s')
    (hf : FilesHeaded A C s.fs) :
    Indexed o.wal ∧ Headed o.wal (s'.applied ++ s'.created) := by
  have hrun := h
  cases h with
  | @reopened k s₁ acc _ oc closed hv ht hr hl =>
    obtain ⟨removed, c, hs, -⟩ := ht.sound hr
    have hfit : HeadFits k.reverse acc c := by
      refine fun hn => absurd (hs.reads.reopens.2 hn) ?_
      simp [hl]
    obtain ⟨-, -, -, happ⟩ := hs.opens hv hfit hrun
    obtain ⟨cs, hcs, hall⟩ := hs.reads.chunks (Replay.start_ordered st)
    rw [show (Replay.start sm st).closed = [] from rfl, List.nil_append] at hcs
    unfold reopenLastClosed at hl
    split at hl
    · cases hl
    rename_i id last hlast
    split at hl
    · cases hl
    cases hl
    obtain ⟨hid, hne, t, hc⟩ := hall _ (hcs ▸ List.mem_of_getLast? hlast)
    simp only at hid hne hc
    have ho : (ChunkedWal.new sm config acc.closed.dropLast (OpenChunk.new last.chunk)
        acc.state).wal.open.chunk = chunkIn A C (s.fs.file id).data id t := hc
    refine ⟨⟨ho ▸ chunkIn_increasing A C _ _ _, ?_⟩, ?_⟩
    · rw [ho, chunkIn_recordsCount]
      exact List.length_pos_of_ne_nil hne
    obtain ⟨p, ps, hps⟩ := List.exists_cons_of_ne_nil hne
    have hhead : p ∈ (recordsIn A C (s.fs.file id).data id).head? := by simp [hps]
    have hp := hf id ((hs.mem id).2 (.inl hid)) p hhead
    obtain ⟨seg, rec⟩ := p
    cases rec with
    | action a => cases hp
    | checkpoint c =>
      have hoff : seg.offset = 0 := recordsIn_head hhead
      refine ⟨c, { offset := id + seg.offset, size := seg.size }, ?_, ?_⟩
      · rw [ho, happ]
        refine List.mem_append_left _ (List.mem_append_right _ (List.mem_flatMap.2 ⟨id, hid, ?_⟩))
        exact List.mem_map.2 ⟨(seg, .checkpoint c), hps ▸ List.mem_cons_self, rfl⟩
      · rw [ho]
        show id + seg.offset = id
        omega
  | @created k s₁ acc s₂ n hv ht hr hl hm he =>
    have hn : n = (enc acc.head).length := SizedCodec.size_eq he
    have hpos : 0 < n := hn ▸ length_enc_checkpoint _
    refine ⟨⟨Chunk.appendRecordSize_increasing (by simp [OpenChunk.fromFile]) hpos, ?_⟩, ?_⟩
    · exact Nat.zero_lt_one
    · refine ⟨sm.checkpoint acc.state, { offset := acc.end_, size := n }, ?_, ?_⟩
      · exact List.mem_append_right _ (List.mem_singleton.2 rfl)
      · rfl

end

/-! ## Runs -/

/-- The request that the client is about to send. -/
def Client.request? {A C Cb : Type} : Client A C Cb → Option (WorkerRequest C Cb)
  | .busy _ (.act (.send req) _) => some req
  | _ => none

/-- The last request was an `AppendFile`. -/
def Session.handed {A C Cb : Type} (s : Session A C Cb) : Bool :=
  s.sent.getLast?.any fun r => r.request.req.isAppendFile

namespace System

variable {A C Cb : Type} [Crc32fast] [Encode A] [Decode A] [Encode C] [Decode C]
  {sm : StateMachine A C}

/-- No `AppendFile` is accepted whose checkpoint cannot be encoded, the request that follows an
`AppendFile` is not refused, and the files that an opening finds begin with a checkpoint. -/
def HandsOver (sys : System A C Cb) : Label Cb sm → Prop
  | .open _ _ => FilesHeaded A C sys.fs
  | .client _ => ∀ s ∈ sys.session, ∀ req ∈ s.client.request?,
      (s.sending = .reserved → s.receiving = true → Fits A req) ∧
      (s.handed = true → s.tx = true ∧ s.receiving = true)
  | _ => True

instance (sys : System A C Cb) (l : Label Cb sm) : Decidable (HandsOver sys l) :=
  match l with
  | .open _ _ => inferInstanceAs (Decidable (FilesHeaded A C sys.fs))
  | .client _ => inferInstanceAs (Decidable (∀ s ∈ sys.session, ∀ req ∈ s.client.request?, _))
  | .openCrash .. | .crash _ | .drop | .call _ | .dropReceiver | .recv | .collect
    | .exec _ | .effect | .releaseAll | .fail => .isTrue trivial

/-- The client is in the method `op`, or has returned from it. -/
structure InCall (op : Op A C Cb) (w₀ : ChunkedWal C) (log₀ log : List (LogEntry A C))
    (s : Session A C Cb) : Prop where
  busy : ∀ op' p, s.client = .busy op' p →
    op' = op ∧ p.Safe handingContract (fun x g => Kept op w₀ log₀ x.1 x.2 g) ⟨s.handed, log⟩
  idle : ∀ w, s.client = .idle w →
    ∃ res, s.returned = some (op, res) ∧ Kept op w₀ log₀ res w ⟨s.handed, log⟩
  rejected : s.sending = .rejected → s.handed = false

variable {op : Op A C Cb} {w₀ : ChunkedWal C} {log₀ log : List (LogEntry A C)}
    {s s' : Session A C Cb}

omit [Decode A] [Decode C] in
theorem InCall.respond (h : InCall op w₀ log₀ log s) {op' : Op A C Cb} {a : ClientAct A C Cb}
    {k : IoResult → ClientProg A C Cb} (hc : s.client = .busy op' (.act a k)) {r : IoResult}
    {log' : List (LogEntry A C)} (hs : s'.client = .busy op' (k r)) (hn : s'.sending = .idle)
    (hstep : handingContract.step a ⟨s.handed, log⟩ r ⟨s'.handed, log'⟩) :
    InCall op w₀ log₀ log' s' where
  busy op'' p hc' := by
    obtain ⟨rfl, hsafe⟩ := h.busy op' _ hc
    rw [hs] at hc'
    cases hc'
    exact ⟨rfl, hsafe.2 r _ hstep⟩
  idle w hc' := by
    rw [hs] at hc'
    cases hc'
  rejected hr := by
    rw [hn] at hr
    cases hr

omit [Decode A] [Decode C] in
theorem InCall.congr (h : InCall op w₀ log₀ log s) (hc : s'.client = s.client)
    (hsent : s'.sent = s.sent) (hret : s'.returned = s.returned)
    (hrej : s'.sending = .rejected → s'.handed = false) : InCall op w₀ log₀ log s' where
  busy op' p hp := by
    have hh : s'.handed = s.handed := by unfold Session.handed; rw [hsent]
    rw [hh]
    exact h.busy op' p (hc ▸ hp)
  idle w hw := by
    have hh : s'.handed = s.handed := by unfold Session.handed; rw [hsent]
    rw [hh, hret]
    exact h.idle w (hc ▸ hw)
  rejected := hrej

theorem inCall_step {sys sys' : System A C Cb} {l : Label Cb sm} (hs : sys.session = some s)
    (h : InCall op w₀ log₀ sys.log s) (hl : Inside l = true) (hok : HandsOver sys l)
    (hstep : step sys l = some sys') :
    ∃ s', sys'.session = some s' ∧ InCall op w₀ log₀ sys'.log s' := by
  cases step_move hstep with
  | opened hn | notOpened hn | openCrashed hn => exact absurd (hn.symm.trans hs) (by simp)
  | crashed | dropped | called => simp [Inside] at hl
  | @finished _ op' res w _ hs' hc =>
    cases hs.symm.trans hs'
    obtain ⟨rfl, hk⟩ := h.busy _ _ hc
    refine ⟨_, rfl, fun op'' p hp => ?_, fun w' hw => ?_, h.rejected⟩
    · unfold Session.finish at hp
      split at hp <;> cases hp
    · unfold Session.finish at hw
      simp only at hw
      split at hw
      · cases hw
      · cases hw
        exact ⟨res, rfl, hk⟩
  | refused hs' hc hn htx =>
    cases hs.symm.trans hs'
    refine ⟨_, rfl, h.respond hc rfl rfl ⟨?_, rfl⟩⟩
    by_contra hh
    have := ((hok s hs _ (by rw [hc]; rfl)).2 (eq_true_of_ne_false hh)).1
    exact absurd (htx.symm.trans this) (by simp)
  | acquired hs' hc =>
    cases hs.symm.trans hs'
    exact ⟨_, rfl, h.congr rfl rfl rfl (by simp)⟩
  | @enqueued _ _ req k r hs' hc hn hr hq =>
    cases hs.symm.trans hs'
    refine ⟨_, rfl, h.respond hc rfl rfl ⟨?_, (hok s hs req (by rw [hc]; rfl)).1 hn hr⟩⟩
    simp [Session.handed]
  | rejected hs' hc hn hr =>
    cases hs.symm.trans hs'
    refine ⟨_, rfl, h.congr rfl rfl rfl fun _ => ?_⟩
    by_contra hh
    have := ((hok s hs _ (by rw [hc]; rfl)).2 (eq_true_of_ne_false hh)).2
    exact absurd (hr.symm.trans this) (by simp)
  | underflow hs' hc =>
    cases hs.symm.trans hs'
    exact ⟨_, rfl, by simp, by simp, by simp⟩
  | givenBack hs' hc hn =>
    cases hs.symm.trans hs'
    exact ⟨_, rfl, h.respond hc rfl rfl ⟨h.rejected hn, rfl⟩⟩
  | notCreated hs' hc | «exists» hs' hc | created hs' hc | notSynced hs' hc | synced hs' hc
    | closed hs' hc | joined hs' hc | noted hs' hc =>
    cases hs.symm.trans hs'
    exact ⟨_, rfl, h.respond hc rfl rfl rfl⟩
  | @waited _ _ _ _ res hs' hc hw =>
    cases hs.symm.trans hs'
    exact ⟨_, rfl, h.respond hc rfl rfl (by cases res <;> rfl)⟩
  | _ =>
    cases hs.symm.trans ‹sys.session = some _›
    exact ⟨_, rfl, h.congr rfl rfl rfl h.rejected⟩

/-- What holds of a session between two steps. -/
def Rotates (log : List (LogEntry A C)) (s : Session A C Cb) : Prop :=
  (∃ w, s.client = .idle w ∧ Indexed w ∧ Headed w log ∧ s.handed = false) ∨
  (∃ op w₀ log₀, Headed w₀ log₀ ∧ InCall op w₀ log₀ log s)

omit [Decode A] [Decode C] in
theorem Rotates.idle (h : Rotates log s) {w : ChunkedWal C} (hc : s.client = .idle w) :
    Indexed w ∧ Headed w log ∧ s.handed = false := by
  rcases h with ⟨w', hc', hi, hh, hf⟩ | ⟨op, w₀, log₀, hh, h⟩
  · cases hc.symm.trans hc'
    exact ⟨hi, hh, hf⟩
  · obtain ⟨res, -, hk⟩ := h.idle w hc
    exact ⟨hk.indexed, hk.headed hh, hk.handed⟩

variable [WALRecord.LawfulAction A] [LawfulCodec C]

theorem inCall_called {w : ChunkedWal C} (hi : Indexed w) (hf : s.handed = false) (op : Op A C Cb)
    (log : List (LogEntry A C)) (drained : List Nat) :
    InCall op w log log { s with client := .busy op (op.run w), drained } where
  busy op' p hc := by
    cases hc
    exact ⟨rfl, op.hands (g := ⟨s.handed, log⟩) hi hf⟩
  idle w hc := by cases hc
  rejected _ := hf

theorem rotates_step {sys sys' : System A C Cb} {l : Label Cb sm}
    (h : ∀ s ∈ sys.session, Rotates sys.log s) (hok : HandsOver sys l)
    (hstep : step sys l = some sys') :
    ∀ s ∈ sys'.session, Rotates sys'.log s := by
  intro s' hs'
  by_cases hl : Inside l = true
  · rcases hs : sys.session with _ | s
    · cases l with
      | «open» | openCrash | crash | drop | call => cases hl
      | client | recv | collect | exec | effect | releaseAll | fail | dropReceiver =>
        simp [step, hs] at hstep
    rcases h s hs with ⟨w, hc, hi, hh, hf⟩ | ⟨op, w₀, log₀, hh, hcall⟩
    · -- nothing changes for an idle client
      refine .inl ⟨w, ?_⟩
      cases step_move hstep with
      | opened hn | notOpened hn | openCrashed hn => exact absurd (hn.symm.trans hs) (by simp)
      | crashed | dropped | called => simp [Inside] at hl
      | finished hs₁ hc₁ | refused hs₁ hc₁ | acquired hs₁ hc₁ | enqueued hs₁ hc₁ | rejected hs₁ hc₁
        | underflow hs₁ hc₁ | givenBack hs₁ hc₁ | notCreated hs₁ hc₁ | «exists» hs₁ hc₁
        | created hs₁ hc₁ | notSynced hs₁ hc₁ | synced hs₁ hc₁ | closed hs₁ hc₁ | joined hs₁ hc₁
        | noted hs₁ hc₁ | waited hs₁ hc₁ =>
        cases hs.symm.trans hs₁
        exact absurd (hc.symm.trans hc₁) (by simp)
      | _ =>
        cases hs.symm.trans ‹sys.session = some _›
        cases hs'
        exact ⟨hc, hi, hh, hf⟩
    · obtain ⟨s₁, hs₁, hcall'⟩ := inCall_step hs hcall hl hok hstep
      cases hs'.symm.trans hs₁
      exact .inr ⟨op, w₀, log₀, hh, hcall'⟩
  · cases step_move hstep with
    | @opened config state o x hs hopen =>
      cases hs'
      obtain ⟨r, x', hrun, heq⟩ := openLocked_run config state (OpenState.init sys.fs)
      have := heq.symm.trans hopen
      rcases r with e | o'
      · cases this
      cases this
      obtain ⟨hi, hh⟩ := hrun.headed hok
      exact .inl ⟨o.wal, rfl, hi, hh, rfl⟩
    | notOpened hs | openCrashed hs => cases hs.symm.trans hs'
    | crashed | dropped => cases hs'
    | @called s op w hs hc =>
      cases hs'
      obtain ⟨hi, hh, hf⟩ := (h s hs).idle hc
      exact .inr ⟨op, w, sys.log, hh, inCall_called hi hf op _ _⟩
    | _ => exact absurd rfl hl

omit [WALRecord.LawfulAction A] [LawfulCodec C] in
theorem runs_inCall {ls : List (Label Cb sm)} {sys sys' : System A C Cb}
    (hr : RunsOf step HandsOver sys ls sys') (hl : ∀ l ∈ ls, Inside l = true)
    (hs : sys.session = some s) (h : InCall op w₀ log₀ sys.log s) :
    ∃ s', sys'.session = some s' ∧ InCall op w₀ log₀ sys'.log s' := by
  induction ls generalizing sys s with
  | nil =>
    cases hr
    exact ⟨s, hs, h⟩
  | cons l ls ih =>
    obtain ⟨hok, sys₁, hstep, hr⟩ := hr
    obtain ⟨s₁, hs₁, h₁⟩ := inCall_step hs h (hl l List.mem_cons_self) hok hstep
    exact ih hr (fun l hl' => hl l (List.mem_cons_of_mem _ hl')) hs₁ h₁

/-- **A failed rotation** leaves the index as it was, in every run in which whatever follows an
accepted `AppendFile` goes well; the open chunk has a record and begins with a checkpoint. -/
theorem runs_rotation {ls ls' : List (Label Cb sm)} {sys sys' : System A C Cb}
    (hr : RunsOf step HandsOver (System.fresh A C Cb) ls sys) (hs : sys.session = some s)
    {w : ChunkedWal C} (hc : s.client = .idle w) {c : C}
    (hr' : RunsOf step HandsOver sys (.call (.tryCloseFullChunk c) :: ls') sys')
    (hl : ∀ l ∈ ls', Inside l = true) (hs' : sys'.session = some s') {w' : ChunkedWal C}
    (hc' : s'.client = .idle w') :
    (0 < w'.open.chunk.recordsCount ∧ (∃ seg, w'.open.chunk.lastSegment = .ok seg) ∧
      Headed w' sys'.log) ∧
    ∃ res, s'.returned = some (.tryCloseFullChunk c, res) ∧
      (∀ e, res = .error e → Intact w w' ∧ sys'.log = sys.log ∧ ∀ debug fs id seg,
        w'.loadRecord A debug fs id seg = w.loadRecord A debug fs id seg) ∧
      ∀ c', res = .ok (.checkpoint (some c')) → c' = c ∧ Rotated c w sys.log w' sys'.log := by
  have hrot : ∀ s ∈ sys.session, Rotates sys.log s :=
    hr.invariant (I := fun sys => ∀ s ∈ sys.session, Rotates sys.log s)
      (fun _ _ _ h hok hstep => rotates_step h hok hstep) (by simp [System.fresh])
  obtain ⟨hi, hh, hf⟩ := (hrot s hs).idle hc
  obtain ⟨-, sys₁, hcall, hr'⟩ := hr'
  simp only [step, hs, Session.call, hc, Option.map_some, Option.some.injEq] at hcall
  subst hcall
  have hstart := inCall_called hi hf (.tryCloseFullChunk c) sys.log
    (Session.handOver s.drained (.tryCloseFullChunk c : Op A C Cb))
  obtain ⟨s₂, hs₂, hcall⟩ := runs_inCall hr' hl rfl hstart
  cases hs'.symm.trans hs₂
  obtain ⟨res, hret, hk⟩ := hcall.idle w' hc'
  obtain ⟨seg, hseg, -⟩ := Chunk.lastSegment_of_increasing hk.indexed.increasing hk.indexed.nonempty
  refine ⟨⟨hk.indexed.nonempty, ⟨seg, hseg⟩, hk.headed hh⟩, res, hret, fun e he => ?_,
    fun c' he => ?_⟩
  · obtain ⟨hint, hlog⟩ := hk.failed c e rfl he
    refine ⟨hint, hlog, fun debug fs id seg => ?_⟩
    unfold ChunkedWal.loadRecord
    rw [hint.closed]
  · exact hk.rotated c c' rfl he

end System

/-- The WAL, when nobody uses it. -/
def Client.wal? {A C Cb : Type} : Client A C Cb → Option (ChunkedWal C)
  | .idle w => some w
  | _ => none

theorem Client.wal?_eq {A C Cb : Type} {c : Client A C Cb} {w : ChunkedWal C}
    (h : c.wal? = some w) :
    c = .idle w := by
  cases c with
  | idle w' => cases h; rfl
  | busy | panicked => cases h

/-- The checkpoint of a rotation that has just failed. -/
def Session.failedRotation {A C Cb : Type} (s : Session A C Cb) : Option C :=
  match s.returned with
  | some (.tryCloseFullChunk c, .error _) => some c
  | _ => none

theorem Session.failedRotation_eq {A C Cb : Type} {s : Session A C Cb} {c : C}
    (h : s.failedRotation = some c) : ∃ e, s.returned = some (.tryCloseFullChunk c, .error e) := by
  unfold Session.failedRotation at h
  split at h
  · cases h
    exact ⟨_, ‹_›⟩
  · cases h

namespace System

open Register

/-- A chunk is full with its second record. -/
def twoRecords : Config := { Register.config with chunkMaxRecords? := some 2 }

/-- The chunk is full, and nobody uses the WAL. -/
def fullRun : List Register.Step := [start twoRecords] ++ puts 1

/-- A rotation. -/
def rotation (ls : List Register.Step) : List Register.Step :=
  .call (.tryCloseFullChunk { value := 1 }) :: ls

/-- The file of the next chunk cannot be created. -/
def notCreatedSteps : List Register.Step := [go, go, .client (.error diskError), go]

theorem runs_rotation_notCreated :
    ∃ (sys sys' : System Put Register Nat) (s s' : Session Put Register Nat)
    (w w' : ChunkedWal Register) (e : Fault),
    runs step (System.fresh Put Register Nat) fullRun = some sys ∧ sys.session = some s ∧
    s.client = .idle w ∧ runs step sys (rotation notCreatedSteps) = some sys' ∧
    sys'.session = some s' ∧ s'.client = .idle w' ∧
    s'.returned = some (.tryCloseFullChunk { value := 1 }, .error e) ∧ Intact w w' := by
  have h : ((runs (guarded HandsOver step) (System.fresh Put Register Nat) fullRun).any fun sys =>
      (runs (guarded HandsOver step) sys (rotation notCreatedSteps)).any fun sys' =>
        sys.session.any fun s => sys'.session.any fun s' =>
          s.client.wal?.isSome && s'.client.wal?.isSome && s'.failedRotation.isSome) = true :=
            by decide +kernel
  obtain ⟨sys, hsys, h⟩ := (Option.any_eq_true _ _).1 h
  obtain ⟨sys', hsys', h⟩ := (Option.any_eq_true _ _).1 h
  obtain ⟨s, hs, h⟩ := (Option.any_eq_true _ _).1 h
  obtain ⟨s', hs', h⟩ := (Option.any_eq_true _ _).1 h
  simp only [Bool.and_eq_true] at h
  obtain ⟨⟨hw, hw'⟩, hf⟩ := h
  obtain ⟨w, hw⟩ := Option.isSome_iff_exists.1 hw
  obtain ⟨w', hw'⟩ := Option.isSome_iff_exists.1 hw'
  have hr := RunsOf.of_guarded hsys
  have hr' := RunsOf.of_guarded hsys'
  obtain ⟨-, res, hret, herr, -⟩ := runs_rotation hr hs (Client.wal?_eq hw) hr' (by decide) hs'
    (Client.wal?_eq hw')
  obtain ⟨c, hc⟩ := Option.isSome_iff_exists.1 hf
  obtain ⟨e, he⟩ := Session.failedRotation_eq hc
  cases he.symm.trans hret
  exact ⟨sys, sys', s, s', w, w', e, hr.runs, hs, Client.wal?_eq hw, hr'.runs, hs',
    Client.wal?_eq hw', hret, (herr e rfl).1⟩

/-- The worker fails before the checkpoint of the new chunk is sent. -/
def deadWorkerSteps : List Register.Step :=
  List.replicate 7 go ++ failedBatch ++ [.releaseAll, .fail, .dropReceiver] ++ List.replicate 4 go

/-- The old chunk is neither the open one nor a closed one. -/
theorem rotation_drops : ¬ ∀ (ls ls' : List Register.Step) (sys sys' : System Put Register Nat)
    (s s' : Session Put Register Nat) (w w' : ChunkedWal Register) (c : Register) (e : Fault),
    runs step (System.fresh Put Register Nat) ls = some sys → sys.session = some s →
    s.client = .idle w → runs step sys ((.call (.tryCloseFullChunk c) : Register.Step) :: ls') =
      some sys' →
    (∀ l ∈ ls', Inside l = true) → sys'.session = some s' → s'.client = .idle w' →
    s'.returned = some (.tryCloseFullChunk c, .error e) →
    w'.open.chunk.chunkId = w.open.chunk.chunkId ∨ w.open.chunk.chunkId ∈ w'.closed.map (·.1) := by
  intro hall
  have h : ((runs step (System.fresh Put Register Nat) fullRun).any fun sys =>
      (runs step sys (rotation deadWorkerSteps)).any fun sys' =>
        sys.session.any fun s => sys'.session.any fun s' =>
          s.client.wal?.any fun w => s'.client.wal?.any fun w' =>
            s'.failedRotation.any fun c => decide (c = Register.mk 1) &&
              !(decide (w'.open.chunk.chunkId = w.open.chunk.chunkId ∨
                w.open.chunk.chunkId ∈ w'.closed.map (·.1)))) = true := by
    decide +kernel
  obtain ⟨sys, hsys, h⟩ := (Option.any_eq_true _ _).1 h
  obtain ⟨sys', hsys', h⟩ := (Option.any_eq_true _ _).1 h
  obtain ⟨s, hs, h⟩ := (Option.any_eq_true _ _).1 h
  obtain ⟨s', hs', h⟩ := (Option.any_eq_true _ _).1 h
  obtain ⟨w, hw, h⟩ := (Option.any_eq_true _ _).1 h
  obtain ⟨w', hw', h⟩ := (Option.any_eq_true _ _).1 h
  obtain ⟨c, hc, h⟩ := (Option.any_eq_true _ _).1 h
  simp only [Bool.and_eq_true, decide_eq_true_eq, Bool.not_eq_true', decide_eq_false_iff_not] at h
  obtain ⟨rfl, hn⟩ := h
  obtain ⟨e, hret⟩ := Session.failedRotation_eq hc
  exact hn (hall _ _ sys sys' s s' w w' _ e hsys hs (Client.wal?_eq hw) hsys' (by decide) hs'
    (Client.wal?_eq hw') hret)

end System

end Wal

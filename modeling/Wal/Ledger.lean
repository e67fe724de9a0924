import Wal.Advancing
import Wal.Agreeing

/-!
# A WAL and the state it is kept for

`Ledger` is what the user of a WAL knows of it: the chunk files that nobody was asked to remove, the
log, and the state that its records amount to. `MatchesLedger` says that the chunks of the WAL are
these files, and that each of them leads to the state behind it from whatever state before. Every
method that returns without an error keeps it (`Op.keeps`), and a `shutdown` that does has waited
for the worker.
-/

namespace Wal

open Lib

section
variable {A C Cb : Type}

/-- The chunks that a request removes. -/
def WorkerRequest.removed : WorkerRequest C Cb → List Nat
  | .removeChunks ids => ids
  | _ => []

/-- The chunks that a method hands to its caller. -/
def Ret.drained : Ret C → List Nat
  | .chunkIds ids => ids
  | _ => []

/-- The chunks that its caller hands to a method. -/
def Op.passed : Op A C Cb → List Nat
  | .sendRemoveChunks ids => ids
  | _ => []

def Op.isAppend : Op A C Cb → Bool
  | .append _ => true
  | _ => false

def Op.isShutdown : Op A C Cb → Bool
  | .shutdown => true
  | _ => false

/-- What a user knows of a WAL. -/
structure Ledger (sm : StateMachine A C) where
  /-- The chunk files, but for those that the worker was asked to remove. -/
  ids : List Nat
  log : List (LogEntry A C)
  state : sm.State
  /-- The method in progress returns an error. -/
  hurt : Bool
  joined : Bool
  /-- The worker has ended without a failure. -/
  settled : Bool

/-- A checkpoint of a state leads to that state. -/
def StateMachine.Reverts (sm : StateMachine A C) : Prop :=
  ∀ st L id seg, sm.apply st (.checkpoint (sm.checkpoint L)) id seg = .ok L

/-- The records of a chunk lead to the state `L`, whatever was before. -/
def Resumes (sm : StateMachine A C) (es : List (LogEntry A C)) (L : sm.State) : Prop :=
  ∀ st, sm.run st es = .ok L

/-- **The chunks match the ledger**: they and the `shelf` of drained ones are the files, and each of
them leads to the state behind it. -/
structure MatchesLedger {sm : StateMachine A C} (w : ChunkedWal C) (shelf : List Nat)
    (g : Ledger sm) : Prop where
  ids : g.ids.Perm (w.closed.map (·.1) ++ w.open.chunk.f :: shelf)
  start : w.open.chunk.globalStart = w.open.chunk.f
  indexed : Indexed w
  closed : ∀ p ∈ w.closed, p.1 < w.open.chunk.f ∧
    ∃ L, Resumes sm (inChunk p.1 g.log) L ∧ p.2.state = sm.checkpoint L
  «open» : Resumes sm (inChunk w.open.chunk.f g.log) g.state
  newest : ∀ e ∈ g.log, e.2.1 ≤ w.open.chunk.f
  sorted : (g.log.map fun e => e.2.1).Pairwise (· ≤ ·)

section
variable [Crc32fast] [Encode A] [Encode C]

/-- What the methods do to the ledger; the records of `append` are applied. -/
def keeping (sm : StateMachine A C) (applies : Bool) :
    Contract (ClientAct A C Cb) IoResult (Ledger sm) where
  pre a g := g.hurt = false →
    match a with
    | .send req => req.removed.Subperm g.ids
    | .note e => applies = false → e.1 = .checkpoint (sm.checkpoint g.state)
    | _ => True
  step a g r g' :=
    match a, r with
    | .send req, .ok () => g' = { g with
        ids := g.ids.diff req.removed, hurt := g.hurt || !decide (Fits A req), settled := false }
    | .createNew id, .ok () => g' = { g with ids := g.ids ++ [id] }
    | .note e, _ =>
      ∃ st, (if applies then sm.apply g.state e.1 e.2.1 e.2.2 = .ok st else st = g.state) ∧
        g' = { g with log := g.log ++ [e], state := st }
    | .close, _ | .syncDir, .ok () => g' = g
    | .join, _ => g' = { g with joined := true }
    | .waitIdle, .ok () => g' = { g with settled := g.joined }
    | .send _, .error _ | .createNew _, .error _ | .syncDir, .error _ | .waitIdle, .error _ =>
      g' = { g with hurt := true }

/-- What a method leaves, unless it returns an error. -/
def Filed {sm : StateMachine A C} (op : Op A C Cb) (shelf : List Nat) (res : Except Fault (Ret C))
    (w : ChunkedWal C) (g : Ledger sm) : Prop :=
  ∀ r, res = .ok r → g.hurt = false ∧ MatchesLedger w (shelf ++ r.drained) g ∧
    (op.isShutdown = true → g.settled = true ∧ w.open.pendingData = [])

/-- A rotation is given the checkpoint of the present state. -/
def Op.Current (sm : StateMachine A C) (st : sm.State) : Op A C Cb → Prop
  | .tryCloseFullChunk c => c = sm.checkpoint st
  | _ => True

end

end

/-! ## Records -/

section
variable {A C : Type} {sm : StateMachine A C} {es : List (LogEntry A C)} {e : LogEntry A C}
    {L : sm.State}

theorem StateMachine.run_cons {st : sm.State} (h : sm.apply st e.1 e.2.1 e.2.2 = .ok L) :
    sm.run st (e :: es) = sm.run L es := by
  rw [StateMachine.run, h]

theorem Resumes.snoc (h : Resumes sm es L) {L' : sm.State}
    (ha : sm.apply L e.1 e.2.1 e.2.2 = .ok L') :
    Resumes sm (es ++ [e]) L' := by
  intro st
  rw [sm.run_append, h st]
  exact StateMachine.run_cons ha

theorem Resumes.checkpoint (hrev : sm.Reverts) {id : Nat} {seg : Segment} :
    Resumes sm [(.checkpoint (sm.checkpoint L), id, seg)] L := by
  intro st
  exact StateMachine.run_cons (hrev st L id seg)

theorem inChunk_snoc_ne {id : Nat} {log : List (LogEntry A C)} (h : e.2.1 ≠ id) :
    inChunk id (log ++ [e]) = inChunk id log := by
  rw [inChunk_append, inChunk_ne h, List.append_nil]

theorem sorted_snoc {log : List (LogEntry A C)} (h : (log.map fun e => e.2.1).Pairwise (· ≤ ·))
    (hle : ∀ e' ∈ log, e'.2.1 ≤ e.2.1) : ((log ++ [e]).map fun e => e.2.1).Pairwise (· ≤ ·) := by
  rw [List.map_append, List.pairwise_append]
  refine ⟨h, List.pairwise_singleton _ _, fun a ha b hb => ?_⟩
  obtain ⟨e', he', rfl⟩ := List.mem_map.1 ha
  obtain rfl := List.mem_singleton.1 hb
  exact hle e' he'

end

/-! ## MatchesLedger chunks -/

section
variable {A C : Type} {sm : StateMachine A C} {w : ChunkedWal C} {g : Ledger sm} {shelf : List Nat}

theorem MatchesLedger.congr (h : MatchesLedger w shelf g) {w' : ChunkedWal C} {g' : Ledger sm}
    (hc : w'.closed = w.closed) (ho : w'.open.chunk = w.open.chunk) (hi : g'.ids = g.ids)
    (hl : g'.log = g.log) (hs : g'.state = g.state) :
    MatchesLedger w' shelf g' := by
  obtain ⟨h1, h2, h3, h4, h5, h6, h7⟩ := h
  refine ⟨?_, ?_, h3.of_chunk ho, ?_, ?_, ?_, ?_⟩
  · rw [hi, hc, ho]
    exact h1
  · rw [ho]
    exact h2
  · rw [hc, ho, hl]
    exact h4
  · rw [ho, hl, hs]
    exact h5
  · rw [ho, hl]
    exact h6
  · rw [hl]
    exact h7

/-- A chunk is closed, and the next begins with the checkpoint of the state. -/
theorem MatchesLedger.rotated (hrev : sm.Reverts) (h : MatchesLedger w shelf g) {id : Nat}
    (hlt : w.open.chunk.f < id) (w' : ChunkedWal C) {seg : Segment} {n : Nat} (hn : 0 < n)
    (hclosed : w'.closed = w.closed ++
      [(w.open.chunk.f, { state := sm.checkpoint g.state, chunk := w.open.chunk })])
    (hopen : w'.open.chunk = (OpenChunk.fromFile id).chunk.appendRecordSize n) {hurt : Bool} :
    MatchesLedger w' shelf { g with
      ids := g.ids ++ [id], log := g.log ++ [(.checkpoint (sm.checkpoint g.state), id, seg)], hurt
      settled := false } := by
  have hfile : w'.open.chunk.f = id := by rw [hopen]; rfl
  have hne : ∀ i, i ≤ w.open.chunk.f →
    inChunk i (g.log ++ [(WALRecord.checkpoint (sm.checkpoint g.state), id, seg)]) =
      inChunk i g.log := fun i hi => inChunk_snoc_ne (by simp only; omega)
  refine ⟨?_, ?_, ⟨?_, ?_⟩, fun p hp => ?_, ?_, fun e he => ?_, ?_⟩
  · rw [hclosed, hfile, List.map_append]
    refine (List.Perm.append_right [id] h.ids).trans ?_
    simp only [List.map_cons, List.map_nil, List.append_assoc, List.cons_append]
    refine List.Perm.append_left _ (List.Perm.cons _ ?_)
    exact List.perm_append_singleton _ _
  · rw [hopen, Chunk.appendRecordSize_globalStart]
    rfl
  · rw [hopen]
    exact Chunk.appendRecordSize_increasing (by simp [OpenChunk.fromFile]) hn
  · rw [hopen]
    exact Nat.zero_lt_one
  · rw [hfile]
    rw [hclosed, List.mem_append, List.mem_singleton] at hp
    rcases hp with hp | rfl
    · obtain ⟨hlt', L, hL, hc⟩ := h.closed p hp
      refine ⟨hlt'.trans hlt, L, ?_, hc⟩
      rw [hne _ (Nat.le_of_lt hlt')]
      exact hL
    · refine ⟨hlt, g.state, ?_, rfl⟩
      rw [hne _ (Nat.le_refl _)]
      exact h.open
  · rw [hfile, inChunk_append, inChunk_self (e :=
      (WALRecord.checkpoint (sm.checkpoint g.state), id, seg)) rfl]
    have hnil : inChunk id g.log = [] := by
      simp only [inChunk, List.filter_eq_nil_iff, decide_eq_true_eq]
      intro e he
      have := h.newest e he
      omega
    rw [hnil, List.nil_append]
    exact .checkpoint hrev
  · rw [hfile]
    rcases List.mem_append.1 he with he | he
    · exact (h.newest e he).trans (Nat.le_of_lt hlt)
    · obtain rfl := List.mem_singleton.1 he
      exact Nat.le_refl _
  · exact sorted_snoc h.sorted fun e he => (h.newest e he).trans (Nat.le_of_lt hlt)

theorem MatchesLedger.removed {ids : List Nat} (h : MatchesLedger w (ids ++ shelf) g)
    {g' : Ledger sm} (hi : g'.ids = g.ids.diff ids) (hl : g'.log = g.log)
      (hs : g'.state = g.state) : MatchesLedger w shelf g' := by
  refine ⟨?_, h.start, h.indexed, hl ▸ h.closed, by rw [hl, hs]; exact h.open, hl ▸ h.newest,
    hl ▸ h.sorted⟩
  rw [hi]
  refine (h.ids.diff_right ids).trans (List.perm_iff_count.2 fun a => ?_)
  simp only [List.count_diff, List.count_append, List.count_cons]
  omega

theorem MatchesLedger.drained (h : MatchesLedger w shelf g) (k : Nat) :
    MatchesLedger { w with closed := w.closed.drop k }
      (shelf ++ (w.closed.take k).map (·.1)) g := by
  refine ⟨?_, h.start, h.indexed.of_chunk rfl, fun p hp => h.closed p (List.mem_of_mem_drop hp),
    h.open, h.newest, h.sorted⟩
  refine h.ids.trans (List.perm_iff_count.2 fun a => ?_)
  have : (w.closed.map (·.1)).count a =
      ((w.closed.take k).map (·.1)).count a + ((w.closed.drop k).map (·.1)).count a := by
    rw [← List.count_append, ← List.map_append, List.take_append_drop]
  simp only [List.count_append, List.count_cons]
  omega

end

/-! ## The methods -/

section
variable {A C Cb : Type} [Crc32fast] [Encode A] [Encode C]

/-- **A record is appended**, under whatever contract. -/
theorem append_rule [SizedCodec A] [SizedCodec C] {G : Type}
    {c : Contract (ClientAct A C Cb) IoResult G} {Q : Except Fault Unit → ChunkedWal C → G → Prop}
    {w : ChunkedWal C} {g : G} (rec : WALRecord A C)
    (herr : ¬ Encodes rec → ∀ e, Q (.error (.io e)) w g)
    (hpre : Encodes rec →
      c.pre (.note (rec, w.open.chunk.globalStart,
        { offset := w.open.chunk.globalEnd, size := (enc rec).length })) g)
    (hok : Encodes rec → ∀ r g',
      c.step (.note (rec, w.open.chunk.globalStart,
        { offset := w.open.chunk.globalEnd, size := (enc rec).length })) g r g' →
          Q (.ok ()) (w.pushed rec) g') :
    ClientM.Meets c Q (ChunkedWal.append rec : ClientM A C Cb Unit) w g := by
  unfold ChunkedWal.append
  refine .get_bind ?_
  by_cases hr : Encodes rec
  · simp only [OpenChunk.appendRecord_ok hr]
    refine .set_bind (.liftFault_bind (fun seg hseg => ?_) fun e he => absurd he (by simp))
    obtain rfl := Except.ok.inj hseg
    have hstart : (w.open.chunk.appendRecordSize (enc rec).length).chunkId =
      w.open.chunk.globalStart :=
      Chunk.appendRecordSize_globalStart w.open.chunk (enc rec).length
    rw [hstart]
    exact .perform_bind (hpre hr) fun r g' hg => .pure (hok hr r g' hg)
  · have he : ∃ e, (encode rec).2 = .error e := by
      rcases hn : (encode rec).2 with e | n
      · exact ⟨e, rfl⟩
      · exact absurd ⟨n, hn⟩ hr
    obtain ⟨e, he⟩ := he
    simp only [OpenChunk.appendRecord_error he]
    refine .set_bind (.liftFault_bind (fun _ h => absurd h (by simp)) fun e' he' => ?_)
    obtain rfl := Except.error.inj he'
    exact herr hr e

variable {sm : StateMachine A C} {w : ChunkedWal C} {g : Ledger sm} {shelf : List Nat}
    {applies : Bool}

theorem MatchesLedger.pushed (h : MatchesLedger w shelf g) {rec : WALRecord A C}
    (hne : enc rec ≠ []) {st : sm.State} {seg : Segment}
    (ha : sm.apply g.state rec w.open.chunk.globalStart seg = .ok st) :
    MatchesLedger (w.pushed rec) shelf
      { g with log := g.log ++ [(rec, w.open.chunk.globalStart, seg)], state := st } := by
  have hstart := h.start
  refine ⟨h.ids, ?_, h.indexed.pushed_size (List.length_pos_of_ne_nil hne) rfl, fun p hp => ?_, ?_,
    ?_, ?_⟩
  · exact (Chunk.appendRecordSize_globalStart w.open.chunk _).trans hstart
  · obtain ⟨hlt, L, hL, hc⟩ := h.closed p hp
    refine ⟨hlt, L, ?_, hc⟩
    rw [inChunk_snoc_ne (by rw [hstart]; exact Nat.ne_of_gt hlt)]
    exact hL
  · show Resumes sm (inChunk w.open.chunk.f _) st
    rw [inChunk_append, inChunk_self hstart]
    exact h.open.snoc ha
  · intro e he
    rcases List.mem_append.1 he with he | he
    · exact h.newest e he
    · obtain rfl := List.mem_singleton.1 he
      exact Nat.le_of_eq hstart
  · refine sorted_snoc h.sorted fun e he => ?_
    rw [hstart]
    exact h.newest e he

omit [Crc32fast] [Encode A] [Encode C] in
theorem Filed.of_matchesLedger {op : Op A C Cb} {r : Ret C} (hh : g.hurt = false)
    (h : MatchesLedger w shelf g) (hr : r.drained = [])
    (hs : op.isShutdown = true → g.settled = true ∧ w.open.pendingData = []) :
    Filed op shelf (.ok r) w g := by
  intro r' hr'
  obtain rfl := Except.ok.inj hr'
  rw [hr, List.append_nil]
  exact ⟨hh, h, hs⟩

theorem sendPending_keeps (sync : Bool) (callback : Option Cb) :
    ClientM.Meets (keeping sm applies) (fun (res : Except Fault IoResult) w' g' => w' = w.flushed ∧
      ((∃ e, res = .ok (.error e) ∧ g' = { g with hurt := true }) ∨
        res = .ok (.ok ()) ∧ g' = { g with settled := false }))
      (ChunkedWal.sendPending sync callback) w g := by
  unfold ChunkedWal.sendPending
  refine .get_bind (.set_bind (.perform (fun _ => List.nil_subperm) fun r g' hstep => ⟨rfl, ?_⟩))
  rcases r with e | ⟨⟩
  · exact .inl ⟨e, rfl, hstep⟩
  · refine .inr ⟨rfl, ?_⟩
    have hfits : Fits A (.write { uptoOffset := w.open.chunk.globalEnd, data := w.open.pendingData
                                  sync, callback } : WorkerRequest C Cb) := fun c hc => by cases hc
    obtain rfl : g' = _ := hstep
    have hhurt : (g.hurt || !decide (Fits A (.write { uptoOffset := w.open.chunk.globalEnd
                                                      data := w.open.pendingData
                                                      sync, callback } : WorkerRequest C Cb))) =
                                                        g.hurt := by
      simp [hfits]
    exact congrArg (fun b => { g with hurt := b, settled := false }) hhurt

theorem createEmpty_keeps (id : Nat) :
    ClientM.Meets (keeping sm applies) (fun res w' g' => w' = w ∧ ((∃ e, res = .error e) ∨
      res = .ok (OpenChunk.fromFile id) ∧ g' = { g with ids := g.ids ++ [id] }))
      (ChunkedWal.createEmpty id : ClientM A C Cb OpenChunk) w g := by
  unfold ChunkedWal.createEmpty
  refine .perform_bind (fun _ => trivial) fun r g₁ h₁ => ?_
  rcases r with e | ⟨⟩
  · exact .require_bind (fun h => absurd h (by simp)) fun e _ => ⟨rfl, .inl ⟨_, rfl⟩⟩
  refine .require_bind (fun _ => .perform_bind (fun _ => trivial) fun r g₂ h₂ => ?_) fun e he =>
    absurd he (by simp)
  rcases r with e | ⟨⟩
  · exact .require_bind (fun h => absurd h (by simp)) fun e _ => ⟨rfl, .inl ⟨_, rfl⟩⟩
  obtain rfl : g₁ = { g with ids := g.ids ++ [id] } := h₁
  obtain rfl : g₂ = _ := h₂
  exact .require_bind (fun _ => .pure ⟨rfl, .inr ⟨rfl, rfl⟩⟩) fun e he => absurd he (by simp)

theorem send_keeps {req : WorkerRequest C Cb} (hpre : req.removed.Subperm g.ids)
    (hh : g.hurt = false) (hfits : Fits A req)
    {Q : Except Fault Unit → ChunkedWal C → Ledger sm → Prop} (herr : ∀ e g', Q (.error e) w g')
    (hok : Q (.ok ()) w { g with ids := g.ids.diff req.removed, settled := false }) :
    ClientM.Meets (keeping sm applies) Q
      (do ClientM.require (← ClientM.perform (.send req)) : ClientM A C Cb Unit) w g := by
  refine .perform_bind (fun _ => hpre) fun r g' hstep => ?_
  rcases r with e | ⟨⟩
  · exact .require (fun h => absurd h (by simp)) fun e _ => herr _ _
  · refine .require (fun _ => ?_) fun e he => absurd he (by simp)
    have hstep : g' = _ := hstep
    have hg : g' = { g with ids := g.ids.diff req.removed, settled := false } := by
      rw [hstep]
      simp [hh, hfits]
    rw [hg]
    exact hok

section
variable [Decode A] [Decode C] [WALRecord.LawfulAction A] [LawfulCodec C]

/-- **A rotation.** -/
theorem tryCloseFullChunk_keeps (hrev : sm.Reverts) (h : MatchesLedger w shelf g)
    (hh : g.hurt = false) :
    ClientM.Meets (keeping sm false) (fun res w' g' => ∀ r, res = .ok r → g'.hurt = false ∧
      MatchesLedger w' shelf g')
      (ChunkedWal.tryCloseFullChunk (sm.checkpoint g.state) : ClientM A C Cb (Option C)) w g := by
  unfold ChunkedWal.tryCloseFullChunk
  refine .get_bind ?_
  by_cases hf : w.isOpenChunkFull = true
  swap
  · simp only [hf, Bool.not_false, if_true]
    exact .pure fun _ _ => ⟨hh, h⟩
  simp only [hf, Bool.not_true, Bool.false_eq_true, if_false]
  refine .bind (sendPending_keeps true none) ?_ fun e w' g' _ r hr => by cases hr
  rintro r₁ _ g₁ ⟨rfl, ⟨e, hr, rfl⟩ | ⟨hr, rfl⟩⟩
  · obtain rfl := Except.ok.inj hr
    exact .require_bind (fun h => absurd h (by simp)) fun e _ r hr => by cases hr
  obtain rfl := Except.ok.inj hr
  refine .require_bind (fun _ => ?_) fun e he => absurd he (by simp)
  obtain ⟨seg, hseg, hend⟩ :=
    Chunk.lastSegment_of_increasing h.indexed.increasing h.indexed.nonempty
  have hlt : w.open.chunk.f < seg.end_ := by
    rw [hend, ← h.start]
    exact Chunk.lt_of_recordsCount h.indexed.increasing h.indexed.nonempty
  refine .liftFault_bind (fun seg' hseg' => ?_) fun e he => absurd (hseg.symm.trans he) (by simp)
  obtain rfl := Except.ok.inj (hseg.symm.trans hseg')
  refine .bind (createEmpty_keeps seg.end_) ?_ fun e w' g' _ r hr => by cases hr
  rintro o _ g₂ ⟨rfl, ⟨e, he⟩ | ⟨he, rfl⟩⟩
  · cases he
  obtain rfl := Except.ok.inj he
  refine .perform_bind (fun _ => List.nil_subperm) fun r₂ g₃ h₃ => ?_
  rcases r₂ with e | ⟨⟩
  · exact .require_bind (fun h => absurd h (by simp)) fun e _ r hr => by cases hr
  refine .require_bind (fun _ => .get_bind (.set_bind ?_)) fun e he => absurd he (by simp)
  refine .bind (append_rule (Q := fun res w' g' => ∀ u, res = .ok u → g'.hurt = false ∧
    w'.closed = w.closed ∧ ∃ seg' n, 0 < n ∧
    w'.open.chunk = (OpenChunk.fromFile seg.end_).chunk.appendRecordSize n ∧
      g' = { g with
        ids := g.ids ++ [seg.end_], log :=
          g.log ++ [(.checkpoint (sm.checkpoint g.state), seg.end_, seg')]
        settled := false }) (.checkpoint (sm.checkpoint g.state)) (fun _ e u hu => by
          cases hu) ?_ ?_) ?_ ?_
  · intro _ _ _
    have h₃ : g₃ = _ := h₃
    rw [h₃]
  · intro hc r g' hstep u _
    obtain ⟨st, hst, rfl⟩ := hstep
    have hfits : Fits A (.appendFile (FileEntry.new seg.end_ (OpenChunk.fromFile seg.end_).chunk.f
        (some (sm.checkpoint g.state))) : WorkerRequest C Cb) := by
      intro c hc'
      cases hc'
      exact hc
    have h₃ : g₃ = _ := h₃
    simp only [hfits, decide_true, Bool.not_true, Bool.or_false, WorkerRequest.removed,
      List.diff_nil] at h₃
    obtain rfl := h₃
    simp only [Bool.false_eq_true, if_false] at hst
    obtain rfl := hst
    refine ⟨hh, rfl, _, _, List.length_pos_of_ne_nil (LawfulRecord.enc_ne_nil hc), rfl, rfl⟩
  swap
  · intro e w' g' _ r hr
    cases hr
  rintro u w₃ g₄ hq
  obtain ⟨hh₄, hclosed, seg', n, hn, hopen, rfl⟩ := hq u rfl
  refine .bind (sendPending_keeps false none) ?_ fun e w' g' _ r hr => by cases hr
  rintro r₃ _ g₅ ⟨rfl, ⟨e, hr₃, rfl⟩ | ⟨hr₃, rfl⟩⟩
  · obtain rfl := Except.ok.inj hr₃
    exact .require_bind (fun h => absurd h (by simp)) fun e _ r hr => by cases hr
  obtain rfl := Except.ok.inj hr₃
  refine .require_bind (fun _ => .get_bind (.set_bind (.pure fun r _ => ⟨hh, ?_⟩))) fun e he =>
    absurd he (by simp)
  let old : ClosedChunk C := { state := sm.checkpoint g.state, chunk := w.open.chunk }
  refine h.rotated hrev hlt { w₃.flushed with
    closed := insertChunk w.open.chunk.chunkId old w₃.closed } hn ?_ hopen
  show insertChunk w.open.chunk.chunkId _ w₃.closed = _
  rw [hclosed, show w.open.chunk.chunkId = w.open.chunk.f from h.start]
  exact insertChunk_of_lt fun p hp => (h.closed p hp).1

omit [Decode A] [Decode C] [WALRecord.LawfulAction A] [LawfulCodec C] in
/-- **The first shutdown** has waited for the worker, if it returns without an error. -/
theorem shutdown_keeps (h : MatchesLedger w shelf g) (hh : g.hurt = false)
    (hw : w.workerHandle = true) :
    ClientM.Meets (keeping sm false) (fun res w' g' => ∀ r, res = .ok r → g'.hurt = false ∧
      MatchesLedger w' shelf g' ∧
      g'.settled = true ∧ w'.open.pendingData = [])
      (ChunkedWal.shutdown : ClientM A C Cb Unit) w g := by
  unfold ChunkedWal.shutdown
  refine .get_bind ?_
  simp only [hw, Bool.not_true, Bool.false_eq_true, if_false]
  refine .set_bind (.bind (sendPending_keeps true none) ?_ fun e w' g' _ r hr => by cases hr)
  rintro r _ g₁ ⟨rfl, hr⟩
  refine .perform_bind (fun _ => trivial) fun r₁ g₂ h₂ => ?_
  obtain rfl : g₂ = g₁ := by cases r₁ <;> exact h₂
  refine .perform_bind (fun _ => trivial) fun r₂ g₃ h₃ => ?_
  obtain rfl : g₃ = { g₂ with joined := true } := by cases r₂ <;> exact h₃
  rcases hr with ⟨e, hr, -⟩ | ⟨hr, rfl⟩
  · obtain rfl := Except.ok.inj hr
    exact .require_bind (fun h => absurd h (by simp)) fun e _ r hr => by cases hr
  obtain rfl := Except.ok.inj hr
  refine .require_bind (fun _ => .require_bind (fun _ => ?_) fun e _ r hr => by cases hr)
    fun e he => absurd he (by simp)
  refine .perform_bind (fun _ => trivial) fun r₄ g₄ h₄ => ?_
  rcases r₄ with e | ⟨⟩
  · exact .require (fun h => absurd h (by simp)) fun e _ r hr => by cases hr
  obtain rfl : g₄ = _ := h₄
  exact .require (fun _ _ _ => ⟨hh, h.congr rfl rfl rfl rfl rfl, rfl, rfl⟩) fun e he =>
    absurd he (by simp)

/-- **Every method** that returns without an error keeps the chunks matched with it. -/
theorem Op.keeps (hrev : sm.Reverts) (op : Op A C Cb) (h : MatchesLedger w (op.passed ++ shelf) g)
    (hh : g.hurt = false) (hw : w.workerHandle = true) (hc : op.Current sm g.state) :
    ClientM.Meets (keeping sm op.isAppend) (Filed op shelf) op.run w g := by
  have herr : ∀ {e : Fault} {w' : ChunkedWal C} {g' : Ledger sm}, Filed op shelf (.error e) w' g' :=
    fun r hr => by cases hr
  cases op with
  | append rec =>
    refine .bind
      (append_rule (Q := fun res w' g' => ∀ u, res = .ok u → g'.hurt = false ∧
        MatchesLedger w' shelf g') rec
      (fun _ e u hu => by cases hu) (fun _ _ ha => by cases ha) ?_) ?_ fun e w' g' _ => herr
    · intro hr r g' hstep u _
      obtain ⟨st, hst, rfl⟩ := hstep
      exact ⟨hh, h.pushed (LawfulRecord.enc_ne_nil hr) hst⟩
    · rintro u w' g' hq
      obtain ⟨hh', h'⟩ := hq u rfl
      exact .pure (.of_matchesLedger hh' h' rfl fun hs => by cases hs)
  | sendPending sync callback =>
    refine .bind (sendPending_keeps sync callback) ?_ fun e w' g' _ => herr
    rintro r₁ _ g₁ ⟨rfl, ⟨e, hr, rfl⟩ | ⟨hr, rfl⟩⟩
    · obtain rfl := Except.ok.inj hr
      exact .require_bind (fun h => absurd h (by simp)) fun e _ => herr
    obtain rfl := Except.ok.inj hr
    refine .require_bind (fun _ =>
      .pure (.of_matchesLedger hh ?_ rfl fun hs => by cases hs)) fun e he => absurd he (by simp)
    exact MatchesLedger.congr h rfl rfl rfl rfl rfl
  | tryCloseFullChunk c =>
    obtain rfl : c = _ := hc
    refine .bind (tryCloseFullChunk_keeps hrev h hh) ?_ fun e w' g' _ => herr
    rintro o w' g' hq
    obtain ⟨hh', h'⟩ := hq o rfl
    exact .pure (.of_matchesLedger hh' h' rfl fun hs => by cases hs)
  | drainClosedChunksWhile shouldDrain =>
    obtain ⟨k, hk⟩ := ChunkedWal.drainLoop_eq shouldDrain 0 w.closed
    refine .bind (m := ChunkedWal.drainClosedChunksWhile shouldDrain) (Q :=
      fun res w' g' => ∀ ids, res = .ok ids →
      g'.hurt = false ∧ MatchesLedger w' (shelf ++ ids) g') ?_ ?_ fun e w' g' _ => herr
    · unfold ChunkedWal.drainClosedChunksWhile
      refine .get_bind ?_
      rw [hk]
      refine .set_bind (.pure fun ids hids => ?_)
      obtain rfl := Except.ok.inj hids
      exact ⟨hh, MatchesLedger.drained h k⟩
    · rintro ids w' g' hq
      obtain ⟨hh', h'⟩ := hq ids rfl
      refine .pure fun r hr => ?_
      obtain rfl := Except.ok.inj hr
      exact ⟨hh', h', fun hs => by cases hs⟩
  | sendRemoveChunks ids =>
    refine .bind (m := ChunkedWal.sendRemoveChunks ids) (Q := fun res w' g' => ∀ u, res = .ok u →
      g'.hurt = false ∧
      MatchesLedger w' shelf g') ?_ ?_ fun e w' g' _ => herr
    · refine send_keeps ?_ hh (fun c hc => by cases hc) (fun e g' u hu => by cases hu)
        fun _ _ => ⟨hh, MatchesLedger.removed h rfl rfl rfl⟩
      refine List.Subperm.trans ?_ h.ids.symm.subperm
      refine List.Sublist.subperm ?_
      refine List.Sublist.trans ?_ (List.sublist_append_right _ _)
      exact (List.sublist_append_left _ _).trans (List.sublist_cons_self _ _)
    · rintro u w' g' hq
      obtain ⟨hh', h'⟩ := hq u rfl
      exact .pure (.of_matchesLedger hh' h' rfl fun hs => by cases hs)
  | sendGetStat =>
    refine .bind (m := ChunkedWal.sendGetStat) (Q := fun res w' g' => ∀ u, res = .ok u →
      g'.hurt = false ∧
      MatchesLedger w' shelf g') ?_ ?_ fun e w' g' _ => herr
    · refine send_keeps
        (show (WorkerRequest.getFlushStat : WorkerRequest C Cb).removed.Subperm g.ids from
        List.nil_subperm) hh (fun c hc => by cases hc)
        (fun e g' u hu => by cases hu) fun _ _ => ⟨hh, MatchesLedger.congr h rfl rfl rfl rfl rfl⟩
    · rintro u w' g' hq
      obtain ⟨hh', h'⟩ := hq u rfl
      exact .pure (.of_matchesLedger hh' h' rfl fun hs => by cases hs)
  | waitWorkerIdle =>
    refine .bind (m := ChunkedWal.waitWorkerIdle) (Q := fun res w' g' => ∀ u, res = .ok u →
      g'.hurt = false ∧
      MatchesLedger w' shelf g') ?_ ?_ fun e w' g' _ => herr
    · refine .perform_bind (fun _ => trivial) fun r g' hstep => ?_
      rcases r with e | ⟨⟩
      · exact .require (fun h => absurd h (by simp)) fun e _ u hu => by cases hu
      obtain rfl : g' = _ := hstep
      exact .require (fun _ _ _ => ⟨hh, MatchesLedger.congr h rfl rfl rfl rfl rfl⟩) fun e he =>
        absurd he (by simp)
    · rintro u w' g' hq
      obtain ⟨hh', h'⟩ := hq u rfl
      exact .pure (.of_matchesLedger hh' h' rfl fun hs => by cases hs)
  | shutdown =>
    refine .bind (shutdown_keeps h hh hw) ?_ fun e w' g' _ => herr
    rintro u w' g' hq
    obtain ⟨hh', h', hset, hp⟩ := hq u rfl
    exact .pure (.of_matchesLedger hh' h' rfl fun _ => ⟨hset, hp⟩)

end

end

end Wal

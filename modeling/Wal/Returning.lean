import Wal.Reviving

/-!
# A session that ends well

`Rested` is the directory behind a `shutdown` that succeeded: every chunk of memory is restored by
its file. `Succeeding` is what holds between the steps of a run in which everything succeeds.
`runs_reopened` is the result: the WAL that is opened behind such a run is the one that was shut
down.
-/

namespace Wal

open Lib

/-! ## Logs in the order of their chunks -/

section
variable {A C : Type}

theorem filter_first {log : List (LogEntry A C)} (h : (log.map fun e => e.2.1).Pairwise (· ≤ ·))
    {i : Nat} {ids : List Nat} (hlt : ∀ j ∈ ids, i < j) : log.filter (fun e => e.2.1 ∈ i :: ids) =
      inChunk i log ++ log.filter fun e => e.2.1 ∈ ids := by
  unfold inChunk
  induction log with
  | nil => rfl
  | cons e log ih =>
    obtain ⟨hle, h⟩ := List.pairwise_cons.1 (by simpa only [List.map_cons] using h)
    have ih := ih h
    by_cases he : e.2.1 = i
    · have hne : e.2.1 ∉ ids := fun hm => Nat.lt_irrefl _ (he ▸ hlt _ hm)
      rw [List.filter_cons_of_pos (by simp [he]), List.filter_cons_of_pos (by simp [he]),
        List.filter_cons_of_neg (by simpa using hne), ih]
      rfl
    · by_cases hm : e.2.1 ∈ ids
      · have hnil : log.filter (fun e => e.2.1 = i) = [] := by
          simp only [List.filter_eq_nil_iff, decide_eq_true_eq]
          intro e' he'
          have h1 := hle e'.2.1 (List.mem_map_of_mem he')
          have h2 := hlt _ hm
          omega
        rw [hnil, List.nil_append] at ih
        rw [List.filter_cons_of_pos (by simp [hm]), List.filter_cons_of_neg (by simpa using he),
          List.filter_cons_of_pos (by simpa using hm), hnil, ih]
        rfl
      · rw [List.filter_cons_of_neg (by simp [he, hm]), List.filter_cons_of_neg (by simpa using he),
          List.filter_cons_of_neg (by simpa using hm), ih]

/-- A log in the order of its chunks is the sequence of their parts. -/
theorem filter_sorted {log : List (LogEntry A C)} (h : (log.map fun e => e.2.1).Pairwise (· ≤ ·))
    {ids : List Nat} (hi : ids.Pairwise (· < ·)) :
    log.filter (fun e => e.2.1 ∈ ids) = ids.flatMap fun i => inChunk i log := by
  induction ids with
  | nil => simp
  | cons i ids ih =>
    obtain ⟨hlt, hi⟩ := List.pairwise_cons.1 hi
    rw [List.flatMap_cons, ← ih hi, filter_first h hlt]

end

/-! ## The directory behind a shutdown -/

section
variable {A C Cb : Type} [Crc32fast] [Encode A] [Decode A] [Encode C] [Decode C]
    {sm : StateMachine A C}

/-- **Every chunk of memory is restored by its file.** -/
structure Rested (fs : Fs) (log : List (LogEntry A C)) (st : sm.State) (w : ChunkedWal C) :
    Prop where
  chained : Chained w
  start : w.open.chunk.globalStart = w.open.chunk.f
  aliases : fs.aliases = []
  nodup : fs.dir.Nodup
  dir : fs.dir.Perm (w.closed.map (·.1) ++ [w.open.chunk.f])
  spelt : SpeltFs A C fs
  closed : ∀ p ∈ w.closed, ∃ L, Restored sm (fun i => (fs.file i).data) p L
  «open» : Restored sm (fun i => (fs.file i).data) (w.open.asClosed (sm.checkpoint st)) st
  entries : ∀ i ∈ fs.dir, inChunk i log = entriesIn A C (fs.file i).data i
  sorted : (log.map fun e => e.2.1).Pairwise (· ≤ ·)
  flushed : w.open.pendingData = []

theorem Rested.saved {fs : Fs} {log : List (LogEntry A C)} {st : sm.State} {w : ChunkedWal C}
    (h : Rested fs log st w) : Saved sm fs := by
  have hmem : ∀ i ∈ fs.dir, ∃ p L, Restored sm (fun i => (fs.file i).data) p L ∧ p.1 = i := by
    intro i hi
    rcases List.mem_append.1 (h.dir.mem_iff.1 hi) with hi | hi
    · obtain ⟨p, hp, rfl⟩ := List.mem_map.1 hi
      obtain ⟨L, hL⟩ := h.closed p hp
      exact ⟨p, L, hL, rfl⟩
    · obtain rfl := List.mem_singleton.1 hi
      exact ⟨_, _, h.open, rfl⟩
  refine ⟨h.spelt, fun i hi _ st' L' hrun => ?_⟩
  obtain ⟨p, L, hL, rfl⟩ := hmem i hi
  obtain rfl : L = L' := Except.ok.inj ((hL.resumes st').symm.trans hrun)
  exact hL.resumes

variable [WALRecord.LawfulAction A] [LawfulCodec C]

/-- **A chunk whose bytes are all in its file** is restored by it. -/
theorem Held.restored {c : ExpectedFiles A C} {file : Nat → Bytes} {p : Nat × ClosedChunk C}
    {L : sm.State} (h : Held c p.2.chunk [] p.1) (hf : file p.1 = c.total p.1)
    (hp : 0 < p.2.chunk.recordsCount) (hL : Resumes sm (inChunk p.1 c.log) L)
    (hst : p.2.state = sm.checkpoint L) :
    Restored sm file p L ∧ inChunk p.1 c.log = entriesIn A C (file p.1) p.1 := by
  have hbytes : file p.1 = encAll (recordsOf p.1 c.log) := by
    rw [hf, ← h.bytes, List.append_nil]
  obtain ⟨hrec, hfail⟩ := recordsIn_encAll h.encodes p.1
  rw [← hbytes] at hrec hfail
  have hentries : inChunk p.1 c.log = entriesIn A C (file p.1) p.1 := by
    rw [h.entries, entriesIn_of p.1 hrec]
  refine ⟨⟨h.file, hfail, ?_, ?_, hentries ▸ hL, hst⟩, hentries⟩
  · rw [hrec, Ne, spelled_eq_nil]
    intro hnil
    rw [Chunk.recordsCount, h.table, offsetsFrom_length, hnil] at hp
    exact Nat.lt_irrefl 0 hp
  · have hsegs : (spelled 0 (recordsOf p.1 c.log)).map (·.1) =
      segments 0 (recordsOf p.1 c.log) := by
      rw [List.map_fst_zip]
      rw [segments_length]
    show _ = tableOf p.1 ((recordsIn A C (file p.1) p.1).map (·.1))
    rw [hrec, hsegs, tableOf_segments, h.table]

omit [Crc32fast] [Encode A] [Decode A] [Encode C] [Decode C] [WALRecord.LawfulAction A]
  [LawfulCodec C] in
/-- A worker that has ended without a failure has done all it was asked to. -/
theorem Session.Numbered.finished {s : Session A C Cb} (h : s.Numbered) (hr : s.receiving = false)
    (hf : s.failing = false) : s.executing = [] ∧ s.outstanding = [] := by
  have hw := Session.not_receiving.1 hr
  have hst : s.status = none := by simpa [Session.failing, hw] using hf
  have hq := (h.ended (by simp [Session.ended, hw, hst])).1
  exact ⟨by simp [Session.executing, hw], by simp [Session.outstanding, Session.collecting, hw, hq]⟩

/-- **Behind a shutdown that succeeded**, once the drained chunks are passed on, the directory is at
rest. -/
theorem SeenByUser.rested {fs : Fs} {log : List (LogEntry A C)} {st : sm.State} {s : Session A C Cb}
    {g : Ledger sm} {c : ExpectedFiles A C} {w : ChunkedWal C} (h : SeenByUser log st [] s g)
    (hw : s.client = .idle w) (hcd : s.closedDown = true) (hnum : s.Numbered) (hchain : Chained w)
    (hplaced : Placed fs s g) (hc : System.SessionAgrees fs log s c) : Rested fs log st w := by
  obtain ⟨-, hst⟩ := h.idle w hw
  obtain ⟨hr, hf, hpend⟩ := h.ended w hw hcd
  obtain ⟨hexec, hout⟩ := hnum.finished hr hf
  have hagrees := hc.idle w hw
  have hdata : ∀ f, (fs.file f).data = c.total f := by
    intro f
    have := hc.flowing.total f
    rwa [Session.unwritten, hexec, hout, show bytesFor f (landing [] ++ addressed s.current []) =
      [] from rfl, List.append_nil] at this
  have hdir : fs.dir.Perm (w.closed.map (·.1) ++ [w.open.chunk.f]) := by
    have := hplaced.dir
    rw [Session.removing, hexec, hout] at this
    exact (this.trans
      (by rw [List.flatMap_nil]; exact List.Perm.of_eq (List.append_nil _))).trans hst.ids
  have hcur : w.open.chunk.f = c.cur := hagrees.open.file
  have hopen : Held c w.open.chunk [] w.open.chunk.f := by
    rw [hcur, ← hpend]
    exact hagrees.open
  have hlog : c.log = g.log := hc.log.trans h.log.symm
  have hclosed : ∀ p ∈ w.closed, ∃ L, Restored sm (fun i => (fs.file i).data) p L ∧
      inChunk p.1 c.log = entriesIn A C (fs.file p.1).data p.1 := by
    intro p hp
    obtain ⟨-, L, hL, hps⟩ := hst.closed p hp
    obtain ⟨first, hl⟩ := hchain.linked
    exact ⟨L, (hagrees.closed p hp).2.restored (hdata p.1) (hl.keys p hp).2.records (hlog ▸ hL) hps⟩
  obtain ⟨hres, hent⟩ : Restored sm (fun i => (fs.file i).data)
    (w.open.asClosed (sm.checkpoint st)) st ∧
      inChunk w.open.chunk.f c.log = entriesIn A C (fs.file w.open.chunk.f).data w.open.chunk.f :=
    Held.restored hopen (hdata _) hchain.filled.records
    (by rw [hlog, ← h.state]; exact hst.open) rfl
  refine ⟨hchain, hst.start, hplaced.aliases, hplaced.nodup, hdir, fun f => ?_, fun p hp => ?_,
    hres, fun i hi => ?_, ?_, hpend⟩
  · rw [hdata]
    exact hc.spelt f
  · obtain ⟨L, hL, -⟩ := hclosed p hp
    exact ⟨L, hL⟩
  · rw [← hc.log]
    rcases List.mem_append.1 (hdir.mem_iff.1 hi) with hi | hi
    · obtain ⟨p, hp, rfl⟩ := List.mem_map.1 hi
      obtain ⟨L, -, he⟩ := hclosed p hp
      exact he
    · obtain rfl := List.mem_singleton.1 hi
      exact hent
  · rw [← hc.log, hlog]
    exact hst.sorted

/-! ## Runs in which everything succeeds -/

/-- **Between the steps** of a WAL and its user. -/
structure Succeeding (v : Live sm Cb) : Prop where
  between : v.sys.session = none → Saved sm v.sys.fs
  within : ∀ s ∈ v.sys.session, ∃ g, SeenByUser v.sys.log v.state v.shelf s g ∧
    (g.hurt = false → s.failing = false → Placed v.sys.fs s g ∧
      ∃ c, System.SessionAgrees v.sys.fs v.sys.log s c)

theorem Succeeding.rested {v : Live sm Cb} (h : Succeeding v) {s : Session A C Cb}
    {w : ChunkedWal C} (hs : v.sys.session = some s) (hw : s.client = .idle w)
    (hcd : s.closedDown = true) (hshelf : v.shelf = []) (hnum : s.Numbered) (hchain : Chained w) :
    Rested v.sys.fs v.sys.log v.state w := by
  obtain ⟨g, hg, hrest⟩ := h.within s hs
  rw [hshelf] at hg
  obtain ⟨hplaced, c, hc⟩ := hrest (hg.idle w hw).1 (hg.ended w hw hcd).2.1
  exact hg.rested hw hcd hnum hchain hplaced hc

omit [WALRecord.LawfulAction A] [LawfulCodec C] in
theorem Live.Succeeds.rotationOk {v : Live sm Cb} {l : Label Cb sm} (h : v.Succeeds l) :
    System.RotationOk v.sys l := by
  cases l with
  | client r =>
    rcases hs : v.sys.session with _ | s
    · simp only [System.RotationOk, hs]
    simp only [System.RotationOk, hs]
    cases hc : s.client with
    | busy op p =>
      cases op with
      | tryCloseFullChunk c =>
        cases p with
        | done x =>
          obtain ⟨res, w⟩ := x
          cases res with
          | error e =>
            have := h s hs (.error e) (by rw [hc]; rfl)
            cases this
          | ok r => trivial
        | act a k => trivial
      | _ => trivial
    | _ => trivial
  | _ => trivial

omit [WALRecord.LawfulAction A] [LawfulCodec C] in
theorem Live.step_sys {v v' : Live sm Cb} {l : Label Cb sm} (h : v.step l = some v') :
    System.step v.sys l = some v'.sys := by
  obtain ⟨sys, hsys, hv⟩ := Option.bind_eq_some_iff.1 h
  suffices v'.sys = sys from this ▸ hsys
  cases l with
  | client r =>
    have hv : v.clientStep sys = some v' := hv
    rcases hacc : v.sys.session.bind (·.client.accepted?) with _ | e
    · simp only [Live.clientStep, hacc, Option.some.injEq] at hv
      rw [← hv]
    · simp only [Live.clientStep, hacc, Option.map_eq_some_iff] at hv
      obtain ⟨state, -, rfl⟩ := hv
      rfl
  | _ =>
    cases hv
    rfl

theorem Saved.started {config : Config} {st : sm.State} {fs : Fs} {o : Opened sm}
    {x : OpenState A C} (hrev : sm.Reverts) (h : Saved sm fs)
    (hrun : OpenRun config st (OpenState.init fs) (.ok o) x) :
    ∃ g, SeenByUser (x.applied ++ x.created) o.state []
      (System.startSession config o : Session A C Cb) g ∧
      Placed x.fs (System.startSession config o : Session A C Cb) g ∧
      ∃ c, System.SessionAgrees x.fs (x.applied ++ x.created)
        (System.startSession config o : Session A C Cb) c := by
  obtain ⟨hst, hal, hnd⟩ := h.opened hrev hrun
  refine ⟨o.ledger x,
    ⟨rfl, rfl, fun w hw => ?_, fun op p hp => (by cases hp), fun hj => ?_, fun hj => ?_,
      fun w hw hcd => ?_⟩, ⟨hal, hnd, ?_⟩, _, .started hrun h.spelt⟩
  · cases hw
    exact ⟨rfl, hst⟩
  · cases hj
  · cases hj
  · simp [Session.closedDown, System.startSession] at hcd
  · exact List.Perm.of_eq (List.append_nil _).symm

/-- **A step in which everything succeeds.** -/
theorem succeeding_next (hrev : sm.Reverts) {v v' : Live sm Cb} {l : Label Cb sm}
    (hready : v.sys.InSession Session.Ready) (hnum : v.sys.InSession Session.Numbered)
    (hexp : v.sys.InSession Session.Explained) (hchain : v.sys.InSession System.Chaining)
    (h : Succeeding v) (hok : v.Succeeds l) (hstep : v.step l = some v') : Succeeding v' := by
  have hsys := Live.step_sys hstep
  by_cases hl : System.Inside l = true ∨ ∃ op, l = .call op
  · rcases hs : v.sys.session with _ | s
    · cases l with
      | «open» | openCrash | crash | drop => simp [System.Inside] at hl
      | client | recv | collect | exec | effect | releaseAll | fail | dropReceiver | call =>
        simp [System.step, hs] at hsys
    · obtain ⟨g, hg, hrest⟩ := h.within s hs
      obtain ⟨s', g', hs', hg', hnext⟩ :=
        seenByUser_step hrev hs (hready s hs) (hnum s hs) (hexp s hs).traced hg hl
        hok hstep
      refine ⟨fun hn => absurd (hn.symm.trans hs') (by simp), fun s₁ hs₁ => ⟨g', ?_⟩⟩
      cases hs'.symm.trans hs₁
      refine ⟨hg', fun hh hf => ?_⟩
      obtain ⟨hh₀, hf₀, hcar, hplace⟩ := hnext hh hf
      obtain ⟨hplaced, c, hc⟩ := hrest hh₀ hf₀
      obtain ⟨s₂, c', hs₂, hc'⟩ :=
        System.sessionAgrees_step hs (hready s hs) (hnum s hs) hc hl hcar hsys
      cases hs₂.symm.trans hs'
      exact ⟨hplace hplaced, c', hc'⟩
  · cases l with
    | «open» config st =>
      obtain ⟨sys, hopened, hv⟩ := Option.bind_eq_some_iff.1 hstep
      cases hv
      cases System.step_move hopened with
      | @opened _ _ o x hs hopen =>
        obtain ⟨r, x', hrun, heq⟩ := openLocked_run config st (OpenState.init v.sys.fs)
        have := heq.symm.trans hopen
        rcases r with e | o'
        · cases this
        cases this
        have hstate : openedState v.sys.fs config st = some o.state := by
          unfold openedState
          rw [hopen]
        obtain ⟨g, hg, hplaced, c, hc⟩ : ∃ g, SeenByUser (x.applied ++ x.created) o.state []
          (System.startSession config o : Session A C Cb) g ∧ _ := (h.between hs).started hrev hrun
        refine ⟨fun hn => absurd hn (by simp), fun s hs' => ⟨g, ?_, fun _ _ => ?_⟩⟩
        all_goals cases hs'
        · show SeenByUser _ ((openedState v.sys.fs config st).getD v.state) _ _ _
          rw [hstate]
          exact hg
        · exact ⟨hplaced, c, hc⟩
      | notOpened hs hopen =>
        have hnone : openedState v.sys.fs config st = none := by
          unfold openedState
          rw [hopen]
        have hok : (openedState v.sys.fs config st).isSome = true := hok
        rw [hnone] at hok
        cases hok
    | openCrash | crash => exact hok.elim
    | drop =>
      obtain ⟨sys, hdropped, hv⟩ := Option.bind_eq_some_iff.1 hstep
      cases hv
      cases System.step_move hdropped with
      | @dropped s w hs hw hterm hhandle =>
        refine ⟨fun _ => ?_, fun s hs' => (by cases hs')⟩
        exact (h.rested hs hw (hok.2 s hs) hok.1 (hnum s hs) ((hchain s hs).idle w hw)).saved
    | call op => exact (hl (.inr ⟨op, rfl⟩)).elim
    | _ => exact (hl (.inl rfl)).elim

/-! ## The result -/

/-- A WAL directory that was never opened, and its user. -/
def Live.fresh (st : sm.State) : Live sm Cb where
  sys := System.fresh A C Cb
  state := st
  shelf := []

/-- **A directory of WAL files**: each of them is the first part of a list of encoded records, and
the first record in it is a checkpoint of the state machine. -/
structure WalDir (sm : StateMachine A C) (fs : Fs) : Prop where
  spelt : SpeltFs A C fs
  headed : ∀ i ∈ fs.dir, ∀ p ∈ (recordsIn A C (fs.file i).data i).head?, ∃ L,
    p.2 = .checkpoint (sm.checkpoint L)

omit [WALRecord.LawfulAction A] [LawfulCodec C] in
/-- A checkpoint makes what is replayed independent of what was before. -/
theorem WalDir.saved {fs : Fs} (hrev : sm.Reverts) (h : WalDir sm fs) : Saved sm fs := by
  refine ⟨h.spelt, fun i hi hne st L hrun => ?_⟩
  obtain ⟨p, ps, hps⟩ := List.exists_cons_of_ne_nil hne
  obtain ⟨L₀, hL₀⟩ := h.headed i hi p (by rw [hps]; rfl)
  have hentries : entriesIn A C (fs.file i).data i = placed i p :: ps.map (placed i) := by
    rw [entriesIn, hps, List.map_cons]
  rw [hentries] at hrun ⊢
  have hrest : ∀ st', sm.run st' (placed i p :: ps.map (placed i)) =
    sm.run L₀ (ps.map (placed i)) := by
    intro st'
    refine StateMachine.run_cons ?_
    show sm.apply st' p.2 _ _ = _
    rw [hL₀]
    exact hrev _ _ _ _
  intro st'
  rw [hrest, ← hrest st, hrun]

/-- **In every run in which everything succeeds.** -/
theorem runs_succeeding (hrev : sm.Reverts) {ls : List (Label Cb sm)} {start v : Live sm Cb}
    (hfresh : start.sys.session = none) (hstart : Succeeding start)
    (hr : RunsOf Live.step Live.Succeeds start ls v) : v.sys.InSession Session.Numbered ∧
      v.sys.InSession System.Chaining ∧ Succeeding v := by
  have hin : ∀ {P : Session A C Cb → Prop}, start.sys.InSession P := fun s hs => by
    rw [hfresh] at hs
    cases hs
  have hall : v.sys.InSession Session.Ready ∧ v.sys.InSession Session.Balanced ∧
      v.sys.InSession Session.Explained ∧ v.sys.InSession Session.Numbered ∧
      v.sys.InSession System.Chaining ∧
      Succeeding v := by
    refine hr.invariant (I := fun v => v.sys.InSession Session.Ready ∧
      v.sys.InSession Session.Balanced ∧
      v.sys.InSession Session.Explained ∧ v.sys.InSession Session.Numbered ∧
      v.sys.InSession System.Chaining ∧
      Succeeding v) ?_ ⟨hin, hin, hin, hin, hin, hstart⟩
    intro v l v' h hok hstep
    obtain ⟨h1, h2, h3, h4, h5, h6⟩ := h
    have hs := Live.step_sys hstep
    have hpos : ∀ {rec : WALRecord A C} {n : Nat}, (encode rec).2 = .ok n → 0 < n := fun hn => by
      rw [SizedCodec.size_eq hn]
      exact List.length_pos_of_ne_nil (LawfulRecord.enc_ne_nil ⟨_, hn⟩)
    exact ⟨System.ready_step _ _ _ h1 hs, System.balanced_step _ _ _ h1 h2 hs,
      System.explained_step _ _ _ h1 h3 hs, System.numbered_step _ _ _ h2 h4 hs,
      System.chaining_step hpos _ _ _ h5 hok.rotationOk hs,
      succeeding_next hrev h1 h4 h3 h5 h6 hok hstep⟩
  exact ⟨hall.2.2.2.1, hall.2.2.2.2⟩

omit [WALRecord.LawfulAction A] [LawfulCodec C] in
/-- **The directory at rest opens** to the WAL that was shut down. -/
theorem Rested.opens {fs : Fs} {log : List (LogEntry A C)} {st : sm.State} {w : ChunkedWal C}
    (h : Rested fs log st w) {config : Config} (hv : config.validate = .ok ()) (st' : sm.State) :
    ∃ o x, (openLocked sm config st').run (.init fs) = .ok o x ∧ x.fs = fs ∧
      x.applied = log.filter (fun e => e.2.1 ∈ w.closed.map (·.1) ++ [w.open.chunk.f]) ∧
      o.wal.closed.map bareOf = w.closed.map bareOf ∧ o.wal.open.chunk.f = w.open.chunk.f ∧
      o.wal.open.chunk.globalOffsets = w.open.chunk.globalOffsets ∧
        o.wal.open.pendingData = w.open.pendingData ∧
      o.state = st := by
  obtain ⟨acc, hsound, hst, hclosed⟩ :=
    Sound.of_restored h.chained h.start h.closed h.open rfl h.aliases h.nodup h.dir
    config st'
  obtain ⟨r, x, hrun, heq⟩ := openLocked_run config st' (OpenState.init fs)
  have hsound : Sound config st' (OpenState.init fs : OpenState A C).fs _ [] acc none := hsound
  -- the last chunk is reopened
  have hne : reopenLastClosed acc.closed ≠ none := by
    rw [Ne, hsound.reads.reopens]
    simp
  obtain ⟨⟨oc, cl⟩, hl⟩ := Option.ne_none_iff_exists'.1 hne
  obtain ⟨p, hcl, rfl⟩ := reopenLastClosed_concat hl
  rw [hcl, List.map_append, List.map_append] at hclosed
  obtain ⟨hcs, hp⟩ := List.append_inj' hclosed rfl
  have hp : bareOf p = bareOf (w.open.asClosed (sm.checkpoint st)) := by simpa using hp
  obtain ⟨rfl, hfs, -⟩ := hsound.reopens hv hl hrun
  obtain ⟨o, ho, -, happ⟩ := hsound.opens hv (fun hc => absurd hc (by simp)) hrun
  refine ⟨_, x, heq, hfs, ?_, hcs, congrArg (fun b => b.2.2.1) hp, congrArg (fun b => b.2.2.2) hp,
    h.flushed.symm, hst⟩
  rw [happ, filter_sorted h.sorted hsound.reads.increasing.1]
  refine (List.nil_append _).trans (List.flatMap_congr fun i hi => (h.entries i ?_).symm)
  exact (hsound.mem i).2 (.inl hi)

/-- **Reopening reproduces the live WAL**: behind a run in which everything succeeds, the last step
of it a `shutdown` and the drained chunks passed on, an opening returns the WAL that was shut down,
and applies the records of its chunks. The run begins with whatever files a WAL has left. -/
theorem runs_reopened (hrev : sm.Reverts) (start v : Live sm Cb) (hstart : start.sys.session = none)
    (hdir : WalDir sm start.sys.fs) (ls : List (Label Cb sm))
    (hr : RunsOf Live.step Live.Succeeds start ls v) (s : Session A C Cb) (w : ChunkedWal C)
    (hs : v.sys.session = some s) (hw : s.client = .idle w) (hcd : s.closedDown = true)
    (hshelf : v.shelf = []) (config : Config) (hv : config.validate = .ok ()) (st : sm.State) :
    ∃ o x, openLocked sm config st (OpenState.init v.sys.fs) = .ok o x ∧ x.fs = v.sys.fs ∧
      x.applied = v.sys.log.filter (fun e => e.2.1 ∈ w.closed.map (·.1) ++ [w.open.chunk.f]) ∧
      o.wal.closed.map bareOf = w.closed.map bareOf ∧ o.wal.open.chunk.f = w.open.chunk.f ∧
      o.wal.open.chunk.globalOffsets = w.open.chunk.globalOffsets ∧
        o.wal.open.pendingData = w.open.pendingData ∧
      o.state = v.state := by
  have hnext : Succeeding start :=
    ⟨fun _ => hdir.saved hrev, fun s hs' => by rw [hstart] at hs'; cases hs'⟩
  obtain ⟨hnum, hchain, h⟩ := runs_succeeding hrev hstart hnext hr
  exact (h.rested hs hw hcd hshelf (hnum s hs) ((hchain s hs).idle w hw)).opens hv st

end

/-! ## A WAL that was rotated and purged -/

instance {A C Cb : Type} [DecidableEq C] (sm : StateMachine A C) (st : sm.State) (op : Op A C Cb) :
    Decidable (op.Current sm st) :=
  match op with
  | .tryCloseFullChunk c => inferInstanceAs (Decidable (c = sm.checkpoint st))
  | .append _ | .sendPending .. | .drainClosedChunksWhile _ | .sendRemoveChunks _ | .sendGetStat
      | .waitWorkerIdle
    | .shutdown => .isTrue trivial

instance {A C Cb : Type} [Crc32fast] [Encode A] [Decode A] [Encode C] [Decode C] [DecidableEq C]
    {sm : StateMachine A C} (v : Live sm Cb) (l : Label Cb sm) : Decidable (v.Succeeds l) :=
  match l with
  | .open config st => inferInstanceAs (Decidable ((openedState v.sys.fs config st).isSome = true))
  | .openCrash .. | .crash _ => .isFalse id
  | .drop => inferInstanceAs (Decidable (v.shelf = [] ∧ ∀ s ∈ v.sys.session, s.closedDown = true))
  | .call op => inferInstanceAs (Decidable (op.passed.Subperm v.shelf ∧ op.Current sm v.state ∧
      ∀ s ∈ v.sys.session, ∀ w ∈ s.client.wal?, w.workerHandle = true))
  | .client _ =>
    inferInstanceAs (Decidable (∀ s ∈ v.sys.session, ∀ res ∈ s.client.returning?, res.isOk = true))
  | .recv | .collect | .exec _ | .effect | .releaseAll | .fail | .dropReceiver => .isTrue trivial

namespace System

open Register

/-- The worker takes some requests together, and their I/O succeeds. -/
def batch (requests effects : Nat) : List Register.Step :=
  .recv :: List.replicate requests .collect ++
    [.exec { writes := [.ok 100], calls := [.ok (), .ok ()], user := List.replicate 4 none }] ++
    List.replicate effects .effect

/-- Two rotations, a drained chunk that is removed, a record in the buffer, and a shutdown. -/
def purgedRun : List Register.Step :=
  [start twoRecords] ++ puts 1 ++ rotation (List.replicate 10 go) ++ puts 2 ++
    .call (.tryCloseFullChunk { value := 2 }) :: List.replicate 10 go ++
    [.call (.drainClosedChunksWhile fun id _ => decide (id = 0)), go, .call (.sendRemoveChunks [0]),
      go, go, go] ++
    puts 3 ++ [.call .shutdown, go, go, go] ++ batch 1 7 ++ batch 2 8 ++ batch 1 6 ++ batch 0 7 ++
    [.recv, .releaseAll, .dropReceiver, go, go, go]

/-- The record that was in the buffer is there, and the removed chunk is not. -/
theorem runs_reopened_purged :
    ∃ (v : Live machine Nat) (w : ChunkedWal Register) (o : Opened machine)
    (x : OpenState Put Register),
      runs Live.step (Live.fresh { value := 0 } : Live machine Nat) purgedRun = some v ∧
    w.closed.map (·.1) = [18] ∧ v.sys.log.length = 6 ∧
    openLocked machine Register.config { value := 9 } (OpenState.init v.sys.fs) = .ok o x ∧
    x.applied = v.sys.log.filter (fun e => e.2.1 ∈ [18, 36]) ∧
      o.wal.closed.map bareOf = w.closed.map bareOf ∧
    machine.checkpoint o.state = { value := 3 } := by
  have h : ((runs (guarded Live.Succeeds Live.step) (Live.fresh { value := 0 } : Live machine Nat)
    purgedRun).any
      fun v => v.sys.session.any fun s => s.client.wal?.any fun w =>
        decide (s.closedDown = true ∧ v.shelf = [] ∧
        w.closed.map (·.1) = [18] ∧ w.open.chunk.f = 36 ∧ v.sys.log.length = 6 ∧
        machine.checkpoint v.state = { value := 3 })) = true := by decide +kernel
  obtain ⟨v, hv, h⟩ := (Option.any_eq_true _ _).1 h
  obtain ⟨s, hs, h⟩ := (Option.any_eq_true _ _).1 h
  obtain ⟨w, hw, h⟩ := (Option.any_eq_true _ _).1 h
  obtain ⟨hcd, hshelf, hclosed, hopen, hlog, hstate⟩ := of_decide_eq_true h
  have hr := RunsOf.of_guarded hv
  have hdir : WalDir machine (Live.fresh { value := 0 } : Live machine Nat).sys.fs :=
    ⟨fun _ => .nil, fun i hi => by cases hi⟩
  obtain ⟨o, x, hrun, -, happ, hcs, -, -, -, hst⟩ :=
    runs_reopened (fun _ _ _ _ => rfl) _ v rfl hdir _ hr s w hs
    (Client.wal?_eq hw) hcd hshelf Register.config (by decide) { value := 9 }
  rw [hclosed, hopen] at happ
  exact ⟨v, w, o, x, hr.runs, hclosed, hlog, hrun, happ, hcs, hst ▸ hstate⟩

end System

end Wal

import Wal.Memory
import Wal.Rotating

/-!
# Records that can be read

`runs_agreed` gives every reachable session what memory and disk agree on. From it: where a record
of a chunk is (`runs_bytes`), and exactly when it can be read back through `load_record` or a reader
(`runs_readable`).
-/

namespace Wal

open Lib

/-! ## One chunk -/

theorem exists_split {α : Type} {l : List α} {i : Nat} {x : α} (h : l[i]? = some x) :
    ∃ pre, pre.length = i ∧ l = pre ++ x :: l.drop (i + 1) := by
  obtain ⟨hi, rfl⟩ := List.getElem?_eq_some_iff.1 h
  refine ⟨l.take i, by simp [Nat.le_of_lt hi], ?_⟩
  rw [← List.drop_eq_getElem_cons hi, List.take_append_drop]

section
variable {A C Cb : Type} [Crc32fast] [Encode A] [Encode C] {rs : List (WALRecord A C)}

theorem offsetsFrom_split (off : Nat) (pre rs : List (WALRecord A C)) : ∃ front : List Nat,
    front.length = pre.length ∧ offsetsFrom off (pre ++ rs) =
      front ++ offsetsFrom (off + (encAll pre).length) rs := by
  induction pre generalizing off with
  | nil => exact ⟨[], rfl, rfl⟩
  | cons r pre ih =>
    obtain ⟨front, hl, h⟩ := ih (off + (enc r).length)
    refine ⟨off :: front, by simp [hl], ?_⟩
    rw [List.cons_append, offsetsFrom, h, List.cons_append, encAll_cons, List.length_append,
      Nat.add_assoc]

theorem mem_entriesFrom_split (id off : Nat) (pre post : List (WALRecord A C)) (r : WALRecord A C) :
    (r, id, { offset := off + (encAll pre).length, size := (enc r).length }) ∈
      entriesFrom id off (pre ++ r :: post) := by
  induction pre generalizing off with
  | nil => exact List.mem_cons_self
  | cons r' pre ih =>
    have := ih (off + (enc r').length)
    rw [Nat.add_assoc] at this
    rw [List.cons_append, entriesFrom, encAll_cons, List.length_append]
    exact List.mem_cons_of_mem _ this

theorem Chunk.recordSegment_split {c : Chunk} {id : Nat} {pre post : List (WALRecord A C)}
    {r : WALRecord A C} (h : c.globalOffsets = offsetsFrom id (pre ++ r :: post)) :
    c.recordSegment pre.length =
      .ok { offset := id + (encAll pre).length, size := (enc r).length } := by
  obtain ⟨front, hl, hs⟩ := offsetsFrom_split id pre (r :: post)
  rw [← hl]
  exact Chunk.recordSegment_of (h.trans hs)

variable [Decode A] [Decode C] [WALRecord.LawfulAction A] [LawfulCodec C]

/-- **Reading** gives the record back if and only if its bytes are there. -/
theorem Chunk.readRecord_iff {c : Chunk} (debug : Segment → String) {data rest : Bytes} {id : Nat}
    {pre post : List (WALRecord A C)} {r : WALRecord A C}
    (hb : data ++ rest = encAll (pre ++ r :: post))
    (ht : c.globalOffsets = offsetsFrom id (pre ++ r :: post)) (hr : Encodes r) :
    c.readRecord (WALRecord A C) debug data
      { offset := id + (encAll pre).length, size := (enc r).length } =
      .ok r ↔ rest.length ≤ (encAll post).length := by
  have hlen := congrArg List.length hb
  simp only [encAll_append, encAll_cons, List.length_append] at hlen
  unfold Chunk.readRecord
  simp only [Chunk.globalStart_of ht, Nat.add_sub_cancel_left]
  split
  · rename_i hlt
    exact ⟨fun h => (by cases h), fun h => absurd hlt (by omega)⟩
  · rename_i hge
    have hslice : (data.drop (encAll pre).length).take (enc r).length = enc r := by
      have := congrArg (fun l => (l.drop (encAll pre).length).take (enc r).length) hb
      simp only [encAll_append, encAll_cons, List.drop_left', List.take_left'] at this
      rw [List.drop_append_of_le_length (by omega), List.take_append_of_le_length
        (by rw [List.length_drop]; omega)] at this
      exact this
    have hdec : (decode (α := WALRecord A C) (enc r)).1 = .ok r := by
      have := LawfulCodec.decode_enc hr []
      rw [List.append_nil] at this
      rw [this]
    rw [hslice, hdec]
    exact ⟨fun _ => by omega, fun _ => rfl⟩

end

namespace System

variable {A C Cb : Type} [Crc32fast] [Encode A] [Decode A] [Encode C] [Decode C]
  {sm : StateMachine A C}

/-! ## Every run -/

/-- Between sessions every file is spelt, and in a session memory and disk agree. -/
structure Agreed (sys : System A C Cb) : Prop where
  between : sys.session = none → SpeltFs A C sys.fs
  within : ∀ s ∈ sys.session, ∃ g, SessionAgrees sys.fs sys.log s g

omit [Decode A] [Decode C] in
theorem Agreed.spelt {sys : System A C Cb} (h : Agreed sys) : SpeltFs A C sys.fs := by
  rcases hs : sys.session with _ | s
  · exact h.between hs
  · obtain ⟨g, hg⟩ := h.within s hs
    intro f
    apply (hg.spelt f).mono
    rw [← hg.flowing.total f]
    exact List.prefix_append _ _

omit [Decode A] [Decode C] in
theorem Agreed.of_spelt {sys : System A C Cb} (hs : sys.session = none) (h : SpeltFs A C sys.fs) :
    Agreed sys where
  between _ := h
  within s hs' := by
    rw [hs] at hs'
    cases hs'

variable [WALRecord.LawfulAction A] [LawfulCodec C]

theorem SessionAgrees.started {config : Config} {st : sm.State} {fs : Fs} {o : Opened sm}
    {x : OpenState A C} (h : OpenRun config st (OpenState.init fs) (.ok o) x)
      (hsp : SpeltFs A C fs) :
    SessionAgrees x.fs (x.applied ++ x.created) (startSession config o : Session A C Cb)
      (o.expectedFiles x) where
  log := rfl
  flowing := by
    have hentry : o.entry.f = o.wal.open.chunk.f := by cases h <;> rfl
    refine ⟨rfl, fun f => List.append_nil _, hentry, fun t ht => ?_, fun pre hp => ?_,
      fun pre w post hp => ?_⟩
    · cases ht
    · obtain rfl := List.prefix_nil.1 hp
      exact Nat.le_of_eq hentry
    · exact absurd hp (by simp [startSession, Session.outstanding, Session.collecting])
  spelt := (h.speltOpen ⟨hsp, by simp [OpenState.init]⟩).now
  idle w hw := by
    cases hw
    exact h.agrees hsp
  busy op p hp := by cases hp
  running := rfl
  status := rfl
  accepted := by simp [startSession]

theorem agreed_step {sys sys' : System A C Cb} {l : Label Cb sm}
    (hready : sys.InSession Session.Ready) (hnum : sys.InSession Session.Numbered) (h : Agreed sys)
    (hok : Carries sys l) (hstep : step sys l = some sys') : Agreed sys' := by
  by_cases hl : Inside l = true ∨ ∃ op, l = .call op
  · rcases hs : sys.session with _ | s
    · cases l with
      | «open» | openCrash | crash | drop => simp [Inside] at hl
      | client | recv | collect | exec | effect | releaseAll | fail | dropReceiver | call =>
        simp [step, hs] at hstep
    · obtain ⟨g, hg⟩ := h.within s hs
      obtain ⟨s', g', hs', hg'⟩ := sessionAgrees_step hs (hready s hs) (hnum s hs) hg hl hok hstep
      refine ⟨fun hn => absurd (hn.symm.trans hs') (by simp), fun s₁ hs₁ => ⟨g', ?_⟩⟩
      cases hs'.symm.trans hs₁
      exact hg'
  · cases step_move hstep with
    | @opened config state o x hs hopen =>
      obtain ⟨r, x', hrun, heq⟩ := openLocked_run config state (OpenState.init sys.fs)
      have := heq.symm.trans hopen
      rcases r with e | o'
      · cases this
      cases this
      refine ⟨fun hn => absurd hn (by simp), fun s hs' => ?_⟩
      cases hs'
      exact ⟨_, .started hrun h.spelt⟩
    | @notOpened config state e x hs hopen =>
      obtain ⟨r, x', hrun, heq⟩ := openLocked_run config state (OpenState.init sys.fs)
      have := heq.symm.trans hopen
      rcases r with e | o'
      · cases this
        exact .of_spelt hs (hrun.speltOpen ⟨h.spelt, by simp [OpenState.init]⟩).now
      · cases this
    | @openCrashed config state k x v hs hopen hv =>
      obtain ⟨r, x', hrun, heq⟩ := openLocked_run config state (OpenState.init sys.fs)
      have hx : x' = x := by
        rcases hopen with ⟨o, ho⟩ | ⟨e, ho⟩
        all_goals
          have := heq.symm.trans ho
          rcases r with e | o' <;> cases this
          rfl
      subst hx
      exact .of_spelt hs ((hrun.speltOpen ⟨h.spelt, by simp [OpenState.init]⟩).trail v
        (List.mem_of_getElem? hv))
    | crashed hc => exact .of_spelt rfl (h.spelt.crash hc)
    | dropped hs => exact .of_spelt rfl h.spelt
    | @called _ op => exact (hl (.inr ⟨op, rfl⟩)).elim
    | _ => exact (hl (.inl rfl)).elim

/-- **In every run** memory and disk agree. -/
theorem runs_agreed {ls : List (Label Cb sm)} {sys : System A C Cb}
    (hr : RunsOf step Carries (System.fresh A C Cb) ls sys) : Agreed sys := by
  have hall : sys.InSession Session.Ready ∧ sys.InSession Session.Balanced ∧
    sys.InSession Session.Numbered ∧
      Agreed sys := by
    refine hr.invariant (I := fun sys => sys.InSession Session.Ready ∧
      sys.InSession Session.Balanced ∧
      sys.InSession Session.Numbered ∧ Agreed sys) ?_ ⟨fresh_inSession, fresh_inSession,
      fresh_inSession, ?_⟩
    · intro s l s' h hok hs
      obtain ⟨h1, h2, h3, h4⟩ := h
      exact ⟨ready_step s l s' h1 hs, balanced_step s l s' h1 h2 hs, numbered_step s l s' h2 h3 hs,
        agreed_step h1 h3 h4 hok hs⟩
    · exact .of_spelt rfl fun f => .nil
  exact hall.2.2.2

/-! ## Every chunk -/

end System

section
variable {A C Cb : Type}

/-- The chunks of a WAL, each with what is appended to it and was not sent yet. -/
def ChunkedWal.loaded (w : ChunkedWal C) : List (Chunk × Bytes) :=
  (w.open.chunk, w.open.pendingData) :: w.closed.map fun p => (p.2.chunk, [])

theorem ChunkedWal.mem_of_lookup (w : ChunkedWal C) {id : Nat} {c : ClosedChunk C}
    (h : w.closed.lookup id = some c) : (id, c) ∈ w.closed := by
  obtain ⟨l, r, hl, -⟩ := List.lookup_eq_some_iff.1 h
  rw [hl]
  exact List.mem_append_right _ List.mem_cons_self

variable [Crc32fast] [Encode A] [Encode C]

/-- **A chunk is backed** by the bytes of its file, followed by those on their way and by the
`pending` ones: its index counts the records that they encode, which are those in the log, and says
where each of them is. -/
structure Backed (fs : Fs) (log : List (LogEntry A C)) (s : Session A C Cb) (chunk : Chunk)
    (pending : Bytes) (rs : List (WALRecord A C)) : Prop where
  bytes : (fs.file chunk.f).data ++ bytesFor chunk.f s.unwritten ++ pending = encAll rs
  counted : chunk.recordsCount = rs.length
  logged : inChunk chunk.globalStart log = entriesFrom chunk.globalStart chunk.globalStart rs
  segment : ∀ i r, rs[i]? = some r → ∃ seg, chunk.recordSegment i = .ok seg ∧
    (r, chunk.globalStart, seg) ∈ log ∧ chunk.globalStart ≤ seg.offset ∧
    ((encAll rs).drop (seg.offset - chunk.globalStart)).take seg.size = enc r

theorem Held.backed {g : ExpectedFiles A C} {chunk : Chunk} {pending : Bytes} {id : Nat} {fs : Fs}
    {s : Session A C Cb} (h : Held g chunk pending id)
    (ht : (fs.file id).data ++ bytesFor id s.unwritten = g.total id) :
    Backed fs g.log s chunk pending (recordsOf id g.log) := by
  have hstart := Chunk.globalStart_of h.table
  refine ⟨by rw [h.file, ht, h.bytes], ?_, by rw [hstart]; exact h.entries, fun i r hi => ?_⟩
  · rw [Chunk.recordsCount, h.table, offsetsFrom_length]
    rfl
  · obtain ⟨pre, rfl, hsplit⟩ := exists_split hi
    have htable := h.table
    have hentries := h.entries
    rw [hsplit] at htable hentries ⊢
    refine ⟨_, Chunk.recordSegment_split htable, ?_, by rw [hstart]; exact Nat.le_add_right _ _, ?_⟩
    · rw [hstart]
      have := mem_entriesFrom_split id id pre ((recordsOf id g.log).drop (pre.length + 1)) r
      rw [← hentries] at this
      exact (List.mem_filter.1 this).1
    · rw [hstart, Nat.add_sub_cancel_left, encAll_append, encAll_cons, List.drop_left,
        List.take_left]

end

namespace System

variable {A C Cb : Type} [Crc32fast] [Encode A] [Decode A] [Encode C] [Decode C]
  {sm : StateMachine A C} [WALRecord.LawfulAction A] [LawfulCodec C]
  {ls : List (Label Cb sm)} {sys : System A C Cb} {s : Session A C Cb} {w : ChunkedWal C}

/-- **A record of a closed chunk**, as the WAL and its readers see it. -/
theorem SessionAgrees.readable {fs : Fs} {log : List (LogEntry A C)} {g : ExpectedFiles A C}
    (hg : SessionAgrees fs log s g) (hc : s.client = .idle w) {id : Nat} {c : ClosedChunk C}
    (hl : w.closed.lookup id = some c) :
    ∃ rs : List (WALRecord A C), c.chunk.recordsCount = rs.length ∧
      inChunk id log = entriesFrom id id rs ∧
      (fs.file c.chunk.f).data ++ bytesFor c.chunk.f s.unwritten = encAll rs ∧
      ∀ i r, rs[i]? = some r → ∃ seg, c.chunk.recordSegment i = .ok seg ∧ (r, id, seg) ∈ log ∧
        ∀ debug,
        (w.loadRecord A debug fs id seg = .ok r ↔
          (bytesFor c.chunk.f s.unwritten).length ≤ (encAll (rs.drop (i + 1))).length) ∧
        (w.reader.readRecord A debug fs id seg = .ok r ↔
          (bytesFor c.chunk.f s.unwritten).length ≤ (encAll (rs.drop (i + 1))).length) := by
  have hheld := ((hg.idle w hc).closed _ (w.mem_of_lookup hl)).2
  have hlog := hg.log
  subst hlog
  have hbytes : (fs.file c.chunk.f).data ++ bytesFor c.chunk.f s.unwritten =
    encAll (recordsOf id g.log) := by
    rw [hheld.file, hg.flowing.total, ← List.append_nil (g.total id), hheld.bytes]
  refine ⟨recordsOf id g.log, ?_, hheld.entries, hbytes, fun i r hi => ?_⟩
  · rw [Chunk.recordsCount, hheld.table, offsetsFrom_length]
    rfl
  obtain ⟨pre, rfl, hsplit⟩ := exists_split hi
  have hr := hheld.encodes r (List.mem_of_getElem? hi)
  have htable := hheld.table
  have hentries := hheld.entries
  rw [hsplit] at htable hentries hbytes
  refine ⟨_, Chunk.recordSegment_split htable, ?_, fun debug => ?_⟩
  · have := mem_entriesFrom_split id id pre ((recordsOf id g.log).drop (pre.length + 1)) r
    rw [← hentries] at this
    exact (List.mem_filter.1 this).1
  · have hread := Chunk.readRecord_iff debug hbytes htable hr
    unfold ChunkedWal.loadRecord ClosedChunkReader.readRecord ChunkedWal.reader
    simp only [hl]
    exact ⟨hread, hread⟩

/-- **Memory and disk agree** in every run in which nothing is sent after the shutdown: every chunk
is backed, each `Write` that waits says where it will end, and a closed chunk can be read once it is
written. -/
theorem runs_backed (hr : RunsOf step Carries (System.fresh A C Cb) ls sys)
    (hs : sys.session = some s) (hc : s.client = .idle w) :
    (∀ x ∈ w.loaded, ∃ rs, Backed sys.fs sys.log s x.1 x.2 rs) ∧
    (∀ pre q post, s.outstanding = pre ++ .write q :: post →
      q.uptoOffset = s.endOf sys.fs (pre ++ [.write q])) ∧
    ∀ debug id c, w.closed.lookup id = some c → bytesFor c.chunk.f s.unwritten = [] →
      ∀ i < c.chunk.recordsCount, ∃ seg r, c.chunk.recordSegment i = .ok seg ∧
        (r, id, seg) ∈ sys.log ∧
        w.loadRecord A debug sys.fs id seg = .ok r := by
  obtain ⟨g, hg⟩ := (runs_agreed hr).within s hs
  have hagree := hg.idle w hc
  refine ⟨fun x hx => ?_, hg.flowing.uptos, fun debug id c hl hnone i hi => ?_⟩
  · rw [← hg.log]
    rcases List.mem_cons.1 hx with rfl | hx
    · exact ⟨_, hagree.open.backed (hg.flowing.total _)⟩
    · obtain ⟨p, hp, rfl⟩ := List.mem_map.1 hx
      exact ⟨_, (hagree.closed p hp).2.backed (hg.flowing.total _)⟩
  · obtain ⟨rs, hcount, -, -, hread⟩ := hg.readable hc hl
    rw [hcount] at hi
    obtain ⟨seg, hseg, hmem, hload⟩ := hread i _ (List.getElem?_eq_getElem hi)
    refine ⟨seg, _, hseg, hmem, (hload debug).1.2 ?_⟩
    rw [hnone]
    exact Nat.zero_le _

/-- **A record of a closed chunk can be read** as soon as fewer bytes wait for its file than follow
it there, and not before; all records of the chunk can be read if and only if nothing waits for its
file. -/
theorem runs_readable (hr : RunsOf step Carries (System.fresh A C Cb) ls sys)
    (hs : sys.session = some s) (hc : s.client = .idle w) {id : Nat} {c : ClosedChunk C}
    (hl : w.closed.lookup id = some c) :
    ∃ rs : List (WALRecord A C), c.chunk.recordsCount = rs.length ∧
      inChunk id sys.log = entriesFrom id id rs ∧
      (∀ i r, rs[i]? = some r → ∃ seg, c.chunk.recordSegment i = .ok seg ∧ (r, id, seg) ∈ sys.log ∧
        ∀ debug,
        (w.loadRecord A debug sys.fs id seg = .ok r ∧
          w.reader.readRecord A debug sys.fs id seg = .ok r ↔
          (bytesFor c.chunk.f s.unwritten).length ≤ (encAll (rs.drop (i + 1))).length)) ∧
      ((∀ i r, rs[i]? = some r → ∃ seg, c.chunk.recordSegment i = .ok seg ∧ ∀ debug,
        w.loadRecord A debug sys.fs id seg = .ok r ∧
          w.reader.readRecord A debug sys.fs id seg = .ok r) ↔
          bytesFor c.chunk.f s.unwritten = []) := by
  obtain ⟨g, hg⟩ := (runs_agreed hr).within s hs
  obtain ⟨rs, hcount, hlog, hbytes, hread⟩ := hg.readable hc hl
  refine ⟨rs, hcount, hlog, fun i r hi => ?_, fun h => ?_, fun hnone i r hi => ?_⟩
  · obtain ⟨seg, hseg, hmem, hload⟩ := hread i r hi
    exact ⟨seg, hseg, hmem, fun debug => by rw [(hload debug).1, (hload debug).2, and_self]⟩
  · -- the last record needs all of the file
    rcases List.eq_nil_or_concat rs with rfl | ⟨rs', r, rfl⟩
    · exact (List.append_eq_nil_iff.1 hbytes).2
    · have hi : (rs'.concat r)[rs'.length]? = some r := by simp
      obtain ⟨seg, hseg, hload⟩ := h _ r hi
      obtain ⟨seg', hseg', -, hload'⟩ := hread _ r hi
      obtain rfl := Except.ok.inj (hseg.symm.trans hseg')
      have := (hload' fun _ => "").1.1 (hload fun _ => "").1
      rw [List.drop_eq_nil_of_le (by simp)] at this
      exact List.length_eq_zero_iff.1 (Nat.le_zero.1 this)
  · obtain ⟨seg, hseg, -, hload⟩ := hread i r hi
    refine ⟨seg, hseg, fun debug => ⟨(hload debug).1.2 ?_, (hload debug).2.2 ?_⟩⟩ <;> rw [hnone] <;>
      exact Nat.zero_le _

end System

/-! ## Runs of the register -/

namespace System

open Register

/-- A chunk is closed, and the worker has written nothing of what was sent. -/
def rotatedRun : List Register.Step := fullRun ++ rotation (List.replicate 10 go)

/-- The worker has written the closed chunk. -/
def writtenRun : List Register.Step :=
  rotatedRun ++ [.recv, .exec { writes := [.ok 5], calls := [.ok ()], user := [none] }, .effect]

theorem writtenRun_ends : ∃ (sys : System Put Register Nat) (s : Session Put Register Nat)
    (w : ChunkedWal Register) (c : ClosedChunk Register),
    RunsOf step Carries (System.fresh Put Register Nat) writtenRun sys ∧ sys.session = some s ∧
    s.client = .idle w ∧ w.closed.lookup 0 = some c ∧ c.chunk.recordsCount = 2 ∧
    bytesFor c.chunk.f s.unwritten = [] := by
  have h : ((runs (guarded Carries step) (System.fresh Put Register Nat) writtenRun).any fun sys =>
      sys.session.any fun s => s.client.wal?.any fun w => (w.closed.lookup 0).any fun c =>
        decide (c.chunk.recordsCount = 2 ∧ bytesFor c.chunk.f s.unwritten = [])) = true :=
          by decide +kernel
  obtain ⟨sys, hsys, h⟩ := (Option.any_eq_true _ _).1 h
  obtain ⟨s, hs, h⟩ := (Option.any_eq_true _ _).1 h
  obtain ⟨w, hw, h⟩ := (Option.any_eq_true _ _).1 h
  obtain ⟨c, hc, h⟩ := (Option.any_eq_true _ _).1 h
  obtain ⟨hn, hnone⟩ := of_decide_eq_true h
  exact ⟨sys, s, w, c, RunsOf.of_guarded hsys, hs, Client.wal?_eq hw, hc, hn, hnone⟩

theorem runs_backed_written :
    ∃ (sys : System Put Register Nat) (w : ChunkedWal Register) (c : ClosedChunk Register),
    runs step (System.fresh Put Register Nat) writtenRun = some sys ∧ w.closed.lookup 0 = some c ∧
    c.chunk.recordsCount = 2 ∧ ∀ i < 2, ∃ seg r, c.chunk.recordSegment i = .ok seg ∧
      (r, 0, seg) ∈ sys.log ∧
      w.loadRecord Put (fun _ => "") sys.fs 0 seg = .ok r := by
  obtain ⟨sys, s, w, c, hr, hs, hc, hl, hn, hnone⟩ := writtenRun_ends
  obtain ⟨-, -, hread⟩ := runs_backed hr hs hc
  refine ⟨sys, w, c, hr.runs, hl, hn, fun i hi => ?_⟩
  exact hread _ 0 c hl hnone i (hn ▸ hi)

theorem runs_readable_written : ∃ (sys : System Put Register Nat) (w : ChunkedWal Register)
    (c : ClosedChunk Register) (rs : List (WALRecord Put Register)),
    runs step (System.fresh Put Register Nat) writtenRun = some sys ∧ w.closed.lookup 0 = some c ∧
    rs.length = 2 ∧ ∀ i r, rs[i]? = some r → ∃ seg, c.chunk.recordSegment i = .ok seg ∧ ∀ debug,
      w.loadRecord Put debug sys.fs 0 seg = .ok r ∧ w.reader.readRecord Put debug sys.fs 0 seg =
        .ok r := by
  obtain ⟨sys, s, w, c, hr, hs, hc, hl, hn, hnone⟩ := writtenRun_ends
  obtain ⟨rs, hcount, -, -, hall⟩ := runs_readable hr hs hc hl
  exact ⟨sys, w, c, rs, hr.runs, hl, hcount.symm.trans hn, hall.2 hnone⟩

/-- **A closed chunk** that the worker has not written cannot be read. -/
theorem closed_unreadable : ¬ ∀ (ls : List Register.Step) (sys : System Put Register Nat)
    (s : Session Put Register Nat) (w : ChunkedWal Register) (id : Nat)
      (c : ClosedChunk Register) (i : Nat)
    (seg : Segment), RunsOf step Carries (System.fresh Put Register Nat) ls sys →
      sys.session = some s →
    s.client = .idle w → w.closed.lookup id = some c → c.chunk.recordSegment i = .ok seg →
    ∃ r, w.loadRecord Put (fun _ => "") sys.fs id seg = .ok r := by
  intro hall
  have h : ((runs (guarded Carries step) (System.fresh Put Register Nat) rotatedRun).any fun sys =>
      sys.session.any fun s => s.client.wal?.any fun w => (w.closed.lookup 0).any fun c =>
        (c.chunk.recordSegment 1).toOption.any fun seg =>
          (w.loadRecord Put (fun _ => "") sys.fs 0 seg).toOption.isNone) = true := by decide +kernel
  obtain ⟨sys, hsys, h⟩ := (Option.any_eq_true _ _).1 h
  obtain ⟨s, hs, h⟩ := (Option.any_eq_true _ _).1 h
  obtain ⟨w, hw, h⟩ := (Option.any_eq_true _ _).1 h
  obtain ⟨c, hc, h⟩ := (Option.any_eq_true _ _).1 h
  obtain ⟨seg, hseg, h⟩ := (Option.any_eq_true _ _).1 h
  have hseg : c.chunk.recordSegment 1 = .ok seg := by
    rcases hx : c.chunk.recordSegment 1 with e | x
    · rw [hx] at hseg
      cases hseg
    · rw [hx] at hseg
      cases hseg
      rfl
  obtain ⟨r, hr⟩ := hall _ sys s w 0 c 1 seg (RunsOf.of_guarded hsys) hs (Client.wal?_eq hw) hc hseg
  rw [hr] at h
  cases h

/-- A shutdown in which the worker writes, synchronizes and stops. -/
def shutdownRun : List Step :=
  [start Register.config] ++ puts 7 ++ [.call .shutdown, go, go, go, .recv,
    .exec { writes := [.ok 5], calls := [.ok ()], user := [none] }] ++
    List.replicate 6 .effect ++ [.recv, .releaseAll, .dropReceiver, go, go, go]

/-- A record is sent behind the shutdown. -/
def lateSendRun : List Register.Step :=
  shutdownRun ++ puts 9 ++ [.call (.sendPending false none), go, go]

/-- **A request refused** behind the shutdown takes its bytes with it, and the index goes on
counting them. -/
theorem late_send_unbacked : ¬ ∀ (ls : List Register.Step) (sys : System Put Register Nat)
    (s : Session Put Register Nat) (w : ChunkedWal Register),
    runs step (System.fresh Put Register Nat) ls = some sys → sys.session = some s →
      s.client = .idle w →
    s.failing = false → (∀ l ∈ ls, ∀ c, l ≠ .call (.tryCloseFullChunk c)) →
    ∀ x ∈ w.loaded, ∃ rs, Backed sys.fs sys.log s x.1 x.2 rs := by
  intro hall
  have h : ((runs step (System.fresh Put Register Nat) lateSendRun).any fun sys =>
      sys.session.any fun s => s.client.wal?.any fun w =>
        decide (s.failing = false ∧ w.open.chunk.recordsCount = 3 ∧
          w.open.chunk.recordSegment 2 = .ok { offset := 18, size := 5 } ∧
          w.open.chunk.globalStart = 0 ∧
          ((sys.fs.file w.open.chunk.f).data ++ bytesFor w.open.chunk.f s.unwritten ++
            w.open.pendingData).length = 18)) = true := by decide +kernel
  obtain ⟨sys, hsys, h⟩ := (Option.any_eq_true _ _).1 h
  obtain ⟨s, hs, h⟩ := (Option.any_eq_true _ _).1 h
  obtain ⟨w, hw, h⟩ := (Option.any_eq_true _ _).1 h
  obtain ⟨hf, hn, hseg, hstart, hlen⟩ := of_decide_eq_true h
  have hno : ∀ l ∈ lateSendRun, ∀ c, l ≠ .call (.tryCloseFullChunk c) := by
    simp [lateSendRun, shutdownRun, start, puts, put, go]
  obtain ⟨rs, hb⟩ := hall _ sys s w hsys hs (Client.wal?_eq hw) hf hno
    (w.open.chunk, w.open.pendingData) List.mem_cons_self
  have hi : 2 < rs.length := by
    have := hb.counted
    simp only at this
    omega
  obtain ⟨seg, hseg', -, -, hslice⟩ := hb.segment 2 _ (List.getElem?_eq_getElem hi)
  obtain rfl := Except.ok.inj (hseg.symm.trans hseg')
  have hbytes := congrArg List.length hb.bytes
  simp only [hstart, Nat.sub_zero] at hslice hbytes
  rw [List.drop_eq_nil_of_le (by rw [← hbytes, hlen]), List.take_nil] at hslice
  generalize rs[2] = r at hslice
  cases r with
  | action p => cases hslice
  | checkpoint c =>
    have := length_enc_checkpoint (A := Put) c
    rw [← hslice] at this
    cases this

end System

end Wal

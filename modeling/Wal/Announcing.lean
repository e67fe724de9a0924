import Wal.BitFlip
import Wal.Steering

/-!
# The notifications of a session

The file that a session begins with has the checkpoint of its predecessor at its head, if the state
machine restores itself from a checkpoint (`OpenRun.marked`). So a session begins `Steered`, and
what it announces is in order, complete and true (`session_notifies`). A checkpoint that cannot be
encoded is announced but not stored.
-/

namespace Wal

open Lib

/-! ## The first file -/

section
variable {A C : Type}

/-- The state machine restores itself from a checkpoint. -/
def StateMachine.Restores (sm : StateMachine A C) : Prop :=
  ∀ st c id seg st', sm.apply st (.checkpoint c) id seg = .ok st' → sm.checkpoint st' = c

/-- The record at the head of a chunk, behind others, is a checkpoint of what they amount to: it
changes nothing in the checkpoint. -/
def StateMachine.Rotated (sm : StateMachine A C) (st : sm.State) (log : List (LogEntry A C)) :
    Prop :=
  ∀ pre r id seg post, log = pre ++ (r, id, seg) :: post → pre ≠ [] → seg.offset = id →
    ∃ c, r = .checkpoint c ∧ ∀ st₁ st₂, sm.run st pre = .ok st₁ → sm.apply st₁ r id seg = .ok st₂ →
      sm.checkpoint st₂ = sm.checkpoint st₁

end

section
variable {A C : Type} [Crc32fast] [Encode A] [Decode A] [Encode C] [Decode C]
    {sm : StateMachine A C}
  {config : Config}

omit [Encode C] in
/-- The last closed chunk has the checkpoint of the state. -/
theorem Reads.checkpointed {file : Nat → Bytes} {ids : List Nat} {acc acc' : Replay sm}
    {c : Option Nat} (h : Reads config file ids acc acc' c) (ho : acc.Ordered)
    (hc : ∀ p ∈ acc.closed.getLast?, p.2.state = sm.checkpoint acc.state) :
    ∀ p ∈ acc'.closed.getLast?, p.2.state = sm.checkpoint acc'.state := by
  induction h with
  | nil => exact hc
  | @whole id ids acc st acc' c hp hf hr ha h ih =>
    refine ih (ho.next hp hr) fun p hp' => ?_
    rw [Replay.next_closed ho hp, List.getLast?_concat] at hp'
    cases hp'
    rfl
  | @cut id acc st hp ht hr ha =>
    intro p hp'
    rw [Replay.next_closed ho hp, List.getLast?_concat] at hp'
    cases hp'
    rfl

variable [WALRecord.LawfulAction A] [LawfulCodec C]

/-- **The file that a session begins with** has the checkpoint of its predecessor at its head. -/
theorem OpenRun.marked {st : sm.State} {fs : Fs} {x : OpenState A C} {o : Opened sm}
    (h : OpenRun config st (OpenState.init fs) (.ok o) x) (hsp : SpeltFs A C fs)
    (hres : sm.Restores) (hrot : sm.Rotated st (x.applied ++ x.created)) (c : C)
    (hc : o.entry.onPersisted = some c) :
    enc (.checkpoint c : WALRecord A C) <+: (x.fs.file o.entry.f).data := by
  have hagrees := h.agrees hsp
  cases h with
  | @reopened k s₁ acc _ oc closed hv ht hr hl =>
    obtain ⟨cut, hreads, -, -, happ, hcre⟩ := ht.replayed hr
    have hlog : x.applied ++ x.created = k.reverse.flatMap fun i =>
      entriesIn A C (fs.file i).data i := by
      rw [happ, hcre]
      simp [OpenState.init]
    rw [hlog] at hrot
    unfold reopenLastClosed at hl
    split at hl
    · cases hl
    rename_i id last hlast
    split at hl
    · cases hl
    cases hl
    obtain ⟨hord, cs, hcs, hids, -⟩ := hreads.closed (Replay.start_ordered st)
    rw [show (Replay.start sm st).closed = [] from rfl, List.nil_append] at hcs
    -- The last file, and those in front of it.
    have hk : k.reverse = (k.reverse).dropLast ++ [id] := by
      have : (k.reverse).getLast? = some id := by
        rw [← hids, ← hcs, List.getLast?_map, hlast]
        rfl
      exact (List.dropLast_append_getLast? _ this).symm
    generalize (k.reverse).dropLast = older at hk
    rw [hk] at hreads hrot hlog
    obtain ⟨acc₁, h₁, h₂⟩ := hreads.split (by simp)
    have ho₁ := (h₁.closed (Replay.start_ordered st)).1
    obtain ⟨t, st₂, hp, hrec, ha, rfl⟩ : ∃ t st₂, acc₁.Follows id ∧
      recordsIn A C (fs.file id).data id ≠ [] ∧
        sm.run acc₁.state (entriesIn A C (fs.file id).data id) = .ok st₂ ∧
        acc = acc₁.next (fs.file id).data id t st₂ := by
      cases h₂ with
      | whole hp hf hrec ha h =>
        cases h
        exact ⟨_, _, hp, hrec, ha, rfl⟩
      | cut hp ht hrec ha => exact ⟨_, _, hp, hrec, ha, rfl⟩
    rw [Replay.next_closed ho₁ hp] at hlast
    rw [List.getLast?_concat] at hlast
    cases hlast
    have hclosed : (acc₁.next (fs.file id).data id t st₂).closed.dropLast = acc₁.closed := by
      rw [Replay.next_closed ho₁ hp, List.dropLast_concat]
    have hc : acc₁.closed.getLast?.map (fun p => p.2.state) = some c := by
      rw [← hclosed]
      exact hc
    obtain ⟨p, hp', rfl⟩ := Option.map_eq_some_iff.1 hc
    rw [h₁.checkpointed (Replay.start_ordered st) (by simp [Replay.start]) p hp']
    -- The first record of the last file.
    obtain ⟨rs, hrs, hrecs, -⟩ := (hsp id).reads id
    have hentries : entriesIn A C (fs.file id).data id = entriesFrom id id rs :=
      entriesIn_of id hrecs
    obtain ⟨r, rs', rfl⟩ : ∃ r rs', rs = r :: rs' := by
      cases rs with
      | nil =>
        refine absurd ?_ hrec
        rw [hrecs]
        rfl
      | cons r rs' => exact ⟨r, rs', rfl⟩
    have hsplit : (older ++ [id]).flatMap (fun i => entriesIn A C (fs.file i).data i) =
        older.flatMap (fun i => entriesIn A C (fs.file i).data i) ++
          (r, id, { offset := id, size := (enc r).length }) ::
          entriesFrom id (id + (enc r).length) rs' := by
      rw [List.flatMap_append, List.flatMap_singleton, hentries]
      rfl
    have hpre : older.flatMap (fun i => entriesIn A C (fs.file i).data i) ≠ [] := by
      intro hnil
      cases older with
      | nil =>
        cases h₁
        cases hp'
      | cons i older =>
        have hi := h₁.records i List.mem_cons_self
        rw [List.flatMap_cons, List.append_eq_nil_iff] at hnil
        exact hi (List.map_eq_nil_iff.1 hnil.1)
    obtain ⟨c', rfl, hsame⟩ := hrot _ _ _ _ _ hsplit hpre rfl
    have hrun : sm.run st (older.flatMap fun i => entriesIn A C (fs.file i).data i) =
      .ok acc₁.state := h₁.run
    rw [hentries] at ha
    obtain ⟨st₁, hst₁⟩ : ∃ st₁, sm.apply acc₁.state (.checkpoint c') id
        { offset := id, size := (enc (.checkpoint c' : WALRecord A C)).length } = .ok st₁ := by
      rcases hst : sm.apply acc₁.state (.checkpoint c') id
        { offset := id, size := (enc (.checkpoint c' : WALRecord A C)).length } with m | st₁
      · simp [entriesFrom, StateMachine.run, hst] at ha
      · exact ⟨st₁, rfl⟩
    have hcheck : sm.checkpoint acc₁.state = c' :=
      (hsame _ _ hrun hst₁).symm.trans (hres _ _ _ _ _ hst₁)
    have hbytes := hagrees.open.bytes
    have hof : recordsOf id (x.applied ++ x.created) = .checkpoint c' :: rs' := by
      have hnodup := hreads.increasing.1.imp Nat.ne_of_lt
      rw [hlog, recordsOf, inChunk_flatMap hnodup, if_pos (by simp), hentries, entriesFrom_records]
    have hbytes : (x.fs.file id).data ++ [] = encAll (recordsOf id (x.applied ++ x.created)) :=
      hbytes
    rw [hof, List.append_nil, encAll_cons] at hbytes
    show _ <+: (x.fs.file id).data
    rw [hbytes, hcheck]
    exact List.prefix_append _ _
  | @created k s₁ acc s₂ n hv ht hr hl hm he =>
    obtain ⟨cut, hreads, -⟩ := ht.replayed hr
    obtain ⟨p, hp, rfl⟩ := Option.map_eq_some_iff.1 hc
    rw [hreads.checkpointed (Replay.start_ordered st) (by simp [Replay.start]) p hp]
    show _ <+: ((((s₂.fs.createNew acc.end_).syncDir).append acc.end_ (enc acc.head)).file
      acc.end_).data
    rw [Fs.append_file_self, Fs.syncDir_file, Fs.createNew_file_self]
    exact List.prefix_refl _

/-- Where the heading of a session begins. -/
def OpenState.heading (x : OpenState A C) (o : Opened sm) : Heading C where
  cur := o.entry.f
  total f := (x.fs.file f).data
  place := { synced := false, awaits := none }
  turns := []

theorem Steered.started {Cb : Type} {st : sm.State} {fs : Fs} {x : OpenState A C} {o : Opened sm}
    (h : OpenRun config st (OpenState.init fs) (.ok o) x) (hsp : SpeltFs A C fs)
    (hmark : ∀ c, o.entry.onPersisted = some c →
      enc (.checkpoint c : WALRecord A C) <+: (x.fs.file o.entry.f).data) :
    Steered o.entry x.fs (System.startSession config o : Session A C Cb) (x.heading o) := by
  have hagrees := h.agrees hsp
  have hentry : o.entry.f = o.wal.open.chunk.f := by cases h <;> rfl
  have hnew : o.entry.startingOffset = o.wal.open.chunk.globalStart := by cases h <;> rfl
  have hstart : o.wal.open.chunk.globalStart = o.entry.f := by
    rw [hentry]
    exact Chunk.globalStart_of hagrees.open.table
  refine ⟨⟨fun f => (x.fs.file f).data, o.entry, x.heading o, fun f => (List.append_nil _).symm,
    rfl, ?_, rfl⟩, fun w hw => ?_, fun op p hp => ?_, rfl, rfl, by simp [System.startSession]⟩
  · refine ⟨?_, rfl, fun f => (List.append_nil _).symm, rfl⟩
    have hsplit : ∀ {pre post : List (Effect C Cb)} {e : Effect C Cb}, [] ≠ pre ++ e :: post := by
      intro pre post e hs
      cases pre <;> cases hs
    refine ⟨hnew.trans hstart, rfl, fun hn => ⟨rfl, hn⟩, fun c hc => ?_, fun _ c hc => ?_,
      fun n hn => ?_, fun ht => ?_, .nil, fun pre n c post hs => ?_, fun pre f post hs =>
        ?_, fun pre f bs post hs => ?_,
      fun t ht => ?_⟩
    · cases hc
    · exact (hmark c hc).trans (by rw [bytesBehind]; exact List.prefix_append _ _)
    · cases hn
    · cases ht
    · exact absurd hs hsplit
    · exact absurd hs hsplit
    · exact absurd hs hsplit
    · cases ht
  · cases hw
    refine ⟨h.chained, hstart, ?_, rfl, fun p hp hle => ?_, .nil, fun t ht => ?_⟩
    · have := hagrees.open.globalEnd
      rw [this]
      show o.wal.open.chunk.f + _ = o.entry.f +
        ((x.fs.file o.entry.f).data ++ o.wal.open.pendingData).length
      rw [hentry]
      rfl
    · have hlt : p.1 < o.wal.open.chunk.f := (hagrees.closed p hp).1
      omega
    · cases ht
  · cases hp

end

/-! ## What a session announces -/

section
variable {C Cb : Type} {es es' : List (Effect C Cb)}

theorem mem_turnsIn {cur : Nat} {t : Nat × Nat} (h : t ∈ turnsIn cur es) :
    ∃ pre post, es = pre ++ .appendFile t.2 :: post ∧ fileBehind cur pre = t.1 := by
  induction es generalizing cur with
  | nil => cases h
  | cons e es ih =>
    have later : ∀ {cur' : Nat}, fileBehind cur [e] = cur' → t ∈ turnsIn cur' es →
        ∃ pre post, e :: es = pre ++ .appendFile t.2 :: post ∧ fileBehind cur pre = t.1 := by
      intro cur' hcur ht
      obtain ⟨pre, post, rfl, hpre⟩ := ih ht
      refine ⟨e :: pre, post, rfl, ?_⟩
      rw [← List.singleton_append, fileBehind_append, hcur]
      exact hpre
    cases e with
    | appendFile f =>
      rcases List.mem_cons.1 h with rfl | h
      · exact ⟨[], es, rfl, rfl⟩
      · exact later rfl h
    | _ => exact later rfl h

/-- The file that is written to was announced by an `AppendFile`, if it is not the first. -/
theorem exists_turn {cur : Nat} (h : fileBehind cur es ≠ cur) :
    ∃ f, (f, fileBehind cur es) ∈ turnsIn cur es := by
  induction es generalizing cur with
  | nil => exact absurd rfl h
  | cons e es ih =>
    cases e with
    | appendFile f =>
      by_cases hf : fileBehind f es = f
      · refine ⟨cur, ?_⟩
        show (cur, fileBehind f es) ∈ (cur, f) :: turnsIn f es
        rw [hf]
        exact List.mem_cons_self
      · obtain ⟨f', hf'⟩ := ih hf
        exact ⟨f', List.mem_cons_of_mem _ hf'⟩
    | _ => exact ih h

variable {A : Type} [Crc32fast] [Encode A] [Encode C]

theorem Follows.turns {g g' : Heading C} {rs : List (WorkerRequest C Cb)} (h : Follows A g rs g') :
    g.turns ⊆ g'.turns := by
  induction rs generalizing g with
  | nil =>
    obtain rfl : g' = g := h
    exact List.Subset.refl _
  | cons r rs ih =>
    obtain ⟨-, h⟩ := h
    refine List.Subset.trans ?_ (ih h)
    cases r with
    | appendFile e => exact List.subset_append_left _ _
    | _ => exact List.Subset.refl _

omit [Crc32fast] [Encode A] [Encode C] in
/-- No two files turn to the same one. -/
theorem ClosedFollowed.unique {first : Nat} {w : ChunkedWal C} {g : Heading C}
    (h : ClosedFollowed first w g) {t t' : Nat × Nat} (ht : t ∈ g.turns) (ht' : t' ∈ g.turns)
    (he : t.2 = t'.2) : t = t' := by
  have hnodup : (g.turns.map (·.2)).Nodup := by
    refine List.pairwise_map.2 (h.increasing.imp fun hlt => Nat.ne_of_lt hlt)
  exact List.inj_on_of_nodup_map hnodup ht ht' he

variable (A) in
/-- **What a session announces** that began with the WAL `w₀`. Notifications come in the order of
the chunks. Each is true of the file as it is at that moment, and has the checkpoint at the head of
the file, unless no chunk is in front of it. Every file but the first is written to only after its
predecessor was announced up to its end, which is where the file begins; the predecessors are the
chunks that were closed. -/
structure Notifies (w₀ : ChunkedWal C) (s : Session A C Cb) (fs : Fs) : Prop where
  ordered : (notes s.trace).Pairwise fun a b =>
    a.1.startingOffset ≤ b.1.startingOffset ∧ a.1.syncedOffset ≤ b.1.syncedOffset
  announced : ∀ b n c es stop held, s.worker = .exec b (.persisted n c :: es) stop held →
    n.syncedOffset = n.startingOffset + (fs.file n.startingOffset).data.length ∧
    (∀ x, c = some x → enc (.checkpoint x : WALRecord A C) <+: (fs.file n.startingOffset).data) ∧
    (c = none → n.startingOffset = w₀.open.chunk.f ∧ w₀.closed = [])
  before : ∀ pre f bs post, s.trace = pre ++ .append f bs :: post → f ≠ w₀.open.chunk.f →
    ∃ n ∈ notes pre, n.1.syncedOffset = f
  closed : ∀ w, s.client = .idle w → ∀ p ∈ w.closed, w₀.open.chunk.f ≤ p.1 →
    ∀ pre bs post, s.trace = pre ++ .append p.2.chunk.globalEnd bs :: post →
      ∃ n ∈ notes pre, n.1.startingOffset = p.1 ∧ n.1.syncedOffset = p.2.chunk.globalEnd
  complete : ∀ w, s.client = .idle w → ∀ p ∈ w.closed, w₀.open.chunk.f ≤ p.1 →
    s.executing = [] → s.outstanding = [] →
      ∃ n ∈ notes s.trace, n.1.startingOffset = p.1 ∧ n.1.syncedOffset = p.2.chunk.globalEnd

variable {first entry : FileEntry C} {fs : Fs} {s : Session A C Cb} {g g₀ : Heading C}
    {base : Nat → Bytes}

/-- The turns so far are among those that the client asked for. -/
theorem Way.turns (h : Way first fs s g base entry g₀) {pre post : List (Effect C Cb)}
    (hs : s.trace = pre ++ post) :
    turnsIn first.f pre ⊆ g.turns := by
  refine List.Subset.trans ?_ (Follows.turns h.follows)
  rw [h.steers.turns, hs, List.append_assoc, turnsIn_append]
  exact List.subset_append_left _ _

/-- A turn comes behind the announcement of the file in front of it. -/
theorem Way.turned (h : Way first fs s g base entry g₀) {pre post : List (Effect C Cb)}
    (hs : s.trace = pre ++ post) {t : Nat × Nat} (ht : t ∈ turnsIn first.f pre) :
    ∃ n ∈ notes pre, n.1.startingOffset = t.1 ∧ n.1.syncedOffset = t.2 := by
  obtain ⟨pre₁, post₁, rfl, hcur⟩ := mem_turnsIn ht
  obtain ⟨n, hn, h₁, h₂⟩ := h.steers.story.turned pre₁ t.2 (post₁ ++ post ++ s.executing) (by
    rw [hs]
    simp only [List.append_assoc, List.cons_append])
  refine ⟨n, ?_, h₁.trans hcur, h₂⟩
  rw [notes_append]
  exact List.mem_append_left _ hn

theorem Steered.notifies (h : Steered first fs s g) {w₀ : ChunkedWal C}
    (hf : first.f = w₀.open.chunk.f) (hfirst : first.onPersisted = none → w₀.closed = []) :
    Notifies A w₀ s fs := by
  obtain ⟨base, entry, g₀, hway⟩ := h.way
  have hstory := hway.steers.story
  -- The file of a write, if it is not the first, was turned to in front of it.
  have turn : ∀ {pre f bs post}, s.trace = pre ++ .append f bs :: post → f ≠ first.f →
      ∃ f', (f', f) ∈ turnsIn first.f pre := by
    intro pre f bs post hs hne
    have hf := hstory.placed pre f bs (post ++ s.executing) (by
      rw [hs]
      simp only [List.append_assoc, List.cons_append])
    rw [hf] at hne ⊢
    exact exists_turn hne
  refine ⟨?_, fun b n c es stop held hw => ?_, fun pre f bs post hs hne => ?_,
    fun w hi p hp hle pre bs post hs => ?_, fun w hi p hp hle he ho => ?_⟩
  · have := hstory.ordered
    rw [notes_append, List.pairwise_append] at this
    exact this.1
  · have he : s.executing = .persisted n c :: es := by simp [Session.executing, hw]
    have := hstory.exact s.trace n c es (by rw [he])
    rw [← hway.data] at this
    refine ⟨this.length, this.checkpoint, fun hn => ?_⟩
    obtain ⟨h₁, h₂⟩ := this.first hn
    exact ⟨h₁.trans hf, hfirst h₂⟩
  · obtain ⟨f', hf'⟩ := turn hs (hf ▸ hne)
    obtain ⟨n, hn, -, h₂⟩ := hway.turned hs hf'
    exact ⟨n, hn, h₂⟩
  · have hfollowed := h.idle w hi
    have hturn := hfollowed.closed p hp (hf ▸ hle)
    obtain ⟨first', hl⟩ := hfollowed.chained.linked
    obtain ⟨hkey, hfilled⟩ := hl.keys p hp
    have hlt := hfilled.lt
    obtain ⟨f', hf'⟩ := turn hs (by omega)
    obtain ⟨n, hn, h₁, h₂⟩ := hway.turned hs hf'
    have := hfollowed.unique (hway.turns hs hf') hturn rfl
    cases this
    exact ⟨n, hn, h₁, h₂⟩
  · have hfollowed := h.idle w hi
    have hturn := hfollowed.closed p hp (hf ▸ hle)
    obtain rfl : g = g₀ := by
      have := hway.follows
      rw [ho] at this
      exact this
    rw [hway.steers.turns, he, List.append_nil] at hturn
    exact hway.turned (List.append_nil _).symm hturn

end

namespace System

section
variable {A C Cb : Type} [Crc32fast] [Encode A] [Decode A] [Encode C] [Decode C]
  {sm : StateMachine A C} [WALRecord.LawfulAction A] [LawfulCodec C]

/-- Steps inside of a session that `Carries` allows. -/
def Undisturbed (sys : System A C Cb) (l : Label Cb sm) : Prop :=
  Carries sys l ∧ (Inside l = true ∨ ∃ op, l = .call op)

/-- **The notifications of a session** are complete, ordered and true: in every state that it
reaches without a failing batch, as long as the checkpoint of each rotation can be encoded. -/
theorem session_notifies {config : Config} {st : sm.State} {sys₀ sys₁ sys : System A C Cb}
    {ls : List (Label Cb sm)} {s₁ s : Session A C Cb} {w₀ : ChunkedWal C}
    (hopen : step sys₀ (.open config st) = some sys₁) (hs₁ : sys₁.session = some s₁)
    (hw : s₁.client = .idle w₀) (hsp : SpeltFs A C sys₀.fs) (hres : sm.Restores)
    (hrot : sm.Rotated st sys₁.log) (hr : RunsOf step Undisturbed sys₁ ls sys)
    (hs : sys.session = some s) : Notifies A w₀ s sys.fs := by
  have hne : ∀ rec : WALRecord A C, Encodes rec → enc rec ≠ [] :=
    fun rec hr => LawfulRecord.enc_ne_nil hr
  cases step_move hopen with
  | notOpened hn => exact absurd (hn.symm.trans hs₁) (by simp)
  | @opened config st o x hs₀ ho =>
    cases hs₁
    cases hw
    obtain ⟨r, x', hrun, heq⟩ := openLocked_run config st (OpenState.init sys₀.fs)
    have := heq.symm.trans ho
    rcases r with e | o'
    · cases this
    cases this
    have hstart : Steered o.entry x.fs (startSession config o : Session A C Cb) (x.heading o) :=
      .started hrun hsp (hrun.marked hsp hres hrot)
    have hf : o.entry.f = o.wal.open.chunk.f := by cases hrun <;> rfl
    have hfirst : o.entry.onPersisted = none → o.wal.closed = [] := by
      intro hn
      have hn : o.wal.closed.getLast?.map (fun p => p.2.state) = none := by
        cases hrun <;> exact hn
      exact List.getLast?_eq_none_iff.1 (Option.map_eq_none_iff.1 hn)
    have hnone : ∀ {P : Session A C Cb → Prop}, sys₀.InSession P := by
      intro P s hs
      rw [hs₀] at hs
      cases hs
    have hready := ready_step _ _ _ hnone hopen
    have hbal := balanced_step _ _ _ hnone hnone hopen
    have hnum := numbered_step _ _ _ hnone hnone hopen
    obtain ⟨-, -, -, s', g', hs', hg'⟩ :=
      hr.invariant (I := fun sys => sys.InSession Session.Ready ∧
      sys.InSession Session.Balanced ∧ sys.InSession Session.Numbered ∧
      ∃ s g, sys.session = some s ∧ Steered o.entry sys.fs s g) (by
        rintro sys l sys' ⟨h1, h2, h3, s, g, hs, hg⟩ ⟨hok, hl⟩ hstep
        obtain ⟨s', g', hs', hg'⟩ := steered_step hne hs (h1 s hs) (h3 s hs) hg hl hok hstep
        exact ⟨ready_step _ _ _ h1 hstep, balanced_step _ _ _ h1 h2 hstep,
          numbered_step _ _ _ h2 h3 hstep, s', g', hs', hg'⟩) ⟨hready, hbal, hnum, _, _, rfl,
            hstart⟩
    cases hs'.symm.trans hs
    exact hg'.notifies hf hfirst

end

end System

/-! ## Runs of the register -/

namespace System

section
variable {A C Cb : Type} [Crc32fast] [Encode A] [Encode C] {sm : StateMachine A C}

instance (l : Label Cb sm) : Decidable (∃ op, l = .call op) :=
  match l with
  | .call op => .isTrue ⟨op, rfl⟩
  | .open .. | .openCrash .. | .crash _ | .drop | .client _ | .dropReceiver | .recv
      | .collect | .exec _
    | .effect | .releaseAll | .fail => .isFalse (by simp)

instance (sys : System A C Cb) (l : Label Cb sm) : Decidable (Undisturbed sys l) :=
  inferInstanceAs (Decidable (Carries sys l ∧ (Inside l = true ∨ ∃ op, l = .call op)))

end

section
open Register

/-- A chunk is closed and announced, and so is the checkpoint of the next one. -/
def notifiedRun : List Register.Step :=
  puts 1 ++ rotation (List.replicate 10 go) ++ sends true ++
    [.recv, .collect, .exec { writes := [.ok 5], calls := [.ok ()], user := [none] }] ++
    List.replicate 7 .effect ++
    [.recv, .collect, .exec { writes := [.ok 100], calls := [.ok (), .ok ()], user := [none] }] ++
    List.replicate 7 .effect

/-- The process dies when the worker has written all of that. -/
def closedRun : List Register.Step :=
  start twoRecords :: notifiedRun ++ [.crash fun i => some (if i = 0 then (18, 18) else (13, 13))]

/-- The next session goes on behind a closed chunk. -/
theorem session_notifies_reopened : ∃ (sys : System Put Register Nat) (s : Session Put Register Nat)
    (w₀ : ChunkedWal Register),
    runs step (System.fresh Put Register Nat) (closedRun ++ start twoRecords :: notifiedRun)
      = some sys ∧
    sys.session = some s ∧ w₀.closed.map (·.1) = [0] ∧
    (notes s.trace).map (fun n => (n.1.syncedOffset, n.2)) =
      [(36, some { value := 1 }), (49, some { value := 1 })] ∧
    Notifies Put w₀ s sys.fs := by
  have h : ((runs (guarded Carries step) (System.fresh Put Register Nat) closedRun).any fun sys₀ =>
      (step sys₀ (start twoRecords)).any fun sys₁ =>
        (sys₁.session.any fun s₁ => s₁.client.wal?.any fun w₀ =>
          decide (w₀.closed.map (·.1) = [0])) &&
        decide (sys₁.log = [(.checkpoint { value := 0 }, 0, { offset := 0, size := 13 }),
          (.action { value := 1 }, 0, { offset := 13, size := 5 }),
          (.checkpoint { value := 1 }, 18, { offset := 18, size := 13 })]) &&
        (runs (guarded Undisturbed step) sys₁ notifiedRun).any fun sys => sys.session.any fun s =>
          decide ((notes s.trace).map (fun n => (n.1.syncedOffset, n.2)) =
            [(36, some { value := 1 }), (49, some { value := 1 })])) = true := by decide +kernel
  obtain ⟨sys₀, hsys₀, h⟩ := (Option.any_eq_true _ _).1 h
  obtain ⟨sys₁, hopen, h⟩ := (Option.any_eq_true _ _).1 h
  simp only [Bool.and_eq_true, decide_eq_true_eq] at h
  obtain ⟨⟨h₁, hlog⟩, h⟩ := h
  obtain ⟨s₁, hs₁, h₁⟩ := (Option.any_eq_true _ _).1 h₁
  obtain ⟨w₀, hw, hclosed⟩ := (Option.any_eq_true _ _).1 h₁
  obtain ⟨sys, hsys, h⟩ := (Option.any_eq_true _ _).1 h
  obtain ⟨s, hs, h⟩ := (Option.any_eq_true _ _).1 h
  have hr₀ := RunsOf.of_guarded hsys₀
  have hr := RunsOf.of_guarded hsys
  refine ⟨sys, s, w₀, ?_, hs, of_decide_eq_true hclosed, of_decide_eq_true h,
    session_notifies hopen hs₁ (Client.wal?_eq hw) (runs_agreed hr₀).spelt ?_ ?_ hr hs⟩
  · rw [runs_append, hr₀.runs, Option.bind_some, runs_cons, hopen]
    exact hr.runs
  · intro st c id seg st' hst
    cases hst
    rfl
  · intro pre r id seg post hl hpre hid
    rw [hlog] at hl
    rcases pre with _ | ⟨a, _ | ⟨b, _ | ⟨c, pre⟩⟩⟩
    · exact absurd rfl hpre
    · cases hl
      cases hid
    · cases hl
      refine ⟨_, rfl, fun st₁ st₂ h₁ h₂ => ?_⟩
      cases h₁
      cases h₂
      rfl
    · simp at hl

end

/-! ## A checkpoint that cannot be encoded -/

end System

/-- A value that is kept below a limit. -/
structure Level where
  value : UInt8
  deriving DecidableEq, Repr

namespace Level

def outOfRange : IoError := .other "out of range"

instance : Encode Level where
  encode l := if l.value = 255 then ([], .error outOfRange) else ([l.value], .ok 1)

def decodeLevel (b : Bytes) : Except IoError Level × Nat :=
  match b with
  | v :: _ => (.ok { value := v }, 1)
  | [] => (.error WALRecord.shortRead, 0)

instance : Decode Level where
  decode := decodeLevel
  consumed_le b := by
    unfold decodeLevel
    split <;> simp

/-- A gauge whose checkpoints may be out of range. -/
def gauge : StateMachine Put Level where
  State := Level
  apply _ r _ _ :=
    match r with
    | .action p => .ok { value := p.value }
    | .checkpoint c => .ok c
  checkpoint := id

end Level

namespace System

open Register Level

/-- The client goes on, and its I/O succeeds. -/
def proceed : Label Nat gauge := .client (.ok ())

/-- The checkpoint of a rotation is out of range; an action follows, and the worker is about to
announce it. -/
def unmarkedRun : List (Label Nat gauge) :=
  [.open twoRecords { value := 0 }, .call (.append (.action { value := 255 })), proceed, proceed,
    .call (.tryCloseFullChunk { value := 255 })] ++ List.replicate 7 proceed ++
    [.call (.append (.action { value := 1 })), proceed, proceed, .call (.sendPending true none),
      proceed, proceed, proceed, .recv, .collect,
      .exec { writes := [.ok 100], calls := [.ok ()], user := [none] }] ++
    List.replicate 7 .effect ++
    [.recv, .exec { writes := [.ok 100], calls := [.ok (), .ok ()], user := [none] }] ++
    List.replicate 3 .effect

/-- The notification that the worker is about to issue, with its checkpoint. -/
def announcing? (s : Session Put Level Nat) :
    Option (WriteBatch Level Nat × ChunkPersisted × Level × List (Effect Level Nat) ×
      Option Stop × Nat) :=
  match s.worker with
  | .exec b (.persisted n (some c) :: es) stop held => some (b, n, c, es, stop, held)
  | _ => none

theorem announcing?_eq {s : Session Put Level Nat} {b : WriteBatch Level Nat} {n : ChunkPersisted}
    {c : Level} {es : List (Effect Level Nat)} {stop : Option Stop} {held : Nat}
    (h : announcing? s = some (b, n, c, es, stop, held)) :
    s.worker = .exec b (.persisted n (some c) :: es) stop held := by
  unfold announcing? at h
  split at h
  · rename_i hw
    cases h
    exact hw
  · cases h

/-- **A checkpoint is announced** that no file holds: the first record of the chunk is an action. -/
theorem checkpoint_unstored : ¬ ∀ (ls : List (Label Nat gauge)) (sys : System Put Level Nat)
    (s : Session Put Level Nat) (b : WriteBatch Level Nat) (n : ChunkPersisted) (c : Level)
    (es : List (Effect Level Nat)) (stop : Option Stop) (held : Nat),
    runs step (System.fresh Put Level Nat) ls = some sys → sys.session = some s →
      s.failing = false →
    s.worker = .exec b (.persisted n (some c) :: es) stop held →
    enc (.checkpoint c : WALRecord Put Level) <+: (sys.fs.file n.startingOffset).data ∨
      (decode (sys.fs.file n.startingOffset).data : Except IoError (WALRecord Put Level) ×
        Nat).1.toOption =
        some (.checkpoint c) := by
  intro hall
  have h : ((runs step (System.fresh Put Level Nat) unmarkedRun).any fun sys =>
      sys.session.any fun s => (announcing? s).any fun x => !s.failing &&
        !decide (enc (.checkpoint x.2.2.1 : WALRecord Put Level) <+:
          (sys.fs.file x.2.1.startingOffset).data ∨
          (decode (sys.fs.file x.2.1.startingOffset).data : Except IoError (WALRecord Put Level) ×
            Nat).1.toOption =
            some (.checkpoint x.2.2.1))) = true := by decide +kernel
  obtain ⟨sys, hsys, h⟩ := (Option.any_eq_true _ _).1 h
  obtain ⟨s, hs, h⟩ := (Option.any_eq_true _ _).1 h
  obtain ⟨⟨b, n, c, es, stop, held⟩, hx, h⟩ := (Option.any_eq_true _ _).1 h
  simp only [Bool.and_eq_true, Bool.not_eq_true', decide_eq_false_iff_not] at h
  exact h.2 (hall _ sys s b n c es stop held hsys hs h.1 (announcing?_eq hx))

end System

end Wal

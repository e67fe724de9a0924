import Wal.Preserving

/-!
# What recovery throws away

The bytes that an opening discards, by removing a file or by cutting it, should be the beginning of
a record that the end of the file cut short, or zeros (`CutShort`). The code asks for the kind of
the error only, so a decoder that reports a short read inside of a complete record loses what
follows. `openLocked_discards` says over which directories every step of an opening spares the rest
(`Spares`).
-/

namespace Wal

section
variable (A C : Type) [Crc32fast] [Encode A] [Decode A] [Decode C]

/-- The decode that fails at `off` takes all bytes there are, or they are zeros. -/
def CutShort (data : Bytes) (off : Nat) : Prop :=
  (data.drop off).all (· = 0) = true ∨
    (decode (α := WALRecord A C) (data.drop off)).2 = (data.drop off).length

/-- A change of the directory that discards nothing else. -/
def Spares (fs fs' : Fs) : Prop := ∀ id ∈ fs.dir,
  (id ∉ fs'.dir → CutShort A C (fs.file id).data 0) ∧
  (id ∈ fs'.dir → (fs'.file id).data.length < (fs.file id).data.length →
    CutShort A C (fs.file id).data (fs'.file id).data.length)

/-- The file is one of the blank files at the end of the directory. -/
def Trailing (fs : Fs) (id : Nat) : Prop := ∃ older newer, loadChunkIds fs = older ++ id :: newer ∧
  (id :: newer).Nodup ∧ ∀ i ∈ id :: newer, i ∈ fs.dir ∧ Blank A C (fs.file i).data i

variable {A C}

/-- The directory before an opening and after each of its steps. -/
def OpenState.path (s : OpenState A C) (fs₀ : Fs) : List Fs := fs₀ :: s.trail.map (·.fs)

/-- The last step led to the present directory. -/
def OpenState.Linked (s : OpenState A C) (fs₀ : Fs) : Prop := (s.path fs₀).getLast? = some s.fs

theorem Spares.of_grow {fs fs' : Fs} (h : ∀ id ∈ fs.dir, id ∈ fs'.dir ∧
    (fs.file id).data.length ≤ (fs'.file id).data.length) : Spares A C fs fs' := by
  intro id hid
  obtain ⟨h1, h2⟩ := h id hid
  exact ⟨fun hn => absurd h1 hn, fun _ hlt => absurd hlt (by omega)⟩

theorem Spares.refl (fs : Fs) : Spares A C fs fs := .of_grow fun _ h => ⟨h, Nat.le_refl _⟩

section
variable {s : OpenState A C} {fs₀ : Fs}

omit [Crc32fast] [Encode A] [Decode A] [Decode C] in
theorem OpenState.Linked.note (g : OpenView A C → OpenView A C) : (s.note g).Linked fs₀ := by
  unfold OpenState.Linked OpenState.path
  simp [OpenState.note, List.getLast?_cons]

omit [Crc32fast] [Encode A] [Decode A] [Decode C] in
theorem OpenState.Linked.applying (h : s.Linked fs₀) (es : List (LogEntry A C)) :
    (s.applying es).Linked fs₀ := h

theorem spared_note (h : s.Linked fs₀) (g : OpenView A C → OpenView A C) :
    ((s.note g).path fs₀).IsChain (Spares A C) ↔
      (s.path fs₀).IsChain (Spares A C) ∧ Spares A C s.fs (g s.toOpenView).fs := by
  have hp : (s.note g).path fs₀ = s.path fs₀ ++ [(g s.toOpenView).fs] := by
    simp [OpenState.path, OpenState.note]
  rw [hp, List.isChain_append]
  unfold OpenState.Linked at h
  simp [h]

omit [Crc32fast] [Encode A] [Decode A] [Decode C] in
theorem OpenState.Linked.noteFs (g : Fs → Fs) : (s.noteFs g).Linked fs₀ := .note _

theorem spared_noteFs (h : s.Linked fs₀) (g : Fs → Fs) :
    ((s.noteFs g).path fs₀).IsChain (Spares A C) ↔
      (s.path fs₀).IsChain (Spares A C) ∧ Spares A C s.fs (g s.fs) := spared_note h _

theorem spared_quiet (hl : s.Linked fs₀) {g : OpenView A C → OpenView A C}
    (hg : Spares A C s.fs (g s.toOpenView).fs) :
    ((s.note g).path fs₀).IsChain (Spares A C) ↔ (s.path fs₀).IsChain (Spares A C) := by
  rw [spared_note hl, and_iff_left hg]

end

/-! ## Step by step -/

section
variable {s s' : OpenState A C} {fs₀ : Fs}

omit [Crc32fast] [Encode A] [Decode A] [Decode C] in
theorem Fs.length_le_append (fs : Fs) (id : Nat) (bs : Bytes) (i : Nat) :
    (fs.file i).data.length ≤ ((fs.append id bs).file i).data.length := by
  by_cases h : i = id
  · subst h
    simp
  · rw [Fs.append_file_ne _ h]

theorem spares_unlink {fs : Fs} {id : Nat} (hm : id ∈ fs.dir) :
    Spares A C fs (fs.unlink id) ↔ CutShort A C (fs.file id).data 0 := by
  refine ⟨fun h => (h id hm).1 fun hi => (Fs.mem_unlink.1 hi).2 rfl,
    fun h i hi => ⟨fun hn => ?_, ?_⟩⟩
  · have hid : i = id := by
      by_contra hne
      exact hn (Fs.mem_unlink.2 ⟨hi, hne⟩)
    rwa [hid]
  · intro _ hlt
    exact absurd hlt (Nat.lt_irrefl _)

/-- **Removing trailing files** spares the rest if every one of them is cut short. -/
theorem Tidied.spares {ids : List Nat} {r : Except IoError (List Nat)} (h : Tidied ids s r s')
    (hl : s.Linked fs₀) : s'.Linked fs₀ ∧ ((s'.path fs₀).IsChain (Spares A C) ↔
      (s.path fs₀).IsChain (Spares A C) ∧
        ∀ id ∈ s.fs.dir, id ∉ s'.fs.dir → CutShort A C (s.fs.file id).data 0) := by
  induction h with
  | empty => exact ⟨hl, by simp +contextual⟩
  | complete => exact ⟨hl, by simp +contextual⟩
  | stopped => exact ⟨hl, by simp +contextual⟩
  | @removed id older s r s' hm hb h ih =>
    obtain ⟨h1, h2⟩ := ih (.note _)
    refine ⟨h1, h2.trans ?_⟩
    have hnot : id ∉ s'.fs.dir := fun hi => (Fs.mem_unlink.1 (h.dir_subset hi)).2 rfl
    have hrem : ((s.removed id).path fs₀).IsChain (Spares A C) ↔
        (s.path fs₀).IsChain (Spares A C) ∧ Spares A C s.fs (s.fs.unlink id) :=
      (spared_noteFs (.noteFs _) _).trans
        ((and_iff_left (.of_grow fun _ h => ⟨h, Nat.le_refl _⟩)).trans (spared_noteFs hl _))
    rw [hrem, spares_unlink hm, and_assoc]
    refine and_congr_right fun _ => ?_
    refine ⟨fun ⟨hid, hrest⟩ i hi hn => ?_, fun hall => ⟨hall id hm hnot,
      fun i hi hn => hall i (Fs.mem_unlink.1 hi).1 hn⟩⟩
    by_cases hne : i = id
    · rwa [hne]
    · exact hrest i (Fs.mem_unlink.2 ⟨hi, hne⟩) hn

theorem recordsEnd_lt {data : Bytes} {id : Nat} {e : IoError} (h : failureIn A C data id = some e) :
    recordsEnd A C data id < data.length := by
  obtain ⟨err, hd, he⟩ := records_decodes A C data id
  rcases err with _ | ⟨e', k⟩
  · rw [h] at he
    cases he
  · have := hd.failing.2
    rwa [Nat.zero_add] at this

/-- Reading a chunk file spares the rest if its tail is cut short. -/
theorem Opens.spares {config : Config} {allow : Bool} {id : Nat} {tr : Option Nat}
    (h : Opens config allow id s tr s') (hl : s.Linked fs₀) : s'.Linked fs₀ ∧ s'.fs.dir = s.fs.dir ∧
      ((s'.path fs₀).IsChain (Spares A C) ↔ (s.path fs₀).IsChain (Spares A C) ∧
        ∀ i ∈ s.fs.dir, (s'.fs.file i).data.length < (s.fs.file i).data.length →
          CutShort A C (s.fs.file i).data (s'.fs.file i).data.length) := by
  cases h with
  | whole => exact ⟨hl, rfl, by simp⟩
  | cut hm ht =>
    obtain ⟨-, e, he, -⟩ := ht
    have hlt := recordsEnd_lt he
    refine ⟨.note _, rfl, ?_⟩
    have hcut : ((s.truncated id (recordsEnd A C (s.fs.file id).data id)).path fs₀).IsChain
      (Spares A C) ↔
        (s.path fs₀).IsChain (Spares A C) ∧
          Spares A C s.fs (s.fs.setLen id (recordsEnd A C (s.fs.file id).data id)) :=
      (spared_noteFs (.noteFs _) _).trans
        ((and_iff_left (.of_grow fun i hi => ⟨hi, by simp⟩)).trans (spared_noteFs hl _))
    rw [hcut]
    refine and_congr_right fun _ => ?_
    rw [Spares]
    refine forall₂_congr fun i hi => ?_
    simp [hi, OpenState.truncated]

omit [Crc32fast] [Encode A] [Decode A] [Decode C] in
theorem OpenState.Linked.announced (chunk : Chunk) (checkpoint : Option C)
    (es : List (LogEntry A C)) :
    ((s.announced chunk checkpoint).applying es).Linked fs₀ :=
  OpenState.Linked.applying (.note _) es

theorem spared_announced (hl : s.Linked fs₀) (chunk : Chunk) (checkpoint : Option C)
    (es : List (LogEntry A C)) :
    (((s.announced chunk checkpoint).applying es).path fs₀).IsChain (Spares A C) ↔
      (s.path fs₀).IsChain (Spares A C) :=
  spared_quiet (g := fun v => { v with persisted := _ }) hl (.refl _)

variable {sm : StateMachine A C}

/-- **The replay** spares the rest if what it cuts is cut short. -/
theorem Replayed.spares {config : Config} {t : Nat} {ids : List Nat} {acc : Replay sm}
    {r : Except Fault (Replay sm)} (h : Replayed config (some t) ids acc s r s')
    (hle : ∀ i ∈ ids, i ≤ t) (hl : s.Linked fs₀) : s'.Linked fs₀ ∧ s'.fs.dir = s.fs.dir ∧
      ((s'.path fs₀).IsChain (Spares A C) ↔ (s.path fs₀).IsChain (Spares A C) ∧
        ∀ i ∈ s.fs.dir, (s'.fs.file i).data.length < (s.fs.file i).data.length →
          CutShort A C (s.fs.file i).data (s'.fs.file i).data.length) := by
  induction h with
  | nil => exact ⟨hl, rfl, by simp⟩
  | stopped => exact ⟨hl, rfl, by simp⟩
  | refused hp ho =>
    obtain ⟨h1, h2, h3⟩ := ho.spares hl
    exact ⟨.announced _ _ _, h2, (spared_announced h1 _ _ _).trans h3⟩
  | panicked hp ho =>
    obtain ⟨h1, h2, h3⟩ := ho.spares hl
    exact ⟨.announced _ _ [], h2, (spared_announced h1 _ _ []).trans h3⟩
  | @step id ids acc s tr s₁ st r s' hp ho hr ha h ih =>
    obtain ⟨h1, h2, h3⟩ := ho.spares hl
    cases ho with
    | whole hm hf =>
      obtain ⟨h4, h5, h6⟩ := ih (fun i hi => hle i (List.mem_cons_of_mem _ hi)) (.announced _ _ _)
      refine ⟨h4, h5, h6.trans ?_⟩
      rw [spared_announced hl]
      rfl
    | cut hm ht =>
      have heq : id = t := ht.tail_eq
      subst heq
      have hpos := recordsEnd_pos hr
      obtain ⟨rfl, -⟩ := h.behind rfl fun i hi => by
        have := hle i (List.mem_cons_of_mem _ hi)
        show i < id + recordsEnd A C (s.fs.file id).data id
        omega
      exact ⟨.announced _ _ _, h2, (spared_announced h1 _ _ _).trans h3⟩

end

/-! ## Which files that concerns -/

/-- The files that are removed are the trailing ones. -/
theorem Tidied.removed_iff {s s' : OpenState A C} {r : Except IoError (List Nat)}
    (h : Tidied (loadChunkIds s.fs).reverse s r s') {id : Nat} :
    (id ∈ s.fs.dir ∧ id ∉ s'.fs.dir) ↔ Trailing A C s.fs id := by
  constructor
  · rintro ⟨hid, hnot⟩
    obtain ⟨gone, kept, hids, hnd, hgone, hdir, -⟩ := h.removes
    have hmem : id ∈ gone := by
      by_contra hg
      exact hnot (by rw [hdir]; exact List.mem_filter.2 ⟨hid, decide_eq_true hg⟩)
    obtain ⟨a, b, rfl⟩ := List.append_of_mem hmem
    have hl := congrArg List.reverse hids
    rw [List.reverse_reverse] at hl
    refine ⟨kept.reverse ++ b.reverse, a.reverse, by rw [hl]; simp, ?_, fun i hi => hgone i ?_⟩
    · have := (List.nodup_append.1 hnd)
      rw [List.nodup_cons, List.nodup_reverse, List.mem_reverse]
      refine ⟨fun ha => ?_, this.1⟩
      exact this.2.2 id ha id List.mem_cons_self rfl
    · rcases List.mem_cons.1 hi with rfl | hi
      · simp
      · exact List.mem_append_left _ (List.mem_reverse.1 hi)
  · rintro ⟨older, newer, hl, hnd, hb⟩
    rw [hl, List.reverse_append] at h
    obtain ⟨s₁, h1, h2, -⟩ := h.through (List.nodup_reverse.2 hnd) fun i hi =>
      hb i (List.mem_reverse.1 hi)
    refine ⟨(hb id List.mem_cons_self).1, fun hid => ?_⟩
    have := h1.dir_subset hid
    rw [h2, List.mem_filter] at this
    exact absurd this.2 (by simp)

section
variable {sm : StateMachine A C}

variable (sm) in
/-- The replay comes to the last file with records, and the end of it may be cut. -/
def TornTail (config : Config) (st : sm.State) (fs : Fs) (id : Nat) : Prop :=
  ∃ older same newer acc, loadChunkIds fs = older ++ id :: (same ++ newer) ∧ (∀ i ∈ same, i = id) ∧
    newer.Nodup ∧ (∀ i ∈ newer, i ∈ fs.dir ∧ Blank A C (fs.file i).data i) ∧
    (∀ i ∈ older, i ∈ fs.dir) ∧ id ∈ fs.dir ∧ recordsIn A C (fs.file id).data id ≠ [] ∧
    Reads config (fun i => (fs.file i).data) older (Replay.start sm st) acc none ∧ acc.Follows id ∧
    Truncates A C (fs.file id).data id config true

variable {config : Config} {st : sm.State} {s s₁ s₂ : OpenState A C} {id : Nat}

/-- Before a torn tail, the trailing files are removed without an error. -/
theorem TornTail.tidied (h : TornTail sm config st s.fs id) {rt : Except IoError (List Nat)}
    (ht : Tidied (loadChunkIds s.fs).reverse s rt s₁) :
    id ∈ s₁.fs.dir ∧ s₁.fs.file = s.fs.file ∧ ∃ older same acc,
      rt = .ok (older ++ id :: same).reverse ∧
      (∀ i ∈ same, i = id) ∧ (∀ i ∈ older, i ∈ s₁.fs.dir) ∧
      Reads config (fun i => (s.fs.file i).data) older (Replay.start sm st) acc none ∧
      acc.Follows id := by
  obtain ⟨older, same, newer, acc, hl, hsame, hnd, hb, holder, hid, hr, hreads, hf, htr⟩ := h
  have hrev : (loadChunkIds s.fs).reverse = newer.reverse ++ (older ++ id :: same).reverse := by
    rw [hl]
    simp
  rw [hrev] at ht
  obtain ⟨s₀, h1, h2, h3, -⟩ := ht.through (List.nodup_reverse.2 hnd) fun i hi =>
    hb i (List.mem_reverse.1 hi)
  have hid₀ : id ∈ s₀.fs.dir := by
    rw [h2, List.mem_filter]
    exact ⟨hid, decide_eq_true fun hn => hr (hb id (List.mem_reverse.1 hn)).2.1⟩
  obtain ⟨tl, htl⟩ : ∃ tl, (older ++ id :: same).reverse = id :: tl := by
    rcases List.eq_nil_or_concat same with rfl | ⟨init, x, rfl⟩
    · exact ⟨older.reverse, by simp⟩
    · rw [List.concat_eq_append] at hsame ⊢
      obtain rfl := hsame x (by simp)
      exact ⟨init.reverse ++ x :: older.reverse, by simp⟩
  rw [htl] at h1
  rw [← h3] at hr
  cases h1 with
  | complete hm hr' =>
    refine ⟨hid₀, h3, older, same, acc, by rw [htl], hsame, fun i hi => ?_, hreads, hf⟩
    rw [h2, List.mem_filter]
    refine ⟨holder i hi, decide_eq_true fun hn => ?_⟩
    have := hreads.records i hi
    exact this (hb i (List.mem_reverse.1 hn)).2.1
  | stopped h => exact absurd (h hid₀).1 hr
  | removed hm hb' => exact absurd hb'.1 hr

theorem TornTail.cut (h : TornTail sm config st s.fs id) {k : List Nat}
    (ht : Tidied (loadChunkIds s.fs).reverse s (.ok k) s₁) {r : Except Fault (Replay sm)}
    (hr : Replayed config k.reverse.getLast? k.reverse (Replay.start sm st) s₁ r s₂) :
    id ∈ s₁.fs.dir ∧
      (s₂.fs.file id).data.length = recordsEnd A C (s₁.fs.file id).data id ∧
      recordsEnd A C (s₁.fs.file id).data id < (s₁.fs.file id).data.length := by
  obtain ⟨hid, hfile, older, same, acc, hk, hsame, holder, hreads, hf⟩ := h.tidied ht
  obtain ⟨-, -, -, -, -, -, -, -, -, -, hrec, -, -, htr⟩ := h
  rw [← hfile] at hrec htr
  cases hk
  rw [List.reverse_reverse] at hr
  have hlast : (older ++ id :: same).getLast? = some id := by
    rcases List.eq_nil_or_concat same with rfl | ⟨init, x, rfl⟩
    · simp
    · rw [List.concat_eq_append] at hsame ⊢
      obtain rfl := hsame x (by simp)
      rw [← List.cons_append, ← List.append_assoc, List.getLast?_concat]
  rw [hlast] at hr
  obtain ⟨s₃, ⟨hfs, -⟩, hrest, -⟩ := hreads.through rfl hr holder fun i _ => by rw [hfile]
  obtain ⟨hcan, e, he, hz⟩ := htr
  have hlt := recordsEnd_lt he
  refine ⟨hid, ?_, hlt⟩
  have hcut : ∀ {tr s₄}, Opens config (some id == some id) id s₃ tr s₄ →
      (s₄.fs.file id).data.length = recordsEnd A C (s₁.fs.file id).data id := by
    intro tr s₄ ho
    cases ho with
    | whole _ hf =>
      rw [hfs, he] at hf
      cases hf
    | cut =>
      rw [hfs]
      simp [OpenState.truncated, hfs, Nat.min_eq_left (Nat.le_of_lt hlt)]
  cases hrest with
  | stopped hu =>
    obtain ⟨e', he', hn⟩ := hu hf (by rw [hfs]; exact hid)
    rw [hfs] at hn
    exact absurd ⟨by simpa using hcan, e, he, hz⟩ hn
  | refused _ ho =>
    have := hcut ho
    exact this
  | panicked _ ho =>
    have := hcut ho
    exact this
  | step _ ho hr' _ h =>
    have hpos := recordsEnd_pos hr'
    obtain ⟨rfl, -⟩ := h.behind rfl fun i hi => by
      rw [hsame i hi]
      omega
    have := hcut ho
    exact this

/-- What is cut is a torn tail. -/
theorem Replayed.tornTail {k : List Nat}
    (ht : Tidied (loadChunkIds s.fs).reverse s (.ok k) s₁) {r : Except Fault (Replay sm)}
    (hr : Replayed config k.reverse.getLast? k.reverse (Replay.start sm st) s₁ r s₂)
    (hlt : (s₂.fs.file id).data.length < (s₁.fs.file id).data.length) :
    TornTail sm config st s.fs id := by
  obtain ⟨gone, kept, hids, hnd, hgone, hdir, hfile, -, -, hok⟩ := ht.removes
  obtain ⟨rfl, hhead⟩ := hok k rfl
  have hl := congrArg List.reverse hids
  rw [List.reverse_reverse, List.reverse_append] at hl
  rcases hlast : k.reverse.getLast? with _ | t
  · rw [List.getLast?_eq_none_iff] at hlast
    rw [hlast] at hr
    cases hr
    exact absurd hlt (Nat.lt_irrefl _)
  rw [hlast] at hr
  obtain ⟨c, hfs, hc, -⟩ := hr.healed (le_tail hl hlast)
  have hct : c = some id := by
    by_contra hne
    rw [hfs, Fs.healed_ne (by simpa using hne)] at hlt
    exact absurd hlt (Nat.lt_irrefl _)
  obtain ⟨rfl, hm, htr, older, rest, acc, hk, holder, hreads, hf⟩ := hc id hct
  rw [hfile] at htr hreads
  rw [List.getLast?_reverse] at hlast
  have hsub : ∀ {i}, i ∈ s₁.fs.dir → i ∈ s.fs.dir := fun hi => ht.dir_subset hi
  refine ⟨older, rest, gone.reverse, acc, by rw [hl, hk]; simp, fun i hi => ?_,
    List.nodup_reverse.2 hnd, fun i hi => hgone i (List.mem_reverse.1 hi),
    fun i hi => hsub (holder i hi), hsub hm, (hhead id hlast).2, hreads, hf, htr⟩
  have hle := le_tail hl (by rw [List.getLast?_reverse]; exact hlast) i (by rw [hk]; simp [hi])
  have hs := loadChunkIds_sorted s.fs
  rw [hl, hk, List.append_assoc, List.cons_append, List.pairwise_append, List.pairwise_cons] at hs
  have := hs.2.1.1 i (List.mem_append_left _ hi)
  omega

end

section
variable [Encode C] {sm : StateMachine A C} {config : Config} {st : sm.State} {s s' : OpenState A C}

/-- An opening spares what is not cut short if its two parts do. -/
theorem OpenRun.spares {r : Except Fault (Opened sm)} (h : OpenRun config st s r s')
    (hv : config.validate = .ok ()) (hl : s.Linked s.fs) (h₀ : (s.path s.fs).IsChain (Spares A C)) :
    (s'.path s.fs).IsChain (Spares A C) ↔
      (∀ id, Trailing A C s.fs id → CutShort A C (s.fs.file id).data 0) ∧
      (∀ id, TornTail sm config st s.fs id →
        CutShort A C (s.fs.file id).data (recordsEnd A C (s.fs.file id).data id)) := by
  have htidy : ∀ {rt s₁}, Tidied (loadChunkIds s.fs).reverse s rt s₁ → s₁.Linked s.fs ∧
      ((s₁.path s.fs).IsChain (Spares A C) ↔
        ∀ id, Trailing A C s.fs id → CutShort A C (s.fs.file id).data 0) := by
    intro rt s₁ ht
    obtain ⟨h1, h2⟩ := ht.spares hl
    refine ⟨h1, h2.trans ?_⟩
    rw [and_iff_right h₀]
    refine forall_congr' fun id => ?_
    rw [← ht.removed_iff, and_imp]
  have hreplay : ∀ {k s₁ rr s₂}, Tidied (loadChunkIds s.fs).reverse s (.ok k) s₁ →
      Replayed config k.reverse.getLast? k.reverse (Replay.start sm st) s₁ rr s₂ →
      s₂.Linked s.fs ∧ ((s₂.path s.fs).IsChain (Spares A C) ↔
        (∀ id, Trailing A C s.fs id → CutShort A C (s.fs.file id).data 0) ∧
        (∀ id, TornTail sm config st s.fs id →
          CutShort A C (s.fs.file id).data (recordsEnd A C (s.fs.file id).data id))) := by
    intro k s₁ rr s₂ ht hr
    obtain ⟨h1, h2⟩ := htidy ht
    obtain ⟨gone, kept, hids, -, -, -, hfile, -, -, hok⟩ := ht.removes
    obtain ⟨rfl, -⟩ := hok k rfl
    have hlist := congrArg List.reverse hids
    rw [List.reverse_reverse, List.reverse_append] at hlist
    have hs₂ : s₂.Linked s.fs ∧ s₂.fs.dir = s₁.fs.dir ∧ ((s₂.path s.fs).IsChain (Spares A C) ↔
        (s₁.path s.fs).IsChain (Spares A C) ∧
        ∀ i ∈ s₁.fs.dir, (s₂.fs.file i).data.length < (s₁.fs.file i).data.length →
          CutShort A C (s₁.fs.file i).data (s₂.fs.file i).data.length) := by
      rcases hlast : k.reverse.getLast? with _ | t
      · rw [List.getLast?_eq_none_iff] at hlast
        rw [hlast] at hr
        cases hr
        exact ⟨h1, rfl, by simp⟩
      · have hle := le_tail hlist hlast
        rw [hlast] at hr
        exact hr.spares hle h1
    refine ⟨hs₂.1, hs₂.2.2.trans ?_⟩
    rw [h2]
    refine and_congr_right fun _ => ⟨fun hall id htorn => ?_, fun hall i hi hlt => ?_⟩
    · obtain ⟨hid, hend, hlt⟩ := htorn.cut ht hr
      have := hall id hid (by omega)
      rwa [hend, hfile] at this
    · have htorn := hr.tornTail ht hlt
      have := hall i htorn
      rw [(htorn.cut ht hr).2.1, hfile]
      exact this
  have hcreate : ∀ {s₂ : OpenState A C} {id : Nat}, s₂.Linked s.fs → id ∉ s₂.fs.dir →
      (s₂.createdFile id).Linked s.fs ∧ (((s₂.createdFile id).path s.fs).IsChain (Spares A C) ↔
        (s₂.path s.fs).IsChain (Spares A C)) := by
    intro s₂ id hl₂ hid
    refine ⟨.noteFs _, (spared_noteFs (.noteFs _) _).trans ((and_iff_left (.of_grow fun i hi =>
      ⟨hi, Nat.le_refl _⟩)).trans ((spared_noteFs hl₂ _).trans (and_iff_left (.of_grow ?_))))⟩
    intro i hi
    have hne : i ≠ id := fun h => hid (h ▸ hi)
    refine ⟨List.mem_append_left _ hi, ?_⟩
    rw [Fs.createNew_file_ne hne]
  cases h with
  | invalid hv' =>
    rw [hv] at hv'
    cases hv'
  | untidy hv' ht =>
    refine (htidy ht).2.trans (and_iff_left fun id htorn => ?_).symm
    obtain ⟨-, -, older, same, acc, hk, -⟩ := htorn.tidied ht
    cases hk
  | failed hv' ht hr => exact (hreplay ht hr).2
  | reopened hv' ht hr hl => exact (hreplay ht hr).2
  | blocked hv' ht hr hl hm => exact (hreplay ht hr).2
  | unencoded hv' ht hr hl hm he =>
    obtain ⟨h1, h2⟩ := hreplay ht hr
    exact (hcreate h1 hm).2.trans h2
  | created hv' ht hr hl hm he =>
    obtain ⟨h1, h2⟩ := hreplay ht hr
    obtain ⟨h3, h4⟩ := hcreate h1 hm
    exact (spared_quiet h3 (.of_grow fun i hi => ⟨hi, Fs.length_le_append _ _ _ _⟩)).trans
      (h4.trans h2)

/-- **What recovery throws away**: over a directory, the steps of an opening discard only records
that the end of a file cuts short, or zeros, if and only if every trailing file without a first
record is cut short at its beginning, and the torn tail that the replay comes to is cut short behind
its last record. -/
theorem openLocked_discards (sm : StateMachine A C) (config : Config) (st : sm.State) (fs : Fs)
    (hv : config.validate = .ok ()) :
    ((stateOf (openLocked sm config st (OpenState.init fs))).path fs).IsChain (Spares A C) ↔
      (∀ id, Trailing A C fs id → CutShort A C (fs.file id).data 0) ∧
      (∀ id, TornTail sm config st fs id →
        CutShort A C (fs.file id).data (recordsEnd A C (fs.file id).data id)) := by
  obtain ⟨r, s', hrun, heq⟩ := openLocked_run config st (OpenState.init fs)
  rw [heq, stateOf_resultIn]
  exact hrun.spares hv rfl (.singleton _)

end

end

section
variable {A C : Type} [Crc32fast] [Encode A] [Decode A] [Decode C]

instance (data : Bytes) (off : Nat) : Decidable (CutShort A C data off) := by
  unfold CutShort
  infer_instance

instance : DecidableRel (Spares A C) := fun fs fs' => by
  unfold Spares
  infer_instance

end

/-! ## A length inside of a record -/

/-- A word is a payload of one byte, written behind its length. -/
structure Word where
  letter : UInt8

namespace Word

instance : Encode Word where
  encode w := (be 4 0 ++ [1, w.letter], .ok 6)
  typeId _ := some 0

/-- The payload is read from a reader over its one byte, which is short if the length is larger. -/
def decodeWord (b : Bytes) : Except IoError Word × Nat :=
  match b with
  | _ :: _ :: _ :: _ :: n :: v :: _ =>
    if n > 1 then (.error WALRecord.shortRead, 6) else (.ok { letter := v }, 6)
  | _ => (.error WALRecord.shortRead, b.length)

instance : Decode Word where
  decode := decodeWord
  consumed_le b := by
    unfold decodeWord
    split
    · split <;> simp
    · simp

def machine : StateMachine Word Register where
  State := Register
  apply _ r _ _ :=
    match r with
    | .action w => .ok { value := w.letter }
    | .checkpoint c => .ok c
  checkpoint := id

/-- A checkpoint, a word with a damaged length, and another word, all of them complete. -/
def damagedDir : Fs where
  dir := [0]
  aliases := []
  committed := fun _ => true
  file := fun _ => FileData.append .empty
    (enc (α := WALRecord Word Register) (.checkpoint { value := 0 }) ++ [0, 0, 0, 0, 2, 7] ++
      [0, 0, 0, 0, 1, 8])

/-- The word behind the damaged one is thrown away. -/
theorem damaged_discarded : ¬ ((stateOf (openLocked machine Register.config { value := 0 }
    (OpenState.init damagedDir))).path damagedDir).IsChain (Spares Word Register) := by
  decide +kernel

end Word

namespace Register

theorem openLocked_discards_torn :
    ((stateOf (openLocked machine config { value := 0 } (OpenState.init tornDir))).path
      tornDir).IsChain (Spares Put Register) ↔
      (∀ id, Trailing Put Register tornDir id → CutShort Put Register (tornDir.file id).data 0) ∧
      (∀ id, TornTail machine config { value := 0 } tornDir id →
        CutShort Put Register (tornDir.file id).data
        (recordsEnd Put Register (tornDir.file id).data id)) :=
  openLocked_discards machine config { value := 0 } tornDir rfl

end Register

end Wal

import Wal.Preserving

/-!
# Opening twice

A directory that opens is `Sound`: its files are the ones that a replay reads, and blank ones behind
them. Every directory that an opening passes through is sound as well and reads to the same state,
also the one with part of the initial record of a new chunk. So a second opening changes nothing,
and a process that died while it opened comes back to the same state (`openLocked_idempotent`).
-/

namespace Wal

/-! ## Directories with the same contents -/

/-- The same names and the same contents; how much of it is on stable storage may differ. -/
structure Fs.SameData (fs fs' : Fs) : Prop where
  dir : fs'.dir = fs.dir
  aliases : fs'.aliases = fs.aliases
  data : ∀ i ∈ fs.dir, (fs'.file i).data = (fs.file i).data

theorem Fs.SameData.refl (fs : Fs) : fs.SameData fs := ⟨rfl, rfl, fun _ _ => rfl⟩

theorem Fs.SameData.trans {fs fs' fs'' : Fs} (h : fs.SameData fs') (h' : fs'.SameData fs'') :
    fs.SameData fs'' :=
  ⟨h'.dir.trans h.dir, h'.aliases.trans h.aliases,
    fun i hi => (h'.data i (by rw [h.dir]; exact hi)).trans (h.data i hi)⟩

theorem Fs.SameData.symm {fs fs' : Fs} (h : fs.SameData fs') : fs'.SameData fs :=
  ⟨h.dir.symm, h.aliases.symm, fun i hi => (h.data i (by rw [← h.dir]; exact hi)).symm⟩

theorem loadChunkIds_eq {fs : Fs} {ids : List Nat} (hal : fs.aliases = []) (hnd : fs.dir.Nodup)
    (hids : ids.Pairwise (· < ·)) (hmem : ∀ i, i ∈ fs.dir ↔ i ∈ ids) : loadChunkIds fs = ids := by
  have hperm : (loadChunkIds fs).Perm ids := by
    unfold loadChunkIds
    rw [hal, List.append_nil]
    refine (List.perm_insertionSort _ _).trans ((List.perm_ext_iff_of_nodup hnd ?_).2 hmem)
    exact hids.imp (Nat.ne_of_lt)
  refine hperm.eq_of_pairwise (fun a b _ _ h1 h2 => Nat.le_antisymm h1 h2)
    (loadChunkIds_sorted fs) ?_
  exact hids.imp Nat.le_of_lt

section
variable {A C : Type} [Crc32fast] [Encode A] [Decode A] [Decode C] {sm : StateMachine A C}
  {config : Config}

/-! ## Sound directories -/

/-- The files of the directory are the `kept` ones, which read well, and `removed` ones, which are
blank. -/
structure Sound (config : Config) (st : sm.State) (fs : Fs) (kept removed : List Nat)
    (acc : Replay sm) (c : Option Nat) : Prop where
  aliases : fs.aliases = []
  nodup : fs.dir.Nodup
  increasing : (kept ++ removed).Pairwise (· < ·)
  mem : ∀ i, i ∈ fs.dir ↔ i ∈ kept ∨ i ∈ removed
  blank : ∀ i ∈ removed, Blank A C (fs.file i).data i
  reads : Reads config (fun i => (fs.file i).data) kept (Replay.start sm st) acc c

theorem Reads.congr {file file' : Nat → Bytes} {ids : List Nat} {acc acc' : Replay sm}
    {c : Option Nat} (h : Reads config file ids acc acc' c) (hf : ∀ i ∈ ids, file' i = file i) :
    Reads config file' ids acc acc' c := by
  induction h with
  | nil => exact .nil
  | @whole id ids acc st acc' c hp hfail hr ha h ih =>
    have hid := hf id List.mem_cons_self
    rw [← hid] at hfail hr ha
    refine .whole hp hfail hr ha ?_
    rw [hid]
    exact ih fun i hi => hf i (List.mem_cons_of_mem _ hi)
  | @cut id acc st hp ht hr ha =>
    have hid := hf id List.mem_cons_self
    rw [← hid] at ht hr ha ⊢
    exact .cut hp ht hr ha

section
variable {st : sm.State} {fs fs' : Fs} {kept removed : List Nat} {acc : Replay sm} {c : Option Nat}

theorem Sound.same (h : Sound config st fs kept removed acc c) (hs : fs.SameData fs') :
    Sound config st fs' kept removed acc c where
  aliases := hs.aliases.trans h.aliases
  nodup := by rw [hs.dir]; exact h.nodup
  increasing := h.increasing
  mem := fun i => by rw [hs.dir]; exact h.mem i
  blank := fun i hi => by
    rw [hs.data i ((h.mem i).2 (.inr hi))]
    exact h.blank i hi
  reads := h.reads.congr fun i hi => hs.data i ((h.mem i).2 (.inl hi))

theorem Sound.tidy (h : Sound config st fs kept removed acc c) : Tidy A C fs kept removed where
  listed := loadChunkIds_eq h.aliases h.nodup h.increasing fun i => by
    rw [h.mem, List.mem_append]
  nodup := (List.pairwise_append.1 h.increasing).2.1.imp Nat.ne_of_lt
  blank := fun i hi => ⟨(h.mem i).2 (.inr hi), h.blank i hi⟩
  last := fun i hi => by
    have hm := List.mem_of_getLast? hi
    exact ⟨(h.mem i).2 (.inl hm), h.reads.records i hm⟩

/-- **A successful opening found a sound directory.** -/
theorem Tidy.sound (h : Tidy A C fs kept removed) (hk : ∀ i ∈ kept, i ∈ fs.dir)
    (hr : Reads config (fun i => (fs.file i).data) kept (Replay.start sm st) acc c) :
    Sound config st fs kept removed acc c := by
  have hinc : (kept ++ removed).Pairwise (· < ·) := by
    have hs := loadChunkIds_sorted fs
    rw [h.listed] at hs
    have hnd : (kept ++ removed).Nodup := by
      refine List.nodup_append.2 ⟨?_, h.nodup, fun a ha b hb hab => h.disjoint ha (hab ▸ hb)⟩
      exact hr.increasing.1.imp Nat.ne_of_lt
    exact (hs.and hnd).imp fun ⟨h1, h2⟩ => lt_of_le_of_ne h1 h2
  have hperm : (fs.dir ++ fs.aliases).Perm (kept ++ removed) := by
    have := List.perm_insertionSort (· ≤ ·) (fs.dir ++ fs.aliases)
    rw [← h.listed]
    exact this.symm
  have hnd : (fs.dir ++ fs.aliases).Nodup := hperm.nodup_iff.2 (hinc.imp Nat.ne_of_lt)
  have hmem : ∀ i, i ∈ fs.dir ++ fs.aliases ↔ i ∈ kept ∨ i ∈ removed := fun i => by
    rw [hperm.mem_iff, List.mem_append]
  have hal : fs.aliases = [] := by
    rw [List.eq_nil_iff_forall_not_mem]
    intro i hi
    refine (List.nodup_append.1 hnd).2.2 i ?_ i hi rfl
    rcases (hmem i).1 (List.mem_append_right _ hi) with hm | hm
    · exact hk i hm
    · exact (h.blank i hm).1
  refine ⟨hal, (List.nodup_append.1 hnd).1, hinc, fun i => ?_, fun i hi => (h.blank i hi).2, hr⟩
  have := hmem i
  rwa [hal, List.append_nil] at this

theorem Reads.unique {file : Nat → Bytes} {ids : List Nat} {acc acc₁ acc₂ : Replay sm}
    {c c' : Option Nat} (h : Reads config file ids acc acc₁ c)
    (h' : Reads config file ids acc acc₂ c') : acc₁ = acc₂ := by
  induction h generalizing acc₂ with
  | nil =>
    cases h'
    rfl
  | whole hp hf hr ha h ih =>
    cases h' with
    | whole _ _ _ ha' h' =>
      rw [ha] at ha'
      cases ha'
      exact ih h'
    | cut _ ht =>
      obtain ⟨-, e, he, -⟩ := ht
      rw [hf] at he
      cases he
  | cut hp ht hr ha =>
    cases h' with
    | whole _ hf =>
      obtain ⟨-, e, he, -⟩ := ht
      rw [hf] at he
      cases he
    | cut _ _ _ ha' =>
      rw [ha] at ha'
      cases ha'
      rfl

/-- With files behind the end removed, it is still sound. -/
theorem Sound.drop {less : List Nat} (h : Sound config st fs kept removed acc c)
    (hless : less <+: removed)
    (hdir : fs'.dir = fs.dir.filter fun i => decide (i ∈ kept ∨ i ∈ less))
    (hal : fs'.aliases = fs.aliases) (hfile : ∀ i, (fs'.file i).data = (fs.file i).data) :
    Sound config st fs' kept less acc c where
  aliases := hal.trans h.aliases
  nodup := by rw [hdir]; exact h.nodup.filter _
  increasing := h.increasing.sublist ((List.Sublist.refl _).append hless.sublist)
  mem := fun i => by
    rw [hdir, List.mem_filter, h.mem]
    simp only [decide_eq_true_eq, and_iff_right_iff_imp]
    exact fun hi => hi.imp_right fun hl => hless.subset hl
  blank := fun i hi => by
    rw [hfile]
    exact h.blank i (hless.subset hi)
  reads := h.reads.congr fun i _ => hfile i

end

/-! ## Healed files -/

section
variable {data : Bytes} {id : Nat}

theorem recordsIn_of_decodes {xs : List (Segment × WALRecord A C)} (h : Decodes 0 data xs none) :
    recordsIn A C data id = xs ∧ failureIn A C data id = none := by
  obtain ⟨err, hd, he⟩ := records_decodes A C data id
  obtain ⟨h1, rfl⟩ := hd.unique h
  exact ⟨h1, he⟩

variable [LocalDecode A] [LocalDecode C]

variable (A C data id) in
theorem recordsIn_take :
    recordsIn A C (data.take (recordsEnd A C data id)) id = recordsIn A C data id ∧
    failureIn A C (data.take (recordsEnd A C data id)) id = none := by
  obtain ⟨err, hd, -⟩ := records_decodes A C data id
  have := hd.take
  rw [Nat.sub_zero] at this
  exact recordsIn_of_decodes this

theorem recordsEnd_take :
    recordsEnd A C (data.take (recordsEnd A C data id)) id = recordsEnd A C data id := by
  show lastEnd 0 ((recordsIn A C (data.take (recordsEnd A C data id)) id).map (·.1)) = _
  rw [(recordsIn_take A C data id).1]
  rfl

theorem chunkIn_take (t t' : Option Nat) :
    (chunkIn A C (data.take (recordsEnd A C data id)) id t).globalOffsets =
      (chunkIn A C data id t').globalOffsets := by
  simp only [chunkIn, (recordsIn_take A C data id).1]

end

/-- What a closed chunk says, whether or not recovery cut it. -/
def ClosedChunk.bare (c : ClosedChunk C) : C × Nat × List Nat :=
  (c.state, c.chunk.f, c.chunk.globalOffsets)

/-- The same chunks, the same end and the same state. -/
structure Replay.Like (acc acc' : Replay sm) : Prop where
  closed : acc'.closed.map (fun p => (p.1, p.2.bare)) = acc.closed.map fun p => (p.1, p.2.bare)
  prevEndOffset : acc'.prevEndOffset = acc.prevEndOffset
  state : acc'.state = acc.state

/-- **After the cut**, the files are whole and read the same. -/
theorem Reads.heal [LocalDecode A] [LocalDecode C] {file file' : Nat → Bytes} {ids : List Nat}
    {acc acc' : Replay sm} {c : Option Nat} (h : Reads config file ids acc acc' c)
    (ho : acc.Ordered) (hsame : ∀ i ∈ ids, c ≠ some i → file' i = file i)
    (hcut : ∀ i, c = some i → file' i = (file i).take (recordsEnd A C (file i) i)) :
    ∃ acc'', Reads config file' ids acc acc'' none ∧ acc'.Like acc'' := by
  induction h with
  | nil => exact ⟨_, .nil, rfl, rfl, rfl⟩
  | @whole id ids acc st acc' c hp hf hr ha h ih =>
    have hne : c ≠ some id := by
      rintro rfl
      have hmem := List.mem_of_getLast? (h.cut_mem rfl)
      have := h.increasing.2 id hmem _ rfl
      have hpos := recordsEnd_pos hr
      omega
    have hid := hsame id List.mem_cons_self hne
    obtain ⟨acc'', h1, h2⟩ :=
      ih (ho.next hp hr) (fun i hi => hsame i (List.mem_cons_of_mem _ hi)) hcut
    rw [← hid] at hf hr ha h1
    exact ⟨acc'', .whole hp hf hr ha h1, h2⟩
  | @cut id acc st hp ht hr ha =>
    have hid := hcut id rfl
    have htake := recordsIn_take A C (file id) id
    refine ⟨acc.next (file' id) id none st, .whole hp ?_ ?_ ?_ .nil, ?_, ?_, rfl⟩
    · rw [hid]
      exact htake.2
    · rw [hid, htake.1]
      exact hr
    · rw [hid, entriesIn, htake.1]
      exact ha
    · rw [Replay.next_closed ho hp, Replay.next_closed ho hp, List.map_append, List.map_append, hid]
      congr 1
      simp only [List.map_cons, List.map_nil, ClosedChunk.bare,
        chunkIn_take none (some (file id).length)]
      rfl
    · rw [hid]
      show some (id + _) = some (id + _)
      rw [recordsEnd_take]

/-- A replay of whole files goes on with one more. -/
theorem Reads.snoc {file : Nat → Bytes} {ids : List Nat} {acc acc' : Replay sm} {c : Option Nat}
    (h : Reads config file ids acc acc' c) (hc : c = none) {id : Nat} {st : sm.State}
    (hp : acc'.Follows id) (hf : failureIn A C (file id) id = none)
    (hr : recordsIn A C (file id) id ≠ [])
    (ha : sm.run acc'.state (entriesIn A C (file id) id) = .ok st) :
    Reads config file (ids ++ [id]) acc (acc'.next (file id) id none st) none := by
  induction h with
  | nil => exact .whole hp hf hr ha .nil
  | whole hp' hf' hr' ha' h ih => exact .whole hp' hf' hr' ha' (ih hc hp ha)
  | cut => cases hc

/-! ## Opening a sound directory -/

theorem Tidy.untouched {s s' : OpenState A C} {kept : List Nat} (h : Tidy A C s.fs kept [])
    {r : Except IoError (List Nat)} (ht : Tidied (loadChunkIds s.fs).reverse s r s') :
    r = .ok kept.reverse ∧ s' = s := by
  have hl := h.listed
  rw [List.append_nil] at hl
  refine ⟨(h.tidied ht).1, ?_⟩
  rw [hl] at ht
  rcases hk : kept.reverse with _ | ⟨t, older⟩
  · rw [hk] at ht
    cases ht
    rfl
  · rw [hk] at ht
    have hlast : kept.getLast? = some t := by rw [← List.head?_reverse, hk]; rfl
    obtain ⟨hm, hr⟩ := h.last t hlast
    cases ht with
    | complete => rfl
    | stopped hst => rfl
    | removed _ hb => exact absurd hb.1 hr

section
variable [Encode C] {st : sm.State} {kept removed : List Nat} {acc : Replay sm} {c : Option Nat}
  {s s' : OpenState A C} {r : Except Fault (Opened sm)}

/-- The initial record of a new chunk can be written, where one is needed. -/
def HeadFits (kept : List Nat) (acc : Replay sm) (c : Option Nat) : Prop :=
  kept = [] ∨ c.isSome → Encodes acc.head

omit [Encode C] in
theorem Tidied.applied_eq {ids : List Nat} {rt : Except IoError (List Nat)}
    (h : Tidied ids s rt s') :
    s'.applied = s.applied := by
  induction h with
  | empty => rfl
  | complete => rfl
  | stopped => rfl
  | removed hm hb h ih => exact ih

/-- **A sound directory opens**, to what its replay reads. -/
theorem Sound.opens (h : Sound config st s.fs kept removed acc c) (hv : config.validate = .ok ())
    (hfit : HeadFits kept acc c) (hrun : OpenRun config st s r s') : ∃ o, r = .ok o ∧
      o.state = acc.state ∧
      s'.applied = s.applied ++ kept.flatMap fun i => entriesIn A C (s.fs.file i).data i := by
  have htidy := h.tidy
  have hreplay : ∀ {k : List Nat} {s₁ : OpenState A C} {rr : Except Fault (Replay sm)}
    {s₂ : OpenState A C},
      Tidied (loadChunkIds s.fs).reverse s (.ok k) s₁ →
      Replayed config k.reverse.getLast? k.reverse (Replay.start sm st) s₁ rr s₂ →
      rr = .ok acc ∧ acc.end_ ∉ s₂.fs.dir ∧
        s₂.applied = s.applied ++ kept.flatMap fun i => entriesIn A C (s.fs.file i).data i := by
    intro k s₁ rr s₂ ht hr
    obtain ⟨hk, hdir, hfile, -⟩ := htidy.tidied ht
    cases hk
    rw [List.reverse_reverse] at hr
    have hmem : ∀ i ∈ kept, i ∈ s₁.fs.dir := fun i hi => by
      rw [hdir, List.mem_filter]
      exact ⟨(h.mem i).2 (.inl hi), decide_eq_true (htidy.disjoint hi)⟩
    obtain ⟨h1, h2, h3⟩ := h.reads.replayed hr (fun i hi => h.reads.cut_mem hi) hmem
      fun i _ => by rw [hfile]
    refine ⟨h1, ?_, by rw [h3, ht.applied_eq]⟩
    rw [h2, Fs.healed_dir, hdir]
    exact htidy.free h.reads
  cases hrun with
  | invalid hv' =>
    rw [hv] at hv'
    cases hv'
  | untidy _ ht => cases (htidy.tidied ht).1
  | failed _ ht hr => cases (hreplay ht hr).1
  | reopened _ ht hr hl =>
    obtain ⟨hacc, -, happ⟩ := hreplay ht hr
    cases hacc
    exact ⟨_, rfl, rfl, happ⟩
  | blocked _ ht hr hl hm =>
    obtain ⟨hacc, hfree, -⟩ := hreplay ht hr
    cases hacc
    exact absurd hm hfree
  | unencoded _ ht hr hl hm he =>
    cases (hreplay ht hr).1
    obtain ⟨n, hn⟩ := hfit (h.reads.reopens.1 hl)
    rw [hn] at he
    cases he
  | created _ ht hr hl hm he =>
    obtain ⟨hacc, -, happ⟩ := hreplay ht hr
    cases hacc
    exact ⟨_, rfl, rfl, happ⟩

omit [Encode C] in
theorem Tidied.sound {k : List Nat} {s₁ s₂ : OpenState A C}
    (ht : Tidied (loadChunkIds s.fs).reverse s (.ok k) s₁)
    (hr : Replayed config k.reverse.getLast? k.reverse (Replay.start sm st) s₁ (.ok acc) s₂) :
    ∃ removed c, Sound config st s.fs k.reverse removed acc c ∧
      s₂.fs.dir = s.fs.dir.filter (· ∉ removed) := by
  obtain ⟨removed, htidy, hdir, hfile, -⟩ := ht.tidy
  rcases hlast : k.reverse.getLast? with _ | t
  · rw [List.getLast?_eq_none_iff] at hlast
    rw [hlast] at hr htidy ⊢
    cases hr
    exact ⟨removed, none, htidy.sound (by simp) .nil, hdir⟩
  · rw [hlast] at hr
    obtain ⟨c, hfs, -, hok⟩ := hr.healed (le_tail htidy.listed hlast)
    obtain ⟨h1, h2⟩ := hok acc rfl
    rw [hfile] at h2
    exact ⟨removed, c, htidy.sound (fun i hi => ht.dir_subset (h1 i hi)) h2,
      by rw [hfs, Fs.healed_dir, hdir]⟩

/-- **An opening that succeeds** found a sound directory. -/
theorem OpenRun.sound {o : Opened sm} (h : OpenRun config st s (.ok o) s') :
    config.validate = .ok () ∧ ∃ kept removed acc c, Sound config st s.fs kept removed acc c := by
  cases h with
  | reopened hv ht hr =>
    obtain ⟨removed, c, hs, -⟩ := ht.sound hr
    exact ⟨hv, _, _, _, _, hs⟩
  | created hv ht hr =>
    obtain ⟨removed, c, hs, -⟩ := ht.sound hr
    exact ⟨hv, _, _, _, _, hs⟩

/-- **A sound directory without a blank or a torn file** is opened again as it is. -/
theorem Sound.reopens (h : Sound config st s.fs kept [] acc none) (hv : config.validate = .ok ())
    {o : OpenChunk} {closed : List (Nat × ClosedChunk C)}
    (hl : reopenLastClosed acc.closed = some (o, closed)) (hrun : OpenRun config st s r s') :
    r = .ok (ChunkedWal.new sm config closed o acc.state) ∧ s'.fs = s.fs ∧
      ∃ vs, s'.trail = s.trail ++ vs ∧ ∀ v ∈ vs, v.fs = s.fs := by
  have htidy := h.tidy
  have hreplay : ∀ {k : List Nat} {s₁ : OpenState A C} {rr : Except Fault (Replay sm)}
    {s₂ : OpenState A C},
      Tidied (loadChunkIds s.fs).reverse s (.ok k) s₁ →
      Replayed config k.reverse.getLast? k.reverse (Replay.start sm st) s₁ rr s₂ →
      rr = .ok acc ∧ s.SameFiles s₂ := by
    intro k s₁ rr s₂ ht hr
    obtain ⟨hk, rfl⟩ := htidy.untouched ht
    cases hk
    rw [List.reverse_reverse] at hr
    have hmem : ∀ i ∈ kept, i ∈ s₁.fs.dir := fun i hi => (h.mem i).2 (.inl hi)
    rw [← List.append_nil kept] at hr
    obtain ⟨s₃, h1, h2, -⟩ := h.reads.through rfl hr hmem fun i _ => rfl
    cases h2
    exact ⟨rfl, h1⟩
  cases hrun with
  | invalid hv' =>
    rw [hv] at hv'
    cases hv'
  | untidy _ ht => cases (htidy.untouched ht).1
  | failed _ ht hr => cases (hreplay ht hr).1
  | reopened _ ht hr hl' =>
    obtain ⟨hacc, hs⟩ := hreplay ht hr
    cases hacc
    rw [hl] at hl'
    cases hl'
    exact ⟨rfl, hs⟩
  | blocked _ ht hr hl' =>
    cases (hreplay ht hr).1
    rw [hl] at hl'
    cases hl'
  | unencoded _ ht hr hl' =>
    cases (hreplay ht hr).1
    rw [hl] at hl'
    cases hl'
  | created _ ht hr hl' =>
    cases (hreplay ht hr).1
    rw [hl] at hl'
    cases hl'

/-! ## The directories that an opening passes through -/

end

theorem Tidied.trail {ids : List Nat} {s s' : OpenState A C} {r : Except IoError (List Nat)}
    (h : Tidied ids s r s') : ∀ v ∈ s'.trail, v ∈ s.trail ∨ ∃ pre post, ids = pre ++ post ∧
      (∀ i ∈ pre, Blank A C (s.fs.file i).data i) ∧ v.fs.dir = s.fs.dir.filter (· ∉ pre) ∧
      v.fs.file = s.fs.file ∧ v.fs.aliases = s.fs.aliases := by
  induction h with
  | empty => exact fun v hv => .inl hv
  | complete => exact fun v hv => .inl hv
  | stopped => exact fun v hv => .inl hv
  | @removed id older s r s' hm hb h ih =>
    intro v hv
    rcases ih v hv with hv | ⟨pre, post, hids, hpre, hdir, hfile, hal⟩
    · have hone : s.fs.dir.filter (· ≠ id) = s.fs.dir.filter (· ∉ [id]) := by simp
      have hv' : v ∈ (s.trail ++ [(s.noteFs (·.unlink id)).toOpenView]) ++
          [(s.removed id).toOpenView] := hv
      rw [List.append_assoc, List.mem_append] at hv'
      rcases hv' with hv | hv
      · exact .inl hv
      · refine .inr ⟨[id], older, rfl, by simpa using hb, ?_⟩
        rcases List.mem_cons.1 hv with rfl | hv
        · exact ⟨hone, rfl, rfl⟩
        · have hv := List.mem_singleton.1 hv
          subst hv
          exact ⟨hone, rfl, rfl⟩
    · refine .inr ⟨id :: pre, post, by rw [hids, List.cons_append], fun i hi => ?_, ?_, hfile, hal⟩
      · rcases List.mem_cons.1 hi with rfl | hi
        · exact hb
        · exact hpre i hi
      · rw [hdir]
        show ((s.fs.dir.filter (· ≠ id)).filter (· ∉ pre)) = _
        rw [List.filter_filter]
        refine List.filter_congr fun i _ => ?_
        simp only [List.mem_cons, not_or, Bool.decide_and, Bool.and_comm]

theorem Reads.trail {file : Nat → Bytes} {ids : List Nat} {acc acc' : Replay sm} {c : Option Nat}
    (hr : Reads config file ids acc acc' c) {tail : Option Nat} {s s' : OpenState A C}
    {r : Except Fault (Replay sm)} (h : Replayed config tail ids acc s r s')
    (ht : ∀ i, c = some i → tail = some i) (hm : ∀ i ∈ ids, i ∈ s.fs.dir)
    (hfile : ∀ i ∈ ids, (s.fs.file i).data = file i) :
    ∀ v ∈ s'.trail, v ∈ s.trail ∨ s.fs.SameData v.fs ∨ (s.fs.healed A C c).SameData v.fs := by
  induction hr generalizing s with
  | nil =>
    cases h
    exact fun v hv => .inl hv
  | @whole id ids acc st acc' c hp hf hr ha h' ih =>
    have hone : Reads config file [id] acc (acc.next (file id) id none st) none :=
      .whole hp hf hr ha .nil
    obtain ⟨s₁, ⟨hfs, vs, htr, hvs⟩, hrest, -⟩ :=
      hone.through rfl h (fun i hi => hm i (by simp_all))
      fun i hi => hfile i (by simp_all)
    intro v hv
    have := ih hrest ht (fun i hi => by rw [hfs]; exact hm i (List.mem_cons_of_mem _ hi))
      (fun i hi => by rw [hfs]; exact hfile i (List.mem_cons_of_mem _ hi)) v hv
    rw [hfs, htr, List.mem_append] at this
    rcases this with (hv | hv) | hs
    · exact .inl hv
    · refine .inr (.inl ?_)
      rw [hvs v hv]
      exact .refl _
    · exact .inr hs
  | @cut id acc st hp htr hr ha =>
    have hdata := hfile id List.mem_cons_self
    have hmem := hm id List.mem_cons_self
    have htail := ht id rfl
    rw [← hdata] at htr hr ha
    subst htail
    cases h with
    | stopped h =>
      obtain ⟨e, he, hn⟩ := h hp hmem
      exact absurd (by simpa using htr) hn
    | refused _ ho ha' =>
      rw [ha] at ha'
      cases ha'
    | panicked _ ho hr' => exact absurd hr' hr
    | step _ ho _ ha' h =>
      cases ho with
      | whole _ hf =>
        obtain ⟨-, e, he, -⟩ := htr
        rw [hf] at he
        cases he
      | cut _ _ =>
        cases h
        intro v hv
        have hv' : v ∈ s.trail ++
          ([(s.noteFs (·.setLen id (recordsEnd A C (s.fs.file id).data id))).toOpenView] ++
            [(s.truncated id (recordsEnd A C (s.fs.file id).data id)).toOpenView] ++
            [((s.truncated id (recordsEnd A C (s.fs.file id).data id)).announced
              (chunkIn A C (s.fs.file id).data id (some (s.fs.file id).data.length))
                acc.prevCheckpoint).toOpenView]) := by
          rw [← List.append_assoc, ← List.append_assoc]
          exact hv
        refine (List.mem_append.1 hv').imp_right fun hv => .inr ?_
        simp only [List.cons_append, List.nil_append, List.mem_cons, List.not_mem_nil,
          or_false] at hv
        rcases hv with rfl | rfl | rfl
        · exact ⟨rfl, rfl, fun i _ => by simp [Fs.healed]⟩
        · exact .refl _
        · exact .refl _

end

/-! ## The theorem -/

section
variable {A C : Type} [Crc32fast] [Encode A] [Decode A] [Encode C] [Decode C]
    {sm : StateMachine A C}
  {config : Config}

/-- Two openings give the same WAL and the same state: the same closed chunks and checkpoints and
the same open chunk. -/
structure Opened.Same (o o' : Opened sm) : Prop where
  closed : o'.wal.closed.map (fun p => (p.1, p.2.bare)) = o.wal.closed.map fun p => (p.1, p.2.bare)
  «open» : (o'.wal.open.pendingData, o'.wal.open.chunk.f, o'.wal.open.chunk.globalOffsets) =
    (o.wal.open.pendingData, o.wal.open.chunk.f, o.wal.open.chunk.globalOffsets)
  state : o'.state = o.state

/-- What a process that dies during an opening can leave: the directory after one of its steps, or
with a part of the initial record of a new chunk. -/
def DiesAs (s' : OpenState A C) (fs : Fs) : Prop :=
  (∃ v ∈ s'.trail, fs = v.fs) ∨
  (s'.created ≠ [] ∧ ∃ pre v id bs p, s'.trail = pre ++ [v, s'.toOpenView] ∧
    s'.fs = v.fs.append id bs ∧
    p <+: bs ∧ fs = v.fs.append id p)

variable [WALRecord.LawfulAction A] [LawfulCodec C]

omit [Decode A] [WALRecord.LawfulAction A] in
theorem recordsIn_single [Decode A] [WALRecord.LawfulAction A] {r : WALRecord A C} (h : Encodes r)
    (id : Nat) :
    recordsIn A C (enc r) id = [({ offset := 0, size := (enc r).length }, r)] ∧
      failureIn A C (enc r) id = none := by
  have hpos := List.length_pos_of_ne_nil (LawfulRecord.enc_ne_nil h)
  refine recordsIn_of_decodes (.step (LawfulRecord.enc_ne_nil h) ?_ hpos ?_)
  · have := LawfulCodec.decode_enc h []
    rwa [List.append_nil] at this
  · rw [List.drop_length]
    exact .done

theorem blank_of_part {r : WALRecord A C} (h : Encodes r) {p : Bytes} (hp : p <+: enc r)
    (hne : p ≠ enc r) (id : Nat) : Blank A C p id := by
  obtain ⟨err, hd, he⟩ := records_decodes A C p id
  obtain ⟨e, hdec, hk⟩ := LawfulCodec.decode_prefix h p hp hne
  unfold Blank
  generalize hx : recordsIn A C p id = xs at hd
  cases hd with
  | done =>
    refine ⟨rfl, fun e' he' => ?_⟩
    rw [he] at he'
    cases he'
  | fail hne' hd' =>
    refine ⟨rfl, fun e' he' => .inl ?_⟩
    rw [hd'] at hdec
    cases hdec
    rw [he] at he'
    cases he'
    exact hk
  | step hne' hd' =>
    rw [hd'] at hdec
    cases hdec

end

/-! ## The course of a successful opening -/

section
variable {A C : Type} [Crc32fast] [Encode A] [Decode A] [Decode C] [LocalDecode A] [LocalDecode C]
  {sm : StateMachine A C} {config : Config}

/-- A replay that succeeded, from `s` to `s₂`: what it read, what it left, and what it passed
through. -/
structure Course (config : Config) (st : sm.State) (s s₂ : OpenState A C) (kept : List Nat)
    (acc : Replay sm) (c : Option Nat) : Prop where
  dir : s₂.fs.dir = s.fs.dir.filter (· ∈ kept)
  reads : c.isSome ∨ kept = [] ↔ reopenLastClosed acc.closed = none
  left : ∃ acc', Sound config st s₂.fs kept [] acc' none ∧ acc.Like acc' ∧ (c = none → acc' = acc)
  free : acc.end_ ∉ s₂.fs.dir
  passed : ∀ v ∈ s₂.trail, ∃ removed acc' c', Sound config st v.fs kept removed acc' c' ∧
    acc'.state = acc.state ∧ (c'.isSome → c.isSome)

theorem course {st : sm.State} {s s₁ s₂ : OpenState A C} {k : List Nat} {acc : Replay sm}
    (hs : s.trail = []) (ht : Tidied (loadChunkIds s.fs).reverse s (.ok k) s₁)
    (hr : Replayed config k.reverse.getLast? k.reverse (Replay.start sm st) s₁ (.ok acc) s₂) :
    ∃ c, Course config st s s₂ k.reverse acc c := by
  obtain ⟨removed, htidy, hdir, hfile, hal⟩ := ht.tidy
  have hread : ∃ c, (∀ i ∈ k.reverse, i ∈ s₁.fs.dir) ∧ s₂.fs = s₁.fs.healed A C c ∧
      Reads config (fun i => (s₁.fs.file i).data) k.reverse (Replay.start sm st) acc c := by
    rcases hlast : k.reverse.getLast? with _ | t
    · rw [List.getLast?_eq_none_iff] at hlast
      rw [hlast] at hr ⊢
      cases hr
      exact ⟨none, by simp, rfl, .nil⟩
    · rw [hlast] at hr
      obtain ⟨c, hfs, -, hok⟩ := hr.healed (le_tail htidy.listed hlast)
      obtain ⟨h1, h2⟩ := hok acc rfl
      exact ⟨c, h1, hfs, h2⟩
  obtain ⟨c, hmem, hfs, hreads⟩ := hread
  have hreads₀ : Reads config (fun i => (s.fs.file i).data) k.reverse (Replay.start sm st)
    acc c := by
    rwa [hfile] at hreads
  have hsound : Sound config st s.fs k.reverse removed acc c :=
    htidy.sound (fun i hi => ht.dir_subset (hmem i hi)) hreads₀
  -- which files are there after some of the blank ones were removed
  have hkeep : ∀ {pre post}, removed.reverse = pre ++ post →
      s.fs.dir.filter (· ∉ pre) = s.fs.dir.filter fun i =>
      decide (i ∈ k.reverse ∨ i ∈ post.reverse) := by
    intro pre post hpp
    refine List.filter_congr fun i hi => ?_
    rw [decide_eq_decide]
    have hrem : removed = post.reverse ++ pre.reverse := by
      rw [← List.reverse_append, ← hpp, List.reverse_reverse]
    have hinc := hsound.increasing.imp Nat.ne_of_lt
    rw [hrem, ← List.append_assoc] at hinc
    have hdis := (List.nodup_append.1 hinc).2.2
    have hi := (hsound.mem i).1 hi
    rw [hrem, List.mem_append, show i ∈ pre.reverse ↔ i ∈ pre from List.mem_reverse] at hi
    refine ⟨fun hn => ?_, fun hk hp => hdis i (List.mem_append.2 hk) i (List.mem_reverse.2 hp) rfl⟩
    rcases hi with h | h | h
    · exact .inl h
    · exact .inr h
    · exact absurd h hn
  have hdir₁ : s₁.fs.dir = s.fs.dir.filter fun i =>
    decide (i ∈ k.reverse ∨ i ∈ ([] : List Nat)) := by
    have := @hkeep removed.reverse [] (by simp)
    rw [hdir, ← List.reverse_nil, ← this]
    simp
  have hsound₁ : Sound config st s₁.fs k.reverse [] acc c :=
    hsound.drop List.nil_prefix hdir₁ hal fun i => by rw [hfile]
  obtain ⟨acc', hheal, hlike⟩ := hreads.heal
    (Replay.start_ordered st) (fun i _ hne => by
      show (s₂.fs.file i).data = _
      rw [hfs, Fs.healed_ne hne])
    (fun i hc => by
      show (s₂.fs.file i).data = _
      rw [hfs, hc, Fs.healed_self])
  have hsound₂ : Sound config st s₂.fs k.reverse [] acc' none := by
    refine ⟨?_, ?_, hsound₁.increasing, fun i => ?_, by simp, hheal⟩
    · rw [hfs]
      cases c <;> exact hsound₁.aliases
    · rw [hfs, Fs.healed_dir]
      exact hsound₁.nodup
    · rw [hfs, Fs.healed_dir]
      exact hsound₁.mem i
  refine ⟨c, ?_, ?_, ⟨acc', hsound₂, hlike, ?_⟩, ?_, fun v hv => ?_⟩
  · rw [hfs, Fs.healed_dir, hdir₁]
    simp
  · rw [hreads.reopens, or_comm]
  · rintro rfl
    have h2 : Reads config (fun i => (s₁.fs.file i).data) k.reverse (Replay.start sm st)
      acc' none :=
      hheal.congr fun i _ => by rw [hfs]; rfl
    exact h2.unique hreads
  · rw [hfs, Fs.healed_dir, hdir]
    exact htidy.free hreads₀
  · rcases hreads.trail hr (fun i hi => hreads.cut_mem hi) hmem (fun _ _ => rfl) v hv with
      hv | hv | hv
    · rcases ht.trail v hv with hv | ⟨pre, post, hids, hblank, hvdir, hvfile, hval⟩
      · rw [hs] at hv
        cases hv
      -- only blank files are among those removed so far
      rw [htidy.listed, List.reverse_append, List.reverse_reverse] at hids
      obtain ⟨less, hless⟩ : ∃ less, removed.reverse = pre ++ less := by
        rcases List.append_eq_append_iff.1 hids with ⟨t, hpre, hk⟩ | ⟨t, hrem, hpost⟩
        · rcases t with _ | ⟨x, t⟩
          · exact ⟨[], by rw [hpre]; simp⟩
          · have hx : k.reverse.getLast? = some x := by rw [hk]; simp
            have := (htidy.last x hx).2
            exact absurd (hblank x (by rw [hpre]; simp)).1 this
        · exact ⟨t, hrem⟩
      refine ⟨less.reverse, acc, c, hsound.drop ?_ (hvdir.trans (hkeep hless)) hval
        (fun i => by rw [hvfile]), rfl, fun h => h⟩
      refine ⟨pre.reverse, ?_⟩
      rw [← List.reverse_append, ← hless, List.reverse_reverse]
    · exact ⟨[], acc, c, hsound₁.same hv, rfl, fun h => h⟩
    · refine ⟨[], acc', none, hsound₂.same ?_, hlike.state, fun h => by cases h⟩
      rwa [hfs]

end

/-! ## The new chunk -/

section
variable {A C : Type} [Crc32fast] [Encode A] [Decode A] [Encode C] [Decode C]
    {sm : StateMachine A C}
  {config : Config} {st : sm.State} {fs fs' : Fs} {kept : List Nat} {acc : Replay sm}

/-- A file behind the end of the log, with the contents `p`. -/
structure Fs.Beyond (fs : Fs) (id : Nat) (p : Bytes) (fs' : Fs) : Prop where
  fresh : id ∉ fs.dir
  dir : fs'.dir = fs.dir ++ [id]
  aliases : fs'.aliases = fs.aliases
  data : (fs'.file id).data = p
  old : ∀ i, i ≠ id → (fs'.file i).data = (fs.file i).data

omit [Encode C] in
theorem Sound.grown (h : Sound config st fs kept [] acc none) {p : Bytes}
    (hb : fs.Beyond acc.end_ p fs') : fs'.aliases = [] ∧ fs'.dir.Nodup ∧
      (kept ++ [acc.end_]).Pairwise (· < ·) ∧ (∀ i, i ∈ fs'.dir ↔ i ∈ kept ∨ i ∈ [acc.end_]) ∧
      Reads config (fun i => (fs'.file i).data) kept (Replay.start sm st) acc none := by
  have hlt : ∀ i ∈ kept, i < acc.end_ := fun i hi => h.reads.lt_end hi
  refine ⟨hb.aliases.trans h.aliases, ?_, ?_, fun i => ?_, h.reads.congr fun i hi => hb.old i ?_⟩
  · rw [hb.dir, List.nodup_append]
    refine ⟨h.nodup, by simp, fun a ha b hb' => ?_⟩
    rw [List.mem_singleton] at hb'
    subst hb'
    exact fun he => hb.fresh (he ▸ ha)
  · have := h.increasing
    rw [List.append_nil] at this
    refine List.pairwise_append.2 ⟨this, by simp, fun a ha b hb' => ?_⟩
    rw [List.mem_singleton] at hb'
    subst hb'
    exact hlt a ha
  · have := h.mem i
    simp only [List.not_mem_nil, or_false] at this
    rw [hb.dir, List.mem_append, this]
  · have := hlt i hi
    omega

omit [Encode C] in
theorem Sound.part (h : Sound config st fs kept [] acc none) {p : Bytes}
    (hb : fs.Beyond acc.end_ p fs') (hp : Blank A C p acc.end_) :
    Sound config st fs' kept [acc.end_] acc none := by
  obtain ⟨h1, h2, h3, h4, h5⟩ := h.grown hb
  refine ⟨h1, h2, h3, h4, fun i hi => ?_, h5⟩
  rw [List.mem_singleton] at hi
  subst hi
  rwa [hb.data]

variable [WALRecord.LawfulAction A] [LawfulCodec C]

theorem Sound.full (h : Sound config st fs kept [] acc none)
    (hrestore : ∀ (st' st₀ : sm.State) id seg,
      sm.apply st₀ (.checkpoint (sm.checkpoint st')) id seg = .ok st')
    (he : Encodes acc.head) (hb : fs.Beyond acc.end_ (enc acc.head) fs') :
    Sound config st fs' (kept ++ [acc.end_]) []
      (acc.next (enc acc.head) acc.end_ none acc.state) none := by
  obtain ⟨h1, h2, h3, h4, h5⟩ := h.grown hb
  obtain ⟨hrec, hfail⟩ := recordsIn_single he acc.end_
  refine ⟨h1, h2, by simpa using h3, fun i => by simpa using h4 i, by simp, ?_⟩
  have hdata := hb.data
  have hp : acc.Follows acc.end_ := fun e he => by simp [Replay.end_, he]
  have ha : sm.run acc.state (entriesIn A C (fs'.file acc.end_).data acc.end_) = .ok acc.state := by
    rw [hdata, entriesIn, hrec]
    simp only [List.map_cons, List.map_nil, placed, StateMachine.run, Replay.head, hrestore]
  have := h5.snoc rfl hp (by rw [hdata]; exact hfail)
    (by rw [hdata, hrec]; exact List.cons_ne_nil _ _) ha
  rwa [hdata] at this

end

section
variable {A C : Type} [Crc32fast] [Encode A] [Decode A] [Encode C] [Decode C]
    {sm : StateMachine A C}
  {config : Config} {s s' : OpenState A C}

omit [Encode C] in
theorem Tidied.created_eq {ids : List Nat} {r : Except IoError (List Nat)} (h : Tidied ids s r s') :
    s'.created = s.created := by
  induction h with
  | empty => rfl
  | complete => rfl
  | stopped => rfl
  | removed hm hb h ih => exact ih

omit [Encode C] in
theorem Replayed.created_eq {tail : Option Nat} {ids : List Nat} {acc : Replay sm}
    {r : Except Fault (Replay sm)} (h : Replayed config tail ids acc s r s') :
    s'.created = s.created := by
  induction h with
  | nil => rfl
  | stopped => rfl
  | refused hp ho => cases ho <;> rfl
  | panicked hp ho => cases ho <;> rfl
  | step hp ho hr ha h ih => rw [ih]; cases ho <;> rfl

variable [WALRecord.LawfulAction A] [LawfulCodec C] [LocalDecode A] [LocalDecode C]

omit [WALRecord.LawfulAction A] [LawfulCodec C] [LocalDecode A] [LocalDecode C] in
/-- A sound directory opens, and leads back to its state. -/
theorem Sound.recovers {st : sm.State} {fs : Fs} {kept removed : List Nat} {acc : Replay sm}
    {c : Option Nat} (h : Sound config st fs kept removed acc c) (hv : config.validate = .ok ())
    (hfit : HeadFits kept acc c) :
    ∃ o' s'', openLocked sm config st (OpenState.init fs) = .ok o' s'' ∧
      o'.state = acc.state := by
  obtain ⟨r, s'', hrun, heq⟩ := openLocked_run config st (OpenState.init fs)
  obtain ⟨o', rfl, ho', -⟩ := Sound.opens (s := OpenState.init fs) h hv hfit hrun
  exact ⟨o', s'', heq, ho'⟩

omit [WALRecord.LawfulAction A] [LawfulCodec C] [LocalDecode A] [LocalDecode C] in
/-- Where no file is removed, cut or created, an opening changes nothing. -/
theorem Sound.settled {st : sm.State} {fs : Fs} {kept : List Nat} {acc : Replay sm}
    {oc : OpenChunk} {closed : List (Nat × ClosedChunk C)}
    (h : Sound config st fs kept [] acc none) (hv : config.validate = .ok ())
    (hl : reopenLastClosed acc.closed = some (oc, closed)) :
    ∃ s'', openLocked sm config st (OpenState.init fs) =
      .ok (ChunkedWal.new sm config closed oc acc.state) s'' ∧
      s''.fs = fs ∧ ∀ v ∈ s''.trail, v.fs = fs := by
  obtain ⟨r, s'', hrun, heq⟩ := openLocked_run config st (OpenState.init fs)
  obtain ⟨rfl, hfs, vs, htr, hvs⟩ := Sound.reopens (s := OpenState.init fs) h hv hl hrun
  refine ⟨s'', heq, hfs, fun v hv => hvs v ?_⟩
  rw [htr] at hv
  exact hv

omit [Crc32fast] [Encode A] [Decode A] [Encode C] [Decode C] [WALRecord.LawfulAction A]
  [LawfulCodec C] [LocalDecode A] [LocalDecode C] in
/-- The directory with a new file and some bytes in it. -/
theorem OpenState.createdFile_beyond {id : Nat} (hm : id ∉ s.fs.dir) (p : Bytes) :
    s.fs.Beyond id p ((s.createdFile id).fs.append id p) := by
  have hnew : (s.createdFile id).fs.file = (s.fs.createNew id).file := rfl
  refine ⟨hm, rfl, rfl, ?_, fun i hi => ?_⟩
  · rw [Fs.append_file_self, hnew, Fs.createNew_file_self]
    rfl
  · rw [Fs.append_file_ne _ hi, hnew, Fs.createNew_file_ne hi]

omit [Crc32fast] [Encode A] [Decode A] [Encode C] [Decode C] [WALRecord.LawfulAction A]
  [LawfulCodec C] [LocalDecode A] [LocalDecode C] in
theorem OpenState.createdFile_beyond_nil {id : Nat} (hm : id ∉ s.fs.dir) :
    s.fs.Beyond id [] (s.createdFile id).fs := by
  have hnew : (s.createdFile id).fs.file = (s.fs.createNew id).file := rfl
  refine ⟨hm, rfl, rfl, ?_, fun i hi => ?_⟩
  · rw [hnew, Fs.createNew_file_self]
    rfl
  · rw [hnew, Fs.createNew_file_ne hi]

section
variable {st : sm.State} {fs fs' : Fs} {kept : List Nat} {acc : Replay sm}

omit [LocalDecode A] [LocalDecode C] in
/-- A part of the initial record of a new chunk does not matter. -/
theorem Sound.recovers_part (h : Sound config st fs kept [] acc none)
    (hv : config.validate = .ok ())
    (hrestore : ∀ (st' st₀ : sm.State) id seg,
      sm.apply st₀ (.checkpoint (sm.checkpoint st')) id seg = .ok st')
    (he : Encodes acc.head) {p : Bytes} (hp : p <+: enc acc.head)
    (hb : fs.Beyond acc.end_ p fs') :
    ∃ o' s'', openLocked sm config st (OpenState.init fs') = .ok o' s'' ∧
      o'.state = acc.state := by
  by_cases hne : p = enc acc.head
  · rw [hne] at hb
    refine (h.full hrestore he hb).recovers hv fun hcon => ?_
    simp at hcon
  · exact (h.part hb (blank_of_part he hp hne _)).recovers hv fun _ => he

omit [LocalDecode A] [LocalDecode C] in
/-- A new chunk is opened again as it was created. -/
theorem Sound.settled_full (h : Sound config st fs kept [] acc none)
    (hv : config.validate = .ok ())
    (hrestore : ∀ (st' st₀ : sm.State) id seg,
      sm.apply st₀ (.checkpoint (sm.checkpoint st')) id seg = .ok st')
    (he : Encodes acc.head) {fs'' : Fs} (hb : fs.Beyond acc.end_ (enc acc.head) fs'')
    (hsame : fs''.SameData fs') :
    ∃ s'', openLocked sm config st (OpenState.init fs') =
      .ok (ChunkedWal.new sm config acc.closed
        (OpenChunk.new (chunkIn A C (enc acc.head) acc.end_ none)) acc.state) s'' ∧
      s''.fs = fs' ∧ ∀ v ∈ s''.trail, v.fs = fs' := by
  have hordered := (h.reads.closed (Replay.start_ordered st)).1
  have hfollows : acc.Follows acc.end_ := fun e he => by simp [Replay.end_, he]
  have hclosed := @Replay.next_closed _ _ _ _ _ _ _ acc (enc acc.head) acc.end_ none acc.state
    hordered hfollows
  refine ((h.full hrestore he hb).same hsame).settled hv ?_
  unfold reopenLastClosed
  rw [hclosed, List.getLast?_concat]
  simp [Chunk.isTruncated, chunkIn]

end

omit [LocalDecode A] [LocalDecode C] in
/-- The last step of an opening that creates a chunk writes the initial record. -/
theorem OpenState.createdWith_last {rec : WALRecord A C} {id i n : Nat} {bs p : Bytes}
    {pre : List (OpenView A C)} {v : OpenView A C} (he : Encodes rec) (hm : id ∉ s.fs.dir)
    (htr : (s.createdWith id rec (enc rec) n).trail =
      pre ++ [v, (s.createdWith id rec (enc rec) n).toOpenView])
    (hfs : (s.createdWith id rec (enc rec) n).fs = v.fs.append i bs) (hp : p <+: bs) :
    p <+: enc rec ∧ s.fs.Beyond id p (v.fs.append i p) := by
  obtain rfl : v = (s.createdFile id).toOpenView := by
    have htr' : (pre ++ [v]) ++ [(s.createdWith id rec (enc rec) n).toOpenView] =
        ((s.trail ++ [(s.noteFs (·.createNew id)).toOpenView]) ++
          [(s.createdFile id).toOpenView]) ++
          [(s.createdWith id rec (enc rec) n).toOpenView] := by
      rw [List.append_assoc pre]
      exact htr.symm
    exact (List.cons.inj (List.append_inj_right' (List.append_inj_left' htr' rfl) rfl)).1
  have hself := fun q => (s.createdFile_beyond hm q).data
  have hwith : (s.createdWith id rec (enc rec) n).fs =
      (s.createdFile id).fs.append id (enc rec) := rfl
  rw [hwith] at hfs
  have hend := congrArg (fun fs : Fs => (fs.file id).data) hfs
  simp only [hself] at hend
  obtain rfl : i = id := by
    by_contra hne
    rw [Fs.append_file_ne _ (Ne.symm hne), (s.createdFile_beyond_nil hm).data] at hend
    exact LawfulRecord.enc_ne_nil he hend
  rw [hself] at hend
  exact ⟨hend ▸ hp, s.createdFile_beyond hm p⟩

/-- **Recovery is idempotent.** If an opening succeeds, then over the directory that it leaves,
another one succeeds with the same result and changes nothing; and over every directory that it
passes through, also with a part of the initial record of a new chunk, an opening succeeds with the
same state. -/
theorem openLocked_idempotent (sm : StateMachine A C) (config : Config) (st : sm.State) (fs : Fs)
    (hrestore : ∀ (st' st₀ : sm.State) id seg,
      sm.apply st₀ (.checkpoint (sm.checkpoint st')) id seg = .ok st')
    {o : Opened sm} {s' : OpenState A C}
    (h : openLocked sm config st (OpenState.init fs) = .ok o s') :
    (∀ fs', s'.fs.SameData fs' → ∃ o' s'', openLocked sm config st (OpenState.init fs') =
      .ok o' s'' ∧
      o.Same o' ∧ s''.fs = fs' ∧ ∀ v ∈ s''.trail, v.fs = fs') ∧
    (∀ fs', DiesAs s' fs' → ∃ o' s'', openLocked sm config st (OpenState.init fs') = .ok o' s'' ∧
      o'.state = o.state) := by
  obtain ⟨r, s₀, hrun, heq⟩ := openLocked_run config st (OpenState.init fs)
  rw [h] at heq
  rcases r with f | o'
  · cases heq
  cases heq
  cases hrun with
  | @reopened kept s₁ acc _ oc closed hv ht hr hl =>
    obtain ⟨c, hc⟩ := course rfl ht hr
    have hnone : ¬ (c.isSome ∨ kept.reverse = []) := fun hcon => by
      rw [hc.reads.1 hcon] at hl
      cases hl
    rw [not_or] at hnone
    obtain ⟨acc', hsound, -, hacc⟩ := hc.left
    obtain rfl := hacc (by simpa using hnone.1)
    refine ⟨fun fs' hfs => ?_, fun fs' hdies => ?_⟩
    · obtain ⟨s'', h1, h2, h3⟩ := (hsound.same hfs).settled hv hl
      exact ⟨_, s'', h1, ⟨rfl, rfl, rfl⟩, h2, h3⟩
    · rcases hdies with ⟨v, hv', rfl⟩ | ⟨hcr, -⟩
      · obtain ⟨removed, acc₁, c', hs₁, hst, hsome⟩ := hc.passed v hv'
        obtain ⟨o', s'', h1, h2⟩ := hs₁.recovers hv fun hcon => (hcon.elim hnone.2 fun hcon =>
          hnone.1 (hsome hcon)).elim
        exact ⟨o', s'', h1, h2.trans hst⟩
      · rw [hr.created_eq, ht.created_eq] at hcr
        exact absurd rfl hcr
  | @created kept s₁ acc s₂ n hv ht hr hl hm he =>
    obtain ⟨c, hc⟩ := course rfl ht hr
    obtain ⟨acc', hsound, hlike, -⟩ := hc.left
    have hend : acc'.end_ = acc.end_ := by rw [Replay.end_, Replay.end_, hlike.prevEndOffset]
    have hhead : acc'.head = acc.head := by rw [Replay.head, Replay.head, hlike.state]
    have hencodes : Encodes acc.head := ⟨n, he⟩
    have hpart : ∀ {p fs'}, p <+: enc acc.head → s₂.fs.Beyond acc.end_ p fs' →
        ∃ o' s'', openLocked sm config st (OpenState.init fs') = .ok o' s'' ∧
          o'.state = acc.state := by
      intro p fs' hp hb
      rw [← hhead] at hp
      rw [← hend] at hb
      obtain ⟨o', s'', h1, h2⟩ := hsound.recovers_part hv hrestore (hhead ▸ hencodes) hp hb
      exact ⟨o', s'', h1, h2.trans hlike.state⟩
    refine ⟨fun fs' hfs => ?_, fun fs' hdies => ?_⟩
    · obtain ⟨s'', h1, h2, h3⟩ := hsound.settled_full hv hrestore (hhead ▸ hencodes)
        (by rw [hend, hhead]; exact s₂.createdFile_beyond hm _) hfs
      have hsize : n = (enc acc.head).length := SizedCodec.size_eq he
      refine ⟨_, s'', h1, ⟨hlike.closed, ?_, hlike.state⟩, h2, h3⟩
      simp only [ChunkedWal.new, OpenChunk.new, chunkIn, createdChunk, OpenChunk.fromFile,
        Chunk.appendRecordSize, hend, hhead, (recordsIn_single hencodes acc.end_).1, tableOf, hsize]
      simp [Chunk.globalEnd]
    · rcases hdies with ⟨v, hv', rfl⟩ | ⟨-, pre, v, id, bs, p, htr, hfs, hp, rfl⟩
      · have hv' : v ∈ s₂.trail ++ ([(s₂.noteFs (·.createNew acc.end_)).toOpenView] ++
            [(s₂.createdFile acc.end_).toOpenView] ++
            [(s₂.createdWith acc.end_ acc.head (enc acc.head) n).toOpenView]) := by
          rw [← List.append_assoc, ← List.append_assoc]
          exact hv'
        rcases List.mem_append.1 hv' with hv' | hv'
        · obtain ⟨removed, acc₁, c', hs₁, hst, hsome⟩ := hc.passed v hv'
          obtain ⟨o', s'', h1, h2⟩ := hs₁.recovers hv fun _ => by rwa [Replay.head, hst]
          exact ⟨o', s'', h1, h2.trans hst⟩
        · simp only [List.cons_append, List.nil_append, List.mem_cons, List.not_mem_nil,
            or_false] at hv'
          have hempty := s₂.createdFile_beyond_nil hm
          rcases hv' with rfl | rfl | rfl
          · exact hpart List.nil_prefix ⟨hm, rfl, rfl, hempty.data, hempty.old⟩
          · exact hpart List.nil_prefix hempty
          · exact hpart (List.prefix_refl _) (s₂.createdFile_beyond hm _)
      · obtain ⟨h1, h2⟩ := OpenState.createdWith_last hencodes hm htr hfs hp
        exact hpart h1 h2

end

namespace Register

/-- The opening of `tornDir` removes a file, cuts another one and creates a third; the next changes
nothing. -/
theorem openLocked_idempotent_torn : ∃ o s' o' s'',
    openLocked machine config { value := 0 } (OpenState.init tornDir) = .ok o s' ∧
    openLocked machine config { value := 0 } (OpenState.init s'.fs) = .ok o' s'' ∧
    o.Same o' ∧ s''.fs = s'.fs := by
  have hok : (match openLocked machine config { value := 0 } (OpenState.init tornDir) with
    | .ok _ _ => true
    | .error _ _ => false) = true := by decide +kernel
  rcases hrun : openLocked machine config { value := 0 } (OpenState.init tornDir) with ⟨o, s'⟩ | ⟨e,
    s'⟩
  · obtain ⟨o', s'', h1, h2, h3, -⟩ := (openLocked_idempotent machine config { value := 0 } tornDir
      (fun _ _ _ _ => rfl) hrun).1 s'.fs (.refl _)
    exact ⟨o, s', o', s'', rfl, h1, h2, h3⟩
  · rw [hrun] at hok
    cases hok

end Register

end Wal

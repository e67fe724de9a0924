import Wal.Opening

/-!
# What a replay reads

`Tidied.removes` says which files the loop over the trailing files takes away. `Reads` is a replay
that succeeds, over the contents of the files alone: `Replayed.reads` finds it in an opening, and
`Reads.replayed` says that an opening of such files can only succeed, with the same result.
-/

namespace Wal

section
variable {A C : Type} [Crc32fast] [Encode A] [Decode A] [Decode C]

/-! ## The trailing files -/

/-- **The trailing files that are removed** hold no record, and the first that stays is not such a
file. -/
theorem Tidied.removes {ids : List Nat} {s s' : OpenState A C} {r : Except IoError (List Nat)}
    (h : Tidied ids s r s') : ∃ gone kept, ids = gone ++ kept ∧ gone.Nodup ∧
      (∀ id ∈ gone, id ∈ s.fs.dir ∧ Blank A C (s.fs.file id).data id) ∧
      s'.fs.dir = s.fs.dir.filter (· ∉ gone) ∧ s'.fs.file = s.fs.file ∧
        s'.fs.aliases = s.fs.aliases ∧
      (∀ id ∈ kept.head?, id ∈ s'.fs.dir → ¬ Blank A C (s.fs.file id).data id) ∧
      ∀ k, r = .ok k → k = kept ∧
        ∀ id ∈ kept.head?, id ∈ s'.fs.dir ∧ recordsIn A C (s.fs.file id).data id ≠ [] := by
  induction h with
  | empty =>
    exact ⟨[], [], rfl, List.nodup_nil, by simp, by simp, rfl, rfl, by simp,
      fun k hk => by cases hk; simp⟩
  | @complete id older s hm hr =>
    refine ⟨[], id :: older, rfl, List.nodup_nil, by simp, by simp, rfl, rfl, fun i hi _ hb => ?_,
      fun k hk => ?_⟩
    · cases hi
      exact hr hb.1
    · cases hk
      exact ⟨rfl, fun i hi => by cases hi; exact ⟨hm, hr⟩⟩
  | @stopped id older s e h =>
    refine ⟨[], id :: older, rfl, List.nodup_nil, by simp, by simp, rfl, rfl, fun i hi hm => ?_,
      fun k hk => (nomatch hk)⟩
    cases hi
    exact (h hm).2
  | @removed id older s r s' hm hb h ih =>
    obtain ⟨gone, kept, hids, hnd, hgone, hdir, hfile, hal, hhead, hok⟩ := ih
    refine ⟨id :: gone, kept, by rw [hids, List.cons_append],
      List.nodup_cons.2 ⟨fun hmem => (Fs.mem_unlink.1 (hgone id hmem).1).2 rfl, hnd⟩, ?_, ?_, hfile,
      hal, hhead, hok⟩
    · intro i hi
      rcases List.mem_cons.1 hi with rfl | hi
      · exact ⟨hm, hb⟩
      · obtain ⟨h1, h2⟩ := hgone i hi
        exact ⟨(Fs.mem_unlink.1 h1).1, h2⟩
    · rw [hdir]
      show ((s.fs.dir.filter (· ≠ id)).filter (· ∉ gone)) = _
      rw [List.filter_filter]
      refine List.filter_congr fun i _ => ?_
      simp only [List.mem_cons, not_or, Bool.decide_and, Bool.and_comm]

theorem Tidied.dir_subset {ids : List Nat} {s s' : OpenState A C} {r : Except IoError (List Nat)}
    (h : Tidied ids s r s') {i : Nat} (hi : i ∈ s'.fs.dir) : i ∈ s.fs.dir := by
  obtain ⟨gone, kept, -, -, -, hdir, -⟩ := h.removes
  rw [hdir] at hi
  exact (List.mem_filter.1 hi).1

/-- The loop goes through blank files. -/
theorem Tidied.through : ∀ {newest rest : List Nat} {s s' : OpenState A C}
    {r : Except IoError (List Nat)}, Tidied (newest ++ rest) s r s' → newest.Nodup →
    (∀ id ∈ newest, id ∈ s.fs.dir ∧ Blank A C (s.fs.file id).data id) →
    ∃ s₁, Tidied rest s₁ r s' ∧ s₁.fs.dir = s.fs.dir.filter (· ∉ newest) ∧ s₁.fs.file = s.fs.file ∧
      s₁.fs.aliases = s.fs.aliases
  | [], _, s, _, _, h, _, _ => ⟨s, h, by simp, rfl, rfl⟩
  | id :: newest, rest, s, s', r, h, hnd, hb => by
    obtain ⟨hmem, hblank⟩ := hb id List.mem_cons_self
    cases h with
    | complete hm hr => exact absurd hblank.1 hr
    | stopped h => exact absurd hblank (h hmem).2
    | removed hm hb' h =>
      obtain ⟨hnot, hnd⟩ := List.nodup_cons.1 hnd
      obtain ⟨s₁, h1, h2, h3, h4⟩ := Tidied.through h hnd fun i hi =>
        ⟨Fs.mem_unlink.2 ⟨(hb i (List.mem_cons_of_mem _ hi)).1, fun he => hnot (he ▸ hi)⟩,
          (hb i (List.mem_cons_of_mem _ hi)).2⟩
      refine ⟨s₁, h1, ?_, h3, h4⟩
      rw [h2]
      show ((s.fs.dir.filter (· ≠ id)).filter (· ∉ newest)) = _
      rw [List.filter_filter]
      refine List.filter_congr fun i _ => ?_
      simp only [List.mem_cons, not_or, Bool.decide_and, Bool.and_comm]

variable (A C) in
/-- The listed files are those that stay and the blank ones behind them. -/
structure Tidy (fs : Fs) (kept removed : List Nat) : Prop where
  listed : loadChunkIds fs = kept ++ removed
  nodup : removed.Nodup
  blank : ∀ i ∈ removed, i ∈ fs.dir ∧ Blank A C (fs.file i).data i
  last : ∀ i ∈ kept.getLast?, i ∈ fs.dir ∧ recordsIn A C (fs.file i).data i ≠ []

omit [Crc32fast] [Encode A] [Decode A] [Decode C] in
theorem loadChunkIds_sorted (fs : Fs) : (loadChunkIds fs).Pairwise (· ≤ ·) :=
  List.pairwise_insertionSort _ _

omit [Crc32fast] in
/-- The files that stay are no newer than the last of them. -/
theorem le_tail {fs : Fs} {kept removed : List Nat} (h : loadChunkIds fs = kept ++ removed)
    {t : Nat} (ht : kept.getLast? = some t) : ∀ i ∈ kept, i ≤ t := by
  intro i hi
  have hs := loadChunkIds_sorted fs
  rw [h, List.pairwise_append] at hs
  obtain ⟨init, rfl⟩ := List.getLast?_eq_some_iff.1 ht
  rw [List.pairwise_append] at hs
  rcases List.mem_append.1 hi with hi | hi
  · exact hs.1.2.2 i hi t (by simp)
  · rw [List.mem_singleton] at hi
    omega

section
variable {fs : Fs} {kept removed : List Nat} {s s' : OpenState A C} {r : Except IoError (List Nat)}

theorem Tidy.disjoint (h : Tidy A C fs kept removed) {i : Nat} (hi : i ∈ kept) : i ∉ removed := by
  intro hrem
  obtain ⟨t, ht⟩ : ∃ t, kept.getLast? = some t :=
    Option.ne_none_iff_exists'.1 fun hn => by
      rw [List.getLast?_eq_none_iff] at hn
      rw [hn] at hi
      cases hi
  have hle := le_tail h.listed ht i hi
  have hs := loadChunkIds_sorted fs
  rw [h.listed, List.pairwise_append] at hs
  have hge := hs.2.2 t (List.mem_of_getLast? ht) i hrem
  have heq : i = t := by omega
  exact (h.last t ht).2 (heq ▸ (h.blank i hrem).2.1)

theorem Tidied.tidy {k : List Nat} (h : Tidied (loadChunkIds s.fs).reverse s (.ok k) s') :
    ∃ removed, Tidy A C s.fs k.reverse removed ∧ s'.fs.dir = s.fs.dir.filter (· ∉ removed) ∧
      s'.fs.file = s.fs.file ∧ s'.fs.aliases = s.fs.aliases := by
  obtain ⟨gone, kept, hids, hnd, hgone, hdir, hfile, hal, -, hok⟩ := h.removes
  obtain ⟨rfl, hlast⟩ := hok k rfl
  have hl := congrArg List.reverse hids
  rw [List.reverse_reverse, List.reverse_append] at hl
  refine ⟨gone.reverse, ⟨hl, List.nodup_reverse.2 hnd, by simpa using hgone, fun i hi => ?_⟩,
    by simpa using hdir, hfile, hal⟩
  rw [List.getLast?_reverse] at hi
  exact ⟨h.dir_subset (hlast i hi).1, (hlast i hi).2⟩

/-- **A tidy directory** is tidied without an error. -/
theorem Tidy.tidied (h : Tidy A C s.fs kept removed)
    (ht : Tidied (loadChunkIds s.fs).reverse s r s') : r = .ok kept.reverse ∧
      s'.fs.dir = s.fs.dir.filter (· ∉ removed) ∧ s'.fs.file = s.fs.file ∧
      s'.fs.aliases = s.fs.aliases := by
  rw [h.listed, List.reverse_append] at ht
  obtain ⟨s₁, h1, h2, h3, h4⟩ := ht.through (List.nodup_reverse.2 h.nodup) fun i hi =>
    h.blank i (List.mem_reverse.1 hi)
  have hdir : s₁.fs.dir = s.fs.dir.filter (· ∉ removed) := by simpa using h2
  rcases hk : kept.reverse with _ | ⟨t, older⟩
  · rw [hk] at h1
    cases h1
    exact ⟨rfl, hdir, h3, h4⟩
  · rw [hk] at h1
    have hlast : kept.getLast? = some t := by rw [← List.head?_reverse, hk]; rfl
    obtain ⟨hm, hr⟩ := h.last t hlast
    have hm₁ : t ∈ s₁.fs.dir := by
      rw [hdir, List.mem_filter]
      exact ⟨hm, decide_eq_true (h.disjoint (List.mem_of_getLast? hlast))⟩
    rw [← h3] at hr
    cases h1 with
    | complete => exact ⟨rfl, hdir, h3, h4⟩
    | stopped hst => exact absurd (hst hm₁).1 hr
    | removed _ hb => exact absurd hb.1 hr

end

end

/-! ## The replay -/

section
variable {A C : Type} [Crc32fast] [Encode A] [Decode A] [Decode C] {sm : StateMachine A C}

/-- A successful replay over the contents of the files; the last chunk may be cut. -/
inductive Reads (config : Config) (file : Nat → Bytes) :
    List Nat → Replay sm → Replay sm → Option Nat → Prop
  | nil {acc} : Reads config file [] acc acc none
  | whole {id ids acc st acc' c} (hp : acc.Follows id) (hf : failureIn A C (file id) id = none)
      (hr : recordsIn A C (file id) id ≠ [])
      (ha : sm.run acc.state (entriesIn A C (file id) id) = .ok st)
      (h : Reads config file ids (acc.next (file id) id none st) acc' c) :
      Reads config file (id :: ids) acc acc' c
  | cut {id acc st} (hp : acc.Follows id) (ht : Truncates A C (file id) id config true)
      (hr : recordsIn A C (file id) id ≠ [])
      (ha : sm.run acc.state (entriesIn A C (file id) id) = .ok st) :
      Reads config file [id] acc (acc.next (file id) id (some (file id).length) st) (some id)

variable (A C) in
/-- The directory after the cut. -/
def Fs.healed (fs : Fs) : Option Nat → Fs
  | none => fs
  | some id => (fs.setLen id (recordsEnd A C (fs.file id).data id)).syncData id

theorem recordsEnd_pos {data : Bytes} {id : Nat} (h : recordsIn A C data id ≠ []) :
    0 < recordsEnd A C data id := by
  obtain ⟨err, hd, -⟩ := records_decodes A C data id
  unfold recordsEnd
  generalize recordsIn A C data id = xs at h hd
  cases hd with
  | done => exact absurd rfl h
  | fail => exact absurd rfl h
  | step hne hd hk h =>
    have := h.lastEnd_le.1
    simp only [List.map_cons, lastEnd, Segment.end_mk]
    omega

section
variable {config : Config} {t : Nat} {ids : List Nat} {acc acc' : Replay sm} {s s' : OpenState A C}
  {r : Except Fault (Replay sm)}

theorem Truncates.tail_eq {data : Bytes} {id i : Nat}
    (h : Truncates A C data i config (some id == some t)) : id = t := by
  have := h.1
  rw [Bool.and_eq_true] at this
  simpa using this.2

theorem Replayed.behind {tail : Option Nat} {prevEnd : Nat}
    (h : Replayed config tail ids acc s r s') (he : acc.prevEndOffset = some prevEnd)
    (hlt : ∀ i ∈ ids, i < prevEnd) :
    s' = s ∧ ∀ acc', r = .ok acc' → ids = [] ∧ acc' = acc := by
  cases h with
  | nil => exact ⟨rfl, fun _ h => by cases h; exact ⟨rfl, rfl⟩⟩
  | stopped h => exact ⟨rfl, fun _ h => (nomatch h)⟩
  | refused hp =>
    have := hp prevEnd he
    have := hlt _ (List.mem_cons_self)
    omega
  | panicked hp =>
    have := hp prevEnd he
    have := hlt _ (List.mem_cons_self)
    omega
  | step hp =>
    have := hp prevEnd he
    have := hlt _ (List.mem_cons_self)
    omega

/-- **Only the last file is cut**, whatever becomes of the replay. -/
theorem Replayed.healed (h : Replayed config (some t) ids acc s r s') (hle : ∀ i ∈ ids, i ≤ t) :
    ∃ c : Option Nat, s'.fs = s.fs.healed A C c ∧
      (∀ id ∈ c, id = t ∧ t ∈ s.fs.dir ∧ Truncates A C (s.fs.file t).data t config true ∧
        ∃ older rest acc', ids = older ++ t :: rest ∧ (∀ i ∈ older, i ∈ s.fs.dir) ∧
          Reads config (fun i => (s.fs.file i).data) older acc acc' none ∧ acc'.Follows t) ∧
      ∀ acc', r = .ok acc' → (∀ id ∈ ids, id ∈ s.fs.dir) ∧
        Reads config (fun i => (s.fs.file i).data) ids acc acc' c := by
  induction h with
  | nil => exact ⟨none, rfl, by simp, fun _ h => by cases h; exact ⟨by simp, .nil⟩⟩
  | stopped h => exact ⟨none, rfl, by simp, fun _ h => (nomatch h)⟩
  | @refused id ids acc s tr s₁ m done hp ho ha hd =>
    cases ho with
    | whole hm hf => exact ⟨none, rfl, by simp, fun _ h => (nomatch h)⟩
    | cut hm ht =>
      have heq : id = t := ht.tail_eq
      subst heq
      refine ⟨some id, rfl, fun i hi => ?_, fun _ h => (nomatch h)⟩
      cases hi
      exact ⟨rfl, hm, by simpa using ht, [], ids, acc, rfl, by simp, .nil, hp⟩
  | @panicked id ids acc s tr s₁ hp ho hr =>
    cases ho with
    | whole hm hf => exact ⟨none, rfl, by simp, fun _ h => (nomatch h)⟩
    | cut hm ht =>
      have heq : id = t := ht.tail_eq
      subst heq
      refine ⟨some id, rfl, fun i hi => ?_, fun _ h => (nomatch h)⟩
      cases hi
      exact ⟨rfl, hm, by simpa using ht, [], ids, acc, rfl, by simp, .nil, hp⟩
  | @step id ids acc s tr s₁ st r s' hp ho hr ha h ih =>
    cases ho with
    | whole hm hf =>
      obtain ⟨c, hfs, hc, hok⟩ := ih fun i hi => hle i (List.mem_cons_of_mem _ hi)
      refine ⟨c, hfs, fun i hi => ?_, fun acc' hr' => ?_⟩
      · obtain ⟨h1, h2, h3, older, rest, acc', rfl, h4, h5, h6⟩ := hc i hi
        refine ⟨h1, h2, h3, id :: older, rest, acc', rfl, fun j hj => ?_, .whole hp hf hr ha h5, h6⟩
        rcases List.mem_cons.1 hj with rfl | hj
        · exact hm
        · exact h4 j hj
      obtain ⟨hmem, hreads⟩ := hok acc' hr'
      refine ⟨fun i hi => ?_, .whole hp hf hr ha hreads⟩
      rcases List.mem_cons.1 hi with rfl | hi
      · exact hm
      · exact hmem i hi
    | cut hm ht =>
      have heq : id = t := ht.tail_eq
      subst heq
      have ht : Truncates A C (s.fs.file id).data id config true := by simpa using ht
      have hpos := recordsEnd_pos hr
      obtain ⟨rfl, hok⟩ := h.behind rfl fun i hi => by
        have := hle i (List.mem_cons_of_mem _ hi)
        show i < id + recordsEnd A C (s.fs.file id).data id
        omega
      refine ⟨some id, rfl, fun i hi => ?_, fun acc' hr' => ?_⟩
      · cases hi
        exact ⟨rfl, hm, ht, [], ids, acc, rfl, by simp, .nil, hp⟩
      · obtain ⟨rfl, rfl⟩ := hok acc' hr'
        exact ⟨by simpa using hm, .cut hp ht hr ha⟩

end

theorem Reads.records {config : Config} {file : Nat → Bytes} {ids : List Nat} {acc acc' : Replay sm}
    {c : Option Nat} (h : Reads config file ids acc acc' c) :
    ∀ i ∈ ids, recordsIn A C (file i) i ≠ [] := by
  induction h with
  | nil => simp
  | whole hp hf hr ha h ih =>
    intro i hi
    rcases List.mem_cons.1 hi with rfl | hi
    · exact hr
    · exact ih i hi
  | cut hp ht hr =>
    intro i hi
    rw [List.mem_singleton] at hi
    rwa [hi]

/-- The fields of a state that a replay of whole files leaves alone. -/
def OpenState.SameFiles (s s' : OpenState A C) : Prop :=
  s'.fs = s.fs ∧ ∃ vs, s'.trail = s.trail ++ vs ∧ ∀ v ∈ vs, v.fs = s.fs

/-- **A replay goes through whole files** and on with what they hold. -/
theorem Reads.through {config : Config} {file : Nat → Bytes} {older rest : List Nat}
    {acc acc' : Replay sm} {c : Option Nat} (hr : Reads config file older acc acc' c)
    (hc : c = none) {tail : Option Nat} {s s' : OpenState A C} {r : Except Fault (Replay sm)}
    (h : Replayed config tail (older ++ rest) acc s r s') (hm : ∀ i ∈ older, i ∈ s.fs.dir)
    (hfile : ∀ i ∈ older, (s.fs.file i).data = file i) :
    ∃ s₁, s.SameFiles s₁ ∧ Replayed config tail rest acc' s₁ r s' ∧
      s₁.applied = s.applied ++ older.flatMap fun i => entriesIn A C (file i) i := by
  induction hr generalizing s with
  | nil => exact ⟨s, ⟨rfl, [], by simp, by simp⟩, h, by simp⟩
  | cut => cases hc
  | @whole id ids acc st acc' c hp hf hr ha h' ih =>
    have hdata := hfile id List.mem_cons_self
    have hmem := hm id List.mem_cons_self
    rw [← hdata] at hf hr ha
    have hopens : ∀ {allow tr s₁}, Opens config allow id s tr s₁ → tr = none ∧ s₁ = s := by
      intro allow tr s₁ ho
      cases ho with
      | whole => exact ⟨rfl, rfl⟩
      | cut _ ht =>
        obtain ⟨-, e, he, -⟩ := ht
        rw [hf] at he
        cases he
    cases h with
    | stopped h =>
      obtain ⟨e, he, -⟩ := h hp hmem
      rw [hf] at he
      cases he
    | refused _ ho ha' =>
      rw [ha] at ha'
      cases ha'
    | panicked _ ho hr' => exact absurd hr' hr
    | step _ ho _ ha' h =>
      obtain ⟨rfl, hs⟩ := hopens ho
      rw [ha] at ha'
      cases ha'
      rw [hdata, hs] at h
      obtain ⟨s₁, ⟨hfs, vs, htr, hvs⟩, hrest, happ⟩ := ih hc h
        (fun i hi => hm i (List.mem_cons_of_mem _ hi))
        (fun i hi => hfile i (List.mem_cons_of_mem _ hi))
      refine ⟨s₁, ⟨hfs, (s.announced (chunkIn A C (file id) id none)
        acc.prevCheckpoint).toOpenView :: vs, ?_, ?_⟩, hrest, ?_⟩
      · rw [htr]
        exact List.append_assoc _ [_] vs
      · intro v hv
        rcases List.mem_cons.1 hv with rfl | hv
        · rfl
        · exact hvs v hv
      · rw [happ, List.flatMap_cons, ← List.append_assoc]
        rfl

/-- **A replay of files that read well** succeeds. -/
theorem Reads.replayed {config : Config} {file : Nat → Bytes} {ids : List Nat}
    {acc acc' : Replay sm} {c : Option Nat} (hr : Reads config file ids acc acc' c)
    {tail : Option Nat} {s s' : OpenState A C} {r : Except Fault (Replay sm)}
    (h : Replayed config tail ids acc s r s') (ht : ∀ i, c = some i → tail = some i)
    (hm : ∀ i ∈ ids, i ∈ s.fs.dir) (hfile : ∀ i ∈ ids, (s.fs.file i).data = file i) :
    r = .ok acc' ∧ s'.fs = s.fs.healed A C c ∧
      s'.applied = s.applied ++ ids.flatMap fun i => entriesIn A C (file i) i := by
  induction hr generalizing s with
  | nil =>
    cases h
    exact ⟨rfl, rfl, by simp⟩
  | @whole id ids acc st acc' c hp hf hr ha h' ih =>
    have hone : Reads config file [id] acc (acc.next (file id) id none st) none :=
      .whole hp hf hr ha .nil
    obtain ⟨s₁, ⟨hfs, -⟩, hrest, happ⟩ := hone.through rfl h (fun i hi => hm i (by simp_all))
      fun i hi => hfile i (by simp_all)
    have := ih hrest ht (fun i hi => by rw [hfs]; exact hm i (List.mem_cons_of_mem _ hi))
      fun i hi => by rw [hfs]; exact hfile i (List.mem_cons_of_mem _ hi)
    rw [hfs, happ] at this
    simpa using this
  | @cut id acc st hp htr hr ha =>
    have hdata := hfile id List.mem_cons_self
    have hmem := hm id List.mem_cons_self
    have htail := ht id rfl
    rw [← hdata] at htr hr ha
    subst htail
    cases h with
    | stopped h =>
      obtain ⟨e, he, hn⟩ := h hp hmem
      exact absurd (by simpa using htr) hn
    | refused _ ho ha' =>
      rw [ha] at ha'
      cases ha'
    | panicked _ ho hr' => exact absurd hr' hr
    | step _ ho _ ha' h =>
      rw [ha] at ha'
      cases ha'
      cases ho with
      | whole _ hf =>
        obtain ⟨-, e, he, -⟩ := htr
        rw [hf] at he
        cases he
      | cut _ _ =>
        cases h
        exact ⟨by rw [hdata], rfl, by rw [List.flatMap_singleton, ← hdata]; rfl⟩

/-! ## What a successful replay carries -/

/-- The chunks lie before the end of the log. -/
def Replay.Ordered (acc : Replay sm) : Prop :=
  ∀ p ∈ acc.closed, ∃ prevEnd, acc.prevEndOffset = some prevEnd ∧ p.1 < prevEnd

section
variable {config : Config} {file : Nat → Bytes} {ids : List Nat} {acc acc' : Replay sm}
  {c : Option Nat}

theorem Replay.next_closed {data : Bytes} {id : Nat} {tr : Option Nat} {st : sm.State}
    (ho : acc.Ordered) (hp : acc.Follows id) : (acc.next data id tr st).closed =
      acc.closed ++ [(id, { state := sm.checkpoint st, chunk := chunkIn A C data id tr })] := by
  refine insertChunk_of_lt fun p hpm => ?_
  obtain ⟨e, he, hlt⟩ := ho p hpm
  rwa [← hp e he]

theorem Replay.Ordered.next {data : Bytes} {id : Nat} {tr : Option Nat} {st : sm.State}
    (ho : acc.Ordered) (hp : acc.Follows id) (hr : recordsIn A C data id ≠ []) :
    (acc.next data id tr st).Ordered := by
  intro p hpm
  have hpos := recordsEnd_pos hr
  refine ⟨id + recordsEnd A C data id, rfl, ?_⟩
  rw [Replay.next_closed ho hp, List.mem_append, List.mem_singleton] at hpm
  rcases hpm with hpm | rfl
  · obtain ⟨e, he, hlt⟩ := ho p hpm
    have := hp e he
    omega
  · show id < _
    omega

theorem Reads.end_ (h : Reads config file ids acc acc' c) {l : Nat} (hl : ids.getLast? = some l) :
    acc'.prevEndOffset = some (l + recordsEnd A C (file l) l) := by
  induction h with
  | nil => cases hl
  | @whole id ids acc st acc' c hp hf hr ha h ih =>
    cases ids with
    | nil =>
      cases h
      cases hl
      rfl
    | cons i ids => exact ih (by rwa [List.getLast?_cons_cons] at hl)
  | cut => cases hl; rfl

theorem Reads.cut_mem (h : Reads config file ids acc acc' c) {i : Nat} (hc : c = some i) :
    ids.getLast? = some i := by
  induction h with
  | nil => cases hc
  | @whole id ids acc st acc' c hp hf hr ha h ih =>
    have := ih hc
    cases ids with
    | nil => cases this
    | cons j ids => rwa [List.getLast?_cons_cons]
  | cut => exact hc

/-- **The chunks a replay leaves**: one for each file, the last marked if its file was cut. -/
theorem Reads.closed (h : Reads config file ids acc acc' c) (ho : acc.Ordered) : acc'.Ordered ∧
    ∃ cs, acc'.closed = acc.closed ++ cs ∧ cs.map (·.1) = ids ∧
      ∀ p ∈ cs.getLast?, p.2.chunk.truncated = c.map fun i => (file i).length := by
  induction h with
  | nil => exact ⟨ho, [], by simp, rfl, by simp⟩
  | @whole id ids acc st acc' c hp hf hr ha h ih =>
    obtain ⟨h1, cs, h2, h3, h4⟩ := ih (ho.next hp hr)
    rw [Replay.next_closed ho hp, List.append_assoc] at h2
    refine ⟨h1, _, h2, by simp [h3], fun p hpm => ?_⟩
    cases cs with
    | nil =>
      simp only [List.map_nil] at h3
      subst h3
      cases h
      cases hpm
      rfl
    | cons q cs =>
      rw [List.singleton_append, List.getLast?_cons_cons] at hpm
      exact h4 p hpm
  | @cut id acc st hp ht hr ha =>
    refine ⟨ho.next hp hr, _, Replay.next_closed ho hp, rfl, fun p hpm => ?_⟩
    cases hpm
    rfl

omit [Crc32fast] [Encode A] [Decode A] [Decode C] in
theorem Replay.start_ordered (st : sm.State) : (Replay.start sm st).Ordered := by
  intro p hp
  cases hp

theorem Reads.increasing (h : Reads config file ids acc acc' c) : ids.Pairwise (· < ·) ∧
    ∀ i ∈ ids, ∀ prevEnd, acc.prevEndOffset = some prevEnd → prevEnd ≤ i := by
  induction h with
  | nil => simp
  | @whole id ids acc st acc' c hp hf hr ha h ih =>
    have hpos := recordsEnd_pos hr
    refine ⟨List.pairwise_cons.2 ⟨fun i hi => ?_, ih.1⟩, fun i hi prevEnd he => ?_⟩
    · have := ih.2 i hi _ rfl
      omega
    · have := hp prevEnd he
      rcases List.mem_cons.1 hi with rfl | hi
      · omega
      · have := ih.2 i hi _ rfl
        omega
  | @cut id acc st hp =>
    refine ⟨by simp, fun i hi prevEnd he => ?_⟩
    have := hp prevEnd he
    rw [List.mem_singleton] at hi
    omega

theorem Reads.lt_end {st : sm.State} (h : Reads config file ids (Replay.start sm st) acc' c)
    {i : Nat} (hi : i ∈ ids) : i < acc'.end_ := by
  obtain ⟨ho, cs, h2, h3, -⟩ := h.closed (Replay.start_ordered st)
  rw [← h3, List.mem_map] at hi
  obtain ⟨p, hp, rfl⟩ := hi
  obtain ⟨e, he, hlt⟩ := ho p (by rw [h2]; exact List.mem_append_right _ hp)
  rwa [Replay.end_, he]

omit [Crc32fast] [Encode A] [Decode A] [Decode C] in
theorem mem_loadChunkIds {fs : Fs} {i : Nat} (h : i ∈ fs.dir) : i ∈ loadChunkIds fs :=
  (List.mem_insertionSort _).2 (List.mem_append_left _ h)

/-- **The name of a new chunk is free.** -/
theorem Tidy.free {fs : Fs} {kept removed : List Nat} {st : sm.State} (h : Tidy A C fs kept removed)
    (hr : Reads config file kept (Replay.start sm st) acc' c) :
    acc'.end_ ∉ fs.dir.filter (· ∉ removed) := by
  intro hm
  obtain ⟨hm, hn⟩ := List.mem_filter.1 hm
  have hl := mem_loadChunkIds hm
  rw [h.listed, List.mem_append] at hl
  exact Nat.lt_irrefl _ (hr.lt_end (hl.resolve_right (of_decide_eq_true hn)))

/-- A chunk is created if there is none, or the last was cut. -/
theorem Reads.reopens {st : sm.State} (h : Reads config file ids (Replay.start sm st) acc' c) :
    reopenLastClosed acc'.closed = none ↔ ids = [] ∨ c.isSome := by
  obtain ⟨-, cs, h2, h3, h4⟩ := h.closed (Replay.start_ordered st)
  rw [show (Replay.start sm st).closed = [] from rfl, List.nil_append] at h2
  unfold reopenLastClosed
  rw [h2]
  rcases hl : cs.getLast? with _ | ⟨i, q⟩
  · rw [List.getLast?_eq_none_iff] at hl
    subst hl
    simp only [List.map_nil] at h3
    simp [← h3]
  · have hq := h4 (i, q) hl
    have hne : ids ≠ [] := by
      rintro rfl
      rw [List.map_eq_nil_iff] at h3
      rw [h3] at hl
      cases hl
    have ht : q.chunk.isTruncated = c.isSome := by
      rw [Chunk.isTruncated, show q.chunk.truncated = _ from hq, Option.isSome_map]
    simp only [ht, hne, false_or]
    cases c <;> simp

end

end

end Wal

import Wal.Reads
import Wal.Register

/-!
# What an opening leaves of a directory

`Outcome` lists what an opening may do to the chunk files: remove trailing ones, cut the last of the
rest and create one behind it. `OpenRun.outcome` finds it in every opening, also in one that fails,
and `openLocked_preserves` draws from it that no record is lost that could be decoded.
-/

namespace Wal

section
variable (A C : Type) [Crc32fast] [Encode A] [Decode A] [Decode C]

/-- What an opening does to a directory: the listed files are the `kept` ones, then those `removed`;
the last of the `kept` ones may be `cut`, and a file may be `created`. -/
structure Outcome (config : Config) (fs fs' : Fs) (kept removed : List Nat)
    (cut created : Option Nat) :
    Prop where
  listed : loadChunkIds fs = kept ++ removed
  blank : ∀ id ∈ removed, id ∈ fs.dir ∧ Blank A C (fs.file id).data id
  dir : fs'.dir = fs.dir.filter (· ∉ removed) ++ created.toList
  cut_last : ∀ id ∈ cut, kept.getLast? = some id ∧ id ∈ fs.dir ∧
    recordsIn A C (fs.file id).data id ≠ [] ∧ Truncates A C (fs.file id).data id config true ∧
    (fs'.file id).data = (fs.file id).data.take (recordsEnd A C (fs.file id).data id)
  created_end : ∀ id ∈ created, id ∉ fs.dir.filter (· ∉ removed) ∧
    match kept.getLast? with
    | none => id = 0
    | some l => id = l + (fs'.file l).data.length
  same : ∀ id, id ∉ cut → id ∉ created → fs'.file id = fs.file id

variable {A C}

theorem Fs.healed_dir (fs : Fs) (c : Option Nat) : (fs.healed A C c).dir = fs.dir := by
  cases c <;> rfl

theorem Fs.healed_self (fs : Fs) (id : Nat) : ((fs.healed A C (some id)).file id).data =
    (fs.file id).data.take (recordsEnd A C (fs.file id).data id) := by
  simp [Fs.healed]

theorem Fs.healed_ne {fs : Fs} {c : Option Nat} {id : Nat} (h : id ∉ c) :
    (fs.healed A C c).file id = fs.file id := by
  cases c with
  | none => rfl
  | some i =>
    have hi : id ≠ i := fun h' => h (by rw [h']; rfl)
    rw [Fs.healed, Fs.syncData_file_ne hi, Fs.setLen_file_ne _ hi]

end

section
variable {A C : Type} [Crc32fast] [Encode A] [Decode A] [Encode C] [Decode C]
    {sm : StateMachine A C}
  {config : Config} {st : sm.State}

omit [Encode C] in
theorem Replayed.outcome {fs : Fs} {kept removed : List Nat} (h : loadChunkIds fs = kept ++ removed)
    (hb : ∀ id ∈ removed, id ∈ fs.dir ∧ Blank A C (fs.file id).data id) {s s' : OpenState A C}
    (hdir : s.fs.dir = fs.dir.filter (· ∉ removed)) (hfile : s.fs.file = fs.file)
    (hlast : ∀ id ∈ kept.getLast?, recordsIn A C (fs.file id).data id ≠ [])
    {r : Except Fault (Replay sm)}
    (hr : Replayed config kept.getLast? kept (Replay.start sm st) s r s') :
    ∃ c : Option Nat, Outcome A C config fs s'.fs kept removed c none ∧
      ∀ acc, r = .ok acc →
        Reads config (fun i => (fs.file i).data) kept (Replay.start sm st) acc c := by
  rcases ht : kept.getLast? with _ | t
  · rw [List.getLast?_eq_none_iff] at ht
    subst ht
    cases hr
    refine ⟨none, ⟨h, hb, by simp [hdir], by simp, by simp, fun id _ _ => by rw [hfile]⟩, ?_⟩
    intro acc hacc
    cases hacc
    exact .nil
  · rw [ht] at hr
    obtain ⟨c, hfs, hc, hok⟩ := hr.healed (le_tail h ht)
    rw [hfile] at hc
    refine ⟨c, ⟨h, hb, ?_, ?_, by simp, ?_⟩, fun acc hacc => ?_⟩
    · rw [hfs, Fs.healed_dir, hdir]
      simp
    · intro id hid
      obtain ⟨rfl, hm, htr, -⟩ := hc id hid
      rw [hdir, List.mem_filter] at hm
      refine ⟨ht, hm.1, hlast id ht, htr, ?_⟩
      cases hid
      rw [hfs, Fs.healed_self, hfile]
    · intro id hid _
      rw [hfs, Fs.healed_ne hid, hfile]
    · have := (hok acc hacc).2
      rwa [hfile] at this

omit [Encode C] in
theorem Outcome.create {fs fs₁ : Fs} {kept removed : List Nat} {c : Option Nat}
    (h : Outcome A C config fs fs₁ kept removed c none) {acc : Replay sm}
    (hr : Reads config (fun i => (fs.file i).data) kept (Replay.start sm st) acc c)
    (hl : reopenLastClosed acc.closed = none) (hm : acc.end_ ∉ fs₁.dir) {fs₂ : Fs}
    (hdir : fs₂.dir = fs₁.dir ++ [acc.end_])
    (hfile : ∀ id, id ≠ acc.end_ → fs₂.file id = fs₁.file id) :
    Outcome A C config fs fs₂ kept removed c (some acc.end_) := by
  have hd := h.dir
  simp only [Option.toList_none, List.append_nil] at hd
  refine ⟨h.listed, h.blank, by rw [hdir, hd]; rfl, fun id hid => ?_, fun id hid => ?_, ?_⟩
  · obtain ⟨h1, h2, h3, h4, h5⟩ := h.cut_last id hid
    refine ⟨h1, h2, h3, h4, ?_⟩
    rw [hfile id ?_, h5]
    rintro rfl
    refine hm ?_
    rw [hd, List.mem_filter]
    refine ⟨h2, decide_eq_true fun hrem => h3 (h.blank _ hrem).2.1⟩
  · cases hid
    rw [← hd]
    refine ⟨hm, ?_⟩
    rcases hlast : kept.getLast? with _ | l
    · rw [List.getLast?_eq_none_iff] at hlast
      subst hlast
      cases hr
      rfl
    · have hend := hr.end_ hlast
      obtain ⟨i, hi⟩ : ∃ i, c = some i := by
        rcases hr.reopens.1 hl with hnil | hc
        · rw [hnil] at hlast
          cases hlast
        · exact Option.isSome_iff_exists.1 hc
      obtain ⟨h1, h2, h3, h4, h5⟩ := h.cut_last i hi
      rw [hlast] at h1
      cases h1
      have hpos := recordsEnd_pos h3
      have hle : recordsEnd A C (fs.file l).data l ≤ (fs.file l).data.length := recordsEnd_le
      simp only [Replay.end_, hend, Option.getD_some]
      rw [hfile l (by simp only [Replay.end_, hend, Option.getD_some]; omega), h5, List.length_take,
        Nat.min_eq_left hle]
  · intro id hid hcr
    have hne : id ≠ acc.end_ := fun h' => hcr (by rw [h']; rfl)
    rw [hfile id hne, h.same id hid (by simp)]

/-- **What every opening does to its directory**, one that fails included. -/
theorem OpenRun.outcome {s s' : OpenState A C} {r : Except Fault (Opened sm)}
    (h : OpenRun config st s r s') : ∃ kept removed cut created,
      Outcome A C config s.fs s'.fs kept removed cut created := by
  have htidy : ∀ {rt : Except IoError (List Nat)} {s₁ : OpenState A C},
      Tidied (loadChunkIds s.fs).reverse s rt s₁ → ∃ kept removed,
        loadChunkIds s.fs = kept ++ removed ∧
        (∀ id ∈ removed, id ∈ s.fs.dir ∧ Blank A C (s.fs.file id).data id) ∧
        s₁.fs.dir = s.fs.dir.filter (· ∉ removed) ∧ s₁.fs.file = s.fs.file ∧
        ∀ k, rt = .ok k → kept = k.reverse ∧
          ∀ id ∈ kept.getLast?, recordsIn A C (s.fs.file id).data id ≠ [] := by
    intro rt s₁ ht
    obtain ⟨gone, k, hids, -, hgone, hdir, hfile, -, -, hok⟩ := ht.removes
    refine ⟨k.reverse, gone.reverse, ?_, ?_, ?_, hfile, fun k' hk' => ?_⟩
    · rw [← List.reverse_append, ← hids, List.reverse_reverse]
    · simpa using hgone
    · simpa using hdir
    · obtain ⟨rfl, hlast⟩ := hok k' hk'
      refine ⟨rfl, fun id hid => (hlast id ?_).2⟩
      rwa [List.getLast?_reverse] at hid
  cases h with
  | invalid =>
    exact ⟨loadChunkIds s.fs, [], none, none, by simp, by simp, by simp, by simp, by simp, by simp⟩
  | untidy hv ht =>
    obtain ⟨kept, removed, h1, h2, h3, h4, -⟩ := htidy ht
    exact ⟨kept, removed, none, none, h1, h2, by simp [h3], by simp, by simp, by simp [h4]⟩
  | failed hv ht hr =>
    obtain ⟨kept, removed, h1, h2, h3, h4, h5⟩ := htidy ht
    obtain ⟨rfl, h5⟩ := h5 _ rfl
    obtain ⟨c, ho, -⟩ := hr.outcome h1 h2 h3 h4 h5
    exact ⟨_, removed, c, none, ho⟩
  | reopened hv ht hr hl =>
    obtain ⟨kept, removed, h1, h2, h3, h4, h5⟩ := htidy ht
    obtain ⟨rfl, h5⟩ := h5 _ rfl
    obtain ⟨c, ho, -⟩ := hr.outcome h1 h2 h3 h4 h5
    exact ⟨_, removed, c, none, ho⟩
  | blocked hv ht hr hl hm =>
    obtain ⟨kept, removed, h1, h2, h3, h4, h5⟩ := htidy ht
    obtain ⟨rfl, h5⟩ := h5 _ rfl
    obtain ⟨c, ho, -⟩ := hr.outcome h1 h2 h3 h4 h5
    exact ⟨_, removed, c, none, ho⟩
  | unencoded hv ht hr hl hm he =>
    obtain ⟨kept, removed, h1, h2, h3, h4, h5⟩ := htidy ht
    obtain ⟨rfl, h5⟩ := h5 _ rfl
    obtain ⟨c, ho, hok⟩ := hr.outcome h1 h2 h3 h4 h5
    exact ⟨_, removed, c, _, ho.create (hok _ rfl) hl hm rfl fun id hid => Fs.createNew_file_ne hid⟩
  | created hv ht hr hl hm he =>
    obtain ⟨kept, removed, h1, h2, h3, h4, h5⟩ := htidy ht
    obtain ⟨rfl, h5⟩ := h5 _ rfl
    obtain ⟨c, ho, hok⟩ := hr.outcome h1 h2 h3 h4 h5
    refine ⟨_, removed, c, _, ho.create (hok _ rfl) hl hm rfl fun id hid => ?_⟩
    exact (Fs.append_file_ne _ hid).trans (Fs.createNew_file_ne hid)

/-- The state that a run ends in, with a result or with a fault. -/
def stateOf {ε σ α : Type} : EStateM.Result ε σ α → σ
  | .ok _ s => s
  | .error _ s => s

omit [Crc32fast] [Encode A] [Decode A] [Encode C] [Decode C] in
theorem stateOf_resultIn {σ α : Type} (r : Except Fault α) (s : σ) :
    stateOf (resultIn r s) = s := by
  cases r <;> rfl

variable {fs fs' : Fs} {kept removed : List Nat} {cut created : Option Nat}

omit [Encode C] in
theorem Outcome.trailing (h : Outcome A C config fs fs' kept removed cut created) {id i : Nat}
    (hid : id ∈ removed) (hi : i ∈ loadChunkIds fs) (hle : id ≤ i) :
    i ∈ fs.dir ∧ recordsIn A C (fs.file i).data i = [] := by
  have hs := loadChunkIds_sorted fs
  rw [h.listed, List.pairwise_append] at hs
  rw [h.listed, List.mem_append] at hi
  have hrem : i ∈ removed := by
    rcases hi with hi | hi
    · have := hs.2.2 i hi id hid
      rwa [show i = id by omega]
    · exact hi
  exact ⟨(h.blank i hrem).1, (h.blank i hrem).2.1⟩

omit [Encode C] in
theorem Outcome.keeps [LocalDecode A] [LocalDecode C]
    (h : Outcome A C config fs fs' kept removed cut created) {id : Nat} (hid : id ∈ fs.dir)
    (hr : recordsIn A C (fs.file id).data id ≠ []) :
    id ∈ fs'.dir ∧ recordsIn A C (fs'.file id).data id = recordsIn A C (fs.file id).data id := by
  have hmem : id ∈ fs.dir.filter (· ∉ removed) :=
    List.mem_filter.2 ⟨hid, decide_eq_true fun hrem => hr (h.blank id hrem).2.1⟩
  refine ⟨by rw [h.dir]; exact List.mem_append_left _ hmem, ?_⟩
  by_cases hc : id ∈ cut
  · obtain ⟨-, -, -, -, hdata⟩ := h.cut_last id hc
    obtain ⟨err, hd, -⟩ := records_decodes A C (fs.file id).data id
    obtain ⟨err', hd', -⟩ := records_decodes A C (fs'.file id).data id
    have htake := hd.take
    rw [Nat.sub_zero] at htake
    rw [hdata] at hd' ⊢
    exact (hd'.unique htake).1
  · rw [h.same id hc fun hcr => (h.created_end id hcr).1 hmem]

/-- **Recovery never loses a decodable record.** Over any directory, and however the opening ends: a
file with records stays and decodes to the same records; only files of the trailing run without
records are removed; the last of the others may be cut behind its last record; a new file begins
where that one ends; all other files are unchanged. -/
theorem openLocked_preserves [LocalDecode A] [LocalDecode C] (sm : StateMachine A C)
    (config : Config) (st : sm.State) (fs : Fs) : ∃ kept removed cut created,
      Outcome A C config fs (stateOf (openLocked sm config st (OpenState.init fs))).fs kept
        removed cut
        created ∧
      (∀ id ∈ fs.dir, recordsIn A C (fs.file id).data id ≠ [] →
        id ∈ (stateOf (openLocked sm config st (OpenState.init fs))).fs.dir ∧
        recordsIn A C ((stateOf (openLocked sm config st (OpenState.init fs))).fs.file id).data id =
          recordsIn A C (fs.file id).data id) ∧
      (∀ id ∈ removed, ∀ i ∈ loadChunkIds fs, id ≤ i →
        i ∈ fs.dir ∧ recordsIn A C (fs.file i).data i = []) := by
  obtain ⟨r, s', hrun, heq⟩ := openLocked_run config st (OpenState.init fs)
  obtain ⟨kept, removed, cut, created, ho⟩ := hrun.outcome
  rw [heq, stateOf_resultIn]
  exact ⟨kept, removed, cut, created, ho, fun id hid hr => ho.keeps hid hr,
    fun id hid i hi hle => ho.trailing hid hi hle⟩

end

namespace Register

/-- A chunk with a checkpoint and an action, a torn action, and the beginning of a second chunk. -/
def tornDir : Fs where
  dir := [0, 18]
  aliases := []
  committed := fun _ => true
  file := fun id =>
    if id = 0 then FileData.append .empty (encAll (α := WALRecord Put Register)
      [.checkpoint { value := 0 }, .action { value := 1 }] ++ [0, 0, 0])
    else FileData.append .empty [0, 0]

theorem openLocked_preserves_torn :
    0 ∈ (stateOf (openLocked machine config { value := 0 } (OpenState.init tornDir))).fs.dir := by
  obtain ⟨kept, removed, cut, created, -, hkeep, -⟩ :=
    openLocked_preserves machine config { value := 0 } tornDir
  exact (hkeep 0 (by decide) (by decide +kernel)).1

end Register

end Wal

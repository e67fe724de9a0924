import Wal.FileName
import Wal.Idempotent

/-!
# The listing of a directory

`load_chunk_ids` over the names in a directory, those of the chunks and those of other files.
`Directory.fs` is the directory as the rest of the model sees it: the chunks that exist, and the ids
that other names are taken for. `loadChunkIds_exact` says which names are the ones that do harm.
-/

namespace Wal

open Lib

/-! ## Names that are no chunk's -/

/-- Two digits and six groups of three, with underscores between them. -/
def Grouped (m : List Char) : Prop := m.length = 26 ∧ Spaced '_' Char.isDigit m

/-- A name that is parsed although it is no chunk's: between `r-` and `.wal` it has 26 bytes whose
digits denote a number of 64 bits, and they are not grouped. -/
def Misgrouped (s : String) : Prop :=
  ∃ m, s.toList = "r-".toList ++ m ++ ".wal".toList ∧ strLen m = 26 ∧ m.filter Char.isDigit ≠ [] ∧
    ofDigits (m.filter Char.isDigit) < 2 ^ 64 ∧ ¬ Grouped m

theorem middle_inj {m m' : List Char}
    (h : "r-".toList ++ m ++ ".wal".toList = "r-".toList ++ m' ++ ".wal".toList) : m = m' :=
  List.append_cancel_left (List.append_cancel_right h)

theorem Grouped.chunkFileName {m : List Char} (h : Grouped m) {s : String}
    (hs : s.toList = "r-".toList ++ m ++ ".wal".toList) :
    s = chunkFileName (ofDigits (m.filter Char.isDigit)) := by
  obtain ⟨hlen, hspaced⟩ := h
  have hds : (m.filter Char.isDigit).length = 20 := by rw [hspaced.length_filter rfl, hlen]
  have hgroups := hspaced.groups_filter rfl
  rw [if_neg (by rw [hlen]; decide)] at hgroups
  have hpadded :=
    paddedDigits_ofDigits (AllDigits.filter (l :=
      m)) (List.ne_nil_of_length_pos (by rw [hds]; decide))
  rw [hds] at hpadded
  rw [← String.toList_inj, chunkFileName_toList, hpadded, hgroups, hs]

theorem replacement_not_mem (n : Nat) : '\uFFFD' ∉ (Wal.chunkFileName n).toList := by
  rw [chunkFileName_toList, List.mem_append, List.mem_append]
  rintro ((h | h) | h)
  · exact absurd h (by decide)
  · have hs : Spaced '_' Char.isDigit (groups '_' (paddedDigits n 20)) :=
      spaced_groups (paddedDigits_digits n 20)
    rcases hs.eq_or h with h | h
    · cases h
    · cases h
  · exact absurd h (by decide)

theorem grouped_of_chunkFileName {n : Nat} (hn : n < 2 ^ 64) {m : List Char}
    (hs : (Wal.chunkFileName n).toList = "r-".toList ++ m ++ ".wal".toList) : Grouped m := by
  rw [chunkFileName_toList] at hs
  rw [← middle_inj hs]
  refine ⟨?_, spaced_groups (paddedDigits_digits n 20)⟩
  rw [groups_length, paddedDigits_length (by decide) (lt_pow_twenty hn)]

/-- What is parsed is a chunk's name, or misgrouped. -/
theorem parseChunkFileName_eq_name {s : String} {n : Nat} (h : parseChunkFileName s = .ok n)
    (hs : ¬ Misgrouped s) :
    s = chunkFileName n := by
  obtain ⟨m, heq, hlen, hne, hn, hlt⟩ := parseChunkFileName_ok_iff.1 h
  by_cases hg : Grouped m
  · rw [hg.chunkFileName heq, hn]
  · exact absurd ⟨m, heq, hlen, hne, hn ▸ hlt, hg⟩ hs

theorem Misgrouped.parse {s : String} (h : Misgrouped s) :
    ∃ n, parseChunkFileName s = .ok n ∧ s ≠ chunkFileName n := by
  obtain ⟨m, heq, hlen, hne, hlt, hg⟩ := h
  refine ⟨_, parseChunkFileName_ok_iff.2 ⟨m, heq, hlen, hne, rfl, hlt⟩, fun hs => hg ?_⟩
  exact grouped_of_chunkFileName hlt (hs ▸ heq)

/-! ## Directories -/

/-- A name in a directory. One that is no Unicode text shows a replacement character. -/
inductive OsName
  | text (s : String)
  | bytes (raw : Bytes) (lossy : String) (replaced : '\uFFFD' ∈ lossy.toList)
  deriving DecidableEq

namespace OsName

/-- `OsStr::to_string_lossy`. -/
def toStringLossy : OsName → String
  | text s => s
  | bytes _ lossy _ => lossy

/-- The chunk whose file has the name. -/
def chunkId? : OsName → Option Nat
  | text s =>
    match parseChunkFileName s with
    | .ok n => if s = chunkFileName n then some n else none
    | .error _ => none
  | bytes .. => none

/-- The chunk that a name is taken for though it is not the name of its file. -/
def alias? (o : OsName) : Option Nat :=
  match o.chunkId?, parseChunkFileName o.toStringLossy with
  | none, .ok n => some n
  | _, _ => none

end OsName

def LOCK_FILE_NAME : String := "LOCK"

/-- The loop of `ChunkedWal::load_chunk_ids`. -/
def loadNames : List OsName → List Nat
  | [] => []
  | name :: rest =>
    if name.toStringLossy = LOCK_FILE_NAME then loadNames rest
    else
      match parseChunkFileName name.toStringLossy with
      | .ok offset => offset :: loadNames rest
      | .error _ => loadNames rest

/-- No two files of a directory have one name. -/
structure Directory where
  names : List OsName
  nodup : names.Nodup
  committed : Nat → Bool
  file : Nat → FileData

namespace Directory

/-- `ChunkedWal::load_chunk_ids`. -/
def loadChunkIds (d : Directory) : List Nat := (loadNames d.names).insertionSort (· ≤ ·)

/-- The directory as an opening finds it. -/
def fs (d : Directory) : Fs where
  dir := d.names.filterMap OsName.chunkId?
  aliases := d.names.filterMap OsName.alias?
  committed := d.committed
  file := d.file

/-- The directory without its foreign files. -/
def own (d : Directory) : Directory where
  names := d.names.filter fun o => o.chunkId?.isSome
  nodup := d.nodup.filter _
  committed := d.committed
  file := d.file

end Directory

namespace OsName

theorem chunkId?_eq_some {o : OsName} {n : Nat} :
    o.chunkId? = some n ↔ o = text (chunkFileName n) ∧ n < 2 ^ 64 := by
  constructor
  · intro h
    rcases o with s | ⟨raw, lossy, hr⟩
    · simp only [chunkId?] at h
      split at h
      · rename_i n' hn
        split at h
        · rename_i hs
          cases h
          obtain ⟨m, -, -, -, -, hlt⟩ := parseChunkFileName_ok_iff.1 hn
          exact ⟨congrArg text hs, hlt⟩
        · cases h
      · cases h
    · cases h
  · rintro ⟨rfl, hn⟩
    simp [chunkId?, parseChunkFileName_chunkFileName hn]

theorem alias?_eq_some {o : OsName} {n : Nat} :
    o.alias? = some n ↔ o.chunkId? = none ∧ parseChunkFileName o.toStringLossy = .ok n := by
  unfold alias?
  split
  · rename_i n' h1 h2
    simp [h1, h2]
  · rename_i h
    constructor
    · intro h'
      cases h'
    · rintro ⟨h1, h2⟩
      exact absurd h2 (h n h1)

theorem parse_of_chunkId? {o : OsName} {n : Nat} (h : o.chunkId? = some n) :
    parseChunkFileName o.toStringLossy = .ok n := by
  obtain ⟨rfl, hn⟩ := chunkId?_eq_some.1 h
  exact parseChunkFileName_chunkFileName hn

/-- What is parsed is the chunk's name or taken for it, and not both. -/
theorem split_of_parse {o : OsName} {n : Nat} (h : parseChunkFileName o.toStringLossy = .ok n) :
    o.chunkId? = some n ∧ o.alias? = none ∨ o.chunkId? = none ∧ o.alias? = some n := by
  rcases hc : o.chunkId? with _ | n'
  · exact .inr ⟨rfl, alias?_eq_some.2 ⟨hc, h⟩⟩
  · cases (parse_of_chunkId? hc).symm.trans h
    refine .inl ⟨rfl, ?_⟩
    rcases ha : o.alias? with _ | n''
    · rfl
    · cases hc.symm.trans (alias?_eq_some.1 ha).1

theorem none_of_parse {o : OsName} {e : InvalidChunkFileName}
    (h : parseChunkFileName o.toStringLossy = .error e) :
    o.chunkId? = none ∧ o.alias? = none := by
  constructor
  · rcases hc : o.chunkId? with _ | n
    · rfl
    · cases (parse_of_chunkId? hc).symm.trans h
  · rcases ha : o.alias? with _ | n
    · rfl
    · cases (alias?_eq_some.1 ha).2.symm.trans h

/-- **The harmful names**: those that are misgrouped are taken for a chunk. -/
theorem alias?_isSome_iff {o : OsName} : (∃ n, o.alias? = some n) ↔ Misgrouped o.toStringLossy := by
  constructor
  · rintro ⟨n, h⟩
    obtain ⟨hnone, hparse⟩ := alias?_eq_some.1 h
    by_contra hm
    have hs := parseChunkFileName_eq_name hparse hm
    rcases o with s | ⟨raw, lossy, hr⟩
    · obtain ⟨m, -, -, -, -, hlt⟩ := parseChunkFileName_ok_iff.1 hparse
      have hs : s = chunkFileName n := hs
      rw [chunkId?_eq_some.2 ⟨congrArg text hs, hlt⟩] at hnone
      cases hnone
    · have hs : lossy = chunkFileName n := hs
      exact replacement_not_mem n (hs ▸ hr)
  · intro hm
    obtain ⟨n, hparse, hne⟩ := hm.parse
    refine ⟨n, alias?_eq_some.2 ⟨?_, hparse⟩⟩
    rcases hc : o.chunkId? with _ | n'
    · rfl
    · cases (parse_of_chunkId? hc).symm.trans hparse
      obtain ⟨rfl, -⟩ := chunkId?_eq_some.1 hc
      exact absurd rfl hne

end OsName

/-! ## What is listed -/

/-- The loop lists a name once, as the chunk's own or as another's. -/
theorem loadNames_perm (names : List OsName) :
    (loadNames names).Perm (names.filterMap OsName.chunkId? ++ names.filterMap OsName.alias?) := by
  induction names with
  | nil => rfl
  | cons o names ih =>
    have hloop : loadNames (o :: names) = match parseChunkFileName o.toStringLossy with
        | .ok offset => offset :: loadNames names
        | .error _ => loadNames names := by
      rw [loadNames]
      split
      · rename_i h
        have hlock : parseChunkFileName o.toStringLossy =
            .error { badFileName := LOCK_FILE_NAME, reason := "has no '.wal' suffix" } := by
          rw [h]
          rfl
        rw [hlock]
      · rfl
    rw [hloop, List.filterMap_cons, List.filterMap_cons]
    rcases hp : parseChunkFileName o.toStringLossy with e | n
    · rw [(OsName.none_of_parse hp).1, (OsName.none_of_parse hp).2]
      exact ih
    · rcases OsName.split_of_parse hp with ⟨h1, h2⟩ | ⟨h1, h2⟩
      · rw [h1, h2]
        exact ih.cons n
      · rw [h1, h2]
        exact (ih.cons n).trans List.perm_middle.symm

namespace Directory

/-- **The listing by names** is the one that the rest of the model uses. -/
theorem loadChunkIds_fs (d : Directory) : Wal.loadChunkIds d.fs = d.loadChunkIds := by
  have hperm : (Wal.loadChunkIds d.fs).Perm d.loadChunkIds := by
    refine (List.perm_insertionSort _ _).trans ?_
    exact (loadNames_perm d.names).symm.trans (List.perm_insertionSort _ _).symm
  refine hperm.eq_of_pairwise (fun a b _ _ h1 h2 => Nat.le_antisymm h1 h2)
    (loadChunkIds_sorted d.fs) ?_
  exact List.pairwise_insertionSort _ _

theorem loadChunkIds_perm (d : Directory) : d.loadChunkIds.Perm (d.fs.dir ++ d.fs.aliases) :=
  (List.perm_insertionSort _ _).trans (loadNames_perm d.names)

theorem mem_dir {d : Directory} {n : Nat} :
    n ∈ d.fs.dir ↔ .text (chunkFileName n) ∈ d.names ∧ n < 2 ^ 64 := by
  simp only [fs, List.mem_filterMap, OsName.chunkId?_eq_some]
  constructor
  · rintro ⟨o, ho, rfl, hn⟩
    exact ⟨ho, hn⟩
  · rintro ⟨ho, hn⟩
    exact ⟨_, ho, rfl, hn⟩

theorem dir_nodup (d : Directory) : d.fs.dir.Nodup := by
  refine d.nodup.filterMap fun o o' n h h' => ?_
  rw [(OsName.chunkId?_eq_some.1 h).1, (OsName.chunkId?_eq_some.1 h').1]

theorem aliases_eq_nil_iff {d : Directory} :
    d.fs.aliases = [] ↔ ∀ o ∈ d.names, ¬ Misgrouped o.toStringLossy := by
  simp only [fs, List.filterMap_eq_nil_iff, ← OsName.alias?_isSome_iff, not_exists]
  exact forall₂_congr fun o _ => Option.eq_none_iff_forall_ne_some

/-- The directory without its foreign files, when none of them is taken for a chunk. -/
theorem own_fs {d : Directory} (h : d.fs.aliases = []) : d.own.fs = d.fs := by
  have hdir : d.own.fs.dir = d.fs.dir := by
    show (d.names.filter _).filterMap _ = d.names.filterMap _
    rw [List.filterMap_filter]
    refine List.filterMap_congr fun o _ => ?_
    rcases o.chunkId? <;> rfl
  have halias : d.own.fs.aliases = d.fs.aliases := by
    rw [h]
    have h := aliases_eq_nil_iff.1 h
    exact aliases_eq_nil_iff.2 fun o ho => h o (List.mem_filter.1 ho).1
  show Fs.mk d.own.fs.dir d.own.fs.aliases _ _ _ = Fs.mk d.fs.dir d.fs.aliases _ _ _
  rw [hdir, halias]
  rfl

end Directory

section
variable {A C : Type} [Crc32fast] [Encode A] [Decode A] [Encode C] [Decode C]
    {sm : StateMachine A C}

/-- An opening that succeeds found no file that is taken for a chunk. -/
theorem aliases_of_openLocked {config : Config} {st : sm.State} {fs : Fs} {o : Opened sm}
    {x : OpenState A C} (h : (openLocked sm config st).run (OpenState.init fs) = .ok o x) :
    fs.aliases = [] := by
  obtain ⟨r, x', hrun, heq⟩ := openLocked_run config st (OpenState.init fs)
  have := heq.symm.trans h
  rcases r with e | o'
  · cases this
  · obtain ⟨-, kept, removed, acc, c, hs⟩ := hrun.sound
    exact hs.aliases

/-- **The listing is exact just where no name is misgrouped**: a name that is parsed is then the
chunk's, the listed chunks exist and are listed once, and the log opens just if it opens without the
foreign files. A misgrouped name in the directory breaks each of these. -/
theorem loadChunkIds_exact (config : Config) (st : sm.State) (d : Directory) :
    (∀ s : String, (∀ n, parseChunkFileName s = .ok n → s = chunkFileName n) ↔ ¬ Misgrouped s) ∧
    (((∀ i ∈ d.loadChunkIds, .text (chunkFileName i) ∈ d.names) ∧ d.loadChunkIds.Nodup) ↔
      ∀ o ∈ d.names, ¬ Misgrouped o.toStringLossy) ∧
    ((∃ o x, (openLocked sm config st).run (OpenState.init (A := A) (C := C) d.fs) = .ok o x) ↔
      (∃ o x, (openLocked sm config st).run (OpenState.init (A := A) (C := C) d.own.fs) = .ok o x) ∧
        ∀ o ∈ d.names, ¬ Misgrouped o.toStringLossy) := by
  refine ⟨fun s => ⟨fun h hm => ?_, fun hm n h => parseChunkFileName_eq_name h hm⟩, ⟨?_, ?_⟩,
    ⟨?_, ?_⟩⟩
  · obtain ⟨n, hn, hne⟩ := hm.parse
    exact hne (h n hn)
  · rintro ⟨hexist, hnodup⟩
    rw [← Directory.aliases_eq_nil_iff, List.eq_nil_iff_forall_not_mem]
    intro n hn
    rw [d.loadChunkIds_perm.nodup_iff, List.nodup_append] at hnodup
    refine hnodup.2.2 n (Directory.mem_dir.2 ⟨hexist n ?_, ?_⟩) n hn rfl
    · exact d.loadChunkIds_perm.mem_iff.2 (List.mem_append_right _ hn)
    · obtain ⟨o, -, ho⟩ := List.mem_filterMap.1 hn
      obtain ⟨m, -, -, -, -, hlt⟩ := parseChunkFileName_ok_iff.1 (OsName.alias?_eq_some.1 ho).2
      exact hlt
  · intro h
    have hperm := d.loadChunkIds_perm
    rw [Directory.aliases_eq_nil_iff.2 h, List.append_nil] at hperm
    exact ⟨fun i hi => (Directory.mem_dir.1 (hperm.mem_iff.1 hi)).1, hperm.nodup_iff.2 d.dir_nodup⟩
  · rintro ⟨o, x, h⟩
    have hal := aliases_of_openLocked h
    exact ⟨⟨o, x, by rw [Directory.own_fs hal]; exact h⟩, Directory.aliases_eq_nil_iff.1 hal⟩
  · rintro ⟨⟨o, x, h⟩, hm⟩
    exact ⟨o, x, by rw [← Directory.own_fs (Directory.aliases_eq_nil_iff.2 hm)]; exact h⟩

end

/-- Digits without underscores are parsed, though no chunk has the name. -/
theorem parse_ungrouped :
    ¬ ∀ (s : String) (n : Nat), parseChunkFileName s = .ok n → s = chunkFileName n := by
  intro h
  have hs := h "r-00000000000000000000000001.wal" 1 rfl
  exact absurd (congrArg String.toList hs) (by decide +kernel)

end Wal

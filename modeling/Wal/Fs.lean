import Wal.Basic

/-!
# The WAL directory

What the code sees of the file system: the directory, the chunk files in it and how much of each
is on stable storage. A chunk file is named by its chunk id, and a handle (`Arc<File>`) by the id
it was opened under: handles keep working after an unlink. `crash` is what a process exit or a
power loss leaves: of every file an arbitrary prefix that holds at least what was synchronized, and
of every name either the name or, if the directory was not synchronized since, nothing. A removed
name is gone for good when the directory is synchronized, or when a file of that name is created
again; until then a crash may bring it back, each of them or not.
-/

namespace Wal

/-- A file's contents and how many of its first bytes are on stable storage. -/
structure FileData where
  data : Bytes
  synced : Nat
  synced_le : synced ≤ data.length

namespace FileData

def empty : FileData := { data := [], synced := 0, synced_le := Nat.le_refl _ }

def append (f : FileData) (bs : Bytes) : FileData where
  data := f.data ++ bs
  synced := f.synced
  synced_le := by have := f.synced_le; simp; omega

/-- `File::sync_data`, `File::sync_all`. -/
def sync (f : FileData) : FileData where
  data := f.data
  synced := f.data.length
  synced_le := Nat.le_refl _

/-- `File::set_len` to at most the present length. -/
def setLen (f : FileData) (n : Nat) : FileData where
  data := f.data.take n
  synced := min f.synced n
  synced_le := by have := f.synced_le; simp; omega

/-- The first `n` bytes, of which the first `m` are on stable storage. -/
def cut (f : FileData) (n m : Nat) : FileData where
  data := f.data.take n
  synced := min m (f.data.take n).length
  synced_le := Nat.min_le_right _ _

@[simp] theorem empty_data : empty.data = [] := rfl
@[simp] theorem empty_synced : empty.synced = 0 := rfl
@[simp] theorem append_data (f : FileData) (bs : Bytes) : (f.append bs).data = f.data ++ bs := rfl
@[simp] theorem append_synced (f : FileData) (bs : Bytes) : (f.append bs).synced = f.synced := rfl
@[simp] theorem sync_data (f : FileData) : f.sync.data = f.data := rfl
@[simp] theorem sync_synced (f : FileData) : f.sync.synced = f.data.length := rfl
@[simp] theorem setLen_data (f : FileData) (n : Nat) : (f.setLen n).data = f.data.take n := rfl
@[simp] theorem cut_data (f : FileData) (n m : Nat) : (f.cut n m).data = f.data.take n := rfl

@[ext] theorem ext {f g : FileData} (hd : f.data = g.data) (hs : f.synced = g.synced) : f = g := by
  cases f; cases g; simp_all

end FileData

/-- The directory: `dir` lists the chunk files by id, `aliases` the ids that other file names parse
to, `committed` the names that a directory synchronization has covered, and `unlinked` the names
that were removed since the last one, in their order. -/
structure Fs where
  dir : List Nat
  aliases : List Nat
  committed : Nat → Bool
  file : Nat → FileData
  unlinked : List Nat := []

namespace Fs

/-- A directory without chunk files. -/
def fresh : Fs := { dir := [], aliases := [], committed := fun _ => false, file := fun _ => .empty }

def modifyFile (fs : Fs) (id : Nat) (g : FileData → FileData) : Fs :=
  { fs with file := Function.update fs.file id (g (fs.file id)) }

def append (fs : Fs) (id : Nat) (bs : Bytes) : Fs := fs.modifyFile id (·.append bs)

def syncData (fs : Fs) (id : Nat) : Fs := fs.modifyFile id (·.sync)

def setLen (fs : Fs) (id : Nat) (n : Nat) : Fs := fs.modifyFile id (·.setLen n)

/-- `OpenOptions::create_new` on a name that is not in use. -/
def createNew (fs : Fs) (id : Nat) : Fs where
  dir := fs.dir ++ [id]
  aliases := fs.aliases
  committed := Function.update fs.committed id false
  file := Function.update fs.file id .empty
  unlinked := fs.unlinked.filter (· ≠ id)

/-- `Config::sync_dir`. -/
def syncDir (fs : Fs) : Fs :=
  { fs with committed := fun id => decide (id ∈ fs.dir), unlinked := [] }

/-- `std::fs::remove_file`; open handles keep the contents, and the removal is not on stable
storage yet. -/
def unlink (fs : Fs) (id : Nat) : Fs :=
  { fs with dir := fs.dir.filter (· ≠ id), unlinked := fs.unlinked ++ [id] }

/-- What a crash may keep of each file: nothing, or a number of bytes and how many of them are on
stable storage. -/
abbrev Keep := Nat → Option (Nat × Nat)

/-- The crash keeps what was synchronized and names no longer than the file. A name goes only if it
was never synchronized, or if it was removed. -/
def KeepOk (fs : Fs) (keep : Keep) (id : Nat) : Prop :=
  match keep id with
  | none => fs.committed id = false ∨ id ∈ fs.unlinked
  | some (n, m) => (fs.file id).synced ≤ m ∧ m ≤ n ∧ n ≤ (fs.file id).data.length

instance (fs : Fs) (keep : Keep) (id : Nat) : Decidable (fs.KeepOk keep id) := by
  unfold KeepOk; split <;> infer_instance

def cutAll (fs : Fs) (keep : Keep) : Fs where
  dir := (fs.dir ++ fs.unlinked).filter fun id => (keep id).isSome
  aliases := fs.aliases
  committed := fs.committed
  file := fun id =>
    match keep id with
    | none => fs.file id
    | some (n, m) => (fs.file id).cut n m
  unlinked := fs.unlinked.filter fun id => (keep id).isNone

/-- The removals that a crash undoes. -/
def revived (fs : Fs) (keep : Keep) : List Nat := fs.unlinked.filter fun id => (keep id).isSome

/-- A process exit or a power loss. -/
def crash (fs : Fs) (keep : Keep) : Option Fs :=
  if ∀ id ∈ fs.dir ++ fs.unlinked, fs.KeepOk keep id then some (fs.cutAll keep) else none

/-! ## Reading a modified directory -/

section
variable (fs : Fs) (id : Nat)

@[simp] theorem append_dir (bs : Bytes) : (fs.append id bs).dir = fs.dir := rfl
@[simp] theorem append_aliases (bs : Bytes) : (fs.append id bs).aliases = fs.aliases := rfl
@[simp] theorem append_committed (bs : Bytes) : (fs.append id bs).committed = fs.committed := rfl
@[simp] theorem append_file_self (bs : Bytes) :
    (fs.append id bs).file id = (fs.file id).append bs := by simp [append, modifyFile]
@[simp] theorem syncData_dir : (fs.syncData id).dir = fs.dir := rfl
@[simp] theorem syncData_aliases : (fs.syncData id).aliases = fs.aliases := rfl
@[simp] theorem syncData_committed : (fs.syncData id).committed = fs.committed := rfl
@[simp] theorem syncData_file_self : (fs.syncData id).file id = (fs.file id).sync := by
  simp [syncData, modifyFile]
@[simp] theorem setLen_dir (n : Nat) : (fs.setLen id n).dir = fs.dir := rfl
@[simp] theorem setLen_aliases (n : Nat) : (fs.setLen id n).aliases = fs.aliases := rfl
@[simp] theorem setLen_file_self (n : Nat) : (fs.setLen id n).file id = (fs.file id).setLen n := by
  simp [setLen, modifyFile]
@[simp] theorem createNew_dir : (fs.createNew id).dir = fs.dir ++ [id] := rfl
@[simp] theorem createNew_aliases : (fs.createNew id).aliases = fs.aliases := rfl
@[simp] theorem createNew_file_self : (fs.createNew id).file id = .empty := by simp [createNew]
@[simp] theorem syncDir_dir : fs.syncDir.dir = fs.dir := rfl
@[simp] theorem syncDir_aliases : fs.syncDir.aliases = fs.aliases := rfl
@[simp] theorem syncDir_file : fs.syncDir.file = fs.file := rfl
@[simp] theorem unlink_aliases : (fs.unlink id).aliases = fs.aliases := rfl
@[simp] theorem unlink_file : (fs.unlink id).file = fs.file := rfl

variable {fs id}

theorem mem_unlink {i : Nat} : i ∈ (fs.unlink id).dir ↔ i ∈ fs.dir ∧ i ≠ id := by
  simp [unlink]

theorem append_file_ne (bs : Bytes) {i : Nat} (h : i ≠ id) :
    (fs.append id bs).file i = fs.file i := by simp [append, modifyFile, h]

theorem syncData_file_ne {i : Nat} (h : i ≠ id) : (fs.syncData id).file i = fs.file i := by
  simp [syncData, modifyFile, h]

theorem setLen_file_ne (n : Nat) {i : Nat} (h : i ≠ id) :
    (fs.setLen id n).file i = fs.file i := by simp [setLen, modifyFile, h]

theorem createNew_file_ne {i : Nat} (h : i ≠ id) :
    (fs.createNew id).file i = fs.file i := by simp [createNew, h]

@[simp] theorem syncData_data (i : Nat) : ((fs.syncData id).file i).data = (fs.file i).data := by
  by_cases h : i = id
  · subst h; simp
  · rw [syncData_file_ne h]

theorem crash_eq {keep : Keep} {fs' : Fs} (h : fs.crash keep = some fs') :
    (∀ id ∈ fs.dir ++ fs.unlinked, fs.KeepOk keep id) ∧ fs' = fs.cutAll keep := by
  unfold crash at h
  split at h
  · exact ⟨‹_›, by simpa using h.symm⟩
  · cases h

theorem nodup_unlink (h : (fs.dir ++ fs.unlinked).Nodup) (hi : id ∈ fs.dir) :
    ((fs.unlink id).dir ++ (fs.unlink id).unlinked).Nodup := by
  obtain ⟨hd, hu, hdisj⟩ := List.nodup_append.1 h
  refine List.nodup_append.2 ⟨hd.filter _, ?_, fun a ha b hb => ?_⟩
  · refine List.nodup_append.2 ⟨hu, List.nodup_singleton id, fun a ha b hb => ?_⟩
    rw [List.mem_singleton.1 hb]
    exact (hdisj id hi a ha).symm
  · obtain ⟨ha, hne⟩ := mem_unlink.1 ha
    rcases List.mem_append.1 hb with hb | hb
    · exact hdisj a ha b hb
    · exact List.mem_singleton.1 hb ▸ hne

theorem nodup_createNew (h : (fs.dir ++ fs.unlinked).Nodup) (hi : id ∉ fs.dir) :
    ((fs.createNew id).dir ++ (fs.createNew id).unlinked).Nodup := by
  obtain ⟨hd, hu, hdisj⟩ := List.nodup_append.1 h
  refine List.nodup_append.2 ⟨?_, hu.filter _, fun a ha b hb => ?_⟩
  · refine List.nodup_append.2 ⟨hd, List.nodup_singleton id, fun a ha b hb => ?_⟩
    rw [List.mem_singleton.1 hb]
    exact fun he => hi (he ▸ ha)
  · obtain ⟨hb, hne⟩ := List.mem_filter.1 hb
    rcases List.mem_append.1 ha with ha | ha
    · exact hdisj a ha b hb
    · rw [List.mem_singleton.1 ha]
      exact fun he => (of_decide_eq_true hne) he.symm

theorem crash_file {keep : Keep} {fs' : Fs} (h : fs.crash keep = some fs') (i : Nat) :
    (fs'.file i).data <+: (fs.file i).data ∧
      (i ∈ fs.dir ++ fs.unlinked → (fs.file i).synced ≤ (fs'.file i).synced) := by
  obtain ⟨hk, rfl⟩ := crash_eq h
  rcases hi : keep i with _ | ⟨n, m⟩
  · simp [cutAll, hi]
  · refine ⟨?_, fun hm => ?_⟩
    · simp only [cutAll, hi, FileData.cut_data]
      exact List.take_prefix _ _
    · have hk := hk i hm
      simp only [KeepOk, hi] at hk
      simp only [cutAll, hi, FileData.cut, List.length_take]
      omega

/-- A name that was synchronized and not removed stays. -/
theorem crash_dir {keep : Keep} {fs' : Fs} (h : fs.crash keep = some fs') {i : Nat}
    (hi : i ∈ fs.dir) (hc : fs.committed i = true) (hu : i ∉ fs.unlinked) : i ∈ fs'.dir := by
  obtain ⟨hk, rfl⟩ := crash_eq h
  have hk := hk i (List.mem_append_left _ hi)
  simp only [cutAll, List.mem_filter]
  refine ⟨List.mem_append_left _ hi, ?_⟩
  unfold KeepOk at hk
  split at hk
  · rcases hk with hk | hk
    · exact absurd (hk.symm.trans hc) (by simp)
    · exact absurd hk hu
  · simp [*]

end

end Fs

end Wal

import Wal.Truthful
import Wal.CarefulClient
import Wal.Surviving

/-!
# A log on its way to the disk

The worker writes a tape of chunks, and the directory follows: `FollowsTape` says which bytes of
which chunk are in the files, and on stable storage, whatever fails. `KeepsLog` is a session of a
client that keeps the log (`WalKept`) seen from the disk, and every step keeps it (`keepsLog_step`):
an acknowledged record is on stable storage, or in a chunk that was removed.
-/

namespace Wal

open Lib

/-! ## Tapes and disks -/

namespace Tape

variable {t u v : Tape}

theorem Le.trans (h : t.Le u) (h' : u.Le v) : t.Le v := by
  obtain ⟨hg, bs, rest, hc, hp⟩ := h
  obtain ⟨hg', cs, rest', hc', hp'⟩ := h'
  refine ⟨hg.trans hg', ?_⟩
  rcases List.eq_nil_or_concat rest with rfl | ⟨rest₀, x, rfl⟩
  · obtain ⟨hprev, hlast⟩ := List.append_inj' hc rfl
    obtain ⟨hid, hbs⟩ : u.id = t.id ∧ u.bytes = bs := by simpa using hlast
    exact ⟨cs, rest', by rw [hc', hprev, hid], hp.trans (hbs ▸ hp')⟩
  · rw [List.concat_eq_append, ← List.cons_append, ← List.append_assoc] at hc
    obtain ⟨hprev, -⟩ := List.append_inj' hc rfl
    exact ⟨bs, rest₀ ++ (u.id, cs) :: rest', by rw [hc', hprev]; simp, hp⟩

theorem Le.path (h : t.Le u) : t.chunks.map (·.1) <+: u.chunks.map (·.1) := by
  obtain ⟨-, bs, rest, hc, -⟩ := h
  rw [hc]
  exact ⟨rest.map (·.1), by simp [chunks]⟩

/-- Only chunks are removed that `may` be. -/
structure Asked (may : Nat → Prop) (t : Tape) : Prop where
  gone : t.gone ≤ t.prev.length
  ids : ∀ c ∈ t.prev.take t.gone, may c.1

variable {may : Nat → Prop}

theorem Asked.rotate (h : t.Asked may) : t.rotate.Asked may where
  gone := by
    show t.gone ≤ t.chunks.length
    rw [chunks, List.length_append]
    exact h.gone.trans (Nat.le_add_right _ _)
  ids c hc := by
    have hc : c ∈ t.chunks.take t.gone := hc
    rw [chunks, List.take_append_of_le_length h.gone] at hc
    exact h.ids c hc

theorem Asked.remove (h : t.Asked may) {is : List Nat} (hp : is <+: t.spare.drop t.gone)
    (hmay : ∀ i ∈ is, may i) :
    ({ t with gone := t.gone + is.length } : Tape).Asked may := by
  have hspare : t.spare <+: t.ids := by
    unfold spare
    split
    · exact List.dropLast_prefix _
    · exact List.prefix_refl _
  have hp : is <+: t.ids.drop t.gone := hp.trans (hspare.drop _)
  have hlen : is.length ≤ t.prev.length - t.gone := by
    have := hp.length_le
    rwa [Tape.ids, List.length_drop, List.length_map] at this
  refine ⟨?_, fun c hc => ?_⟩
  · have := h.gone
    show t.gone + is.length ≤ t.prev.length
    omega
  · rw [List.take_add, List.mem_append] at hc
    rcases hc with hc | hc
    · exact h.ids c hc
    · refine hmay _ ?_
      rw [List.prefix_iff_eq_take.1 hp, Tape.ids, ← List.map_drop, ← List.map_take]
      exact List.mem_map_of_mem hc

theorem Asked.earlier (h : u.Asked may) (hle : t.Le u) (hg : t.gone ≤ t.prev.length) :
    ∀ c ∈ t.prev.take t.gone, may c.1 := by
  obtain ⟨hgone, bs, rest, hu, -⟩ := hle
  intro c hc
  refine h.ids c ?_
  have hchunks : u.chunks.take u.gone = u.prev.take u.gone := List.take_append_of_le_length h.gone
  rw [← hchunks, hu]
  refine List.mem_of_mem_take (i := t.gone) ?_
  rw [List.take_take, Nat.min_eq_left hgone, List.take_append_of_le_length hg]
  exact hc

end Tape

theorem Plan.accept_asked {C Cb : Type} {may : Nat → Prop} {R : Rules} (hR : R.oldest = true)
    {p p' : Plan} {req : WorkerRequest C Cb} (h : p.accept R req = some p')
    (hmay : ∀ id ∈ req.removed, may id) (ha : p.tape.Asked may) : p'.tape.Asked may := by
  cases req with
  | write w =>
    simp only [accept] at h
    split at h <;> cases h
    exact ⟨ha.gone, ha.ids⟩
  | appendFile e =>
    simp only [accept] at h
    split at h <;> cases h
    exact ha.rotate
  | removeChunks ids =>
    simp only [accept, hR, Bool.true_eq_false, if_false] at h
    split at h <;> cases h
    rename_i hp
    exact ha.remove hp.1 hmay
  | getFlushStat =>
    cases h
    exact ha

namespace Disk

section
variable {C Cb : Type} {R : Rules} {b : WriteBatch C Cb} {d d' : Disk}

theorem step_le {e : Effect C Cb} (h : step R b d e = some d') : d.tape.Le d'.tape := by
  rcases step_tape h with h | ⟨bs, h⟩ | h | h
  · rw [h]
    exact .refl _
  · rw [h]
    exact (Tape.Le.refl _).write bs
  · rw [h]
    exact (Tape.Le.refl _).rotate
  · rw [h]
    exact ⟨Nat.le_succ _, d.tape.bytes, [], rfl, List.prefix_refl _⟩

theorem runs_le {es : List (Effect C Cb)} (h : runs (step R b) d es = some d') :
    d.tape.Le d'.tape :=
  runs_invariant (I := fun d' => d.tape.Le d'.tape) (fun _ _ _ hi hs => hi.trans (step_le hs))
    (.refl _) h

/-- How far the tape is on stable storage. -/
def stable (d : Disk) : Nat := d.tape.id + d.synced

theorem step_stable {e : Effect C Cb} (h : step R b d e = some d')
    (hle : d.synced ≤ d.tape.bytes.length) :
    d.stable ≤ d'.stable := by
  cases e with
  | append f bs =>
    simp only [step] at h
    split at h <;> cases h
    exact Nat.le_refl _
  | sync f =>
    simp only [step] at h
    split at h
    · cases h
      exact Nat.add_le_add_left hle _
    · split at h <;> cases h
      exact Nat.le_refl _
  | persisted p c =>
    simp only [step] at h
    split at h <;> cases h
    exact Nat.le_refl _
  | answer seq cb res =>
    rcases res with e | ⟨⟩
    · cases h
      exact Nat.le_refl _
    · simp only [step] at h
      split at h <;> cases h
      exact Nat.le_refl _
  | appendFile f =>
    simp only [step] at h
    split at h
    · rename_i hf
      cases h
      show d.tape.id + d.synced ≤ d.tape.end_ + 0
      rw [hf.2.2]
      exact Nat.le_refl _
    · cases h
  | unlink id =>
    simp only [step] at h
    split at h
    · cases h
      exact Nat.le_refl _
    · split at h <;> cases h
      exact Nat.le_refl _
  | syncDir | release | stat | failed | complete =>
    cases h
    exact Nat.le_refl _

end

end Disk

/-! ## The directory of a tape -/

section
variable {A C Cb : Type} [Crc32fast] [Encode A] [Encode C]

variable (A C) in
/-- **The directory follows the tape.** `ids` are the chunks that the client has begun, and `extras`
the files that it has created behind them. The removals of the last chunks that are gone may still
be undone. -/
structure FollowsTape (fs : Fs) (d : Disk) (ids extras : List Nat) (synced : Bool) : Prop where
  aliases : fs.aliases = []
  dir : fs.dir.Perm (ids.drop d.tape.gone ++ extras)
  nodup : (fs.dir ++ fs.unlinked).Nodup
  increasing : (ids ++ extras).Pairwise (· < ·)
  path : d.tape.chunks.map (·.1) <+: ids
  gone : d.tape.gone ≤ d.tape.prev.length
  removed : ∃ sure ≤ d.tape.gone,
    fs.unlinked.filter (fun i => decide (i ∈ ids)) = (ids.take d.tape.gone).drop sure ∧
    ∀ c ∈ d.tape.prev.drop sure, (fs.file c.1).data = c.2 ∧ c.2.length ≤ (fs.file c.1).synced ∧
      fs.committed c.1 = true
  stubs : ∀ i ∈ fs.unlinked, i ∉ ids →
    synced = false ∧ Stub A C (fs.file i).data ∧ ∀ j ∈ ids, j < i
  bytes : (fs.file d.tape.id).data = d.tape.bytes
  reached : d.synced ≤ (fs.file d.tape.id).synced
  behind : ∀ i ∈ fs.dir, d.tape.id < i → (fs.file i).data = []
  committed : ∀ i ∈ fs.dir, i ∈ ids ∨ synced = true → fs.committed i = true
  stands : 0 < d.tape.gone → d.tape.gone = d.tape.prev.length →
    ∃ r : WALRecord A C, Encodes r ∧ enc r <+: d.tape.bytes ∧ (enc r).length ≤ d.synced

namespace FollowsTape

variable {may : Nat → Prop} {fs fs' : Fs} {d d' : Disk} {ids extras : List Nat} {synced : Bool}
    {b : WriteBatch C Cb}

theorem synced_le (h : FollowsTape A C fs d ids extras synced) : d.synced ≤ d.tape.bytes.length :=
  h.bytes ▸ h.reached.trans (fs.file d.tape.id).synced_le

theorem lt (h : FollowsTape A C fs d ids extras synced) {i : Nat} (hi : i ∈ d.tape.ids) :
    i < d.tape.id := by
  have hinc := (List.pairwise_append.1 h.increasing).1.sublist h.path.sublist
  rw [Tape.chunks, List.map_append, List.pairwise_append] at hinc
  exact hinc.2.2 i hi d.tape.id (List.mem_singleton_self _)

theorem prev_ne (h : FollowsTape A C fs d ids extras synced) {c : Nat × Bytes} {n : Nat}
    (hc : c ∈ d.tape.prev.drop n) :
    c.1 ≠ d.tape.id :=
  Nat.ne_of_lt (h.lt (List.mem_map_of_mem (List.mem_of_mem_drop hc)))

theorem prev (h : FollowsTape A C fs d ids extras synced) {c : Nat × Bytes}
    (hc : c ∈ d.tape.prev.drop d.tape.gone) :
    (fs.file c.1).data = c.2 ∧ c.2.length ≤ (fs.file c.1).synced := by
  obtain ⟨sure, hle, -, hprev⟩ := h.removed
  obtain ⟨n, hn⟩ := Nat.exists_eq_add_of_le hle
  rw [hn, ← List.drop_drop] at hc
  obtain ⟨hdata, hsync, -⟩ := hprev c (List.mem_of_mem_drop hc)
  exact ⟨hdata, hsync⟩

theorem removed_congr (h : FollowsTape A C fs d ids extras synced)
    (hu : fs'.unlinked.filter (fun i => decide (i ∈ ids)) = fs.unlinked.filter fun i =>
      decide (i ∈ ids))
    (hc : ∀ i ∈ d.tape.ids, fs'.committed i = fs.committed i)
    (hdata : ∀ i ∈ d.tape.ids, (fs'.file i).data = (fs.file i).data)
    (hsync : ∀ i ∈ d.tape.ids, (fs.file i).synced ≤ (fs'.file i).synced) : ∃ sure ≤ d.tape.gone,
      fs'.unlinked.filter (fun i => decide (i ∈ ids)) = (ids.take d.tape.gone).drop sure ∧
      ∀ c ∈ d.tape.prev.drop sure, (fs'.file c.1).data = c.2 ∧ c.2.length ≤ (fs'.file c.1).synced ∧
        fs'.committed c.1 = true := by
  obtain ⟨sure, hle, hun, hprev⟩ := h.removed
  refine ⟨sure, hle, hu.trans hun, fun c hm => ?_⟩
  have hmem : c.1 ∈ d.tape.ids := List.mem_map_of_mem (List.mem_of_mem_drop hm)
  obtain ⟨h₁, h₂, h₃⟩ := hprev c hm
  exact ⟨(hdata _ hmem).trans h₁, h₂.trans (hsync _ hmem), (hc _ hmem).trans h₃⟩

theorem of_files (h : FollowsTape A C fs d ids extras synced) (ha : fs'.aliases = fs.aliases)
    (hd : fs'.dir = fs.dir) (hc : fs'.committed = fs.committed) (hu : fs'.unlinked = fs.unlinked)
    (hdata : ∀ i, (fs'.file i).data = (fs.file i).data)
    (hsync : ∀ i, (fs.file i).synced ≤ (fs'.file i).synced) :
    FollowsTape A C fs' d ids extras synced where
  aliases := ha.trans h.aliases
  dir := hd ▸ h.dir
  nodup := by rw [hd, hu]; exact h.nodup
  increasing := h.increasing
  path := h.path
  gone := h.gone
  removed := h.removed_congr (by rw [hu]) (fun _ _ => by
    rw [hc]) (fun i _ => hdata i) fun i _ => hsync i
  stubs i hi hn := by
    rw [hdata]
    exact h.stubs i (hu ▸ hi) hn
  bytes := (hdata _).trans h.bytes
  reached := h.reached.trans (hsync _)
  behind i hi hlt := (hdata i).trans (h.behind i (hd ▸ hi) hlt)
  committed i hi := hc ▸ h.committed i (hd ▸ hi)
  stands := h.stands

omit [Crc32fast] [Encode A] [Encode C] in
theorem syncData_le (fs : Fs) (f i : Nat) :
    (fs.file i).synced ≤ ((fs.syncData f).file i).synced := by
  by_cases hi : i = f
  · subst hi
    rw [Fs.syncData_file_self, FileData.sync_synced]
    exact (fs.file i).synced_le
  · rw [Fs.syncData_file_ne hi]

theorem cur_mem (h : FollowsTape A C fs d ids extras synced) : d.tape.id ∈ ids :=
  h.path.subset (by simp [Tape.chunks])

theorem appended (h : FollowsTape A C fs d ids extras synced) (bs : Bytes) :
    FollowsTape A C (fs.append d.tape.id bs) { d with tape := d.tape.write bs } ids extras
      synced where
  aliases := h.aliases
  dir := h.dir
  nodup := h.nodup
  increasing := h.increasing
  path := by simpa [Tape.chunks] using h.path
  gone := h.gone
  removed := by
    have hfile : ∀ i ∈ d.tape.ids, (fs.append d.tape.id bs).file i = fs.file i := fun i hi =>
      Fs.append_file_ne _ (Nat.ne_of_lt (h.lt hi))
    exact h.removed_congr rfl (fun _ _ => rfl) (fun i hi => by rw [hfile i hi]) fun i hi => by
      rw [hfile i hi]
  stubs i hi hn := by
    have hne : i ≠ d.tape.id := fun he => hn (he ▸ h.cur_mem)
    rw [Fs.append_file_ne _ hne]
    exact h.stubs i hi hn
  bytes := by
    show ((fs.append d.tape.id bs).file d.tape.id).data = d.tape.bytes ++ bs
    rw [Fs.append_file_self, FileData.append_data, h.bytes]
  reached := by
    show d.synced ≤ ((fs.append d.tape.id bs).file d.tape.id).synced
    rw [Fs.append_file_self, FileData.append_synced]
    exact h.reached
  behind i hi hlt := by
    have hlt : d.tape.id < i := hlt
    rw [Fs.append_file_ne _ (Nat.ne_of_gt hlt)]
    exact h.behind i hi hlt
  committed := h.committed
  stands h₀ h₁ := by
    obtain ⟨r, hr, hp, hle⟩ := h.stands h₀ h₁
    exact ⟨r, hr, hp.trans (List.prefix_append _ _), hle⟩

theorem synchronized (h : FollowsTape A C fs d ids extras synced) :
    FollowsTape A C (fs.syncData d.tape.id) { d with synced := d.tape.bytes.length } ids extras
      synced := by
  have h' : FollowsTape A C (fs.syncData d.tape.id) d ids extras synced :=
    h.of_files rfl rfl rfl rfl (fs.syncData_data · ) (syncData_le fs _)
  exact { h' with
    reached := by
      show d.tape.bytes.length ≤ ((fs.syncData d.tape.id).file d.tape.id).synced
      rw [Fs.syncData_file_self, FileData.sync_synced, h.bytes]
    stands := fun h₀ h₁ => by
      obtain ⟨r, hr, hp, -⟩ := h.stands h₀ h₁
      exact ⟨r, hr, hp, hp.length_le⟩ }

theorem rotated (h : FollowsTape A C fs d ids extras synced) (hne : d.tape.bytes ≠ [])
    (hs : d.synced = d.tape.bytes.length) (hpath : d.tape.rotate.chunks.map (·.1) <+: ids) :
    FollowsTape A C fs { tape := d.tape.rotate, synced := 0 } ids extras synced := by
  have hlt : d.tape.id < d.tape.end_ := Nat.lt_add_of_pos_right (List.length_pos_of_ne_nil hne)
  have hmem : d.tape.end_ ∈ fs.dir := by
    obtain ⟨rest, hrest⟩ := hpath
    rw [h.dir.mem_iff, ← hrest]
    refine List.mem_append_left _ ?_
    have hlen : d.tape.gone ≤ (d.tape.chunks.map (·.1)).length := by
      rw [List.length_map, Tape.chunks, List.length_append]
      exact h.gone.trans (Nat.le_add_right _ _)
    have hchunks : d.tape.rotate.chunks.map (·.1) = d.tape.chunks.map (·.1) ++ [d.tape.end_] := by
      simp [Tape.rotate, Tape.chunks]
    rw [hchunks, List.append_assoc, List.drop_append_of_le_length hlen]
    simp
  have hnil : (fs.file d.tape.end_).data = [] := h.behind _ hmem hlt
  have hcur : d.tape.id ∈ fs.dir := by
    rw [h.dir.mem_iff]
    refine List.mem_append_left _ ?_
    obtain ⟨rest, hrest⟩ := h.path
    rw [← hrest, Tape.chunks, List.map_append, List.append_assoc, List.drop_append_of_le_length]
    · simp
    · rw [List.length_map]
      exact h.gone
  obtain ⟨sure, hsure, hun, hprev⟩ := h.removed
  refine ⟨h.aliases, h.dir, h.nodup, h.increasing, hpath, ?_, ⟨sure, hsure, hun, fun c hc => ?_⟩,
    h.stubs, hnil, Nat.zero_le _, fun i hi hi' => h.behind i hi (hlt.trans hi'), h.committed,
    fun _ h₁ => ?_⟩
  · show d.tape.gone ≤ d.tape.chunks.length
    rw [Tape.chunks, List.length_append]
    exact h.gone.trans (Nat.le_add_right _ _)
  · have hc : c ∈ (d.tape.prev ++ [(d.tape.id, d.tape.bytes)]).drop sure := hc
    rw [List.drop_append_of_le_length (hsure.trans h.gone), List.mem_append] at hc
    rcases hc with hc | hc
    · exact hprev c hc
    · obtain rfl := List.mem_singleton.1 hc
      exact ⟨h.bytes, hs ▸ h.reached, h.committed _ hcur (.inl h.cur_mem)⟩
  · have h₁ : d.tape.gone = (d.tape.prev ++ [(d.tape.id, d.tape.bytes)]).length := h₁
    rw [List.length_append, List.length_singleton] at h₁
    have := h.gone
    omega

/-- The oldest chunk is removed. -/
theorem unlinked (h : FollowsTape A C fs d ids extras synced) {i : Nat}
    (hi : d.tape.spare[d.tape.gone]? = some i) (hc : d.Covered ((Mode.careful may).rules A C) b)
    (hdir : i ∈ fs.dir) :
    FollowsTape A C (fs.unlink i) { d with tape := { d.tape with gone := d.tape.gone + 1 } } ids
      extras synced := by
  obtain ⟨hlen, hids⟩ : d.tape.gone < d.tape.spare.length ∧ d.tape.ids[d.tape.gone]? = some i := by
    obtain ⟨hlen, -⟩ := List.getElem?_eq_some_iff.1 hi
    have hpre : d.tape.spare <+: d.tape.ids := by
      unfold Tape.spare
      split
      · exact List.dropLast_prefix _
      · exact List.prefix_refl _
    obtain ⟨rest, hrest⟩ := hpre
    rw [← hrest, List.getElem?_append_left hlen]
    exact ⟨hlen, hi⟩
  have hdrop : ids.drop d.tape.gone = i :: ids.drop (d.tape.gone + 1) := by
    obtain ⟨rest, hrest⟩ := h.path
    have hget : ids[d.tape.gone]? = some i := by
      rw [← hrest, Tape.chunks, List.map_append, List.append_assoc]
      exact (List.getElem?_append_left (List.getElem?_eq_some_iff.1 hids).1).trans hids
    obtain ⟨hlt, rfl⟩ := List.getElem?_eq_some_iff.1 hget
    exact List.drop_eq_getElem_cons hlt
  have hspare : d.tape.spare.length ≤ d.tape.prev.length := by
    unfold Tape.spare
    split <;> simp [Tape.ids]
  have hperm : (fs.unlink i).dir.Perm (ids.drop (d.tape.gone + 1) ++ extras) := by
    have hinc : (i :: (ids.drop (d.tape.gone + 1) ++ extras)).Pairwise (· < ·) := by
      rw [← List.cons_append, ← hdrop]
      exact h.increasing.sublist ((List.drop_sublist _ _).append (List.Sublist.refl _))
    have hrest : (ids.drop (d.tape.gone + 1) ++ extras).filter (fun j => decide (j ≠ i)) =
        ids.drop (d.tape.gone + 1) ++ extras :=
      List.filter_eq_self.2 fun j hj =>
      decide_eq_true (Nat.ne_of_gt ((List.pairwise_cons.1 hinc).1 j hj))
    have hd := h.dir.filter (fun j => decide (j ≠ i))
    rwa [hdrop, List.cons_append, List.filter_cons_of_neg (by simp), hrest] at hd
  obtain ⟨sure, hsure, hun, hprev⟩ := h.removed
  have hget : ids[d.tape.gone]? = some i := by
    have := congrArg List.head? hdrop
    rwa [List.head?_drop] at this
  have hi' : i ∈ ids := List.mem_of_getElem? hget
  refine ⟨h.aliases, hperm, ?_, h.increasing, h.path, hlen.trans_le hspare,
    ⟨sure, hsure.trans (Nat.le_succ _), ?_, hprev⟩, fun j hj hn => h.stubs j ?_ hn, h.bytes,
    h.reached, fun j hj => h.behind j (Fs.mem_unlink.1 hj).1,
    fun j hj => h.committed j (Fs.mem_unlink.1 hj).1, fun _ h₁ => ?_⟩
  · exact Fs.nodup_unlink h.nodup hdir
  · show (fs.unlinked ++ [i]).filter _ = (ids.take (d.tape.gone + 1)).drop sure
    have hlen' : (ids.take d.tape.gone).length = d.tape.gone :=
      List.length_take_of_le (List.getElem?_eq_some_iff.1 hget).1.le
    rw [List.filter_append, hun, List.take_add_one, hget,
      List.drop_append_of_le_length (hlen'.symm ▸ hsure)]
    simp [hi']
  · have hj : j ∈ fs.unlinked ++ [i] := hj
    rcases List.mem_append.1 hj with hj | hj
    · exact hj
    · exact absurd (List.mem_singleton.1 hj ▸ hi') hn
  · have h₁ : d.tape.gone + 1 = d.tape.prev.length := h₁
    have hne : d.tape.bytes ≠ [] := fun hnil => by
      rw [Tape.spare, if_pos hnil, List.length_dropLast, Tape.ids, List.length_map] at hlen
      omega
    obtain ⟨hs, hwhole, -⟩ := hc
    obtain ⟨r, hr, hp⟩ := (hwhole.resolve_left hne) rfl
    exact ⟨r, hr, hp, hs ▸ hp.length_le⟩

theorem listed (h : FollowsTape A C fs d ids extras synced) {c : Nat × Bytes}
    (hc : c ∈ d.tape.prev.drop d.tape.gone) :
    c.1 ∈ fs.dir := by
  obtain ⟨rest, hrest⟩ := h.path
  have hlen : d.tape.gone ≤ (d.tape.prev.map (·.1)).length := by
    rw [List.length_map]
    exact h.gone
  rw [h.dir.mem_iff, ← hrest, Tape.chunks, List.map_append, List.append_assoc,
    List.drop_append_of_le_length hlen, ← List.map_drop]
  exact List.mem_append_left _ (List.mem_append_left _ (List.mem_map_of_mem hc))

theorem settled (h : FollowsTape A C fs d ids extras synced) :
    FollowsTape A C fs.syncDir d ids extras synced := by
  refine ⟨h.aliases, h.dir, ?_, h.increasing, h.path, h.gone,
    ⟨d.tape.gone, Nat.le_refl _, ?_, fun c hc => ?_⟩, fun i hi => (by cases hi), h.bytes, h.reached,
    h.behind, fun i hi _ => decide_eq_true hi, h.stands⟩
  · show (fs.dir ++ []).Nodup
    rw [List.append_nil]
    exact (List.nodup_append.1 h.nodup).1
  · rw [List.drop_eq_nil_of_le (List.length_take_le _ _)]
    rfl
  · exact ⟨(h.prev hc).1, (h.prev hc).2, decide_eq_true (h.listed hc)⟩

/-- **An effect of the worker.** -/
theorem effect (h : FollowsTape A C fs d ids extras synced) {e : Effect C Cb}
    (hs : Disk.step ((Mode.careful may).rules A C) b d e = some d') (hfs : fs.onEffect e = some fs')
    (hpath : d'.tape.chunks.map (·.1) <+: ids) : FollowsTape A C fs' d' ids extras synced := by
  cases e with
  | append f bs =>
    cases hfs
    simp only [Disk.step] at hs
    split at hs
    · rename_i hf
      cases hs
      exact hf ▸ h.appended bs
    · cases hs
  | sync f =>
    cases hfs
    simp only [Disk.step] at hs
    split at hs
    · rename_i hf
      cases hs
      exact hf ▸ h.synchronized
    · split at hs <;> cases hs
      exact h.of_files rfl rfl rfl rfl (fs.syncData_data ·) (syncData_le fs f)
  | persisted p c =>
    cases hfs
    simp only [Disk.step] at hs
    split at hs <;> cases hs
    exact h
  | answer seq cb res =>
    cases hfs
    rcases res with e | ⟨⟩
    · cases hs
      exact h
    · simp only [Disk.step] at hs
      split at hs <;> cases hs
      exact h
  | appendFile f =>
    cases hfs
    simp only [Disk.step] at hs
    split at hs
    · rename_i hf
      cases hs
      exact h.rotated hf.2.1 hf.2.2 hpath
    · cases hs
  | unlink i =>
    simp only [Fs.onEffect] at hfs
    split at hfs <;> cases hfs
    rename_i hdir
    simp only [Disk.step] at hs
    split at hs
    · rename_i hold
      exact Bool.noConfusion hold
    · split at hs
      · rename_i hspare
        cases hs
        exact h.unlinked hspare.1 (hspare.2 rfl) hdir
      · cases hs
  | syncDir =>
    cases hs
    cases hfs
    exact h.settled
  | release | stat | failed | complete =>
    cases hs
    cases hfs
    exact h

theorem created (h : FollowsTape A C fs d ids [] synced) {id : Nat} (hlt : ∀ i ∈ ids, i < id) :
    FollowsTape A C (fs.createNew id) d ids [id] false := by
  have hcur : d.tape.id ∈ ids := h.path.subset (by simp [Tape.chunks])
  have hne : ∀ i ∈ ids, i ≠ id := fun i hi => Nat.ne_of_lt (hlt i hi)
  have hmem : ∀ i ∈ fs.dir, i ∈ ids := fun i hi => by
    rw [h.dir.mem_iff, List.append_nil] at hi
    exact List.mem_of_mem_drop hi
  have hout : id ∉ ids := fun hm => hne id hm rfl
  have hpast : ∀ i ∈ d.tape.ids, i ≠ id := fun i hi => hne i <| h.path.subset <| by
    rw [Tape.chunks, List.map_append]
    exact List.mem_append_left _ hi
  refine ⟨h.aliases, ?_, Fs.nodup_createNew h.nodup fun hm => hne id (hmem id hm) rfl, ?_, h.path,
    h.gone, h.removed_congr ?_ (fun i hi => Function.update_of_ne (hpast i hi) _ _)
      (fun i hi => by rw [Fs.createNew_file_ne (hpast i hi)]) (fun i hi => by
        rw [Fs.createNew_file_ne (hpast i hi)]),
    fun i hi hn => ?_, ?_, ?_, fun i hi hi' => ?_, fun i hi hi' => ?_, h.stands⟩
  · have hdir := h.dir
    rw [List.append_nil] at hdir
    exact hdir.append_right [id]
  · refine List.pairwise_append.2 ⟨(List.pairwise_append.1 h.increasing).1,
      List.pairwise_singleton _ _, fun i hi j hj => ?_⟩
    rw [List.mem_singleton.1 hj]
    exact hlt i hi
  · show (fs.unlinked.filter _).filter _ = _
    rw [List.filter_filter]
    refine List.filter_congr fun i _ => ?_
    by_cases hi : i ∈ ids
    · simp [hi, hne i hi]
    · simp [hi]
  · obtain ⟨hi, hid⟩ := List.mem_filter.1 hi
    obtain ⟨-, hstub, hlt'⟩ := h.stubs i hi hn
    rw [Fs.createNew_file_ne (by simpa using hid)]
    exact ⟨rfl, hstub, hlt'⟩
  · rw [Fs.createNew_file_ne (hne _ hcur)]
    exact h.bytes
  · rw [Fs.createNew_file_ne (hne _ hcur)]
    exact h.reached
  · rcases List.mem_append.1 hi with hi | hi
    · rw [Fs.createNew_file_ne (hne i (hmem i hi))]
      exact h.behind i hi hi'
    · rw [List.mem_singleton.1 hi, Fs.createNew_file_self]
      rfl
  · have hi' := hi'.resolve_right (by simp)
    show Function.update fs.committed id false i = true
    rw [Function.update_of_ne (hne i hi')]
    refine h.committed i ?_ (.inl hi')
    exact (List.mem_append.1 hi).resolve_right fun hi => hne i hi' (List.mem_singleton.1 hi)

theorem dirSynced (h : FollowsTape A C fs d ids extras synced) :
    FollowsTape A C fs.syncDir d ids extras true :=
  { h.settled with
    stubs := fun _ hi => by cases hi
    committed := fun _ hi _ => decide_eq_true hi }

theorem gone_le (h : FollowsTape A C fs d ids extras synced) : d.tape.gone ≤ ids.length := by
  have := h.path.length_le
  rw [List.length_map, Tape.chunks, List.length_append] at this
  exact h.gone.trans (Nat.le_of_add_right_le this)

/-- Behind a synchronization of the directory, only chunks are removed. -/
theorem all_begun (h : FollowsTape A C fs d ids extras true) {i : Nat} (hi : i ∈ fs.unlinked) :
    i ∈ ids := by
  by_contra hn
  exact Bool.noConfusion (h.stubs i hi hn).1

theorem begun {id : Nat} (h : FollowsTape A C fs d ids [id] true) :
    FollowsTape A C fs d (ids ++ [id]) [] true where
  aliases := h.aliases
  dir := by
    rw [List.append_nil, List.drop_append_of_le_length h.gone_le]
    exact h.dir
  nodup := h.nodup
  increasing := (List.append_nil (ids ++ [id])).symm ▸ h.increasing
  path := h.path.trans (List.prefix_append _ _)
  gone := h.gone
  removed := by
    obtain ⟨sure, hle, hun, hprev⟩ := h.removed
    refine ⟨sure, hle, ?_, hprev⟩
    rw [List.take_append_of_le_length h.gone_le, ← hun]
    refine List.filter_congr fun i hi =>
      decide_eq_decide.2 ⟨fun _ => h.all_begun hi, List.mem_append_left _⟩
  stubs i hi hn := absurd (List.mem_append_left _ (h.all_begun hi)) hn
  bytes := h.bytes
  reached := h.reached
  behind := h.behind
  committed i hi _ := h.committed i hi (.inr rfl)
  stands := h.stands

end FollowsTape

end

/-! ## Sessions -/

section
variable {A C Cb : Type}

/-- Whether everything up to a request is behind a synchronization. -/
def WorkerRequest.covers (clean : Bool) : WorkerRequest C Cb → Bool
  | .write w => w.sync || (clean && w.data.isEmpty)
  | .appendFile _ => true
  | .removeChunks _ | .getFlushStat => clean

/-- Everything that the session has sent is behind a request for synchronization. -/
def Session.covered (s : Session A C Cb) : Bool :=
  s.sent.foldl (fun clean r => r.request.req.covers clean) false

/-- The chunks that a step asks to remove. -/
def Label.passed {sm : StateMachine A C} : Label Cb sm → List Nat
  | .call op => op.passed
  | _ => []

theorem Session.finish_drained (s : Session A C Cb) (op : Op A C Cb) (res : Except Fault (Ret C))
    (w : ChunkedWal C) :
    (s.finish op res w).drained = s.drained ++ drainedBy res := by
  rcases res with e | r
  · exact (List.append_nil _).symm
  · cases r with
    | chunkIds ids => rfl
    | _ => exact (List.append_nil _).symm

theorem Plan.accept_covers {R : Rules} {p p' : Plan} {req : WorkerRequest C Cb}
    (h : p.accept R req = some p') :
    p'.clean = req.covers p.clean := by
  cases req with
  | write w =>
    simp only [accept] at h
    split at h <;> cases h
    rfl
  | appendFile e =>
    simp only [accept] at h
    split at h <;> cases h
    rfl
  | removeChunks ids =>
    simp only [accept] at h
    split at h
    · cases h
      rfl
    · split at h <;> cases h
      rfl
  | getFlushStat =>
    cases h
    rfl

end

section
variable {A C Cb : Type} [Crc32fast] [Encode A] [Encode C] {may : Nat → Prop} {g g' : View A C}
    {m : Mode}

namespace View

omit [Crc32fast] [Encode A] [Encode C] in
theorem mem_layout {p : Part A C} : p ∈ g.layout ↔ p ∈ g.parts ∨ p = g.newest := by
  rw [layout, List.mem_append, List.mem_singleton]

theorem Spelled.ids (h : g.Spelled) : g.layout.map (·.id) = g.plan.tape.chunks.map (·.1) := by
  rw [layout, Tape.chunks, h.prev, List.map_append, List.map_append, List.map_map]
  rfl

theorem Spelled.chained (h : g.Spelled) (hc : Tape.Chained g.plan.tape.chunks) :
    Tape.Chained (g.layout.map Part.spell) := by
  obtain ⟨h₁, -, h₃⟩ := List.isChain_append.1 hc
  rw [layout, List.map_append, ← h.prev]
  refine List.isChain_append.2 ⟨h₁, List.isChain_singleton _, fun a ha b hb => ?_⟩
  cases hb
  exact h₃ a ha (g.plan.tape.id, g.plan.tape.bytes) rfl

theorem Spelled.lt_end (h : g.Spelled) (hc : Tape.Chained g.plan.tape.chunks)
    (hne : g.plan.tape.bytes ≠ []) (i : Nat) (hi : i ∈ g.layout.map (·.id)) :
    i < g.plan.tape.end_ := by
  have hlt : g.plan.tape.id < g.plan.tape.end_ :=
    Nat.lt_add_of_pos_right (List.length_pos_of_ne_nil hne)
  rw [h.ids, Tape.chunks, List.map_append, List.mem_append] at hi
  rcases hi with hi | hi
  · obtain ⟨c, hm, rfl⟩ := List.mem_map.1 hi
    exact (Tape.Chained.lt hc c hm).2.trans hlt
  · exact List.mem_singleton.1 hi ▸ hlt

/-- The log ends with the open chunk. -/
theorem Spelled.le_end (h : g.Spelled) (hc : Tape.Chained g.plan.tape.chunks) {e : LogEntry A C}
    (he : e ∈ history g.layout) : e.end_ ≤ g.newest.end_ := by
  obtain ⟨p, hp, he⟩ := mem_history.1 he
  have hle : e.end_ ≤ p.end_ := (mem_entries he).2.2.2
  rcases mem_layout.1 hp with hp | rfl
  · have hch := h.chained hc
    rw [layout, List.map_append] at hch
    have hlt : p.end_ ≤ g.newest.id := (Tape.Chained.lt hch p.spell (List.mem_map_of_mem hp)).1
    exact hle.trans (hlt.trans (Nat.le_add_right _ _))
  · exact hle

omit [Crc32fast] [Encode A] [Encode C] in
theorem sent_begins {R : Rules} {e : FileEntry C} {p : Plan}
    (ha : g.plan.accept R (.appendFile e : WorkerRequest C Cb) = some p) :
    (g.sent (.appendFile e : WorkerRequest C Cb) p).layout = g.layout ++
      [{ id := e.f, records := [] }] := by
  simp only [Plan.accept] at ha
  split at ha
  · rename_i hacc
    cases ha
    show g.layout ++ [{ id := g.plan.tape.end_, records := [] }] = _
    rw [hacc.2.2.2]
  · cases ha

omit [Crc32fast] [Encode A] [Encode C] in
theorem sent_keeps {R : Rules} {req : WorkerRequest C Cb} {p : Plan}
    (ha : g.plan.accept R req = some p) (hne : ∀ e, req ≠ .appendFile e) :
    (g.sent req p).layout = g.layout ∧ (g.sent req p).extras = g.extras ∧
      (g.sent req p).synced = g.synced := by
  have keeps : p.tape.id = g.plan.tape.id →
    ({ g with plan := p, settled := false } : View A C).layout = g.layout := by
    intro hid
    show g.parts ++ [{ id := p.tape.id, records := g.records }] = _
    rw [hid]
    rfl
  cases req with
  | write w =>
    simp only [Plan.accept] at ha
    split at ha <;> cases ha
    exact ⟨keeps rfl, rfl, rfl⟩
  | appendFile e => exact absurd rfl (hne e)
  | removeChunks ids =>
    simp only [Plan.accept] at ha
    split at ha
    · cases ha
      exact ⟨keeps rfl, rfl, rfl⟩
    · split at ha <;> cases ha
      exact ⟨keeps rfl, rfl, rfl⟩
  | getFlushStat =>
    cases ha
    exact ⟨keeps rfl, rfl, rfl⟩

theorem Spelled.sent (h : g.Spelled) {R : Rules} (hm : m.strict = true) {req : WorkerRequest C Cb}
    {p : Plan} (ha : g.plan.accept R req = some p) (hal : Allowed m g req) :
    (g.sent req p).Spelled := by
  have same : p.tape.prev = g.plan.tape.prev → p.tape.id = g.plan.tape.id →
    p.tape.bytes <+: encAll g.records →
      ({ g with plan := p, settled := false } : View A C).Spelled := by
    refine fun hp hid hc => ⟨hp.trans h.prev, hc, fun q hq => ?_⟩
    rcases mem_layout.1 hq with hq | rfl
    · exact h.encodes q (mem_layout.2 (.inl hq))
    · exact h.encodes g.newest (mem_layout.2 (.inr rfl))
  cases req with
  | write w =>
    simp only [Plan.accept] at ha
    split at ha <;> cases ha
    refine same rfl rfl ?_
    show g.plan.tape.bytes ++ w.data <+: _
    rw [hal hm]
  | appendFile e =>
    simp only [Plan.accept] at ha
    split at ha <;> cases ha
    have hbytes : g.plan.tape.bytes = encAll g.records := hal.2.2.2 hm
    refine ⟨?_, List.nil_prefix, fun q hq => ?_⟩
    · show g.plan.tape.prev ++ [(g.plan.tape.id, g.plan.tape.bytes)] = g.layout.map Part.spell
      rw [hbytes, h.prev, layout, List.map_append]
      rfl
    · rcases mem_layout.1 hq with hq | rfl
      · exact h.encodes q hq
      · exact fun r hr => by cases hr
  | removeChunks ids =>
    simp only [Plan.accept] at ha
    split at ha
    · cases ha
      exact same rfl rfl h.cut
    · split at ha <;> cases ha
      exact same rfl rfl h.cut
  | getFlushStat =>
    cases ha
    exact same rfl rfl h.cut

theorem sent_history {R : Rules} {req : WorkerRequest C Cb} {p : Plan}
    (ha : g.plan.accept R req = some p) {n : Nat} (hn : n ≤ g.parts.length) :
    n ≤ (g.sent req p).parts.length ∧
      history ((g.sent req p).layout.drop n) = history (g.layout.drop n) := by
  have hlen : n ≤ g.layout.length := by
    rw [layout, List.length_append]
    exact hn.trans (Nat.le_add_right _ _)
  by_cases hreq : ∃ e, req = .appendFile e
  · obtain ⟨e, rfl⟩ := hreq
    refine ⟨hlen, ?_⟩
    rw [sent_begins ha, List.drop_append_of_le_length hlen, history_append]
    exact List.append_nil _
  · have hne : ∀ e, req ≠ .appendFile e := fun e he => hreq ⟨e, he⟩
    rw [(sent_keeps ha hne).1]
    cases req with
    | appendFile e => exact absurd rfl (hne e)
    | _ => exact ⟨hn, rfl⟩

/-- A write ends where the log does. -/
theorem upto_eq {R : Rules} {w : WriteRequest Cb} {p : Plan}
    (ha : g.plan.accept R (.write w : WorkerRequest C Cb) = some p)
    (hal : Allowed (Mode.careful may) g (.write w : WorkerRequest C Cb)) :
    w.uptoOffset = g.newest.end_ := by
  simp only [Plan.accept] at ha
  split at ha
  · rename_i hacc
    have hbytes : g.plan.tape.bytes ++ w.data = encAll g.records := hal rfl
    rw [hacc.1, Tape.end_, Nat.add_assoc, ← List.length_append, hbytes]
    rfl
  · cases ha

theorem history_noted (r : WALRecord A C) {n : Nat} (hn : n ≤ g.parts.length) :
    history (({ g with records := g.records ++ [r] } : View A C).layout.drop n) =
      history (g.layout.drop n) ++
      [(r, g.newest.id, { offset := g.newest.end_, size := (enc r).length })] := by
  have hlast : ({ g with records := g.records ++ [r] } : View A C).newest.entries =
    g.newest.entries ++
      [(r, g.newest.id, { offset := g.newest.end_, size := (enc r).length })] := by
    show entriesFrom g.newest.id g.newest.id (g.records ++ [r]) = _
    rw [entriesFrom_append]
    rfl
  rw [layout, layout, List.drop_append_of_le_length hn, List.drop_append_of_le_length hn,
    history_append, history_append, history_cons, history_cons, history_nil, List.append_nil,
    List.append_nil, hlast, ← List.append_assoc]

theorem Spelled.noted (h : g.Spelled) {r : WALRecord A C} (hr : Encodes r) :
    ({ g with records := g.records ++ [r] } : View A C).Spelled where
  prev := h.prev
  cut := h.cut.trans (encAll_append g.records [r] ▸ List.prefix_append _ _)
  encodes q hq := by
    rcases mem_layout.1 hq with hq | rfl
    · exact h.encodes q (mem_layout.2 (.inl hq))
    · intro r' hr'
      rcases List.mem_append.1 hr' with hr' | hr'
      · exact h.encodes g.newest (mem_layout.2 (.inr rfl)) r' hr'
      · exact List.mem_singleton.1 hr' ▸ hr

end View

/-! ## The course of the worker -/

/-- **The worker is under way to a plan**: the effects of the batch in execution bring the disk
forward to `d'`, and as long as the worker runs, the requests that are left bring it to the plan.
What is acknowledged is on stable storage. -/
structure Passage (may : Nat → Prop) (fs : Fs) (acked : List (LogEntry A C)) (first : Nat)
    (s : Session A C Cb) (g : View A C) (b : WriteBatch C Cb) (d d' : Disk) : Prop where
  batch : ∀ b' ∈ s.worker.executing?, b' = b
  followsTape : FollowsTape A C fs d (g.layout.map (·.id)) g.extras g.synced
  effects : runs (Disk.step ((Mode.careful may).rules A C) b) d s.executing = some d'
  le : d'.tape.Le g.plan.tape
  first : first ≤ d.tape.gone
  acked : ∀ e ∈ acked, e ∈ history g.layout ∧ e.end_ ≤ d.stable
  running : s.worker.running = true → d'.Holds s.files ∧
    ∃ p, d'.At ((Mode.careful may).rules A C) p ∧
    runs (Plan.accept ((Mode.careful may).rules A C)) p s.outstanding = some g.plan

namespace Passage

variable {fs fs' : Fs} {acked : List (LogEntry A C)} {first : Nat} {s s' : Session A C Cb}
    {b : WriteBatch C Cb}
  {d d' : Disk}

theorem stopped (h : Passage may fs acked first s g b d d') (he : s'.executing = s.executing)
    (hb : s'.worker.executing? = none) (hr : s'.worker.running = false) :
    Passage may fs acked first s' g b d d' where
  batch b' hb' := by
    rw [hb] at hb'
    cases hb'
  followsTape := h.followsTape
  effects := he ▸ h.effects
  le := h.le
  first := h.first
  acked := h.acked
  running hr' := Bool.noConfusion (hr.symm.trans hr')

theorem rests (h : Passage may fs acked first s g b d d') (hr : s.Rests s') :
    Passage may fs acked first s' g b d d' where
  batch b' hb' := h.batch b' (hr.batch b' hb')
  followsTape := h.followsTape
  effects := hr.executing ▸ h.effects
  le := h.le
  first := h.first
  acked := h.acked
  running hr' := by
    rw [hr.files, hr.outstanding]
    exact h.running (hr.running hr')

theorem acted (h : Passage may fs acked first s g b d d') (hr : s.Rests s')
    (hp : g'.plan = g.plan)
    (hm : FollowsTape A C fs' d (g'.layout.map (·.id)) g'.extras g'.synced)
    (hh : ∀ e ∈ history g.layout, e ∈ history g'.layout) :
    Passage may fs' acked first s' g' b d d' where
  batch := (h.rests hr).batch
  followsTape := hm
  effects := (h.rests hr).effects
  le := hp ▸ h.le
  first := h.first
  acked e he := ⟨hh e (h.acked e he).1, (h.acked e he).2⟩
  running := hp ▸ (h.rests hr).running

theorem enqueued (h : Passage may fs acked first s g b d d') {req : WorkerRequest C Cb} {p : Plan}
    (ha : g.plan.accept ((Mode.careful may).rules A C) req = some p)
    (hal : Allowed (Mode.careful may) g req) (hf : s'.files = s.files)
    (he : s'.executing = s.executing) (hw : s'.worker = s.worker)
    (ho : s'.outstanding = s.outstanding ++ [req]) :
    Passage may fs acked first s' (g.sent req p) b d d' := by
  have hplan : (g.sent req p).plan = p := g.sent_plan req p
  have hlayout : FollowsTape A C fs d ((g.sent req p).layout.map (·.id)) (g.sent req p).extras
    (g.sent req p).synced ∧
      ∀ e ∈ history g.layout, e ∈ history (g.sent req p).layout := by
    by_cases hreq : ∃ e, req = .appendFile e
    · obtain ⟨e, rfl⟩ := hreq
      obtain ⟨-, hs, hx, -⟩ := hal
      have hx : g.extras = [e.f] := hx rfl
      have hm := h.followsTape
      rw [hx, hs] at hm
      rw [View.sent_begins ha]
      refine ⟨?_, fun x hx => ?_⟩
      · have hextras : (g.sent (.appendFile e : WorkerRequest C Cb) p).extras = [] := by
          show g.extras.filter (e.f < ·) = []
          rw [hx]
          simp
        have hsync : (g.sent (.appendFile e : WorkerRequest C Cb) p).synced = true := hs
        rw [hextras, hsync, List.map_append]
        exact hm.begun
      · rw [history_append]
        exact List.mem_append_left _ hx
    · obtain ⟨hl, hx, hs⟩ := View.sent_keeps ha fun e he => hreq ⟨e, he⟩
      rw [hl, hx, hs]
      exact ⟨h.followsTape, fun _ => id⟩
  refine ⟨hw ▸ h.batch, hlayout.1, he ▸ h.effects, by rw [hplan]; exact Plan.accept_le ha h.le,
    h.first, fun e he' =>
    ⟨hlayout.2 e (h.acked e he').1, (h.acked e he').2⟩, fun hr => ?_⟩
  obtain ⟨hh, q, hq, hto⟩ := h.running (hw ▸ hr)
  refine ⟨hf ▸ hh, q, hq, ?_⟩
  rw [ho, runs_append, hto, Option.bind_some, runs_cons, ha, hplan]
  rfl

variable (s') in
theorem executed (h : Passage may fs acked first s g b d d') {b' : WriteBatch C Cb}
    {stop : Option Stop} {es : List (Effect C Cb)} (hrunning : s.worker.running = true)
    (ht : Worker.BatchTrace s.files b' stop s'.files es) (hb : Worker.Collected b')
    (he : s.executing = []) (ho : s.outstanding = b'.requests.map (·.req) ++ s'.outstanding)
    (hw : s'.worker.executing? = some b') (he' : s'.executing = es)
    (hr : s'.worker.running = true → stop = none) :
    ∃ d₁, Passage may fs acked first s' g b' d d₁ := by
  have heff := h.effects
  rw [he] at heff
  cases heff
  obtain ⟨hh, p, hp, hto⟩ := h.running hrunning
  rw [ho, runs_append] at hto
  obtain ⟨p₁, hp₁, hto⟩ := Option.bind_eq_some_iff.1 hto
  obtain ⟨d₁, hrun₁, hle₁, hat₁⟩ := ht.onDisk hb hh hp hp₁
  refine ⟨d₁, fun b₁ hb₁ => ?_, h.followsTape, he' ▸ hrun₁, Plan.runs_le hto hle₁, h.first, h.acked,
    fun hr' => ?_⟩
  · rw [hw] at hb₁
    exact (Option.some.inj hb₁).symm
  · obtain ⟨hh₁, hp₁'⟩ := hat₁ (hr hr')
    exact ⟨hh₁, p₁, hp₁', hto⟩

variable (s') in
theorem effect (h : Passage may fs acked first s g b d d') (hg : g.Spelled) {e : Effect C Cb}
    {es : List (Effect C Cb)} {acked' : List (LogEntry A C)} (hfs : fs.onEffect e = some fs')
    (he : s.executing = e :: es) (he' : s'.executing = es) (hf : s'.files = s.files)
    (ho : s'.outstanding = s.outstanding) (hb : s'.worker.executing? = s.worker.executing?)
    (hr : s'.worker.running = true → s.worker.running = true)
    (hack : ∀ d₁, Disk.step ((Mode.careful may).rules A C) b d e = some d₁ → ∀ x ∈ acked',
      x ∈ history g.layout ∧ x.end_ ≤ d₁.stable) : ∃ d₁,
        Passage may fs' (acked ++ acked') first s' g b d₁ d' := by
  have heff := h.effects
  rw [he, runs_cons] at heff
  obtain ⟨d₁, hd₁, heff⟩ := Option.bind_eq_some_iff.1 heff
  have hpath : d₁.tape.chunks.map (·.1) <+: g.layout.map (·.id) :=
    hg.ids ▸ ((Disk.runs_le heff).trans h.le).path
  refine ⟨d₁, hb ▸ h.batch, h.followsTape.effect hd₁ hfs hpath, he' ▸ heff, h.le,
    h.first.trans (Disk.step_le hd₁).1, fun x hx => ?_, fun hr' => ?_⟩
  · rcases List.mem_append.1 hx with hx | hx
    · exact ⟨(h.acked x hx).1,
        (h.acked x hx).2.trans (Disk.step_stable hd₁ h.followsTape.synced_le)⟩
    · exact hack d₁ hd₁ x hx
  · rw [hf, ho]
    exact h.running (hr hr')

end Passage

/-- **A session of a client that keeps the log**, between two steps: `log` is what follows the
chunks that were gone when it began, the `first` ones. -/
structure KeepsLog (may : Nat → Prop) (fs : Fs) (log acked : List (LogEntry A C)) (first : Nat)
    (s : Session A C Cb) (g : View A C) : Prop where
  course : ∃ b d d', Passage may fs acked first s g b d d'
  idle : ∀ w, s.client = .idle w → WalKept may w g s.drained
  busy : ∀ op p, s.client = .busy op p →
    p.Safe (contract (Mode.careful may))
    (fun x g => WalKept may x.2 g (s.drained ++ drainedBy x.1)) g
  refused : g.dead = true → s.tx = false ∨ s.receiving = false
  chained : Tape.Chained g.plan.tape.chunks
  spelled : g.Spelled
  logged : first ≤ g.parts.length ∧ log = history (g.layout.drop first)
  asked : g.plan.tape.Asked may
  marks : ∀ r ∈ s.sent, r.mark ≤ log.length ∧ ∀ w, r.request.req = .write w →
    ∀ e ∈ log.take r.mark, e.end_ ≤ w.uptoOffset
  clean : g.plan.clean = s.covered

variable {fs fs' : Fs} {log acked acked' : List (LogEntry A C)} {first : Nat}
    {s s' : Session A C Cb}

theorem KeepsLog.mem (h : KeepsLog may fs log acked first s g) {e : LogEntry A C} (he : e ∈ log) :
    e ∈ history g.layout := by
  obtain ⟨-, rfl⟩ := h.logged
  obtain ⟨p, hp, he⟩ := mem_history.1 he
  exact mem_history.2 ⟨p, List.mem_of_mem_drop hp, he⟩

theorem KeepsLog.worker (h : KeepsLog may fs log acked first s g) (hc : s.SameClient s')
    (hr : s.receiving = false → s'.receiving = false)
    (hcourse : ∃ b d d', Passage may fs' acked' first s' g b d d') :
    KeepsLog may fs' log acked' first s' g where
  course := hcourse
  idle w hi := hc.drained ▸ h.idle w (hc.client ▸ hi)
  busy op p hp := hc.drained ▸ h.busy op p (hc.client ▸ hp)
  refused hdead := (h.refused hdead).imp (hc.tx.trans ·) hr
  chained := h.chained
  spelled := h.spelled
  logged := h.logged
  asked := h.asked
  marks := hc.sent ▸ h.marks
  clean := by
    rw [Session.covered, hc.sent]
    exact h.clean

/-- Who has sent a request that was refused does not send any more. -/
theorem KeepsLog.alive (h : KeepsLog may fs log acked first s g) (htx : s.tx = true)
    (hr : s.receiving = true) : g.dead = false := by
  by_contra hd
  rcases h.refused (Bool.eq_true_of_not_eq_false hd) with htx' | hr'
  · exact absurd (htx.symm.trans htx') (by simp)
  · exact absurd (hr.symm.trans hr') (by simp)

theorem KeepsLog.respond (h : KeepsLog may fs log acked first s g) {op : Op A C Cb}
    {a : ClientAct A C Cb} {k : IoResult → System.ClientProg A C Cb} {r : IoResult}
    (hc : s.client = .busy op (.act a k)) (hs : s'.client = .busy op (k r))
    (hstep : (contract (Mode.careful may)).step a g r g')
    (hcourse : ∃ b d d', Passage may fs' acked first s' g' b d d')
    (hrefused : g'.dead = true → s'.tx = false ∨ s'.receiving = false) (hd : s'.drained = s.drained)
    (hsent : s'.sent = s.sent) (hp : g'.plan = g.plan) (hps : g'.parts = g.parts)
    (hrec : g'.records = g.records) : KeepsLog may fs' log acked first s' g' where
  course := hcourse
  idle w hi := by
    rw [hs] at hi
    cases hi
  busy op' p hp := by
    rw [hs] at hp
    cases hp
    rw [hd]
    exact (h.busy _ _ hc).2 r g' hstep
  refused := hrefused
  chained := hp ▸ h.chained
  spelled := by
    obtain ⟨h₁, h₂, h₃⟩ := h.spelled
    refine ⟨by rw [hp, hps]; exact h₁, by rw [hp, hrec]; exact h₂, ?_⟩
    simp only [View.layout, View.newest, hp, hps, hrec]
    exact h₃
  logged := by
    simp only [View.layout, View.newest, hp, hps, hrec]
    exact h.logged
  asked := hp ▸ h.asked
  marks := hsent ▸ h.marks
  clean := by
    rw [hp, Session.covered, hsent]
    exact h.clean

theorem KeepsLog.enqueued (h : KeepsLog may fs log acked first s g) {op : Op A C Cb}
    {req : WorkerRequest C Cb} {k : IoResult → System.ClientProg A C Cb}
    (hc : s.client = .busy op (.act (.send req) k)) (hdead : g.dead = false) {p : Plan}
    (hp : g.plan.accept ((Mode.careful may).rules A C) req = some p)
    (hallowed : Allowed (Mode.careful may) g req) :
    KeepsLog may fs log acked first { s.respond op k (.ok ()) with
      sentSeq := s.sentSeq + 1
      queue := s.queue ++ [{ seq := s.sentSeq + 1, req }]
      sent := s.sent ++ [{ request := { seq := s.sentSeq + 1, req }, mark := log.length }] }
      (g.sent req p) := by
  obtain ⟨b, d, d', hcourse⟩ := h.course
  obtain ⟨hn, hlog⟩ := h.logged
  obtain ⟨hn', hhist⟩ := View.sent_history hp hn
  refine ⟨⟨b, d, d', hcourse.enqueued hp hallowed rfl rfl rfl ?_⟩, fun w hw => ?_,
    fun op' q hq => ?_, fun hd => ?_, ?_, h.spelled.sent rfl hp hallowed,
    ⟨hn', hlog.trans hhist.symm⟩, ?_, fun r hr => ?_, ?_⟩
  · simp [Session.outstanding, Session.collecting, Session.respond]
  · cases hw
  · cases hq
    exact (h.busy _ _ hc).2 (.ok ()) _ ⟨hdead, hallowed, p, hp, rfl⟩
  · exact Bool.noConfusion (((g.sent_dead req p).trans hdead).symm.trans hd)
  · rw [View.sent_plan]
    exact Plan.accept_chained hp h.chained
  · rw [View.sent_plan]
    refine Plan.accept_asked rfl hp (fun id hid => ?_) h.asked
    cases req with
    | removeChunks ids => exact hallowed id hid
    | _ => cases hid
  · rcases List.mem_append.1 hr with hr | hr
    · exact h.marks r hr
    · obtain rfl := List.mem_singleton.1 hr
      refine ⟨Nat.le_refl _, fun w hw e he => ?_⟩
      obtain rfl : req = .write w := hw
      rw [View.upto_eq hp hallowed]
      exact h.spelled.le_end h.chained (h.mem (List.mem_of_mem_take he))
  · rw [View.sent_plan, Plan.accept_covers hp, h.clean, Session.covered, Session.covered,
      List.foldl_append]
    rfl

/-- A new file is the first one behind the chunks. -/
theorem KeepsLog.created (h : KeepsLog may fs log acked first s g) {op : Op A C Cb} {id : Nat}
    {k : IoResult → System.ClientProg A C Cb} (hc : s.client = .busy op (.act (.createNew id) k)) :
    KeepsLog may (fs.createNew id) log acked first (s.respond op k (.ok ()))
      { g with extras := g.extras ++ [id], synced := false } := by
  obtain ⟨b, d, d', hcourse⟩ := h.course
  obtain ⟨-, hid, hbytes, hx⟩ := (h.busy _ _ hc).1
  have hx : g.extras = [] := hx rfl
  refine h.respond (r := .ok ()) hc rfl rfl
    ⟨b, d, d', hcourse.acted (.of_client rfl rfl rfl) rfl ?_ fun _ he => he⟩ h.refused rfl rfl rfl
    rfl rfl
  have hm := hcourse.followsTape
  rw [hx] at hm
  show FollowsTape A C (fs.createNew id) d _ (g.extras ++ [id]) false
  rw [hx]
  exact hm.created fun i hi => hid ▸ h.spelled.lt_end h.chained hbytes i hi

/-- The name of a new chunk is free. -/
theorem KeepsLog.free (h : KeepsLog may fs log acked first s g) {op : Op A C Cb} {id : Nat}
    {k : IoResult → System.ClientProg A C Cb} (hc : s.client = .busy op (.act (.createNew id) k)) :
    id ∉ fs.dir := fun hd => by
  obtain ⟨b, d, d', hcourse⟩ := h.course
  obtain ⟨-, hid, hbytes, hx⟩ := (h.busy _ _ hc).1
  have hmem : id ∈ g.layout.map (·.id) := by
    rw [hcourse.followsTape.dir.mem_iff, hx rfl, List.append_nil] at hd
    exact List.mem_of_mem_drop hd
  exact absurd (h.spelled.lt_end h.chained hbytes id hmem) (by rw [hid]; exact Nat.lt_irrefl _)

theorem KeepsLog.noted (h : KeepsLog may fs log acked first s g) {op : Op A C Cb}
    {entry : LogEntry A C} {k : IoResult → System.ClientProg A C Cb}
    (hc : s.client = .busy op (.act (.note entry) k)) :
    KeepsLog may fs (log ++ [entry]) acked first (s.respond op k (.ok ()))
      { g with records := g.records ++ [entry.1] } := by
  obtain ⟨b, d, d', hcourse⟩ := h.course
  obtain ⟨henc, hentry⟩ := (h.busy _ _ hc).1 rfl
  obtain ⟨hn, hlog⟩ := h.logged
  have hids : ({ g with records := g.records ++ [entry.1] } : View A C).layout.map (·.id) =
      g.layout.map (·.id) := by
    simp [View.layout, View.newest]
  have hhist : history ({ g with records := g.records ++ [entry.1] } : View A C).layout =
      history g.layout ++ [entry] := by
    have := View.history_noted (g := g) entry.1 (Nat.zero_le _)
    rwa [← hentry] at this
  refine ⟨⟨b, d, d', hcourse.acted (.of_client rfl rfl rfl) rfl (hids ▸ hcourse.followsTape)
    fun e he => by rw [hhist]; exact List.mem_append_left _ he⟩, fun w hw => ?_, fun op' p hp => ?_,
    h.refused, h.chained, h.spelled.noted henc, ⟨hn, ?_⟩, h.asked, fun r hr => ?_, h.clean⟩
  · cases hw
  · cases hp
    exact (h.busy _ _ hc).2 (.ok ()) _ rfl
  · rw [View.history_noted _ hn, ← hlog, ← hentry]
  · obtain ⟨hle, hupto⟩ := h.marks r hr
    refine ⟨hle.trans (by simp), fun w hw e he => hupto w hw e ?_⟩
    rwa [List.take_append_of_le_length hle] at he

/-- **What an answer acknowledges** was sent with the write that is answered. -/
theorem KeepsLog.acknowledged (h : KeepsLog may fs log acked first s g) (hexp : s.Explained)
    (hnum : s.Numbered) {b : WriteBatch C Cb} {e : Effect C Cb} {es : List (Effect C Cb)}
    {stop : Option Stop} {held : Nat} (hw : s.worker = .exec b (e :: es) stop held) {d d₁ : Disk}
    (hs : Disk.step ((Mode.careful may).rules A C) b d e = some d₁) {x : LogEntry A C}
    (hx : x ∈ System.ackedBy log s b e) : x ∈ history g.layout ∧ x.end_ ≤ d₁.stable := by
  cases e with
  | answer seq cb res =>
    rcases res with err | ⟨⟩
    · cases hx
    simp only [System.ackedBy] at hx
    split at hx
    case h_2 => cases hx
    rename_i r w hr hfind
    split at hx
    case isFalse => cases hx
    rename_i hsync
    have hwmem := List.mem_of_find?_eq_some hfind
    have hwseq : w.seq = seq := by simpa using List.find?_some hfind
    have hrmem := List.mem_of_find?_eq_some hr
    have hrseq : r.request.seq = seq := by simpa using List.find?_some hr
    have hbatch : b ∈ s.batches := by
      rw [Session.Explained, hw] at hexp
      obtain ⟨files, bs, pre, fs, done, hbs, -⟩ := hexp.1
      rw [hbs]
      exact List.mem_append_right _ (List.mem_singleton_self _)
    obtain ⟨r', hr', heq⟩ :
      ∃ r' ∈ s.sent, r'.request = { seq := w.seq, req := .write w.write } := by
      refine List.mem_map.1 (hnum.taken.subset ?_)
      refine List.mem_append_left _ (List.mem_append_left _ (List.mem_flatMap.2 ⟨b, hbatch, ?_⟩))
      exact List.mem_append_left _ (List.mem_map.2 ⟨w, hwmem, rfl⟩)
    have hnd : (s.sent.map (·.request.seq)).Nodup := hnum.seqs ▸ List.nodup_range'
    obtain rfl : r' = r := List.inj_on_of_nodup_map hnd hr' hrmem (by rw [heq, hrseq]; exact hwseq)
    have hstep := hs
    simp only [Disk.step] at hstep
    split at hstep
    · rename_i hall
      cases hstep
      refine ⟨h.mem (List.mem_of_mem_take hx), ?_⟩
      exact ((h.marks _ hrmem).2 w.write (by rw [heq]) x hx).trans (hall w hwmem hwseq hsync)
    · cases hstep
  | _ => cases hx

end

namespace System

section
variable {A C Cb : Type} [Crc32fast] [Encode A] [Decode A] [Encode C] [Decode C]
  {sm : StateMachine A C}

/-- No file that the client creates fails, and the calls are proper. Removals of files get to stable
storage in their order: a crash undoes the last of them. -/
def Careful (sys : System A C Cb) : Label Cb sm → Prop
  | .call op => ∀ s ∈ sys.session, op.Proper s.drained s.covered
  | .client r => r = .ok ()
  | .crash keep => sys.fs.revived keep <:+ sys.fs.unlinked
  | _ => True

variable [SizedCodec A] [SizedCodec C] {may : Nat → Prop} {s : Session A C Cb} {g : View A C}
    {first : Nat}

omit [Decode A] [Decode C] in
/-- **A turn of a session** of a client that keeps the log, whatever fails in the worker. -/
theorem Turn.keepsLog (hne : ∀ rec : WALRecord A C, Encodes rec → enc rec ≠ [])
    {sys : System A C Cb} {l : Label Cb sm} {fs' : Fs} {log' acked' : List (LogEntry A C)}
    {s' : Session A C Cb} (hs : sys.session = some s) (hready : s.Ready) (hnum : s.Numbered)
    (hexp : s.Explained) (h : KeepsLog may sys.fs sys.log sys.acked first s g)
    (hok : Careful sys l) (hmay : ∀ id ∈ l.passed, may id)
    (ht : Turn sys s l fs' log' acked' s') : ∃ g', KeepsLog may fs' log' acked' first s' g' := by
  obtain ⟨b, d, d', hcourse⟩ := h.course
  cases ht with
  | @called op w hc =>
    refine ⟨g, { h with
      course := ⟨b, d, d', hcourse.rests (.of_client rfl rfl rfl)⟩
      idle := by simp
      busy := fun op' p hp => ?_ }⟩
    cases hp
    exact op.kept hne (h.idle w hc) (hok s hs) hmay fun _ hcl => h.clean.trans hcl
  | @finished _ op res w hc =>
    refine ⟨g, { h with
      course := ⟨b, d, d', hcourse.rests (.of_client rfl rfl rfl)⟩
      idle := fun w' hw => ?_
      busy := fun op' p hp => ?_ }⟩
    · have hsafe : WalKept may w g (s.drained ++ drainedBy res) := h.busy _ _ hc
      simp only [Session.finish] at hw
      split at hw <;> cases hw
      rw [s.finish_drained op res]
      exact hsafe
    · simp only [Session.finish] at hp
      split at hp <;> cases hp
  | rested hc hr hrest => exact ⟨g, h.worker hc hr ⟨b, d, d', hcourse.rests hrest⟩⟩
  | panicked =>
    exact ⟨g, { h with
      course := ⟨b, d, d', hcourse.rests (.of_client rfl rfl rfl)⟩, idle := by simp
      busy := by simp }⟩
  | refused hc ha hgone =>
    exact ⟨{ g with dead := true }, h.respond (r := .error _) hc ha.client rfl
      ⟨b, d, d', hcourse.acted ha.rests rfl hcourse.followsTape fun _ => id⟩
      (fun _ => hgone.imp ha.tx (ha.receiving.trans ·)) ha.drained ha.sent rfl rfl rfl⟩
  | @enqueued _ op req k hc htx hr =>
    have hdead : g.dead = false := h.alive htx hr
    obtain ⟨hacc, hallowed⟩ := (h.busy _ _ hc).1 hdead
    obtain ⟨p, hp⟩ := Option.isSome_iff_exists.1 hacc
    exact ⟨g.sent req p, h.enqueued hc hdead hp hallowed⟩
  | created hc => exact ⟨_, h.created hc⟩
  | notCreated hc hd =>
    obtain rfl := hok
    exact absurd (hd.resolve_left (by simp)) (h.free hc)
  | synced hc =>
    obtain rfl := hok
    rw [if_pos rfl]
    exact ⟨{ g with synced := true }, h.respond (r := .ok ()) hc rfl rfl
      ⟨b, d, d', hcourse.acted (.of_client rfl rfl rfl) rfl hcourse.followsTape.dirSynced
        fun _ => id⟩ h.refused rfl rfl rfl rfl rfl⟩
  | noted hc => exact ⟨_, h.noted hc⟩
  | @answered _ op a k r _ hc ha hans =>
    obtain ⟨hplan, hdead, hparts, hrec, hx, hsync⟩ := g.told_eq a r
    have hl : (g.told a r).layout = g.layout := by
      simp only [View.layout, View.newest, hplan, hparts, hrec]
    refine ⟨g.told a r, h.respond hc hans.client (View.told_step (ha.imp_left And.left))
      ⟨b, d, d', hcourse.acted hans.rests hplan ?_ fun _ he => hl ▸ he⟩ (fun hd => ?_) hans.drained
      hans.sent hplan hparts hrec⟩
    · rw [hl, hx, hsync]
      exact hcourse.followsTape
    · exact (h.refused (hdead ▸ hd)).imp hans.tx (hans.receiving.trans ·)
  | stopped hc hr he hb hrun =>
    exact ⟨g, h.worker hc (fun hr' => absurd (hr.symm.trans hr') (by simp))
      ⟨b, d, d', hcourse.stopped he hb hrun⟩⟩
  | @executed _ b' script hw =>
    obtain ⟨d₁, h₁⟩ := hcourse.executed { s with
        files := (Worker.execBatch s.files script b').2.files
        batches := s.batches ++ [b']
        worker := .exec b' (Worker.execBatch s.files script b').2.effects
          (Worker.execBatch s.files script b').1 b'.bytes }
      (by simp [hw, WorkerPc.running]) (executed_trace hready hw script) (hready.collected b' hw)
      (by simp [Session.executing, hw])
      (by simp [Session.outstanding, Session.collecting, hw]) rfl rfl
      fun hr => running_exec hr
    exact ⟨g, h.worker ⟨rfl, rfl, rfl, rfl⟩ (by simp [Session.receiving, hw]) ⟨b', d, d₁, h₁⟩⟩
  | @effect _ b' e es stop held fs' hw hf =>
    obtain rfl := hcourse.batch b' (by rw [hw]; rfl)
    obtain ⟨d₁, h₁⟩ := hcourse.effect { s.onEffect e with
        worker := .exec b' es stop (held - e.release?.getD 0), trace := s.trace ++ [e] }
      h.spelled hf
      (by simp [Session.executing, hw]) rfl rfl
      (by simp [Session.outstanding, Session.collecting, hw, Session.onEffect]) (by rw [hw]; rfl)
      (fun hr => by
        obtain rfl := running_exec hr
        simp [hw, WorkerPc.running])
      fun d₁ hd₁ x hx => h.acknowledged hexp hnum hw hd₁ hx
    exact ⟨g, h.worker ⟨rfl, rfl, rfl, rfl⟩ (by simp [Session.receiving, hw]) ⟨b', d₁, d', h₁⟩⟩

/-- **A step inside of a session** of a client that keeps the log, whatever fails in the worker. -/
theorem keepsLog_step (hne : ∀ rec : WALRecord A C, Encodes rec → enc rec ≠ [])
    {sys sys' : System A C Cb} {l : Label Cb sm} (hs : sys.session = some s) (hready : s.Ready)
    (hbal : s.Balanced) (hnum : s.Numbered) (hexp : s.Explained)
    (h : KeepsLog may sys.fs sys.log sys.acked first s g) (hok : Careful sys l)
    (hmay : ∀ id ∈ l.passed, may id) (hl : Inside l = true ∨ ∃ op, l = .call op)
    (hstep : step sys l = some sys') :
    ∃ s' g', sys'.session = some s' ∧ KeepsLog may sys'.fs sys'.log sys'.acked first s' g' := by
  obtain ⟨s', hs', ht⟩ := turn_of_step hs hbal hnum hl hstep
  obtain ⟨g', h'⟩ := ht.keepsLog hne hs hready hnum hexp h hok hmay
  exact ⟨s', g', hs', h'⟩

end

end System

end Wal

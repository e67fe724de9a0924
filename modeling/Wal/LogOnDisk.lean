import Wal.KeepingLog
import Wal.Surviving

/-!
# A log between two sessions

`LogOnDisk` is a directory between two sessions: a crash has left it (`Image`), and every
acknowledged record is on stable storage, or in a chunk that was removed. A session ends in such a
directory wherever it is cut off (`KeepsLog.kept`, `LogOnDisk.remains`), and an opening begins the
next session on it (`LogOnDisk.keepsLog`).
-/

namespace Wal

open Lib

/-! ## Crashes -/

/-- **What is left of a directory**, at least: of every file a prefix with all that was on
stable storage, and every name that was synchronized. The names in `back` are back: they were
removed last. -/
structure Fs.Remains (fs fs' : Fs) (back : List Nat) : Prop where
  aliases : fs'.aliases = fs.aliases
  nodup : (fs.dir ++ fs.unlinked).Nodup → (fs'.dir ++ fs'.unlinked).Nodup
  dir : ∀ i ∈ fs'.dir, i ∈ fs.dir ∨ i ∈ back
  returned : ∀ i ∈ back, i ∈ fs'.dir
  unlinked : fs.unlinked = fs'.unlinked ++ back
  names : ∀ i ∈ fs.dir, fs.committed i = true → i ∉ fs.unlinked → i ∈ fs'.dir
  data : ∀ i, (fs'.file i).data <+: (fs.file i).data
  synced : ∀ i ∈ fs.dir ++ fs.unlinked, (fs.file i).synced ≤ (fs'.file i).synced
  committed : fs'.committed = fs.committed

/-- A list whose good elements come last. -/
theorem filter_of_suffix {α : Type} {l : List α} {P : α → Bool} (h : l.filter P <:+ l) :
    l = l.filter (fun x => !P x) ++ l.filter P := by
  obtain ⟨front, hf⟩ := h
  have hself : (l.filter P).filter P = l.filter P := List.filter_eq_self.2 fun x hx =>
    (List.mem_filter.1 hx).2
  have hnone : front.filter P = [] := by
    have := congrArg (List.filter P) hf
    rw [List.filter_append, hself] at this
    exact List.append_left_eq_self.1 this
  have hall : front.filter (fun x => !P x) = front := List.filter_eq_self.2 fun x hx => by
    simpa using List.filter_eq_nil_iff.1 hnone x hx
  have hback : (l.filter P).filter (fun x => !P x) = [] := List.filter_eq_nil_iff.2 fun x hx => by
    simp [(List.mem_filter.1 hx).2]
  have hfront : l.filter (fun x => !P x) = front := by
    have := congrArg (List.filter fun x => !P x) hf
    rw [List.filter_append, hall, hback, List.append_nil] at this
    exact this.symm
  rw [hfront]
  exact hf.symm

/-- Removals that a crash undoes from the last one on. -/
theorem Fs.remains_crash {fs fs' : Fs} {keep : Fs.Keep} (h : fs.crash keep = some fs')
    (hback : fs.revived keep <:+ fs.unlinked) : fs.Remains fs' (fs.revived keep) where
  aliases := by rw [(Fs.crash_eq h).2]; rfl
  nodup hn := by
    rw [(Fs.crash_eq h).2]
    refine List.nodup_append.2 ⟨hn.filter _, (List.nodup_append.1 hn).2.1.filter _,
      fun a ha b hb he => ?_⟩
    have hsome := (List.mem_filter.1 ha).2
    have hnone := (List.mem_filter.1 hb).2
    rw [he, Option.isNone_iff_eq_none.1 hnone] at hsome
    cases hsome
  dir i hi := by
    rw [(Fs.crash_eq h).2] at hi
    obtain ⟨hi, hs⟩ := List.mem_filter.1 hi
    exact (List.mem_append.1 hi).imp_right fun hi => List.mem_filter.2 ⟨hi, hs⟩
  returned i hi := by
    obtain ⟨hi, hs⟩ := List.mem_filter.1 hi
    rw [(Fs.crash_eq h).2]
    exact List.mem_filter.2 ⟨List.mem_append_right _ hi, hs⟩
  unlinked := by
    have hkeep : (fs.cutAll keep).unlinked = fs.unlinked.filter fun i => !(keep i).isSome :=
      List.filter_congr fun i _ => by simp
    rw [(Fs.crash_eq h).2, hkeep]
    exact filter_of_suffix hback
  names _ hi hc hu := Fs.crash_dir h hi hc hu
  data i := (Fs.crash_file h i).1
  synced i hi := (Fs.crash_file h i).2 hi
  committed := by rw [(Fs.crash_eq h).2]; rfl

theorem Fs.Remains.same {fs fs' : Fs} {back : List Nat} (h : fs.Remains fs' back) {i : Nat}
    (hi : i ∈ fs.dir ++ fs.unlinked) (hs : (fs.file i).data.length ≤ (fs.file i).synced) :
    (fs'.file i).data = (fs.file i).data :=
  (h.data i).eq_of_length_le (hs.trans ((h.synced i hi).trans (fs'.file i).synced_le))

section
variable {A C : Type} [Crc32fast] [Encode A] [Encode C] {fs fs' : Fs} {p : Part A C}
    {ps qs : List (Part A C)}

/-- The file of a chunk is whole, and on stable storage with its name. -/
structure Fs.Holds (fs : Fs) (p : Part A C) : Prop where
  data : (fs.file p.id).data = encAll p.records
  synced : (encAll p.records).length ≤ (fs.file p.id).synced
  committed : fs.committed p.id = true

theorem Fs.Holds.remains (h : fs.Holds p) {back : List Nat} (hr : fs.Remains fs' back)
    (hm : p.id ∈ fs.dir ++ fs.unlinked) : fs'.Holds p where
  data := (hr.same hm (h.data ▸ h.synced)).trans h.data
  synced := h.synced.trans (hr.synced _ hm)
  committed := by rw [hr.committed]; exact h.committed

theorem Survives.of_whole (h : Survives fs (p :: qs)) : ∀ {ps : List (Part A C)},
    (∀ q ∈ ps, (fs.file q.id).data = encAll q.records ∧
      (encAll q.records).length ≤ (fs.file q.id).synced) →
      Tape.Chained ((ps ++ [p]).map Part.spell) → Survives fs (ps ++ p :: qs)
  | [], _, _ => h
  | q :: ps, hw, hc => by
    obtain ⟨hq, hs⟩ := hw q List.mem_cons_self
    obtain ⟨hhead, htail⟩ :=
      List.isChain_cons.1 (show List.IsChain _ (q.spell :: (ps ++ [p]).map Part.spell) from hc)
    have hfirst : ∀ x ∈ (ps ++ p :: qs).head?, x.id = q.end_ ∧ encAll q.records ≠ [] := by
      intro x hx
      refine hhead x.spell ?_
      cases ps <;> cases hx <;> rfl
    obtain ⟨x, hx⟩ : ∃ x, (ps ++ p :: qs).head? = some x := by
      cases ps <;> exact ⟨_, rfl⟩
    refine .whole hq (hq ▸ hs) (fun hnil => (hfirst x hx).2 (by rw [hnil]; rfl)) (fun y hy =>
      (hfirst y hy).1) ?_
    exact h.of_whole (fun y hy => hw y (List.mem_cons_of_mem _ hy)) htail

/-- **Another crash.** -/
theorem Survives.remains (h : Survives fs ps) {back : List Nat} (hr : fs.Remains fs' back)
    (hm : ∀ p ∈ ps, p.id ∈ fs.dir) : Survives fs' ps := by
  induction h with
  | nil => exact .nil
  | cut hp => exact .cut ((hr.data _).trans hp)
  | @whole p ps hp hs hne hn h ih =>
    have hmem : p.id ∈ fs.dir ++ fs.unlinked := List.mem_append_left _ (hm p List.mem_cons_self)
    have hdata := hr.same hmem hs
    exact .whole (hdata.trans hp) (hdata ▸ hs.trans (hr.synced _ hmem)) hne hn
      (ih fun q hq => hm q (List.mem_cons_of_mem _ hq))

theorem ids_spell (ps : List (Part A C)) : (ps.map Part.spell).map (·.1) = ps.map (·.id) := by
  rw [List.map_map]
  rfl

theorem increasing_of_chained (h : Tape.Chained (ps.map Part.spell)) :
    (ps.map (·.id)).Pairwise (· < ·) :=
  ids_spell ps ▸ h.increasing

end

/-! ## Between sessions -/

section
variable {A C Cb : Type} [Crc32fast] [Encode A] [Encode C]

/-- The last of the removed chunks may come back. -/
def Fs.Pending (fs : Fs) (old : List (Part A C)) : Prop :=
  ∃ sure pend, old = sure ++ pend ∧
    fs.unlinked.filter (fun i => decide (i ∈ old.map (·.id))) = pend.map (·.id) ∧ ∀ p ∈ pend,
    fs.Holds p

/-- **A directory between two sessions.** `old` are the chunks that were removed, in this session or
an earlier one, and `ps` those that the files were written for. What else is there, or may come
back, holds no record. -/
structure LogOnDisk (may : Nat → Prop) (fs : Fs) (log acked : List (LogEntry A C))
    (old ps : List (Part A C)) : Prop where
  image : Image fs ps
  nodup : (fs.dir ++ fs.unlinked).Nodup
  pending : fs.Pending old
  stubs : ∀ i ∈ fs.unlinked, i ∉ old.map (·.id) → Stub A C (fs.file i).data ∧ ∀ p ∈ old ++ ps,
    p.id < i
  logged : ∃ n, history ((old ++ ps).drop n) <:+: log ∧ ∀ p ∈ (old ++ ps).take n, may p.id
  chained : Tape.Chained ((old ++ ps).map Part.spell)
  encodes : ∀ p ∈ old, ∀ r ∈ p.records, Encodes r
  asked : ∀ p ∈ old, may p.id
  stands : old ≠ [] → ∃ p ∈ ps.head?, ∃ e ∈ p.entries.head?, e.end_ ≤ p.id + (fs.file p.id).synced
  acked : ∀ e ∈ acked, e ∈ history (old ++ ps) ∧
    (e ∈ history ps → e.end_ ≤ e.2.1 + (fs.file e.2.1).synced)

variable {may : Nat → Prop} {fs fs' : Fs} {log acked : List (LogEntry A C)}
    {old ps : List (Part A C)}

theorem Fs.Pending.of_nil (h : fs.unlinked = []) (old : List (Part A C)) : fs.Pending old :=
  ⟨old, [], (List.append_nil old).symm, by rw [h]; rfl, fun p hp => by cases hp⟩

omit [Crc32fast] [Encode A] [Encode C] in
/-- The chunks that may come back are among the removed names. -/
theorem Fs.Pending.mem {pend : List (Part A C)}
    (h : fs.unlinked.filter (fun i => decide (i ∈ old.map (·.id))) = pend.map (·.id)) {p : Part A C}
    (hp : p ∈ pend) :
    p.id ∈ fs.unlinked := by
  have hm : p.id ∈ fs.unlinked.filter fun i => decide (i ∈ old.map (·.id)) :=
    h ▸ List.mem_map_of_mem hp
  exact (List.mem_filter.1 hm).1

/-- What is behind the files of the chunks is behind those that were removed. -/
theorem LogOnDisk.above (h : LogOnDisk may fs log acked old ps) {i : Nat}
    (hi : ∀ p ∈ ps, p.id < i) :
    ∀ p ∈ old ++ ps, p.id < i := by
  intro p hp
  rcases List.mem_append.1 hp with hp | hp
  · obtain ⟨q, hq, -⟩ := h.stands (List.ne_nil_of_mem hp)
    have hinc := increasing_of_chained h.chained
    rw [List.map_append] at hinc
    exact ((List.pairwise_append.1 hinc).2.2 p.id (List.mem_map_of_mem hp) q.id
      (List.mem_map_of_mem (List.mem_of_head? hq))).trans (hi q (List.mem_of_head? hq))
  · exact hi p hp

omit [Crc32fast] in
theorem Tape.Chained.nonempty {a : Nat × Bytes} {ds : List (Nat × Bytes)} :
    ∀ {cs : List (Nat × Bytes)}, Tape.Chained (cs ++ a :: ds) → ∀ c ∈ cs, c.2 ≠ []
  | [], _, _, hc => by cases hc
  | c :: cs, h, c', hc => by
    obtain ⟨hhead, htail⟩ := List.isChain_cons.1 h
    rcases List.mem_cons.1 hc with rfl | hc
    · obtain ⟨x, hx⟩ : ∃ x, (cs ++ a :: ds).head? = some x := by
        cases cs <;> exact ⟨_, rfl⟩
      exact (hhead x hx).2
    · exact Tape.Chained.nonempty htail c' hc

theorem View.Spelled.split {g : View A C} (h : g.Spelled) {t : Tape} (hle : t.Le g.plan.tape) :
    ∃ ps q qs, g.layout = ps ++ q :: qs ∧ ps.map Part.spell = t.prev ∧ q.id = t.id ∧
      t.bytes <+: encAll q.records := by
  obtain ⟨-, bs, rest, hc, hp⟩ := hle
  rcases List.eq_nil_or_concat rest with rfl | ⟨rest, x, rfl⟩
  · obtain ⟨hprev, hlast⟩ := List.append_inj' hc rfl
    obtain ⟨hid, hbs⟩ : g.plan.tape.id = t.id ∧ g.plan.tape.bytes = bs := by simpa using hlast
    exact ⟨g.parts, g.newest, [], rfl, h.prev.symm.trans hprev, hid, hp.trans (hbs ▸ h.cut)⟩
  · rw [List.concat_eq_append, ← List.cons_append, ← List.append_assoc] at hc
    obtain ⟨hprev, -⟩ := List.append_inj' hc rfl
    rw [h.prev] at hprev
    obtain ⟨ps, qs', hparts, hps, hqs⟩ := List.map_eq_append_iff.1 hprev
    obtain ⟨q, qs, rfl, hq, -⟩ := List.map_eq_cons_iff.1 hqs
    obtain ⟨hid, hbs⟩ := Prod.mk.inj hq
    exact ⟨ps, q, qs ++ [g.newest], by rw [View.layout, hparts, List.append_assoc]; rfl, hps, hid,
      hbs ▸ hp⟩

/-- **A crash** keeps what was kept. -/
theorem LogOnDisk.remains (h : LogOnDisk may fs log acked old ps) {back : List Nat}
    (hr : fs.Remains fs' back) :
    ∃ old' ps', LogOnDisk may fs' log acked old' ps' := by
  obtain ⟨sure, pend, hold, hun, hpend⟩ := h.pending
  have hmem : ∀ p ∈ pend, p.id ∈ fs.unlinked := fun p hp => Fs.Pending.mem hun hp
  -- the removals that are undone are those of the last chunks
  rw [hr.unlinked, List.filter_append] at hun
  obtain ⟨pend₁, pend₂, rfl, hun₁, hun₂⟩ := List.map_eq_append_iff.1 hun.symm
  have hall : (sure ++ pend₁) ++ (pend₂ ++ ps) = old ++ ps := by rw [hold]; simp
  have hinc := increasing_of_chained h.chained
  have hout : ∀ i ∈ fs'.unlinked, i ∉ (sure ++ pend₁).map (·.id) → i ∉ old.map (·.id) :=
    fun i hi hn hm => by
    have hi : i ∈ pend₁.map (·.id) := hun₁ ▸ List.mem_filter.2 ⟨hi, decide_eq_true hm⟩
    exact hn (by rw [List.map_append]; exact List.mem_append_right _ hi)
  have hback : ∀ p ∈ pend₂, p.id ∈ back := fun p hp => by
    have hi : p.id ∈ back.filter fun i => decide (i ∈ old.map (·.id)) :=
      hun₂ ▸ List.mem_map_of_mem hp
    exact (List.mem_filter.1 hi).1
  have hholds : ∀ p ∈ pend₁ ++ pend₂, fs'.Holds p := fun p hp =>
    (hpend p hp).remains hr (List.mem_append_right _ (hmem p hp))
  have hps : ∀ p ∈ ps, p.id ∈ fs.dir ++ fs.unlinked :=
    fun p hp => List.mem_append_left _ (h.image.listed p hp).1
  have hsub : ∀ p ∈ pend₂ ++ ps, p ∈ old ++ ps := fun p hp => hall ▸ List.mem_append_right _ hp
  have hchain : Tape.Chained (((sure ++ pend₁) ++ (pend₂ ++ ps)).map Part.spell) := hall ▸ h.chained
  have hnone : ps = [] → old = [] := fun hnil => by
    by_contra hne
    obtain ⟨q, hq, -⟩ := h.stands hne
    rw [hnil] at hq
    cases hq
  refine ⟨sure ++ pend₁, pend₂ ++ ps,
    ⟨hr.aliases.trans h.image.aliases, (List.nodup_append.1 (hr.nodup h.nodup)).1, fun p hp => ?_,
      fun i hi hn => ?_, ?_, fun p hp => ?_, ?_⟩, hr.nodup h.nodup,
    ⟨sure, pend₁, rfl, ?_, fun p hp => hholds p (List.mem_append_left _ hp)⟩, fun i hi hn => ?_,
    hall ▸ h.logged, hchain, fun p hp => h.encodes p (hold ▸ ?_), fun p hp => h.asked p (hold ▸ ?_),
    fun hne => ?_, fun e he => ?_⟩
  · rcases List.mem_append.1 hp with hp | hp
    · exact ⟨hr.returned _ (hback p hp), (hholds p (List.mem_append_right _ hp)).committed⟩
    · obtain ⟨hm, hc⟩ := h.image.listed p hp
      refine ⟨hr.names _ hm hc fun hu => (List.nodup_append.1 h.nodup).2.2 _ hm _ hu rfl, ?_⟩
      rw [hr.committed]
      exact hc
  · have hn' : i ∉ ps.map (·.id) :=
      fun hm => hn (by rw [List.map_append]; exact List.mem_append_right _ hm)
    rcases hr.dir i hi with hi | hi
    · obtain ⟨hs, hlt⟩ := h.image.stubs i hi hn'
      exact ⟨hs.mono (hr.data i), fun p hp => h.above hlt p (hsub p hp)⟩
    · have hold' : i ∉ old.map (·.id) := fun hm => hn <| by
        rw [List.map_append, hun₂]
        exact List.mem_append_left _ (List.mem_filter.2 ⟨hi, decide_eq_true hm⟩)
      obtain ⟨hs, hlt⟩ := h.stubs i (hr.unlinked ▸ List.mem_append_right _ hi) hold'
      exact ⟨hs.mono (hr.data i), fun p hp => hlt p (hsub p hp)⟩
  · rw [← hall, List.map_append] at hinc
    exact (List.pairwise_append.1 hinc).2.1
  · rcases List.mem_append.1 hp with hp | hp
    · exact h.encodes p (hold ▸ List.mem_append_right _ (List.mem_append_right _ hp))
    · exact h.image.encodes p hp
  · have hrest := h.image.survives.remains hr fun p hp => (h.image.listed p hp).1
    rcases hcase : ps with _ | ⟨q, qs⟩
    · obtain rfl : pend₂ = [] := by
        have := hnone hcase
        rw [hold] at this
        simp_all
      exact .nil
    · rw [hcase] at hrest hchain
      have hpend₂ : Tape.Chained ((pend₂ ++ [q]).map Part.spell) :=
        hchain.infix ⟨(sure ++ pend₁).map Part.spell, qs.map Part.spell, by simp⟩
      refine hrest.of_whole (fun p hp => ?_) hpend₂
      exact ⟨(hholds p (List.mem_append_right _ hp)).data,
        (hholds p (List.mem_append_right _ hp)).synced⟩
  · rw [hun₁]
    refine List.filter_congr fun i hi => decide_eq_decide.2 ⟨fun hm => ?_, fun hm => ?_⟩
    · rw [hold, ← List.append_assoc, List.map_append]
      exact List.mem_append_left _ hm
    · by_contra hn
      exact hout i hi hn hm
  · obtain ⟨hs, hlt⟩ := h.stubs i (hr.unlinked ▸ List.mem_append_left _ hi) (hout i hi hn)
    exact ⟨hs.mono (hr.data i), hall ▸ hlt⟩
  · rw [← List.append_assoc]
    exact List.mem_append_left _ hp
  · rw [← List.append_assoc]
    exact List.mem_append_left _ hp
  · have hne' : old ≠ [] := fun hnil => hne <| by
      rw [hnil] at hold
      rw [(List.append_eq_nil_iff.1 hold.symm).1,
        (List.append_eq_nil_iff.1 (List.append_eq_nil_iff.1 hold.symm).2).1]
      rfl
    obtain ⟨q, hq, e, he, hle⟩ := h.stands hne'
    rcases pend₂ with _ | ⟨p, pend₂⟩
    · exact ⟨q, hq, e, he,
        hle.trans (Nat.add_le_add_left (hr.synced _ (hps q (List.mem_of_head? hq))) _)⟩
    · obtain ⟨qs, rfl⟩ := List.head?_eq_some_iff.1 hq
      have hfull : encAll p.records ≠ [] := by
        have hch : Tape.Chained (((sure ++ pend₁) ++ p :: pend₂).map Part.spell ++ q.spell ::
          qs.map Part.spell) := by
          simpa using hchain
        exact hch.nonempty p.spell (List.mem_map_of_mem (by simp))
      obtain ⟨r, rs, hrs⟩ : ∃ r rs, p.records = r :: rs :=
        List.exists_cons_of_ne_nil fun hnil => hfull (by rw [hnil]; rfl)
      have he' : p.entries.head? = some (r, p.id, { offset := p.id, size := (enc r).length }) := by
        rw [Part.entries, hrs]
        rfl
      refine ⟨p, rfl, _, he',
        (mem_entries (List.mem_of_head? he')).2.2.2.trans (Nat.add_le_add_left ?_ _)⟩
      exact (hholds p (by simp)).synced
  · obtain ⟨h₁, h₂⟩ := h.acked e he
    refine ⟨hall ▸ h₁, fun hm => ?_⟩
    obtain ⟨p, hp, hep⟩ := mem_history.1 hm
    rcases List.mem_append.1 hp with hp | hp
    · rw [(mem_entries hep).2.1]
      exact (mem_entries hep).2.2.2.trans
        (Nat.add_le_add_left (hholds p (List.mem_append_right _ hp)).synced _)
    · refine (h₂ (mem_history.2 ⟨p, hp, hep⟩)).trans (Nat.add_le_add_left (hr.synced _ ?_) _)
      exact (mem_entries hep).2.1 ▸ hps p hp

theorem FollowsTape.prev_part {d : Disk} {ids extras : List Nat} {synced : Bool}
    (h : FollowsTape A C fs d ids extras synced) {ps : List (Part A C)}
    (hprev : ps.map Part.spell = d.tape.prev) {p : Part A C} (hp : p ∈ ps.drop d.tape.gone) :
    (fs.file p.id).data = encAll p.records ∧ (encAll p.records).length ≤ (fs.file p.id).synced := by
  refine h.prev (c := p.spell) ?_
  rw [← hprev, ← List.map_drop]
  exact List.mem_map_of_mem hp

/-- The directory of a tape is one that a crash may leave. -/
theorem FollowsTape.image {d : Disk} {ids extras : List Nat} {synced : Bool}
    (h : FollowsTape A C fs d ids extras synced) {q : Part A C} {qs : List (Part A C)}
    (hids : ids = (ps ++ q :: qs).map (·.id)) (hprev : ps.map Part.spell = d.tape.prev)
    (hid : q.id = d.tape.id) (hbytes : d.tape.bytes <+: encAll q.records)
    (hchain : Tape.Chained ((ps ++ q :: qs).map Part.spell))
    (henc : ∀ p ∈ ps ++ q :: qs, ∀ r ∈ p.records, Encodes r) :
    Image fs (ps.drop d.tape.gone ++ [q]) := by
  have hlen : d.tape.gone ≤ ps.length := by
    have := h.gone
    rwa [← hprev, List.length_map] at this
  have hmap : ids.drop d.tape.gone ++ extras = (ps.drop d.tape.gone ++ [q]).map (·.id) ++
    (qs.map (·.id) ++ extras) := by
    rw [hids, ← List.map_drop, List.drop_append_of_le_length hlen]
    simp
  have hinc : (ids.drop d.tape.gone ++ extras).Pairwise (· < ·) :=
    h.increasing.sublist ((List.drop_sublist _ _).append (List.Sublist.refl _))
  have hdir := h.dir
  rw [hmap] at hinc hdir
  obtain ⟨hinc₁, -, hlt⟩ := List.pairwise_append.1 hinc
  have hsub : ∀ p ∈ ps.drop d.tape.gone ++ [q], p ∈ ps ++ q :: qs := fun p hp => by
    rcases List.mem_append.1 hp with hp | hp
    · exact List.mem_append_left _ (List.mem_of_mem_drop hp)
    · exact List.mem_append_right _ (List.mem_singleton.1 hp ▸ List.mem_cons_self)
  refine ⟨h.aliases, hdir.nodup_iff.2 (hinc.imp Nat.ne_of_lt), fun p hp => ?_, fun i hi hn => ?_,
    hinc₁, fun p hp => henc p (hsub p hp), ?_⟩
  · have hm : p.id ∈ fs.dir := hdir.mem_iff.2 (List.mem_append_left _ (List.mem_map_of_mem hp))
    exact ⟨hm, h.committed _ hm (.inl (hids ▸ List.mem_map_of_mem (hsub p hp)))⟩
  · have hi' := (List.mem_append.1 (hdir.mem_iff.1 hi)).resolve_left hn
    refine ⟨.inl (h.behind i hi ?_), fun p hp => hlt p.id (List.mem_map_of_mem hp) i hi'⟩
    exact hid ▸ hlt q.id (List.mem_map_of_mem (by simp)) i hi'
  · refine Survives.of_whole (.cut (by rw [hid, h.bytes]; exact hbytes)) (fun p hp =>
      h.prev_part hprev hp) ?_
    have hsub : (ps.drop d.tape.gone ++ [q]).map Part.spell <:+:
      (ps ++ q :: qs).map Part.spell := by
      refine List.IsInfix.map _ ⟨ps.take d.tape.gone, qs, ?_⟩
      rw [← List.append_assoc, List.take_append_drop, List.append_assoc]
      rfl
    exact hchain.infix hsub

variable [Decode A] [Decode C] [WALRecord.LawfulAction A] [LawfulCodec C]

theorem enc_unique {r r' : WALRecord A C} (hr : Encodes r) (hr' : Encodes r') {data : Bytes}
    (h : enc r <+: data) (h' : enc r' <+: data) : r = r' := by
  obtain ⟨t, rfl⟩ := h
  obtain ⟨t', ht⟩ := h'
  have h₁ := LawfulCodec.decode_enc hr t
  rw [← ht, LawfulCodec.decode_enc hr' t'] at h₁
  exact (Except.ok.inj (congrArg Prod.fst h₁)).symm

section
variable {d : Disk} {ids extras : List Nat} {synced : Bool} {q : Part A C}
  (hm : FollowsTape A C fs d ids extras synced) (hprev : ps.map Part.spell = d.tape.prev)
  (hid : q.id = d.tape.id) (hbytes : d.tape.bytes <+: encAll q.records)
include hm hprev hid hbytes

/-- Where chunks are gone, the first record behind them is on stable storage. -/
theorem FollowsTape.stands_front (henc : ∀ r ∈ q.records, Encodes r)
    (hne : ∀ p ∈ ps, encAll p.records ≠ []) (hpos : 0 < d.tape.gone) :
    ∃ p ∈ (ps.drop d.tape.gone ++ [q]).head?, ∃ e ∈ p.entries.head?,
      e.end_ ≤ p.id + (fs.file p.id).synced := by
  rcases hdrop : ps.drop d.tape.gone with _ | ⟨p, rest⟩
  · have hgone : d.tape.gone = d.tape.prev.length := by
      refine Nat.le_antisymm hm.gone ?_
      rw [← hprev, List.length_map]
      exact List.drop_eq_nil_iff.1 hdrop
    obtain ⟨r, hr, hpre, hsync⟩ := hm.stands hpos hgone
    obtain ⟨r', rs, hrs⟩ : ∃ r' rs, q.records = r' :: rs := by
      refine List.exists_cons_of_ne_nil fun hnil => ?_
      rw [hnil] at hbytes
      exact LawfulRecord.enc_ne_nil hr (List.prefix_nil.1 (hpre.trans hbytes))
    obtain rfl : r = r' := by
      refine enc_unique hr (henc r' (hrs ▸ List.mem_cons_self)) (hpre.trans hbytes) ?_
      rw [hrs, encAll_cons]
      exact List.prefix_append _ _
    refine ⟨q, rfl, (r, q.id, { offset := q.id, size := (enc r).length }), ?_, ?_⟩
    · rw [Part.entries, hrs]
      rfl
    · show q.id + (enc r).length ≤ _
      rw [hid]
      exact Nat.add_le_add_left (hsync.trans hm.reached) _
  · have hp : p ∈ ps.drop d.tape.gone := hdrop ▸ List.mem_cons_self
    obtain ⟨r, rs, hrs⟩ : ∃ r rs, p.records = r :: rs :=
      List.exists_cons_of_ne_nil fun hnil =>
        hne p (List.mem_of_mem_drop hp) (by rw [hnil]; rfl)
    have he : p.entries.head? = some (r, p.id, { offset := p.id, size := (enc r).length }) := by
      rw [Part.entries, hrs]
      rfl
    exact ⟨p, rfl, _, he, (mem_entries (List.mem_of_head? he)).2.2.2.trans
      (Nat.add_le_add_left (hm.prev_part hprev hp).2 _)⟩

omit hprev in
/-- A record that ends on stable storage is in a chunk that the worker has begun. -/
theorem FollowsTape.begun_of_stable {qs : List (Part A C)} {e : LogEntry A C}
    (hchain : Tape.Chained ((ps ++ q :: qs).map Part.spell))
    (henc : ∀ p ∈ qs, ∀ r ∈ p.records, Encodes r) (he : e ∈ history (ps ++ q :: qs))
    (hend : e.end_ ≤ d.stable) : e ∈ history (ps ++ [q]) := by
  obtain ⟨p, hp, hep⟩ := mem_history.1 he
  by_contra hn
  rw [List.append_cons] at hp hchain
  have hp' : p ∈ qs := (List.mem_append.1 hp).resolve_left fun hp => hn (mem_history.2 ⟨p, hp, hep⟩)
  have hlt := lt_end_of_mem hep (henc p hp')
  have hge : q.end_ ≤ p.id := by
    obtain ⟨xs, ys, rfl⟩ := List.append_of_mem hp'
    rw [← List.append_assoc, List.map_append, List.map_cons] at hchain
    exact (Tape.Chained.lt hchain q.spell (List.mem_map_of_mem (by simp))).1
  have hst : d.stable ≤ q.end_ := by
    rw [Part.end_, hid]
    exact Nat.add_le_add_left (hm.synced_le.trans hbytes.length_le) _
  exact absurd (hend.trans (hst.trans hge)) (Nat.not_le.2 hlt)

omit [Decode A] [Decode C] [WALRecord.LawfulAction A] [LawfulCodec C] hbytes in
theorem FollowsTape.synced_of_stable {e : LogEntry A C}
    (he : e ∈ history (ps.drop d.tape.gone ++ [q])) (hend : e.end_ ≤ d.stable) :
    e.end_ ≤ e.2.1 + (fs.file e.2.1).synced := by
  obtain ⟨p, hp, hep⟩ := mem_history.1 he
  rw [(mem_entries hep).2.1]
  rcases List.mem_append.1 hp with hp | hp
  · exact (mem_entries hep).2.2.2.trans (Nat.add_le_add_left (hm.prev_part hprev hp).2 _)
  · obtain rfl := List.mem_singleton.1 hp
    rw [hid]
    exact hend.trans (Nat.add_le_add_left hm.reached _)

end

/-- **A session is cut off.** -/
theorem KeepsLog.kept {first : Nat} {s : Session A C Cb} {g : View A C}
    (h : KeepsLog may fs log acked first s g) :
    ∃ old ps, LogOnDisk may fs log acked old ps := by
  obtain ⟨b, d, d', hcourse⟩ := h.course
  have hle := (Disk.runs_le hcourse.effects).trans hcourse.le
  have hm := hcourse.followsTape
  obtain ⟨ps, q, qs, hlayout, hprev, hid, hbytes⟩ := h.spelled.split hle
  have hlen : d.tape.gone ≤ ps.length := by
    have := hm.gone
    rwa [← hprev, List.length_map] at this
  have hchain := h.spelled.chained h.chained
  have henc := h.spelled.encodes
  have hfirst := hcourse.first
  have hall : ps.take d.tape.gone ++ (ps.drop d.tape.gone ++ [q]) = ps ++ [q] := by
    rw [← List.append_assoc, List.take_append_drop]
  have hfront : (ps ++ [q]) <+: g.layout := by
    rw [hlayout]
    exact ⟨qs, by simp⟩
  have hasked : ∀ p ∈ ps.take d.tape.gone, may p.id := fun p hp => by
    refine h.asked.earlier hle hm.gone p.spell ?_
    rw [← hprev, ← List.map_take]
    exact List.mem_map_of_mem hp
  have hids : (g.layout.map (·.id)).take d.tape.gone = (ps.take d.tape.gone).map (·.id) := by
    rw [hlayout, ← List.map_take, List.take_append_of_le_length hlen]
  obtain ⟨sure, hsure, hun, hholds⟩ := hm.removed
  have hold : ∀ i ∈ fs.unlinked, i ∈ g.layout.map (·.id) → i ∈ (ps.take d.tape.gone).map (·.id) :=
    fun i hi hg => by
    have hi : i ∈ fs.unlinked.filter fun i => decide (i ∈ g.layout.map (·.id)) :=
      List.mem_filter.2 ⟨hi, decide_eq_true hg⟩
    rw [hun, hids] at hi
    exact List.mem_of_mem_drop hi
  refine ⟨ps.take d.tape.gone, ps.drop d.tape.gone ++ [q],
    hm.image (hlayout ▸ rfl) hprev hid hbytes (hlayout ▸ hchain) (hlayout ▸ henc), hm.nodup,
    ⟨(ps.take d.tape.gone).take sure, (ps.take d.tape.gone).drop sure,
      (List.take_append_drop _ _).symm, ?_, fun p hp => ?_⟩, fun i hi hn => ?_,
        ⟨first, ?_, fun p hp => hasked p ?_⟩, ?_, fun p hp => ?_, hasked,
    fun hold => ?_, fun e he => ?_⟩
  · rw [List.map_drop, ← hids, ← hun, hids]
    refine List.filter_congr fun i hi => decide_eq_decide.2 ⟨fun hm => ?_, hold i hi⟩
    rw [← hids] at hm
    exact List.mem_of_mem_take hm
  · have hp : p ∈ ps.drop sure :=
      List.mem_of_mem_take (i := d.tape.gone - sure) (by rwa [← List.drop_take])
    obtain ⟨h₁, h₂, h₃⟩ :=
      hholds p.spell (by rw [← hprev, ← List.map_drop]; exact List.mem_map_of_mem hp)
    exact ⟨h₁, h₂, h₃⟩
  · obtain ⟨-, hstub, hlt⟩ := hm.stubs i hi fun hg => hn (hold i hi hg)
    exact ⟨hstub, fun p hp => hlt p.id (List.mem_map_of_mem (hfront.subset (hall ▸ hp)))⟩
  · rw [hall, h.logged.2]
    obtain ⟨rest, hrest⟩ := hfront.drop first
    rw [← hrest, history_append]
    exact (List.prefix_append _ _).isInfix
  · rw [hall, List.take_append_of_le_length (hfirst.trans hlen)] at hp
    exact (List.take_prefix_take_left hfirst).subset hp
  · rw [hall]
    exact hchain.prefix (hfront.map _)
  · exact henc p (hlayout ▸ List.mem_append_left _ (List.mem_of_mem_take hp))
  · have hpos : 0 < d.tape.gone := Nat.pos_of_ne_zero fun h0 => hold (by rw [h0, List.take_zero])
    refine hm.stands_front hprev hid hbytes
      (henc q (hlayout ▸ List.mem_append_right _ List.mem_cons_self)) (fun p hp => ?_) hpos
    have hch := hchain
    rw [hlayout, List.map_append, List.map_cons] at hch
    exact hch.nonempty p.spell (List.mem_map_of_mem hp)
  · obtain ⟨hmem, hend⟩ := hcourse.acked e he
    refine ⟨?_, fun hkept => hm.synced_of_stable hprev hid hkept hend⟩
    rw [hall]
    rw [hlayout] at hmem hchain henc
    exact hm.begun_of_stable hid hbytes hchain
      (fun p hp => henc p (List.mem_append_right _ (List.mem_cons_of_mem _ hp))) hmem hend

end

/-! ## Openings -/

section
variable {A C Cb : Type} [Crc32fast] [Encode A] [Encode C]

/-- Where the plan of a session begins: `old` are the chunks that are removed, `ps` the closed ones,
and `p` is the open one. -/
def View.begins (old ps : List (Part A C)) (p : Part A C) : View A C where
  plan := {
    tape := {
      prev := (old ++ ps).map Part.spell, gone := old.length, id := p.id
      bytes := encAll p.records }
    clean := false }
  parts := old ++ ps
  records := p.records
  extras := []
  synced := false
  dead := false
  joined := false
  settled := false

/-- **What an opening leaves**: `ps` are the chunks in the table, and `p` is the open one. -/
structure LeftByOpening {sm : StateMachine A C} (fs : Fs) (log : List (LogEntry A C))
    (o : Opened sm) (ps : List (Part A C)) (p : Part A C) : Prop where
  aliases : fs.aliases = []
  dir : fs.dir.Perm ((ps ++ [p]).map (·.id))
  committed : ∀ i ∈ fs.dir, fs.committed i = true
  closed : ∀ q ∈ ps, (fs.file q.id).data = encAll q.records ∧
    (encAll q.records).length ≤ (fs.file q.id).synced
  newest : (fs.file p.id).data = encAll p.records
  begun : p.records ≠ []
  chained : Tape.Chained ((ps ++ [p]).map Part.spell)
  encodes : ∀ q ∈ ps ++ [p], ∀ r ∈ q.records, Encodes r
  logged : log = history (ps ++ [p])
  file : o.wal.open.chunk.f = p.id
  table : o.wal.open.chunk.globalOffsets = p.offsets
  pending : o.wal.open.pendingData = []
  index : o.wal.closed.map (·.1) = ps.map (·.id)
  limits : 0 < o.wal.config.chunkMaxRecords ∧ 0 < o.wal.config.chunkMaxSize
  entry : o.entry.startingOffset = p.id ∧ o.entry.f = p.id

variable [Decode A] [Decode C] [WALRecord.LawfulAction A] [LawfulCodec C] {sm : StateMachine A C}
    {may : Nat → Prop}
  {fs : Fs} {log acked : List (LogEntry A C)} {old ps : List (Part A C)} {p : Part A C}
    {o : Opened sm}

omit [Decode A] [Decode C] [WALRecord.LawfulAction A] [LawfulCodec C] in
theorem LeftByOpening.whole (h : LeftByOpening fs log o ps p) :
    ((Mode.careful may).rules A C).Whole (encAll p.records) := by
  obtain ⟨r, rs, hrs⟩ := List.exists_cons_of_ne_nil h.begun
  refine .inr fun _ => ⟨r, h.encodes p (by simp) r (hrs ▸ List.mem_cons_self), ?_⟩
  rw [hrs, encAll_cons]
  exact List.prefix_append _ _

omit [Decode A] [Decode C] [WALRecord.LawfulAction A] [LawfulCodec C] in
theorem LeftByOpening.below (h : LeftByOpening fs log o ps p) : ∀ q ∈ ps, q.id < p.id :=
  fun q hq => by
  have hch := h.chained
  rw [List.map_append] at hch
  exact (Tape.Chained.lt hch q.spell (List.mem_map_of_mem hq)).2

omit [Decode A] [Decode C] [WALRecord.LawfulAction A] [LawfulCodec C] in
theorem View.begins_layout : (View.begins old ps p).layout = old ++ (ps ++ [p]) :=
  List.append_assoc ..

theorem LeftByOpening.walKept (h : LeftByOpening fs log o ps p) :
    WalKept may o.wal (View.begins old ps p) [] := by
  have hbytes : encAll p.records ≠ [] := encAll_ne_nil (h.encodes p (by simp)) h.begun
  have hlaid : Laid o.wal (View.begins old ps p) := ⟨h.table, fun _ => by
    rw [h.pending]
    exact List.append_nil _, h.encodes p (by simp)⟩
  refine ⟨⟨h.file, Chunk.globalStart_of h.table, ?_, fun _ => ?_, fun _ _ => rfl, h.limits,
    fun _ => hlaid⟩, fun _ => ⟨hbytes, ?_, fun c hc => ?_, old, [], ps, ?_, rfl, rfl, h.index⟩⟩
  · rw [h.table]
    exact offsetsFrom_increasing _ fun r hr =>
      LawfulRecord.enc_ne_nil (h.encodes p (by simp) r hr)
  · rw [Chunk.globalEnd_of h.table, h.pending]
    rfl
  · show ((old ++ ps).map Part.spell).map (·.1) = _
    rw [List.map_map]
    rfl
  · obtain ⟨q, hq, hid⟩ := List.mem_map.1 (h.index ▸ List.mem_map_of_mem hc : c.1 ∈ ps.map (·.id))
    exact hid ▸ h.below q hq
  · exact (List.append_nil old).symm ▸ rfl

omit [Decode A] [Decode C] [WALRecord.LawfulAction A] [LawfulCodec C] in
theorem LeftByOpening.spelled (h : LeftByOpening fs log o ps p)
    (henc : ∀ q ∈ old, ∀ r ∈ q.records, Encodes r) : (View.begins old ps p).Spelled := by
  refine ⟨rfl, List.prefix_refl _, fun q hq => ?_⟩
  rw [View.begins_layout] at hq
  rcases List.mem_append.1 hq with hq | hq
  · exact henc q hq
  · exact h.encodes q hq

omit [Decode A] [Decode C] [WALRecord.LawfulAction A] [LawfulCodec C] in
/-- The files follow the tape of a session that begins. -/
theorem LeftByOpening.followsTape (h : LeftByOpening fs log o ps p)
    (hchain : Tape.Chained ((old ++ (ps ++ [p])).map Part.spell))
    (henc : ∀ q ∈ old, ∀ r ∈ q.records, Encodes r)
    (hnodup : (fs.dir ++ fs.unlinked).Nodup) (hpend : fs.Pending old)
    (hstubs : ∀ i ∈ fs.unlinked, i ∉ old.map (·.id) → Stub A C (fs.file i).data ∧
      ∀ q ∈ old ++ (ps ++ [p]), q.id < i)
    (hstands : old ≠ [] → ps = [] →
      ∃ r ∈ p.records.head?, (enc r).length ≤ (fs.file p.id).synced) :
    FollowsTape A C fs
      { tape := (View.begins old ps p).plan.tape, synced := (fs.file p.id).synced }
      ((View.begins old ps p).layout.map (·.id)) [] false := by
  have hlayout : (View.begins old ps p).layout = old ++ (ps ++ [p]) := View.begins_layout
  have hspelled : (View.begins old ps p).Spelled := h.spelled henc
  obtain ⟨sure, pend, hold, hun, hholds⟩ := hpend
  have hids : ((View.begins old ps p).layout.map (·.id)) = old.map (·.id) ++
    (ps ++ [p]).map (·.id) := by
    rw [hlayout, List.map_append]
  refine ⟨h.aliases, ?_, hnodup, ?_, ?_, ?_, ⟨sure.length, ?_, ?_, fun c hc => ?_⟩,
    fun i hi hn => ?_, h.newest, Nat.le_refl _, fun i hi hlt => ?_, fun i hi _ =>
      h.committed i hi, fun hpos hall => ?_⟩
  · show fs.dir.Perm (((View.begins old ps p).layout.map (·.id)).drop old.length ++ [])
    rw [List.append_nil, hlayout, List.map_append, List.drop_left' (List.length_map _)]
    exact h.dir
  · rw [List.append_nil, hlayout, ← ids_spell]
    exact hchain.increasing
  · rw [hspelled.ids]
  · show old.length ≤ ((old ++ ps).map Part.spell).length
    rw [List.length_map, List.length_append]
    exact Nat.le_add_right _ _
  · show sure.length ≤ old.length
    rw [hold, List.length_append]
    exact Nat.le_add_right _ _
  · -- what may come back of the chunks is older than the files
    have hin : ∀ i ∈ fs.unlinked, i ∈ (View.begins old ps p).layout.map (·.id) →
      i ∈ old.map (·.id) := by
      intro i hi hm
      by_contra hn
      rw [hlayout] at hm
      obtain ⟨q, hq, rfl⟩ := List.mem_map.1 hm
      exact absurd ((hstubs q.id hi hn).2 q hq) (Nat.lt_irrefl _)
    have hlast : (((View.begins old ps p).layout.map (·.id)).take old.length).drop sure.length =
        pend.map (·.id) := by
      rw [hids, List.take_left' (List.length_map _), hold, List.map_append,
        List.drop_left' (List.length_map _)]
    refine Eq.trans (List.filter_congr fun i hi => ?_) (hun.trans hlast.symm)
    exact decide_eq_decide.2 ⟨hin i hi, fun hm => hids ▸ List.mem_append_left _ hm⟩
  · have hc : c ∈ ((old ++ ps).map Part.spell).drop sure.length := hc
    rw [hold, List.append_assoc, List.map_append, List.drop_left' (List.length_map _)] at hc
    obtain ⟨q, hq, rfl⟩ := List.mem_map.1 hc
    rcases List.mem_append.1 hq with hq | hq
    · exact ⟨(hholds q hq).data, (hholds q hq).synced, (hholds q hq).committed⟩
    · refine ⟨(h.closed q hq).1, (h.closed q hq).2, h.committed q.id (h.dir.mem_iff.2 ?_)⟩
      exact List.mem_map_of_mem (List.mem_append_left _ hq)
  · have hn' : i ∉ old.map (·.id) := fun hm => hn (hids ▸ List.mem_append_left _ hm)
    obtain ⟨hs, hlt⟩ := hstubs i hi hn'
    refine ⟨rfl, hs, fun j hj => ?_⟩
    rw [hlayout] at hj
    obtain ⟨q, hq, rfl⟩ := List.mem_map.1 hj
    exact hlt q hq
  · rw [h.dir.mem_iff, List.map_append, List.mem_append] at hi
    rcases hi with hi | hi
    · obtain ⟨q, hq, rfl⟩ := List.mem_map.1 hi
      exact absurd hlt (Nat.lt_asymm (h.below q hq))
    · obtain rfl := List.mem_singleton.1 hi
      exact absurd hlt (Nat.lt_irrefl _)
  · have hall : old.length = ((old ++ ps).map Part.spell).length := hall
    rw [List.length_map, List.length_append] at hall
    obtain ⟨r, hr, hle⟩ :=
      hstands (List.ne_nil_of_length_pos hpos) (List.eq_nil_of_length_eq_zero (by omega))
    obtain ⟨rs, hrs⟩ := List.head?_eq_some_iff.1 hr
    refine ⟨r, h.encodes p (by simp) r (List.mem_of_head? hr), ?_, hle⟩
    show enc r <+: encAll p.records
    rw [hrs, encAll_cons]
    exact List.prefix_append _ _

/-- **A session begins.** -/
theorem LeftByOpening.keepsLog (h : LeftByOpening fs log o ps p) (config : Config)
    (hchain : Tape.Chained ((old ++ (ps ++ [p])).map Part.spell))
    (henc : ∀ q ∈ old, ∀ r ∈ q.records, Encodes r) (hasked : ∀ q ∈ old, may q.id)
    (hnodup : (fs.dir ++ fs.unlinked).Nodup) (hpend : fs.Pending old)
    (hstubs : ∀ i ∈ fs.unlinked, i ∉ old.map (·.id) → Stub A C (fs.file i).data ∧
      ∀ q ∈ old ++ (ps ++ [p]), q.id < i)
    (hstands : old ≠ [] → ps = [] → ∃ r ∈ p.records.head?, (enc r).length ≤ (fs.file p.id).synced)
    (hacked : ∀ e ∈ acked, e ∈ history (old ++ ps) ∨ e ∈ p.entries ∧
      e.end_ ≤ p.id + (fs.file p.id).synced) :
    KeepsLog may fs log acked old.length (System.startSession config o : Session A C Cb)
      (View.begins old ps p) := by
  have hlayout : (View.begins old ps p).layout = old ++ (ps ++ [p]) := View.begins_layout
  have hplan : Tape.Chained (View.begins old ps p).plan.tape.chunks := by
    rw [← List.append_assoc, List.map_append] at hchain
    exact hchain
  have hfollows := h.followsTape hchain henc hnodup hpend hstubs hstands
  refine ⟨⟨.new 0, _, _,
    ⟨fun _ hb => (by cases hb), hfollows, rfl, .refl _, Nat.le_refl _, fun e he => ?_, fun _ =>
    ⟨⟨fun e he => ?_, ?_⟩, (View.begins old ps p).plan,
      ⟨rfl, fun hc => Bool.noConfusion hc, h.whole⟩, rfl⟩⟩⟩,
    fun w hw => ?_, fun op q hq => ?_, fun hd => Bool.noConfusion hd, hplan, h.spelled henc,
    ⟨?_, ?_⟩, ⟨?_, fun c hc => ?_⟩, fun r hr => ?_, rfl⟩
  · rw [hlayout, ← List.append_assoc, history_append, history_cons, history_nil, List.append_nil]
    rcases hacked e he with he | ⟨he, hle⟩
    · refine ⟨List.mem_append_left _ he, ?_⟩
      obtain ⟨q, hq, he⟩ := mem_history.1 he
      rw [← List.append_assoc, List.map_append] at hchain
      exact (mem_entries he).2.2.2.trans
        ((Tape.Chained.lt hchain q.spell (List.mem_map_of_mem hq)).1.trans (Nat.le_add_right _ _))
    · exact ⟨List.mem_append_right _ he, hle⟩
  · obtain rfl := List.mem_singleton.1 he
    exact ⟨h.entry.1.trans h.entry.2.symm, .inl h.entry.2⟩
  · exact congrArg some h.entry.2
  · cases hw
    exact h.walKept
  · cases hq
  · exact (List.length_append ▸ Nat.le_add_right _ _ : old.length ≤ (old ++ ps).length)
  · rw [hlayout, List.drop_left]
    exact h.logged
  · exact hfollows.gone
  · have hc : c ∈ ((old ++ ps).map Part.spell).take old.length := hc
    rw [List.map_append, List.take_left' (List.length_map _)] at hc
    obtain ⟨q, hq, rfl⟩ := List.mem_map.1 hc
    exact hasked q hq
  · cases hr

end

section
variable {A C : Type} [Crc32fast] [Encode A] [Decode A] [Encode C] [Decode C]
    {sm : StateMachine A C} {config : Config}
  {st : sm.State} {fs : Fs}

omit [Encode C] in
theorem Tidied.committed {ids : List Nat} {s s' : OpenState A C} {r : Except IoError (List Nat)}
    (h : Tidied ids s r s') :
    ∀ i ∈ s'.fs.dir, s.fs.committed i = true → s'.fs.committed i = true := by
  induction h with
  | empty | complete | stopped => exact fun _ _ hc => hc
  | @removed id older s r s' hm hb h ih =>
    exact fun i hi _ => ih i hi (decide_eq_true (h.dir_subset hi))

omit [Encode C] in
theorem Tidied.settled {ids : List Nat} {s s' : OpenState A C} {r : Except IoError (List Nat)}
    (h : Tidied ids s r s') : s' = s ∨ s'.fs.unlinked = [] := by
  induction h with
  | empty | complete | stopped => exact .inl rfl
  | removed hm hb h ih =>
    rcases ih with rfl | hn
    · exact .inr rfl
    · exact .inr hn

omit [Encode C] in
/-- **The directory behind a replay.** -/
theorem Sound.settles {kept removed : List Nat} {acc acc' : Replay sm} {c : Option Nat}
    (h : Sound config st fs kept removed acc c) {k : List Nat} {s₁ s₂ : OpenState A C}
    (ht : Tidied (loadChunkIds fs).reverse (OpenState.init fs) (.ok k) s₁)
    (hr : Replayed config k.reverse.getLast? k.reverse (Replay.start sm st) s₁ (.ok acc') s₂) :
    acc' = acc ∧ s₂.fs.aliases = [] ∧ s₂.fs.dir = fs.dir.filter (· ∉ removed) ∧
      (∀ i ∈ s₂.fs.dir, fs.committed i = true → s₂.fs.committed i = true) ∧
      (c = none → s₂.fs = fs ∨ s₂.fs.unlinked = []) ∧ (∀ i, c ≠ some i → s₂.fs.file i = fs.file i) ∧
      (∀ i, c = some i →
        (s₂.fs.file i).data = (fs.file i).data.take (recordsEnd A C (fs.file i).data i) ∧
        (s₂.fs.file i).synced = (s₂.fs.file i).data.length) ∧
      s₂.applied = kept.flatMap (fun i => entriesIn A C (fs.file i).data i) ∧ s₂.created = [] := by
  have htidy := h.tidy
  obtain ⟨hk, hdir, hfile, hal⟩ :=
    Tidy.tidied (show Tidy A C (OpenState.init fs : OpenState A C).fs kept removed from htidy) ht
  cases hk
  rw [List.reverse_reverse] at hr
  have hmem : ∀ i ∈ kept, i ∈ s₁.fs.dir := fun i hi => by
    rw [hdir, List.mem_filter]
    exact ⟨(h.mem i).2 (.inl hi), decide_eq_true (htidy.disjoint hi)⟩
  obtain ⟨hacc, hfs, happ⟩ := h.reads.replayed hr (fun i hi => h.reads.cut_mem hi) hmem fun i _ =>
    by rw [hfile]; rfl
  have hcom := ht.committed
  refine ⟨Except.ok.inj hacc, ?_, ?_, ?_, fun hc => ?_, fun i hi => ?_, fun i hi => ?_,
    happ.trans (by rw [ht.applied_eq]; rfl), hr.created_eq.trans ht.created_eq⟩
  · rw [hfs]
    cases c <;> exact hal.trans h.aliases
  · rw [hfs, Fs.healed_dir, hdir]
    rfl
  · rw [hfs]
    cases c <;> exact hcom
  · subst hc
    have hfs : s₂.fs = s₁.fs := hfs
    rw [hfs]
    exact ht.settled.imp_left fun h => by rw [h]; rfl
  · rw [hfs, Fs.healed_ne fun hm => hi hm, hfile]
    rfl
  · subst hi
    have hdata : ((s₁.fs.healed A C (some i)).file i).data =
        (fs.file i).data.take (recordsEnd A C (fs.file i).data i) := by
      rw [Fs.healed_self, hfile]
      rfl
    rw [hfs]
    refine ⟨hdata, ?_⟩
    show (((s₁.fs.setLen i _).syncData i).file i).synced =
      (((s₁.fs.setLen i _).syncData i).file i).data.length
    rw [Fs.syncData_file_self, FileData.sync_synced, FileData.sync_data]

end

section
variable {A C : Type} [Crc32fast] [Encode A] [Decode A] [Encode C] [Decode C]
    {sm : StateMachine A C} {config : Config}
  {st : sm.State} {fs : Fs} {ps ks : List (Part A C)} {removed : List Nat} {acc acc' : Replay sm}
    {c : Option Nat}

variable [WALRecord.LawfulAction A] [LawfulCodec C]

omit [WALRecord.LawfulAction A] [LawfulCodec C] in
theorem Recovery.data_ne (h : Recovery fs ps ks c) {k : Part A C} (hk : k ∈ ks) :
    (fs.file k.id).data ≠ [] := by
  intro hnil
  obtain ⟨hne, hfound, -⟩ := h.found k hk
  rw [hnil, (blank_nil k.id).1] at hfound
  exact hne (spelled_eq_nil.1 hfound.symm)

omit [WALRecord.LawfulAction A] [LawfulCodec C] in
theorem Recovery.end_ (h : Recovery fs ps ks c) {k : Part A C} (hk : k ∈ ks) :
    k.id + recordsEnd A C (fs.file k.id).data k.id = k.end_ := by
  have := congrArg List.length (h.found k hk).2.2.1
  rw [List.length_take, Nat.min_eq_left recordsEnd_le] at this
  rw [this]
  rfl

omit [Encode C] [WALRecord.LawfulAction A] [LawfulCodec C] in
theorem Sound.listed {kept : List Nat} (h : Sound config st fs kept removed acc c) :
    (fs.dir.filter fun i => decide (i ∉ removed)).Perm kept := by
  have hinc := (List.pairwise_append.1 h.increasing).1
  refine (List.perm_ext_iff_of_nodup (h.nodup.filter _) (hinc.imp Nat.ne_of_lt)).2 fun i => ?_
  rw [List.mem_filter, decide_eq_true_iff, h.mem]
  exact ⟨fun hi => hi.1.resolve_right hi.2, fun hi => ⟨.inl hi, h.tidy.disjoint hi⟩⟩

omit [WALRecord.LawfulAction A] [LawfulCodec C] in
theorem Recovery.mem (hrec : Recovery fs ps ks c) {k : Part A C} (hk : k ∈ ks) :
    ∃ p ∈ ps, p.id = k.id :=
  List.mem_map.1 (hrec.ids.subset (List.mem_map_of_mem hk))

omit [WALRecord.LawfulAction A] [LawfulCodec C] in
/-- **The chunks that come back**, behind the replay. -/
theorem Image.settled (himg : Image fs ps) (hrec : Recovery fs ps ks c)
    (hs : Sound config st fs (ks.map (·.id)) removed acc c) {k : List Nat} {s₁ s₂ : OpenState A C}
    (ht : Tidied (loadChunkIds fs).reverse (OpenState.init fs) (.ok k) s₁)
    (hr : Replayed config k.reverse.getLast? k.reverse (Replay.start sm st) s₁ (.ok acc') s₂) :
    acc' = acc ∧ s₂.fs.aliases = [] ∧ s₂.fs.dir.Perm (ks.map (·.id)) ∧
      (∀ i ∈ s₂.fs.dir, s₂.fs.committed i = true) ∧
      (∀ q ∈ ks, (s₂.fs.file q.id).data = encAll q.records) ∧
      (∀ q ∈ ks, q ∈ ks.dropLast ∨ c = some q.id →
        (encAll q.records).length ≤ (s₂.fs.file q.id).synced) ∧
      (c = none → s₂.fs = fs ∨ s₂.fs.unlinked = []) ∧ (∀ i, c ≠ some i → s₂.fs.file i = fs.file i) ∧
      s₂.applied = history ks ∧ s₂.created = [] := by
  obtain ⟨hacc, hal, hdir, hcom, hfs, hsame, hcut, happ, hcre⟩ := hs.settles ht hr
  have hperm : s₂.fs.dir.Perm (ks.map (·.id)) := hdir ▸ hs.listed
  have hdata : ∀ q ∈ ks, (s₂.fs.file q.id).data = encAll q.records := fun q hq => by
    by_cases hc : c = some q.id
    · rw [(hcut q.id hc).1]
      exact (hrec.found q hq).2.2.1
    · rw [hsame q.id hc]
      exact (hrec.found q hq).2.2.2 hc
  refine ⟨hacc, hal, hperm, fun i hi => hcom i hi ?_, hdata, fun q hq hor => ?_, hfs, hsame,
    happ.trans hrec.entries, hcre⟩
  · obtain ⟨q, hq, rfl⟩ := List.mem_map.1 (hperm.mem_iff.1 hi)
    obtain ⟨p, hp, hid⟩ := hrec.mem hq
    exact hid ▸ (himg.listed p hp).2
  · by_cases hc : c = some q.id
    · rw [(hcut q.id hc).2, hdata q hq]
    · rw [hsame q.id hc, ← (hrec.found q hq).2.2.2 hc]
      exact hrec.synced q (hor.resolve_right hc)

omit [WALRecord.LawfulAction A] [LawfulCodec C] in
theorem Recovery.table (h : Recovery fs ps ks c) {k : Part A C} (hk : k ∈ ks) (t : Option Nat) :
    (chunkIn A C (fs.file k.id).data k.id t).globalOffsets = k.offsets := by
  have hsegs : (recordsIn A C (fs.file k.id).data k.id).map (·.1) = segments 0 k.records := by
    rw [(h.found k hk).2.1]
    exact List.map_fst_zip (by rw [segments_length])
  show tableOf k.id _ = _
  rw [hsegs, tableOf_segments]
  rfl

omit [WALRecord.LawfulAction A] [LawfulCodec C] in
theorem Recovery.index (hs : Sound config st fs (ks.map (·.id)) removed acc c)
    (hrec : Recovery fs ps ks c) :
    acc.closed.map (·.1) = ks.map (·.id) ∧ ∀ x ∈ acc.closed, ∃ k ∈ ks, x.1 = k.id ∧
      x.2.chunk.f = k.id ∧
      x.2.chunk.globalOffsets = k.offsets := by
  obtain ⟨-, cs, hcs, hkeys, -⟩ := hs.reads.closed (Replay.start_ordered st)
  obtain ⟨cs', hcs', hall⟩ := hs.reads.chunks (Replay.start_ordered st)
  rw [show (Replay.start sm st).closed = [] from rfl, List.nil_append] at hcs hcs'
  refine ⟨hcs ▸ hkeys, fun x hx => ?_⟩
  obtain ⟨hmem, -, t, ht⟩ := hall x (hcs' ▸ hx)
  obtain ⟨k, hk, hid⟩ := List.mem_map.1 hmem
  refine ⟨k, hk, hid.symm, by rw [ht]; exact hid.symm, ?_⟩
  rw [ht, ← hid]
  exact hrec.table hk t

omit [Decode A] [Decode C] [WALRecord.LawfulAction A] [LawfulCodec C] in
theorem chained_concat (h : Tape.Chained (ks.map Part.spell)) {p : Part A C}
    (hl : ∀ k ∈ ks.getLast?, p.id = k.end_ ∧ encAll k.records ≠ []) :
    Tape.Chained ((ks ++ [p]).map Part.spell) := by
  rw [List.map_append]
  refine List.isChain_append.2 ⟨h, List.isChain_singleton _, fun a ha b hb => ?_⟩
  cases hb
  rw [List.getLast?_map, Option.mem_def, Option.map_eq_some_iff] at ha
  obtain ⟨k, hk, rfl⟩ := ha
  exact hl k hk

variable {o : Opened sm} {x : OpenState A C}

/-- **The next session** goes on in the last chunk that comes back, or behind it. -/
theorem OpenRun.leftByOpening (himg : Image fs ps) (hrec : Recovery fs ps ks c)
    (hs : Sound config st fs (ks.map (·.id)) removed acc c)
    (h : OpenRun config st (OpenState.init fs) (.ok o) x) : x.applied = history ks ∧
      ∃ qs p, LeftByOpening x.fs (x.applied ++ x.created) o qs p ∧
        (ks = qs ++ [p] ∧ x.fs.file p.id = fs.file p.id ∧ (x.fs = fs ∨ x.fs.unlinked = []) ∨
          ks = qs ∧ x.fs.unlinked = []) := by
  obtain ⟨hf, hoff, hstart, hpending, hmax, hsize, hconfig, -⟩ := h.stored
  have hlimits : 0 < o.wal.config.chunkMaxRecords ∧ 0 < o.wal.config.chunkMaxSize := by
    rw [hconfig]
    exact ⟨hmax, hsize⟩
  have hnodup : (ks.map (·.id)).Nodup := (ids_spell ks ▸ hrec.chained.increasing).imp Nat.ne_of_lt
  cases h with
  | @reopened k s₁ acc' _ oc closed hv ht hr hl =>
    obtain ⟨rfl, hal, hperm, hcom, hdata, hsync, hfs, hsame, happ, hcre⟩ :=
      himg.settled hrec hs ht hr
    have hne : ¬ (ks.map (·.id) = [] ∨ c.isSome = true) := fun hor => by
      rw [hs.reads.reopens.2 hor] at hl
      cases hl
    obtain rfl : c = none := Option.not_isSome_iff_eq_none.1 fun h => hne (.inr h)
    obtain ⟨qs, p, rfl⟩ : ∃ qs p, ks = qs ++ [p] := by
      rcases List.eq_nil_or_concat ks with rfl | ⟨qs, p, rfl⟩
      · exact absurd (.inl rfl) hne
      · exact ⟨qs, p, List.concat_eq_append⟩
    obtain ⟨hkeys, hall⟩ := hrec.index hs
    have hmem : p ∈ qs ++ [p] := List.mem_append_right _ List.mem_cons_self
    unfold reopenLastClosed at hl
    split at hl
    · cases hl
    rename_i id last hlast
    split at hl
    · cases hl
    cases hl
    obtain ⟨closed, hclosed⟩ := List.getLast?_eq_some_iff.1 hlast
    rw [hclosed, List.map_append, List.map_append] at hkeys
    obtain ⟨hkeys', hid⟩ := List.append_inj' hkeys rfl
    obtain rfl : id = p.id := by simpa using hid
    obtain ⟨k', hk', hid', hfile, htable⟩ :=
      hall (p.id, last) (hclosed ▸ List.mem_append_right _ List.mem_cons_self)
    obtain rfl : p = k' := List.inj_on_of_nodup_map hnodup hmem hk' hid'
    refine ⟨happ, qs, p,
      ⟨hal, hperm, hcom, fun q hq => ?_, hdata p hmem, (hrec.found p hmem).1, hrec.chained,
        hrec.encodes, ?_, hfile, htable, hpending, ?_, hlimits, hoff.trans (hf.symm.trans hfile),
        hf.symm.trans hfile⟩,
      .inl ⟨rfl, hsame p.id (by simp), hfs rfl⟩⟩
    · have hq' : q ∈ qs ++ [p] := List.mem_append_left _ hq
      exact ⟨hdata q hq', hsync q hq' (.inl (by rwa [List.dropLast_concat]))⟩
    · rw [happ, hcre, List.append_nil]
    · show acc'.closed.dropLast.map (·.1) = _
      rw [hclosed, List.dropLast_concat]
      exact hkeys'
  | @created k s₁ acc' s₂ n hv ht hr hl hm he =>
    obtain ⟨rfl, hal, hperm, hcom, hdata, hsync, hfs, hsame, happ, hcre⟩ :=
      himg.settled hrec hs ht hr
    have hn : n = (enc acc'.head).length := SizedCodec.size_eq he
    have hfree : ∀ q ∈ ks, q.id ≠ acc'.end_ := fun q hq heq =>
      hm (heq ▸ hperm.mem_iff.2 (List.mem_map_of_mem hq))
    have hlast : ∀ q ∈ ks, q ∈ ks.dropLast ∨ c = some q.id := by
      intro q hq
      obtain ⟨qs, l, rfl⟩ := List.eq_nil_or_concat ks |>.resolve_left (List.ne_nil_of_mem hq)
      rw [List.concat_eq_append] at hq hs ⊢
      rcases List.mem_append.1 hq with hq | hq
      · exact .inl (by rwa [List.dropLast_concat])
      · obtain rfl := List.mem_singleton.1 hq
        obtain ⟨i, rfl⟩ :=
          Option.isSome_iff_exists.1 ((hs.reads.reopens.1 hl).resolve_left (by simp))
        have hi := hs.reads.cut_mem rfl
        rw [List.map_append, List.map_singleton, List.getLast?_concat] at hi
        exact .inr hi.symm
    have hfile : ∀ q ∈ ks, (s₂.createdWith acc'.end_ acc'.head (enc acc'.head) n).fs.file q.id =
      s₂.fs.file q.id :=
      fun q hq => by
        show ((((s₂.fs.createNew acc'.end_).syncDir).append acc'.end_ (enc acc'.head)).file q.id) =
          _
        rw [Fs.append_file_ne _ (hfree q hq), Fs.syncDir_file, Fs.createNew_file_ne (hfree q hq)]
    refine ⟨happ, ks, { id := acc'.end_, records := [acc'.head] },
      ⟨hal, ?_, fun i hi => decide_eq_true hi, fun q hq => ?_, ?_, List.cons_ne_nil _ _,
        chained_concat hrec.chained fun k hk => ?_, fun q hq => ?_, ?_, rfl,
      ?_, rfl, ?_, hlimits, rfl, rfl⟩, .inr ⟨rfl, rfl⟩⟩
    · rw [List.map_append]
      exact hperm.append_right _
    · rw [hfile q hq]
      exact ⟨hdata q hq, hsync q hq (hlast q hq)⟩
    · show (((((s₂.fs.createNew acc'.end_).syncDir).append acc'.end_ (enc acc'.head)).file
        acc'.end_)).data = _
      rw [Fs.append_file_self, Fs.syncDir_file, Fs.createNew_file_self]
      exact (List.append_nil _).symm
    · refine ⟨?_,
        encAll_ne_nil (hrec.encodes k (List.mem_of_getLast? hk))
        (hrec.found k (List.mem_of_getLast? hk)).1⟩
      have hend : acc'.prevEndOffset = some (k.id + recordsEnd A C (fs.file k.id).data k.id) :=
        hs.reads.end_ (by rw [List.getLast?_map, hk]; rfl)
      show acc'.prevEndOffset.getD 0 = _
      rw [hend, ← hrec.end_ (List.mem_of_getLast? hk)]
      rfl
    · rcases List.mem_append.1 hq with hq | hq
      · exact hrec.encodes q hq
      · obtain rfl := List.mem_singleton.1 hq
        exact fun r hr => List.mem_singleton.1 hr ▸ ⟨n, he⟩
    · rw [history_append, ← happ, hn]
      rfl
    · show [acc'.end_] ++ [acc'.end_ + n] = _
      rw [hn]
      rfl
    · exact (hrec.index hs).1

variable {may : Nat → Prop} {log acked : List (LogEntry A C)} {old : List (Part A C)}

omit [Decode A] [Decode C] [WALRecord.LawfulAction A] [LawfulCodec C] in
theorem head?_history {p : Part A C} {e : LogEntry A C} (hp : p ∈ ps.head?)
    (he : e ∈ p.entries.head?) :
    e ∈ (history ps).head? := by
  cases ps with
  | nil => cases hp
  | cons q ps =>
    cases hp
    exact List.mem_head?_append_of_mem_head? he

/-- **What comes back** of a directory between two sessions. -/
structure Returns (config : Config) (st : sm.State) (fs : Fs) (acked : List (LogEntry A C))
    (old ps ks : List (Part A C)) (acc : Replay sm) (c : Option Nat) : Prop where
  sound : Sound config st fs (ks.map (·.id)) (discarded fs ps ks) acc c
  recovery : Recovery fs ps ks c
  chained : Tape.Chained ((old ++ ks).map Part.spell)
  holds : ∀ e ∈ acked, e ∈ history (old ++ ks)
  stands : old ≠ [] → ∃ k ∈ ks.head?, ∃ e ∈ k.entries.head?, e.end_ ≤ k.id + (fs.file k.id).synced
  synced : ∀ e ∈ acked, e ∈ history ks → e.end_ ≤ e.2.1 + (fs.file e.2.1).synced

theorem LogOnDisk.recovers (h : LogOnDisk may fs log acked old ps) (hacc : sm.Accepts)
    (hcfg : config.truncateIncompleteRecord = true) (st : sm.State) :
    ∃ ks acc c, Returns config st fs acked old ps ks acc c := by
  obtain ⟨ks, acc, c, hs, hrec⟩ := h.image.sound hacc hcfg st
  have hkept : ∀ e ∈ history ps, e.end_ ≤ e.2.1 + (fs.file e.2.1).synced → e ∈ history ks :=
    fun e he hle =>
    hrec.kept e he (hle.trans (Nat.add_le_add_left (fs.file e.2.1).synced_le _))
  have hbefore : history ks <+: history ps := by
    have := hrec.before 0
    rwa [List.drop_zero, List.drop_zero] at this
  have hstands : old ≠ [] → ∃ k ∈ ks.head?, ∃ e ∈ k.entries.head?,
    e.end_ ≤ k.id + (fs.file k.id).synced := by
    intro hold
    obtain ⟨p, hp, e, he, hle⟩ := h.stands hold
    have hid : e.2.1 = p.id := (mem_entries (List.mem_of_head? he)).2.1
    have hks := hkept e (mem_history.2 ⟨p, List.mem_of_head? hp, List.mem_of_head? he⟩) (hid ▸ hle)
    obtain ⟨k, hk⟩ : ∃ k, ks.head? = some k := by
      cases ks with
      | nil => cases hks
      | cons k ks => exact ⟨k, rfl⟩
    obtain ⟨p', hp', hid'⟩ := hrec.head hk
    obtain rfl := Option.some.inj (Option.mem_def.1 hp ▸ Option.mem_def.1 hp')
    obtain ⟨r, rs, hrs⟩ := List.exists_cons_of_ne_nil (hrec.found k (List.mem_of_head? hk)).1
    obtain ⟨e', he'⟩ : ∃ e', k.entries.head? = some e' := by
      rw [Part.entries, hrs]
      exact ⟨_, rfl⟩
    obtain ⟨rest, hrest⟩ := hbefore
    have hsame : e' ∈ (history ps).head? :=
      hrest ▸ List.mem_head?_append_of_mem_head? (head?_history hk he')
    obtain rfl := Option.some.inj (Option.mem_def.1 (head?_history hp he) ▸ Option.mem_def.1 hsame)
    exact ⟨k, hk, _, he', hid' ▸ hle⟩
  refine ⟨ks, acc, c, hs, hrec, ?_, fun e he => ?_, hstands, fun e he hm => ?_⟩
  · rcases hold : old with _ | ⟨o, os⟩
    · exact hrec.chained
    · obtain ⟨k, hk, -⟩ := hstands (hold ▸ List.cons_ne_nil _ _)
      obtain ⟨p, hp, hid⟩ := hrec.head hk
      have hjoined := h.chained
      rw [← hold]
      rw [List.map_append] at hjoined ⊢
      obtain ⟨h₁, -, h₃⟩ := List.isChain_append.1 hjoined
      refine List.isChain_append.2 ⟨h₁, hrec.chained, fun a ha b hb => ?_⟩
      rw [List.head?_map, hk] at hb
      cases hb
      have := h₃ a ha p.spell (by rw [List.head?_map, Option.mem_def.1 hp]; rfl)
      exact ⟨hid.symm.trans this.1, this.2⟩
  · obtain ⟨hmem, hle⟩ := h.acked e he
    rw [history_append, List.mem_append] at hmem ⊢
    exact hmem.imp_right fun hmem => hkept e hmem (hle hmem)
  · exact (h.acked e he).2 (hbefore.subset hm)

omit [Encode C] [WALRecord.LawfulAction A] [LawfulCodec C] in
/-- What is read without a cut is read under any configuration. -/
theorem Reads.uncut {config' : Config} {file : Nat → Bytes} {ids : List Nat}
    {acc acc' a : Replay sm} {c tail : Option Nat} {s s' : OpenState A C}
    (h : Reads config' file ids acc acc' c) (hcfg : config.truncateIncompleteRecord = false)
    (hr : Replayed config tail ids acc s (.ok a) s')
    (hfile : ∀ i ∈ ids, (s.fs.file i).data = file i) :
    c = none ∧ Reads config file ids acc acc' none := by
  induction h generalizing s with
  | nil => exact ⟨rfl, .nil⟩
  | @whole id ids acc st acc' c hp hf hne ha h ih =>
    have hid := hfile id List.mem_cons_self
    cases hr with
    | step _ ho _ ha' hrest =>
      cases ho with
      | cut _ ht => exact absurd ht.1 (by simp [hcfg])
      | whole =>
        rw [hid] at ha' hrest
        cases ha.symm.trans ha'
        obtain ⟨hc, hreads⟩ := ih hrest fun i hi => hfile i (List.mem_cons_of_mem _ hi)
        exact ⟨hc, .whole hp hf hne ha hreads⟩
  | @cut id acc st hp ht hne ha =>
    have hid := hfile id List.mem_cons_self
    cases hr with
    | step _ ho _ _ _ =>
      cases ho with
      | cut _ ht => exact absurd ht.1 (by simp [hcfg])
      | whole _ hf =>
        obtain ⟨-, e, he, -⟩ := ht
        rw [← hid, hf] at he
        cases he

/-- What comes back in an opening that succeeds; it may be one that cuts nothing. -/
theorem LogOnDisk.recovered (h : LogOnDisk may fs log acked old ps) (hacc : sm.Accepts)
    (hrun : OpenRun config st (OpenState.init fs) (.ok o) x) : ∃ ks acc c,
      Returns config st fs acked old ps ks acc c := by
  by_cases hcfg : config.truncateIncompleteRecord = true
  · exact h.recovers hacc hcfg st
  have hallow : ({ dir := config.dir } : Config).truncateIncompleteRecord = true := rfl
  obtain ⟨ks, acc, c, hret⟩ := h.recovers hacc hallow st
  have hs := hret.sound
  obtain ⟨k, s₁, acc', s₂, ht, hr⟩ : ∃ k s₁ acc' s₂,
    Tidied (loadChunkIds fs).reverse (OpenState.init fs) (.ok k) s₁ ∧
      Replayed config k.reverse.getLast? k.reverse (Replay.start sm st) s₁ (.ok acc') s₂ := by
    cases hrun with
    | reopened _ ht hr => exact ⟨_, _, _, _, ht, hr⟩
    | created _ ht hr => exact ⟨_, _, _, _, ht, hr⟩
  obtain ⟨hk, -, hfile, -⟩ := Tidy.tidied
    (show Tidy A C (OpenState.init fs : OpenState A C).fs (ks.map (·.id))
      (discarded fs ps ks) from hs.tidy) ht
  cases hk
  rw [List.reverse_reverse] at hr
  obtain ⟨rfl, hreads⟩ := hs.reads.uncut (Bool.eq_false_iff.2 hcfg) hr fun i _ => by rw [hfile]; rfl
  exact ⟨ks, acc, none, { hret with
    sound := ⟨hs.aliases, hs.nodup, hs.increasing, hs.mem, hs.blank, hreads⟩ }⟩

/-- **What an opening applies** is a part of the log, perhaps behind records of chunks whose removal
a crash has undone, with every acknowledged record that is not older than its first. -/
theorem LogOnDisk.replays (h : LogOnDisk may fs log acked old ps) (hacc : sm.Accepts)
    (hrun : OpenRun config st (OpenState.init fs) (.ok o) x) :
    (∃ revived part, x.applied = revived ++ part ∧ part <:+: log ∧ ∀ e ∈ revived, may e.2.1) ∧
      ∀ e ∈ acked, e ∈ x.applied ∨ may e.2.1 ∧ ∃ first ∈ x.applied.head?, e.2.1 < first.2.1 := by
  obtain ⟨ks, acc, c, hret⟩ := h.recovered hacc hrun
  obtain ⟨happ, -⟩ := hrun.leftByOpening h.image hret.recovery hret.sound
  rw [happ]
  refine ⟨?_, fun e he => ?_⟩
  · obtain ⟨n, hlog, hmay⟩ := h.logged
    rw [List.drop_append, history_append] at hlog
    refine ⟨history (ks.take (n - old.length)), history (ks.drop (n - old.length)), ?_, ?_,
      fun e he => ?_⟩
    · rw [← history_append, List.take_append_drop]
    · exact (hret.recovery.before _).isInfix.trans ((List.suffix_append _ _).isInfix.trans hlog)
    · obtain ⟨k, hk, he⟩ := mem_history.1 he
      obtain ⟨p, hp, hid⟩ : ∃ p ∈ ps.take (n - old.length), p.id = k.id := by
        have hids := hret.recovery.ids.take (n - old.length)
        rw [← List.map_take, ← List.map_take] at hids
        exact List.mem_map.1 (hids.subset (List.mem_map_of_mem hk))
      rw [(mem_entries he).2.1, ← hid]
      exact hmay p (by rw [List.take_append]; exact List.mem_append_right _ hp)
  · have hmem := hret.holds e he
    have hchain := hret.chained
    rw [history_append, List.mem_append] at hmem
    refine hmem.symm.imp_right fun hmem => ?_
    obtain ⟨p, hp, he⟩ := mem_history.1 hmem
    obtain ⟨k, hk, first, hfirst, -⟩ := hret.stands (List.ne_nil_of_mem hp)
    refine ⟨(mem_entries he).2.1 ▸ h.asked p hp, first, head?_history hk hfirst, ?_⟩
    obtain ⟨k, ks, rfl⟩ : ∃ k' ks', ks = k' :: ks' := by
      cases ks with
      | nil => cases hk
      | cons k ks => exact ⟨k, ks, rfl⟩
    cases hk
    rw [(mem_entries he).2.1, (mem_entries (List.mem_of_head? hfirst)).2.1]
    rw [List.map_append, List.map_cons] at hchain
    exact (Tape.Chained.lt hchain p.spell (List.mem_map_of_mem hp)).2

/-- **A directory between two sessions opens.** -/
theorem LogOnDisk.opens (h : LogOnDisk may fs log acked old ps) (hacc : sm.Accepts)
    (hck : ∀ st, Encodes (.checkpoint (sm.checkpoint st) : WALRecord A C))
    (hcfg : config.truncateIncompleteRecord = true) (hv : config.validate = .ok ())
    {r : Except Fault (Opened sm)} (hrun : OpenRun config st (OpenState.init fs) r x) :
    ∃ o, r = .ok o ∧
    (∃ revived part, x.applied = revived ++ part ∧ part <:+: log ∧ ∀ e ∈ revived, may e.2.1) ∧
      ∀ e ∈ acked, e ∈ x.applied ∨ may e.2.1 ∧ ∃ first ∈ x.applied.head?, e.2.1 < first.2.1 := by
  obtain ⟨ks, acc, c, hret⟩ := h.recovers hacc hcfg st
  have hs : Sound config st (OpenState.init fs : OpenState A C).fs (ks.map (·.id))
    (discarded fs ps ks) acc c :=
    hret.sound
  obtain ⟨o, rfl, -⟩ := hs.opens hv (fun _ => hck _) hrun
  exact ⟨o, rfl, h.replays hacc hrun⟩

/-- **The next session begins.** -/
theorem LogOnDisk.keepsLog {Cb : Type} (h : LogOnDisk may fs log acked old ps) (hacc : sm.Accepts)
    (hrun : OpenRun config st (OpenState.init fs) (.ok o) x) :
    ∃ first g, KeepsLog may x.fs (x.applied ++ x.created) acked first
      (System.startSession config o : Session A C Cb) g := by
  obtain ⟨ks, acc, c, hret⟩ := h.recovered hacc hrun
  obtain ⟨-, qs, p, hleft, hor⟩ := hrun.leftByOpening h.image hret.recovery hret.sound
  have hold : Tape.Chained ((old ++ (qs ++ [p])).map Part.spell) := by
    rcases hor with ⟨rfl, -⟩ | ⟨rfl, -⟩
    · exact hret.chained
    rcases hold : old with _ | ⟨q, os⟩
    · exact hleft.chained
    obtain ⟨k, hk, -⟩ := hret.stands (hold ▸ List.cons_ne_nil _ _)
    have hchain := hret.chained
    rw [← hold]
    rw [List.map_append] at hchain ⊢
    obtain ⟨h₁, -, h₃⟩ := List.isChain_append.1 hchain
    refine List.isChain_append.2 ⟨h₁, hleft.chained, fun a ha b hb => h₃ a ha b ?_⟩
    cases ks with
    | nil => cases hk
    | cons k ks => exact hb
  -- removals may be undone only if the opening has not synchronized the directory
  obtain ⟨hnodup, hpend, hstubs⟩ : (x.fs.dir ++ x.fs.unlinked).Nodup ∧ x.fs.Pending old ∧
      ∀ i ∈ x.fs.unlinked, i ∉ old.map (·.id) →
        Stub A C (x.fs.file i).data ∧ ∀ q ∈ old ++ (qs ++ [p]), q.id < i := by
    have hclean : x.fs.unlinked = [] → (x.fs.dir ++ x.fs.unlinked).Nodup ∧ x.fs.Pending old ∧
        ∀ i ∈ x.fs.unlinked, i ∉ old.map (·.id) →
          Stub A C (x.fs.file i).data ∧ ∀ q ∈ old ++ (qs ++ [p]), q.id < i := by
      intro hu
      refine ⟨?_, .of_nil hu old, fun i hi => by rw [hu] at hi; cases hi⟩
      rw [hu, List.append_nil, hleft.dir.nodup_iff]
      exact (increasing_of_chained hleft.chained).imp Nat.ne_of_lt
    rcases hor with ⟨rfl, -, hfs | hu⟩ | ⟨-, hu⟩
    · rw [hfs]
      refine ⟨h.nodup, h.pending, fun i hi hn => ?_⟩
      obtain ⟨hs, hlt⟩ := h.stubs i hi hn
      refine ⟨hs, fun q hq => ?_⟩
      rcases List.mem_append.1 hq with hq | hq
      · exact hlt q (List.mem_append_left _ hq)
      · obtain ⟨q', hq', hid⟩ := hret.recovery.mem hq
        exact hid ▸ hlt q' (List.mem_append_right _ hq')
    · exact hclean hu
    · exact hclean hu
  refine ⟨_, _,
    hleft.keepsLog config hold h.encodes h.asked hnodup hpend hstubs (fun hne hnil => ?_)
    fun e he => ?_⟩
  · subst hnil
    obtain ⟨k, hk, e, he, hle⟩ := hret.stands hne
    rcases hor with ⟨rfl, hfile, -⟩ | ⟨rfl, -⟩
    · cases hk
      obtain ⟨r, rs, hrs⟩ := List.exists_cons_of_ne_nil hleft.begun
      refine ⟨r, by rw [hrs]; rfl, ?_⟩
      rw [Part.entries, hrs] at he
      cases he
      rw [hfile]
      exact Nat.le_of_add_le_add_left hle
    · cases hk
  · rcases hor with ⟨rfl, hfile, -⟩ | ⟨rfl, -⟩
    · have hmem := hret.holds e he
      rw [← List.append_assoc, history_append, List.mem_append] at hmem
      refine hmem.imp_right fun hm => ?_
      have hm : e ∈ p.entries := by simpa using hm
      refine ⟨hm, ?_⟩
      have := hret.synced e he (mem_history.2 ⟨p, by simp, hm⟩)
      rwa [(mem_entries hm).2.1, ← hfile] at this
    · exact .inl (hret.holds e he)

end

end Wal

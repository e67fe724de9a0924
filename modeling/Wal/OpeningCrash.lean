import Wal.LogOnDisk

/-!
# An opening that is cut off

An opening removes the newest file while it holds no record, synchronizes the directory, cuts a file
behind its records, and creates a new one behind the others. Each of these keeps the log
(`LogOnDisk.unlink`, `LogOnDisk.syncDir`, `LogOnDisk.rewritten`, `LogOnDisk.createNew`), so the
directory is `LogOnDisk` at every visible point (`LogOnDisk.passed`).
-/

namespace Wal

open Lib

section
variable {A C : Type}

/-- An opening keeps `P` at every point, and has created no record. -/
structure OpenState.Through (P : Fs → Prop) (s s' : OpenState A C) : Prop where
  now : P s'.fs
  created : s'.created = s.created
  trail : ∀ v ∈ s'.trail, v ∈ s.trail ∨ P v.fs ∧ v.created = s.created

namespace OpenState.Through

variable {P : Fs → Prop} {s s' s'' : OpenState A C}

theorem refl (hp : P s.fs) : s.Through P s := ⟨hp, rfl, fun _ hv => .inl hv⟩

theorem trans (h : s.Through P s') (h' : s'.Through P s'') : s.Through P s'' where
  now := h'.now
  created := h'.created.trans h.created
  trail v hv := by
    rcases h'.trail v hv with hv | ⟨hp, hc⟩
    · exact h.trail v hv
    · exact .inr ⟨hp, hc.trans h.created⟩

theorem note {g : OpenView A C → OpenView A C} (hp : P (g s.toOpenView).fs)
    (hc : (g s.toOpenView).created = s.created) : s.Through P (s.note g) where
  now := hp
  created := hc
  trail v hv := by
    refine (List.mem_append.1 hv).imp_right fun hv => ?_
    rw [List.mem_singleton.1 hv]
    exact ⟨hp, hc⟩

theorem noteFs {g : Fs → Fs} (hp : P (g s.fs)) : s.Through P (s.noteFs g) := note hp rfl

theorem applying (h : s.Through P s') (es : List (LogEntry A C)) : s.Through P (s'.applying es) :=
  ⟨h.now, h.created, h.trail⟩

end OpenState.Through

end

/-! ## One step -/

section
variable {A C : Type} [Crc32fast] [Encode A] [Encode C] {fs fs' : Fs} {ps qs : List (Part A C)}

theorem Survives.front (h : Survives fs ps) : ∀ {qs}, qs <+: ps → Survives fs qs := by
  induction h with
  | nil =>
    intro qs hq
    obtain rfl := List.prefix_nil.1 hq
    exact .nil
  | @cut p hp =>
    intro qs hq
    cases qs with
    | nil => exact .nil
    | cons q qs =>
      obtain ⟨rfl, hqs⟩ := List.cons_prefix_cons.1 hq
      obtain rfl := List.prefix_nil.1 hqs
      exact .cut hp
  | @whole p ps hp hs hne hn h ih =>
    intro qs hq
    cases qs with
    | nil => exact .nil
    | cons q qs =>
      obtain ⟨rfl, hqs⟩ := List.cons_prefix_cons.1 hq
      refine .whole hp hs hne (fun x hx => hn x ?_) (ih hqs)
      obtain ⟨rest, rfl⟩ := hqs
      exact List.mem_head?_append_of_mem_head? hx

variable [Decode A] [Decode C]

variable (A C) in
/-- The records of a file are still there, and all that was on stable storage of them. -/
structure FileData.Keeps (id : Nat) (f f' : FileData) : Prop where
  data : f'.data <+: f.data
  records : recordsEnd A C f.data id ≤ f'.data.length
  synced : min f.synced f'.data.length ≤ f'.synced

omit [Encode C] in
theorem FileData.Keeps.refl (id : Nat) (f : FileData) : f.Keeps A C id f :=
  ⟨List.prefix_refl _, recordsEnd_le, Nat.min_le_left _ _⟩

variable [WALRecord.LawfulAction A] [LawfulCodec C]

/-- **A record whose bytes are there** is read. -/
theorem recordsIn_of_mem {p : Part A C} (henc : ∀ r ∈ p.records, Encodes r) {data : Bytes}
    (hp : data <+: encAll p.records) {e : LogEntry A C} (he : e ∈ p.entries)
    (hle : e.end_ ≤ p.id + data.length) :
    recordsIn A C data p.id ≠ [] ∧ e.end_ ≤ p.id + recordsEnd A C data p.id := by
  obtain ⟨rs', rest, t, hsplit, hdata, ht, hrec, htake, -⟩ := recordsIn_cut henc hp p.id
  have hrest : ∀ r ∈ rest, Encodes r := fun r hr => henc r (hsplit ▸ List.mem_append_right _ hr)
  rw [hdata] at hle
  rw [Part.entries, hsplit] at he
  have he := mem_entries_of_cut hrest ht he hle
  refine ⟨fun hnil => ?_, ?_⟩
  · rw [spelled_eq_nil.1 (hrec.symm.trans hnil)] at he
    cases he
  · have hlen := congrArg List.length htake
    rw [List.length_take, Nat.min_eq_left recordsEnd_le] at hlen
    rw [hlen]
    exact (@mem_entries A C _ _ _ { id := p.id, records := rs' } e he).2.2.2

theorem Survives.rewritten (h : Survives fs ps) (henc : ∀ p ∈ ps, ∀ r ∈ p.records, Encodes r)
    (hk : ∀ p ∈ ps, (fs.file p.id).Keeps A C p.id (fs'.file p.id)) : Survives fs' ps := by
  induction h with
  | nil => exact .nil
  | @cut p hp => exact .cut ((hk p List.mem_cons_self).data.trans hp)
  | @whole p ps hp hs hne hn h ih =>
    have hkeep := hk p List.mem_cons_self
    have hend : recordsEnd A C (fs.file p.id).data p.id = (fs.file p.id).data.length :=
      recordsEnd_eq (hp ▸ (recordsIn_encAll (henc p List.mem_cons_self) p.id).2)
    have hsame : (fs'.file p.id).data = (fs.file p.id).data :=
      hkeep.data.eq_of_length_le (hend ▸ hkeep.records)
    have hsync := hkeep.synced
    rw [hsame, Nat.min_eq_right hs] at hsync
    exact .whole (hsame.trans hp) (hsame ▸ hsync) hne hn
      (ih (fun q hq => henc q (List.mem_cons_of_mem _ hq))
      fun q hq => hk q (List.mem_cons_of_mem _ hq))

variable {may : Nat → Prop} {log acked : List (LogEntry A C)} {old : List (Part A C)}

/-- What is on stable storage of a chunk stays there. -/
theorem FileData.Keeps.reached {p : Part A C} (henc : ∀ r ∈ p.records, Encodes r) {f f' : FileData}
    (hp : f.data <+: encAll p.records) (h : f.Keeps A C p.id f') {e : LogEntry A C}
    (he : e ∈ p.entries) (hle : e.end_ ≤ p.id + f.synced) : e.end_ ≤ p.id + f'.synced := by
  have hend := (recordsIn_of_mem henc hp he (hle.trans (Nat.add_le_add_left f.synced_le _))).2
  have hrecords := h.records
  have hsynced := h.synced
  omega

/-- **Files are cut**, or synchronized. -/
theorem LogOnDisk.rewritten (h : LogOnDisk may fs log acked old ps) (hd : fs'.dir = fs.dir)
    (ha : fs'.aliases = fs.aliases) (hu : fs'.unlinked = fs.unlinked)
    (hc : fs'.committed = fs.committed) (hk : ∀ i ∈ fs.dir, (fs.file i).Keeps A C i (fs'.file i))
    (hrest : ∀ i, i ∉ fs.dir → fs'.file i = fs.file i) :
    LogOnDisk may fs' log acked old ps := by
  have hkeep : ∀ p ∈ ps, (fs.file p.id).Keeps A C p.id (fs'.file p.id) := fun p hp =>
    hk p.id (h.image.listed p hp).1
  have hbegins := h.image.survives.begins
  have hgone : ∀ i ∈ fs.unlinked, fs'.file i = fs.file i := fun i hi =>
    hrest i fun hm => (List.nodup_append.1 h.nodup).2.2 i hm i hi rfl
  obtain ⟨sure, pend, hold, hun, hholds⟩ := h.pending
  refine ⟨⟨ha.trans h.image.aliases, hd ▸ h.image.nodup, fun p hp => ?_, fun i hi hn => ?_,
    h.image.increasing, h.image.encodes, h.image.survives.rewritten h.image.encodes hkeep⟩,
      by rw [hd, hu]; exact h.nodup,
    ⟨sure, pend, hold, hu ▸ hun, fun p hp => ?_⟩, fun i hi hn => ?_, h.logged, h.chained, h.encodes,
    h.asked, fun hne => ?_, fun e he => ⟨(h.acked e he).1, fun hm => ?_⟩⟩
  · rw [hd, hc]
    exact h.image.listed p hp
  · rw [hd] at hi
    obtain ⟨hs, hlt⟩ := h.image.stubs i hi hn
    exact ⟨hs.mono (hk i hi).data, hlt⟩
  · have hfile := hgone p.id (Fs.Pending.mem hun hp)
    have hp := hholds p hp
    exact ⟨hfile ▸ hp.data, hfile ▸ hp.synced, hc ▸ hp.committed⟩
  · rw [hu] at hi
    rw [hgone i hi]
    exact h.stubs i hi hn
  · obtain ⟨p, hp, e, he, hle⟩ := h.stands hne
    have hm := List.mem_of_head? hp
    exact ⟨p, hp, e, he,
      (hkeep p hm).reached (h.image.encodes p hm) (hbegins p hm) (List.mem_of_head? he) hle⟩
  · have hle := (h.acked e he).2 hm
    obtain ⟨p, hp, hep⟩ := mem_history.1 hm
    rw [(mem_entries hep).2.1] at hle ⊢
    exact (hkeep p hp).reached (h.image.encodes p hp) (hbegins p hp) hep hle

theorem LogOnDisk.front (h : LogOnDisk may fs log acked old ps) (hq : qs <+: ps) {i : Nat}
    (hi : i ∈ fs.dir) (honly : ∀ p ∈ ps, p.id ≠ i → p ∈ qs) (hlt : ∀ p ∈ old ++ qs, p.id < i)
    (hstub : Stub A C (fs.file i).data)
    (hstay : ∀ e ∈ history ps, e.end_ ≤ e.2.1 + (fs.file e.2.1).synced → e ∈ history qs) :
    LogOnDisk may (fs.unlink i) log acked old qs := by
  obtain ⟨sure, pend, hold, hun, hholds⟩ := h.pending
  have hfront : (old ++ qs) <+: (old ++ ps) := (List.prefix_append_right_inj _).2 hq
  have hnew : i ∉ old.map (·.id) := fun hm => by
    obtain ⟨p, hp, rfl⟩ := List.mem_map.1 hm
    exact absurd (hlt p (List.mem_append_left _ hp)) (Nat.lt_irrefl _)
  refine ⟨⟨h.image.aliases, h.image.nodup.filter _, fun p hp => ?_, fun j hj hn => ?_,
    h.image.increasing.sublist (hq.sublist.map _), fun p hp => h.image.encodes p (hq.subset hp),
    ?_⟩, Fs.nodup_unlink h.nodup hi, ⟨sure, pend, hold, ?_, fun p hp => ?_⟩, fun j hj hn => ?_, ?_,
    h.chained.prefix (hfront.map _), h.encodes, h.asked, fun hne => ?_, fun e he => ?_⟩
  · obtain ⟨hm, hc⟩ := h.image.listed p (hq.subset hp)
    exact ⟨Fs.mem_unlink.2 ⟨hm, Nat.ne_of_lt (hlt p (List.mem_append_right _ hp))⟩, hc⟩
  · obtain ⟨hj, hne⟩ := Fs.mem_unlink.1 hj
    obtain ⟨hs, hlt'⟩ := h.image.stubs j hj fun hm => by
      obtain ⟨p, hp, rfl⟩ := List.mem_map.1 hm
      exact hn (List.mem_map_of_mem (honly p hp hne))
    exact ⟨hs, fun p hp => hlt' p (hq.subset hp)⟩
  · exact (h.image.survives.front hq).rewritten (fun p hp => h.image.encodes p (hq.subset hp)) fun p
      _ => .refl _ _
  · show (fs.unlinked ++ [i]).filter _ = _
    rw [List.filter_append, hun, List.filter_eq_nil_iff.2 fun j hj => ?_, List.append_nil]
    rw [List.mem_singleton.1 hj, decide_eq_true_iff]
    exact hnew
  · exact ⟨(hholds p hp).data, (hholds p hp).synced, (hholds p hp).committed⟩
  · rcases List.mem_append.1 hj with hj | hj
    · obtain ⟨hs, hlt'⟩ := h.stubs j hj hn
      exact ⟨hs, fun p hp => hlt' p (hfront.subset hp)⟩
    · obtain rfl := List.mem_singleton.1 hj
      exact ⟨hstub, hlt⟩
  · obtain ⟨n, hlog, hmay⟩ := h.logged
    obtain ⟨rest, hrest⟩ := hfront.drop n
    refine ⟨n, ?_, fun p hp => hmay p ((hfront.take n).subset hp)⟩
    rw [← hrest, history_append] at hlog
    exact (List.prefix_append _ _).isInfix.trans hlog
  · obtain ⟨p, hp, e, he, hle⟩ := h.stands hne
    have hid : e.2.1 = p.id := (mem_entries (List.mem_of_head? he)).2.1
    have hin := hstay e (mem_history.2 ⟨p, List.mem_of_head? hp, List.mem_of_head? he⟩) (hid ▸ hle)
    obtain ⟨q, qs', rfl⟩ : ∃ q qs', qs = q :: qs' := by
      cases qs with
      | nil => cases hin
      | cons q qs => exact ⟨q, qs, rfl⟩
    obtain ⟨rest, rfl⟩ := hq
    exact ⟨p, hp, e, he, hle⟩
  · obtain ⟨hmem, hle⟩ := h.acked e he
    refine ⟨?_, fun hin => hle ?_⟩
    · rw [history_append, List.mem_append] at hmem ⊢
      exact hmem.imp_right fun hin => hstay e hin (hle hin)
    · obtain ⟨q, hq', heq⟩ := mem_history.1 hin
      exact mem_history.2 ⟨q, hq.subset hq', heq⟩

/-- **The newest file is removed**: it holds no record. -/
theorem LogOnDisk.unlink (h : LogOnDisk may fs log acked old ps) {i : Nat} (hi : i ∈ fs.dir)
    (hb : Blank A C (fs.file i).data i) (hmax : ∀ j ∈ fs.dir, j ≤ i) :
    ∃ ps', LogOnDisk may (fs.unlink i) log acked old ps' := by
  have hinc := increasing_of_chained h.chained
  by_cases hm : i ∈ ps.map (·.id)
  swap
  · obtain ⟨hs, hlt⟩ := h.image.stubs i hi hm
    exact ⟨ps, h.front (List.prefix_refl _) hi (fun p hp _ => hp) (h.above hlt) hs fun e he _ => he⟩
  -- the file is that of the last chunk
  obtain ⟨qs, l, rfl⟩ : ∃ qs l, ps = qs ++ [l] := by
    rcases List.eq_nil_or_concat ps with rfl | ⟨qs, l, rfl⟩
    · cases hm
    · exact ⟨qs, l, List.concat_eq_append⟩
  have hbelow : ∀ p ∈ old ++ qs, p.id < l.id := fun p hp => by
    rw [← List.append_assoc, List.map_append] at hinc
    exact (List.pairwise_append.1 hinc).2.2 p.id (List.mem_map_of_mem hp) l.id
      (List.mem_singleton_self _)
  obtain rfl : i = l.id := by
    obtain ⟨p, hp, rfl⟩ := List.mem_map.1 hm
    rcases List.mem_append.1 hp with hp | hp
    · have hl := hmax l.id (h.image.listed l (by simp)).1
      exact absurd (hbelow p (List.mem_append_right _ hp)) (Nat.not_lt.2 hl)
    · rw [List.mem_singleton.1 hp]
  have hl : l ∈ qs ++ [l] := by simp
  have hcut := h.image.survives.begins l hl
  refine ⟨qs, h.front (List.prefix_append _ _) hi (fun p hp hne => ?_) hbelow
    (Stub.of_cut (h.image.encodes l hl) hcut hb.1) fun e he hle => ?_⟩
  · rcases List.mem_append.1 hp with hp | hp
    · exact hp
    · exact absurd (List.mem_singleton.1 hp ▸ rfl) hne
  · rw [history_append, List.mem_append] at he
    refine he.resolve_right fun he => ?_
    have he : e ∈ l.entries := by simpa using he
    rw [(mem_entries he).2.1] at hle
    have hle := hle.trans (Nat.add_le_add_left (fs.file l.id).synced_le _)
    exact (recordsIn_of_mem (h.image.encodes l hl) hcut he hle).1 hb.1

/-- **The directory is synchronized.** -/
theorem LogOnDisk.syncDir (h : LogOnDisk may fs log acked old ps) :
    LogOnDisk may fs.syncDir log acked old ps where
  image := ⟨h.image.aliases, h.image.nodup,
    fun p hp => ⟨(h.image.listed p hp).1, decide_eq_true (h.image.listed p hp).1⟩, h.image.stubs,
      h.image.increasing, h.image.encodes,
      h.image.survives.rewritten h.image.encodes fun _ _ => .refl _ _⟩
  nodup := by
    show (fs.dir ++ []).Nodup
    rw [List.append_nil]
    exact h.image.nodup
  pending := .of_nil rfl old
  stubs i hi := by cases hi
  logged := h.logged
  chained := h.chained
  encodes := h.encodes
  asked := h.asked
  stands := h.stands
  acked := h.acked

/-- **A file is created** behind the others. -/
theorem LogOnDisk.createNew (h : LogOnDisk may fs log acked old ps) {i : Nat}
    (hlt : ∀ j ∈ fs.dir, j < i) :
    LogOnDisk may (fs.createNew i) log acked old ps := by
  obtain ⟨sure, pend, hold, hun, hholds⟩ := h.pending
  have hbelow : ∀ p ∈ old ++ ps, p.id < i := h.above fun p hp => hlt p.id (h.image.listed p hp).1
  have hfile : ∀ p ∈ old ++ ps, (fs.createNew i).file p.id = fs.file p.id := fun p hp =>
    Fs.createNew_file_ne (Nat.ne_of_lt (hbelow p hp))
  have hcom : ∀ p ∈ old ++ ps, (fs.createNew i).committed p.id = fs.committed p.id := fun p hp =>
    Function.update_of_ne (Nat.ne_of_lt (hbelow p hp)) _ _
  have hnew : i ∉ fs.dir := fun hm => absurd (hlt i hm) (Nat.lt_irrefl _)
  have hps : ∀ p ∈ ps, p ∈ old ++ ps := fun p hp => List.mem_append_right _ hp
  refine ⟨⟨h.image.aliases, ?_, fun p hp => ?_, fun j hj hn => ?_, h.image.increasing,
    h.image.encodes, h.image.survives.rewritten h.image.encodes fun p hp => hfile p (hps p hp) ▸
    .refl _ _⟩, Fs.nodup_createNew h.nodup hnew, ⟨sure, pend, hold, ?_, fun p hp => ?_⟩,
      fun j hj hn => ?_, h.logged, h.chained,
    h.encodes, h.asked, fun hne => ?_, fun e he => ⟨(h.acked e he).1, fun hm => ?_⟩⟩
  · refine List.nodup_append.2 ⟨h.image.nodup, List.nodup_singleton i, fun j hj k hk => ?_⟩
    exact List.mem_singleton.1 hk ▸ Nat.ne_of_lt (hlt j hj)
  · rw [hcom p (hps p hp)]
    exact ⟨List.mem_append_left _ (h.image.listed p hp).1, (h.image.listed p hp).2⟩
  · rcases List.mem_append.1 hj with hj | hj
    · rw [Fs.createNew_file_ne (Nat.ne_of_lt (hlt j hj))]
      exact h.image.stubs j hj hn
    · obtain rfl := List.mem_singleton.1 hj
      rw [Fs.createNew_file_self]
      exact ⟨.inl rfl, fun p hp => hbelow p (hps p hp)⟩
  · show (fs.unlinked.filter _).filter _ = _
    rw [List.filter_filter, ← hun]
    refine List.filter_congr fun j _ => ?_
    by_cases hj : j ∈ old.map (·.id)
    · obtain ⟨p, hp, rfl⟩ := List.mem_map.1 hj
      simp [hj, Nat.ne_of_lt (hbelow p (List.mem_append_left _ hp))]
    · simp [hj]
  · have hm : p ∈ old ++ ps := List.mem_append_left _ (hold ▸ List.mem_append_right _ hp)
    have hp := hholds p hp
    exact ⟨hfile p hm ▸ hp.data, hfile p hm ▸ hp.synced, hcom p hm ▸ hp.committed⟩
  · obtain ⟨hj, hne⟩ := List.mem_filter.1 hj
    rw [Fs.createNew_file_ne (by simpa using hne)]
    exact h.stubs j hj hn
  · obtain ⟨p, hp, e, he, hle⟩ := h.stands hne
    exact ⟨p, hp, e, he, by rwa [hfile p (hps p (List.mem_of_head? hp))]⟩
  · have hle := (h.acked e he).2 hm
    obtain ⟨p, hp, hep⟩ := mem_history.1 hm
    rw [(mem_entries hep).2.1] at hle ⊢
    rwa [hfile p (hps p hp)]

/-! ## The whole opening -/

variable {sm : StateMachine A C} {config : Config} {st : sm.State} {s s₁ s' x : OpenState A C}

/-- **While files are removed.** -/
theorem Tidied.passes {ids : List Nat} {r : Except IoError (List Nat)} (ht : Tidied ids s r s')
    (hids : ids.Pairwise (· ≥ ·)) (hall : ∀ j ∈ s.fs.dir, j ∈ ids)
    (h : ∃ ps, LogOnDisk may s.fs log acked old ps) :
    s.Through (fun fs => ∃ ps, LogOnDisk may fs log acked old ps) s' := by
  induction ht with
  | empty | complete | stopped => exact .refl h
  | @removed id older s r s' hm hb ht ih =>
    obtain ⟨ps, hps⟩ := h
    obtain ⟨hge, hids⟩ := List.pairwise_cons.1 hids
    obtain ⟨ps', hps'⟩ := hps.unlink hm hb fun j hj => by
      rcases List.mem_cons.1 (hall j hj) with rfl | hj
      · exact Nat.le_refl _
      · exact hge j hj
    refine .trans (.trans (.noteFs ⟨ps', hps'⟩) (.noteFs ⟨ps', hps'.syncDir⟩))
      (ih hids (fun j hj => ?_) ⟨ps', hps'.syncDir⟩)
    obtain ⟨hj, hne⟩ := Fs.mem_unlink.1 hj
    exact (List.mem_cons.1 (hall j hj)).resolve_left hne

/-- **While a file is opened.** -/
theorem Opens.passes {allow : Bool} {id : Nat} {t : Option Nat} (ho : Opens config allow id s t s₁)
    (h : ∃ ps, LogOnDisk may s.fs log acked old ps) :
    s.Through (fun fs => ∃ ps, LogOnDisk may fs log acked old ps) s₁ := by
  obtain ⟨ps, h⟩ := h
  cases ho with
  | whole => exact .refl ⟨ps, h⟩
  | cut hm _ =>
    have hcut : LogOnDisk may (s.fs.setLen id (recordsEnd A C (s.fs.file id).data id)) log acked
      old ps := by
      refine h.rewritten rfl rfl rfl rfl (fun i hi => ?_) fun i hi => Fs.setLen_file_ne _ fun he =>
        hi (he ▸ hm)
      by_cases he : i = id
      · subst he
        rw [Fs.setLen_file_self]
        refine ⟨List.take_prefix _ _, ?_, ?_⟩
        · rw [FileData.setLen_data, List.length_take]
          exact Nat.le_min.2 ⟨Nat.le_refl _, recordsEnd_le⟩
        · rw [FileData.setLen_data, List.length_take]
          show _ ≤ min (s.fs.file i).synced _
          omega
      · rw [Fs.setLen_file_ne _ he]
        exact .refl _ _
    refine .trans (.noteFs ⟨ps, hcut⟩)
      (.noteFs ⟨ps, hcut.rewritten rfl rfl rfl rfl (fun i hi => ?_) fun i hi =>
      Fs.syncData_file_ne fun he => hi (he ▸ hm)⟩)
    refine ⟨by rw [Fs.syncData_data]; exact List.prefix_refl _, by
      rw [Fs.syncData_data]; exact recordsEnd_le, ?_⟩
    exact (Nat.min_le_left _ _).trans (FollowsTape.syncData_le _ _ _)

/-- **While the chunks are replayed.** -/
theorem Replayed.passes {tail : Option Nat} {ids : List Nat} {acc : Replay sm}
    {r : Except Fault (Replay sm)} (hr : Replayed config tail ids acc s r s')
    (h : ∃ ps, LogOnDisk may s.fs log acked old ps) :
    s.Through (fun fs => ∃ ps, LogOnDisk may fs log acked old ps) s' := by
  induction hr with
  | nil | stopped => exact .refl h
  | refused hp ho =>
    have hthrough := ho.passes h
    exact (hthrough.trans (.note hthrough.now rfl)).applying _
  | panicked hp ho =>
    have hthrough := ho.passes h
    exact hthrough.trans (.note hthrough.now rfl)
  | step hp ho hr ha hrest ih =>
    have hthrough := ho.passes h
    exact ((hthrough.trans (.note hthrough.now rfl)).applying _).trans (ih hthrough.now)

theorem LogOnDisk.tidied (h : LogOnDisk may fs log acked old ps) {r : Except IoError (List Nat)}
    (ht : Tidied (loadChunkIds fs).reverse (OpenState.init fs) r s') :
    (OpenState.init fs).Through (fun fs => ∃ ps, LogOnDisk may fs log acked old ps) s' :=
  ht.passes (List.pairwise_reverse.2 (loadChunkIds_sorted fs))
    (fun _ hj => List.mem_reverse.2 (mem_loadChunkIds hj)) ⟨ps, h⟩

/-- **An opening that fails** leaves the log where it was. -/
theorem LogOnDisk.unopened (h : LogOnDisk may fs log acked old ps)
    (hck : ∀ st, Encodes (.checkpoint (sm.checkpoint st) : WALRecord A C)) {f : Fault}
    (hrun : OpenRun config st (OpenState.init fs) (.error f) x) :
    ∃ qs, LogOnDisk may x.fs log acked old qs := by
  cases hrun with
  | invalid => exact ⟨ps, h⟩
  | untidy _ ht => exact (h.tidied ht).now
  | failed _ ht hr | blocked _ ht hr => exact (hr.passes (h.tidied ht).now).now
  | @unencoded k s₁ acc s₂ e _ ht hr hl hm he =>
    obtain ⟨n, hn⟩ := hck acc.state
    exact absurd (he.symm.trans hn) (by simp)

/-- **Wherever an opening is cut off**, the directory keeps the log. -/
theorem LogOnDisk.passed (h : LogOnDisk may fs log acked old ps) (hacc : sm.Accepts)
    (hck : ∀ st, Encodes (.checkpoint (sm.checkpoint st) : WALRecord A C))
    {r : Except Fault (Opened sm)} (hrun : OpenRun config st (OpenState.init fs) r x) :
    ∀ v ∈ x.trail, ∃ old' ps',
      LogOnDisk may v.fs (if v.created.isEmpty then log else v.applied ++ v.created) acked
        old' ps' := by
  have hthrough : ∀ {s' : OpenState A C},
      (OpenState.init fs).Through (fun fs => ∃ ps, LogOnDisk may fs log acked old ps) s' →
      ∀ v ∈ s'.trail, ∃ old' ps',
        LogOnDisk may v.fs (if v.created.isEmpty then log else v.applied ++ v.created) acked
          old' ps' := by
    intro s' hs v hv
    rcases hs.trail v hv with hv | ⟨⟨qs, hqs⟩, hc⟩
    · cases hv
    · rw [hc]
      exact ⟨old, qs, hqs⟩
  have hrun' := hrun
  cases hrun with
  | invalid => exact fun v hv => by cases hv
  | untidy _ ht => exact hthrough (h.tidied ht)
  | failed _ ht hr | reopened _ ht hr | blocked _ ht hr =>
    exact hthrough ((h.tidied ht).trans (hr.passes (h.tidied ht).now))
  | @unencoded k s₁ acc s₂ e _ ht hr hl hm he =>
    obtain ⟨n, hn⟩ := hck acc.state
    exact absurd (he.symm.trans hn) (by simp)
  | @created k s₁ acc s₂ n _ ht hr hl hm he =>
    obtain ⟨ks, acc', c, hret⟩ := h.recovered hacc hrun'
    obtain ⟨-, -, hperm, -⟩ := h.image.settled hret.recovery hret.sound ht hr
    obtain ⟨-, qs, p, hleft, hor⟩ := hrun'.leftByOpening h.image hret.recovery hret.sound
    have hid : acc.end_ = p.id := hleft.file
    obtain rfl : ks = qs := by
      refine (hor.resolve_left fun hor => hm <| hperm.mem_iff.2 ?_).1
      rw [hid, hor.1, List.map_append]
      exact List.mem_append_right _ List.mem_cons_self
    have hlt : ∀ j ∈ s₂.fs.dir, j < acc.end_ := fun j hj => by
      have hinc := increasing_of_chained hleft.chained
      rw [List.map_append, List.map_singleton, ← hid] at hinc
      exact (List.pairwise_append.1 hinc).2.2 j (hperm.mem_iff.1 hj) _ (List.mem_singleton_self _)
    have hthere := (h.tidied ht).trans (hr.passes (h.tidied ht).now)
    obtain ⟨ps', hps'⟩ := hthere.now
    -- the new file has a name, but no record yet
    have hnew := hps'.createNew hlt
    have hfile : (OpenState.init fs).Through (fun fs => ∃ ps, LogOnDisk may fs log acked old ps)
        (s₂.createdFile acc.end_) :=
      hthere.trans (.trans (.noteFs ⟨ps', hnew⟩) (.noteFs ⟨ps', hnew.syncDir⟩))
    intro v hv
    have hv' : v ∈ (s₂.createdFile acc.end_).trail ++
        [(s₂.createdWith acc.end_ acc.head (enc acc.head) n).toOpenView] := hv
    rcases List.mem_append.1 hv' with hv | hv
    · exact hthrough hfile v hv
    · cases List.mem_singleton.1 hv
      obtain ⟨first, g, hg⟩ : ∃ first g,
          KeepsLog may _ _ acked first (System.startSession config _ : Session A C Nat) g :=
        h.keepsLog hacc hrun'
      exact hg.kept

end

end Wal

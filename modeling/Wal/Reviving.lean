import Wal.Contiguous
import Wal.Readable
import Wal.UserSession

/-!
# Reopening the live WAL

A chunk of memory is `Restored` by its file if reading the file gives its offset table, and
replaying it the state it stands for. `Linked.reads` replays the files of chunks that follow one
another, and `Sound.of_restored` opens their directory. `Saved` is a directory whose chunks can be
replayed; what is opened from it is `MatchesLedger`.
-/

namespace Wal

open Lib

/-! ## Reading chunks back -/

section
variable {A C : Type} [Crc32fast] [Encode A] [Decode A] [Encode C] [Decode C]
    {sm : StateMachine A C}
  {config : Config} {file : Nat → Bytes}

/-- A closed chunk without its file's former length. -/
def bareOf (p : Nat × ClosedChunk C) : Nat × C × Nat × List Nat := (p.1, p.2.bare)

/-- **The file of a chunk restores it.** -/
structure Restored (sm : StateMachine A C) (file : Nat → Bytes) (p : Nat × ClosedChunk C)
    (L : sm.State) :
    Prop where
  handle : p.2.chunk.f = p.1
  whole : failureIn A C (file p.1) p.1 = none
  records : recordsIn A C (file p.1) p.1 ≠ []
  table : p.2.chunk.globalOffsets = (chunkIn A C (file p.1) p.1 none).globalOffsets
  resumes : Resumes sm (entriesIn A C (file p.1) p.1) L
  state : p.2.state = sm.checkpoint L

omit [Crc32fast] [Encode A] [Decode A] [Encode C] [Decode C] in
theorem Chunk.globalEnd_congr {c c' : Chunk} (h : c.globalOffsets = c'.globalOffsets) :
    c.globalEnd = c'.globalEnd := by
  unfold Chunk.globalEnd
  simp only [h]

omit [Encode C] in
/-- **Chunks that follow one another** are read back from their files. -/
theorem Linked.reads (config : Config) {cs : List (Nat × ClosedChunk C)} {first stop : Nat}
    (hl : Linked first cs stop) (hres : ∀ p ∈ cs, ∃ L, Restored sm file p L) {acc : Replay sm}
    (ho : acc.Ordered) (hf : acc.Follows first) :
    ∃ acc', Reads config file (cs.map (·.1)) acc acc' none ∧
      acc'.closed.map bareOf = acc.closed.map bareOf ++ cs.map bareOf ∧
      ∀ p ∈ cs.getLast?, ∀ L, Restored sm file p L → acc'.state = L := by
  induction cs generalizing first acc with
  | nil => exact ⟨acc, .nil, by simp, by simp⟩
  | cons p cs ih =>
    obtain ⟨L, hp⟩ := hres p List.mem_cons_self
    obtain ⟨hkey, hstart, hfilled, hrest⟩ := hl
    subst hkey
    have hend : p.2.chunk.globalEnd = p.1 + recordsEnd A C (file p.1) p.1 := by
      rw [Chunk.globalEnd_congr hp.table, chunkIn_globalEnd]
    have hnext : (acc.next (file p.1) p.1 none L).Follows p.2.chunk.globalEnd := by
      intro e he
      cases he
      exact hend.symm
    obtain ⟨acc', hreads, hclosed, hlast⟩ :=
      ih hrest (fun q hq => hres q (List.mem_cons_of_mem _ hq))
      (ho.next hf hp.records) hnext
    refine ⟨acc', .whole hf hp.whole hp.records (hp.resumes _) hreads, ?_, fun q hq M hM => ?_⟩
    · rw [hclosed, Replay.next_closed ho hf, List.map_append, List.append_assoc, List.map_cons,
        List.map_cons]
      refine congrArg (_ ++ · :: _) ?_
      unfold bareOf ClosedChunk.bare
      simp only [hp.state, hp.table, hp.handle]
      rfl
    · cases cs with
      | nil =>
        cases hreads
        cases hq
        have := (hp.resumes acc.state).symm.trans (hM.resumes acc.state)
        exact Except.ok.inj this
      | cons q' cs => exact hlast q (by rwa [List.getLast?_cons_cons] at hq) M hM

/-- The chunk as a closed one. -/
def OpenChunk.asClosed (o : OpenChunk) (c : C) : Nat × ClosedChunk C :=
  (o.chunk.f, { state := c, chunk := o.chunk })

omit [Encode C] in
/-- **The directory of a WAL** that is restored by its files opens to that WAL. -/
theorem Sound.of_restored {w : ChunkedWal C} (hchain : Chained w)
    (hstart : w.open.chunk.globalStart = w.open.chunk.f) {L : sm.State}
    (hclosed : ∀ p ∈ w.closed, ∃ L, Restored sm file p L)
    (hopen : Restored sm file (w.open.asClosed (sm.checkpoint L)) L) {fs : Fs}
    (hfile : file = fun i => (fs.file i).data) (hal : fs.aliases = []) (hnd : fs.dir.Nodup)
    (hdir : fs.dir.Perm (w.closed.map (·.1) ++ [w.open.chunk.f])) (config : Config)
      (st : sm.State) :
    ∃ acc, Sound config st fs (w.closed.map (·.1) ++ [w.open.chunk.f]) [] acc none ∧ acc.state = L ∧
      acc.closed.map bareOf = (w.closed ++ [w.open.asClosed (sm.checkpoint L)]).map bareOf := by
  obtain ⟨first, hl⟩ := hchain.linked
  have hall : Linked first (w.closed ++ [w.open.asClosed (sm.checkpoint L)])
    w.open.chunk.globalEnd :=
    hl.snoc (p := w.open.asClosed (sm.checkpoint L)) hstart.symm rfl hchain.filled
  have hres : ∀ p ∈ w.closed ++ [w.open.asClosed (sm.checkpoint L)], ∃ L, Restored sm file p L := by
    intro p hp
    rcases List.mem_append.1 hp with hp | hp
    · exact hclosed p hp
    · rw [List.mem_singleton.1 hp]
      exact ⟨L, hopen⟩
  obtain ⟨acc, hreads, hacc, hlast⟩ := hall.reads config hres (Replay.start_ordered st)
    fun e he => by cases he
  have hids : (w.closed ++ [w.open.asClosed (sm.checkpoint L)]).map (·.1) =
      w.closed.map (·.1) ++ [w.open.chunk.f] := by
    rw [List.map_append]
    rfl
  rw [hids] at hreads
  refine ⟨acc, ⟨hal, hnd, ?_, fun i => ?_, by simp, hfile ▸ hreads⟩, ?_, hacc⟩
  · rw [List.append_nil]
    exact hreads.increasing.1
  · rw [hdir.mem_iff]
    simp
  · exact hlast _ (by simp) L hopen

/-! ## Saved directories -/

omit [Encode C] in
/-- **What is replayed from chunks that lead to a state**: each is closed with the checkpoint of
that state. -/
theorem Reads.resumed {ids : List Nat} {acc acc' : Replay sm} {c : Option Nat}
    (h : Reads config file ids acc acc' c) (ho : acc.Ordered)
    (hres : ∀ i ∈ ids, ∀ st L, sm.run st (entriesIn A C (file i) i) = .ok L →
      Resumes sm (entriesIn A C (file i) i) L) :
    ∃ cs, acc'.closed = acc.closed ++ cs ∧ cs.map (·.1) = ids ∧
      (∀ p ∈ cs, (∃ t, p.2.chunk = chunkIn A C (file p.1) p.1 t) ∧
        ∃ L, Resumes sm (entriesIn A C (file p.1) p.1) L ∧ p.2.state = sm.checkpoint L) ∧
      ∀ i ∈ ids.getLast?, Resumes sm (entriesIn A C (file i) i) acc'.state := by
  induction h with
  | nil => exact ⟨[], by simp, rfl, by simp, by simp⟩
  | @whole id ids acc st acc' c hp hf hr ha h ih =>
    have hL := hres id List.mem_cons_self _ _ ha
    obtain ⟨cs, hcs, hids, hall, hlast⟩ := ih (ho.next hp hr) fun i hi =>
      hres i (List.mem_cons_of_mem _ hi)
    rw [Replay.next_closed ho hp, List.append_assoc] at hcs
    refine ⟨_, hcs, by simp [hids], fun p hpm => ?_, fun i hi => ?_⟩
    · rcases List.mem_append.1 hpm with hpm | hpm
      · obtain rfl := List.mem_singleton.1 hpm
        exact ⟨⟨none, rfl⟩, st, hL, rfl⟩
      · exact hall p hpm
    · cases ids with
      | nil =>
        cases h
        cases hi
        exact hL
      | cons j ids => exact hlast i (by rwa [List.getLast?_cons_cons] at hi)
  | @cut id acc st hp ht hr ha =>
    have hL := hres id List.mem_cons_self _ _ ha
    refine ⟨_, Replay.next_closed ho hp, rfl, fun p hpm => ?_, fun i hi => ?_⟩
    · obtain rfl := List.mem_singleton.1 hpm
      exact ⟨⟨_, rfl⟩, st, hL, rfl⟩
    · cases hi
      exact hL

omit [Encode C] in
theorem Tidied.left {st : sm.State} {k : List Nat} {s s₁ s₂ : OpenState A C} {acc : Replay sm}
    (ht : Tidied (loadChunkIds s.fs).reverse s (.ok k) s₁)
    (hr : Replayed config k.reverse.getLast? k.reverse (Replay.start sm st) s₁ (.ok acc) s₂) :
    ∃ c, Reads config (fun i => (s.fs.file i).data) k.reverse (Replay.start sm st) acc c ∧
      s₂.fs.aliases = [] ∧ s₂.fs.dir.Perm k.reverse ∧ (∀ i ∈ k.reverse, i ∈ s.fs.dir) := by
  obtain ⟨removed, c, hsound, hdir⟩ := ht.sound hr
  obtain ⟨_, htidy, -, -, hal⟩ := ht.tidy
  refine ⟨c, hsound.reads, ?_, ?_, fun i hi => (hsound.mem i).2 (.inl hi)⟩
  · have hal₂ : s₂.fs.aliases = s₁.fs.aliases := by
      rcases hlast : k.reverse.getLast? with _ | t
      · rw [List.getLast?_eq_none_iff] at hlast
        rw [hlast] at hr
        cases hr
        rfl
      · rw [hlast] at hr
        obtain ⟨c', hfs, -⟩ := hr.healed (le_tail htidy.listed hlast)
        rw [hfs]
        cases c' <;> rfl
    rw [hal₂, hal, hsound.aliases]
  · have hinc := hsound.reads.increasing.1
    rw [hdir]
    refine (List.perm_ext_iff_of_nodup (hsound.nodup.filter _) (hinc.imp Nat.ne_of_lt)).2
      fun i => ?_
    rw [List.mem_filter, decide_eq_true_eq, hsound.mem]
    refine ⟨fun h => h.1.resolve_right h.2, fun h => ⟨.inl h, hsound.tidy.disjoint h⟩⟩

/-- **A directory of chunks that can be replayed**: its files are those of a WAL, and what a chunk
leads to does not depend on what is before it. -/
structure Saved (sm : StateMachine A C) (fs : Fs) : Prop where
  spelt : SpeltFs A C fs
  resumes : ∀ i ∈ fs.dir, recordsIn A C (fs.file i).data i ≠ [] → ∀ st L,
    sm.run st (entriesIn A C (fs.file i).data i) = .ok L →
    Resumes sm (entriesIn A C (fs.file i).data i) L

/-- What a user knows of a WAL that was just opened. -/
def Opened.ledger (o : Opened sm) (x : OpenState A C) : Ledger sm where
  ids := x.fs.dir
  log := x.applied ++ x.created
  state := o.state
  hurt := false
  joined := false
  settled := false

omit [Encode C] in
theorem sorted_flatMap (file : Nat → Bytes) {ids : List Nat} (h : ids.Pairwise (· < ·)) :
    ((ids.flatMap fun i => entriesIn A C (file i) i).map fun e => e.2.1).Pairwise (· ≤ ·) := by
  rw [List.pairwise_map, List.pairwise_flatMap]
  refine ⟨fun i _ => List.pairwise_of_forall_mem_list fun e he e' he' => ?_, h.imp ?_⟩
  · rw [entriesIn_chunk he, entriesIn_chunk he']
  · intro i j hlt e he e' he'
    rw [entriesIn_chunk he, entriesIn_chunk he']
    exact Nat.le_of_lt hlt

section
variable {k : List Nat} {st : sm.State} {acc : Replay sm} {c : Option Nat} {g : Ledger sm}
  {w : ChunkedWal C} (hreads : Reads config file k (Replay.start sm st) acc c)
  (hres : ∀ i ∈ k, ∀ st L, sm.run st (entriesIn A C (file i) i) = .ok L →
    Resumes sm (entriesIn A C (file i) i) L)
include hreads hres

omit [Encode C] in
/-- An opening that goes on with the last chunk. -/
theorem Reads.matches_reopened {id : Nat} {last : ClosedChunk C} (hperm : g.ids.Perm k)
    (hlog : g.log = k.flatMap fun i => entriesIn A C (file i) i) (hstate : g.state = acc.state)
    (hsplit : acc.closed = w.closed ++ [(id, last)]) (hopen : w.open = OpenChunk.new last.chunk) :
    MatchesLedger w [] g := by
  obtain ⟨cs, hcs, hids, hall, hlast⟩ := hreads.resumed (Replay.start_ordered st) hres
  rw [show (Replay.start sm st).closed = [] from rfl, List.nil_append] at hcs
  rw [← hcs, hsplit] at hids hall
  have hk : k = w.closed.map (·.1) ++ [id] := by
    rw [← hids, List.map_append]
    rfl
  have hidk : id ∈ k := by
    rw [hk]
    simp
  have hinc : k.Pairwise (· < ·) := hreads.increasing.1
  have hlt : ∀ i ∈ w.closed.map (·.1), i < id := fun i hi => by
    rw [hk, List.pairwise_append] at hinc
    exact hinc.2.2 i hi id (by simp)
  have hin : ∀ i ∈ k, inChunk i g.log = entriesIn A C (file i) i := fun i hi => by
    rw [hlog, inChunk_flatMap (hinc.imp Nat.ne_of_lt), if_pos hi]
  obtain ⟨⟨t, hchunk⟩, -⟩ := hall (id, last) (by simp)
  have hchunk : w.open.chunk = chunkIn A C (file id) id t := by
    rw [hopen]
    exact hchunk
  have hcur : w.open.chunk.f = id := congrArg Chunk.f hchunk
  refine ⟨?_, ?_, ⟨?_, ?_⟩, fun p hp => ?_, ?_, fun e he => ?_, ?_⟩
  · rw [hcur, ← hk]
    exact hperm
  · rw [hchunk]
    rfl
  · rw [hchunk]
    exact chunkIn_increasing A C _ _ _
  · rw [hchunk, chunkIn_recordsCount]
    exact List.length_pos_of_ne_nil (hreads.records id hidk)
  · have hp₁ : p.1 ∈ w.closed.map (·.1) := List.mem_map_of_mem hp
    obtain ⟨-, L, hL, hst⟩ := hall p (List.mem_append_left _ hp)
    rw [hcur, hin p.1 (hk ▸ List.mem_append_left _ hp₁)]
    exact ⟨hlt p.1 hp₁, L, hL, hst⟩
  · rw [hcur, hin id hidk, hstate]
    exact hlast id (by rw [hk]; simp)
  · have he := mem_ids_of_entriesIn (hlog ▸ he)
    rw [hcur]
    rw [hk] at he
    rcases List.mem_append.1 he with he | he
    · exact Nat.le_of_lt (hlt _ he)
    · exact Nat.le_of_eq (List.mem_singleton.1 he)
  · rw [hlog]
    exact sorted_flatMap file hinc

/-- An opening that creates a chunk. -/
theorem Reads.matches_created {n : Nat} (hrev : sm.Reverts) (he : (encode acc.head).2 = .ok n)
    (hperm : g.ids.Perm (k ++ [acc.end_]))
    (hlog : g.log = (k.flatMap fun i => entriesIn A C (file i) i) ++
      [(acc.head, acc.end_, { offset := acc.end_, size := n })]) (hstate : g.state = acc.state)
    (hclosed : w.closed = acc.closed) (hopen : w.open = createdChunk acc.end_ n) :
    MatchesLedger w [] g := by
  obtain ⟨cs, hcs, hids, hall, -⟩ := hreads.resumed (Replay.start_ordered st) hres
  rw [show (Replay.start sm st).closed = [] from rfl, List.nil_append] at hcs
  rw [← hcs, ← hclosed] at hids hall
  have hinc : k.Pairwise (· < ·) := hreads.increasing.1
  have hlt : ∀ i ∈ k, i < acc.end_ := fun i hi => hreads.lt_end hi
  have hle : ∀ e ∈ k.flatMap fun i => entriesIn A C (file i) i, e.2.1 < acc.end_ :=
    fun e he => hlt _ (mem_ids_of_entriesIn he)
  have hcur : w.open.chunk.f = acc.end_ := by
    rw [hopen]
    rfl
  refine ⟨?_, ?_, ⟨?_, ?_⟩, fun p hp => ?_, ?_, fun e he' => ?_, ?_⟩
  · rw [hcur, hids]
    exact hperm
  · rw [hopen]
    rfl
  · rw [hopen]
    exact Chunk.appendRecordSize_increasing (by simp [OpenChunk.fromFile]) (checkpoint_pos he)
  · rw [hopen]
    exact Nat.zero_lt_one
  · have hpk : p.1 ∈ k := hids ▸ List.mem_map_of_mem hp
    obtain ⟨-, L, hL, hst⟩ := hall p hp
    rw [hcur, hlog, inChunk_snoc_ne (Nat.ne_of_gt (hlt p.1 hpk)),
      inChunk_flatMap (hinc.imp Nat.ne_of_lt), if_pos hpk]
    exact ⟨hlt p.1 hpk, L, hL, hst⟩
  · have hend : acc.end_ ∉ k := fun hi => Nat.lt_irrefl _ (hlt _ hi)
    rw [hcur, hlog, inChunk_append, inChunk_flatMap (hinc.imp Nat.ne_of_lt), if_neg hend, hstate,
      List.nil_append, inChunk_self (e := (acc.head, acc.end_, _)) rfl]
    exact .checkpoint hrev
  · rw [hcur]
    rcases List.mem_append.1 (hlog ▸ he') with he' | he'
    · exact Nat.le_of_lt (hle e he')
    · obtain rfl := List.mem_singleton.1 he'
      exact Nat.le_refl _
  · rw [hlog]
    exact sorted_snoc (sorted_flatMap file hinc) fun e he => Nat.le_of_lt (hle e he)

end

/-- **An opening of a saved directory** matches its ledger. -/
theorem Saved.opened {st : sm.State} {fs : Fs} {o : Opened sm} {x : OpenState A C}
    (hrev : sm.Reverts) (h : Saved sm fs) (hrun : OpenRun config st (OpenState.init fs) (.ok o) x) :
    MatchesLedger o.wal [] (o.ledger x) ∧ x.fs.aliases = [] ∧ x.fs.dir.Nodup := by
  cases hrun with
  | @reopened k s₁ acc _ oc closed hv ht hr hl =>
    obtain ⟨c, hreads, hal, hdir, hmemdir⟩ := ht.left hr
    obtain ⟨-, -, -, -, happ, hcre⟩ := ht.replayed hr
    obtain ⟨⟨id, last⟩, hsplit, rfl⟩ := reopenLastClosed_concat hl
    refine ⟨hreads.matches_reopened (fun i hi => h.resumes i (hmemdir i hi) (hreads.records i hi))
      hdir ?_ rfl hsplit rfl, hal, hdir.nodup_iff.2 (hreads.increasing.1.imp Nat.ne_of_lt)⟩
    show x.applied ++ x.created = _
    rw [happ, hcre]
    simp [OpenState.init]
  | @created k s₁ acc s₂ n hv ht hr hl hm he =>
    obtain ⟨c, hreads, hal, hdir, hmemdir⟩ := ht.left hr
    obtain ⟨-, -, -, -, happ, -⟩ := ht.replayed hr
    have hnodup : (s₂.fs.dir ++ [acc.end_]).Nodup := by
      rw [← List.concat_eq_append]
      exact (hdir.nodup_iff.2 (hreads.increasing.1.imp Nat.ne_of_lt)).concat hm
    refine ⟨hreads.matches_created
      (fun i hi => h.resumes i (hmemdir i hi) (hreads.records i hi)) hrev he
      (hdir.append_right _) ?_ rfl rfl rfl, hal, hnodup⟩
    show s₂.applied ++ _ = _
    rw [happ]
    rfl

end

end Wal

import Wal.Memory

/-!
# What a crash leaves

`Survives` says what a crash may leave of the files of chunks that were written one after another:
whole files on stable storage, and a part of the last one. `Survives.recovers` replays such files:
the chunks that come back are a beginning of the log (`Recovery.before`), and no record is missing
whose bytes were left (`Recovery.kept`). An `Image` is a directory of such files, and of others
behind them that hold the beginning of a record at most; it opens (`Image.sound`).
-/

namespace Wal

section
variable {A C : Type}

/-- The state machine takes every record. -/
def StateMachine.Accepts (sm : StateMachine A C) : Prop :=
  ∀ st r id seg, ∃ st', sm.apply st r id seg = .ok st'

theorem StateMachine.Accepts.run {sm : StateMachine A C} (h : sm.Accepts)
    (es : List (LogEntry A C)) :
    ∀ st, ∃ st', sm.run st es = .ok st' := by
  induction es with
  | nil => exact fun st => ⟨st, rfl⟩
  | cons e es ih =>
    intro st
    obtain ⟨st₁, h₁⟩ := h st e.1 e.2.1 e.2.2
    obtain ⟨st', h'⟩ := ih st₁
    refine ⟨st', ?_⟩
    rw [StateMachine.run, h₁]
    exact h'

end

section
variable {A C : Type} [Crc32fast] [Encode A] [Encode C]

/-- **What a crash leaves of the files of chunks.** -/
inductive Survives (fs : Fs) : List (Part A C) → Prop
  | nil : Survives fs []
  | cut {p} (hp : (fs.file p.id).data <+: encAll p.records) : Survives fs [p]
  | whole {p ps} (hp : (fs.file p.id).data = encAll p.records)
      (hs : (fs.file p.id).data.length ≤ (fs.file p.id).synced) (hne : p.records ≠ [])
      (hn : ∀ q ∈ ps.head?, q.id = p.end_) (h : Survives fs ps) : Survives fs (p :: ps)

variable (A C) in
/-- Nothing, or the beginning of a record. -/
def Stub (data : Bytes) : Prop :=
  data = [] ∨ ∃ r : WALRecord A C, Encodes r ∧ data <+: enc r ∧ data ≠ enc r

/-- **A directory that a crash has left**, with the chunks that its files were written for. -/
structure Image (fs : Fs) (ps : List (Part A C)) : Prop where
  aliases : fs.aliases = []
  nodup : fs.dir.Nodup
  listed : ∀ p ∈ ps, p.id ∈ fs.dir ∧ fs.committed p.id = true
  stubs : ∀ i ∈ fs.dir, i ∉ ps.map (·.id) → Stub A C (fs.file i).data ∧ ∀ p ∈ ps, p.id < i
  increasing : (ps.map (·.id)).Pairwise (· < ·)
  encodes : ∀ p ∈ ps, ∀ r ∈ p.records, Encodes r
  survives : Survives fs ps

variable [Decode A] [Decode C]

/-- **The chunks that come back**: `c` is the one that is cut. -/
structure Recovery (fs : Fs) (ps ks : List (Part A C)) (c : Option Nat) : Prop where
  ids : ks.map (·.id) <+: ps.map (·.id)
  blank : ∀ p ∈ ps, p.id ∉ ks.map (·.id) → Blank A C (fs.file p.id).data p.id
  found : ∀ k ∈ ks, k.records ≠ [] ∧ recordsIn A C (fs.file k.id).data k.id = spelled 0 k.records ∧
    (fs.file k.id).data.take (recordsEnd A C (fs.file k.id).data k.id) = encAll k.records ∧
    (c ≠ some k.id → (fs.file k.id).data = encAll k.records)
  encodes : ∀ k ∈ ks, ∀ r ∈ k.records, Encodes r
  synced : ∀ k ∈ ks.dropLast, (fs.file k.id).data.length ≤ (fs.file k.id).synced
  chained : Tape.Chained (ks.map Part.spell)
  before : ∀ n, history (ks.drop n) <+: history (ps.drop n)
  kept : ∀ e ∈ history ps, e.end_ ≤ e.2.1 + (fs.file e.2.1).data.length → e ∈ history ks

variable {fs : Fs} {p : Part A C} {ps ks : List (Part A C)} {c : Option Nat}

omit [Decode A] [Decode C] in
theorem Stub.mono {data data' : Bytes} (h : Stub A C data) (hp : data' <+: data) :
    Stub A C data' := by
  rcases h with rfl | ⟨r, hr, hd, hne⟩
  · exact .inl (List.prefix_nil.1 hp)
  · refine .inr ⟨r, hr, hp.trans hd, fun he => hne ?_⟩
    exact hd.eq_of_length_le (he ▸ hp.length_le)

omit [Decode A] [Decode C] in
theorem chained_cons (hn : ∀ q ∈ ks.head?, q.id = p.end_) (hne : encAll p.records ≠ [])
    (h : Tape.Chained (ks.map Part.spell)) : Tape.Chained ((p :: ks).map Part.spell) := by
  refine List.isChain_cons.2 ⟨fun x hx => ?_, h⟩
  cases ks with
  | nil => cases hx
  | cons q ks =>
    cases hx
    exact ⟨hn q rfl, hne⟩

omit [Encode C] in
theorem blank_nil (id : Nat) : Blank A C [] id := by
  obtain ⟨err, hd, he⟩ := records_decodes A C [] id
  cases hd with
  | done => exact ⟨rfl, fun e he' => absurd (he.symm.trans he') (by simp)⟩
  | fail hne => exact absurd rfl hne

omit [Decode A] [Decode C] in
theorem Survives.begins (h : Survives fs ps) :
    ∀ p ∈ ps, (fs.file p.id).data <+: encAll p.records := by
  induction h with
  | nil => exact fun p hp => by cases hp
  | cut hp => exact fun q hq => List.mem_singleton.1 hq ▸ hp
  | whole hp hs hne hn h ih =>
    intro q hq
    rcases List.mem_cons.1 hq with rfl | hq
    · exact hp ▸ List.prefix_refl _
    · exact ih q hq

theorem Recovery.head (h : Recovery fs ps ks c) {k : Part A C} (hk : k ∈ ks.head?) :
    ∃ p ∈ ps.head?, p.id = k.id := by
  obtain ⟨rest, hids⟩ := h.ids
  cases ks with
  | nil => cases hk
  | cons k' ks =>
    cases hk
    cases ps with
    | nil => cases hids
    | cons p ps => exact ⟨p, rfl, (List.cons.inj hids).1.symm⟩

variable [WALRecord.LawfulAction A] [LawfulCodec C]

theorem encAll_ne_nil {rs : List (WALRecord A C)} (h : ∀ r ∈ rs, Encodes r) (hne : rs ≠ []) :
    encAll rs ≠ [] := by
  cases rs with
  | nil => exact absurd rfl hne
  | cons r rs =>
    intro he
    rw [encAll_cons, List.append_eq_nil_iff] at he
    exact LawfulRecord.enc_ne_nil (h r List.mem_cons_self) he.1

theorem lt_end_of_mem {e : LogEntry A C} (he : e ∈ p.entries) (h : ∀ r ∈ p.records, Encodes r) :
    p.id < e.end_ := by
  obtain ⟨h1, -, h3, -⟩ := mem_entries he
  have := List.length_pos_of_ne_nil (LawfulRecord.enc_ne_nil (h _ h1))
  show p.id < e.2.2.end_
  omega

/-- **A file that holds the first bytes of some records.** -/
theorem recordsIn_cut {rs : List (WALRecord A C)} (h : ∀ r ∈ rs, Encodes r) {data : Bytes}
    (hp : data <+: encAll rs) (id : Nat) : ∃ rs' rest t, rs = rs' ++ rest ∧ data = encAll rs' ++ t ∧
      Torn rest t ∧ recordsIn A C data id = spelled 0 rs' ∧ data.take (recordsEnd A C data id) =
        encAll rs' ∧
      TornError t (failureIn A C data id) := by
  obtain ⟨rs', rest, t, rfl, rfl, ht⟩ := exists_frame rs hp
  have hrs : ∀ r ∈ rs', Encodes r := fun r hr => h r (List.mem_append_left _ hr)
  obtain ⟨err, herr, hsplit⟩ := @splitItems_frame _ _ _ _ id _ _ _ hrs
    (fun r hr => h r (List.mem_append_right _ hr)) ht
  have hrec : recordsIn A C (encAll rs' ++ t) id = spelled 0 rs' := by rw [recordsIn, hsplit]
  refine ⟨rs', rest, t, rfl, rfl, ht, hrec, ?_, ?_⟩
  · rw [recordsEnd, hrec, lastEnd_spelled, Nat.zero_add, List.take_left]
  · rw [failureIn, hsplit]
    exact herr

theorem mem_entries_of_cut {rs rest : List (WALRecord A C)} {t : Bytes}
    (hrest : ∀ r ∈ rest, Encodes r) (ht : Torn rest t) {id : Nat} {e : LogEntry A C}
    (he : e ∈ entriesFrom id id (rs ++ rest)) (hle : e.end_ ≤ id + (encAll rs ++ t).length) :
    e ∈ entriesFrom id id rs := by
  rw [entriesFrom_append, List.mem_append] at he
  refine he.resolve_right fun he => ?_
  cases rest with
  | nil => cases he
  | cons r rest =>
    have h1 := head_le_of_mem_entriesFrom he
    have h2 := ht.length_lt (LawfulRecord.enc_ne_nil (hrest r List.mem_cons_self))
    rw [List.length_append] at hle
    have hle : e.2.2.end_ ≤ id + ((encAll rs).length + t.length) := hle
    omega

/-- What is torn has no record. -/
theorem Torn.blank {rest : List (WALRecord A C)} {t : Bytes} (h : Torn rest t)
    (hrest : ∀ r ∈ rest, Encodes r) (id : Nat) : Blank A C t id := by
  obtain ⟨err, herr, hsplit⟩ := @splitItems_frame (WALRecord A C) _ _ _ id [] rest t
    (fun _ hr => by cases hr) hrest h
  have hrec : recordsIn A C t id = [] := congrArg Prod.fst hsplit
  have hfail : failureIn A C t id = err := congrArg Prod.snd hsplit
  refine ⟨hrec, fun e he => .inl ?_⟩
  rcases herr with ⟨-, hn⟩ | ⟨-, e', he', hk⟩
  · exact absurd (hn.symm.trans (hfail.symm.trans he)) (by simp)
  · obtain rfl := Option.some.inj (he'.symm.trans (hfail.symm.trans he))
    exact hk

theorem Stub.blank {data : Bytes} (h : Stub A C data) (id : Nat) : Blank A C data id := by
  rcases h with rfl | ⟨r, hr, hd, hne⟩
  · exact blank_nil id
  · refine Torn.blank (.inr ⟨r, [], rfl, hd, hne⟩) (fun r' hr' => ?_) id
    exact List.mem_singleton.1 hr' ▸ hr

theorem Stub.of_cut {rs : List (WALRecord A C)} (h : ∀ r ∈ rs, Encodes r) {data : Bytes}
    (hp : data <+: encAll rs) {id : Nat} (hb : recordsIn A C data id = []) : Stub A C data := by
  obtain ⟨rs', rest, t, rfl, rfl, ht, hrec, -, -⟩ := recordsIn_cut h hp id
  obtain rfl : rs' = [] := spelled_eq_nil.1 (hrec.symm.trans hb)
  rcases ht with rfl | ⟨r, rest', rfl, ht, hne⟩
  · exact .inl rfl
  · exact .inr ⟨r, h r List.mem_cons_self, ht, hne⟩

variable {sm : StateMachine A C} {config : Config}

/-- **Files that survived are replayed.** -/
theorem Survives.recovers (hacc : sm.Accepts) (hcfg : config.truncateIncompleteRecord = true)
    (h : Survives fs ps) (henc : ∀ p ∈ ps, ∀ r ∈ p.records, Encodes r) :
    ∀ acc : Replay sm, (∀ p ∈ ps.head?, acc.Follows p.id) → ∃ ks acc' c,
      Reads config (fun i => (fs.file i).data) (ks.map (·.id)) acc acc' c ∧
        Recovery fs ps ks c := by
  induction h with
  | nil => exact fun acc _ => ⟨[], acc, none, .nil, ⟨List.prefix_refl _, by simp, by simp, by simp,
      by simp, .nil, fun _ => by simp, by simp⟩⟩
  | @cut p hp =>
    intro acc hf
    have hrs := henc p List.mem_cons_self
    obtain ⟨rs', rest, t, hsplit, hdata, ht, hrec, htake, herr⟩ := recordsIn_cut hrs hp p.id
    have hrest : ∀ r ∈ rest, Encodes r := fun r hr =>
      hrs r (hsplit ▸ List.mem_append_right _ hr)
    have hkept : ∀ e ∈ history [p], e.end_ ≤ e.2.1 + (fs.file e.2.1).data.length →
        e ∈ entriesFrom p.id p.id rs' := by
      intro e he hle
      rw [history_cons, history_nil, List.append_nil] at he
      rw [(mem_entries he).2.1, hdata] at hle
      rw [Part.entries, hsplit] at he
      exact mem_entries_of_cut hrest ht he hle
    rcases hcase : rs' with _ | ⟨r, rs⟩
    · have hnone : recordsIn A C (fs.file p.id).data p.id = [] := by
        rw [hrec, hcase]
        rfl
      refine ⟨[], acc, none, .nil,
        ⟨List.nil_prefix, fun q hq _ => ?_, by simp, by simp, by simp, .nil, fun n => by simp,
          fun e he hle => ?_⟩⟩
      · obtain rfl := List.mem_singleton.1 hq
        exact (Stub.of_cut hrs hp hnone).blank _
      · have := hkept e he hle
        rw [hcase] at this
        cases this
    have hne : rs' ≠ [] := by rw [hcase]; simp
    have hrne : recordsIn A C (fs.file p.id).data p.id ≠ [] := by
      rw [hrec, Ne, spelled_eq_nil]
      exact hne
    have hbefore : ∀ n, history ([({ id := p.id, records := rs' } : Part A C)].drop n) <+:
        history ([p].drop n) := by
      rintro (_ | n)
      · simp only [List.drop_zero, history_cons, history_nil, List.append_nil, Part.entries, hsplit,
          entriesFrom_append]
        exact List.prefix_append _ _
      · simp
    obtain ⟨st, hst⟩ := hacc.run (entriesIn A C (fs.file p.id).data p.id) acc.state
    have recovery : ∀ c, (c ≠ some p.id → t = []) → Recovery fs [p]
        [({ id := p.id, records := rs' } : Part A C)] c := by
      intro c hc
      refine ⟨List.prefix_refl _, fun q hq hn => ?_, fun k hk => ?_, fun k hk => ?_, by simp,
        List.isChain_singleton _, hbefore, fun e he hle => ?_⟩
      · obtain rfl := List.mem_singleton.1 hq
        exact absurd List.mem_cons_self hn
      · obtain rfl := List.mem_singleton.1 hk
        exact ⟨hne, hrec, htake, fun hc' => by rw [hdata, hc hc', List.append_nil]⟩
      · obtain rfl := List.mem_singleton.1 hk
        exact fun r hr => hrs r (hsplit ▸ List.mem_append_left _ hr)
      · simpa [Part.entries] using hkept e he hle
    rcases herr with ⟨htnil, hnone⟩ | ⟨htne, e, he, hk⟩
    · exact ⟨_, _, none, .whole (hf p rfl) hnone hrne hst .nil, recovery none fun _ => htnil⟩
    · refine ⟨_, _, some p.id, .cut (hf p rfl) ⟨by rw [hcfg]; rfl, e, he, .inl hk⟩ hrne hst,
        recovery _ fun hc => absurd rfl hc⟩
  | @whole p ps hp hs hne hn h ih =>
    intro acc hf
    have hrs := henc p List.mem_cons_self
    obtain ⟨hrec, hfail⟩ := recordsIn_encAll hrs p.id
    rw [← hp] at hrec hfail
    have hrne : recordsIn A C (fs.file p.id).data p.id ≠ [] := by
      rw [hrec, Ne, spelled_eq_nil]
      exact hne
    have hend : recordsEnd A C (fs.file p.id).data p.id = (encAll p.records).length := by
      rw [recordsEnd_eq hfail, hp]
    obtain ⟨st, hst⟩ := hacc.run (entriesIn A C (fs.file p.id).data p.id) acc.state
    obtain ⟨ks, acc', c, hreads, hrecov⟩ := ih (fun q hq => henc q (List.mem_cons_of_mem _ hq))
      (acc.next (fs.file p.id).data p.id none st) fun q hq e he => by
        cases he
        rw [hn q hq, hend]
        rfl
    refine ⟨p :: ks, acc', c, .whole (hf p rfl) hfail hrne hst hreads, ⟨?_, fun q hq hq' => ?_,
      fun k hk => ?_, fun k hk => ?_, fun k hk => ?_, ?_, fun n => ?_, fun e he hle => ?_⟩⟩
    · rw [List.map_cons, List.map_cons]
      exact (List.prefix_cons_inj _).2 hrecov.ids
    · rcases List.mem_cons.1 hq with rfl | hq
      · exact absurd List.mem_cons_self hq'
      · exact hrecov.blank q hq fun hm => hq' (List.mem_cons_of_mem _ hm)
    · rcases List.mem_cons.1 hk with rfl | hk
      · exact ⟨hne, hrec, by rw [hend, hp, List.take_length], fun _ => hp⟩
      · exact hrecov.found k hk
    · rcases List.mem_cons.1 hk with rfl | hk
      · exact hrs
      · exact hrecov.encodes k hk
    · cases ks with
      | nil => cases hk
      | cons k' ks =>
        rcases List.mem_cons.1 hk with rfl | hk
        · exact hs
        · exact hrecov.synced k hk
    · refine chained_cons (fun q hq => ?_) (encAll_ne_nil hrs hne) hrecov.chained
      obtain ⟨q', hq', hid⟩ := hrecov.head hq
      rw [← hid]
      exact hn q' hq'
    · rcases n with _ | n
      · rw [List.drop_zero, List.drop_zero, history_cons, history_cons]
        exact (List.prefix_append_right_inj _).2 (hrecov.before 0)
      · exact hrecov.before n
    · rw [history_cons, List.mem_append] at he ⊢
      exact he.imp_right fun he => hrecov.kept e he hle

/-- The files that an opening removes: those of chunks without a record, and the others. -/
def discarded (fs : Fs) (ps ks : List (Part A C)) : List Nat :=
  (ps.map (·.id)).drop ks.length ++
    (fs.dir.filter fun i => decide (i ∉ ps.map (·.id))).insertionSort (· ≤ ·)

omit [WALRecord.LawfulAction A] [LawfulCodec C] [Crc32fast] [Encode A] [Encode C] [Decode A]
  [Decode C] in
theorem mem_discarded {i : Nat} : i ∈ discarded fs ps ks ↔
    i ∈ (ps.map (·.id)).drop ks.length ∨ i ∈ fs.dir ∧ i ∉ ps.map (·.id) := by
  rw [discarded, List.mem_append, (List.perm_insertionSort _ _).mem_iff, List.mem_filter,
    decide_eq_true_iff]

/-- **What a crash has left opens**, to a beginning of the log. -/
theorem Image.sound (hacc : sm.Accepts) (hcfg : config.truncateIncompleteRecord = true)
    (h : Image fs ps) (st : sm.State) : ∃ ks acc c,
      Sound config st fs (ks.map (·.id)) (discarded fs ps ks) acc c ∧ Recovery fs ps ks c := by
  obtain ⟨ks, acc, c, hreads, hrecov⟩ := h.survives.recovers hacc hcfg h.encodes
    (Replay.start sm st) fun p _ e he => by cases he
  obtain ⟨rest, hrest⟩ := hrecov.ids
  have hdrop : (ps.map (·.id)).drop ks.length = rest := by
    rw [← hrest, List.drop_left' (List.length_map _)]
  have hinc := h.increasing
  refine ⟨ks, acc, c, ⟨h.aliases, h.nodup, ?_, fun i => ?_, fun i hi => ?_, hreads⟩, hrecov⟩
  · rw [discarded, hdrop, ← List.append_assoc, hrest]
    refine List.pairwise_append.2 ⟨hinc, ?_, fun i hi j hj => ?_⟩
    · have hsorted := List.pairwise_insertionSort (· ≤ ·)
        (fs.dir.filter fun i => decide (i ∉ ps.map (·.id)))
      have hnodup : ((fs.dir.filter fun i => decide (i ∉ ps.map (·.id))).insertionSort
          (· ≤ ·)).Nodup := (List.perm_insertionSort _ _).nodup_iff.2 (h.nodup.filter _)
      exact hsorted.imp₂ (fun _ _ hle hne => lt_of_le_of_ne hle hne) hnodup
    · obtain ⟨p, hp, rfl⟩ := List.mem_map.1 hi
      rw [(List.perm_insertionSort _ _).mem_iff, List.mem_filter, decide_eq_true_iff] at hj
      exact (h.stubs j hj.1 hj.2).2 p hp
  · rw [mem_discarded, hdrop, ← or_assoc, ← List.mem_append, hrest]
    refine ⟨fun hi => ?_, fun hi => ?_⟩
    · by_cases hm : i ∈ ps.map (·.id)
      · exact .inl hm
      · exact .inr ⟨hi, hm⟩
    · rcases hi with hi | hi
      · obtain ⟨p, hp, rfl⟩ := List.mem_map.1 hi
        exact (h.listed p hp).1
      · exact hi.1
  · rcases mem_discarded.1 hi with hi | hi
    · have hi' := List.mem_of_mem_drop hi
      obtain ⟨p, hp, rfl⟩ := List.mem_map.1 hi'
      refine hrecov.blank p hp fun hk => ?_
      rw [hdrop] at hi
      rw [← hrest, List.pairwise_append] at hinc
      exact absurd (hinc.2.2 p.id hk p.id hi) (Nat.lt_irrefl _)
    · exact (h.stubs i hi.1 hi.2).1.blank i

omit [WALRecord.LawfulAction A] [LawfulCodec C] in
/-- The log of a replay is that of the chunks that come back. -/
theorem Recovery.entries (h : Recovery fs ps ks c) :
    ((ks.map (·.id)).flatMap fun i => entriesIn A C (fs.file i).data i) = history ks := by
  unfold history
  rw [List.flatMap_map]
  refine List.flatMap_congr fun k hk => ?_
  exact entriesIn_of k.id (h.found k hk).2.1

end

end Wal

import Wal.Encoded

/-!
# Torn tails that are filled with zeros

A file system that writes the new length of a file before its data leaves a beginning of what was
written and zeros behind it. Recovery cuts such a tail where a record is short, or where nothing but
zeros follows. A record that is partly real and partly zero is neither: its decode fails with a
damage, and the opening with it. `openLocked_zeroFilled` says when a zero-filled tail is recovered.
-/

namespace Wal

/-! ## Zero-filled encodings -/

/-- A beginning of `bs` and zeros, and not the whole of it. -/
structure Filled (bs w : Bytes) : Prop where
  start : ∃ t z, t <+: bs ∧ w = t ++ List.replicate z 0
  torn : ¬ bs <+: w

theorem drop_filled (xs : Bytes) (n p z : Nat) :
    ∃ z', (xs.take p ++ List.replicate z 0).drop n = (xs.drop n).take (p - n) ++
      List.replicate z' 0 :=
  ⟨z - (n - (xs.take p).length), by rw [List.drop_append, List.drop_take, List.drop_replicate]⟩

section
variable {Rec : Type} [Encode Rec] {rs : List Rec} {data : Bytes} {p z : Nat}

theorem leftover_torn (hdata : data = (encAll rs).take p ++ List.replicate z 0)
    (hle : p + z ≤ (encAll rs).length) : ∃ rs₁ rest, rs = rs₁ ++ rest ∧
      data = encAll rs₁ ++ leftover rs data ∧ (rest = [] → leftover rs data = []) ∧
      (∀ r ∈ rest.head?, Filled (enc r) (leftover rs data)) ∧
      ∀ j, j ≤ rs.length → (encAll (rs.take j)).length ≤ p → j ≤ rs₁.length := by
  obtain ⟨rs₁, rest, hrs, hsplit, hnext⟩ := leftover_split rs data
  have hlen : data.length ≤ (encAll rs).length := by
    rw [hdata, List.length_append, List.length_take, List.length_replicate]
    omega
  refine ⟨rs₁, rest, hrs, hsplit, fun hrest => ?_, fun r hr => ⟨?_, hnext r hr⟩, fun j hj hp => ?_⟩
  · rw [hrest, List.append_nil] at hrs
    rw [hsplit, hrs, List.length_append] at hlen
    exact List.length_eq_zero_iff.1 (by rw [hrs]; omega)
  · obtain ⟨rest', rfl⟩ : ∃ rest', rest = r :: rest' := by
      cases rest with
      | nil => cases hr
      | cons r' rest' => cases hr; exact ⟨rest', rfl⟩
    have hdrop : leftover rs data = data.drop (encAll rs₁).length := by
      conv => rhs; rw [hsplit]
      rw [List.drop_left]
    obtain ⟨z', hz⟩ := drop_filled (encAll rs) (encAll rs₁).length p z
    have htail : (encAll rs).drop (encAll rs₁).length = enc r ++ encAll rest' := by
      rw [hrs, encAll_append, List.drop_left, encAll_cons]
    rw [← hdata, ← hdrop, htail] at hz
    by_cases hq : p - (encAll rs₁).length ≤ (enc r).length
    · rw [List.take_append_of_le_length hq] at hz
      exact ⟨_, z', List.take_prefix _ _, hz⟩
    · refine absurd ?_ (hnext r rfl)
      rw [hz]
      refine List.prefix_append_of_prefix (List.prefix_take_iff.2 ⟨List.prefix_append _ _, ?_⟩)
      omega
  · by_contra hlt
    obtain ⟨r, rest', rfl⟩ : ∃ r rest', rest = r :: rest' := by
      cases rest with
      | nil =>
        rw [hrs, List.append_nil] at hj
        omega
      | cons r rest' => exact ⟨r, rest', rfl⟩
    have htake : rs₁ ++ [r] <+: rs.take j := by
      rw [hrs, List.prefix_take_iff]
      refine ⟨⟨rest', by simp⟩, ?_⟩
      rw [List.length_append, List.length_singleton]
      omega
    have hall : encAll (rs.take j) <+: data := by
      rw [hdata]
      refine List.prefix_append_of_prefix (List.prefix_take_iff.2 ⟨?_, hp⟩)
      exact encAll_mono (List.take_prefix _ _)
    have := (encAll_mono htake).trans hall
    rw [hsplit, encAll_append, List.prefix_append_right_inj] at this
    refine hnext r rfl ?_
    simpa using this

end

section
variable {A C : Type} [Crc32fast] [Encode A] [Decode A] [Encode C] [Decode C]

/-- What detects a torn, zero-filled encoding: the action codec, and the checksum of a
checkpoint. -/
structure Sealed (rs : List (WALRecord A C)) : Prop where
  action : ∀ r ∈ rs, ∀ w, Filled (enc r) w → ofBe (w.take 4) ≠ CHECKPOINT_RECORD_TYPE →
    ∀ a : A, (decode w).1 ≠ .ok a
  checkpoint : ∀ r ∈ rs, ∀ w, Filled (enc r) w → ofBe (w.take 4) = CHECKPOINT_RECORD_TYPE →
    ∀ n, 4 ≤ n → n + 8 ≤ w.length → ofBe ((w.drop n).take 8) ≠ Crc32fast.crc (w.take n)

open WALRecord in
theorem Sealed.decode_error {rs : List (WALRecord A C)} (h : Sealed rs) {r : WALRecord A C}
    (hr : r ∈ rs) {w : Bytes} (hw : Filled (enc r) w) :
    ∃ e k, decode (α := WALRecord A C) w = (.error e, k) := by
  show ∃ e k, decodeRecord w = (.error e, k)
  unfold decodeRecord
  by_cases hl : w.length < 4
  · rw [if_pos hl]
    exact ⟨_, _, rfl⟩
  rw [if_neg hl]
  by_cases ht : ofBe (w.take 4) = CHECKPOINT_RECORD_TYPE
  · simp only [ne_eq, ht, not_true_eq_false, if_false, decodeCheckpoint]
    rcases hc : decode (α := C) (w.drop 4) with ⟨e | c, n⟩
    · exact ⟨_, _, rfl⟩
    · simp only
      by_cases hn : w.length < 4 + n + 8
      · rw [if_pos hn]
        exact ⟨_, _, rfl⟩
      · rw [if_neg hn, if_neg (h.checkpoint r hr w hw ht _ (by omega) (by omega))]
        exact ⟨_, _, rfl⟩
  · simp only [ne_eq, ht, not_false_eq_true, if_true, decodeAction]
    rcases ha : decode (α := A) w with ⟨e | a, n⟩
    · exact ⟨_, _, rfl⟩
    · exact absurd (by rw [ha]) (h.action r hr w hw ht a)

end

/-! ## Readable files -/

section
variable {A C : Type} [Crc32fast] [Encode A] [Decode A] [Decode C] {sm : StateMachine A C}
  {config : Config}

/-- The files of a replay that succeeds end behind a record, or are cut there. -/
theorem Reads.readable {file : Nat → Bytes} {ids : List Nat} {acc acc' : Replay sm} {c : Option Nat}
    (h : Reads config file ids acc acc' c) : ∀ i ∈ ids, failureIn A C (file i) i = none ∨
      Truncates A C (file i) i config true := by
  induction h with
  | nil => simp
  | whole hp hf hr ha h ih =>
    intro i hi
    rcases List.mem_cons.1 hi with rfl | hi
    · exact .inl hf
    · exact ih i hi
  | cut hp ht =>
    intro i hi
    rw [List.mem_singleton] at hi
    subst hi
    exact .inr ht

theorem Reads.snoc_cut {file : Nat → Bytes} {ids : List Nat} {acc acc' : Replay sm} {c : Option Nat}
    (h : Reads config file ids acc acc' c) (hc : c = none) {id : Nat} {st : sm.State}
    (hp : acc'.Follows id) (ht : Truncates A C (file id) id config true)
    (hr : recordsIn A C (file id) id ≠ [])
    (ha : sm.run acc'.state (entriesIn A C (file id) id) = .ok st) :
    Reads config file (ids ++ [id]) acc (acc'.next (file id) id (some (file id).length) st)
      (some id) := by
  induction h with
  | nil => exact .cut hp ht hr ha
  | whole hp' hf' hr' ha' h ih => exact .whole hp' hf' hr' ha' (ih hc hp ha)
  | cut => cases hc

section
variable {s s' : OpenState A C}

theorem Tidied.trail_subset {ids : List Nat} {r : Except IoError (List Nat)}
    (h : Tidied ids s r s') :
    s.trail ⊆ s'.trail := by
  induction h with
  | empty => exact List.Subset.refl _
  | complete => exact List.Subset.refl _
  | stopped => exact List.Subset.refl _
  | removed hm hb h ih =>
    exact fun v hv => ih (List.mem_append_left _ (List.mem_append_left _ hv))

/-- A trailing file that goes is missing from some directory on the way. -/
theorem Tidied.unlinked {ids : List Nat} {r : Except IoError (List Nat)} (h : Tidied ids s r s')
    {i : Nat} (hi : i ∈ s.fs.dir) (hn : i ∉ s'.fs.dir) : ∃ v ∈ s'.trail, i ∉ v.fs.dir := by
  induction h with
  | empty => exact absurd hi hn
  | complete => exact absurd hi hn
  | stopped => exact absurd hi hn
  | @removed id older s r s' hm hb h ih =>
    by_cases hid : i = id
    · subst hid
      refine ⟨(s.removed i).toOpenView, h.trail_subset (List.mem_append_right _ (by simp; rfl)), ?_⟩
      exact fun hmem => (Fs.mem_unlink.1 hmem).2 rfl
    · exact ih (Fs.mem_unlink.2 ⟨hi, hid⟩) hn

theorem Opens.trail_subset {allow : Bool} {id : Nat} {tr : Option Nat}
    (h : Opens config allow id s tr s') :
    s.trail ⊆ s'.trail := by
  cases h with
  | whole => exact List.Subset.refl _
  | cut => exact fun v hv => List.mem_append_left _ (List.mem_append_left _ hv)

theorem Replayed.trail_subset {tail : Option Nat} {ids : List Nat} {acc : Replay sm}
    {r : Except Fault (Replay sm)} (h : Replayed config tail ids acc s r s') :
    s.trail ⊆ s'.trail := by
  induction h with
  | nil => exact List.Subset.refl _
  | stopped => exact List.Subset.refl _
  | refused hp ho => exact fun v hv => List.mem_append_left _ (ho.trail_subset hv)
  | panicked hp ho => exact fun v hv => List.mem_append_left _ (ho.trail_subset hv)
  | step hp ho hr ha h ih => exact fun v hv => ih (List.mem_append_left _ (ho.trail_subset hv))

end

variable [Encode C]

/-- **A blank file is deleted** by an opening that succeeds. -/
theorem Sound.unlinked {st : sm.State} {s s' : OpenState A C} {kept removed : List Nat}
    {acc : Replay sm} {c : Option Nat} (h : Sound config st s.fs kept removed acc c) {o : Opened sm}
    (hrun : OpenRun config st s (.ok o) s') {i : Nat} (hi : i ∈ removed) :
    ∃ v ∈ s'.trail, i ∉ v.fs.dir := by
  have hgone : ∀ {k : List Nat} {s₁ : OpenState A C} {rr : Except Fault (Replay sm)}
    {s₂ : OpenState A C},
      Tidied (loadChunkIds s.fs).reverse s (.ok k) s₁ →
      Replayed config k.reverse.getLast? k.reverse (Replay.start sm st) s₁ rr s₂ →
      ∃ v ∈ s₂.trail, i ∉ v.fs.dir := by
    intro k s₁ rr s₂ ht hr
    obtain ⟨-, hdir, -⟩ := h.tidy.tidied ht
    obtain ⟨v, hv, hn⟩ := ht.unlinked ((h.mem i).2 (.inr hi)) (by
      rw [hdir, List.mem_filter]
      exact fun hm => of_decide_eq_true hm.2 hi)
    exact ⟨v, hr.trail_subset hv, hn⟩
  cases hrun with
  | reopened hv ht hr => exact hgone ht hr
  | created hv ht hr =>
    obtain ⟨v, hv, hn⟩ := hgone ht hr
    exact ⟨v, List.mem_append_left _ (List.mem_append_left _ (List.mem_append_left _ hv)), hn⟩

end

/-! ## The theorem -/

section
variable (A C : Type) [Crc32fast] [Encode A] [Decode A] [Encode C] [Decode C]

variable {A C} in
/-- A directory after a crash: the older chunks are intact, and of the records in the last one the
first `j` are there, and then a beginning of the others and zeros. -/
structure ZeroFilled (sm : StateMachine A C) (config : Config) (st : sm.State) (fs : Fs)
    (older : List Nat) (id : Nat) (acc : Replay sm) (rs : List (WALRecord A C)) (j : Nat) :
    Prop where
  valid : config.validate = .ok ()
  recovers : config.truncateIncompleteRecord = true
  aliases : fs.aliases = []
  nodup : fs.dir.Nodup
  increasing : (older ++ [id]).Pairwise (· < ·)
  mem : ∀ i, i ∈ fs.dir ↔ i ∈ older ∨ i = id
  intact : Reads config (fun i => (fs.file i).data) older (Replay.start sm st) acc none
  follows : acc.Follows id
  encodes : ∀ r ∈ rs, Encodes r
  durable : j ≤ rs.length
  image : ∃ p z, (encAll (rs.take j)).length ≤ p ∧ p + z ≤ (encAll rs).length ∧
    (fs.file id).data = (encAll rs).take p ++ List.replicate z 0
  accepted : ∃ st', sm.run acc.state (entriesFrom id id rs) = .ok st'
  fits : ∀ st', Encodes (WALRecord.checkpoint (sm.checkpoint st') : WALRecord A C)
  «sealed» : Sealed rs

variable {A C} in
/-- The opening succeeds and replays a number of records of the last chunk, the durable ones among
them. If there are none, the chunk is deleted. -/
def Recovers (sm : StateMachine A C) (config : Config) (st : sm.State) (fs : Fs) (older : List Nat)
    (id : Nat) (rs : List (WALRecord A C)) (j : Nat) : Prop :=
  ∃ o s', openLocked sm config st (OpenState.init fs) = .ok o s' ∧ ∃ m, j ≤ m ∧ m ≤ rs.length ∧
    s'.applied = (older.flatMap fun i => entriesIn A C (fs.file i).data i) ++
      entriesFrom id id (rs.take m) ∧
    (m = 0 → ∃ v ∈ s'.trail, id ∉ v.fs.dir)

/-- What follows the complete records is zeros, or decodes as a record that is short. -/
def CutAway (rest : Bytes) : Prop :=
  rest.all (· = 0) = true ∨
    ∃ e k, decode (α := WALRecord A C) rest = (.error e, k) ∧ e.kind = .unexpectedEof

variable {A C} [WALRecord.LawfulAction A] [LawfulCodec C] {sm : StateMachine A C} {config : Config}
    {st : sm.State}
  {fs : Fs} {older : List Nat} {id : Nat} {acc : Replay sm} {rs : List (WALRecord A C)} {j : Nat}

theorem ZeroFilled.last (h : ZeroFilled sm config st fs older id acc rs j) :
    ∃ rs₁ rest, rs = rs₁ ++ rest ∧
    j ≤ rs₁.length ∧ (fs.file id).data = encAll rs₁ ++ leftover rs (fs.file id).data ∧
    recordsIn A C (fs.file id).data id = spelled 0 rs₁ ∧
    recordsEnd A C (fs.file id).data id = (encAll rs₁).length ∧
    ((leftover rs (fs.file id).data = [] ∧ failureIn A C (fs.file id).data id = none) ∨
      ∃ e k e', leftover rs (fs.file id).data ≠ [] ∧
        decode (α := WALRecord A C) (leftover rs (fs.file id).data) = (.error e, k) ∧
        failureIn A C (fs.file id).data id = some e' ∧ e'.kind = e.kind) := by
  obtain ⟨p, z, hp, hz, himage⟩ := h.image
  obtain ⟨rs₁, rest, hrs, hsplit, hnil, htorn, hj⟩ := leftover_torn himage hz
  have henc : ∀ r ∈ rs₁, Encodes r :=
    fun r hr => h.encodes r (by rw [hrs]; exact List.mem_append_left _ hr)
  refine ⟨rs₁, rest, hrs, hj j h.durable hp, hsplit, ?_⟩
  by_cases hw : leftover rs (fs.file id).data = []
  · obtain ⟨h1, h2⟩ := recordsIn_encAll henc id
    rw [hw, List.append_nil] at hsplit
    rw [hsplit]
    refine ⟨h1, ?_, .inl ⟨?_, h2⟩⟩
    · rw [recordsEnd, h1, lastEnd_spelled, Nat.zero_add]
    · rw [← hsplit, hw]
  · obtain ⟨r, hr⟩ : ∃ r, rest.head? = some r := by
      cases rest with
      | nil => exact absurd (hnil rfl) hw
      | cons r _ => exact ⟨r, rfl⟩
    have hmem : r ∈ rs := by
      rw [hrs]
      exact List.mem_append_right _ (List.mem_of_head? hr)
    obtain ⟨e, k, hd⟩ := h.sealed.decode_error hmem (htorn r hr)
    obtain ⟨h1, h2, e', h3, h4⟩ := recordsIn_encoded henc id hw hd
    rw [← hsplit] at h1 h2 h3
    exact ⟨h1, h2, .inr ⟨e, k, e', hw, hd, h3, h4⟩⟩

/-- A chunk that is neither removed nor cut keeps the opening from succeeding. -/
theorem ZeroFilled.cutAway (h : ZeroFilled sm config st fs older id acc rs j) :
    Recovers sm config st fs older id rs j → CutAway A C (leftover rs (fs.file id).data) := by
  obtain ⟨rs₁, rest, hrs, hj, hsplit, hrec, hend, hfail⟩ := h.last
  obtain ⟨r, s', hrun, heq⟩ := openLocked_run config st (OpenState.init fs)
  rintro ⟨o, s'', ho, -⟩
  rw [heq] at ho
  rcases r with f | o'
  · cases ho
  cases ho
  obtain ⟨-, kept, removed, acc', c, hs⟩ := hrun.sound
  change Sound config st fs kept removed acc' c at hs
  rcases hfail with ⟨hw, -⟩ | ⟨e, k, e', hw, hd, hf, hk⟩
  · rw [hw]
    exact .inl rfl
  have hcut : e'.kind = .unexpectedEof ∨ (leftover rs (fs.file id).data).all (· = 0) = true := by
    rcases (hs.mem id).1 ((h.mem id).2 (.inr rfl)) with hm | hm
    · rcases hs.reads.readable id hm with hn | ⟨-, e'', he, hz⟩
      · rw [show failureIn A C _ id = some e' from hf] at hn
        cases hn
      · rw [show failureIn A C _ id = some e' from hf] at he
        cases he
        refine hz.imp_right fun hz => ?_
        rw [show recordsEnd A C _ id = _ from hend] at hz
        change ((fs.file id).data.drop _).all _ = true at hz
        rw [hsplit, List.drop_left] at hz
        exact hz
    · obtain ⟨hnil, hb⟩ := hs.blank id hm
      refine (hb e' hf).imp_right fun hz => ?_
      have hrs₁ : rs₁ = [] := spelled_eq_nil.1 (hrec.symm.trans hnil)
      change ((fs.file id).data).all _ = true at hz
      rw [hsplit, hrs₁] at hz
      exact hz
  rcases hcut with hcut | hz
  · exact .inr ⟨e, k, hd, hk ▸ hcut⟩
  · exact .inl hz

theorem ZeroFilled.recovers_of_cutAway (h : ZeroFilled sm config st fs older id acc rs j)
    (hcut : CutAway A C (leftover rs (fs.file id).data)) :
    Recovers sm config st fs older id rs j := by
  obtain ⟨rs₁, rest, hrs, hj, hsplit, hrec, hend, hfail⟩ := h.last
  obtain ⟨r, s', hrun, heq⟩ := openLocked_run config st (OpenState.init fs)
  have hkind : ∀ e', failureIn A C (fs.file id).data id = some e' → e'.kind = .unexpectedEof ∨
      (leftover rs (fs.file id).data).all (· = 0) = true := by
    intro e' he'
    rcases hfail with ⟨-, hn⟩ | ⟨e, k, e'', hw, hd, hf, hk⟩
    · rw [hn] at he'
      cases he'
    rw [hf] at he'
    cases he'
    rcases hcut with hz | ⟨e₀, k₀, hd₀, hk₀⟩
    · exact .inr hz
    · rw [hd] at hd₀
      cases hd₀
      exact .inl (hk.trans hk₀)
  have htake : rs.take rs₁.length = rs₁ := by rw [hrs, List.take_left]
  have hrs₁le : rs₁.length ≤ rs.length := by
    rw [hrs, List.length_append]
    omega
  have hentries : entriesIn A C (fs.file id).data id = entriesFrom id id rs₁ := entriesIn_of id hrec
  obtain ⟨st₁, hst₁⟩ : ∃ st₁, sm.run acc.state (entriesFrom id id rs₁) = .ok st₁ := by
    obtain ⟨st', hst'⟩ := h.accepted
    rw [hrs, entriesFrom_append, StateMachine.run_append] at hst'
    rcases hrun₁ : sm.run acc.state (entriesFrom id id rs₁) with m | st₁
    · rw [hrun₁] at hst'
      cases hst'
    · exact ⟨st₁, rfl⟩
  have hopens : ∀ {kept removed acc' c}, Sound config st fs kept removed acc' c →
      (kept = older ∧ rs₁ = [] ∧ id ∈ removed) ∨ kept = older ++ [id] ∧ rs₁ ≠ [] →
      Recovers sm config st fs older id rs j := by
    intro kept removed acc' c hs hkept
    obtain ⟨o, rfl, -, happ⟩ := Sound.opens (s := OpenState.init fs) hs h.valid
      (fun _ => h.fits acc'.state) hrun
    refine ⟨o, s', heq, rs₁.length, hj, hrs₁le, ?_, fun hm => ?_⟩
    · rw [happ, htake]
      rcases hkept with ⟨rfl, rfl, -⟩ | ⟨rfl, -⟩
      · rw [entriesFrom, List.append_nil]
        rfl
      · rw [List.flatMap_append, List.flatMap_singleton]
        show [] ++ (_ ++ entriesIn A C (fs.file id).data id) = _
        rw [hentries]
        rfl
    · rcases hkept with ⟨-, -, hrem⟩ | ⟨-, hne⟩
      · exact Sound.unlinked (s := OpenState.init fs) hs hrun hrem
      · exact absurd (List.length_eq_zero_iff.1 hm) hne
  by_cases hnil : rs₁ = []
  · refine @hopens older [id] acc none ⟨h.aliases, h.nodup, h.increasing, fun i => ?_,
      fun i hi => ?_, h.intact⟩ (.inl ⟨rfl, hnil, by simp⟩)
    · rw [h.mem, List.mem_singleton]
    · rw [List.mem_singleton] at hi
      subst hi
      refine ⟨by rw [hrec, hnil]; rfl, fun e' he' => (hkind e' he').imp_right fun hz => ?_⟩
      rw [hsplit, hnil]
      exact hz
  · have hne : recordsIn A C (fs.file id).data id ≠ [] := by
      rw [hrec]
      exact fun hs => hnil (spelled_eq_nil.1 hs)
    have hsound : ∀ {acc' c}, Reads config (fun i => (fs.file i).data) (older ++ [id])
        (Replay.start sm st) acc' c → Recovers sm config st fs older id rs j := by
      intro acc' c hr
      refine @hopens (older ++ [id]) [] acc' c ⟨h.aliases, h.nodup, ?_, fun i => ?_, by simp, hr⟩
        (.inr ⟨rfl, hnil⟩)
      · rw [List.append_nil]
        exact h.increasing
      · rw [h.mem]
        simp
    rw [← hentries] at hst₁
    rcases hf : failureIn A C (fs.file id).data id with _ | e'
    · exact hsound (h.intact.snoc rfl h.follows hf hne hst₁)
    · refine hsound
        (h.intact.snoc_cut rfl h.follows ⟨?_, e', hf, (hkind e' hf).imp_right fun hz => ?_⟩
        hne hst₁)
      · rw [h.recovers]
        rfl
      · show ((fs.file id).data.drop (recordsEnd A C (fs.file id).data id)).all _ = true
        rw [hend, hsplit, List.drop_left]
        exact hz

/-- **When a zero-filled tail is recovered**: if and only if what follows the last complete record
is zeros, or its decode says that it is short. -/
theorem openLocked_zeroFilled (h : ZeroFilled sm config st fs older id acc rs j) :
    Recovers sm config st fs older id rs j ↔ CutAway A C (leftover rs (fs.file id).data) :=
  ⟨h.cutAway, h.recovers_of_cutAway⟩

end

/-! ## A record of which one byte is missing -/

/-- A payload of one byte with a check byte behind it. -/
structure Checked where
  value : UInt8
  deriving DecidableEq, Repr

namespace Checked

instance : Encode Checked where
  encode c := (be 4 0 ++ [c.value, 255 - c.value], .ok 6)
  typeId _ := some 0

def decodeChecked (b : Bytes) : Except IoError Checked × Nat :=
  match b with
  | _ :: _ :: _ :: _ :: v :: x :: _ =>
    if x = 255 - v then (.ok { value := v }, 6) else (.error WALRecord.badChecksum, 6)
  | _ => (.error WALRecord.shortRead, b.length)

instance : Decode Checked where
  decode := decodeChecked
  consumed_le b := by
    unfold decodeChecked
    split
    · split <;> simp
    · simp

instance : WALRecord.LawfulAction Checked where
  size_eq := by
    intro c n h
    cases h
    rfl
  decode_enc := by
    intro c _ rest
    show decodeChecked _ = _
    simp [decodeChecked, enc, encode, be]
  decode_prefix := by
    intro c _ bs hp hne
    refine ⟨WALRecord.shortRead, ?_, rfl⟩
    have hl : bs.length < 6 := lt_of_le_of_ne hp.length_le fun hl => hne (hp.eq_of_length hl)
    match bs, hl with
    | [], _ | [_], _ | [_, _], _ | [_, _, _], _ | [_, _, _, _], _ | [_, _, _, _, _], _ => rfl
    | _ :: _ :: _ :: _ :: _ :: _ :: _, hl => simp at hl; omega
  typeId_prefix := by
    intro c t _ ht
    cases ht
    exact ⟨by decide, [c.value, 255 - c.value], rfl⟩

def machine : StateMachine Checked Register where
  State := Register
  apply _ r _ _ :=
    match r with
    | .action c => .ok { value := c.value }
    | .checkpoint c => .ok c
  checkpoint := id

/-- The only record of the WAL. -/
def first : WALRecord Checked Register := .checkpoint { value := 0 }

/-- All of it but its last byte. -/
def zeroFilledDir : Fs where
  dir := [0]
  aliases := []
  committed := fun _ => true
  file := fun _ => FileData.append .empty ((enc first).take 12 ++ [0])

theorem enc_first : enc first = [0, 0, 0, 5, 0, 0, 0, 0, 0, 0, 0, 0, 5] := by decide +kernel

/-- A torn, zero-filled copy of it is zeros, or lacks the checksum. -/
theorem filled_first {w : Bytes} (h : Filled (enc first) w) :
    (∃ n, w = List.replicate n 0) ∨ ∃ n, w = [0, 0, 0, 5] ++ List.replicate n 0 := by
  obtain ⟨⟨t, z, ht, rfl⟩, htorn⟩ := h
  obtain ⟨n, rfl⟩ : ∃ n, t = (enc first).take n := ⟨_, List.prefix_iff_eq_take.1 ht⟩
  rw [enc_first] at htorn ⊢
  by_cases h3 : n ≤ 3
  · refine .inl ⟨n + z, ?_⟩
    rw [List.replicate_add]
    interval_cases n <;> rfl
  by_cases h12 : n ≤ 12
  · refine .inr ⟨n - 4 + z, ?_⟩
    rw [List.replicate_add]
    interval_cases n <;> rfl
  · refine absurd ?_ htorn
    rw [List.take_of_length_le (show _ ≤ n by simp only [List.length_cons, List.length_nil]; omega)]
    exact List.prefix_append _ _

theorem ofBe_zeros (n : Nat) : ofBe (List.replicate n 0) = 0 := by
  induction n with
  | zero => rfl
  | succ n ih =>
    rw [List.replicate_succ, ofBe, ih]
    simp

theorem sealed_first : Sealed [first] where
  action := by
    intro r hr w hw ht a
    rw [List.mem_singleton] at hr
    subst hr
    rcases filled_first hw with ⟨n, rfl⟩ | ⟨n, rfl⟩
    · show (decodeChecked (List.replicate n 0)).1 ≠ _
      rcases n with _ | _ | _ | _ | _ | _ | n <;> simp [List.replicate_succ, decodeChecked]
    · refine absurd ?_ ht
      rw [List.take_append_of_le_length (Nat.le_refl 4)]
      decide
  checkpoint := by
    intro r hr w hw ht n hn hlen
    rw [List.mem_singleton] at hr
    subst hr
    rcases filled_first hw with ⟨k, rfl⟩ | ⟨k, rfl⟩
    · rw [List.take_replicate, ofBe_zeros] at ht
      cases ht
    · obtain ⟨m, rfl⟩ := Nat.exists_eq_add_of_le hn
      have h1 : ([0, 0, 0, 5] ++ List.replicate k (0 : UInt8)).drop (4 + m) =
        List.replicate (k - m) 0 := by
        rw [List.drop_append, List.drop_eq_nil_of_le (by simp)]
        simp
      have h2 : ([0, 0, 0, 5] ++ List.replicate k (0 : UInt8)).take (4 + m) =
          [0, 0, 0, 5] ++ List.replicate (min m k) 0 := by
        rw [List.take_append, List.take_of_length_le (by simp)]
        simp
      rw [h1, h2, List.take_replicate, ofBe_zeros]
      show 0 ≠ _ % _
      simp

theorem zeroFilledDir_spec : ZeroFilled machine Register.config { value := 0 } zeroFilledDir [] 0
    (Replay.start machine { value := 0 }) [first] 0 where
  valid := rfl
  recovers := rfl
  aliases := rfl
  nodup := by decide
  increasing := by decide
  mem := by
    intro i
    show i ∈ [0] ↔ _
    simp
  intact := .nil
  follows := fun _ h => nomatch h
  encodes := by
    intro r hr
    rw [List.mem_singleton] at hr
    subst hr
    exact ⟨13, rfl⟩
  durable := Nat.zero_le _
  image := ⟨12, 1, by decide, by decide +kernel, by decide +kernel⟩
  accepted := ⟨_, rfl⟩
  fits := fun st => ⟨13, rfl⟩
  «sealed» := sealed_first

/-- The opening fails, with all of the record but its last byte in the file. -/
theorem zeroFilled_refused : ZeroFilled machine Register.config { value := 0 } zeroFilledDir [] 0
      (Replay.start machine { value := 0 }) [first] 0 ∧
    ¬ Recovers machine Register.config { value := 0 } zeroFilledDir [] 0 [first] 0 := by
  refine ⟨zeroFilledDir_spec, ?_⟩
  have herr : (match openLocked machine Register.config { value := 0 }
    (OpenState.init zeroFilledDir) with
    | .ok _ _ => true
    | .error _ _ => false) = false := by decide +kernel
  rintro ⟨o, s', h, -⟩
  rw [h] at herr
  cases herr

theorem openLocked_zeroFilled_first :
    Recovers machine Register.config { value := 0 } zeroFilledDir [] 0 [first] 0 ↔
      CutAway Checked Register (leftover [first] (zeroFilledDir.file 0).data) :=
  openLocked_zeroFilled zeroFilledDir_spec

end Checked

end Wal

import Wal.ZeroFilled

/-!
# A flipped bit in a checkpoint

The first record of a chunk is a checkpoint, and a checksum covers its type id and payload. The type
id chooses the decoder before the checksum is read, so a flip there hands the bytes of the
checkpoint to the action codec, and a flip in a length of the payload moves the checksum.
`openLocked_flipped` says over which directories the opening fails after a flip, and that a flip
which leaves the length alone never passes as a checkpoint.
-/

namespace Wal

/-! ## One bit -/

/-- The two differ in one bit of one byte. -/
def OneBit (b b' : Bytes) : Prop := ∃ pre x post k, k < 8 ∧ b = pre ++ x :: post ∧
  b' = pre ++ (x ^^^ (1 <<< UInt8.ofNat k)) :: post

theorem OneBit.length_eq {b b' : Bytes} (h : OneBit b b') : b'.length = b.length := by
  obtain ⟨pre, x, post, k, -, rfl, rfl⟩ := h
  simp

theorem OneBit.append {a b w : Bytes} (h : OneBit (a ++ b) w) :
    (∃ a', OneBit a a' ∧ w = a' ++ b) ∨ ∃ b', OneBit b b' ∧ w = a ++ b' := by
  obtain ⟨pre, x, post, k, hk, hab, rfl⟩ := h
  rcases List.append_eq_append_iff.1 hab with ⟨t, rfl, rfl⟩ | ⟨t, rfl, ht⟩
  · exact .inr ⟨_, ⟨t, x, post, k, hk, rfl, rfl⟩, by rw [List.append_assoc]⟩
  · rcases t with _ | ⟨y, t⟩
    · refine .inr ⟨_, ⟨[], x, post, k, hk, ?_, rfl⟩, by simp⟩
      exact ht.symm
    · cases ht
      exact .inl ⟨_, ⟨pre, x, t, k, hk, rfl, rfl⟩, by simp⟩

theorem flip_ne (x : UInt8) {k : Nat} (hk : k < 8) : x ^^^ (1 <<< UInt8.ofNat k) ≠ x := by
  intro h
  have h0 : (1 : UInt8) <<< UInt8.ofNat k = 0 := by
    have := congrArg (x ^^^ ·) h
    simpa only [← UInt8.xor_assoc, UInt8.xor_self, UInt8.zero_xor] using this
  interval_cases k <;> exact absurd h0 (by decide)

theorem ofBe_inj_at {pre post : Bytes} {x y : UInt8}
    (h : ofBe (pre ++ x :: post) = ofBe (pre ++ y :: post)) : x = y := by
  induction pre with
  | nil =>
    simp only [List.nil_append, ofBe, Nat.add_right_cancel_iff] at h
    exact UInt8.toNat_inj.1 (Nat.eq_of_mul_eq_mul_right (Nat.pow_pos (by decide)) h)
  | cons b pre ih =>
    simp only [List.cons_append, ofBe, List.length_append, List.length_cons,
      Nat.add_left_cancel_iff] at h
    exact ih h

theorem OneBit.ofBe_ne {b b' : Bytes} (h : OneBit b b') : ofBe b' ≠ ofBe b := by
  obtain ⟨pre, x, post, k, hk, rfl, rfl⟩ := h
  exact fun h => flip_ne x hk (ofBe_inj_at h)

section
variable {A C : Type} [Crc32fast] [Encode A] [Decode A] [Encode C] [Decode C]

open WALRecord in
/-- **A flipped checkpoint** does not decode as a checkpoint record of its length. -/
theorem OneBit.not_checkpoint
    (hcrc : ∀ b b', OneBit b b' → Crc32fast.crc b ≠ Crc32fast.crc b') {c : C}
    (he : Encodes (.checkpoint c : WALRecord A C)) {w : Bytes}
    (hw : OneBit (enc (.checkpoint c : WALRecord A C)) w) {rest : Bytes} {c' : C} {k : Nat}
    (hd : decode (w ++ rest) = (.ok (.checkpoint c' : WALRecord A C), k)) :
    k ≠ (enc (.checkpoint c : WALRecord A C)).length := by
  rintro rfl
  have henc := (encodes_checkpoint he).2
  have hsum : (checksum (checkpointBody c)).length = 8 := be_length _ _
  have hdec : decodeRecord (A := A) (w ++ rest) =
    (.ok (.checkpoint c'), (checkpointBody c ++ checksum (checkpointBody c)).length) := by
    rw [← henc]
    exact hd
  unfold decodeRecord at hdec
  split at hdec
  · cases hdec
  simp only at hdec
  split at hdec
  · -- the action decoder yields no checkpoint
    unfold decodeAction at hdec
    rcases ha : decode (α := A) (w ++ rest) with ⟨e | a, n⟩ <;> rw [ha] at hdec
    · cases hdec
    · simp only at hdec
      split at hdec
      · cases hdec
      · split at hdec <;> cases hdec
  · unfold decodeCheckpoint at hdec
    rcases hc : decode (α := C) ((w ++ rest).drop 4) with ⟨e | c₁, n⟩ <;> rw [hc] at hdec
    · cases hdec
    simp only at hdec
    split at hdec
    · cases hdec
    split at hdec
    · rename_i hmatch
      have hk := (Prod.mk.inj hdec).2
      have hn : 4 + n = (checkpointBody c).length := by
        rw [List.length_append, hsum] at hk
        omega
      have hlt : Crc32fast.crc (checkpointBody c) < 256 ^ 8 :=
        Nat.lt_trans (Crc32fast.crc_lt _) (by decide)
      rw [henc] at hw
      rw [hn] at hmatch
      rcases hw.append with ⟨body, hb, rfl⟩ | ⟨sum, hs, rfl⟩
      · rw [List.append_assoc, ← hb.length_eq, List.drop_left, List.take_left,
          List.take_append_of_le_length (Nat.le_of_eq hsum.symm),
          List.take_of_length_le (Nat.le_of_eq hsum), checksum, ofBe_be_of_lt hlt] at hmatch
        exact hcrc _ _ hb hmatch
      · have hl : sum.length = 8 := hs.length_eq.trans hsum
        rw [List.append_assoc, List.drop_left, List.take_left,
          List.take_append_of_le_length (Nat.le_of_eq hl.symm),
          List.take_of_length_le (Nat.le_of_eq hl)] at hmatch
        refine hs.ofBe_ne ?_
        rw [hmatch, checksum, ofBe_be_of_lt hlt]
    · cases hdec

end

/-! ## Replays of a part of the files -/

section
variable {A C : Type} [Crc32fast] [Encode A] [Decode A] [Decode C] {sm : StateMachine A C}
  {config : Config} {file : Nat → Bytes} {ids older newer : List Nat} {acc acc' : Replay sm}
  {c : Option Nat}

/-- A replay that goes on has read the files before as a whole. -/
theorem Reads.split (hne : newer ≠ []) : ∀ {older : List Nat} {acc : Replay sm},
    Reads config file (older ++ newer) acc acc' c →
    ∃ acc₁, Reads config file older acc acc₁ none ∧ Reads config file newer acc₁ acc' c
  | [], acc, h => ⟨acc, .nil, h⟩
  | id :: older, acc, h => by
    generalize hl : id :: older ++ newer = l at h
    cases h with
    | nil => cases hl
    | whole hp hf hr ha h =>
      cases hl
      obtain ⟨acc₁, h1, h2⟩ := Reads.split hne h
      exact ⟨acc₁, .whole hp hf hr ha h1, h2⟩
    | cut =>
      obtain ⟨-, hl⟩ := List.cons.inj hl
      exact absurd (List.append_eq_nil_iff.1 hl).2 hne

theorem Reads.join {acc₁ : Replay sm} {c₁ : Option Nat} (h : Reads config file older acc acc₁ c₁)
    (hc : c₁ = none) (h' : Reads config file newer acc₁ acc' c) :
    Reads config file (older ++ newer) acc acc' c := by
  induction h with
  | nil => exact h'
  | whole hp hf hr ha h ih => exact .whole hp hf hr ha (ih hc h')
  | cut => cases hc

theorem Reads.run (h : Reads config file ids acc acc' c) :
    sm.run acc.state (ids.flatMap fun i => entriesIn A C (file i) i) = .ok acc'.state := by
  induction h with
  | nil => rfl
  | whole hp hf hr ha h ih =>
    rw [List.flatMap_cons, StateMachine.run_append, ha]
    exact ih
  | cut hp ht hr ha =>
    rw [List.flatMap_singleton]
    exact ha

/-- The same files are read from another state, if the machine accepts them there. -/
theorem Reads.restate (h : Reads config file ids acc acc' c) {acc₁ : Replay sm}
    (he : acc₁.prevEndOffset = acc.prevEndOffset) {st : sm.State}
    (hrun : sm.run acc₁.state (ids.flatMap fun i => entriesIn A C (file i) i) = .ok st) :
    ∃ acc₂, Reads config file ids acc₁ acc₂ c := by
  induction h generalizing acc₁ with
  | nil => exact ⟨acc₁, .nil⟩
  | @whole id ids acc st' acc' c hp hf hr ha h ih =>
    rw [List.flatMap_cons, StateMachine.run_append] at hrun
    rcases ha₁ : sm.run acc₁.state (entriesIn A C (file id) id) with m | st₁
    · rw [ha₁] at hrun
      cases hrun
    · rw [ha₁] at hrun
      have hp₁ : acc₁.Follows id := fun e hpe => hp e (by rw [← he]; exact hpe)
      have hnext : (acc₁.next (file id) id none st₁).prevEndOffset =
          (acc.next (file id) id none st').prevEndOffset := rfl
      obtain ⟨acc₂, h₂⟩ := ih hnext hrun
      exact ⟨acc₂, .whole hp₁ hf hr ha₁ h₂⟩
  | @cut id acc st' hp ht hr ha =>
    rw [List.flatMap_singleton] at hrun
    exact ⟨_, .cut (fun e hpe => hp e (by rw [← he]; exact hpe)) ht hr hrun⟩

end

theorem recordsIn_ne_nil {A C : Type} [Crc32fast] [Encode A] [Decode A] [Decode C] {data : Bytes}
    {id : Nat} (hne : data ≠ []) (hf : failureIn A C data id = none) :
    recordsIn A C data id ≠ [] := by
  intro hnil
  have := recordsEnd_eq hf
  rw [recordsEnd, hnil] at this
  exact hne (List.length_eq_zero_iff.1 this.symm)

/-! ## Openings that fail without a panic -/

section
variable {A C : Type} [Crc32fast] [Encode A] [Decode A] [Decode C] {sm : StateMachine A C}
  {config : Config} {t : Nat} {ids : List Nat} {acc : Replay sm} {s s' : OpenState A C} {f : Fault}

theorem Replayed.io (h : Replayed config (some t) ids acc s (.error f) s') (hle : ∀ i ∈ ids, i ≤ t)
    (hr : ∀ i ∈ ids, recordsIn A C (s.fs.file i).data i = [] →
      failureIn A C (s.fs.file i).data i ≠ none ∧ i ≠ t) : ∃ e, f = .io e := by
  generalize hres : (.error f : Except Fault (Replay sm)) = r at h
  induction h with
  | nil => cases hres
  | stopped h =>
    cases hres
    exact ⟨_, rfl⟩
  | refused =>
    cases hres
    exact ⟨_, rfl⟩
  | @panicked id ids acc s tr s₁ hp ho hnil =>
    obtain ⟨hf, hne⟩ := hr id List.mem_cons_self hnil
    cases ho with
    | whole hm hf' => exact absurd hf' hf
    | cut hm ht => exact absurd ht.tail_eq hne
  | @step id ids acc s tr s₁ st r s' hp ho hrec ha h ih =>
    cases ho with
    | whole hm hf =>
      exact ih (fun i hi => hle i (List.mem_cons_of_mem _ hi))
        (fun i hi => hr i (List.mem_cons_of_mem _ hi)) hres
    | cut hm ht =>
      have heq : id = t := ht.tail_eq
      have hpos := recordsEnd_pos hrec
      -- nothing can follow the last file
      have hbehind : ∀ i, i ∈ ids → ¬ Replay.Follows
          (acc.next (s.fs.file id).data id (some (s.fs.file id).data.length) st) i := by
        intro i hi hf
        have h1 := hf _ rfl
        have h2 := hle i (List.mem_cons_of_mem _ hi)
        omega
      cases h with
      | nil => cases hres
      | stopped =>
        cases hres
        exact ⟨_, rfl⟩
      | refused hp' => exact absurd hp' (hbehind _ List.mem_cons_self)
      | panicked hp' => exact absurd hp' (hbehind _ List.mem_cons_self)
      | step hp' => exact absurd hp' (hbehind _ List.mem_cons_self)

variable [Encode C] {st : sm.State}

theorem OpenRun.io {r : Except Fault (Opened sm)} (h : OpenRun config st s r s')
    (hr : ∀ kept removed, Tidy A C s.fs kept removed → ∀ i ∈ kept,
      recordsIn A C (s.fs.file i).data i = [] → failureIn A C (s.fs.file i).data i ≠ none) :
    (∃ o, r = .ok o) ∨ ∃ e, r = .error (.io e) := by
  cases h with
  | invalid => exact .inr ⟨_, rfl⟩
  | untidy => exact .inr ⟨_, rfl⟩
  | @failed k s₁ f s' hv ht hrep =>
    obtain ⟨removed, htidy, -, hfile, -⟩ := ht.tidy
    rcases hlast : k.reverse.getLast? with _ | t
    · rw [List.getLast?_eq_none_iff] at hlast
      rw [hlast] at hrep
      cases hrep
    · rw [hlast] at hrep
      obtain ⟨e, rfl⟩ := hrep.io (le_tail htidy.listed hlast) fun i hi hnil => by
        rw [hfile] at hnil ⊢
        refine ⟨hr _ _ htidy i hi hnil, ?_⟩
        rintro rfl
        exact (htidy.last i hlast).2 hnil
      exact .inr ⟨e, rfl⟩
  | reopened => exact .inl ⟨_, rfl⟩
  | blocked => exact .inr ⟨_, rfl⟩
  | unencoded => exact .inr ⟨_, rfl⟩
  | created => exact .inl ⟨_, rfl⟩

end

/-! ## The theorem -/

section
variable {A C : Type} [Crc32fast] [Encode A] [Decode A] [Encode C] [Decode C]

/-- A directory that opens, and one of its chunks, with the records that the WAL wrote. -/
structure WithChunk (sm : StateMachine A C) (config : Config) (st : sm.State) (fs : Fs)
    (older : List Nat) (id : Nat) (newer removed : List Nat) (acc acc' : Replay sm) (c : Option Nat)
    (first : C) (rs : List (WALRecord A C)) : Prop where
  valid : config.validate = .ok ()
  sound : Sound config st fs (older ++ id :: newer) removed acc' c
  before : Reads config (fun i => (fs.file i).data) older (Replay.start sm st) acc none
  encodes : ∀ r ∈ .checkpoint first :: rs, Encodes r
  data : (fs.file id).data = encAll (.checkpoint first :: rs)
  fits : ∀ st', Encodes (.checkpoint (sm.checkpoint st') : WALRecord A C)

/-- The same directory with one bit of the initial checkpoint of that chunk flipped. -/
structure Flipped (fs fs' : Fs) (id : Nat) (first : C) (rs : List (WALRecord A C)) (w : Bytes) :
    Prop where
  dir : fs'.dir = fs.dir
  aliases : fs'.aliases = fs.aliases
  other : ∀ i, i ≠ id → (fs'.file i).data = (fs.file i).data
  bit : OneBit (enc (.checkpoint first : WALRecord A C)) w
  data : (fs'.file id).data = w ++ encAll rs

/-- The flip goes unnoticed: the file decodes to its end, and the machine accepts the log with the
records that are in it now; or it is the last chunk with records, and what is left of it is cut or
removed. -/
def Unnoticed (sm : StateMachine A C) (config : Config) (file : Nat → Bytes) (id : Nat)
    (newer : List Nat) (acc : Replay sm) (data : Bytes) : Prop :=
  (failureIn A C data id = none ∧ ∃ st, sm.run acc.state
    (entriesIn A C data id ++ newer.flatMap fun i => entriesIn A C (file i) i) = .ok st) ∨
  newer = [] ∧ (Blank A C data id ∨
    Truncates A C data id config true ∧ ∃ st, sm.run acc.state (entriesIn A C data id) = .ok st)

section
variable {sm : StateMachine A C} {config : Config} {st : sm.State} {fs fs' : Fs} {older : List Nat}
  {id : Nat} {newer removed : List Nat} {acc acc' : Replay sm} {c : Option Nat} {first : C}
  {rs : List (WALRecord A C)} {w : Bytes}

omit [Crc32fast] [Encode C] in
theorem distinct_chunk {ids : List Nat} (h : (older ++ id :: newer ++ ids).Pairwise (· < ·)) :
    id ∉ older ∧ id ∉ newer ∧ id ∉ ids := by
  rw [List.append_assoc, List.cons_append, List.pairwise_append, List.pairwise_cons] at h
  refine ⟨fun hi => ?_, fun hi => ?_, fun hi => ?_⟩
  · exact Nat.lt_irrefl _ (h.2.2 id hi id List.mem_cons_self)
  · exact Nat.lt_irrefl _ (h.2.1.1 id (List.mem_append_left _ hi))
  · exact Nat.lt_irrefl _ (h.2.1.1 id (List.mem_append_right _ hi))

theorem WithChunk.kept (h : WithChunk sm config st fs older id newer removed acc acc' c first rs)
    (hf : Flipped fs fs' id first rs w) {kept' removed' : List Nat}
    (ht : Tidy A C fs' kept' removed') :
    kept' = older ++ id :: newer ∨ newer = [] ∧ kept' = older ∧
      Blank A C (fs'.file id).data id := by
  have hlist : kept' ++ removed' = older ++ id :: newer ++ removed := by
    have h1 : loadChunkIds fs' = loadChunkIds fs := by
      unfold loadChunkIds
      rw [hf.dir, hf.aliases]
    rw [← ht.listed, h1, h.sound.tidy.listed]
  obtain ⟨hold, hnew, hrem⟩ := distinct_chunk h.sound.increasing
  have hsame : ∀ {i}, i ≠ id → (fs'.file i).data = (fs.file i).data := fun hi => hf.other _ hi
  have hrec : ∀ i ∈ older ++ id :: newer, i ≠ id → recordsIn A C (fs'.file i).data i ≠ [] := by
    intro i hi hne
    rw [hsame hne]
    exact h.sound.reads.records i hi
  rcases List.append_eq_append_iff.1 hlist with ⟨t, hk, hr⟩ | ⟨t, hk, hr⟩
  · -- the files of `t` are removed
    have hblank : ∀ i ∈ t, Blank A C (fs'.file i).data i := fun i hi =>
      (ht.blank i (by rw [hr]; exact List.mem_append_left _ hi)).2
    have hid : ∀ i ∈ t, i = id := by
      intro i hi
      by_contra hne
      exact hrec i (by rw [hk]; exact List.mem_append_right _ hi) hne (hblank i hi).1
    rcases List.eq_nil_or_concat t with rfl | ⟨t, x, rfl⟩
    · exact .inl (by rw [hk, List.append_nil])
    · rw [List.concat_eq_append] at hk hid hblank
      obtain rfl := hid x (by simp)
      rcases List.eq_nil_or_concat newer with rfl | ⟨newer, y, rfl⟩
      · have hk' : older ++ [x] = (kept' ++ t) ++ [x] := by rw [hk, List.append_assoc]
        have hold' := List.append_cancel_right hk'
        have ht : t = [] := by
          rw [List.eq_nil_iff_forall_not_mem]
          intro i hi
          refine hold ?_
          rw [hold', ← hid i (List.mem_append_left _ hi)]
          exact List.mem_append_right _ hi
        rw [ht, List.append_nil] at hold'
        exact .inr ⟨rfl, hold'.symm, hblank x (by simp)⟩
      · rw [List.concat_eq_append] at hk hnew
        have hy : y = x := by
          have := congrArg List.getLast? hk
          rw [← List.cons_append, ← List.append_assoc, ← List.append_assoc,
            List.getLast?_concat, List.getLast?_concat] at this
          exact Option.some.inj this
        exact absurd (by rw [hy]; simp) hnew
  · -- the files of `t` would be left
    rcases List.eq_nil_or_concat t with rfl | ⟨t, x, rfl⟩
    · exact .inl (by rw [hk, List.append_nil])
    · rw [List.concat_eq_append] at hk hr
      have hx : x ∈ removed := by
        rw [hr]
        simp
      have hlast : kept'.getLast? = some x := by
        rw [hk, ← List.append_assoc, List.getLast?_concat]
      have hne : x ≠ id := fun he => hrem (he ▸ hx)
      have := (ht.last x hlast).2
      rw [hsame hne] at this
      exact absurd (h.sound.blank x hx).1 this

theorem WithChunk.chunk [WALRecord.LawfulAction A] [LawfulCodec C]
    (h : WithChunk sm config st fs older id newer removed acc acc' c first rs) :
    acc.Follows id ∧ ∃ st₁, sm.run acc.state (entriesIn A C (fs.file id).data id) = .ok st₁ ∧
      (newer = [] ∨ Reads config (fun i => (fs.file i).data) newer
        (acc.next (fs.file id).data id none st₁) acc' c) := by
  obtain ⟨acc₁, h1, h2⟩ := h.sound.reads.split (List.cons_ne_nil _ _)
  obtain rfl := h.before.unique h1
  cases h2 with
  | @whole _ _ _ st₁ _ _ hp hf hr ha h2 => exact ⟨hp, st₁, ha, .inr h2⟩
  | @cut _ _ st₁ hp ht hr ha => exact ⟨hp, st₁, ha, .inl rfl⟩

variable [WALRecord.LawfulAction A] [LawfulCodec C]

/-- Where the chunk ends, before and after a flip that leaves no error. -/
theorem WithChunk.recordsEnd_eq
    (h : WithChunk sm config st fs older id newer removed acc acc' c first rs)
    (hf : Flipped fs fs' id first rs w) (hfail : failureIn A C (fs'.file id).data id = none) :
    recordsEnd A C (fs'.file id).data id = recordsEnd A C (fs.file id).data id := by
  have horig : failureIn A C (fs.file id).data id = none := by
    rw [h.data]
    exact (recordsIn_encAll h.encodes id).2
  rw [Wal.recordsEnd_eq hfail, Wal.recordsEnd_eq horig, hf.data, h.data, encAll_cons,
    List.length_append, List.length_append, hf.bit.length_eq]

theorem WithChunk.data_ne_nil
    (h : WithChunk sm config st fs older id newer removed acc acc' c first rs)
    (hf : Flipped fs fs' id first rs w) : (fs'.file id).data ≠ [] := by
  have hl := hf.bit.length_eq
  rw [hf.data]
  intro he
  rw [(List.append_eq_nil_iff.1 he).1] at hl
  exact LawfulRecord.enc_ne_nil (h.encodes _ List.mem_cons_self) (List.length_eq_zero_iff.1 hl.symm)

theorem WithChunk.opens (h : WithChunk sm config st fs older id newer removed acc acc' c first rs)
    (hf : Flipped fs fs' id first rs w)
    (hu : Unnoticed sm config (fun i => (fs.file i).data) id newer acc (fs'.file id).data) :
    ∃ kept removed acc'' c', Sound config st fs' kept removed acc'' c' := by
  obtain ⟨hold, hnew, hrem⟩ := distinct_chunk h.sound.increasing
  have hbefore : Reads config (fun i => (fs'.file i).data) older (Replay.start sm st) acc none :=
    h.before.congr fun i hi => hf.other i fun he => hold (he ▸ hi)
  obtain ⟨hp, st₁, ha, hnewer⟩ := h.chunk
  have hsound : ∀ {acc'' c'}, Reads config (fun i => (fs'.file i).data) (older ++ id :: newer)
      (Replay.start sm st) acc'' c' →
        Sound config st fs' (older ++ id :: newer) removed acc'' c' := by
    intro acc'' c' hr
    refine ⟨hf.aliases.trans h.sound.aliases, by rw [hf.dir]; exact h.sound.nodup,
      h.sound.increasing, fun i => by rw [hf.dir]; exact h.sound.mem i, fun i hi => ?_, hr⟩
    rw [hf.other i fun he => hrem (he ▸ hi)]
    exact h.sound.blank i hi
  have hblank : newer = [] → Blank A C (fs'.file id).data id →
      Sound config st fs' older (id :: removed) acc none := by
    rintro rfl hb
    refine ⟨hf.aliases.trans h.sound.aliases, by rw [hf.dir]; exact h.sound.nodup, ?_, fun i => ?_,
      fun i hi => ?_, hbefore⟩
    · have := h.sound.increasing
      rwa [List.append_assoc] at this
    · rw [hf.dir, h.sound.mem]
      simp [or_assoc]
    · rcases List.mem_cons.1 hi with rfl | hi
      · exact hb
      · rw [hf.other i fun he => hrem (he ▸ hi)]
        exact h.sound.blank i hi
  have hdata := h.data_ne_nil hf
  rcases hu with ⟨hfail, st', hrun⟩ | ⟨rfl, hb | ⟨ht, st', hrun⟩⟩
  · have hrec := recordsIn_ne_nil hdata hfail
    rw [StateMachine.run_append] at hrun
    rcases ha' : sm.run acc.state (entriesIn A C (fs'.file id).data id) with m | st₂
    · rw [ha'] at hrun
      cases hrun
    rw [ha'] at hrun
    have hone : Reads config (fun i => (fs'.file i).data) [id] acc
        (acc.next (fs'.file id).data id none st₂) none := .whole hp hfail hrec ha' .nil
    rcases hnewer with rfl | hnewer
    · exact ⟨_, _, _, _, hsound (hbefore.join rfl hone)⟩
    · have hend : (acc.next (fs'.file id).data id none st₂).prevEndOffset =
          (acc.next (fs.file id).data id none st₁).prevEndOffset := by
        show some (id + _) = some (id + _)
        rw [h.recordsEnd_eq hf hfail]
      obtain ⟨acc'', h2⟩ := hnewer.restate hend hrun
      have h3 : Reads config (fun i => (fs'.file i).data) newer
          (acc.next (fs'.file id).data id none st₂) acc'' c :=
        h2.congr fun i hi => hf.other i fun he => hnew (he ▸ hi)
      exact ⟨_, _, _, _, hsound (hbefore.join rfl (hone.join rfl h3))⟩
  · exact ⟨_, _, _, _, hblank rfl hb⟩
  · by_cases hrec : recordsIn A C (fs'.file id).data id = []
    · obtain ⟨-, e, he, hz⟩ := ht
      refine ⟨_, _, _, _, hblank rfl ⟨hrec, fun e' he' => ?_⟩⟩
      rw [he] at he'
      cases he'
      rwa [recordsEnd, hrec] at hz
    · exact ⟨_, _, _, _, hsound (hbefore.join rfl (.cut hp ht hrec hrun))⟩

omit [WALRecord.LawfulAction A] [LawfulCodec C] in
/-- If the directory still opens, the flip has gone unnoticed. -/
theorem WithChunk.unnoticed
    (h : WithChunk sm config st fs older id newer removed acc acc' c first rs)
    (hf : Flipped fs fs' id first rs w) {kept' removed' : List Nat} {acc'' : Replay sm}
    {c' : Option Nat} (hs : Sound config st fs' kept' removed' acc'' c') :
    Unnoticed sm config (fun i => (fs.file i).data) id newer acc (fs'.file id).data := by
  obtain ⟨hold, hnew, hrem⟩ := distinct_chunk h.sound.increasing
  rcases h.kept hf hs.tidy with rfl | ⟨hn, -, hb⟩
  · obtain ⟨acc₁, h1, h2⟩ := hs.reads.split (List.cons_ne_nil _ _)
    have hbefore : Reads config (fun i => (fs'.file i).data) older (Replay.start sm st) acc none :=
      h.before.congr fun i hi => hf.other i fun he => hold (he ▸ hi)
    obtain rfl := hbefore.unique h1
    have hrun := h2.run
    rw [List.flatMap_cons] at hrun
    cases h2 with
    | whole hp hfail hr ha h2 =>
      refine .inl ⟨hfail, acc''.state, ?_⟩
      have hcongr : (newer.flatMap fun i => entriesIn A C (fs'.file i).data i) =
          newer.flatMap fun i => entriesIn A C (fs.file i).data i :=
        List.flatMap_congr fun i hi => by rw [hf.other i fun he => hnew (he ▸ hi)]
      rw [hcongr] at hrun
      exact hrun
    | cut hp ht hr ha => exact .inr ⟨rfl, .inr ⟨ht, _, ha⟩⟩
  · exact .inr ⟨hn, .inl hb⟩

/-- **When a flipped bit is caught**: over a directory that opens, with one bit of the initial
checkpoint of a chunk flipped, the opening fails if and only if the flip does not go unnoticed; and
however the bytes decode then, they are no checkpoint record of the same length. -/
theorem openLocked_flipped
    (h : WithChunk sm config st fs older id newer removed acc acc' c first rs)
    (hf : Flipped fs fs' id first rs w)
    (hcrc : ∀ b b', OneBit b b' → Crc32fast.crc b ≠ Crc32fast.crc b') :
    ((∃ e s', openLocked sm config st (OpenState.init fs') = .error (.io e) s') ↔
      ¬ Unnoticed sm config (fun i => (fs.file i).data) id newer acc (fs'.file id).data) ∧
    ∀ c' k, decode (fs'.file id).data = (.ok (.checkpoint c' : WALRecord A C), k) →
      k ≠ (enc (.checkpoint first : WALRecord A C)).length := by
  obtain ⟨r, s', hrun, heq⟩ := openLocked_run config st (OpenState.init fs')
  refine ⟨⟨fun ⟨e, s₁, he⟩ hu => ?_, fun hu => ?_⟩, fun c' k hd => ?_⟩
  · obtain ⟨kept', removed', acc'', c', hs⟩ := h.opens hf hu
    obtain ⟨o, rfl, -⟩ := Sound.opens (s := OpenState.init fs') hs h.valid (fun _ => h.fits _) hrun
    rw [heq] at he
    cases he
  · have hio := hrun.io fun kept' removed' ht i hi hnil hfail => by
      change recordsIn A C (fs'.file i).data i = [] at hnil
      change failureIn A C (fs'.file i).data i = none at hfail
      by_cases hid : i = id
      · subst hid
        exact recordsIn_ne_nil (h.data_ne_nil hf) hfail hnil
      · rw [hf.other i hid] at hnil
        refine h.sound.reads.records i ?_ hnil
        rcases h.kept hf ht with rfl | ⟨-, rfl, -⟩
        · exact hi
        · exact List.mem_append_left _ hi
    rcases hio with ⟨o, rfl⟩ | ⟨e, rfl⟩
    · obtain ⟨-, kept', removed', acc'', c', hs⟩ := hrun.sound
      exact absurd (h.unnoticed hf hs) hu
    · exact ⟨e, s', heq⟩
  · rw [hf.data] at hd
    exact hf.bit.not_checkpoint hcrc (h.encodes _ List.mem_cons_self) hd

end

end

/-! ## A codec without a checksum -/

/-- Nine bytes behind a type id. -/
structure Nine where
  bytes : Bytes
  length : bytes.length = 9

namespace Nine

instance : Encode Nine where
  encode n := (be 4 4 ++ n.bytes, .ok 13)
  typeId _ := some 4

theorem enc_eq (n : Nine) : enc n = [0, 0, 0, 4] ++ n.bytes := rfl

def decodeNine (b : Bytes) : Except IoError Nine × Nat :=
  if h : 13 ≤ b.length then
    (.ok {
      bytes := (b.drop 4).take 9
      length := by rw [List.length_take, List.length_drop]; omega }, 13)
  else (.error WALRecord.shortRead, b.length)

instance : Decode Nine where
  decode := decodeNine
  consumed_le b := by
    unfold decodeNine
    split
    · assumption
    · exact Nat.le_refl _

theorem length_enc (n : Nine) : (enc n).length = 13 := by
  rw [enc_eq, List.length_append, n.length]
  rfl

instance : WALRecord.LawfulAction Nine where
  size_eq := by
    intro n k h
    cases h
    exact n.length_enc.symm
  decode_enc := by
    intro n _ rest
    have hl : 13 ≤ (enc n ++ rest).length := by
      rw [List.length_append, n.length_enc]
      exact Nat.le_add_right _ _
    have hbytes : ((enc n ++ rest).drop 4).take 9 = n.bytes := by
      rw [enc_eq, List.append_assoc, List.drop_append_of_le_length (Nat.le_refl 4)]
      show (n.bytes ++ rest).take 9 = n.bytes
      rw [← n.length, List.take_left]
    show decodeNine _ = _
    rw [n.length_enc, decodeNine, dif_pos hl]
    obtain ⟨bytes, hb⟩ := n
    simp only [hbytes]
  decode_prefix := by
    intro n _ bs hp hne
    refine ⟨WALRecord.shortRead, ?_, rfl⟩
    have hl : bs.length < 13 :=
      lt_of_le_of_ne (n.length_enc ▸ hp.length_le) fun hl =>
      hne (hp.eq_of_length (hl.trans n.length_enc.symm))
    show (decodeNine bs).1 = _
    rw [decodeNine, dif_neg (by omega)]
  typeId_prefix := by
    intro n t _ ht
    cases ht
    exact ⟨by decide, n.bytes, rfl⟩

def machine : StateMachine Nine Register where
  State := Register
  apply _ r _ _ :=
    match r with
    | .action n => .ok { value := n.bytes.headD 0 }
    | .checkpoint c => .ok c
  checkpoint := id

def ones : Nine := { bytes := List.replicate 9 1, length := rfl }

/-- A checkpoint and an action, and in the next chunk a checkpoint. -/
def written : Fs where
  dir := [0, 26]
  aliases := []
  committed := fun _ => true
  file := fun i => FileData.append .empty
    (if i = 0 then encAll [.checkpoint { value := 0 }, (.action ones : WALRecord Nine Register)]
      else enc (.checkpoint { value := 1 } : WALRecord Nine Register))

/-- The first checkpoint with the lowest bit of its type id flipped. -/
def flippedFirst : Bytes := [0, 0, 0, 4, 0, 0, 0, 0, 0, 0, 0, 0, 5]

def flipped : Fs where
  dir := [0, 26]
  aliases := []
  committed := fun _ => true
  file := fun i => FileData.append .empty
    (if i = 0 then flippedFirst ++ encAll [(.action ones : WALRecord Nine Register)]
      else enc (.checkpoint { value := 1 } : WALRecord Nine Register))

/-- The replay of the first chunk, and of both. -/
def afterFirst : Replay machine :=
  (Replay.start machine { value := 0 }).next (written.file 0).data 0 none { value := 1 }

def afterBoth : Replay machine := afterFirst.next (written.file 26).data 26 none { value := 1 }

theorem encodes (r : WALRecord Nine Register) : Encodes r := by
  cases r with
  | action n => exact ⟨13, rfl⟩
  | checkpoint c => exact ⟨13, rfl⟩

theorem written_spec : WithChunk machine Register.config { value := 0 } written [] 0 [26] []
    (Replay.start machine { value := 0 }) afterBoth none { value := 0 } [.action ones] := by
  have h0 : recordsIn Nine Register (written.file 0).data 0 =
        spelled 0 [.checkpoint { value := 0 }, .action ones] ∧
      failureIn Nine Register (written.file 0).data 0 = none :=
        recordsIn_encAll (fun r _ => encodes r) 0
  have h1 : recordsIn Nine Register (written.file 26).data 26 =
        [({ offset := 0, size := 13 }, .checkpoint { value := 1 })] ∧
      failureIn Nine Register (written.file 26).data 26 = none := recordsIn_single (encodes _) 26
  have ha0 : machine.run (Replay.start machine { value := 0 }).state
      (entriesIn Nine Register (written.file 0).data 0) = .ok { value := 1 } := by
    unfold entriesIn
    rw [h0.1]
    rfl
  have ha1 : machine.run afterFirst.state (entriesIn Nine Register (written.file 26).data 26) =
      .ok { value := 1 } := by
    unfold entriesIn
    rw [h1.1]
    rfl
  have hfirst : Reads Register.config (fun i => (written.file i).data) [0]
    (Replay.start machine { value := 0 })
      afterFirst none :=
    .whole (fun _ h => nomatch h) h0.2 (fun hn => nomatch h0.1.symm.trans hn) ha0 .nil
  have hsecond : Reads Register.config (fun i => (written.file i).data) [26] afterFirst
    afterBoth none := by
    refine .whole (fun e he => ?_) h1.2 (fun hn => nomatch h1.1.symm.trans hn) ha1 .nil
    have hend : recordsEnd Nine Register (written.file 0).data 0 = 26 := recordsEnd_eq h0.2
    change some (0 + recordsEnd Nine Register (written.file 0).data 0) = some e at he
    rw [hend] at he
    exact (Option.some.inj he).symm
  refine ⟨rfl, ⟨rfl, by decide, by decide, fun i => ?_, by simp, hfirst.join rfl hsecond⟩, .nil,
    fun r _ => encodes r, rfl, fun _ => encodes _⟩
  show i ∈ [0, 26] ↔ i ∈ [0, 26] ∨ i ∈ ([] : List Nat)
  simp

theorem flipped_spec : Flipped written flipped 0 ({ value := 0 } : Register)
    [(.action ones : WALRecord Nine Register)] flippedFirst where
  dir := rfl
  aliases := rfl
  other := by
    intro i hi
    show (FileData.append .empty _).data = (FileData.append .empty _).data
    rw [if_neg hi, if_neg hi]
  bit := ⟨[0, 0, 0], 5, [0, 0, 0, 0, 0, 0, 0, 0, 5], 0, by decide, by decide +kernel, by decide⟩
  data := rfl

/-- The opening takes the checkpoint for an action. -/
theorem flipped_opens : WithChunk machine Register.config { value := 0 } written [] 0 [26] []
      (Replay.start machine { value := 0 }) afterBoth none { value := 0 } [.action ones] ∧
    Flipped written flipped 0 ({ value := 0 } : Register) [(.action ones : WALRecord Nine Register)]
      flippedFirst ∧
    ∃ o s', openLocked machine Register.config { value := 0 } (OpenState.init flipped) =
      .ok o s' := by
  have hok : (match openLocked machine Register.config { value := 0 } (OpenState.init flipped) with
    | .ok _ _ => true
    | .error _ _ => false) = true := by decide +kernel
  refine ⟨written_spec, flipped_spec, ?_⟩
  rcases hrun : openLocked machine Register.config { value := 0 } (OpenState.init flipped) with
    ⟨o, s'⟩ | ⟨e, s'⟩
  · exact ⟨o, s', rfl⟩
  · rw [hrun] at hok
    cases hok

theorem crc_oneBit (b b' : Bytes) (h : OneBit b b') : Crc32fast.crc b ≠ Crc32fast.crc b' := by
  obtain ⟨pre, x, post, k, hk, rfl, rfl⟩ := h
  intro heq
  change (List.map UInt8.toNat _).sum % 2 ^ 32 = (List.map UInt8.toNat _).sum % 2 ^ 32 at heq
  simp only [List.map_append, List.map_cons, List.sum_append, List.sum_cons] at heq
  have h1 := x.toNat_lt
  have h2 := (x ^^^ (1 <<< UInt8.ofNat k)).toNat_lt
  refine flip_ne x hk (UInt8.toNat_inj.1 ?_)
  omega

theorem openLocked_flipped_first :
    ((∃ e s', openLocked machine Register.config { value := 0 } (OpenState.init flipped) =
      .error (.io e) s') ↔
      ¬ Unnoticed machine Register.config (fun i => (written.file i).data) 0 [26]
        (Replay.start machine { value := 0 }) (flipped.file 0).data) ∧
    ∀ c' k, decode (flipped.file 0).data = (.ok (.checkpoint c' : WALRecord Nine Register), k) →
      k ≠ (enc (.checkpoint { value := 0 } : WALRecord Nine Register)).length :=
  openLocked_flipped written_spec flipped_spec crc_oneBit

end Nine

end Wal

import Wal.FailStop
import Wal.Readable

/-!
# What the worker announces

The notifications of a session. `Place` is what decides the next one: whether the file under
construction was announced up to its end, and the checkpoint it still lacks. `Story` says what holds
of the effects of a session; each part of a batch continues it (`Story.batch`).
-/

namespace Wal

open Lib

section
variable {A C Cb : Type}

/-! ## Reading the effects -/

/-- The calls of `on_chunk_persisted`. -/
def notes (es : List (Effect C Cb)) : List (ChunkPersisted × Option C) :=
  es.filterMap fun
    | .persisted p c => some (p, c)
    | _ => none

/-- The file that is written to behind the effects. -/
def fileBehind : Nat → List (Effect C Cb) → Nat
  | cur, [] => cur
  | _, .appendFile f :: es => fileBehind f es
  | cur, _ :: es => fileBehind cur es

/-- The files that follow one another in the effects. -/
def turnsIn : Nat → List (Effect C Cb) → List (Nat × Nat)
  | _, [] => []
  | cur, .appendFile f :: es => (cur, f) :: turnsIn f es
  | cur, _ :: es => turnsIn cur es

/-- The contents of a file behind the effects, from those in front of them. -/
def bytesBehind (base : Nat → Bytes) (es : List (Effect C Cb)) (f : Nat) : Bytes :=
  base f ++ bytesFor f (landing es)

/-- Neither a write, nor a notification, nor a new file. -/
def Effect.isQuiet : Effect C Cb → Bool
  | .append .. | .persisted .. | .appendFile _ => false
  | _ => true

variable {es es' : List (Effect C Cb)}

@[simp] theorem notes_nil : notes ([] : List (Effect C Cb)) = [] := rfl

@[simp] theorem notes_append : notes (es ++ es') = notes es ++ notes es' := List.filterMap_append

@[simp] theorem fileBehind_append (cur : Nat) :
    fileBehind cur (es ++ es') = fileBehind (fileBehind cur es) es' := by
  induction es generalizing cur with
  | nil => rfl
  | cons e es ih => cases e <;> exact ih _

theorem split_single {pre post : List (Effect C Cb)} {e x : Effect C Cb}
    (h : es ++ [x] = pre ++ e :: post) :
    (∃ post', es = pre ++ e :: post') ∨ pre = es ∧ e = x := by
  rcases split_append h with h' | ⟨pre', rfl, h'⟩
  · exact .inl h'
  · rcases List.append_eq_singleton_iff.1 h'.symm with ⟨rfl, he⟩ | ⟨-, he⟩
    · exact .inr ⟨List.append_nil _, (List.cons.inj he).1⟩
    · cases he

theorem turnsIn_append (cur : Nat) :
    turnsIn cur (es ++ es') = turnsIn cur es ++ turnsIn (fileBehind cur es) es' := by
  induction es generalizing cur with
  | nil => rfl
  | cons e es ih =>
    cases e with
    | appendFile f => exact congrArg _ (ih f)
    | _ => exact ih cur

theorem turnsIn_eq_nil (h : ∀ e ∈ es, ∀ f, e ≠ .appendFile f) (cur : Nat) :
    turnsIn cur es = [] := by
  induction es with
  | nil => rfl
  | cons e es ih =>
    obtain ⟨he, hes⟩ := List.forall_mem_cons.1 h
    cases e with
    | appendFile f => exact absurd rfl (he f)
    | _ => exact ih hes

theorem mem_notes {n : ChunkPersisted × Option C} : n ∈ notes es ↔ .persisted n.1 n.2 ∈ es := by
  unfold notes
  rw [List.mem_filterMap]
  constructor
  · rintro ⟨e, he, hn⟩
    cases e <;> cases hn
    exact he
  · intro h
    exact ⟨_, h, rfl⟩

theorem quiet_notes (h : ∀ e ∈ es, e.isQuiet = true) : notes es = [] := by
  refine List.filterMap_eq_nil_iff.2 fun e he => ?_
  have := h e he
  cases e <;> first | rfl | cases this

theorem quiet_landing (h : ∀ e ∈ es, e.isQuiet = true) : landing es = [] := by
  refine landing_eq_nil fun e he f bs hn => ?_
  have := h e he
  rw [hn] at this
  cases this

theorem fileBehind_eq (h : ∀ e ∈ es, ∀ f, e ≠ .appendFile f) (cur : Nat) :
    fileBehind cur es = cur := by
  induction es with
  | nil => rfl
  | cons e es ih =>
    obtain ⟨he, hes⟩ := List.forall_mem_cons.1 h
    cases e with
    | appendFile f => exact absurd rfl (he f)
    | _ => exact ih hes

theorem bytesBehind_append (base : Nat → Bytes) (f : Nat) :
    bytesBehind base (es ++ es') f = bytesBehind base es f ++ bytesFor f (landing es') := by
  simp [bytesBehind]

/-! ## The place of the worker -/

/-- What the requests so far have left of the file under construction. -/
structure Place (C : Type) where
  /-- The last write was synchronized. -/
  synced : Bool
  /-- The checkpoint that is not written yet. -/
  awaits : Option C

/-- What the requests so far make of the files: the one that the next write goes to, what each holds
once everything is written, and the pairs of files that followed one another. -/
structure Heading (C : Type) where
  cur : Nat
  total : Nat → Bytes
  place : Place C
  turns : List (Nat × Nat)

/-- Behind one more request. -/
def Heading.sent (g : Heading C) : WorkerRequest C Cb → Heading C
  | .write w => { g with
      total := Function.update g.total g.cur (g.total g.cur ++ w.data)
      place := { synced := w.sync, awaits := none } }
  | .appendFile e => { g with
      cur := e.f
      place := { synced := false, awaits := e.onPersisted }
      turns := g.turns ++ [(g.cur, e.f)] }
  | .removeChunks _ | .getFlushStat => g

/-- A file was created. -/
def Heading.created (g : Heading C) (id : Nat) : Heading C :=
  { g with total := Function.update g.total id [] }

end

/-! ## The story of a session -/

section
variable {A C Cb : Type} [Crc32fast] [Encode A] [Encode C]

variable (A) in
/-- A notification is true of the contents of its file, and has the checkpoint at its head; only the
first file of a session may have none. -/
structure Announced (first : FileEntry C) (bytes : Bytes) (n : ChunkPersisted) (c : Option C) :
    Prop where
  length : n.syncedOffset = n.startingOffset + bytes.length
  checkpoint : ∀ x, c = some x → enc (.checkpoint x : WALRecord A C) <+: bytes
  first : c = none → n.startingOffset = first.f ∧ first.onPersisted = none

variable (A) in
/-- **What the effects `es` of a session tell**: `first` is the file that it began with, `base` are
the contents of the files then, `entry` is the file under construction and `p` the place of the
worker. -/
structure Story (first : FileEntry C) (base : Nat → Bytes) (es : List (Effect C Cb))
    (entry : FileEntry C) (p : Place C) : Prop where
  starting : entry.startingOffset = entry.f
  current : fileBehind first.f es = entry.f
  unmarked : entry.onPersisted = none → entry.f = first.f ∧ first.onPersisted = none
  awaited : ∀ c, p.awaits = some c → entry.onPersisted = some c ∧ bytesBehind base es entry.f = []
  marked : p.awaits = none → ∀ c, entry.onPersisted = some c →
    enc (.checkpoint c : WALRecord A C) <+: bytesBehind base es entry.f
  below : ∀ n ∈ notes es, n.1.startingOffset ≤ entry.f ∧
    n.1.syncedOffset ≤ entry.f + (bytesBehind base es entry.f).length
  told : p.synced = true → ∃ n ∈ notes es, n.1.startingOffset = entry.f ∧
    n.1.syncedOffset = entry.f + (bytesBehind base es entry.f).length
  ordered : (notes es).Pairwise fun a b =>
    a.1.startingOffset ≤ b.1.startingOffset ∧ a.1.syncedOffset ≤ b.1.syncedOffset
  exact : ∀ pre n c post, es = pre ++ .persisted n c :: post →
    Announced A first (bytesBehind base pre n.startingOffset) n c
  turned : ∀ pre f post, es = pre ++ .appendFile f :: post →
    ∃ n ∈ notes pre, n.1.startingOffset = fileBehind first.f pre ∧ n.1.syncedOffset = f
  placed : ∀ pre f bs post, es = pre ++ .append f bs :: post → f = fileBehind first.f pre
  landed : ∀ t ∈ landing es, t.1 ≤ entry.f

namespace Story

variable {first entry : FileEntry C} {base : Nat → Bytes} {es es' : List (Effect C Cb)}
    {p : Place C}

theorem quiet (h : Story A first base es entry p) (hq : ∀ e ∈ es', e.isQuiet = true) :
    Story A first base (es ++ es') entry p := by
  have hnotes : notes (es ++ es') = notes es := by
    rw [notes_append, quiet_notes hq, List.append_nil]
  have hbytes : ∀ f, bytesBehind base (es ++ es') f = bytesBehind base es f := by
    intro f
    rw [bytesBehind_append, quiet_landing hq, bytesFor_nil, List.append_nil]
  have split : ∀ {pre post : List (Effect C Cb)} {e : Effect C Cb}, e.isQuiet = false →
      es ++ es' = pre ++ e :: post → ∃ post', es = pre ++ e :: post' := by
    intro pre post e he hs
    refine split_of_notMem_right (fun hm => ?_) hs
    exact Bool.noConfusion (he.symm.trans (hq e hm))
  refine ⟨h.starting, ?_, h.unmarked, ?_, ?_, ?_, ?_, ?_, ?_, ?_, ?_, ?_⟩
  · rw [fileBehind_append, h.current]
    refine fileBehind_eq (fun e he f hf => ?_) _
    have := hq e he
    rw [hf] at this
    cases this
  · rw [hbytes]
    exact h.awaited
  · rw [hbytes]
    exact h.marked
  · rw [hnotes, hbytes]
    exact h.below
  · rw [hnotes, hbytes]
    exact h.told
  · rw [hnotes]
    exact h.ordered
  · intro pre n c post hs
    obtain ⟨post', hs⟩ := split rfl hs
    exact h.exact pre n c post' hs
  · intro pre f post hs
    obtain ⟨post', hs⟩ := split rfl hs
    exact h.turned pre f post' hs
  · intro pre f bs post hs
    obtain ⟨post', hs⟩ := split rfl hs
    exact h.placed pre f bs post' hs
  · rw [landing_append, quiet_landing hq, List.append_nil]
    exact h.landed

/-- Writes go to the current file; the first of them brings its checkpoint. -/
theorem writes (h : Story A first base es entry p) {ps : List Bytes}
    (hc : ∀ c, p.awaits = some c → enc (.checkpoint c : WALRecord A C) <+: ps.flatten) :
    Story A first base (es ++ Worker.appends entry.f ps) entry
      { synced := false, awaits := none } := by
  have happ : ∀ e ∈ (Worker.appends entry.f ps : List (Effect C Cb)),
    ∃ bs, e = .append entry.f bs := by
    intro e he
    obtain ⟨bs, -, rfl⟩ := List.mem_map.1 he
    exact ⟨bs, rfl⟩
  have hnotes : notes (es ++ Worker.appends entry.f ps) = notes es := by
    rw [notes_append]
    have : notes (Worker.appends entry.f ps : List (Effect C Cb)) = [] := by
      refine List.filterMap_eq_nil_iff.2 fun e he => ?_
      obtain ⟨bs, rfl⟩ := happ e he
      rfl
    rw [this, List.append_nil]
  have hbytes : bytesBehind base (es ++ Worker.appends entry.f ps) entry.f =
      bytesBehind base es entry.f ++ ps.flatten := by
    rw [bytesBehind_append, landing_appends, bytesFor_tag_self]
  have hfile : ∀ {pre' post : List (Effect C Cb)}, Worker.appends entry.f ps = pre' ++ post →
      fileBehind first.f (es ++ pre') = entry.f := by
    intro pre' post hs
    rw [fileBehind_append, h.current]
    refine fileBehind_eq (fun e he f hf => ?_) _
    obtain ⟨bs, hbs⟩ := happ e (hs ▸ List.mem_append_left _ he)
    rw [hf] at hbs
    cases hbs
  refine ⟨h.starting, ?_, h.unmarked, fun c hn => absurd hn (by simp), fun _ c ho => ?_,
    fun n hn => ?_, fun hs => Bool.noConfusion hs, ?_, fun pre n c post hs =>
      ?_, fun pre f post hs => ?_,
    fun pre f bs post hs => ?_, fun t ht => ?_⟩
  · exact hfile (List.append_nil _).symm
  · rw [hbytes]
    rcases ha : p.awaits with _ | c'
    · exact (h.marked ha c ho).trans (List.prefix_append _ _)
    · obtain ⟨ho', hnil⟩ := h.awaited c' ha
      obtain rfl : c' = c := Option.some.inj (ho'.symm.trans ho)
      rw [hnil, List.nil_append]
      exact hc c' ha
  · obtain ⟨h1, h2⟩ := h.below n (hnotes ▸ hn)
    rw [hbytes, List.length_append]
    omega
  · rw [hnotes]
    exact h.ordered
  · rcases split_append hs with ⟨post', hs⟩ | ⟨pre', -, hs⟩
    · exact h.exact pre n c post' hs
    · obtain ⟨bs, hbs⟩ := happ _ (hs ▸ List.mem_append_right _ List.mem_cons_self)
      cases hbs
  · rcases split_append hs with ⟨post', hs⟩ | ⟨pre', -, hs⟩
    · exact h.turned pre f post' hs
    · obtain ⟨bs, hbs⟩ := happ _ (hs ▸ List.mem_append_right _ List.mem_cons_self)
      cases hbs
  · rcases split_append hs with ⟨post', hs'⟩ | ⟨pre', rfl, hs'⟩
    · exact h.placed pre f bs post' hs'
    · obtain ⟨bs', hbs⟩ := happ _ (hs' ▸ List.mem_append_right _ List.mem_cons_self)
      cases hbs
      exact (hfile hs').symm
  · rw [landing_append, landing_appends] at ht
    rcases List.mem_append.1 ht with ht | ht
    · exact h.landed t ht
    · exact Nat.le_of_eq (mem_tag ht)

/-- The current file is announced, up to its end. -/
theorem persisted (h : Story A first base es entry p) (hp : p.awaits = none) {upto : Nat}
    (hu : upto = entry.f + (bytesBehind base es entry.f).length) :
    Story A first base
      (es ++ [.persisted { startingOffset := entry.startingOffset, syncedOffset := upto }
        entry.onPersisted])
      { entry with syncId := upto } { synced := true, awaits := none } := by
  let n : ChunkPersisted × Option C :=
    ({ startingOffset := entry.startingOffset, syncedOffset := upto }, entry.onPersisted)
  have hnotes : notes (es ++ [(.persisted n.1 n.2 : Effect C Cb)]) = notes es ++ [n] := notes_append
  have hbytes : ∀ f, bytesBehind base (es ++ [(.persisted n.1 n.2 : Effect C Cb)]) f =
    bytesBehind base es f := by
    intro f
    rw [bytesBehind_append]
    exact List.append_nil _
  have hstart : n.1.startingOffset = entry.f := h.starting
  refine ⟨h.starting, ?_, h.unmarked, fun c hn => absurd hn (by simp), fun _ c ho => ?_,
    fun m hm => ?_, fun _ => ?_, ?_, fun pre m c post hs => ?_, fun pre f post hs =>
      ?_, fun pre f bs post hs => ?_, ?_⟩
  · rw [fileBehind_append, h.current]
    rfl
  · rw [hbytes]
    exact h.marked hp c ho
  · rw [hbytes]
    rcases List.mem_append.1 (hnotes ▸ hm) with hm | hm
    · exact h.below m hm
    · obtain rfl := List.mem_singleton.1 hm
      exact ⟨Nat.le_of_eq hstart, Nat.le_of_eq hu⟩
  · refine ⟨n, ?_, hstart, ?_⟩
    · rw [hnotes]
      exact List.mem_append_right _ (List.mem_singleton_self _)
    · rw [hbytes]
      exact hu
  · rw [hnotes, List.pairwise_append]
    refine ⟨h.ordered, List.pairwise_singleton _ _, fun a ha b hb => ?_⟩
    obtain rfl := List.mem_singleton.1 hb
    obtain ⟨h1, h2⟩ := h.below a ha
    exact ⟨h1.trans (Nat.le_of_eq hstart.symm), h2.trans (Nat.le_of_eq hu.symm)⟩
  · rcases split_single hs with ⟨post', hs⟩ | ⟨rfl, hx⟩
    · exact h.exact pre m c post' hs
    · cases hx
      refine ⟨?_, fun x hx => ?_, fun hn => ?_⟩
      · show upto = entry.startingOffset + (bytesBehind base pre entry.startingOffset).length
        rw [h.starting]
        exact hu
      · show _ <+: bytesBehind base pre entry.startingOffset
        rw [h.starting]
        exact h.marked hp x hx
      · obtain ⟨h1, h2⟩ := h.unmarked hn
        exact ⟨h.starting.trans h1, h2⟩
  · rcases split_single hs with ⟨post', hs⟩ | ⟨-, hx⟩
    · exact h.turned pre f post' hs
    · cases hx
  · rcases split_single hs with ⟨post', hs⟩ | ⟨-, hx⟩
    · exact h.placed pre f bs post' hs
    · cases hx
  · rw [landing_append]
    simpa [landing] using h.landed

/-- A new file follows one that was announced up to its end. -/
theorem appendFile (h : Story A first base es entry p) (hp : p.synced = true) {e : FileEntry C}
    (hs : e.startingOffset = e.f) {c : C} (ho : e.onPersisted = some c)
    (hf : e.f = entry.f + (bytesBehind base es entry.f).length)
      (hb : bytesBehind base es e.f = []) :
    Story A first base (es ++ [.appendFile e.f]) e
      { synced := false, awaits := e.onPersisted } := by
  have hnotes : notes (es ++ [(.appendFile e.f : Effect C Cb)]) = notes es := by
    rw [notes_append]
    exact List.append_nil _
  have hbytes : ∀ f, bytesBehind base (es ++ [(.appendFile e.f : Effect C Cb)]) f =
    bytesBehind base es f := by
    intro f
    rw [bytesBehind_append]
    exact List.append_nil _
  refine ⟨hs, ?_, fun hn => ?_, fun c' hc => ⟨hc, ?_⟩, fun hn => ?_, fun m hm => ?_,
    fun hs => Bool.noConfusion hs, ?_, fun pre m c post hs => ?_, fun pre f post hs => ?_,
    fun pre f bs post hs => ?_, fun t ht => ?_⟩
  · rw [fileBehind_append]
    rfl
  · cases ho.symm.trans hn
  · rw [hbytes]
    exact hb
  · cases ho.symm.trans hn
  · obtain ⟨h1, h2⟩ := h.below m (hnotes ▸ hm)
    omega
  · rw [hnotes]
    exact h.ordered
  · rcases split_single hs with ⟨post', hs⟩ | ⟨-, hx⟩
    · exact h.exact pre m c post' hs
    · cases hx
  · rcases split_single hs with ⟨post', hs⟩ | ⟨rfl, hx⟩
    · exact h.turned pre f post' hs
    · cases hx
      obtain ⟨n, hn, h1, h2⟩ := h.told hp
      exact ⟨n, hn, h1.trans h.current.symm, h2.trans hf.symm⟩
  · rcases split_single hs with ⟨post', hs⟩ | ⟨-, hx⟩
    · exact h.placed pre f bs post' hs
    · cases hx
  · have hland : landing (es ++ [(.appendFile e.f : Effect C Cb)]) = landing es := by
      rw [landing_append]
      exact List.append_nil _
    have := h.landed t (hland ▸ ht)
    omega

theorem created (h : Story A first base es entry p) {id : Nat} (hid : entry.f < id) :
    Story A first (Function.update base id []) es entry p := by
  have hbytes : ∀ {es' : List (Effect C Cb)} {f : Nat}, f ≤ entry.f →
      bytesBehind (Function.update base id []) es' f = bytesBehind base es' f := by
    intro es' f hf
    unfold bytesBehind
    rw [Function.update_of_ne (Nat.ne_of_lt (Nat.lt_of_le_of_lt hf hid))]
  refine ⟨h.starting, h.current, h.unmarked, ?_, ?_, ?_, ?_, h.ordered, fun pre n c post hs => ?_,
    h.turned, h.placed, h.landed⟩
  · rw [hbytes (Nat.le_refl _)]
    exact h.awaited
  · rw [hbytes (Nat.le_refl _)]
    exact h.marked
  · rw [hbytes (Nat.le_refl _)]
    exact h.below
  · rw [hbytes (Nat.le_refl _)]
    exact h.told
  · have hn : (n, c) ∈ notes es := mem_notes.2 (hs ▸ List.mem_append_right _ List.mem_cons_self)
    rw [hbytes (h.below _ hn).1]
    exact h.exact pre n c post hs

/-- A place promises less than another. -/
theorem weaken (h : Story A first base es entry p) {synced : Bool}
    (hs : synced = true → p.synced = true) :
    Story A first base es entry { synced, awaits := p.awaits } where
  starting := h.starting
  current := h.current
  unmarked := h.unmarked
  awaited := h.awaited
  marked := h.marked
  below := h.below
  told ht := h.told (hs ht)
  ordered := h.ordered
  exact := h.exact
  turned := h.turned
  placed := h.placed
  landed := h.landed

/-- **The writes of a batch.** -/
theorem flush (h : Story A first base es entry p) {files fs : List (FileEntry C)}
    {ws : List (QueuedWrite Cb)} {upto : Nat}
    (ht : Worker.FlushTrace files ws entry.f upto (.ok (.ok ())) fs es')
    (hl : files.getLast? = some entry)
    (hc : ∀ c, p.awaits = some c → enc (.checkpoint c : WALRecord A C) <+: Worker.writtenData ws)
    (hu : upto = entry.f + (bytesBehind base es entry.f ++ Worker.writtenData ws).length) :
    ∃ entry', fs.getLast? = some entry' ∧ entry'.f = entry.f ∧
      Story A first base (es ++ es') entry'
        { synced := ws.any (·.write.sync), awaits := none } := by
  have written : ∀ {es₁ : List (Effect C Cb)},
    Worker.Wrote entry.f (Worker.writtenData ws) (.ok (.ok ())) es₁ →
      Story A first base (es ++ es₁) entry { synced := false, awaits := none } ∧
        bytesBehind base (es ++ es₁) entry.f = bytesBehind base es entry.f ++
          Worker.writtenData ws := by
    intro es₁ hw
    obtain ⟨ps, rfl, hps⟩ := hw
    refine ⟨h.writes fun c hp => ?_, ?_⟩
    · rw [hps]
      exact hc c hp
    · rw [bytesBehind_append, landing_appends, bytesFor_tag_self, hps]
  cases ht with
  | unwritten _ hr => exact absurd rfl hr
  | unsynced hw hs =>
    rw [hs]
    exact ⟨entry, hl, rfl, (written hw).1⟩
  | @synced es₁ r _ es₂ hw hs h' =>
    obtain ⟨hst, hbytes⟩ := written hw
    have h' : Worker.SyncedAll upto files false fs es₂ := h'
    unfold Worker.SyncedAll at h'
    rw [hl] at h'
    obtain ⟨rfl, hfs⟩ := h'
    rw [hfs rfl, hs]
    have hquiet : ∀ e ∈ files.map fun g => (.sync g.f : Effect C Cb), e.isQuiet = true := by
      intro e he
      obtain ⟨g, -, rfl⟩ := List.mem_map.1 he
      rfl
    refine ⟨{ entry with syncId := upto }, rfl, rfl, ?_⟩
    rw [← List.append_assoc, ← List.append_assoc]
    refine (hst.quiet hquiet).persisted rfl ?_
    rw [bytesBehind_append, quiet_landing hquiet, bytesFor_nil, List.append_nil, hbytes]
    exact hu

end Story

/-! ## The requests -/

variable (A) in
/-- What a request must agree with. An `AppendFile` comes right behind a sync write, at the end of
the file in front, and the first write behind it brings the checkpoint. -/
def Allows (g : Heading C) : WorkerRequest C Cb → Prop
  | .write w => w.uptoOffset = g.cur + (g.total g.cur ++ w.data).length ∧
      ∀ c, g.place.awaits = some c → enc (.checkpoint c : WALRecord A C) <+: w.data
  | .appendFile e =>
    g.place.synced = true ∧ e.startingOffset = e.f ∧ (∃ c, e.onPersisted = some c) ∧
      e.f = g.cur + (g.total g.cur).length ∧ g.total e.f = []
  | .removeChunks _ | .getFlushStat => True

variable (A) in
/-- Requests that agree with what was sent before each of them. -/
def Follows (g : Heading C) : List (WorkerRequest C Cb) → Heading C → Prop
  | [], g' => g' = g
  | r :: rs, g' => Allows A g r ∧ Follows (g.sent r) rs g'

theorem follows_append {g g' : Heading C} {rs rs' : List (WorkerRequest C Cb)} :
    Follows A g (rs ++ rs') g' ↔ ∃ g₁, Follows A g rs g₁ ∧ Follows A g₁ rs' g' := by
  induction rs generalizing g with
  | nil => simp [Follows]
  | cons r rs ih => simp only [List.cons_append, Follows, ih, and_assoc, exists_and_left]

theorem Follows.le {g g' : Heading C} {rs : List (WorkerRequest C Cb)} (h : Follows A g rs g') :
    g.cur ≤ g'.cur := by
  induction rs generalizing g with
  | nil =>
    obtain rfl : g' = g := h
    exact Nat.le_refl _
  | cons r rs ih =>
    obtain ⟨ha, h⟩ := h
    have := ih h
    cases r with
    | appendFile e =>
      obtain ⟨-, -, -, hend, -⟩ := ha
      have : e.f ≤ g'.cur := this
      omega
    | _ => exact this

/-- A file that is created behind all others changes nothing for the requests. -/
theorem Follows.created {g g' : Heading C} {rs : List (WorkerRequest C Cb)} (h : Follows A g rs g')
    {id : Nat} (hid : g'.cur < id) : Follows A (g.created id) rs (g'.created id) := by
  induction rs generalizing g with
  | nil =>
    obtain rfl : g' = g := h
    rfl
  | cons r rs ih =>
    have hcur : g.cur ≠ id := Nat.ne_of_lt (Nat.lt_of_le_of_lt (Follows.le h) hid)
    obtain ⟨ha, h⟩ := h
    have hself : (g.created id).total g.cur = g.total g.cur := Function.update_of_ne hcur ..
    have hsent : (g.created id).sent r = (g.sent r).created id := by
      cases r with
      | write w =>
        simp only [Heading.sent, Heading.created] at hself ⊢
        rw [hself, Function.update_comm hcur.symm]
      | _ => rfl
    refine ⟨?_, hsent ▸ ih h⟩
    cases r with
    | write w =>
      obtain ⟨hupto, hc⟩ := ha
      refine ⟨?_, hc⟩
      rw [hupto, ← hself]
      rfl
    | appendFile e =>
      obtain ⟨hs, hstart, hc, hend, hnil⟩ := ha
      have hlt : e.f ≠ id := Nat.ne_of_lt (Nat.lt_of_le_of_lt (Follows.le h) hid)
      refine ⟨hs, hstart, hc, ?_, ?_⟩
      · rw [hend, ← hself]
        rfl
      · exact (Function.update_of_ne hlt ..).trans hnil
    | removeChunks | getFlushStat => trivial

variable (A) in
/-- **The course of the worker**: the effects `es` have brought the files to `g`. -/
structure Steers (first : FileEntry C) (base : Nat → Bytes) (es : List (Effect C Cb))
    (entry : FileEntry C) (g : Heading C) : Prop where
  story : Story A first base es entry g.place
  cur : g.cur = entry.f
  total : ∀ f, g.total f = bytesBehind base es f
  turns : g.turns = turnsIn first.f es

namespace Steers

variable {first entry : FileEntry C} {base : Nat → Bytes} {es es' : List (Effect C Cb)}
    {g g' : Heading C}
  {files fs : List (FileEntry C)} {b : WriteBatch C Cb}

theorem quiet (h : Steers A first base es entry g) (hq : ∀ e ∈ es', e.isQuiet = true) :
    Steers A first base (es ++ es') entry g := by
  refine ⟨h.story.quiet hq, h.cur, fun f => ?_, ?_⟩
  · rw [h.total, bytesBehind_append, quiet_landing hq, bytesFor_nil, List.append_nil]
  · have hnil : ∀ cur, turnsIn cur es' = [] := by
      refine turnsIn_eq_nil fun e he f hf => ?_
      have := hq e he
      rw [hf] at this
      cases this
    rw [h.turns, turnsIn_append, hnil, List.append_nil]

theorem created (h : Steers A first base es entry g) {id : Nat} (hid : g.cur < id) :
    Steers A first (Function.update base id []) es entry (g.created id) := by
  rw [h.cur] at hid
  refine ⟨h.story.created hid, h.cur, fun f => ?_, h.turns⟩
  show Function.update g.total id [] f = Function.update base id [] f ++ bytesFor f (landing es)
  by_cases hf : f = id
  · subst hf
    have hnil : bytesFor f (landing es) = [] := by
      refine bytesFor_eq_nil fun t ht he => ?_
      have := h.story.landed t ht
      omega
    rw [Function.update_self, Function.update_self, hnil]
    rfl
  · rw [Function.update_of_ne hf, Function.update_of_ne hf]
    exact h.total f

theorem deferred (h : Steers A first base es entry g) (hb : Worker.Collected b)
    (hd : Worker.HandledDeferred files b (.ok ()) fs es') (hl : files.getLast? = some entry)
    (hf : Follows A g (b.lastNonFlush.toList.map (·.req)) g') :
    ∃ entry', fs.getLast? = some entry' ∧ Steers A first base (es ++ es') entry' g' := by
  unfold Worker.HandledDeferred at hd
  rcases hq : b.lastNonFlush with _ | ⟨seq, req⟩ <;> simp only [hq] at hd hf
  · obtain ⟨-, rfl, rfl⟩ := hd
    obtain rfl : g' = g := hf
    exact ⟨entry, hl, by rwa [List.append_nil]⟩
  · obtain ⟨rfl, rfl⟩ := hd
    obtain ⟨ha, hg⟩ := hf
    obtain rfl : g' = g.sent req := hg
    cases req with
    | write w => exact absurd (hb.deferred _ hq) (by simp [WorkerRequest.isWrite])
    | appendFile e =>
      obtain ⟨hs, hstart, ⟨c, hc⟩, hend, hnil⟩ := ha
      rw [h.cur, h.total] at hend
      refine ⟨e, by simp [Worker.filesAfter],
        h.story.appendFile hs hstart hc hend (h.total _ ▸ hnil), rfl, fun f => ?_, ?_⟩
      · rw [bytesBehind_append]
        exact (h.total f).trans (List.append_nil _).symm
      · rw [turnsIn_append, h.story.current, ← h.turns, ← h.cur]
        rfl
    | removeChunks ids =>
      refine ⟨entry, hl, h.quiet fun e he => ?_⟩
      rcases List.mem_append.1 he with he | he
      · obtain ⟨id, -, rfl⟩ := List.mem_map.1 he
        rfl
      · split at he
        · obtain rfl := List.mem_singleton.1 he
          rfl
        · cases he
    | getFlushStat =>
      refine ⟨entry, hl, h.quiet fun e he => ?_⟩
      obtain rfl := List.mem_singleton.1 he
      rfl

theorem follows_writes {ws : List (QueuedWrite Cb)}
    (h : Follows A g (ws.map fun w => (.write w.write : WorkerRequest C Cb)) g') : g'.cur = g.cur ∧
      g'.turns = g.turns ∧
      g'.total = Function.update g.total g.cur (g.total g.cur ++ Worker.writtenData ws) ∧
      (ws = [] → g' = g) ∧ ∀ w, ws.getLast? = some w →
        w.write.uptoOffset = g.cur + (g.total g.cur ++ Worker.writtenData ws).length ∧
        g'.place = { synced := w.write.sync, awaits := none } ∧
        ∀ c, g.place.awaits = some c → enc (.checkpoint c : WALRecord A C) <+:
          Worker.writtenData ws := by
  induction ws using List.reverseRecOn generalizing g' with
  | nil =>
    obtain rfl : g' = g := h
    exact ⟨rfl, rfl, by simp, fun _ => rfl, fun w hw => by cases hw⟩
  | append_singleton ws w ih =>
    rw [List.map_append, follows_append] at h
    obtain ⟨g₁, h₁, ⟨hupto, hawait⟩, hg⟩ := h
    obtain rfl : g' = g₁.sent (.write w.write) := hg
    obtain ⟨hcur, hturns, htotal, hnil, hlast⟩ := ih h₁
    have hdata : Worker.writtenData (ws ++ [w]) = Worker.writtenData ws ++ w.write.data := by
      simp [Worker.writtenData]
    have hself : g₁.total g₁.cur = g.total g.cur ++ Worker.writtenData ws := by
      rw [htotal, hcur, Function.update_self]
    refine ⟨hcur, hturns, ?_, by simp, fun v hv => ?_⟩
    · show Function.update g₁.total g₁.cur (g₁.total g₁.cur ++ w.write.data) = _
      rw [hself, htotal, hcur, Function.update_idem, hdata, List.append_assoc]
    · rw [List.getLast?_concat] at hv
      cases hv
      refine ⟨?_, rfl, fun c hc => ?_⟩
      · rw [hupto, hself, hcur, hdata, List.append_assoc]
      · rw [hdata]
        rcases hl : ws.getLast? with _ | v
        · obtain rfl := List.getLast?_eq_none_iff.1 hl
          rw [hnil rfl] at hawait
          exact hawait c hc
        · exact ((hlast v hl).2.2 c hc).trans (List.prefix_append _ _)

/-- **A batch continues the story.** -/
theorem batch (h : Steers A first base es entry g) (hb : Worker.Collected b)
    (ht : Worker.BatchTrace files b none fs es') (hl : files.getLast? = some entry)
    (hf : Follows A g (b.requests.map (·.req)) g') :
    ∃ entry', fs.getLast? = some entry' ∧ Steers A first base (es ++ es') entry' g' := by
  have hreq : b.requests.map (·.req) = (b.writes.map fun w => .write w.write) ++
      b.lastNonFlush.toList.map (·.req) := by
    rw [WriteBatch.requests, List.map_append, List.map_map]
    rfl
  rw [hreq, follows_append] at hf
  obtain ⟨g₁, hws, hrest⟩ := hf
  obtain ⟨hcur, hturns, htotal, hnil, hlast⟩ := follows_writes hws
  generalize hstop : (none : Option Stop) = stop at ht
  cases ht with
  | @single r fs es' hw hd =>
    rcases r with s | ⟨⟩
    · cases hstop
    rw [hnil hw] at hrest
    obtain ⟨entry', hl', h'⟩ := h.deferred hb hd hl hrest
    refine ⟨entry', hl', ?_⟩
    rw [← List.append_assoc]
    exact h'.quiet (by simp [Effect.isQuiet])
  | flushStopped => cases hstop
  | answerStopped => cases hstop
  | failed => cases hstop
  | @flushed f upto fs₁ es₁ r fs es₂ htarget hflush hd =>
    rcases r with s | ⟨⟩
    · cases hstop
    obtain ⟨e, he, rfl⟩ := htarget.file
    obtain rfl : e = entry := Option.some.inj (he.symm.trans hl)
    obtain ⟨w, hw, rfl⟩ := htarget.upto
    obtain ⟨hupto, hplace, hawait⟩ := hlast w hw
    rw [h.cur, h.total] at hupto
    obtain ⟨entry₁, hl₁, hf₁, hst₁⟩ := h.story.flush hflush hl hawait hupto
    have hland : landing es₁ = tag e.f (Worker.writtenData b.writes) :=
      (hflush.lands htarget.getLast).1
    have hturn : ∀ cur, turnsIn cur es₁ = [] := by
      refine turnsIn_eq_nil fun x hx f hxf => ?_
      have := hflush.isFlush x hx
      rw [hxf] at this
      cases this
    have hsync : w.write.sync = true → b.writes.any (·.write.sync) = true := fun hs =>
      List.any_eq_true.2 ⟨w, List.mem_of_getLast? hw, hs⟩
    have h₁ : Steers A first base (es ++ es₁) entry₁ g₁ := by
      refine ⟨?_, ?_, fun f => ?_, ?_⟩
      · rw [hplace]
        exact hst₁.weaken hsync
      · rw [hcur, h.cur, hf₁]
      · rw [htotal, bytesBehind_append, hland, h.cur]
        by_cases hfe : f = e.f
        · subst hfe
          rw [Function.update_self, bytesFor_tag_self, h.total]
        · rw [Function.update_of_ne hfe, bytesFor_tag_ne (Ne.symm hfe), List.append_nil, h.total]
      · rw [turnsIn_append, hturn, List.append_nil, hturns, h.turns]
    have hquiet : ∀ x ∈ Worker.answers (.ok ()) b.writes ++ [(.release b.bytes : Effect C Cb)],
        x.isQuiet = true := by
      intro x hx
      rcases List.mem_append.1 hx with hx | hx
      · obtain ⟨v, -, cb, -, rfl⟩ := Worker.mem_answers hx
        rfl
      · obtain rfl := List.mem_singleton.1 hx
        rfl
    obtain ⟨entry', hl', h'⟩ := (h₁.quiet hquiet).deferred hb hd hl₁ hrest
    refine ⟨entry', hl', ?_⟩
    have hdone : ∀ x ∈ (Worker.completion b (.ok ()) : List (Effect C Cb)), x.isQuiet = true := by
      simp [Effect.isQuiet]
    have h'' := h'.quiet hdone
    simpa only [List.append_assoc] using h''

end Steers

end

end Wal

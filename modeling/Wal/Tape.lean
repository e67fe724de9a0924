import Wal.Batching
import Wal.Lib.Runs

/-!
# The tape

What the flush worker is for: the chunks of a WAL are one tape of bytes, cut into files. A `Plan` is
the tape that a list of requests asks for; it accepts the requests of a client that keeps to the
rules of a rotation. A `Disk` is the tape as far as it is written, with how much of its last chunk
is on stable storage; it takes the effects of the worker one by one, and allows a new chunk only
when everything before is on stable storage. `BatchTrace.onDisk` says that the effects of a batch
bring the disk from one planned tape to the next.

What else a client may promise are the `Rules`: which chunks it removes and when, and what the
contents of a chunk begin with.
-/

namespace Wal

open Lib Worker

/-- The chunks behind the current one, oldest first, how many of them are removed, and the current
chunk. -/
structure Tape where
  prev : List (Nat × Bytes)
  gone : Nat
  id : Nat
  bytes : Bytes

namespace Tape

variable (t : Tape)

def chunks : List (Nat × Bytes) := t.prev ++ [(t.id, t.bytes)]

/-- The ids of the chunks behind the current one. -/
def ids : List Nat := t.prev.map (·.1)

/-- The chunks that may be removed: all behind the newest one with contents. -/
def spare : List Nat := if t.bytes = [] then t.ids.dropLast else t.ids

def end_ : Nat := t.id + t.bytes.length

def write (bs : Bytes) : Tape := { t with bytes := t.bytes ++ bs }

/-- A new chunk begins at the end of the tape. -/
def rotate : Tape := { t with prev := t.chunks, id := t.end_, bytes := [] }

/-- Chunk after chunk without a gap, none of them empty but the last. -/
def Chained (cs : List (Nat × Bytes)) : Prop :=
  cs.IsChain fun a b => b.1 = a.1 + a.2.length ∧ a.2 ≠ []

/-- `t` is an earlier state of the tape `u`. -/
def Le (t u : Tape) : Prop :=
  t.gone ≤ u.gone ∧ ∃ bs rest, u.chunks = t.prev ++ (t.id, bs) :: rest ∧ t.bytes <+: bs

variable {t} {u : Tape}

@[simp] theorem write_prev (bs : Bytes) : (t.write bs).prev = t.prev := rfl
@[simp] theorem write_id (bs : Bytes) : (t.write bs).id = t.id := rfl
@[simp] theorem write_bytes (bs : Bytes) : (t.write bs).bytes = t.bytes ++ bs := rfl
@[simp] theorem write_gone (bs : Bytes) : (t.write bs).gone = t.gone := rfl
@[simp] theorem write_end (bs : Bytes) : (t.write bs).end_ = t.end_ + bs.length := by
  simp [end_, Nat.add_assoc]
@[simp] theorem write_nil : t.write [] = t := by simp [write]
@[simp] theorem write_write (bs cs : Bytes) : (t.write bs).write cs = t.write (bs ++ cs) := by
  simp [write]

theorem Le.refl (t : Tape) : t.Le t := ⟨Nat.le_refl _, t.bytes, [], rfl, List.prefix_refl _⟩

theorem Le.write (h : t.Le u) (bs : Bytes) : t.Le (u.write bs) := by
  obtain ⟨hg, cs, rest, hc, hp⟩ := h
  rcases List.eq_nil_or_concat rest with rfl | ⟨rest', x, rfl⟩
  · obtain ⟨hprev, hlast⟩ := List.append_inj' hc rfl
    obtain ⟨hid, hbs⟩ : u.id = t.id ∧ u.bytes = cs := by simpa using hlast
    refine ⟨hg, cs ++ bs, [], ?_, hp.trans (List.prefix_append _ _)⟩
    simp [chunks, hprev, hid, hbs]
  · rw [List.concat_eq_append, ← List.cons_append, ← List.append_assoc] at hc
    obtain ⟨hprev, -⟩ := List.append_inj' hc rfl
    refine ⟨hg, cs, rest' ++ [(u.id, u.bytes ++ bs)], ?_, hp⟩
    simp [chunks, hprev]

theorem Le.rotate (h : t.Le u) : t.Le u.rotate := by
  obtain ⟨hg, cs, rest, hc, hp⟩ := h
  refine ⟨hg, cs, rest ++ [(u.end_, [])], ?_, hp⟩
  have hr : u.rotate.chunks = u.chunks ++ [(u.end_, [])] := rfl
  rw [hr, hc, List.append_assoc, List.cons_append]

theorem Le.grow (bs cs : Bytes) (h : bs <+: cs) : (t.write bs).Le (t.write cs) :=
  ⟨Nat.le_refl _, t.bytes ++ cs, [], rfl, (List.prefix_append_right_inj _).2 h⟩

theorem Le.mem (h : t.Le u) : (∀ c ∈ t.prev, c ∈ u.chunks) ∧ ∃ bs, (t.id, bs) ∈ u.chunks := by
  obtain ⟨-, bs, rest, hc, -⟩ := h
  rw [hc]
  exact ⟨fun c hm => List.mem_append_left _ hm, bs, by simp⟩

/-! ### Chained tapes -/

theorem Chained.lt {cs ds : List (Nat × Bytes)} {a : Nat × Bytes} (h : Chained (cs ++ a :: ds)) :
    (∀ c ∈ cs, c.1 + c.2.length ≤ a.1 ∧ c.1 < a.1) := by
  induction cs with
  | nil => simp
  | cons c cs ih =>
    have ht : Chained (cs ++ a :: ds) := List.IsChain.tail h
    intro c' hc'
    rcases List.mem_cons.1 hc' with rfl | hc'
    · have hlink : ∀ x xs, cs ++ a :: ds = x :: xs → x.1 = c'.1 + c'.2.length ∧ c'.2 ≠ [] := by
        intro x xs hx
        have := h
        rw [List.cons_append, hx] at this
        exact List.IsChain.rel_head? this rfl
      cases cs with
      | nil =>
        obtain ⟨h1, h2⟩ := hlink a ds rfl
        have := List.length_pos_of_ne_nil h2
        omega
      | cons x xs =>
        obtain ⟨h1, h2⟩ := hlink x (xs ++ a :: ds) rfl
        have := List.length_pos_of_ne_nil h2
        have := (ih ht x List.mem_cons_self).2
        omega
    · exact ih ht c' hc'

theorem Chained.increasing {cs : List (Nat × Bytes)} (h : Chained cs) :
    (cs.map (·.1)).Pairwise (· < ·) := by
  induction cs using List.reverseRecOn with
  | nil => exact .nil
  | append_singleton cs a ih =>
    rw [List.map_append]
    refine List.pairwise_append.2 ⟨ih (List.isChain_append.1 h).1, List.pairwise_singleton _ _,
      fun i hi j hj => ?_⟩
    obtain ⟨c, hc, rfl⟩ := List.mem_map.1 hi
    rw [List.mem_singleton.1 hj]
    exact (Chained.lt h c hc).2

end Tape

/-! ## Plans -/

/-- What a client may promise beyond the rules of a rotation. -/
structure Rules where
  /-- Only the oldest chunks are removed, one after another. -/
  oldest : Bool
  /-- Chunks are removed only when everything written before is synchronized. -/
  covered : Bool
  /-- What the contents of a chunk begin with. -/
  begun : Bytes → Prop

/-- The contents of a chunk at the end of a request. -/
def Rules.Whole (R : Rules) (bs : Bytes) : Prop := bs = [] ∨ R.begun bs

/-- The tape behind a list of requests; `clean` if all of it is behind a request for
synchronization. -/
structure Plan where
  tape : Tape
  clean : Bool

namespace Plan

variable {C Cb : Type} {R : Rules}

open Classical in
/-- The requests that keep to the rules: a write ends where it says, and a new chunk begins at the
end of the tape, behind a synchronization. -/
noncomputable def accept (R : Rules) (p : Plan) : WorkerRequest C Cb → Option Plan
  | .write w =>
    if w.uptoOffset = p.tape.end_ + w.data.length ∧ R.Whole (p.tape.bytes ++ w.data) then
      some { tape := p.tape.write w.data, clean := w.sync || (p.clean && w.data.isEmpty) }
    else none
  | .appendFile e =>
    if p.clean = true ∧ p.tape.bytes ≠ [] ∧ e.startingOffset = p.tape.end_ ∧ e.f = p.tape.end_ then
      some { tape := p.tape.rotate, clean := true }
    else none
  | .removeChunks ids =>
    if R.oldest = false then some p
    else if ids <+: p.tape.spare.drop p.tape.gone ∧ (R.covered = true → p.clean = true) then
      some { p with tape := { p.tape with gone := p.tape.gone + ids.length } }
    else none
  | .getFlushStat => some p

theorem accept_le {p p' : Plan} {r : WorkerRequest C Cb} (h : p.accept R r = some p') {t : Tape}
    (ht : t.Le p.tape) : t.Le p'.tape := by
  cases r with
  | write w =>
    simp only [accept] at h
    split at h
    · cases h
      exact ht.write _
    · cases h
  | appendFile e =>
    simp only [accept] at h
    split at h
    · cases h
      exact ht.rotate
    · cases h
  | removeChunks ids =>
    simp only [accept] at h
    split at h
    · cases h
      exact ht
    · split at h
      · cases h
        exact ⟨ht.1.trans (Nat.le_add_right _ _), ht.2⟩
      · cases h
  | getFlushStat =>
    cases h
    exact ht

theorem runs_le {p p' : Plan} {rs : List (WorkerRequest C Cb)}
    (h : runs (accept R) p rs = some p') {t : Tape} (ht : t.Le p.tape) : t.Le p'.tape :=
  runs_invariant (I := fun p => t.Le p.tape) (fun _ _ _ hi hs => accept_le hs hi) ht h

theorem runs_writes {ws : List (QueuedWrite Cb)} {p p' : Plan}
    (h : runs (accept (C := C) R) p (ws.map fun w => .write w.write) = some p') :
    p'.tape = p.tape.write (writtenData ws) ∧
      (p'.clean = true → p.clean = true ∧ writtenData ws = [] ∨ ws.any (·.write.sync) = true) ∧
      (R.Whole p.tape.bytes → R.Whole p'.tape.bytes) ∧
      (∀ w, ws.getLast? = some w → w.write.uptoOffset = p'.tape.end_) ∧
      ∀ w ∈ ws, w.write.uptoOffset ≤ p'.tape.end_ := by
  induction ws generalizing p with
  | nil =>
    cases h
    exact ⟨by simp [writtenData], fun hc => .inl ⟨hc, rfl⟩, id, by simp, by simp⟩
  | cons w ws ih =>
    rw [List.map_cons, runs_cons] at h
    obtain ⟨p₁, h₁, h⟩ := Option.bind_eq_some_iff.1 h
    obtain ⟨ht, hc, hw, hl, hle⟩ := ih h
    simp only [accept] at h₁
    split at h₁
    · rename_i hu
      obtain ⟨hu, hwhole⟩ := hu
      cases h₁
      simp only at ht hc
      have hend : p'.tape.end_ = w.write.uptoOffset + (writtenData ws).length := by
        rw [ht, Tape.write_end, Tape.write_end, hu]
      have hdata : writtenData (w :: ws) = w.write.data ++ writtenData ws := by simp [writtenData]
      refine ⟨by rw [ht, Tape.write_write, hdata], fun hp => ?_, fun _ => hw hwhole, ?_, ?_⟩
      · rw [hdata, List.any_cons]
        rcases hc hp with ⟨hs, hnil⟩ | hs
        · rcases Bool.or_eq_true_iff.1 hs with hs | hs
          · exact .inr (by simp [hs])
          · rw [Bool.and_eq_true, List.isEmpty_iff] at hs
            exact .inl ⟨hs.1, by rw [hs.2, hnil]; rfl⟩
        · exact .inr (by simp only [hs, Bool.or_true])
      · intro w' hw'
        rcases ws with _ | ⟨w₁, ws⟩
        · obtain rfl : w = w' := by simpa using hw'
          rw [hend]
          simp [writtenData]
        · exact hl w' (by rwa [List.getLast?_cons_cons] at hw')
      · intro w' hw'
        rcases List.mem_cons.1 hw' with rfl | hw'
        · omega
        · exact hle w' hw'
    · cases h₁

end Plan

/-! ## Disks -/

structure Disk where
  tape : Tape
  synced : Nat

namespace Disk

variable {C Cb : Type} {R : Rules} {b : WriteBatch C Cb} {d : Disk}

/-- Everything that the batch was asked to write is there, and on stable storage. -/
def Covered (R : Rules) (b : WriteBatch C Cb) (d : Disk) : Prop :=
  d.synced = d.tape.bytes.length ∧ R.Whole d.tape.bytes ∧
    ∀ w ∈ b.writes, w.write.uptoOffset ≤ d.tape.end_

open Classical in
/-- The effects of a worker that keeps to the plan. An `Ok` for a write that asked for
synchronization comes when it is on stable storage. -/
noncomputable def step (R : Rules) (b : WriteBatch C Cb) (d : Disk) : Effect C Cb → Option Disk
  | .append f bs => if f = d.tape.id then some { d with tape := d.tape.write bs } else none
  | .sync f =>
    if f = d.tape.id then some { d with synced := d.tape.bytes.length }
    else if f ∈ d.tape.ids then some d else none
  | .persisted p _ =>
    if p.startingOffset = d.tape.id ∧ p.syncedOffset = d.tape.end_ ∧ d.synced = d.tape.bytes.length
    then some d else none
  | .answer seq _ (.ok ()) =>
    if ∀ w ∈ b.writes, w.seq = seq → w.write.sync = true → w.write.uptoOffset ≤ d.tape.id + d.synced
    then some d else none
  | .appendFile f =>
    if f = d.tape.end_ ∧ d.tape.bytes ≠ [] ∧ d.synced = d.tape.bytes.length then
      some { tape := d.tape.rotate, synced := 0 }
    else none
  | .unlink id =>
    if R.oldest = false then some d
    else if d.tape.spare[d.tape.gone]? = some id ∧ (R.covered = true → d.Covered R b) then
      some { d with tape := { d.tape with gone := d.tape.gone + 1 } }
    else none
  | _ => some d

/-- The files that a worker has listed: its current one is the last, the others lie behind it. -/
structure Holds (files : List (FileEntry C)) (d : Disk) : Prop where
  known : ∀ e ∈ files, e.startingOffset = e.f ∧ (e.f = d.tape.id ∨ e.f ∈ d.tape.ids)
  current : (files.map (·.f)).getLast? = some d.tape.id

/-- The disk is where the plan is. -/
structure At (R : Rules) (d : Disk) (p : Plan) : Prop where
  tape : d.tape = p.tape
  clean : p.clean = true → d.synced = d.tape.bytes.length
  whole : R.Whole d.tape.bytes

theorem runs_appends (ps : List Bytes) :
    runs (step R b) d (appends d.tape.id ps) =
      some { d with tape := d.tape.write ps.flatten } := by
  induction ps generalizing d with
  | nil => simp
  | cons p ps ih =>
    have hone : step R b d (.append d.tape.id p) = some { d with tape := d.tape.write p } := by
      simp [step]
    rw [appends, List.map_cons, runs_cons, hone]
    have := ih (d := { d with tape := d.tape.write p })
    simp only [Tape.write_id, Tape.write_write] at this
    exact this

theorem runs_syncs {gs : List (FileEntry C)}
    (h : ∀ g ∈ gs, g.f = d.tape.id ∨ g.f ∈ d.tape.ids) :
    runs (step R b) d (gs.map fun g => .sync g.f) =
      some { d with
        synced := if d.tape.id ∈ gs.map (·.f) then d.tape.bytes.length else d.synced } := by
  induction gs generalizing d with
  | nil => simp
  | cons g gs ih =>
    rw [List.map_cons, runs_cons]
    simp only [step]
    by_cases hid : g.f = d.tape.id
    · rw [if_pos hid, Option.bind_some,
        ih (d := { d with synced := d.tape.bytes.length }) fun g' hg' =>
          h g' (List.mem_cons_of_mem _ hg')]
      simp [hid]
    · rw [if_neg hid, if_pos ((h g List.mem_cons_self).resolve_left hid), Option.bind_some,
        ih fun g' hg' => h g' (List.mem_cons_of_mem _ hg')]
      simp [Ne.symm hid]

/-- Effects that the disk does not see. -/
theorem runs_neutral {es : List (Effect C Cb)} (h : ∀ e ∈ es, step R b d e = some d) :
    runs (step R b) d es = some d := by
  induction es with
  | nil => rfl
  | cons e es ih =>
    rw [runs_cons, h e List.mem_cons_self]
    exact ih fun e' he' => h e' (List.mem_cons_of_mem _ he')

theorem step_answers {res : IoResult} {e : Effect C Cb} (he : e ∈ answers res b.writes)
    (h : res = .ok () → ∀ w ∈ b.writes, w.write.sync = true →
      w.write.uptoOffset ≤ d.tape.id + d.synced) : step R b d e = some d := by
  obtain ⟨w, hw, cb, hcb, rfl⟩ := mem_answers he
  rcases res with err | ⟨⟩
  · rfl
  · simp only [step]
    rw [if_pos fun w' hw' _ => h rfl w' hw']

theorem runs_wrote {bs : Bytes} {r : Except Stop IoResult} {es : List (Effect C Cb)}
    (h : Wrote d.tape.id bs r es) : ∃ cs, cs <+: bs ∧
      runs (step R b) d es = some { d with tape := d.tape.write cs } ∧
      (r = .ok (.ok ()) → cs = bs) := by
  obtain ⟨ps, h⟩ := h
  rcases r with s | e | ⟨⟩
  · obtain ⟨-, rfl, hp⟩ := h
    exact ⟨_, hp, runs_appends ps, by simp⟩
  · obtain ⟨rfl, hp⟩ := h
    refine ⟨_, hp, ?_, by simp⟩
    rw [runs_append, runs_appends]
    rfl
  · obtain ⟨rfl, rfl⟩ := h
    exact ⟨_, List.prefix_refl _, runs_appends ps, fun _ => rfl⟩

theorem runs_syncTrace {files fs : List (FileEntry C)} {offset : Nat} {r : Except Stop IoResult}
    {es : List (Effect C Cb)} (h : SyncTrace offset files r fs es) (hh : Holds files d)
    (ho : offset = d.tape.end_) : ∃ n, runs (step R b) d es = some { d with synced := n } ∧
      (r = .ok (.ok ()) → n = d.tape.bytes.length ∧ Holds fs { d with synced := n }) := by
  have hknown : ∀ g ∈ files, g.f = d.tape.id ∨ g.f ∈ d.tape.ids := fun g hg => (hh.known g hg).2
  have hcur : d.tape.id ∈ files.map (·.f) := List.mem_of_getLast? hh.current
  have all : ∀ {panicked : Bool}, SyncedAll offset files panicked fs es →
      runs (step R b) d es = some { d with synced := d.tape.bytes.length } ∧
      (panicked = false → Holds fs { d with synced := d.tape.bytes.length }) := by
    intro panicked h
    unfold SyncedAll at h
    split at h
    · rename_i hn
      rw [List.getLast?_eq_none_iff.1 hn] at hcur
      cases hcur
    · rename_i f hf
      have hff : f.f = d.tape.id := by
        have := hh.current
        rw [List.getLast?_map, hf] at this
        exact Option.some.inj this
      have hst : f.startingOffset = d.tape.id :=
        ((hh.known f (List.mem_of_getLast? hf)).1).trans hff
      obtain ⟨rfl, hfs⟩ := h
      refine ⟨?_, fun hp => ?_⟩
      · rw [runs_append, runs_syncs hknown, if_pos hcur, Option.bind_some, runs_cons]
        simp only [step, hst, ho, and_self, if_true, Option.bind_some, runs_nil]
      · rw [hfs hp]
        exact ⟨by simp [hst, hff], by simp [hff]⟩
  have taken : ∀ k, runs (step R b) d ((files.take k).map fun g => .sync g.f) =
      some { d with synced := if d.tape.id ∈ (files.take k).map (·.f) then d.tape.bytes.length
        else d.synced } :=
    fun k => runs_syncs fun g hg => hknown g (List.mem_of_mem_take hg)
  rcases r with (e | m | _) | e | ⟨⟩
  · exact h.elim
  · exact ⟨_, (all h).1, by simp⟩
  · obtain ⟨k, rfl⟩ := h
    exact ⟨_, taken k, by simp⟩
  · obtain ⟨k, rfl⟩ := h
    have hrun : runs (step R b) d (((files.take k).map fun g => .sync g.f) ++ [.failed e]) =
        some { d with synced := if d.tape.id ∈ (files.take k).map (·.f) then d.tape.bytes.length
          else d.synced } := by
      rw [runs_append, taken k]
      rfl
    exact ⟨_, hrun, by simp⟩
  · exact ⟨_, (all h).1, fun _ => ⟨rfl, (all h).2 rfl⟩⟩

theorem Holds.of_tape {files : List (FileEntry C)} {e : Disk} (h : Holds files d)
    (hid : e.tape.id = d.tape.id) (hp : e.tape.prev = d.tape.prev) : Holds files e := by
  obtain ⟨h1, h2⟩ := h
  refine ⟨?_, ?_⟩
  · simpa only [Tape.ids, hid, hp] using h1
  · rwa [hid]

theorem runs_flush {files fs : List (FileEntry C)} {ws : List (QueuedWrite Cb)} {offset : Nat}
    {r : Except Stop IoResult} {es : List (Effect C Cb)}
    (h : FlushTrace files ws d.tape.id offset r fs es) (hh : Holds files d)
    (ho : offset = d.tape.end_ + (writtenData ws).length) :
    ∃ d' bs, runs (step R b) d es = some d' ∧ bs <+: writtenData ws ∧
      d'.tape = d.tape.write bs ∧ (r = .ok (.ok ()) → bs = writtenData ws ∧ Holds fs d' ∧
        (ws.any (·.write.sync) = true → d'.synced = d'.tape.bytes.length) ∧
        (writtenData ws = [] → ws.any (·.write.sync) = false → d' = d)) := by
  cases h with
  | unwritten h hr =>
    obtain ⟨cs, hcs, hrun, -⟩ := runs_wrote (R := R) (b := b) h
    exact ⟨_, cs, hrun, hcs, rfl, fun he => absurd he hr⟩
  | unsynced h hs =>
    obtain ⟨cs, hcs, hrun, hok⟩ := runs_wrote (R := R) (b := b) h
    obtain rfl := hok rfl
    exact ⟨_, _, hrun, hcs, rfl, fun _ => ⟨rfl, hh.of_tape rfl rfl, fun h => by simp [hs] at h,
      fun hnil _ => by simp [hnil]⟩⟩
  | @synced es₁ r fs es₂ h hs h' =>
    obtain ⟨cs, hcs, hrun, hok⟩ := runs_wrote (R := R) (b := b) h
    obtain rfl := hok rfl
    obtain ⟨n, hrun', hn⟩ := runs_syncTrace (R := R) (b := b) h'
      (hh.of_tape (e := { d with tape := d.tape.write (writtenData ws) }) rfl rfl) (by simp [ho])
    refine ⟨_, writtenData ws, ?_, List.prefix_refl _, rfl, fun hr => ⟨rfl, (hn hr).2,
      fun _ => (hn hr).1, fun _ h => by simp [hs] at h⟩⟩
    rw [runs_append, hrun]
    exact hrun'

theorem runs_unlinks (hold : R.oldest = true) {ids : List Nat}
    (h : ids <+: d.tape.spare.drop d.tape.gone) (hc : R.covered = true → d.Covered R b) :
    runs (step R b) d (ids.map .unlink) =
      some { d with tape := { d.tape with gone := d.tape.gone + ids.length } } := by
  induction ids generalizing d with
  | nil => rfl
  | cons id ids ih =>
    have hget : d.tape.spare[d.tape.gone]? = some id := by
      obtain ⟨t, ht⟩ := h
      have h0 : (d.tape.spare.drop d.tape.gone)[0]? = some id := by
        rw [← ht]
        rfl
      rwa [List.getElem?_drop, Nat.add_zero] at h0
    have hone : step R b d (.unlink id) =
        some { d with tape := { d.tape with gone := d.tape.gone + 1 } } := by
      simp only [step]
      rw [if_neg (by simp [hold]), if_pos ⟨hget, hc⟩]
    rw [List.map_cons, runs_cons, hone, Option.bind_some,
      ih (d := { d with tape := { d.tape with gone := d.tape.gone + 1 } }) _ hc]
    · simp [Nat.add_assoc, Nat.add_comm 1]
    · have := h.drop 1
      simpa [Tape.spare, Tape.ids] using this

/-- What is done of a removal. -/
theorem unlinks_of_prefix {t : List (Effect C Cb)} (ht : ∀ e ∈ t, e = .syncDir) :
    ∀ {ds : List (Effect C Cb)} {ids : List Nat}, ds <+: ids.map .unlink ++ t →
      (∀ e ∈ ds, ∃ id, e = .unlink id) → ∃ ids', ids' <+: ids ∧ ds = ids'.map .unlink
  | [], _, _, _ => ⟨[], List.nil_prefix, rfl⟩
  | e :: ds, [], hp, hu => by
    obtain ⟨id, rfl⟩ := hu e List.mem_cons_self
    have := ht _ (hp.subset List.mem_cons_self)
    cases this
  | e :: ds, id :: ids, hp, hu => by
    rw [List.map_cons, List.cons_append, List.cons_prefix_cons] at hp
    obtain ⟨rfl, hp⟩ := hp
    obtain ⟨ids', hi, rfl⟩ := unlinks_of_prefix ht hp fun e he => hu e (List.mem_cons_of_mem _ he)
    exact ⟨id :: ids', List.cons_prefix_cons.2 ⟨rfl, hi⟩, rfl⟩

theorem runs_unlinked {ds : List (Effect C Cb)} {files : List (FileEntry C)} {q : SeqRequest C Cb}
    {p p' : Plan} (hat : At R d p) (hb : ∀ w ∈ b.writes, w.write.uptoOffset ≤ d.tape.end_)
    (hp : p.accept R q.req = some p') (hds : ds <+: handled files q)
    (hu : ∀ e ∈ ds, ∃ id, e = .unlink id) :
    ∃ d', runs (step R b) d ds = some d' ∧ d'.tape.Le p'.tape := by
  have hnil : ds = [] → ∃ d', runs (step R b) d ds = some d' ∧ d'.tape.Le p'.tape := by
    rintro rfl
    exact ⟨d, rfl, Plan.accept_le hp (hat.tape ▸ .refl _)⟩
  obtain ⟨seq, req⟩ := q
  cases req with
  | removeChunks ids =>
    obtain ⟨ids', hids, rfl⟩ : ∃ ids', ids' <+: ids ∧ ds = ids'.map .unlink := by
      refine unlinks_of_prefix (t := if ids ≠ [] then [.syncDir] else []) ?_ hds hu
      split <;> simp
    simp only [Plan.accept] at hp
    split at hp
    · rename_i hs
      cases hp
      refine ⟨d, runs_neutral fun e he => ?_, hat.tape ▸ .refl _⟩
      obtain ⟨id, -, rfl⟩ := List.mem_map.1 he
      simp only [step, hs, if_true]
    · rename_i hs
      split at hp
      · rename_i hi
        obtain ⟨hi, hclean⟩ := hi
        cases hp
        refine ⟨_, runs_unlinks (by simpa using hs) (hids.trans (hat.tape ▸ hi)) fun hc =>
          ⟨hat.clean (hclean hc), hat.whole, hb⟩, ?_⟩
        refine ⟨?_, d.tape.bytes, [], ?_, List.prefix_refl _⟩
        · simp only [hat.tape]
          exact Nat.add_le_add_left hids.length_le _
        · simp [Tape.chunks, hat.tape]
      · cases hp
  | _ =>
    refine hnil (List.eq_nil_iff_forall_not_mem.2 fun e he => ?_)
    obtain ⟨id, rfl⟩ := hu e he
    have := hds.subset he
    simp [handled] at this

theorem runs_handled {files fs : List (FileEntry C)} {q : SeqRequest C Cb}
    {r : Except Stop Unit} {es : List (Effect C Cb)} (h : Handled files q r fs es)
    (hw : q.req.isWrite = false) (hh : Holds files d) {p p' : Plan} (hat : At R d p)
    (hb : ∀ w ∈ b.writes, w.write.uptoOffset ≤ d.tape.end_)
    (hp : p.accept R q.req = some p') : ∃ d', runs (step R b) d es = some d' ∧
      d'.tape.Le p'.tape ∧ (r = .ok () → Holds fs d' ∧ At R d' p') := by
  rcases r with (e | m | _) | ⟨⟩
  · obtain ⟨-, ds, hds, hu, rfl⟩ := h
    obtain ⟨d', hrun, hle⟩ := runs_unlinked hat hb hp hds hu
    refine ⟨d', ?_, hle, by simp⟩
    rw [runs_append, hrun]
    rfl
  · exact h.elim
  · obtain ⟨-, ds, hds, hu, rfl⟩ := h
    obtain ⟨d', hrun, hle⟩ := runs_unlinked hat hb hp hds hu
    exact ⟨d', hrun, hle, by simp⟩
  · obtain ⟨rfl, rfl⟩ := h
    obtain ⟨seq, req⟩ := q
    cases req with
    | write w => cases hw
    | appendFile e =>
      simp only [Plan.accept] at hp
      split at hp
      · rename_i hc
        obtain ⟨hclean, hne, hst, hf⟩ := hc
        cases hp
        have hsync := hat.clean hclean
        have hone : step R b d (.appendFile e.f) =
            some { tape := d.tape.rotate, synced := 0 } := by
          simp only [step]
          rw [if_pos ⟨by rw [hat.tape, hf], by rwa [hat.tape], hsync⟩]
        refine ⟨{ tape := d.tape.rotate, synced := 0 }, ?_, ?_, fun _ =>
          ⟨⟨?_, ?_⟩, ⟨?_, fun _ => rfl, .inl rfl⟩⟩⟩
        · simp only [handled, runs_cons, hone, Option.bind_some, runs_nil]
        · rw [hat.tape]
          exact .refl _
        · intro e' he'
          rcases List.mem_append.1 he' with he' | he'
          · obtain ⟨h1, h2⟩ := hh.known e' he'
            refine ⟨h1, .inr ?_⟩
            simpa [Tape.ids, Tape.rotate, Tape.chunks, or_comm] using h2
          · obtain rfl := List.mem_singleton.1 he'
            exact ⟨by rw [hst, hf], .inl (by rw [hf, hat.tape]; rfl)⟩
        · simp [filesAfter, hf, Tape.rotate, hat.tape]
        · simp only [hat.tape]
      · cases hp
    | removeChunks ids =>
      have hneutral : ∀ d : Disk, runs (step R b) d
          (if ids ≠ [] then [.syncDir] else []) = some d := by
        intro d
        split <;> rfl
      simp only [Plan.accept] at hp
      simp only [handled, runs_append]
      split at hp
      · rename_i hs
        cases hp
        refine ⟨d, ?_, hat.tape ▸ .refl _, fun _ => ⟨hh, hat⟩⟩
        rw [runs_neutral fun e he => ?_, Option.bind_some, hneutral]
        obtain ⟨id, -, rfl⟩ := List.mem_map.1 he
        simp only [step, hs, if_true]
      · rename_i hs
        split at hp
        · rename_i hi
          obtain ⟨hi, hclean⟩ := hi
          cases hp
          refine ⟨{ d with tape := { d.tape with gone := d.tape.gone + ids.length } }, ?_, ?_,
            fun _ => ⟨hh.of_tape rfl rfl, ?_, hat.clean, hat.whole⟩⟩
          · rw [runs_unlinks (by simpa using hs) (hat.tape ▸ hi) fun hc =>
              ⟨hat.clean (hclean hc), hat.whole, hb⟩, Option.bind_some, hneutral]
          · simp only [hat.tape]
            exact .refl _
          · simp only [hat.tape]
        · cases hp
    | getFlushStat =>
      cases hp
      exact ⟨d, rfl, hat.tape ▸ .refl _, fun _ => ⟨hh, hat⟩⟩

end Disk

namespace Worker

variable {C Cb : Type} {R : Rules} {files fs : List (FileEntry C)} {b : WriteBatch C Cb}
  {es : List (Effect C Cb)} {d : Disk} {p p' : Plan}

theorem HandledDeferred.onDisk {r : Except Stop Unit} (h : HandledDeferred files b r fs es)
    (hb : Collected b) (hh : d.Holds files) (hat : d.At R p)
    (hw : ∀ w ∈ b.writes, w.write.uptoOffset ≤ d.tape.end_)
    (hp : runs (Plan.accept R) p (b.lastNonFlush.toList.map (·.req)) = some p') :
    ∃ d', runs (Disk.step R b) d es = some d' ∧ d'.tape.Le p'.tape ∧
      (r = .ok () → d'.Holds fs ∧ d'.At R p') := by
  unfold HandledDeferred at h
  split at h
  · rename_i hn
    obtain ⟨rfl, rfl, rfl⟩ := h
    rw [hn] at hp
    cases hp
    exact ⟨d, rfl, hat.tape ▸ .refl _, fun _ => ⟨hh, hat⟩⟩
  · rename_i q hq
    rw [hq] at hp
    simp only [Option.toList_some, List.map_cons, List.map_nil, runs_cons, runs_nil] at hp
    obtain ⟨p₁, hp, he⟩ := Option.bind_eq_some_iff.1 hp
    cases he
    exact Disk.runs_handled h (hb.deferred q hq) hh hat hw hp

/-- **A batch brings the disk to the plan behind its requests**, or to an earlier tape if it stops
the worker. -/
theorem BatchTrace.onDisk {stop : Option Stop} (h : BatchTrace files b stop fs es)
    (hb : Collected b) (hh : d.Holds files) (hat : d.At R p)
    (hp : runs (Plan.accept R) p (b.requests.map (·.req)) = some p') :
    ∃ d', runs (Disk.step R b) d es = some d' ∧ d'.tape.Le p'.tape ∧
      (stop = none → d'.Holds fs ∧ d'.At R p') := by
  -- the plan between the writes and the deferred request
  have hreq : b.requests.map (·.req) = (b.writes.map fun w => .write w.write) ++
      b.lastNonFlush.toList.map (·.req) := by
    rw [WriteBatch.requests, List.map_append, List.map_map]
    rfl
  rw [hreq, runs_append] at hp
  obtain ⟨p₁, hp₁, hp'⟩ := Option.bind_eq_some_iff.1 hp
  obtain ⟨htape, hclean, hwhole, hlast, hupto⟩ := Plan.runs_writes hp₁
  have hle : ∀ bs, bs <+: writtenData b.writes → (d.tape.write bs).Le p'.tape := by
    intro bs hbs
    refine Plan.runs_le hp' ?_
    rw [htape, ← hat.tape]
    exact .grow _ _ hbs
  have hcompl : ∀ (d : Disk) (r : Except Stop Unit),
      runs (Disk.step R b) d (completion b r) = some d := by
    rintro d (_ | _) <;> rfl
  have stopped : ∀ r : Except Stop Unit, stopOf r = none → r = .ok () := by
    rintro (s | ⟨⟩) hr
    · cases hr
    · rfl
  have flush : ∀ {f upto r fs es}, Target files b f upto →
      FlushTrace files b.writes f upto r fs es → ∃ d' bs, runs (Disk.step R b) d es = some d' ∧
        bs <+: writtenData b.writes ∧ d'.tape = d.tape.write bs ∧ (r = .ok (.ok ()) →
          d'.Holds fs ∧ d'.At R p₁ ∧ ∀ w ∈ b.writes, w.write.sync = true →
            w.write.uptoOffset ≤ d'.tape.id + d'.synced) := by
    intro f upto r fs es ht h
    have hf : f = d.tape.id := by
      have := ht.getLast.symm.trans hh.current
      exact Option.some.inj this
    subst hf
    obtain ⟨w, hw, hupto'⟩ := ht.upto
    have ho : upto = d.tape.end_ + (writtenData b.writes).length := by
      rw [← hupto', hlast w hw, htape, Tape.write_end, hat.tape]
    obtain ⟨d', bs, hrun, hbs, ht', hok⟩ := Disk.runs_flush (R := R) (b := b) h hh ho
    refine ⟨d', bs, hrun, hbs, ht', fun hr => ?_⟩
    obtain ⟨rfl, hh', hs, hnil⟩ := hok hr
    have heq : d'.tape = p₁.tape := by rw [ht', htape, hat.tape]
    refine ⟨hh', ⟨heq, fun hc => ?_, ?_⟩, fun w' hw' hsync => ?_⟩
    · by_cases hany : b.writes.any (·.write.sync) = true
      · exact hs hany
      · obtain ⟨hc, hn⟩ := (hclean hc).resolve_right hany
        rw [hnil hn (by simpa using hany)]
        exact hat.clean hc
    · rw [heq]
      exact hwhole (hat.tape ▸ hat.whole)
    · have hend := hupto w' hw'
      rw [← heq, Tape.end_] at hend
      rwa [hs (List.any_eq_true.2 ⟨w', hw', hsync⟩)]
  cases h with
  | @single r fs es hw h =>
    rw [hw] at hp₁
    cases hp₁
    obtain ⟨d', hrun, hle', hok⟩ := h.onDisk hb hh hat (by simp [hw]) hp'
    refine ⟨d', ?_, hle', fun hs => hok (stopped r hs)⟩
    rw [runs_append, hrun]
    exact hcompl d' r
  | flushStopped ht h =>
    obtain ⟨d', bs, hrun, hbs, ht', -⟩ := flush ht h
    exact ⟨d', hrun, ht' ▸ hle bs hbs, by simp⟩
  | answerStopped ht h h' =>
    obtain ⟨d', bs, hrun, hbs, ht', hok⟩ := flush ht h
    refine ⟨d', ?_, ht' ▸ hle bs hbs, by simp⟩
    rw [runs_append, hrun]
    exact Disk.runs_neutral fun e he =>
      Disk.step_answers (h'.mem e he) fun hres => (hok (by rw [hres])).2.2
  | failed ht h =>
    obtain ⟨d', bs, hrun, hbs, ht', -⟩ := flush ht h
    refine ⟨d', ?_, ht' ▸ hle bs hbs, by simp⟩
    rw [runs_append, runs_append, hrun, Option.bind_some, Disk.runs_neutral fun e he =>
      Disk.step_answers he (by rintro ⟨⟩)]
    rfl
  | @flushed f upto fs₁ es₁ r fs es' ht h h' =>
    obtain ⟨d₁, bs, hrun, -, -, hok⟩ := flush ht h
    obtain ⟨hh₁, hat₁, hans⟩ := hok rfl
    obtain ⟨d', hrun', hle', hok'⟩ := h'.onDisk hb hh₁ hat₁ (fun w hw => hat₁.tape ▸ hupto w hw) hp'
    refine ⟨d', ?_, hle', fun hs => hok' (stopped r hs)⟩
    rw [runs_append, runs_append, runs_append, runs_append, hrun, Option.bind_some,
      Disk.runs_neutral fun e he => Disk.step_answers he fun _ => hans]
    have hrel : runs (Disk.step R b) d₁ [.release b.bytes] = some d₁ := rfl
    rw [Option.bind_some, hrel, Option.bind_some, hrun', Option.bind_some]
    exact hcompl d' r

end Worker

end Wal

import Wal.History

/-!
# What is on its way to the files

Each byte of a write goes to the file that the last `AppendFile` in front of it has brought.
`addressed` tags the bytes of requests with these files, `landing` those of the effects of the
worker. `Session.unwritten` is what the worker still has to write, in that order: executing a batch
adds nothing to it and leaves nothing of it out (`BatchTrace.lands`).
-/

namespace Wal

open Lib

/-! ## Tagged bytes -/

/-- A byte with the file it goes to. -/
abbrev Tagged := Nat × UInt8

def tag (f : Nat) (bs : Bytes) : List Tagged := bs.map fun b => (f, b)

/-- The bytes for one file. -/
def bytesFor (f : Nat) (l : List Tagged) : Bytes := (l.filter fun t => t.1 = f).map (·.2)

@[simp] theorem bytesFor_nil (f : Nat) : bytesFor f [] = [] := rfl

@[simp] theorem bytesFor_append (f : Nat) (l l' : List Tagged) :
    bytesFor f (l ++ l') = bytesFor f l ++ bytesFor f l' := by
  simp [bytesFor]

@[simp] theorem bytesFor_tag_self (f : Nat) (bs : Bytes) : bytesFor f (tag f bs) = bs := by
  induction bs with
  | nil => rfl
  | cons b bs ih => simp_all [bytesFor, tag]

theorem bytesFor_tag_ne {f g : Nat} (h : g ≠ f) (bs : Bytes) : bytesFor f (tag g bs) = [] := by
  simp [bytesFor, tag, h]

theorem bytesFor_eq_nil {f : Nat} {l : List Tagged} (h : ∀ t ∈ l, t.1 ≠ f) : bytesFor f l = [] := by
  simp only [bytesFor, List.map_eq_nil_iff, List.filter_eq_nil_iff, decide_eq_true_eq]
  exact h

@[simp] theorem tag_nil (f : Nat) : tag f [] = [] := rfl

@[simp] theorem tag_append (f : Nat) (bs cs : Bytes) : tag f (bs ++ cs) = tag f bs ++ tag f cs := by
  simp [tag]

theorem mem_tag {f : Nat} {bs : Bytes} {t : Tagged} (h : t ∈ tag f bs) : t.1 = f := by
  obtain ⟨b, -, rfl⟩ := List.mem_map.1 h
  rfl

section
variable {C Cb : Type}

/-- The bytes of requests; `cur` is the file that the first of them is written to. -/
def addressed : Nat → List (WorkerRequest C Cb) → List Tagged
  | _, [] => []
  | cur, .write w :: rs => tag cur w.data ++ addressed cur rs
  | _, .appendFile e :: rs => addressed e.f rs
  | cur, .removeChunks _ :: rs => addressed cur rs
  | cur, .getFlushStat :: rs => addressed cur rs

/-- The file that what comes behind the requests is written to. -/
def addressedEnd : Nat → List (WorkerRequest C Cb) → Nat
  | cur, [] => cur
  | cur, .write _ :: rs => addressedEnd cur rs
  | _, .appendFile e :: rs => addressedEnd e.f rs
  | cur, .removeChunks _ :: rs => addressedEnd cur rs
  | cur, .getFlushStat :: rs => addressedEnd cur rs

/-- The bytes that effects append. -/
def landing : List (Effect C Cb) → List Tagged
  | [] => []
  | .append f bs :: es => tag f bs ++ landing es
  | .sync _ :: es | .persisted .. :: es | .answer .. :: es | .release _ :: es | .appendFile _ :: es
    | .unlink _ :: es | .syncDir :: es | .stat .. :: es | .failed _ :: es | .complete _ :: es =>
      landing es

theorem addressed_append (cur : Nat) (rs rs' : List (WorkerRequest C Cb)) :
    addressed cur (rs ++ rs') = addressed cur rs ++ addressed (addressedEnd cur rs) rs' := by
  induction rs generalizing cur with
  | nil => rfl
  | cons r rs ih => cases r <;> simp [addressed, addressedEnd, ih]

theorem addressedEnd_append (cur : Nat) (rs rs' : List (WorkerRequest C Cb)) :
    addressedEnd cur (rs ++ rs') = addressedEnd (addressedEnd cur rs) rs' := by
  induction rs generalizing cur with
  | nil => rfl
  | cons r rs ih => cases r <;> simp [addressedEnd, ih]

@[simp] theorem landing_nil : landing ([] : List (Effect C Cb)) = [] := rfl

@[simp] theorem landing_append (es es' : List (Effect C Cb)) :
    landing (es ++ es') = landing es ++ landing es' := by
  induction es with
  | nil => rfl
  | cons e es ih => cases e <;> simp [landing, ih]

theorem mem_addressed {cur : Nat} {rs : List (WorkerRequest C Cb)} {t : Tagged}
    (h : t ∈ addressed cur rs) :
    ∃ pre, pre <+: rs ∧ t.1 = addressedEnd cur pre := by
  induction rs generalizing cur with
  | nil => cases h
  | cons r rs ih =>
    have hcons : ∀ {cur'}, (∀ pre, addressedEnd cur (r :: pre) = addressedEnd cur' pre) →
      t ∈ addressed cur' rs →
        ∃ pre, pre <+: r :: rs ∧ t.1 = addressedEnd cur pre := by
      intro cur' hend h
      obtain ⟨pre, hp, ht⟩ := ih h
      exact ⟨r :: pre, List.cons_prefix_cons.2 ⟨rfl, hp⟩, ht.trans (hend pre).symm⟩
    cases r with
    | write w =>
      rcases List.mem_append.1 h with h | h
      · exact ⟨[], List.nil_prefix, mem_tag h⟩
      · exact hcons (fun _ => rfl) h
    | appendFile e => exact hcons (fun _ => rfl) h
    | removeChunks ids => exact hcons (fun _ => rfl) h
    | getFlushStat => exact hcons (fun _ => rfl) h

/-! ## The effects of a batch -/

theorem landing_appends (f : Nat) (ps : List Bytes) :
    landing (Worker.appends f ps : List (Effect C Cb)) = tag f ps.flatten := by
  induction ps with
  | nil => rfl
  | cons p ps ih =>
    rw [List.flatten_cons, tag_append, ← ih]
    rfl

theorem landing_eq_nil {es : List (Effect C Cb)} (h : ∀ e ∈ es, ∀ f bs, e ≠ .append f bs) :
    landing es = [] := by
  induction es with
  | nil => rfl
  | cons e es ih =>
    have hes := ih fun e he => h e (List.mem_cons_of_mem _ he)
    cases e with
    | append f bs => exact absurd rfl (h _ List.mem_cons_self f bs)
    | _ => exact hes

end

namespace Worker

variable {C Cb : Type} {files fs : List (FileEntry C)} {b : WriteBatch C Cb}
    {es : List (Effect C Cb)}

theorem Collected.addressed_requests (hb : Collected b) (cur : Nat) :
    addressed cur (b.requests.map (·.req)) = tag cur (writtenData b.writes) ∧
      addressedEnd cur (b.requests.map (·.req)) =
        addressedEnd cur (b.lastNonFlush.toList.map (·.req)) := by
  have hw : ∀ ws : List (QueuedWrite Cb), addressed (C := C) cur (ws.map fun w => .write w.write) =
      tag cur (writtenData ws) ∧
        addressedEnd (C := C) cur (ws.map fun w => .write w.write) = cur := by
    intro ws
    induction ws with
    | nil => exact ⟨rfl, rfl⟩
    | cons w ws ih =>
      refine ⟨?_, ih.2⟩
      rw [List.map_cons, addressed, ih.1, ← tag_append]
      rfl
  have hreq : b.requests.map (·.req) = (b.writes.map fun w => .write w.write) ++
      b.lastNonFlush.toList.map (·.req) := by
    rw [WriteBatch.requests, List.map_append, List.map_map]
    rfl
  rw [hreq, addressed_append, addressedEnd_append, (hw b.writes).1, (hw b.writes).2]
  refine ⟨?_, rfl⟩
  rcases hq : b.lastNonFlush with _ | ⟨seq, req⟩
  · simp [addressed]
  · have := hb.deferred _ hq
    cases req with
    | write w => cases this
    | appendFile | removeChunks | getFlushStat => simp [addressed]

theorem HandledDeferred.lands (h : HandledDeferred files b (.ok ()) fs es) {cur : Nat}
    (hc : (files.map (·.f)).getLast? = some cur) : landing es = [] ∧
      (fs.map (·.f)).getLast? = some (addressedEnd cur (b.lastNonFlush.toList.map (·.req))) := by
  unfold HandledDeferred at h
  split at h
  · rename_i hn
    obtain ⟨-, rfl, rfl⟩ := h
    rw [hn]
    exact ⟨rfl, hc⟩
  · rename_i q hq
    obtain ⟨seq, req⟩ := q
    obtain ⟨rfl, rfl⟩ := h
    rw [hq]
    cases req with
    | write w => exact ⟨rfl, hc⟩
    | appendFile e => exact ⟨rfl, by simp [filesAfter, addressedEnd]⟩
    | getFlushStat => exact ⟨rfl, hc⟩
    | removeChunks ids =>
      refine ⟨landing_eq_nil fun e he f bs => ?_, hc⟩
      rintro rfl
      simp only [handled, List.mem_append, List.mem_map] at he
      rcases he with ⟨_, -, h⟩ | h
      · cases h
      · split at h <;> simp at h

theorem FlushTrace.lands {f upto : Nat} {ws : List (QueuedWrite Cb)}
    (h : FlushTrace files ws f upto (.ok (.ok ())) fs es) {cur : Nat}
    (hc : (files.map (·.f)).getLast? = some cur) :
    landing es = tag f (writtenData ws) ∧ (fs.map (·.f)).getLast? = some cur := by
  have hwrote : ∀ {es : List (Effect C Cb)}, Wrote f (writtenData ws) (.ok (.ok ())) es →
      landing es = tag f (writtenData ws) := by
    intro es h
    obtain ⟨ps, rfl, hp⟩ := h
    rw [landing_appends, hp]
  cases h with
  | unwritten h hr => exact absurd rfl hr
  | unsynced h hs => exact ⟨hwrote h, hc⟩
  | @synced es₁ r fs es₂ h hs h' =>
    have h' : SyncedAll upto files false fs es₂ := h'
    unfold SyncedAll at h'
    split at h'
    · rename_i hn
      rw [List.getLast?_eq_none_iff.1 hn] at hc
      cases hc
    · rename_i g hg
      obtain ⟨rfl, hfs⟩ := h'
      rw [hfs rfl]
      rw [List.getLast?_map, hg] at hc
      refine ⟨?_, hc⟩
      rw [landing_append, hwrote h, landing_eq_nil, List.append_nil]
      intro e he f bs
      rintro rfl
      simp at he

/-- **A batch that succeeds** appends the bytes of its writes, and its deferred request decides
where the next are written. -/
theorem BatchTrace.lands (h : BatchTrace files b none fs es) (hb : Collected b) {cur : Nat}
    (hc : (files.map (·.f)).getLast? = some cur) :
    landing es = addressed cur (b.requests.map (·.req)) ∧
      (fs.map (·.f)).getLast? = some (addressedEnd cur (b.requests.map (·.req))) := by
  rw [(hb.addressed_requests cur).1, (hb.addressed_requests cur).2]
  generalize hstop : (none : Option Stop) = stop at h
  cases h with
  | @single r fs es hw h =>
    rcases r with s | ⟨⟩
    · cases hstop
    obtain ⟨h1, h2⟩ := h.lands hc
    refine ⟨?_, h2⟩
    rw [landing_append, h1, hw]
    rfl
  | flushStopped => cases hstop
  | answerStopped => cases hstop
  | failed => cases hstop
  | @flushed f upto fs₁ es₁ r fs es' ht h h' =>
    rcases r with s | ⟨⟩
    · cases hstop
    obtain ⟨h1, h2⟩ := h.lands hc
    obtain ⟨h3, h4⟩ := h'.lands h2
    have hf : f = cur := Option.some.inj (ht.getLast.symm.trans hc)
    have ha : landing (answers (.ok ()) b.writes : List (Effect C Cb)) = [] := by
      refine landing_eq_nil fun e he f bs => ?_
      obtain ⟨w, -, cb, -, rfl⟩ := mem_answers he
      simp
    refine ⟨?_, h4⟩
    simp only [landing_append, h1, h3, ha, hf]
    simp [landing]

end Worker

/-! ## Sessions -/

namespace Session

variable {A C Cb : Type}

/-- The file that the next batch is written to. -/
def current (s : Session A C Cb) : Nat := ((s.files.map (·.f)).getLast?).getD 0

/-- The effects that the batch in execution still has. -/
def executing (s : Session A C Cb) : List (Effect C Cb) :=
  match s.worker with
  | .exec _ effects _ _ => effects
  | _ => []

/-- The requests that are not in execution yet. -/
def outstanding (s : Session A C Cb) : List (WorkerRequest C Cb) := (s.collecting ++ s.queue).map
    (·.req)

/-- **What is still to be written**, with the files it goes to. -/
def unwritten (s : Session A C Cb) : List Tagged :=
  landing s.executing ++ addressed s.current s.outstanding

end Session

end Wal

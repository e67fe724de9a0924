import Wal.Fs
import Wal.WorkerSpec

/-!
# Reading a trace

What a list of effects says about one subject: a file (`fileAfter`), the callbacks that were
answered (`answered`), the files that were removed (`unlinked`), the completed requests
(`completed`) and the bytes given back (`released`); each with its values on the parts that a batch
consists of.
-/

namespace Wal

variable {C Cb : Type}

namespace Effect

/-- What an effect does to the file `f`. -/
def onFile (f : Nat) (d : FileData) : Effect C Cb → FileData
  | .append g bs => if g = f then d.append bs else d
  | .sync g => if g = f then d.sync else d
  | _ => d

def answer? : Effect C Cb → Option (Nat × Cb × IoResult)
  | .answer seq cb res => some (seq, cb, res)
  | _ => none

def unlink? : Effect C Cb → Option Nat
  | .unlink id => some id
  | _ => none

def complete? : Effect C Cb → Option Nat
  | .complete seq => some seq
  | _ => none

def release? : Effect C Cb → Option Nat
  | .release n => some n
  | _ => none

/-- What the writes and the synchronization of a batch consist of. -/
def isFlush : Effect C Cb → Bool
  | .append .. | .sync .. | .persisted .. | .failed .. => true
  | _ => false

/-- What the handling of a request other than a write consists of. -/
def isHandling : Effect C Cb → Bool
  | .appendFile .. | .unlink .. | .syncDir | .stat .. | .failed .. => true
  | _ => false

/-- A write or a synchronization. -/
def isDiskIo : Effect C Cb → Bool
  | .append .. | .sync .. => true
  | _ => false

def isFailed : Effect C Cb → Bool
  | .failed .. => true
  | _ => false

end Effect

/-- The file `f` after a list of effects. -/
def fileAfter (f : Nat) (d : FileData) (es : List (Effect C Cb)) : FileData :=
  es.foldl (Effect.onFile f) d

/-- The callbacks that were answered, by the number of their write, with the result they got. -/
def answered (es : List (Effect C Cb)) : List (Nat × Cb × IoResult) := es.filterMap Effect.answer?

def unlinked (es : List (Effect C Cb)) : List Nat := es.filterMap Effect.unlink?

def completed (es : List (Effect C Cb)) : List Nat := es.filterMap Effect.complete?

def released (es : List (Effect C Cb)) : List Nat := es.filterMap Effect.release?

/-- `done_seq` after a list of effects: a completion takes the maximum. -/
def doneAfter (done : Nat) (es : List (Effect C Cb)) : Nat := (completed es).foldl max done

section
variable (es es' : List (Effect C Cb))

@[simp] theorem fileAfter_nil (f : Nat) (d : FileData) :
    fileAfter f d ([] : List (Effect C Cb)) = d := rfl

@[simp] theorem fileAfter_append (f : Nat) (d : FileData) :
    fileAfter f d (es ++ es') = fileAfter f (fileAfter f d es) es' := List.foldl_append

@[simp] theorem fileAfter_cons (f : Nat) (d : FileData) (e : Effect C Cb) :
    fileAfter f d (e :: es) = fileAfter f (e.onFile f d) es := rfl

@[simp] theorem answered_nil : answered ([] : List (Effect C Cb)) = [] := rfl

@[simp] theorem answered_append : answered (es ++ es') = answered es ++ answered es' :=
  List.filterMap_append

@[simp] theorem unlinked_append : unlinked (es ++ es') = unlinked es ++ unlinked es' :=
  List.filterMap_append

@[simp] theorem completed_append : completed (es ++ es') = completed es ++ completed es' :=
  List.filterMap_append

@[simp] theorem released_append : released (es ++ es') = released es ++ released es' :=
  List.filterMap_append

@[simp] theorem doneAfter_append (done : Nat) :
    doneAfter done (es ++ es') = doneAfter (doneAfter done es) es' := by simp [doneAfter]

end

section
variable (n : Nat) (es : List (Effect C Cb))

@[simp] theorem answered_release : answered (.release n :: es) = answered es := rfl
@[simp] theorem answered_complete : answered (.complete n :: es) = answered es := rfl
@[simp] theorem unlinked_nil : unlinked ([] : List (Effect C Cb)) = [] := rfl
@[simp] theorem unlinked_release : unlinked (.release n :: es) = unlinked es := rfl
@[simp] theorem unlinked_complete : unlinked (.complete n :: es) = unlinked es := rfl
@[simp] theorem completed_nil : completed ([] : List (Effect C Cb)) = [] := rfl
@[simp] theorem completed_release : completed (.release n :: es) = completed es := rfl
@[simp] theorem completed_complete : completed (.complete n :: es) = n :: completed es := rfl
@[simp] theorem released_nil : released ([] : List (Effect C Cb)) = [] := rfl
@[simp] theorem released_release : released (.release n :: es) = n :: released es := rfl
@[simp] theorem released_complete : released (.complete n :: es) = released es := rfl

end

/-! ## Files -/

namespace FileData

theorem append_append (d : FileData) (bs cs : Bytes) :
    (d.append bs).append cs = d.append (bs ++ cs) := by
  ext1 <;> simp

@[simp] theorem append_nil (d : FileData) : d.append [] = d := by
  ext1 <;> simp

@[simp] theorem sync_sync (d : FileData) : d.sync.sync = d.sync := rfl

end FileData

/-- An element behind `xs` in `xs ++ ys` is at the front of a suffix of `ys`. -/
theorem split_append {α : Type} {xs ys pre post : List α} {e : α}
    (h : xs ++ ys = pre ++ e :: post) :
    (∃ post', xs = pre ++ e :: post') ∨ ∃ pre', pre = xs ++ pre' ∧ ys = pre' ++ e :: post := by
  rcases List.append_eq_append_iff.1 h with ⟨pre', rfl, h'⟩ | ⟨cs, h', h''⟩
  · exact .inr ⟨pre', rfl, h'⟩
  · cases cs with
    | nil => exact .inr ⟨[], by simpa using h'.symm, by simpa using h''.symm⟩
    | cons c cs =>
      obtain ⟨rfl, -⟩ := List.cons.inj h''
      exact .inl ⟨cs, h'⟩

/-- An entry that is not in the first part of a trace splits the second part. -/
theorem split_of_notMem {α : Type} {es es' pre post : List α} {x : α} (hx : x ∉ es)
    (he : es ++ es' = pre ++ x :: post) : ∃ pre', pre = es ++ pre' ∧ es' = pre' ++ x :: post := by
  rcases List.append_eq_append_iff.1 he with ⟨pre', rfl, h⟩ | ⟨cs, rfl, h⟩
  · exact ⟨pre', rfl, h⟩
  · cases cs with
    | nil => exact ⟨[], by simp, by simpa using h.symm⟩
    | cons c cs =>
      obtain ⟨rfl, -⟩ := List.cons.inj h
      exact absurd (by simp) hx

/-- An entry that is not in the second part of a trace splits the first part. -/
theorem split_of_notMem_right {α : Type} {es es' pre post : List α} {x : α} (hx : x ∉ es')
    (he : es ++ es' = pre ++ x :: post) : ∃ post', es = pre ++ x :: post' := by
  rcases List.append_eq_append_iff.1 he with ⟨pre', rfl, h⟩ | ⟨cs, rfl, h⟩
  · exact absurd (by rw [h]; simp) hx
  · cases cs with
    | nil => exact absurd (List.nil_append es' ▸ h ▸ List.mem_cons_self) hx
    | cons c cs =>
      obtain ⟨rfl, -⟩ := List.cons.inj h
      exact ⟨cs, rfl⟩

namespace Worker

theorem fileAfter_appends (f : Nat) (ps : List Bytes) (g : Nat) (d : FileData) :
    fileAfter g d (appends f ps : List (Effect C Cb)) =
      if f = g then d.append ps.flatten else d := by
  induction ps generalizing d with
  | nil => simp
  | cons p ps ih =>
    simp only [appends, List.map_cons, fileAfter_cons, Effect.onFile] at ih ⊢
    rw [ih]
    split
    · rw [FileData.append_append, List.flatten_cons]
    · rfl

theorem fileAfter_syncs (fs : List (FileEntry C)) (g : Nat) (d : FileData) :
    fileAfter g d (fs.map fun e => (.sync e.f : Effect C Cb)) =
      if g ∈ fs.map (·.f) then d.sync else d := by
  induction fs generalizing d with
  | nil => simp
  | cons e fs ih =>
    rw [List.map_cons, fileAfter_cons, ih]
    simp only [List.map_cons, List.mem_cons, Effect.onFile]
    by_cases he : e.f = g
    · simp [he]
    · simp [he, Ne.symm he]

/-- Effects other than writes and synchronizations leave every file as it is. -/
theorem fileAfter_eq {es : List (Effect C Cb)} (h : ∀ e ∈ es, e.isDiskIo = false) (f : Nat)
    (d : FileData) : fileAfter f d es = d := by
  induction es generalizing d with
  | nil => rfl
  | cons e es ih =>
    rw [fileAfter_cons, ih fun e he => h e (List.mem_cons_of_mem _ he)]
    have he := h e List.mem_cons_self
    cases e <;> first | rfl | cases he

/-! ## The parts of a batch -/

theorem Wrote.isFlush {f : Nat} {bs : Bytes} {r : Except Stop IoResult} {es : List (Effect C Cb)}
    (h : Wrote f bs r es) : ∀ e ∈ es, e.isFlush = true := by
  obtain ⟨ps, h⟩ := h
  have ha : ∀ e ∈ (appends f ps : List (Effect C Cb)), e.isFlush = true := by
    intro e he
    obtain ⟨p, -, rfl⟩ := List.mem_map.1 he
    rfl
  rcases r with s | e | ⟨⟩
  · exact h.2.1 ▸ ha
  · intro x hx
    rw [h.1, List.mem_append, List.mem_singleton] at hx
    rcases hx with hx | rfl
    · exact ha x hx
    · rfl
  · exact h.1 ▸ ha

theorem isFlush_syncs {fs : List (FileEntry C)} {e : Effect C Cb}
    (h : e ∈ fs.map fun g => (.sync g.f : Effect C Cb)) : e.isFlush = true := by
  obtain ⟨g, -, rfl⟩ := List.mem_map.1 h
  rfl

theorem SyncTrace.isFlush {offset : Nat} {files fs : List (FileEntry C)}
    {r : Except Stop IoResult} {es : List (Effect C Cb)} (h : SyncTrace offset files r fs es) :
    ∀ e ∈ es, e.isFlush = true := by
  have all : ∀ {p : Bool}, SyncedAll offset files p fs es → ∀ e ∈ es, e.isFlush = true := by
    intro p h e he
    unfold SyncedAll at h
    split at h
    · rw [h.2.1] at he
      cases he
    · rw [h.1, List.mem_append, List.mem_singleton] at he
      rcases he with he | rfl
      · exact isFlush_syncs he
      · rfl
  intro e he
  rcases r with (_ | _ | _) | _ | ⟨⟩
  · exact h.elim
  · exact all h e he
  · obtain ⟨k, rfl⟩ := h
    exact isFlush_syncs he
  · obtain ⟨k, rfl⟩ := h
    rw [List.mem_append, List.mem_singleton] at he
    rcases he with he | rfl
    · exact isFlush_syncs he
    · rfl
  · exact all h e he

theorem FlushTrace.isFlush {files fs : List (FileEntry C)} {ws : List (QueuedWrite Cb)}
    {f offset : Nat} {r : Except Stop IoResult} {es : List (Effect C Cb)}
    (h : FlushTrace files ws f offset r fs es) : ∀ e ∈ es, e.isFlush = true := by
  cases h with
  | unwritten h => exact h.isFlush
  | unsynced h => exact h.isFlush
  | synced h _ h' =>
    intro e he
    rcases List.mem_append.1 he with he | he
    · exact h.isFlush e he
    · exact h'.isFlush e he

theorem isHandling_handled {files : List (FileEntry C)} {q : SeqRequest C Cb} {e : Effect C Cb}
    (h : e ∈ handled files q) : e.isHandling = true := by
  unfold handled at h
  split at h
  · rw [List.mem_singleton] at h
    subst h
    rfl
  · cases h
  · rw [List.mem_singleton] at h
    subst h
    rfl
  · rcases List.mem_append.1 h with h | h
    · obtain ⟨id, -, rfl⟩ := List.mem_map.1 h
      rfl
    · split at h
      · rw [List.mem_singleton] at h
        subst h
        rfl
      · cases h

/-- The chunk files a request removes. -/
def removals (q : SeqRequest C Cb) : List Nat :=
  match q.req with
  | .removeChunks ids => ids
  | _ => []

theorem unlinked_handled (files : List (FileEntry C)) (q : SeqRequest C Cb) :
    unlinked (handled files q) = removals q := by
  obtain ⟨seq, req⟩ := q
  cases req with
  | removeChunks ids =>
    have hu : unlinked (ids.map .unlink : List (Effect C Cb)) = ids := by
      simp [unlinked, List.filterMap_map, Function.comp_def, Effect.unlink?]
    simp only [handled, removals, unlinked_append, hu]
    split <;> simp [unlinked, Effect.unlink?]
  | _ => rfl

theorem isDiskIo_of_isHandling {e : Effect C Cb} (h : e.isHandling = true) :
    e.isDiskIo = false := by
  cases e <;> first | rfl | cases h

theorem fileAfter_handled (files : List (FileEntry C)) (q : SeqRequest C Cb) (f : Nat)
    (d : FileData) : fileAfter f d (handled files q) = d :=
  fileAfter_eq (fun _ he => isDiskIo_of_isHandling (isHandling_handled he)) f d

theorem Handled.isHandling {files fs : List (FileEntry C)} {q : SeqRequest C Cb}
    {r : Except Stop Unit} {es : List (Effect C Cb)} (h : Handled files q r fs es) :
    ∀ e ∈ es, e.isHandling = true := by
  intro e he
  rcases r with (err | _ | _) | ⟨⟩
  · obtain ⟨-, ds, hd, -, rfl⟩ := h
    rw [List.mem_append, List.mem_singleton] at he
    rcases he with he | rfl
    · exact isHandling_handled (hd.subset he)
    · rfl
  · exact h.elim
  · obtain ⟨-, ds, hd, -, rfl⟩ := h
    exact isHandling_handled (hd.subset he)
  · exact isHandling_handled (h.2 ▸ he)

theorem HandledDeferred.isHandling {files fs : List (FileEntry C)} {b : WriteBatch C Cb}
    {r : Except Stop Unit} {es : List (Effect C Cb)} (h : HandledDeferred files b r fs es) :
    ∀ e ∈ es, e.isHandling = true := by
  unfold HandledDeferred at h
  split at h
  · rw [h.2.2]
    simp
  · exact h.isHandling

section
variable {es : List (Effect C Cb)}

theorem filterMap_eq_nil_of {α : Type} {p : Effect C Cb → Option α}
    (h : ∀ e ∈ es, p e = none) : es.filterMap p = [] := List.filterMap_eq_nil_iff.2 h

theorem answered_flush (h : ∀ e ∈ es, e.isFlush = true) : answered es = [] :=
  filterMap_eq_nil_of fun e he => by have := h e he; cases e <;> first | rfl | cases this

theorem unlinked_flush (h : ∀ e ∈ es, e.isFlush = true) : unlinked es = [] :=
  filterMap_eq_nil_of fun e he => by have := h e he; cases e <;> first | rfl | cases this

theorem completed_flush (h : ∀ e ∈ es, e.isFlush = true) : completed es = [] :=
  filterMap_eq_nil_of fun e he => by have := h e he; cases e <;> first | rfl | cases this

theorem released_flush (h : ∀ e ∈ es, e.isFlush = true) : released es = [] :=
  filterMap_eq_nil_of fun e he => by have := h e he; cases e <;> first | rfl | cases this

theorem answered_handling (h : ∀ e ∈ es, e.isHandling = true) : answered es = [] :=
  filterMap_eq_nil_of fun e he => by have := h e he; cases e <;> first | rfl | cases this

theorem completed_handling (h : ∀ e ∈ es, e.isHandling = true) : completed es = [] :=
  filterMap_eq_nil_of fun e he => by have := h e he; cases e <;> first | rfl | cases this

theorem released_handling (h : ∀ e ∈ es, e.isHandling = true) : released es = [] :=
  filterMap_eq_nil_of fun e he => by have := h e he; cases e <;> first | rfl | cases this

end

/-- The answers to a list of writes, as `answered` shows them. -/
def replies (res : IoResult) (ws : List (QueuedWrite Cb)) : List (Nat × Cb × IoResult) :=
  ws.filterMap fun w => w.write.callback.map fun cb => (w.seq, cb, res)

@[simp] theorem replies_nil (res : IoResult) : replies res ([] : List (QueuedWrite Cb)) = [] := rfl

theorem answered_answers (res : IoResult) (ws : List (QueuedWrite Cb)) :
    answered (answers res ws : List (Effect C Cb)) = replies res ws := by
  unfold answered answers replies
  rw [List.filterMap_filterMap]
  congr 1
  funext w
  cases w.write.callback <;> rfl

theorem mem_answers {res : IoResult} {ws : List (QueuedWrite Cb)} {e : Effect C Cb}
    (h : e ∈ answers res ws) : ∃ w ∈ ws, ∃ cb, w.write.callback = some cb ∧
      e = .answer w.seq cb res := by
  obtain ⟨w, hw, he⟩ := List.mem_filterMap.1 h
  obtain ⟨cb, hcb, rfl⟩ := Option.map_eq_some_iff.1 he
  exact ⟨w, hw, cb, hcb, rfl⟩

section
variable {res : IoResult} {ws : List (QueuedWrite Cb)} {es : List (Effect C Cb)}

theorem unlinked_answers (h : ∀ e ∈ es, e ∈ answers res ws) : unlinked es = [] :=
  filterMap_eq_nil_of fun e he => by obtain ⟨w, -, cb, -, rfl⟩ := mem_answers (h e he); rfl

theorem completed_answers (h : ∀ e ∈ es, e ∈ answers res ws) : completed es = [] :=
  filterMap_eq_nil_of fun e he => by obtain ⟨w, -, cb, -, rfl⟩ := mem_answers (h e he); rfl

theorem released_answers (h : ∀ e ∈ es, e ∈ answers res ws) : released es = [] :=
  filterMap_eq_nil_of fun e he => by obtain ⟨w, -, cb, -, rfl⟩ := mem_answers (h e he); rfl

theorem fileAfter_answers (h : ∀ e ∈ es, e ∈ answers res ws) (f : Nat) (d : FileData) :
    fileAfter f d es = d :=
  fileAfter_eq (fun e he => by obtain ⟨w, -, cb, -, rfl⟩ := mem_answers (h e he); rfl) f d

end

theorem Answered.mem {res : IoResult} {ws : List (QueuedWrite Cb)} {r : Except Stop Unit}
    {es : List (Effect C Cb)} (h : Answered res ws r es) : ∀ e ∈ es, e ∈ answers res ws := by
  rcases r with (_ | _ | _) | ⟨⟩
  · exact h.elim
  · exact fun e he => h.subset he
  · exact fun e he => h.subset he
  · exact fun e he => h ▸ he

theorem Answered.replies_le {res : IoResult} {ws : List (QueuedWrite Cb)} {r : Except Stop Unit}
    {es : List (Effect C Cb)} (h : Answered res ws r es) : answered es <+: replies res ws := by
  rw [← answered_answers (C := C)]
  rcases r with (_ | _ | _) | ⟨⟩
  · exact h.elim
  · exact h.filterMap _
  · exact h.filterMap _
  · exact h ▸ List.prefix_refl _

end Worker

end Wal

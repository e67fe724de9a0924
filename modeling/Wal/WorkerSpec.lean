import Wal.Writing

/-!
# What a batch does

One specification for every function of the worker: which effects it logs, in which order, for each
way it can end. `runBatch_trace` puts them together: the effects of a batch are one of the shapes
of `BatchTrace`.
-/

namespace Wal

namespace Worker

open Lib

variable {C Cb : Type}

/-- A postcondition of a worker program: its result, the files it leaves, its effects. -/
abbrev Spec {α : Type} (m : WorkerM C Cb α) (x : Exec C Cb)
    (Q : Except Stop α → List (FileEntry C) → List (Effect C Cb) → Prop) : Prop :=
  Logs Exec.effects m x fun r x' es => Q r x'.files es

/-! ## System calls and user code -/

section
variable {x : Exec C Cb} {e : Effect C Cb}

theorem emit_spec : Spec (emit e) x fun r fs es => r = .ok () ∧ fs = x.files ∧ es = [e] :=
  .modify' (l := [e]) rfl ⟨rfl, rfl, rfl⟩

theorem setFiles_spec {files : List (FileEntry C)} :
    Spec (setFiles files) x fun r fs es => r = .ok () ∧ fs = files ∧ es = [] :=
  .modify' (l := []) (List.append_nil _).symm ⟨rfl, rfl, rfl⟩

theorem syscall_spec : Spec syscall x fun r fs es => fs = x.files ∧ es = [] ∧
    ∀ s, r = .error s → s = .starved := by
  refine .get_bind ?_
  split
  · exact .throw ⟨rfl, rfl, by simp⟩
  · exact .set_bind rfl (.pure ⟨rfl, rfl, by simp⟩)

/-- A system call: its effect, or the marker of its failure. -/
def Performed (e : Effect C Cb) (r : Except Stop IoResult) (es : List (Effect C Cb)) : Prop :=
  match r with
  | .ok (.ok ()) => es = [e]
  | .ok (.error err) => es = [.failed err]
  | .error s => s = .starved ∧ es = []

theorem perform_spec : Spec (perform e) x fun r fs es => fs = x.files ∧ Performed e r es := by
  refine .bind syscall_spec ?_ ?_
  · rintro r s es ⟨hs, rfl, -⟩
    rcases r with err | ⟨⟩
    · refine .bind emit_spec ?_ (by simp)
      rintro _ s' _ ⟨-, hs', rfl⟩
      exact .pure ⟨hs'.trans hs, rfl⟩
    · refine .bind emit_spec ?_ (by simp)
      rintro _ s' _ ⟨-, hs', rfl⟩
      exact .pure ⟨hs'.trans hs, rfl⟩
  · rintro s fs es ⟨hs, rfl, h⟩
    exact ⟨hs, h s rfl, rfl⟩

/-- User code was called, and returned or panicked. -/
def Called (e : Effect C Cb) (r : Except Stop Unit) (es : List (Effect C Cb)) : Prop :=
  match r with
  | .ok () => es = [e]
  | .error .starved => es = []
  | .error (.panicked _) => es = [e]
  | .error (.failed _) => False

theorem callUser_spec : Spec (callUser e) x fun r fs es => fs = x.files ∧ Called e r es := by
  refine .get_bind ?_
  split
  · exact .throw ⟨rfl, rfl⟩
  · refine .set_bind rfl (.bind emit_spec ?_ (by simp))
    rintro _ s' _ ⟨-, hs, rfl⟩
    split
    · exact .pure ⟨hs, rfl⟩
    · exact .throw ⟨hs, rfl⟩

end

/-! ## Writing -/

/-- `bs` was written to `f`, or a first part of it. -/
def Wrote (f : Nat) (bs : Bytes) (r : Except Stop IoResult) (es : List (Effect C Cb)) : Prop :=
  ∃ ps : List Bytes, match r with
    | .ok (.ok ()) => es = appends f ps ∧ ps.flatten = bs
    | .ok (.error e) => es = appends f ps ++ [.failed e] ∧ ps.flatten <+: bs
    | .error s => s = .starved ∧ es = appends f ps ∧ ps.flatten <+: bs

theorem Writes.wrote {f : Nat} {bs : Bytes} {x x' : Exec C Cb} {r : Except Stop IoResult}
    {es : List (Effect C Cb)} (h : Writes f bs x r x' es) : Wrote f bs r es := by
  obtain ⟨-, ps, h⟩ := h
  refine ⟨ps, ?_⟩
  rcases r with s | e | ⟨⟩
  · exact ⟨h.1, h.2.1, h.2.2.1⟩
  · exact ⟨h.1, h.2.1⟩
  · exact ⟨h.1, h.2.1⟩

theorem writeBatchVectored_spec (f : Nat) (ws : List (QueuedWrite Cb)) (x : Exec C Cb) :
    Spec (writeBatchVectored f ws) x fun r fs es => fs = x.files ∧ Wrote f (writtenData ws) r es :=
  (writeBatchVectored_logs f ws x).mono fun _ _ _ h => ⟨h.1, h.wrote⟩

/-! ## Synchronizing -/

/-- The files were synchronized, all but the last dropped, and the last reported. -/
def SyncedAll (offset : Nat) (files : List (FileEntry C)) (panicked : Bool)
    (fs : List (FileEntry C)) (es : List (Effect C Cb)) : Prop :=
  match files.getLast? with
  | none => fs = [] ∧ es = [] ∧ panicked = false
  | some f => es = files.map (fun g => .sync g.f) ++
        [.persisted { startingOffset := f.startingOffset, syncedOffset := offset } f.onPersisted] ∧
      (panicked = false → fs = [{ f with syncId := offset }])

/-- `sync_data_files`: with the error of a file that could not be synchronized, or complete. -/
def SyncTrace (offset : Nat) (files : List (FileEntry C)) (r : Except Stop IoResult)
    (fs : List (FileEntry C)) (es : List (Effect C Cb)) : Prop :=
  match r with
  | .ok (.ok ()) => SyncedAll offset files false fs es
  | .ok (.error e) => ∃ k, es = (files.take k).map (fun g => .sync g.f) ++ [.failed e]
  | .error .starved => ∃ k, es = (files.take k).map (fun g => .sync g.f)
  | .error (.panicked _) => SyncedAll offset files true fs es
  | .error (.failed _) => False

theorem SyncTrace.cons {offset : Nat} {f g : FileEntry C} {gs fs : List (FileEntry C)}
    {r : Except Stop IoResult} {es : List (Effect C Cb)} (h : SyncTrace offset (g :: gs) r fs es) :
    SyncTrace offset (f :: g :: gs) r fs (.sync f.f :: es) := by
  have hl : ((f :: g :: gs).getLast?) = (g :: gs).getLast? := by simp [List.getLast?_cons_cons]
  have all : ∀ {p : Bool}, SyncedAll offset (g :: gs) p fs es →
      SyncedAll offset (f :: g :: gs) p fs (.sync f.f :: es) := by
    intro p h
    unfold SyncedAll at h ⊢
    rw [hl]
    split at h
    · rename_i hn
      simp at hn
    · rename_i hl
      obtain ⟨rfl, hf⟩ := h
      exact ⟨rfl, hf⟩
  rcases r with (e | m | _) | e | ⟨⟩
  · exact h
  · exact all h
  · obtain ⟨k, rfl⟩ := h
    exact ⟨k + 1, rfl⟩
  · obtain ⟨k, rfl⟩ := h
    exact ⟨k + 1, rfl⟩
  · exact all h

theorem syncFiles_spec (offset : Nat) : ∀ (files : List (FileEntry C)) (x : Exec C Cb),
    x.files = files → Spec (syncFiles offset files) x (SyncTrace offset files)
  | [], x, hx => .pure ⟨hx, rfl, rfl⟩
  | [f], x, hx => by
    refine .bind perform_spec ?_ ?_
    · rintro r x' es ⟨hx', h⟩
      rcases r with e | ⟨⟩
      · exact .pure ⟨0, by rw [List.append_nil]; exact h⟩
      · cases h
        refine .bind callUser_spec ?_ ?_
        · rintro ⟨⟩ x'' es ⟨-, rfl⟩
          refine .bind setFiles_spec ?_ (by simp)
          rintro ⟨⟩ x3 es ⟨-, hx3, rfl⟩
          exact .pure ⟨rfl, fun _ => hx3⟩
        · rintro s x'' es ⟨-, h⟩
          rcases s with e | m | _
          · exact h.elim
          · cases h
            exact ⟨rfl, by simp⟩
          · cases h
            exact ⟨1, rfl⟩
    · rintro s x' es ⟨-, rfl, rfl⟩
      exact ⟨0, rfl⟩
  | f :: g :: fs, x, hx => by
    refine .bind setFiles_spec ?_ (by simp)
    rintro ⟨⟩ x' es ⟨-, hx', rfl⟩
    refine .bind perform_spec ?_ ?_
    · rintro r x'' es ⟨hx'', h⟩
      rcases r with e | ⟨⟩
      · exact .pure ⟨0, by rw [List.append_nil]; exact h⟩
      · cases h
        exact (syncFiles_spec offset (g :: fs) x'' (hx''.trans hx')).mono fun _ _ _ h => h.cons
    · rintro s x'' es ⟨-, rfl, rfl⟩
      exact ⟨0, rfl⟩

/-! ## Flushing the writes of a batch -/

/-- What happens to the writes of a batch before they are answered. -/
inductive FlushTrace (files : List (FileEntry C)) (ws : List (QueuedWrite Cb)) (f offset : Nat) :
    Except Stop IoResult → List (FileEntry C) → List (Effect C Cb) → Prop
  | unwritten {r es} (h : Wrote f (writtenData ws) r es) (hr : r ≠ .ok (.ok ())) :
      FlushTrace files ws f offset r files es
  | unsynced {es} (h : Wrote f (writtenData ws) (.ok (.ok ())) es)
      (hs : ws.any (·.write.sync) = false) : FlushTrace files ws f offset (.ok (.ok ())) files es
  | synced {es r fs es'} (h : Wrote f (writtenData ws) (.ok (.ok ())) es)
      (hs : ws.any (·.write.sync) = true) (h' : SyncTrace offset files r fs es') :
      FlushTrace files ws f offset r fs (es ++ es')

theorem flushWrites_spec (f offset : Nat) (ws : List (QueuedWrite Cb)) (x : Exec C Cb) :
    Spec (flushWrites f ws offset) x (FlushTrace x.files ws f offset) := by
  refine .bind (writeBatchVectored_spec f ws x) ?_ ?_
  · rintro r x' es ⟨hx, h⟩
    rcases r with e | ⟨⟩
    · refine .pure ?_
      rw [List.append_nil, hx]
      exact .unwritten h (by simp)
    · simp only
      split
      · rename_i hs
        refine .get_bind ((syncFiles_spec offset _ x' rfl).mono ?_)
        rintro r x'' es' h'
        rw [hx] at h'
        exact .synced h hs h'
      · rename_i hs
        refine .pure ?_
        rw [List.append_nil, hx]
        exact .unsynced h (by simpa using hs)
  · rintro e x' es ⟨hx, h⟩
    rw [hx]
    exact .unwritten h (by simp)

/-! ## Answers -/

/-- The answers to all callbacks of a list of writes. -/
def answers (res : IoResult) (ws : List (QueuedWrite Cb)) : List (Effect C Cb) :=
  ws.filterMap fun w => w.write.callback.map fun cb => .answer w.seq cb res

/-- All callbacks were answered, or a first part of them. -/
def Answered (res : IoResult) (ws : List (QueuedWrite Cb)) (r : Except Stop Unit)
    (es : List (Effect C Cb)) : Prop :=
  match r with
  | .ok () => es = answers res ws
  | .error (.failed _) => False
  | .error _ => es <+: answers res ws

theorem answerAll_spec (res : IoResult) : ∀ (ws : List (QueuedWrite Cb)) (x : Exec C Cb),
    Spec (answerAll res ws) x fun r fs es => fs = x.files ∧ Answered res ws r es
  | [], x => .pure ⟨rfl, rfl⟩
  | w :: ws, x => by
    unfold answerAll
    split
    · rename_i cb hcb
      have ha : answers res (w :: ws) = (.answer w.seq cb res : Effect C Cb) :: answers res ws := by
        simp [answers, hcb]
      refine .bind callUser_spec ?_ ?_
      · rintro ⟨⟩ x' es ⟨hx, rfl⟩
        refine (answerAll_spec res ws x').mono ?_
        rintro r x'' es' ⟨hx', h⟩
        refine ⟨hx'.trans hx, ?_⟩
        unfold Answered at h ⊢
        rw [ha]
        split at h
        · rw [h, List.singleton_append]
        · exact h
        · exact (List.prefix_append_right_inj [_]).2 h
      · rintro s x' es ⟨hx, h⟩
        refine ⟨hx, ?_⟩
        rcases s with e | m | _
        · exact h
        · cases h
          simp only [Answered, ha]
          exact List.prefix_append [_] _
        · cases h
          exact List.nil_prefix
    · rename_i hcb
      have ha : (answers res (w :: ws) : List (Effect C Cb)) = answers res ws := by
        simp [answers, hcb]
      refine (answerAll_spec res ws x).mono ?_
      rintro r x' es ⟨hx, h⟩
      refine ⟨hx, ?_⟩
      unfold Answered at h ⊢
      rw [ha]
      exact h

/-! ## Other requests -/

/-- The effects of a request that is not a write. -/
def handled (files : List (FileEntry C)) (r : SeqRequest C Cb) : List (Effect C Cb) :=
  match r.req with
  | .appendFile entry => [.appendFile entry.f]
  | .write _ => []
  | .getFlushStat =>
    [.stat r.seq (files.map fun f =>
      { startingOffset := f.startingOffset, syncId := f.syncId, ino := f.f })]
  | .removeChunks ids => ids.map .unlink ++ if ids ≠ [] then [.syncDir] else []

/-- The files after a request that is not a write. -/
def filesAfter (files : List (FileEntry C)) (r : SeqRequest C Cb) : List (FileEntry C) :=
  match r.req with
  | .appendFile entry => files ++ [entry]
  | _ => files

/-- A request that is not a write was handled, or stopped in the middle. -/
def Handled (files : List (FileEntry C)) (q : SeqRequest C Cb) (r : Except Stop Unit)
    (fs : List (FileEntry C)) (es : List (Effect C Cb)) : Prop :=
  match r with
  | .ok () => fs = filesAfter files q ∧ es = handled files q
  | .error (.failed e) => fs = files ∧ ∃ ds, ds <+: handled files q ∧
      (∀ d ∈ ds, ∃ id, d = .unlink id) ∧ es = ds ++ [.failed e]
  | .error .starved => fs = files ∧ ∃ ds, ds <+: handled files q ∧
      (∀ d ∈ ds, ∃ id, d = .unlink id) ∧ es = ds
  | .error (.panicked _) => False

theorem liftResult_perform_spec {e : Effect C Cb} {x : Exec C Cb} :
    Spec (do liftResult (← perform e)) x fun r fs es => fs = x.files ∧ match r with
      | .ok () => es = [e]
      | .error (.failed err) => es = [.failed err]
      | .error .starved => es = []
      | .error (.panicked _) => False := by
  refine .bind perform_spec ?_ ?_
  · rintro r x' es ⟨hx, h⟩
    rcases r with err | ⟨⟩
    · exact .throw ⟨hx, by rw [List.append_nil]; exact h⟩
    · exact .pure ⟨hx, by rw [List.append_nil]; exact h⟩
  · rintro s x' es ⟨hx, rfl, rfl⟩
    exact ⟨hx, rfl⟩

theorem removeFiles_spec : ∀ (ids : List Nat) (x : Exec C Cb),
    Spec (removeFiles ids) x fun r fs es => fs = x.files ∧ match r with
      | .ok () => es = ids.map .unlink
      | .error (.failed e) => ∃ ks, ks <+: ids ∧ es = ks.map .unlink ++ [.failed e]
      | .error .starved => ∃ ks, ks <+: ids ∧ es = ks.map .unlink
      | .error (.panicked _) => False
  | [], x => .pure ⟨rfl, rfl⟩
  | id :: ids, x => by
    have h1 := liftResult_perform_spec (e := (.unlink id : Effect C Cb)) (x := x)
    unfold removeFiles
    rw [← bind_assoc]
    refine .bind h1 ?_ ?_
    · rintro ⟨⟩ x' es ⟨hx, rfl⟩
      refine (removeFiles_spec ids x').mono ?_
      rintro r x'' es ⟨hx', h⟩
      refine ⟨hx'.trans hx, ?_⟩
      rcases r with (e | m | _) | ⟨⟩
      · obtain ⟨ks, hk, rfl⟩ := h
        exact ⟨id :: ks, (List.prefix_append_right_inj [id]).2 hk, rfl⟩
      · exact h
      · obtain ⟨ks, hk, rfl⟩ := h
        exact ⟨id :: ks, (List.prefix_append_right_inj [id]).2 hk, rfl⟩
      · cases h
        rfl
    · rintro s x' es ⟨hx, h⟩
      refine ⟨hx, ?_⟩
      rcases s with e | m | _
      · exact ⟨[], List.nil_prefix, h⟩
      · exact h
      · exact ⟨[], List.nil_prefix, h⟩

theorem collectStats_spec : ∀ (fs : List (FileEntry C)) (x : Exec C Cb),
    Spec (collectStats fs) x fun r fs' es => fs' = x.files ∧ match r with
      | .ok stats => es = [] ∧ stats = fs.map fun f =>
          { startingOffset := f.startingOffset, syncId := f.syncId, ino := f.f }
      | .error (.failed e) => es = [.failed e]
      | .error .starved => es = []
      | .error (.panicked _) => False
  | [], x => .pure ⟨rfl, rfl, rfl⟩
  | f :: fs, x => by
    refine .bind syscall_spec ?_ ?_
    · rintro r x' es ⟨hx, rfl, -⟩
      rcases r with e | ⟨⟩
      · refine .bind emit_spec ?_ (by simp)
        rintro ⟨⟩ x'' es ⟨-, hx', rfl⟩
        exact .throw ⟨hx'.trans hx, rfl⟩
      · refine .bind (collectStats_spec fs x') ?_ ?_
        · rintro stats x'' es ⟨hx', rfl, rfl⟩
          exact .pure ⟨hx'.trans hx, rfl, rfl⟩
        · rintro s x'' es ⟨hx', h⟩
          refine ⟨hx'.trans hx, ?_⟩
          rcases s with e | m | _ <;> exact h
    · rintro s x' es ⟨hx, rfl, hs⟩
      cases hs s rfl
      exact ⟨hx, rfl⟩

theorem handleNonFlushRequest_spec (q : SeqRequest C Cb) (hq : q.req.isWrite = false)
    (x : Exec C Cb) : Spec (handleNonFlushRequest q) x (Handled x.files q) := by
  unfold handleNonFlushRequest
  split
  · rename_i entry hr
    refine .bind emit_spec ?_ (by simp)
    rintro ⟨⟩ x' es ⟨-, hx, rfl⟩
    refine .get_bind (setFiles_spec.mono ?_)
    rintro r x'' es ⟨rfl, hx', rfl⟩
    simp only [Handled, filesAfter, handled, hr]
    exact ⟨by rw [hx', hx], rfl⟩
  · rename_i hr
    simp [hr, WorkerRequest.isWrite] at hq
  · rename_i hr
    refine .get_bind (.bind (collectStats_spec x.files x) ?_ ?_)
    · rintro stats x' es ⟨hx, rfl, rfl⟩
      refine emit_spec.mono ?_
      rintro r x'' es ⟨rfl, hx', rfl⟩
      simp only [Handled, filesAfter, handled, hr]
      exact ⟨hx'.trans hx, rfl⟩
    · rintro s x' es ⟨hx, h⟩
      rcases s with e | m | _
      · exact ⟨hx, [], List.nil_prefix, by simp, h⟩
      · exact h
      · exact ⟨hx, [], List.nil_prefix, by simp, h⟩
  · rename_i ids hr
    have unlinks : ∀ {ks : List Nat}, ∀ d ∈ ks.map (.unlink : Nat → Effect C Cb),
        ∃ id, d = .unlink id := by
      intro ks d hd
      obtain ⟨id, -, rfl⟩ := List.mem_map.1 hd
      exact ⟨id, rfl⟩
    have part : ∀ {ks : List Nat}, ks <+: ids →
        ks.map (.unlink : Nat → Effect C Cb) <+: handled x.files q := by
      intro ks hk
      simp only [handled, hr]
      exact (hk.map _).trans (List.prefix_append _ _)
    refine .bind (removeFiles_spec ids x) ?_ ?_
    · rintro ⟨⟩ x' es ⟨hx, rfl⟩
      split
      · rename_i hne
        refine liftResult_perform_spec.mono ?_
        rintro r x'' es ⟨hx', h⟩
        rcases r with (e | m | _) | ⟨⟩
        · cases h
          exact ⟨hx'.trans hx, _, part (List.prefix_refl _), unlinks, rfl⟩
        · exact h
        · cases h
          exact ⟨hx'.trans hx, _, part (List.prefix_refl _), unlinks, List.append_nil _⟩
        · cases h
          simp only [Handled, filesAfter, handled, hr, if_pos hne, and_true]
          exact hx'.trans hx
      · rename_i hne
        refine .pure ?_
        simp only [Handled, filesAfter, handled, hr, if_neg hne, and_true]
        exact hx
    · rintro s x' es ⟨hx, h⟩
      rcases s with e | m | _
      · obtain ⟨ks, hk, rfl⟩ := h
        exact ⟨hx, _, part hk, unlinks, rfl⟩
      · exact h
      · obtain ⟨ks, hk, rfl⟩ := h
        exact ⟨hx, _, part hk, unlinks, rfl⟩

/-! ## A batch -/

/-- A batch as the loop collects it: a deferred request is not a write, and something was taken. -/
structure Collected (b : WriteBatch C Cb) : Prop where
  deferred : ∀ r, b.lastNonFlush = some r → r.req.isWrite = false
  nonempty : b.writes ≠ [] ∨ b.lastNonFlush ≠ none
  maxSeq : b.maxSeq = (b.writes.map (·.seq)).foldl max 0

theorem Collected.push {b : WriteBatch C Cb} (hn : b.lastNonFlush = none)
    (hm : b.maxSeq = (b.writes.map (·.seq)).foldl max 0) (r : SeqRequest C Cb) :
    Collected (b.pushSeqRequest r).2 := by
  obtain ⟨seq, req⟩ := r
  cases req with
  | write w => exact ⟨by simp [WriteBatch.pushSeqRequest, hn], by simp [WriteBatch.pushSeqRequest],
      by simp [WriteBatch.pushSeqRequest, hm]⟩
  | _ => exact ⟨by simp [WriteBatch.pushSeqRequest, WorkerRequest.isWrite],
      by simp [WriteBatch.pushSeqRequest], by simp [WriteBatch.pushSeqRequest, hm]⟩

theorem Collected.first (maxItems : Nat) (r : SeqRequest C Cb) :
    Collected ((WriteBatch.new maxItems).pushSeqRequest r).2 := .push rfl rfl r

theorem collectWriteBatch_spec : ∀ (k : Nat) (b : WriteBatch C Cb) (q : List (SeqRequest C Cb)),
    Collected b → b.lastNonFlush = none →
      Collected (collectWriteBatch k b q).1 ∧
        (collectWriteBatch k b q).1.requests ++ (collectWriteBatch k b q).2 = b.requests ++ q
  | 0, b, q, hb, _ => ⟨hb, rfl⟩
  | k + 1, b, [], hb, _ => ⟨hb, rfl⟩
  | k + 1, b, r :: q, hb, hn => by
    unfold collectWriteBatch
    have hp := WriteBatch.push_requests (r := r) hn
    have hc : Collected (b.pushSeqRequest r).2 := .push hn hb.maxSeq r
    split
    · simp only
      split
      · rename_i hw
        have ih := collectWriteBatch_spec k _ q hc ((WriteBatch.push_true hw).trans hn)
        rw [ih.2, hp]
        exact ⟨ih.1, by simp⟩
      · rw [hp]
        exact ⟨hc, by simp⟩
    · exact ⟨hb, rfl⟩

theorem nextBatch_spec (maxItems k : Nat) (r : SeqRequest C Cb) (q : List (SeqRequest C Cb)) :
    Collected (nextBatch maxItems k r q).1 ∧
      (nextBatch maxItems k r q).1.requests ++ (nextBatch maxItems k r q).2 = r :: q := by
  have hp := WriteBatch.push_requests (b := WriteBatch.new maxItems) (r := r) rfl
  have hc := Collected.first maxItems r
  unfold nextBatch
  simp only
  split
  · rename_i hw
    have h := collectWriteBatch_spec k _ q hc (WriteBatch.push_true hw)
    rw [h.2, hp]
    exact ⟨h.1, rfl⟩
  · rw [hp]
    exact ⟨hc, rfl⟩

/-- The run after one turn that starts with the request `r`. -/
def afterTurn (maxItems : Nat) (c : Cut) (w : Run C Cb) (r : SeqRequest C Cb)
    (q : List (SeqRequest C Cb)) : Run C Cb where
  files := (turn maxItems c w.files r q).2.2.files
  effects := w.effects ++ (turn maxItems c w.files r q).2.2.effects
  queue := (nextBatch maxItems c.budget r q).2
  stop := (turn maxItems c w.files r q).2.1

theorem runInner_cons {maxItems : Nat} {c : Cut} {cuts : List Cut} {w : Run C Cb}
    {r : SeqRequest C Cb} {q : List (SeqRequest C Cb)} (hs : w.stop = none)
    (hq : w.queue = r :: q) :
    runInner maxItems (c :: cuts) w = runInner maxItems cuts (afterTurn maxItems c w r q) := by
  simp only [runInner, hs, hq, afterTurn]

theorem runInner_stopped {maxItems : Nat} {cuts : List Cut} {w : Run C Cb}
    (h : w.stop ≠ none ∨ w.queue = []) : runInner maxItems cuts w = w := by
  cases cuts with
  | nil => rfl
  | cons c cuts =>
    unfold runInner
    rcases hs : w.stop with _ | s
    · rw [h.resolve_left (by simp [hs])]
    · rfl

/-- The last upto offset and the current file, where the writes of a batch go. -/
structure Target (files : List (FileEntry C)) (b : WriteBatch C Cb) (f offset : Nat) : Prop where
  file : ∃ e, files.getLast? = some e ∧ e.f = f
  upto : ∃ w, b.writes.getLast? = some w ∧ w.write.uptoOffset = offset

/-- The highest sequence number of a batch. -/
def batchSeq (b : WriteBatch C Cb) : Nat :=
  match b.writes, b.lastNonFlush with
  | _, none => b.maxSeq
  | [], some r => r.seq
  | _ :: _, some r => max b.maxSeq r.seq

/-- The deferred request of a batch, if any. -/
def HandledDeferred (files : List (FileEntry C)) (b : WriteBatch C Cb) (r : Except Stop Unit)
    (fs : List (FileEntry C)) (es : List (Effect C Cb)) : Prop :=
  match b.lastNonFlush with
  | none => r = .ok () ∧ fs = files ∧ es = []
  | some q => Handled files q r fs es

def stopOf : Except Stop Unit → Option Stop
  | .ok () => none
  | .error s => some s

/-- A batch that is done completes its requests. -/
def completion (b : WriteBatch C Cb) : Except Stop Unit → List (Effect C Cb)
  | .ok () => [.complete (batchSeq b)]
  | .error _ => []

@[simp] theorem stopOf_ok (u : Unit) : stopOf (.ok u) = none := rfl
@[simp] theorem stopOf_error (s : Stop) : stopOf (.error s) = some s := rfl
@[simp] theorem completion_ok (b : WriteBatch C Cb) (u : Unit) :
    completion b (.ok u) = [.complete (batchSeq b)] := rfl
@[simp] theorem completion_error (b : WriteBatch C Cb) (s : Stop) :
    completion b (.error s) = [] := rfl

/-- **The effects of a batch**, by the way it ends. -/
inductive BatchTrace (files : List (FileEntry C)) (b : WriteBatch C Cb) :
    Option Stop → List (FileEntry C) → List (Effect C Cb) → Prop
  /-- A first request that is not a write is handled alone. -/
  | single {r fs es} (hw : b.writes = []) (h : HandledDeferred files b r fs es) :
      BatchTrace files b (stopOf r) fs (es ++ completion b r)
  /-- The worker panics while it writes or synchronizes. -/
  | flushStopped {f upto s fs es} (ht : Target files b f upto)
      (h : FlushTrace files b.writes f upto (.error s) fs es) : BatchTrace files b (some s) fs es
  /-- A callback panics. -/
  | answerStopped {f upto res fs es s es'} (ht : Target files b f upto)
      (h : FlushTrace files b.writes f upto (.ok res) fs es)
      (h' : Answered res b.writes (.error s) es') : BatchTrace files b (some s) fs (es ++ es')
  /-- A write or a synchronization fails. -/
  | failed {f upto e fs es} (ht : Target files b f upto)
      (h : FlushTrace files b.writes f upto (.ok (.error e)) fs es) :
      BatchTrace files b (some (.failed e)) fs
        (es ++ answers (.error e) b.writes ++ [.release b.bytes])
  /-- The writes are done; what is left is the deferred request. -/
  | flushed {f upto fs es r fs' es'} (ht : Target files b f upto)
      (h : FlushTrace files b.writes f upto (.ok (.ok ())) fs es)
      (h' : HandledDeferred fs b r fs' es') :
      BatchTrace files b (stopOf r) fs'
        (es ++ answers (.ok ()) b.writes ++ [.release b.bytes] ++ es' ++ completion b r)

theorem runBatch_spec (b : WriteBatch C Cb) (hb : Collected b) (x : Exec C Cb)
    (hx : x.files ≠ []) :
    Spec (runBatch b) x fun r fs es => BatchTrace x.files b (stopOf r) fs es := by
  unfold runBatch
  split
  · rename_i hw
    have hw : b.writes = [] := by simpa using hw
    split
    · rename_i hn
      exact absurd hn (hb.nonempty.resolve_left (by simp [hw]))
    · rename_i r hr
      have hd : ∀ {res fs es}, Handled x.files r res fs es →
          HandledDeferred x.files b res fs es := by
        intro res fs es h
        simpa only [HandledDeferred, hr] using h
      have hseq : batchSeq b = r.seq := by simp only [batchSeq, hw, hr]
      refine .bind (handleNonFlushRequest_spec r (hb.deferred r hr) x) ?_ ?_
      · rintro ⟨⟩ x' es h
        refine emit_spec.mono ?_
        rintro r' x'' es' ⟨rfl, hx', rfl⟩
        rw [hx', ← hseq]
        exact .single hw (hd h)
      · rintro s x' es h
        have := BatchTrace.single hw (hd h)
        simpa using this
  · rename_i w hw
    refine .get_bind ?_
    split
    · rename_i hn
      exact absurd (List.getLast?_eq_none_iff.1 hn) hx
    · rename_i e he
      have ht : Target x.files b e.f w.write.uptoOffset := ⟨⟨e, he, rfl⟩, ⟨w, hw, rfl⟩⟩
      refine .bind (flushWrites_spec e.f _ b.writes x) ?_ ?_
      · rintro res x1 es1 h1
        refine .bind (answerAll_spec res b.writes x1) ?_ ?_
        · rintro ⟨⟩ x2 es2 ⟨hx2, rfl⟩
          refine .bind emit_spec ?_ (by simp)
          rintro ⟨⟩ x3 es3 ⟨-, hx3, rfl⟩
          rcases res with err | ⟨⟩
          · refine .bind (Q := fun r x' es => r = .error (.failed err) ∧ x' = x3 ∧ es = [])
              (.throw ⟨rfl, rfl, rfl⟩) (by simp) ?_
            rintro s x4 es4 ⟨⟨⟩, rfl, rfl⟩
            rw [hx3, hx2]
            have := BatchTrace.failed ht h1
            simpa [List.append_assoc] using this
          · refine .bind (Q := fun r x' es => r = .ok () ∧ x' = x3 ∧ es = [])
              (.pure ⟨rfl, rfl, rfl⟩) ?_ (by simp)
            rintro ⟨⟩ x3 es4 ⟨-, rfl, rfl⟩
            rw [← hx2, ← hx3] at h1
            split
            · rename_i hn
              have hd : HandledDeferred x3.files b (.ok ()) x3.files ([] : List (Effect C Cb)) := by
                simp only [HandledDeferred, hn, and_self]
              have hseq : batchSeq b = b.maxSeq := by simp only [batchSeq, hn]
              refine emit_spec.mono ?_
              rintro r x4 es4 ⟨rfl, hx4, rfl⟩
              rw [hx4, ← hseq]
              have := BatchTrace.flushed ht h1 hd
              simpa [List.append_assoc] using this
            · rename_i q hq
              have hd : ∀ {res fs es}, Handled x3.files q res fs es →
                  HandledDeferred x3.files b res fs es := by
                intro res fs es h
                simpa only [HandledDeferred, hq] using h
              have hseq : batchSeq b = max b.maxSeq q.seq := by
                cases hws : b.writes with
                | nil => simp [hws] at hw
                | cons v vs => simp only [batchSeq, hws, hq]
              refine .bind (handleNonFlushRequest_spec q (hb.deferred q hq) x3) ?_ ?_
              · rintro ⟨⟩ x4 es4 h4
                refine emit_spec.mono ?_
                rintro r x5 es5 ⟨rfl, hx5, rfl⟩
                rw [hx5, ← hseq]
                have := BatchTrace.flushed ht h1 (hd h4)
                simpa [List.append_assoc] using this
              · rintro s x4 es4 h4
                have := BatchTrace.flushed ht h1 (hd h4)
                simpa [List.append_assoc] using this
        · rintro s x2 es2 ⟨hx2, h2⟩
          rw [hx2]
          exact .answerStopped ht h1 h2
      · rintro s x1 es1 h1
        exact .flushStopped ht h1

theorem SyncTrace.files_ne_nil {offset : Nat} {files fs : List (FileEntry C)}
    {es : List (Effect C Cb)} (h : SyncTrace offset files (.ok (.ok ())) fs es)
    (hf : files ≠ []) : fs ≠ [] := by
  simp only [SyncTrace, SyncedAll] at h
  split at h
  · rename_i hn
    exact absurd (List.getLast?_eq_none_iff.1 hn) hf
  · rw [h.2 trivial]
    simp

theorem FlushTrace.files_ne_nil {files fs : List (FileEntry C)} {ws : List (QueuedWrite Cb)}
    {f offset : Nat} {es : List (Effect C Cb)}
    (h : FlushTrace files ws f offset (.ok (.ok ())) fs es) (hf : files ≠ []) : fs ≠ [] := by
  cases h with
  | unwritten _ hr => exact absurd rfl hr
  | unsynced => exact hf
  | synced _ _ h' => exact h'.files_ne_nil hf

theorem HandledDeferred.files_ne_nil {files fs : List (FileEntry C)} {b : WriteBatch C Cb}
    {es : List (Effect C Cb)} (h : HandledDeferred files b (.ok ()) fs es) (hf : files ≠ []) :
    fs ≠ [] := by
  unfold HandledDeferred at h
  split at h
  · exact h.2.1 ▸ hf
  · rw [h.1]
    unfold filesAfter
    split
    · simp
    · exact hf

theorem BatchTrace.files_ne_nil {files fs : List (FileEntry C)} {b : WriteBatch C Cb}
    {stop : Option Stop} {es : List (Effect C Cb)} (h : BatchTrace files b stop fs es)
    (hs : stop = none) (hf : files ≠ []) : fs ≠ [] := by
  cases h with
  | @single r _ _ _ h =>
    rcases r with s | ⟨⟩
    · cases hs
    · exact h.files_ne_nil hf
  | flushStopped => cases hs
  | answerStopped => cases hs
  | failed => cases hs
  | @flushed _ _ _ _ r _ _ _ h h' =>
    rcases r with s | ⟨⟩
    · cases hs
    · exact h'.files_ne_nil (h.files_ne_nil hf)

/-- **What a batch does**: its effects have one of the shapes of `BatchTrace`. -/
theorem execBatch_trace {files : List (FileEntry C)} {script : Script} {b : WriteBatch C Cb}
    (hb : Collected b) (hf : files ≠ []) :
    BatchTrace files b (execBatch files script b).1 (execBatch files script b).2.files
      (execBatch files script b).2.effects := by
  obtain ⟨es, hl, h⟩ := runBatch_spec b hb { files, script, effects := [] } hf
  have he : execBatch files script b =
      (stopOf (outcome (runBatch b) { files, script, effects := [] }).1,
        (outcome (runBatch b) { files, script, effects := [] }).2) := by
    unfold execBatch outcome
    split <;> rename_i hr <;> simp only [hr] <;> rfl
  rw [he]
  simp only at hl ⊢
  rw [List.nil_append] at hl
  rw [hl]
  exact h

end Worker

end Wal

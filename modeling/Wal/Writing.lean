import Wal.Lib.Log
import Wal.Worker

/-!
# Vectored writes

What `write_batch_vectored` writes, whatever its write calls return (`Writes`): all of the data or,
when it fails or the script of results ends, a first part of it. Every result but an interruption
ends the loop or moves it on by a byte, so as many of them as there are bytes are enough.
-/

namespace Wal

/-- `ErrorKind::Interrupted`. -/
def interrupted : Except IoError Nat → Bool
  | .ok _ => false
  | .error e => decide (e.kind = .interrupted)

/-- The results of write calls that are still to come, interruptions apart. -/
def Script.attempts (s : Script) : Nat := s.writes.countP (!interrupted ·)

namespace Worker

open Lib

variable {C Cb : Type}

/-! ## Pieces -/

/-- Successful writes to a file, piece by piece. -/
def appends (f : Nat) (pieces : List Bytes) : List (Effect C Cb) := pieces.map (.append f)

@[simp] theorem appends_nil (f : Nat) : (appends f [] : List (Effect C Cb)) = [] := rfl

theorem appends_append (f : Nat) (ps qs : List Bytes) :
    (appends f (ps ++ qs) : List (Effect C Cb)) = appends f ps ++ appends f qs := by
  simp [appends]

/-- The bytes of a list of writes, in order. -/
def writtenData (ws : List (QueuedWrite Cb)) : Bytes := (ws.map fun w => w.write.data).flatten

@[simp] theorem writtenData_nil : writtenData ([] : List (QueuedWrite Cb)) = [] := rfl

@[simp] theorem writtenData_append (ws vs : List (QueuedWrite Cb)) :
    writtenData (ws ++ vs) = writtenData ws ++ writtenData vs := by simp [writtenData]

/-- **What a program writes** that is to write `bs` to `f`. -/
def Writes (f : Nat) (bs : Bytes) (x : Exec C Cb) (r : Except Stop IoResult) (x' : Exec C Cb)
    (es : List (Effect C Cb)) : Prop :=
  x'.files = x.files ∧ ∃ ps : List Bytes, match r with
    | .ok (.ok ()) => es = appends f ps ∧ ps.flatten = bs ∧
        x.script.attempts ≤ x'.script.attempts + bs.length
    | .ok (.error e) => es = appends f ps ++ [.failed e] ∧ ps.flatten <+: bs ∧
        ps.flatten.length < bs.length
    | .error s => s = .starved ∧ es = appends f ps ∧ ps.flatten <+: bs ∧
        x.script.attempts < bs.length

/-- More is written after a part of the data. -/
theorem Writes.after {f : Nat} {ps : List Bytes} {bs : Bytes} {x x' x'' : Exec C Cb}
    {r : Except Stop IoResult} {es : List (Effect C Cb)} (hx : x'.files = x.files)
    (hcalls : x.script.attempts ≤ x'.script.attempts + ps.flatten.length)
    (h : Writes f bs x' r x'' es) :
    Writes f (ps.flatten ++ bs) x r x'' (appends f ps ++ es) := by
  obtain ⟨hfiles, qs, h⟩ := h
  refine ⟨hfiles.trans hx, ps ++ qs, ?_⟩
  rw [List.length_append, appends_append, List.flatten_append]
  rcases r with s | e | ⟨⟩
  · obtain ⟨hs, rfl, hp, hlt⟩ := h
    exact ⟨hs, rfl, (List.prefix_append_right_inj _).2 hp, by omega⟩
  · obtain ⟨rfl, hp, hlt⟩ := h
    refine ⟨(List.append_assoc _ _ _).symm, (List.prefix_append_right_inj _).2 hp, ?_⟩
    rw [List.length_append]
    omega
  · obtain ⟨rfl, rfl, hle⟩ := h
    exact ⟨rfl, rfl, by omega⟩

/-- Not all of the data was written, and there is more of it. -/
theorem Writes.extend {f : Nat} {bs cs : Bytes} {x x' : Exec C Cb} {r : Except Stop IoResult}
    {es : List (Effect C Cb)} (h : Writes f bs x r x' es) (hr : r ≠ .ok (.ok ())) :
    Writes f (bs ++ cs) x r x' es := by
  obtain ⟨hfiles, ps, h⟩ := h
  refine ⟨hfiles, ps, ?_⟩
  rw [List.length_append]
  rcases r with s | e | ⟨⟩
  · exact ⟨h.1, h.2.1, h.2.2.1.trans (List.prefix_append _ _), by omega⟩
  · exact ⟨h.1, h.2.1.trans (List.prefix_append _ _), by omega⟩
  · exact absurd rfl hr

/-! ## The loop -/

theorem flatten_advanceSlices : ∀ (slices : List Bytes) (n : Nat),
    (advanceSlices slices n).flatten = slices.flatten.drop n
  | [], _ => by simp [advanceSlices]
  | s :: ss, n => by
    unfold advanceSlices
    split
    · rename_i h
      rw [flatten_advanceSlices ss, List.flatten_cons, List.drop_append, List.drop_of_length_le h,
        List.nil_append]
    · rename_i h
      rw [List.flatten_cons, List.flatten_cons, List.drop_append_of_le_length (by omega)]

theorem advanceSlices_ne_nil {slices : List Bytes} (h : ∀ s ∈ slices, s ≠ []) (n : Nat) :
    ∀ s ∈ advanceSlices slices n, s ≠ [] := by
  induction slices generalizing n with
  | nil => exact fun s hs => absurd hs (by simp [advanceSlices])
  | cons s ss ih =>
    obtain ⟨-, hss⟩ := List.forall_mem_cons.1 h
    unfold advanceSlices
    split
    · exact ih hss _
    · rename_i hn
      refine List.forall_mem_cons.2 ⟨fun hd => hn ?_, hss⟩
      exact List.drop_eq_nil_iff.1 hd

theorem emit_logs {e : Effect C Cb} {x : Exec C Cb} : Logs Exec.effects (emit e) x fun r x' es =>
    r = .ok () ∧ x'.files = x.files ∧ x'.script = x.script ∧ es = [e] :=
  .modify' (l := [e]) rfl ⟨rfl, rfl, rfl, rfl⟩

theorem writeVectored_logs {f : Nat} {slices : List Bytes} {x : Exec C Cb} :
    Logs Exec.effects (writeVectored f slices) x fun r x' es => x'.files = x.files ∧ match r with
      | .ok r => x'.script.writes.length + 1 = x.script.writes.length ∧
          x.script.attempts = x'.script.attempts + (if interrupted r then 0 else 1) ∧
          match r with
          | .ok n => ∃ bs, bs <+: slices.flatten ∧ bs.length = n ∧
            es = if bs ≠ [] then [.append f bs] else []
          | .error _ => es = []
      | .error s => s = .starved ∧ es = [] ∧ x.script.attempts = 0 := by
  refine .get_bind ?_
  split
  · rename_i hw
    exact .throw ⟨rfl, rfl, rfl, by simp [Script.attempts, hw]⟩
  · rename_i w rest hw
    have hlen : rest.length + 1 = x.script.writes.length := by rw [hw, List.length_cons]
    have hcalls : x.script.attempts = rest.countP (!interrupted ·) +
      (if interrupted w then 0 else 1) := by
      rw [Script.attempts, hw, List.countP_cons]
      cases interrupted w <;> rfl
    refine .set_bind rfl ?_
    split
    · exact .pure ⟨rfl, hlen, hcalls, rfl⟩
    · rename_i n
      simp only
      split
      · rename_i hne
        refine .bind emit_logs ?_ (by simp)
        rintro _ x' _ ⟨-, hfiles, hscript, rfl⟩
        refine .pure ⟨hfiles, by rw [hscript]; exact hlen, by rw [hscript]; exact hcalls, _,
          List.take_prefix n _, rfl, (if_pos hne).symm⟩
      · rename_i hne
        exact .pure ⟨rfl, hlen, hcalls, _, List.take_prefix n _, rfl, (if_neg hne).symm⟩

/-- **The loop of `write_all_vectored`**, over slices none of which is empty. -/
theorem writeLoop_logs (f fuel : Nat) (slices : List Bytes) (x : Exec C Cb)
    (hs : ∀ s ∈ slices, s ≠ []) (hf : x.script.writes.length < fuel) :
    Logs Exec.effects (writeLoop f fuel slices) x (Writes f slices.flatten x) := by
  induction fuel generalizing slices x with
  | zero => omega
  | succ fuel ih =>
    rcases slices with _ | ⟨s, ss⟩
    · exact .pure ⟨rfl, [], rfl, rfl, Nat.le_add_right _ _⟩
    have hpos : 0 < (s :: ss).flatten.length := by
      rw [List.flatten_cons, List.length_append]
      have := List.length_pos_of_ne_nil (List.forall_mem_cons.1 hs).1
      omega
    refine .bind writeVectored_logs ?_ ?_
    · rintro r x' es ⟨hfiles, hlen, hcalls, h⟩
      split
      · -- `Ok(0)`, with bytes left.
        obtain ⟨bs, -, hl, rfl⟩ := h
        rw [List.length_eq_zero_iff.1 hl, if_neg (by simp)]
        refine .bind emit_logs ?_ (by simp)
        rintro _ x'' _ ⟨-, hfiles', -, rfl⟩
        exact .pure ⟨hfiles'.trans hfiles, [], rfl, List.nil_prefix, hpos⟩
      · rename_i n hn
        obtain ⟨bs, ⟨cs, hc⟩, hl, rfl⟩ := h
        have hne : bs ≠ [] := by
          rintro rfl
          exact hn hl.symm
        rw [if_pos hne]
        refine (ih _ x' (advanceSlices_ne_nil hs n) (by omega)).mono ?_
        intro r x'' es hw
        rw [flatten_advanceSlices, ← hc, ← hl, List.drop_left] at hw
        rw [← hc]
        have hstep : x.script.attempts ≤ x'.script.attempts + [bs].flatten.length := by
          have := List.length_pos_of_ne_nil hne
          rw [hcalls, List.flatten_singleton, interrupted, if_neg (by simp)]
          omega
        have := hw.after hfiles hstep
        rwa [List.flatten_singleton] at this
      · subst h
        split
        · rename_i hi
          refine (ih _ x' hs (by omega)).mono ?_
          intro r x'' es hw
          have hstep :
            x.script.attempts ≤ x'.script.attempts + ([] : List Bytes).flatten.length := by
            simp [hcalls, interrupted, hi]
          exact hw.after hfiles hstep
        · refine .bind emit_logs ?_ (by simp)
          rintro _ x'' _ ⟨-, hfiles', -, rfl⟩
          exact .pure ⟨hfiles'.trans hfiles, [], rfl, List.nil_prefix, hpos⟩
    · rintro e x' es ⟨hfiles, rfl, rfl, hcalls⟩
      exact ⟨hfiles, [], rfl, rfl, List.nil_prefix, by omega⟩

/-! ## All groups -/

theorem flatten_ioSlices (ws : List (QueuedWrite Cb)) :
    ((ws.filter fun w => !w.write.data.isEmpty).map fun w => w.write.data).flatten =
      writtenData ws := by
  induction ws with
  | nil => rfl
  | cons w ws ih =>
    rw [List.filter_cons]
    split
    · simp only [List.map_cons, List.flatten_cons, ih, writtenData]
    · rename_i h
      have hd : w.write.data = [] := by simpa using h
      simp only [ih, writtenData, List.map_cons, List.flatten_cons, hd, List.nil_append]

theorem writeAllVectored_logs (f : Nat) (ws : List (QueuedWrite Cb)) (x : Exec C Cb) :
    Logs Exec.effects
      (writeAllVectored f ((ws.filter fun w => !w.write.data.isEmpty).map fun w => w.write.data)) x
      (Writes f (writtenData ws) x) := by
  refine .get_bind ?_
  rw [← flatten_ioSlices]
  refine writeLoop_logs f _ _ x ?_ (Nat.lt_succ_self _)
  intro s hs
  obtain ⟨w, hw, rfl⟩ := List.mem_map.1 hs
  simpa using (List.mem_filter.1 hw).2

theorem writeChunks_logs (f : Nat) (chunks : List (List (QueuedWrite Cb))) (x : Exec C Cb) :
    Logs Exec.effects (writeChunks f chunks) x (Writes f (writtenData chunks.flatten) x) := by
  induction chunks generalizing x with
  | nil => exact .pure ⟨rfl, [], rfl, rfl, Nat.le_add_right _ _⟩
  | cons chunk rest ih =>
    unfold writeChunks
    rw [List.flatten_cons, writtenData_append]
    simp only
    split
    · -- All requests of the group are empty.
      rename_i he
      have hw := flatten_ioSlices chunk
      rw [List.isEmpty_iff.1 he] at hw
      rw [← hw]
      exact ih x
    · refine .bind (writeAllVectored_logs f chunk x) ?_ ?_
      · rintro r x' es h
        split
        · refine (ih x').mono ?_
          intro r x'' es' h'
          obtain ⟨hfiles, ps, rfl, hps, hcalls⟩ := h
          rw [← hps] at hcalls ⊢
          exact h'.after hfiles hcalls
        · refine .pure ?_
          rw [List.append_nil]
          exact h.extend (by simp)
      · rintro e x' es h
        exact h.extend (by simp)

theorem flatten_chunks {α : Type} (n : Nat) (acc xs : List α) :
    (chunks n acc xs).flatten = acc ++ xs := by
  induction xs generalizing acc with
  | nil => cases acc <;> simp [chunks]
  | cons x xs ih =>
    have he : chunks n acc (x :: xs) =
        if acc.length < n then chunks n (acc ++ [x]) xs else acc :: chunks n [x] xs := by
      cases acc <;> rfl
    rw [he]
    split
    · rw [ih, List.append_assoc, List.singleton_append]
    · rw [List.flatten_cons, ih, List.singleton_append]

/-- **What `write_batch_vectored` does.** -/
theorem writeBatchVectored_logs (f : Nat) (ws : List (QueuedWrite Cb)) (x : Exec C Cb) :
    Logs Exec.effects (writeBatchVectored f ws) x (Writes f (writtenData ws) x) := by
  have h := writeChunks_logs f (chunks MAX_VECTORED_WRITE_SLICES [] ws) x
  rwa [flatten_chunks, List.nil_append] at h

end Worker

end Wal

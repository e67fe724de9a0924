import Wal.Trace

/-!
# Batching refines one-at-a-time processing

`View` is what the outside sees of a worker: the files, the list of files it may still have to
synchronize (the current one last), the removed files, `done_seq` and the answered callbacks.
`View.handle` says what one request does to it when requests are handled one by one. A run of
`run_inner` that cuts the queue into batches leaves the same view, except that more of a file may
be synchronized (`View.Refines`): `batching_refines`.
-/

namespace Wal

namespace Worker

variable {C Cb : Type}

structure View (Cb : Type) where
  file : Nat → FileData
  files : List Nat
  removed : List Nat
  doneSeq : Nat
  answered : List (Nat × Cb × IoResult)

namespace View

/-- The view after some effects that leave the given files listed. -/
def after (v : View Cb) (files : List (FileEntry C)) (es : List (Effect C Cb)) : View Cb where
  file f := fileAfter f (v.file f) es
  files := files.map (·.f)
  removed := v.removed ++ unlinked es
  doneSeq := doneAfter v.doneSeq es
  answered := v.answered ++ Wal.answered es

def appendCurrent (v : View Cb) (bs : Bytes) (f : Nat) : FileData :=
  if v.files.getLast? = some f then (v.file f).append bs else v.file f

/-- One request alone, when everything succeeds. -/
def handle (v : View Cb) (r : SeqRequest C Cb) : View Cb :=
  match r.req with
  | .write w =>
    { file := fun f =>
        if w.sync ∧ f ∈ v.files then (v.appendCurrent w.data f).sync else v.appendCurrent w.data f
      files := if w.sync then v.files.getLast?.toList else v.files
      removed := v.removed
      doneSeq := max v.doneSeq r.seq
      answered := v.answered ++ (w.callback.map fun cb => (r.seq, cb, .ok ())).toList }
  | .appendFile entry => { v with files := v.files ++ [entry.f], doneSeq := max v.doneSeq r.seq }
  | .removeChunks ids => { v with removed := v.removed ++ ids, doneSeq := max v.doneSeq r.seq }
  | .getFlushStat => { v with doneSeq := max v.doneSeq r.seq }

/-- The same view, with at least as much synchronized. -/
structure Refines (a b : View Cb) : Prop where
  data : ∀ f, (a.file f).data = (b.file f).data
  synced : ∀ f, (b.file f).synced ≤ (a.file f).synced
  files : a.files = b.files
  removed : a.removed = b.removed
  doneSeq : a.doneSeq = b.doneSeq
  answered : a.answered = b.answered

theorem Refines.refl (v : View Cb) : v.Refines v :=
  ⟨fun _ => rfl, fun _ => Nat.le_refl _, rfl, rfl, rfl, rfl⟩

theorem Refines.trans {a b c : View Cb} (h : a.Refines b) (h' : b.Refines c) : a.Refines c :=
  ⟨fun f => (h.data f).trans (h'.data f), fun f => (h'.synced f).trans (h.synced f),
    h.files.trans h'.files, h.removed.trans h'.removed, h.doneSeq.trans h'.doneSeq,
    h.answered.trans h'.answered⟩

theorem ext_of {a b : View Cb} (hf : ∀ f, a.file f = b.file f) (h : a.Refines b) : a = b := by
  obtain ⟨-, -, h1, h2, h3, h4⟩ := h
  cases a
  cases b
  simp only [mk.injEq]
  exact ⟨funext hf, h1, h2, h3, h4⟩

/-- One more request keeps the refinement. -/
theorem Refines.handle {a b : View Cb} (h : a.Refines b) (r : SeqRequest C Cb) :
    (a.handle r).Refines (b.handle r) := by
  obtain ⟨hd, hs, hf, hr, hq, ha⟩ := h
  unfold View.handle
  split
  · have hc : ∀ bs f, (a.appendCurrent bs f).data = (b.appendCurrent bs f).data ∧
        (b.appendCurrent bs f).synced ≤ (a.appendCurrent bs f).synced := by
      intro bs f
      unfold appendCurrent
      rw [hf]
      split
      · simp [hd, hs]
      · exact ⟨hd f, hs f⟩
    refine ⟨fun f => ?_, fun f => ?_, by simp only [hf], hr, by simp only [hq], by simp only [ha]⟩
    · simp only [hf]
      split
      · exact (hc _ f).1
      · exact (hc _ f).1
    · simp only [hf]
      split
      · rw [FileData.sync_synced, FileData.sync_synced, (hc _ f).1]
      · exact (hc _ f).2
  · exact ⟨hd, hs, by simp only [hf], hr, by simp only [hq], ha⟩
  · exact ⟨hd, hs, hf, by simp only [hr], by simp only [hq], ha⟩
  · exact ⟨hd, hs, hf, hr, by simp only [hq], ha⟩

theorem Refines.handleAll {a b : View Cb} (h : a.Refines b) (rs : List (SeqRequest C Cb)) :
    (rs.foldl View.handle a).Refines (rs.foldl View.handle b) := by
  induction rs generalizing a b with
  | nil => exact h
  | cons r rs ih => exact ih (h.handle r)

@[simp] theorem after_after (v : View Cb) (fs fs' : List (FileEntry C))
    (es es' : List (Effect C Cb)) :
    (v.after fs es).after fs' es' = v.after fs' (es ++ es') := by
  simp [after]

/-! ## The writes of a batch, one by one -/

/-- The writes of a batch as requests. -/
abbrev asRequests (ws : List (QueuedWrite Cb)) : List (SeqRequest C Cb) :=
  ws.map fun w => { seq := w.seq, req := .write w.write }

theorem getLast?_handle_write {v : View Cb} {seq : Nat} {w : WriteRequest Cb} :
    (v.handle ({ seq, req := .write w } : SeqRequest C Cb)).files.getLast? =
      v.files.getLast? := by
  simp only [handle]
  split
  · cases v.files.getLast? <;> rfl
  · rfl

theorem mem_handle_write {v : View Cb} {seq : Nat} {w : WriteRequest Cb} {f : Nat}
    (h : f ∈ (v.handle ({ seq, req := .write w } : SeqRequest C Cb)).files) : f ∈ v.files := by
  simp only [handle] at h
  split at h
  · exact List.mem_of_getLast? (by simpa using h)
  · exact h

/-- What a list of writes does one by one. -/
structure WritesHandled (C : Type) (v v' : View Cb) (ws : List (QueuedWrite Cb)) : Prop where
  data : ∀ f, (v'.file f).data = (v.appendCurrent (writtenData ws) f).data
  unsynced : ws.any (·.write.sync) = false →
    ∀ f, v'.file f = v.appendCurrent (writtenData ws) f
  unlisted : ∀ f, f ∉ v.files → v'.file f = v.file f
  files : v'.files = if ws.any (·.write.sync) then v.files.getLast?.toList else v.files
  removed : v'.removed = v.removed
  doneSeq : v'.doneSeq = (ws.map (·.seq)).foldl max v.doneSeq
  answered : v'.answered = v.answered ++ replies (.ok ()) ws

theorem appendCurrent_nil (v : View Cb) (f : Nat) : v.appendCurrent [] f = v.file f := by
  unfold appendCurrent
  split
  · exact FileData.append_nil _
  · rfl

theorem appendCurrent_unlisted {v : View Cb} {bs : Bytes} {f : Nat} (h : f ∉ v.files) :
    v.appendCurrent bs f = v.file f :=
  if_neg fun hl => h (List.mem_of_getLast? hl)

theorem handle_writes (ws : List (QueuedWrite Cb)) (v : View Cb) :
    WritesHandled C v ((asRequests ws : List (SeqRequest C Cb)).foldl handle v) ws := by
  induction ws generalizing v with
  | nil =>
    exact ⟨fun f => by simp [appendCurrent_nil], fun _ f => by simp [appendCurrent_nil],
      fun _ _ => rfl, rfl, rfl, rfl, (List.append_nil _).symm⟩
  | cons w ws ih =>
    have ih := ih (v.handle ({ seq := w.seq, req := .write w.write } : SeqRequest C Cb))
    have hl : (v.handle ({ seq := w.seq, req := .write w.write } : SeqRequest C Cb)).files.getLast?
        = v.files.getLast? := getLast?_handle_write
    have hw : writtenData (w :: ws) = w.write.data ++ writtenData ws := rfl
    have hc : (asRequests (w :: ws) : List (SeqRequest C Cb)).foldl handle v =
        (asRequests ws : List (SeqRequest C Cb)).foldl handle
          (v.handle ({ seq := w.seq, req := .write w.write } : SeqRequest C Cb)) := rfl
    rw [hc]
    refine ⟨fun f => ?_, fun hs f => ?_, fun f hf => ?_, ?_, ?_, ?_, ?_⟩
    · rw [ih.data, hw]
      simp only [appendCurrent, hl]
      simp only [handle, appendCurrent]
      split
      · split <;> simp
      · split <;> simp
    · rw [List.any_cons, Bool.or_eq_false_iff] at hs
      rw [ih.unsynced hs.2, hw]
      simp only [appendCurrent, hl]
      simp only [handle, appendCurrent, hs.1]
      split
      · simp [FileData.append_append]
      · simp
    · rw [ih.unlisted f fun hm => hf (mem_handle_write hm)]
      simp only [handle, hf, and_false, if_false]
      exact appendCurrent_unlisted hf
    · rw [ih.files, hl]
      simp only [handle, List.any_cons]
      by_cases hs : w.write.sync = true <;> simp [hs]
    · rw [ih.removed]
      rfl
    · rw [ih.doneSeq]
      rfl
    · rw [ih.answered]
      simp only [handle, replies, List.filterMap_cons]
      cases w.write.callback <;> simp

end View

/-! ## One batch -/

theorem SyncTrace.refines {offset : Nat} {files fs : List (FileEntry C)}
    {es : List (Effect C Cb)} (h : SyncTrace offset files (.ok (.ok ())) fs es)
    (hf : files ≠ []) : fs.map (·.f) = (files.map (·.f)).getLast?.toList ∧
      ∀ f d, fileAfter f d es = if f ∈ files.map (·.f) then d.sync else d := by
  simp only [SyncTrace, SyncedAll] at h
  split at h
  · rename_i hn
    exact absurd (List.getLast?_eq_none_iff.1 hn) hf
  · rename_i e he
    obtain ⟨rfl, hfs⟩ := h
    refine ⟨by rw [hfs trivial, List.getLast?_map, he]; rfl, fun f d => ?_⟩
    rw [fileAfter_append, fileAfter_syncs]
    rfl

theorem Target.getLast {files : List (FileEntry C)} {b : WriteBatch C Cb} {f upto : Nat}
    (ht : Target files b f upto) : (files.map (·.f)).getLast? = some f := by
  obtain ⟨e, he, rfl⟩ := ht.file
  rw [List.getLast?_map, he]
  rfl

theorem FlushTrace.file_eq {files fs : List (FileEntry C)} {ws : List (QueuedWrite Cb)}
    {f offset : Nat} {es : List (Effect C Cb)}
    (h : FlushTrace files ws f offset (.ok (.ok ())) fs es)
    (ht : (files.map (·.f)).getLast? = some f) :
    fs.map (·.f) = (if ws.any (·.write.sync) then (files.map (·.f)).getLast?.toList
      else files.map (·.f)) ∧
      ∀ g d, fileAfter g d es =
        let d' := if f = g then d.append (writtenData ws) else d
        if ws.any (·.write.sync) ∧ g ∈ files.map (·.f) then d'.sync else d' := by
  have hf : files ≠ [] := by
    rintro rfl
    simp at ht
  cases h with
  | unwritten _ hr => exact absurd rfl hr
  | unsynced h hs =>
    obtain ⟨ps, rfl, hps⟩ := h
    refine ⟨by simp [hs], fun g d => ?_⟩
    simp only [hs, Bool.false_eq_true, false_and, if_false]
    rw [fileAfter_appends, hps]
  | synced h hs h' =>
    obtain ⟨ps, rfl, hps⟩ := h
    obtain ⟨hfs, hd⟩ := h'.refines hf
    refine ⟨by rw [if_pos hs, hfs], fun g d => ?_⟩
    simp only [hs, true_and]
    rw [fileAfter_append, fileAfter_appends, hps, hd]

theorem HandledDeferred.view {files fs : List (FileEntry C)} {b : WriteBatch C Cb}
    {es : List (Effect C Cb)} (h : HandledDeferred files b (.ok ()) fs es) (hb : Collected b)
    {v : View Cb} (hv : v.files = files.map (·.f)) :
    b.lastNonFlush.toList.foldl View.handle v = { v.after fs es with
      doneSeq := (b.lastNonFlush.toList.map (·.seq)).foldl max v.doneSeq } := by
  obtain ⟨file, vfiles, removed, doneSeq, answered'⟩ := v
  simp only at hv
  subst hv
  unfold HandledDeferred at h
  split at h
  · rename_i hn
    obtain ⟨-, rfl, rfl⟩ := h
    simp [View.after, hn, unlinked, answered]
  · rename_i q hq
    obtain ⟨rfl, rfl⟩ := h
    have hw := hb.deferred q hq
    have ha : answered (handled files q) = [] :=
      answered_handling fun _ he => isHandling_handled he
    simp only [View.after, fileAfter_handled, unlinked_handled, ha, List.append_nil, hq,
      Option.toList_some, List.foldl_cons, List.foldl_nil, List.map_cons, List.map_nil]
    unfold View.handle filesAfter removals
    obtain ⟨seq, req⟩ := q
    cases req with
    | write w => simp [WorkerRequest.isWrite] at hw
    | _ => simp

theorem HandledDeferred.neutral {files fs : List (FileEntry C)} {b : WriteBatch C Cb}
    {r : Except Stop Unit} {es : List (Effect C Cb)} (h : HandledDeferred files b r fs es) (f : Nat)
    (d : FileData) : fileAfter f d es = d :=
  fileAfter_eq (fun e he => isDiskIo_of_isHandling (h.isHandling e he)) f d

theorem foldl_max_eq (l : List Nat) (n : Nat) : l.foldl max n = max n (l.foldl max 0) := by
  induction l generalizing n with
  | nil => simp
  | cons a l ih =>
    rw [List.foldl_cons, List.foldl_cons, ih, ih (max 0 a)]
    omega

theorem max_batchSeq {b : WriteBatch C Cb} (hb : Collected b) (n : Nat) :
    max n (batchSeq b) = (b.requests.map (·.seq)).foldl max n := by
  have hm : (b.requests.map (·.seq)).foldl max 0 =
      (b.lastNonFlush.toList.map (·.seq)).foldl max b.maxSeq := by
    rw [hb.maxSeq, WriteBatch.requests, List.map_append, List.foldl_append, List.map_map]
    rfl
  rw [foldl_max_eq, hm]
  congr 1
  unfold batchSeq
  split
  · simp [*]
  · rename_i r hw hr
    simp [hr, hb.maxSeq, hw]
  · simp [*]

/-- **One batch refines its requests one by one.** -/
theorem BatchTrace.refines {files fs : List (FileEntry C)} {b : WriteBatch C Cb}
    {stop : Option Stop} {es : List (Effect C Cb)} (h : BatchTrace files b stop fs es)
    (hs : stop = none) (hb : Collected b) {v : View Cb} (hv : v.files = files.map (·.f)) :
    (v.after fs es).Refines (b.requests.foldl View.handle v) := by
  have hreq : b.requests = View.asRequests b.writes ++ b.lastNonFlush.toList := rfl
  cases h with
  | @single r _ es hw h =>
    rcases r with s | ⟨⟩
    · cases hs
    rw [hreq, hw, View.asRequests, List.map_nil, List.nil_append, h.view hb hv]
    have hq : (b.requests.map (·.seq)).foldl max v.doneSeq =
        (b.lastNonFlush.toList.map (·.seq)).foldl max v.doneSeq := by
      rw [hreq, hw, View.asRequests, List.map_nil, List.nil_append]
    refine ⟨fun f => ?_, fun f => ?_, rfl, ?_, ?_, ?_⟩
    · simp only [View.after, fileAfter_append]
      rfl
    · simp only [View.after, fileAfter_append]
      exact Nat.le_refl _
    · simp [View.after]
    · rw [← hq, ← max_batchSeq hb]
      simp only [View.after, doneAfter, completed_append, completed_handling h.isHandling]
      rfl
    · simp [View.after]
  | flushStopped => cases hs
  | answerStopped => cases hs
  | failed => cases hs
  | @flushed f upto fs₁ es₁ r _ es₂ ht h h' =>
    rcases r with s | ⟨⟩
    · cases hs
    rw [completion_ok]
    have hlast := ht.getLast
    obtain ⟨hfs, hfile⟩ := h.file_eq hlast
    have hw := View.handle_writes (C := C) b.writes v
    rw [hreq, List.foldl_append,
      h'.view hb (by rw [hw.files, hv, hfs])]
    have hd : ∀ g, (v.after fs (es₁ ++ answers (.ok ()) b.writes ++ [.release b.bytes] ++ es₂ ++
        [.complete (batchSeq b)])).file g = fileAfter g (v.file g) es₁ := by
      intro g
      simp only [View.after, fileAfter_append, fileAfter_answers fun _ h => h, h'.neutral]
      rfl
    have happ : ∀ g, v.appendCurrent (writtenData b.writes) g =
        if f = g then (v.file g).append (writtenData b.writes) else v.file g := by
      intro g
      rw [View.appendCurrent, hv, hlast]
      simp only [Option.some.injEq]
    have hu : unlinked (answers (C := C) (.ok ()) b.writes) = [] := unlinked_answers fun _ h => h
    have hc : completed (answers (C := C) (.ok ()) b.writes) = [] := completed_answers fun _ h => h
    refine ⟨fun g => ?_, fun g => ?_, rfl, ?_, ?_, ?_⟩
    · rw [hd, hfile]
      simp only [View.after, h'.neutral]
      rw [hw.data, happ]
      split <;> simp
    · rw [hd, hfile]
      simp only [View.after, h'.neutral]
      by_cases hsync : b.writes.any (·.write.sync) = true
      · by_cases hg : g ∈ files.map (·.f)
        · rw [if_pos ⟨hsync, hg⟩, ← happ, FileData.sync_synced, ← hw.data]
          exact FileData.synced_le _
        · rw [if_neg fun h => hg h.2, hw.unlisted g (by rw [hv]; exact hg), ← happ,
            View.appendCurrent_unlisted (by rw [hv]; exact hg)]
      · rw [if_neg fun h => hsync h.1, hw.unsynced (by simpa using hsync), ← happ]
    · simp [View.after, unlinked_flush h.isFlush, hu, hw.removed]
    · simp only [View.after, hw.doneSeq]
      rw [← List.foldl_append]
      have := max_batchSeq hb v.doneSeq
      rw [hreq, List.map_append, View.asRequests, List.map_map] at this
      refine Eq.trans ?_ this
      simp [doneAfter, completed_flush h.isFlush, hc, completed_handling h'.isHandling]
    · simp [View.after, answered_flush h.isFlush, answered_answers,
        answered_handling h'.isHandling, hw.answered]

/-- A batch of one request does exactly what the request does. -/
theorem BatchTrace.single_eq {files fs : List (FileEntry C)} {b : WriteBatch C Cb}
    {stop : Option Stop} {es : List (Effect C Cb)} (h : BatchTrace files b stop fs es)
    (hs : stop = none) (hb : Collected b) {v : View Cb} (hv : v.files = files.map (·.f))
    {r : SeqRequest C Cb} (hr : b.requests = [r]) (f : Nat) :
    (v.after fs es).file f = (v.handle r).file f := by
  have hreq : b.requests = View.asRequests b.writes ++ b.lastNonFlush.toList := rfl
  rw [hr] at hreq
  cases h with
  | @single res _ es hw h =>
    rcases res with s | ⟨⟩
    · cases hs
    simp only [View.after, fileAfter_append, h.neutral]
    rw [hw] at hreq
    have hq : b.lastNonFlush = some r := by
      cases hn : b.lastNonFlush with
      | none => simp [hn] at hreq
      | some q => simpa [hn] using hreq.symm
    have hnw := hb.deferred r hq
    obtain ⟨seq, req⟩ := r
    cases req with
    | write w => cases hnw
    | _ => rfl
  | flushStopped => cases hs
  | answerStopped => cases hs
  | failed => cases hs
  | @flushed g upto fs₁ es₁ res _ es₂ ht h h' =>
    rcases res with s | ⟨⟩
    · cases hs
    have hlast := ht.getLast
    obtain ⟨w, hw, -⟩ := ht.upto
    obtain ⟨vs, hvs⟩ := List.getLast?_eq_some_iff.1 hw
    have hone : b.writes = [w] ∧ r = { seq := w.seq, req := .write w.write } := by
      rw [hvs, View.asRequests, List.map_append, List.append_assoc] at hreq
      cases vs with
      | nil =>
        simp only [List.map_nil, List.nil_append, List.map_cons, List.cons_append,
          List.cons.injEq] at hreq
        exact ⟨hvs, hreq.1⟩
      | cons u us => simp at hreq
    obtain ⟨hone, rfl⟩ := hone
    simp only [View.after, fileAfter_append, fileAfter_answers fun _ h => h, h'.neutral]
    refine ((h.file_eq hlast).2 f (v.file f)).trans ?_
    simp only [View.handle, View.appendCurrent, hv, hlast, Option.some.injEq, hone, writtenData,
      List.map_cons, List.map_nil, List.flatten_cons, List.flatten_nil, List.append_nil,
      List.any_cons, List.any_nil, Bool.or_false]

/-! ## Whole runs -/

/-- What a run has done to a view, between two turns. -/
def Run.view (w : Run C Cb) (v : View Cb) : View Cb := v.after w.files w.effects

/-- **A run refines its requests one by one**, at every boundary between two batches. -/
theorem runInner_refines {maxItems : Nat} (v : View Cb) : ∀ (cuts : List Cut) (w : Run C Cb),
    w.files ≠ [] → (runInner maxItems cuts w).stop = none →
      ∃ rs, w.queue = rs ++ (runInner maxItems cuts w).queue ∧
        ((runInner maxItems cuts w).view v).Refines (rs.foldl View.handle (w.view v))
  | [], w, _, _ => ⟨[], rfl, .refl _⟩
  | c :: cuts, w, hf, hstop => by
    rcases hs : w.stop with _ | s
    · rcases hq : w.queue with _ | ⟨r, q⟩
      · rw [runInner_stopped (.inr hq), hq]
        exact ⟨[], rfl, .refl _⟩
      · rw [runInner_cons hs hq] at hstop ⊢
        obtain ⟨hb, hreq⟩ := nextBatch_spec maxItems c.budget r q
        have ht : BatchTrace w.files (turn maxItems c w.files r q).1
            (afterTurn maxItems c w r q).stop (afterTurn maxItems c w r q).files
            (turn maxItems c w.files r q).2.2.effects := execBatch_trace hb hf
        have hnone : (afterTurn maxItems c w r q).stop = none := by
          by_contra hne
          rw [runInner_stopped (.inl hne)] at hstop
          exact hne hstop
        obtain ⟨rs, hrs, hr⟩ := runInner_refines v cuts _ (ht.files_ne_nil hnone hf) hstop
        refine ⟨(nextBatch maxItems c.budget r q).1.requests ++ rs, ?_, hr.trans ?_⟩
        · rw [List.append_assoc, ← hrs]
          exact hreq.symm
        · rw [List.foldl_append]
          refine View.Refines.handleAll ?_ rs
          have := ht.refines hnone hb (v := w.view v) rfl
          simp only [Run.view, View.after_after] at this
          exact this
    · rw [runInner_stopped (.inl (by simp [hs]))]
      exact ⟨[], rfl, .refl _⟩

/-- Handled one by one, requests do exactly what `View.handle` says. -/
theorem runInner_one_by_one {maxItems : Nat} (v : View Cb) : ∀ (cuts : List Cut) (w : Run C Cb),
    (∀ c ∈ cuts, c.budget = 0) → w.files ≠ [] → (runInner maxItems cuts w).stop = none →
      ∃ rs, w.queue = rs ++ (runInner maxItems cuts w).queue ∧
        (runInner maxItems cuts w).view v = rs.foldl View.handle (w.view v)
  | [], w, _, _, _ => ⟨[], rfl, rfl⟩
  | c :: cuts, w, h0, hf, hstop => by
    rcases hs : w.stop with _ | s
    · rcases hq : w.queue with _ | ⟨r, q⟩
      · rw [runInner_stopped (.inr hq), hq]
        exact ⟨[], rfl, rfl⟩
      · rw [runInner_cons hs hq] at hstop ⊢
        obtain ⟨hb, -⟩ := nextBatch_spec maxItems c.budget r q
        have ht : BatchTrace w.files (turn maxItems c w.files r q).1
            (afterTurn maxItems c w r q).stop (afterTurn maxItems c w r q).files
            (turn maxItems c w.files r q).2.2.effects := execBatch_trace hb hf
        have hnone : (afterTurn maxItems c w r q).stop = none := by
          by_contra hne
          rw [runInner_stopped (.inl hne)] at hstop
          exact hne hstop
        have hreq : (turn maxItems c w.files r q).1.requests = [r] ∧
            (nextBatch maxItems c.budget r q).2 = q := by
          have hp := WriteBatch.push_requests (b := WriteBatch.new maxItems) (r := r) rfl
          simp only [turn, nextBatch, h0 c List.mem_cons_self, collectWriteBatch,
            ite_self, and_true]
          exact hp
        obtain ⟨rs, hrs, hr⟩ := runInner_one_by_one v cuts _
          (fun c hc => h0 c (List.mem_cons_of_mem _ hc)) (ht.files_ne_nil hnone hf) hstop
        refine ⟨r :: rs, ?_, hr.trans ?_⟩
        · rw [List.cons_append, ← hrs]
          exact congrArg _ hreq.2.symm
        · rw [List.foldl_cons]
          congr 1
          have href := ht.refines hnone hb (v := w.view v) rfl
          rw [hreq.1] at href
          have hfile := fun f => ht.single_eq hnone hb (v := w.view v) rfl hreq.1 f
          simp only [Run.view, View.after_after] at href hfile
          exact View.ext_of hfile href
    · rw [runInner_stopped (.inl (by simp [hs]))]
      exact ⟨[], rfl, rfl⟩

/-- The bytes that requests bring to the file `g`: a write goes to the file appended last. -/
def dataFor (g : Nat) : Nat → List (SeqRequest C Cb) → Bytes
  | _, [] => []
  | cur, r :: rs =>
    match r.req with
    | .write w => (if cur = g then w.data else []) ++ dataFor g cur rs
    | .appendFile entry => dataFor g entry.f rs
    | _ => dataFor g cur rs

theorem data_handleAll (g : Nat) (rs : List (SeqRequest C Cb)) (v : View Cb) (cur : Nat)
    (hc : v.files.getLast? = some cur) :
    ((rs.foldl View.handle v).file g).data = (v.file g).data ++ dataFor g cur rs := by
  induction rs generalizing v cur with
  | nil => simp [dataFor]
  | cons r rs ih =>
    obtain ⟨seq, req⟩ := r
    rw [List.foldl_cons]
    cases req with
    | write w =>
      rw [ih _ cur (View.getLast?_handle_write.trans hc)]
      have hd : ((v.handle ({ seq, req := .write w } : SeqRequest C Cb)).file g).data =
          (v.file g).data ++ if cur = g then w.data else [] := by
        simp only [View.handle, View.appendCurrent, hc, Option.some.injEq]
        split <;> split <;> simp
      rw [hd, List.append_assoc]
      rfl
    | appendFile entry => exact ih _ entry.f (by simp [View.handle])
    | getFlushStat => exact ih _ cur hc
    | removeChunks ids => exact ih _ cur hc

/-! ## Durability of acknowledged writes -/

/-- The worker was given the file `g`. -/
def Tracked (files : List (FileEntry C)) (es : List (Effect C Cb)) (g : Nat) : Prop :=
  g ∈ files.map (·.f) ∨ .appendFile g ∈ es

/-- Everything in a file is on stable storage. -/
def Durable (d : FileData) : Prop := d.synced = d.data.length

/-- Before a callback gets `Ok`, the batch was written and, if it asks for it, synchronized. -/
theorem BatchTrace.flushed_before_ok {files fs : List (FileEntry C)} {b : WriteBatch C Cb}
    {stop : Option Stop} {es pre post : List (Effect C Cb)} (h : BatchTrace files b stop fs es)
    {seq : Nat} {cb : Cb} (he : es = pre ++ .answer seq cb (.ok ()) :: post) :
    (seq, cb, .ok ()) ∈ replies (.ok ()) b.writes ∧ ∃ f upto fs₁ es₁ pre',
      Target files b f upto ∧ FlushTrace files b.writes f upto (.ok (.ok ())) fs₁ es₁ ∧
      pre = es₁ ++ pre' ∧ ∀ x ∈ pre', x ∈ answers (.ok ()) b.writes := by
  have reply : ∀ {r : IoResult}, .answer seq cb (.ok ()) ∈ answers (C := C) r b.writes →
      r = .ok () ∧ (seq, cb, .ok ()) ∈ replies (.ok ()) b.writes := by
    intro res hm
    obtain ⟨w, hw, cb', hcb, hx⟩ := mem_answers hm
    obtain ⟨rfl, rfl, rfl⟩ := Effect.answer.inj hx
    exact ⟨rfl, List.mem_filterMap.2 ⟨w, hw, by rw [hcb]; rfl⟩⟩
  have notFlush : ∀ {es₁ : List (Effect C Cb)}, (∀ e ∈ es₁, e.isFlush = true) →
      .answer seq cb (.ok ()) ∉ es₁ := fun hf hm => by cases hf _ hm
  have notHandling : ∀ {es₁ : List (Effect C Cb)}, (∀ e ∈ es₁, e.isHandling = true) →
      .answer seq cb (.ok ()) ∉ es₁ := fun hf hm => by cases hf _ hm
  have notComplete : ∀ r : Except Stop Unit, .answer seq cb (.ok ()) ∉ completion b r := by
    rintro (_ | ⟨⟩) <;> simp
  cases h with
  | @single r _ es _ h =>
    have hm : .answer seq cb (.ok ()) ∈ es ++ completion b r := by
      rw [he]
      simp
    rcases List.mem_append.1 hm with hm | hm
    · exact absurd hm (notHandling h.isHandling)
    · exact absurd hm (notComplete r)
  | flushStopped _ h =>
    have hm : .answer seq cb (.ok ()) ∈ es := by
      rw [he]
      simp
    exact absurd hm (notFlush h.isFlush)
  | @answerStopped f upto res fs₁ es₁ s es' ht h h' =>
    obtain ⟨pre', rfl, hp⟩ := split_of_notMem (notFlush h.isFlush) he
    obtain ⟨rfl, hr⟩ := reply (h'.mem _ (by rw [hp]; simp))
    exact ⟨hr, f, upto, _, es₁, pre', ht, h, rfl,
      fun x hx => h'.mem x (by rw [hp]; exact List.mem_append_left _ hx)⟩
  | @failed f upto e fs₁ es₁ ht h =>
    rw [List.append_assoc] at he
    obtain ⟨pre', rfl, hp⟩ := split_of_notMem (notFlush h.isFlush) he
    obtain ⟨post', hp⟩ := split_of_notMem_right (by simp) hp
    obtain ⟨hr, -⟩ := reply (by rw [hp]; simp)
    cases hr
  | @flushed f upto fs₁ es₁ r _ es' ht h h' =>
    rw [List.append_assoc, List.append_assoc, List.append_assoc] at he
    obtain ⟨pre', rfl, hp⟩ := split_of_notMem (notFlush h.isFlush) he
    have hn : .answer seq cb (.ok ()) ∉ [.release b.bytes] ++ (es' ++ completion b r) := by
      simp only [List.mem_append, not_or]
      exact ⟨by simp, notHandling h'.isHandling, notComplete r⟩
    obtain ⟨post', hp⟩ := split_of_notMem_right hn hp
    obtain ⟨-, hr⟩ := reply (r := .ok ()) (by rw [hp]; simp)
    exact ⟨hr, f, upto, fs₁, es₁, pre', ht, h, rfl,
      fun x hx => by rw [hp]; exact List.mem_append_left _ hx⟩

theorem FlushTrace.listed_or_durable {files fs : List (FileEntry C)}
    {ws : List (QueuedWrite Cb)} {f offset : Nat} {es : List (Effect C Cb)}
    (h : FlushTrace files ws f offset (.ok (.ok ())) fs es)
    (ht : (files.map (·.f)).getLast? = some f) (g : Nat) (d : FileData) :
    (g ∈ files.map (·.f) → (ws.any (·.write.sync) = true → Durable (fileAfter g d es)) ∧
      (ws.any (·.write.sync) = false → g ∈ fs.map (·.f))) ∧
      (g ∉ files.map (·.f) → fileAfter g d es = d) := by
  obtain ⟨hfs, hd⟩ := h.file_eq ht
  refine ⟨fun hg => ⟨fun hs => ?_, fun hs => ?_⟩, fun hg => ?_⟩
  · rw [hd]
    simp only [hs, hg, and_self, if_true]
    rfl
  · rw [hfs, if_neg (by simp [hs])]
    exact hg
  · rw [hd]
    have hne : f ≠ g := by
      rintro rfl
      exact hg (List.mem_of_getLast? ht)
    simp only [hg, and_false, if_false, hne]

theorem HandledDeferred.listed {files fs : List (FileEntry C)} {b : WriteBatch C Cb}
    {es : List (Effect C Cb)} (h : HandledDeferred files b (.ok ()) fs es) (g : Nat) :
    (g ∈ files.map (·.f) → g ∈ fs.map (·.f)) ∧ (.appendFile g ∈ es → g ∈ fs.map (·.f)) := by
  unfold HandledDeferred at h
  split at h
  · obtain ⟨-, rfl, rfl⟩ := h
    simp
  · rename_i q _
    obtain ⟨rfl, rfl⟩ := h
    obtain ⟨seq, req⟩ := q
    cases req with
    | appendFile entry =>
      simp only [filesAfter, handled, List.map_append, List.mem_append, List.mem_singleton]
      exact ⟨.inl, fun he => .inr (by cases he; simp)⟩
    | write w => exact ⟨id, fun he => by cases he⟩
    | getFlushStat => exact ⟨id, fun he => by simp [handled] at he⟩
    | removeChunks ids =>
      refine ⟨id, fun he => ?_⟩
      simp only [handled] at he
      split at he <;> simp at he

/-- After a batch, every file that the worker was given is still listed or durable. -/
theorem BatchTrace.listed_or_durable {files fs : List (FileEntry C)} {b : WriteBatch C Cb}
    {stop : Option Stop} {es : List (Effect C Cb)} (h : BatchTrace files b stop fs es)
    (hs : stop = none) (g : Nat) (d : FileData) :
    (g ∈ files.map (·.f) → g ∈ fs.map (·.f) ∨ Durable (fileAfter g d es)) ∧
      (g ∉ files.map (·.f) → fileAfter g d es = d) ∧
      (.appendFile g ∈ es → g ∈ fs.map (·.f)) := by
  cases h with
  | @single r _ es _ h =>
    rcases r with s | ⟨⟩
    · cases hs
    refine ⟨fun hg => .inl ((h.listed g).1 hg), fun _ => ?_, fun hm => (h.listed g).2 ?_⟩
    · rw [fileAfter_append, h.neutral]
      rfl
    · simpa using hm
  | flushStopped => cases hs
  | answerStopped => cases hs
  | failed => cases hs
  | @flushed f upto fs₁ es₁ r _ es' ht h h' =>
    rcases r with s | ⟨⟩
    · cases hs
    rw [completion_ok]
    obtain ⟨hl, hn⟩ := h.listed_or_durable ht.getLast g d
    have hfile : fileAfter g d (es₁ ++ answers (.ok ()) b.writes ++ [.release b.bytes] ++ es' ++
        [.complete (batchSeq b)]) = fileAfter g d es₁ := by
      simp only [fileAfter_append, fileAfter_answers fun _ h => h, h'.neutral]
      rfl
    refine ⟨fun hg => ?_, fun hg => hfile.trans (hn hg), fun hm => (h'.listed g).2 ?_⟩
    · rw [hfile]
      by_cases hsync : b.writes.any (·.write.sync) = true
      · exact .inr ((hl hg).1 hsync)
      · exact .inl ((h'.listed g).1 ((hl hg).2 (by simpa using hsync)))
    · have h1 : .appendFile g ∉ es₁ := fun hm => by cases h.isFlush _ hm
      have h2 : .appendFile g ∉ answers (C := C) (.ok ()) b.writes := fun hm => by
        obtain ⟨_, _, _, _, he⟩ := mem_answers hm
        cases he
      simpa [h1, h2] using hm

theorem eq_of_seq {queue : List (SeqRequest C Cb)} (h : queue.Pairwise fun a b => a.seq < b.seq)
    {a b : SeqRequest C Cb} (ha : a ∈ queue) (hb : b ∈ queue) (he : a.seq = b.seq) : a = b := by
  induction queue with
  | nil => cases ha
  | cons r rs ih =>
    obtain ⟨hr, hrs⟩ := List.pairwise_cons.1 h
    rcases List.mem_cons.1 ha with rfl | ha' <;> rcases List.mem_cons.1 hb with rfl | hb'
    · rfl
    · have := hr b hb'
      omega
    · have := hr a ha'
      omega
    · exact ih hrs ha' hb'

/-- What holds of a run between two turns: files that the worker was given are listed or durable,
and before the `Ok` of a write that asks for synchronization they all were durable. -/
structure SyncedFirst (files : List (FileEntry C)) (queue : List (SeqRequest C Cb))
    (file : Nat → FileData) (w : Run C Cb) : Prop where
  listed : w.stop = none → ∀ g, Tracked files w.effects g →
    g ∈ w.files.map (·.f) ∨ Durable (fileAfter g (file g) w.effects)
  ok : ∀ pre post seq cb wr, w.effects = pre ++ .answer seq cb (.ok ()) :: post →
    { seq, req := .write wr } ∈ queue → wr.sync = true →
    ∀ g, Tracked files pre g → Durable (fileAfter g (file g) pre)

theorem turn_syncedFirst {maxItems : Nat} {c : Cut} {w : Run C Cb} {r : SeqRequest C Cb}
    {q : List (SeqRequest C Cb)} {files : List (FileEntry C)} {queue : List (SeqRequest C Cb)}
    {file : Nat → FileData} (hs : w.stop = none) (hq : w.queue = r :: q) (hf : w.files ≠ [])
    (hsub : ∀ r ∈ w.queue, r ∈ queue) (hpw : queue.Pairwise fun a b => a.seq < b.seq)
    (h : SyncedFirst files queue file w) :
    SyncedFirst files queue file (afterTurn maxItems c w r q) := by
  obtain ⟨hb, hreq⟩ := nextBatch_spec maxItems c.budget r q
  let t := turn maxItems c w.files r q
  have ht : BatchTrace w.files t.1 (afterTurn maxItems c w r q).stop
      (afterTurn maxItems c w r q).files t.2.2.effects := execBatch_trace hb hf
  have hE : (afterTurn maxItems c w r q).effects = w.effects ++ t.2.2.effects := rfl
  refine ⟨fun hn g hg => ?_, fun pre post seq cb wr he hm hsync g hg => ?_⟩
  · rw [hE] at hg ⊢
    rw [fileAfter_append]
    obtain ⟨h1, h2, h3⟩ := ht.listed_or_durable hn g (fileAfter g (file g) w.effects)
    have old : Tracked files w.effects g → g ∈ (afterTurn maxItems c w r q).files.map (·.f) ∨
        Durable (fileAfter g (fileAfter g (file g) w.effects) t.2.2.effects) := by
      intro hg
      by_cases hl : g ∈ w.files.map (·.f)
      · exact h1 hl
      · rw [h2 hl]
        exact .inr ((h.listed hs g hg).resolve_left hl)
    rcases hg with hg | hg
    · exact old (.inl hg)
    · rcases List.mem_append.1 hg with hg | hg
      · exact old (.inr hg)
      · exact .inl (h3 hg)
  · rw [hE] at he
    rcases split_append he with ⟨post', he'⟩ | ⟨pre', rfl, he'⟩
    · exact h.ok pre post' seq cb wr he' hm hsync g hg
    · obtain ⟨hr, f, upto, fs₁, es₁, pre'', htg, hfl, rfl, hp⟩ := ht.flushed_before_ok he'
      have hany : t.1.writes.any (·.write.sync) = true := by
        obtain ⟨v, hv, hseq⟩ := List.mem_filterMap.1 hr
        obtain ⟨cb', hcb, hx⟩ := Option.map_eq_some_iff.1 hseq
        have hvq : { seq := v.seq, req := .write v.write } ∈ queue := by
          refine hsub _ ?_
          rw [hq, ← hreq]
          exact List.mem_append_left _ (List.mem_append_left _ (List.mem_map_of_mem hv))
        have hvs : v.seq = seq := congrArg Prod.fst hx
        have heq := eq_of_seq hpw hvq hm hvs
        simp only [SeqRequest.mk.injEq, WorkerRequest.write.injEq] at heq
        exact List.any_eq_true.2 ⟨v, hv, by rw [heq.2]; exact hsync⟩
      have hfile : fileAfter g (file g) (w.effects ++ (es₁ ++ pre'')) =
          fileAfter g (fileAfter g (file g) w.effects) es₁ := by
        simp only [fileAfter_append, fileAfter_answers hp]
      have hg : Tracked files w.effects g := by
        refine hg.imp_right fun hm => ?_
        have h1 : .appendFile g ∉ es₁ := fun hm => by cases hfl.isFlush _ hm
        have h2 : .appendFile g ∉ pre'' := fun hm => by
          obtain ⟨_, _, _, _, he⟩ := mem_answers (hp _ hm)
          cases he
        simpa [h1, h2] using hm
      obtain ⟨hl, hn⟩ := hfl.listed_or_durable htg.getLast g (fileAfter g (file g) w.effects)
      rw [hfile]
      by_cases hgl : g ∈ w.files.map (·.f)
      · exact (hl hgl).1 hany
      · rw [hn hgl]
        exact (h.listed hs g hg).resolve_left hgl

theorem runInner_syncedFirst {maxItems : Nat} {files : List (FileEntry C)}
    {queue : List (SeqRequest C Cb)} {file : Nat → FileData}
    (hpw : queue.Pairwise fun a b => a.seq < b.seq) : ∀ (cuts : List Cut) (w : Run C Cb),
    w.files ≠ [] → (∀ r ∈ w.queue, r ∈ queue) → SyncedFirst files queue file w →
      SyncedFirst files queue file (runInner maxItems cuts w)
  | [], _, _, _, h => h
  | c :: cuts, w, hf, hsub, h => by
    rcases hs : w.stop with _ | s
    · rcases hq : w.queue with _ | ⟨r, q⟩
      · rwa [runInner_stopped (.inr hq)]
      · rw [runInner_cons hs hq]
        have h' : SyncedFirst files queue file (afterTurn maxItems c w r q) :=
          turn_syncedFirst hs hq hf hsub hpw h
        obtain ⟨hb, hreq⟩ := nextBatch_spec maxItems c.budget r q
        have ht : BatchTrace w.files (turn maxItems c w.files r q).1
            (afterTurn maxItems c w r q).stop (afterTurn maxItems c w r q).files
            (turn maxItems c w.files r q).2.2.effects := execBatch_trace hb hf
        by_cases hn : (afterTurn maxItems c w r q).stop = none
        · refine runInner_syncedFirst hpw cuts _ (ht.files_ne_nil hn hf) ?_ h'
          intro r' hr'
          refine hsub r' ?_
          rw [hq, ← hreq]
          exact List.mem_append_right _ hr'
        · rwa [runInner_stopped (.inl hn)]
    · rwa [runInner_stopped (.inl (by simp [hs]))]

/-- The batch that a run takes once it has handled the requests `handled` with the effects `before`,
and what that batch does. -/
structure Takes (maxItems : Nat) (cuts : List Cut) (w : Run C Cb) (handled : List (SeqRequest C Cb))
    (before : List (Effect C Cb)) (batch : WriteBatch C Cb) (es : List (Effect C Cb)) : Prop where
  taken : ∃ past c later r q, cuts = past ++ c :: later ∧
    (runInner maxItems past w).stop = none ∧ (runInner maxItems past w).queue = r :: q ∧
    w.queue = handled ++ r :: q ∧ (runInner maxItems past w).effects = before ∧
    batch = (turn maxItems c (runInner maxItems past w).files r q).1 ∧
    es = (turn maxItems c (runInner maxItems past w).files r q).2.2.effects

/-- A batch of the run behind the first turn is a batch of the whole run. -/
theorem Takes.later {maxItems : Nat} {c : Cut} {cuts : List Cut} {w : Run C Cb}
    {r : SeqRequest C Cb} {q handled : List (SeqRequest C Cb)} {before es : List (Effect C Cb)}
    {batch : WriteBatch C Cb} (hs : w.stop = none) (hq : w.queue = r :: q)
    (h : Takes maxItems cuts (afterTurn maxItems c w r q) handled before batch es) :
    Takes maxItems (c :: cuts) w ((turn maxItems c w.files r q).1.requests ++ handled) before batch
      es := by
  obtain ⟨past, c', later, r', q', rfl, hstop, hqueue, hh, hbefore, hb, he⟩ := h.taken
  obtain ⟨-, hreq⟩ := nextBatch_spec maxItems c.budget r q
  have hrun : runInner maxItems (c :: past) w =
      runInner maxItems past (afterTurn maxItems c w r q) := runInner_cons hs hq
  refine ⟨c :: past, c', later, r', q', rfl, ?_, ?_, ?_, ?_, ?_, ?_⟩
  · rwa [hrun]
  · rwa [hrun]
  · rw [hq, ← hreq, List.append_assoc, ← hh]
    rfl
  · rwa [hrun]
  · rwa [hrun]
  · rwa [hrun]

/-- Before the `Ok` of a write, everything up to the end of the batch that answers it is written. -/
theorem runInner_written {maxItems : Nat} (v : View Cb) {pre post : List (Effect C Cb)} {seq : Nat}
    {cb : Cb} : ∀ (cuts : List Cut) (w : Run C Cb), w.files ≠ [] →
    (runInner maxItems cuts w).effects = pre ++ .answer seq cb (.ok ()) :: post →
    (∀ post', w.effects ≠ pre ++ .answer seq cb (.ok ()) :: post') →
      ∃ handled before batch pre' post',
        Takes maxItems cuts w handled before batch (pre' ++ .answer seq cb (.ok ()) :: post') ∧
        pre = before ++ pre' ∧ (∃ x ∈ batch.writes, x.seq = seq ∧ x.write.callback = some cb) ∧
        (handled ++ View.asRequests batch.writes) <+: w.queue ∧
        ∀ g, (fileAfter g (v.file g) pre).data =
          (((handled ++ View.asRequests batch.writes).foldl View.handle (w.view v)).file g).data
  | [], w, _, he, hn => absurd he (hn _)
  | c :: cuts, w, hf, he, hn => by
    rcases hs : w.stop with _ | s
    · rcases hq : w.queue with _ | ⟨r, q⟩
      · rw [runInner_stopped (.inr hq)] at he
        exact absurd he (hn _)
      · rw [runInner_cons hs hq] at he
        obtain ⟨hb, hreq⟩ := nextBatch_spec maxItems c.budget r q
        let t := turn maxItems c w.files r q
        have ht : BatchTrace w.files t.1 (afterTurn maxItems c w r q).stop
            (afterTurn maxItems c w r q).files t.2.2.effects := execBatch_trace hb hf
        by_cases hin : ∃ post', (afterTurn maxItems c w r q).effects =
            pre ++ .answer seq cb (.ok ()) :: post'
        · -- the answer belongs to this turn
          obtain ⟨post', hin⟩ := hin
          obtain ⟨pre', rfl, he'⟩ : ∃ pre', pre = w.effects ++ pre' ∧
              t.2.2.effects = pre' ++ .answer seq cb (.ok ()) :: post' :=
            (split_append hin).resolve_left fun ⟨p, hp⟩ => hn p hp
          obtain ⟨hr, f, upto, fs₁, es₁, pre'', htg, hfl, rfl, hp⟩ := ht.flushed_before_ok he'
          refine ⟨[], w.effects, t.1, es₁ ++ pre'', post', ⟨[], c, cuts, r, q, rfl, hs, hq, hq, rfl,
            rfl, he'.symm⟩, rfl, ?_, ?_, fun g => ?_⟩
          · obtain ⟨x, hx, hxs⟩ := List.mem_filterMap.1 hr
            obtain ⟨cb', hcb, hx'⟩ := Option.map_eq_some_iff.1 hxs
            obtain ⟨rfl, rfl, -⟩ : x.seq = seq ∧ cb' = cb ∧ True := by simpa using hx'
            exact ⟨x, hx, rfl, hcb⟩
          · rw [← hreq]
            exact (List.prefix_append _ _).trans (List.prefix_append _ _)
          · have hd := (hfl.file_eq htg.getLast).2 g (fileAfter g (v.file g) w.effects)
            have hh := (View.handle_writes (C := C) t.1.writes (w.view v)).data g
            have hlast : (w.view v).files.getLast? = some f := htg.getLast
            rw [List.nil_append, hh]
            simp only [fileAfter_append, fileAfter_answers hp, View.appendCurrent, hlast, hd]
            simp only [Run.view, View.after, Option.some.injEq]
            split <;> split <;> simp
        · -- it belongs to a later one
          have hnone : (afterTurn maxItems c w r q).stop = none := by
            by_contra hne
            rw [runInner_stopped (.inl hne)] at he
            exact hin ⟨_, he⟩
          obtain ⟨handled, before, batch, pre', post', hat, hpre, hx, hdone, hdata⟩ :=
            runInner_written v cuts _ (ht.files_ne_nil hnone hf) he fun post' h => hin ⟨post', h⟩
          refine ⟨t.1.requests ++ handled, before, batch, pre', post', hat.later hs hq, hpre, hx,
            ?_, fun g => ?_⟩
          · rw [← hreq, List.append_assoc]
            exact (List.prefix_append_right_inj _).2 hdone
          · have href := ht.refines hnone hb (v := w.view v) rfl
            simp only [Run.view, View.after_after] at href
            rw [hdata, List.append_assoc]
            refine ((href.handleAll _).data g).trans ?_
            rw [← List.foldl_append]
            rfl
    · rw [runInner_stopped (.inl (by simp [hs]))] at he
      exact absurd he (hn _)

/-! ## The refinement -/

/-- **Batching refines one-at-a-time processing.** Take two runs over the same queue that end at a
boundary between batches with the same requests done, the first cut into batches in any way, the
second one request at a time. They leave the same contents of every file, current file, removed
files, `done_seq` and answers, and the first has at least as much of every file synchronized. Every
write is in the file appended last before it. When a write that asks for synchronization is answered
with `Ok`, the batch that answers it holds it, and all data of the requests before that batch and of
every write in it is in the files appended last before them, and durable. -/
theorem batching_refines (maxItems : Nat) (cuts ones : List Cut) (files : List (FileEntry C))
    (queue : List (SeqRequest C Cb)) (v : View Cb) (cur : Nat)
    (hcur : (files.map (·.f)).getLast? = some cur)
    (hq : queue.Pairwise fun a b => a.seq < b.seq)
    (hones : ∀ c ∈ ones, c.budget = 0)
    (hcuts : (runInner maxItems cuts { files, effects := [], queue, stop := none }).stop = none)
    (hones' : (runInner maxItems ones { files, effects := [], queue, stop := none }).stop = none)
    (hsame : (runInner maxItems cuts { files, effects := [], queue, stop := none }).queue =
      (runInner maxItems ones { files, effects := [], queue, stop := none }).queue) :
    let a := runInner maxItems cuts { files, effects := [], queue, stop := none }
    let b := runInner maxItems ones { files, effects := [], queue, stop := none }
    (Run.view a v).Refines (Run.view b v) ∧
    (∃ done, queue = done ++ a.queue ∧
      ∀ g, (fileAfter g (v.file g) a.effects).data = (v.file g).data ++ dataFor g cur done) ∧
    ∀ pre post seq cb wr, a.effects = pre ++ .answer seq cb (.ok ()) :: post →
      { seq, req := .write wr } ∈ queue → wr.sync = true →
      (∃ handled before batch pre' post',
        Takes maxItems cuts { files, effects := [], queue, stop := none } handled before batch
          (pre' ++ .answer seq cb (.ok ()) :: post') ∧
        pre = before ++ pre' ∧ { seq, write := wr } ∈ batch.writes ∧
        (handled ++ View.asRequests batch.writes) <+: queue ∧
        ∀ g, (fileAfter g (v.file g) pre).data =
          (v.file g).data ++ dataFor g cur (handled ++ View.asRequests batch.writes)) ∧
      ∀ g, Tracked files pre g → Durable (fileAfter g (v.file g) pre) := by
  intro a b
  have hf : files ≠ [] := by
    rintro rfl
    simp at hcur
  obtain ⟨rs, hrs, ha⟩ := runInner_refines v cuts
    ({ files, effects := [], queue, stop := none } : Run C Cb) hf hcuts
  obtain ⟨rs', hrs', hb⟩ := runInner_one_by_one v ones
    ({ files, effects := [], queue, stop := none } : Run C Cb) hones hf hones'
  have heq : rs = rs' := by
    refine (List.append_left_inj a.queue).1 ?_
    rw [← hrs]
    exact hrs'.trans (congrArg _ hsame.symm)
  subst heq
  refine ⟨?_, ⟨rs, hrs, fun g => ?_⟩, ?_⟩
  · rw [hb]
    exact ha
  · refine (ha.data g).trans ?_
    exact data_handleAll g rs _ cur hcur
  · intro pre post seq cb wr he hwr hsync
    refine ⟨?_, ?_⟩
    · obtain ⟨handled, before, batch, pre', post', hat, hpre, ⟨x, hx, rfl, -⟩, hdone, hdata⟩ :=
        runInner_written v cuts ({ files, effects := [], queue, stop := none } : Run C Cb) hf he
          (by simp)
      have hm : { seq := x.seq, req := .write x.write } ∈ queue :=
        hdone.subset (List.mem_append_right _ (List.mem_map_of_mem hx))
      have hxw : x.write = wr := by
        simpa using congrArg SeqRequest.req (eq_of_seq hq hm hwr rfl)
      refine ⟨handled, before, batch, pre', post', hat, hpre, hxw ▸ hx, hdone,
        fun g => (hdata g).trans (data_handleAll g _ _ cur hcur)⟩
    · have h0 : SyncedFirst files queue v.file ({ files, effects := [], queue, stop := none } :
          Run C Cb) :=
        ⟨fun _ g hg => .inl (hg.resolve_right (by simp)), by simp⟩
      exact (runInner_syncedFirst hq cuts _ hf (fun _ h => h) h0).ok pre post seq cb wr he hwr hsync

/-- A rotation between synchronized writes. -/
def rotation : List (SeqRequest Unit Nat) :=
  [{ seq := 1
     req := .write { uptoOffset := 2, data := [1, 2], sync := false, callback := some 1 } },
    { seq := 2
      req := .write { uptoOffset := 3, data := [3], sync := true, callback := some 2 } },
    { seq := 3, req := .appendFile (.new 3 3 none) },
    { seq := 4, req := .write { uptoOffset := 4, data := [4], sync := true, callback := some 3 } }]

def succeeding : Script :=
  { writes := [.ok 9], calls := [.ok (), .ok ()], user := [none, none, none, none] }

/-- The worker behind `rotation`, cut by the given budgets. -/
def rotated (budgets : List Nat) : Run Unit Nat :=
  runInner 8 (budgets.map fun budget => { budget, script := succeeding })
    { files := [.new 0 0 none], effects := [], queue := rotation, stop := none }

def emptyView : View Nat :=
  { file := fun _ => .empty, files := [0], removed := [], doneSeq := 0, answered := [] }

theorem batching_refines_rotation :
    ((rotated [2, 0]).view emptyView).Refines ((rotated [0, 0, 0, 0]).view emptyView) :=
  (batching_refines 8 _ _ [.new 0 0 none] rotation emptyView 0 rfl (by decide) (by decide)
    (by decide +kernel) (by decide +kernel) (by decide +kernel)).1

end Worker

end Wal

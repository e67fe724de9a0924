import Wal.Trace

/-!
# The worker is fail-stop

A failing write, synchronization or removal is the last thing the worker does to the disk: after it,
callbacks of its own batch get the error, and the bytes of the batch are given back.
`BatchTrace.failStop` says so of one batch, `runInner_failStop` of a run over any queue, however
it is cut into batches.
-/

namespace Wal

variable {C Cb : Type}

namespace Effect

/-- What may follow a failure: no write, removal or notification, and no callback gets `Ok`. -/
def isAftermath : Effect C Cb → Bool
  | .answer _ _ (.error _) | .release _ => true
  | _ => false

end Effect

namespace Worker

/-- No operation failed. -/
def Calm (es : List (Effect C Cb)) : Prop := ∀ e ∈ es, e.isFailed = false

theorem Calm.append {es es' : List (Effect C Cb)} (h : Calm es) (h' : Calm es') :
    Calm (es ++ es') := by
  intro e he
  rcases List.mem_append.1 he with he | he
  · exact h e he
  · exact h' e he

theorem calm_of_isDiskIo {es : List (Effect C Cb)} (h : ∀ e ∈ es, e.isDiskIo = true) :
    Calm es := by
  intro e he
  have := h e he
  cases e <;> first | rfl | cases this

theorem calm_answers {res : IoResult} {ws : List (QueuedWrite Cb)} {es : List (Effect C Cb)}
    (h : ∀ e ∈ es, e ∈ answers res ws) : Calm es := by
  intro e he
  obtain ⟨w, -, cb, -, rfl⟩ := mem_answers (h e he)
  rfl

/-! ## Where a part of a batch fails -/

/-- A part of a batch failed, after nothing but `good` effects; or no operation of it failed. -/
def FailsLast (good : Effect C Cb → Prop) (err : Option IoError) (es : List (Effect C Cb)) :
    Prop :=
  match err with
  | some e => ∃ es', es = es' ++ [.failed e] ∧ ∀ x ∈ es', good x
  | none => Calm es

theorem isDiskIo_appends (f : Nat) (ps : List Bytes) :
    ∀ e ∈ (appends f ps : List (Effect C Cb)), e.isDiskIo = true := by
  intro e he
  obtain ⟨p, -, rfl⟩ := List.mem_map.1 he
  rfl

theorem isDiskIo_syncs (fs : List (FileEntry C)) :
    ∀ e ∈ fs.map fun g => (.sync g.f : Effect C Cb), e.isDiskIo = true := by
  intro e he
  obtain ⟨g, -, rfl⟩ := List.mem_map.1 he
  rfl

/-- The error with which a result of `write_batch_vectored` or `sync_data_files` fails the batch. -/
def failure : Except Stop IoResult → Option IoError
  | .ok (.error e) => some e
  | _ => none

theorem Wrote.failsLast {f : Nat} {bs : Bytes} {r : Except Stop IoResult}
    {es : List (Effect C Cb)} (h : Wrote f bs r es) :
    FailsLast (fun e => e.isDiskIo = true) (failure r) es := by
  obtain ⟨ps, h⟩ := h
  rcases r with s | e | ⟨⟩
  · exact h.2.1 ▸ calm_of_isDiskIo (isDiskIo_appends f ps)
  · exact ⟨_, h.1, isDiskIo_appends f ps⟩
  · exact h.1 ▸ calm_of_isDiskIo (isDiskIo_appends f ps)

theorem SyncTrace.failsLast {offset : Nat} {files fs : List (FileEntry C)}
    {r : Except Stop IoResult} {es : List (Effect C Cb)} (h : SyncTrace offset files r fs es) :
    FailsLast (fun e => e.isDiskIo = true) (failure r) es := by
  have all : ∀ {p : Bool}, SyncedAll offset files p fs es → Calm es := by
    intro p h
    unfold SyncedAll at h
    split at h
    · rw [h.2.1]
      simp [Calm]
    · rw [h.1]
      refine (calm_of_isDiskIo (isDiskIo_syncs files)).append ?_
      simp [Calm, Effect.isFailed]
  rcases r with (_ | _ | _) | _ | ⟨⟩
  · exact h.elim
  · exact all h
  · obtain ⟨k, rfl⟩ := h
    exact calm_of_isDiskIo (isDiskIo_syncs _)
  · obtain ⟨k, rfl⟩ := h
    exact ⟨_, rfl, isDiskIo_syncs _⟩
  · exact all h

theorem FlushTrace.failsLast {files fs : List (FileEntry C)} {ws : List (QueuedWrite Cb)}
    {f offset : Nat} {r : Except Stop IoResult} {es : List (Effect C Cb)}
    (h : FlushTrace files ws f offset r fs es) :
    FailsLast (fun e => e.isDiskIo = true) (failure r) es := by
  cases h with
  | unwritten h => exact h.failsLast
  | unsynced h => exact h.failsLast
  | synced h _ h' =>
    obtain ⟨ps, rfl, -⟩ := h
    have h' := h'.failsLast
    unfold FailsLast at h' ⊢
    split at h'
    · obtain ⟨es, rfl, hg⟩ := h'
      refine ⟨_, (List.append_assoc _ _ _).symm, ?_⟩
      intro x hx
      rcases List.mem_append.1 hx with hx | hx
      · exact isDiskIo_appends f ps x hx
      · exact hg x hx
    · exact (calm_of_isDiskIo (isDiskIo_appends f ps)).append h'

theorem calm_handled (files : List (FileEntry C)) (q : SeqRequest C Cb) :
    Calm (handled files q) := by
  intro e he
  unfold handled at he
  split at he
  · rw [List.mem_singleton.1 he]
    rfl
  · cases he
  · rw [List.mem_singleton.1 he]
    rfl
  · rcases List.mem_append.1 he with he | he
    · obtain ⟨id, -, rfl⟩ := List.mem_map.1 he
      rfl
    · split at he
      · rw [List.mem_singleton.1 he]
        rfl
      · cases he

theorem HandledDeferred.failsLast {files fs : List (FileEntry C)} {b : WriteBatch C Cb}
    {r : Except Stop Unit} {es : List (Effect C Cb)} (h : HandledDeferred files b r fs es) :
    FailsLast (fun e => e.isFailed = false)
      (match r with | .error (.failed e) => some e | _ => none) es := by
  unfold HandledDeferred at h
  split at h
  · obtain ⟨rfl, -, rfl⟩ := h
    simp [FailsLast, Calm]
  · rename_i q _
    rcases r with (e | _ | _) | ⟨⟩
    · obtain ⟨-, ds, hd, -, rfl⟩ := h
      exact ⟨ds, rfl, fun x hx => calm_handled files q x (hd.subset hx)⟩
    · exact h.elim
    · obtain ⟨-, ds, hd, -, rfl⟩ := h
      exact fun x hx => calm_handled files q x (hd.subset hx)
    · exact h.2 ▸ calm_handled files q

/-! ## One batch -/

/-- The effects `es` of a batch around its failure `e`: a write or a synchronization, whose error
the callbacks of the batch get, or the deferred request, when they have been answered. -/
structure FailedBatch (b : WriteBatch C Cb) (es pre : List (Effect C Cb)) (e : IoError)
    (post : List (Effect C Cb)) : Prop where
  split : es = pre ++ .failed e :: post
  calm : Calm pre
  aftermath : ∀ x ∈ post, x.isAftermath = true
  answers : ((∀ x ∈ pre, x.isDiskIo = true) ∧ answered post <+: replies (.error e) b.writes) ∨
    (answered pre = replies (.ok ()) b.writes ∧ post = [])

theorem isAftermath_answers {e : IoError} {ws : List (QueuedWrite Cb)} {x : Effect C Cb}
    (h : x ∈ answers (.error e) ws) : x.isAftermath = true := by
  obtain ⟨w, -, cb, -, rfl⟩ := mem_answers h
  rfl

/-- **One batch is fail-stop**: nothing of it fails and callbacks get `Ok`, or it stops the worker
and what follows the failure is harmless. -/
theorem BatchTrace.failStop {files fs : List (FileEntry C)} {b : WriteBatch C Cb}
    {stop : Option Stop} {es : List (Effect C Cb)} (h : BatchTrace files b stop fs es) :
    (Calm es ∧ answered es <+: replies (.ok ()) b.writes) ∨
      (stop ≠ none ∧ ∃ pre e post, FailedBatch b es pre e post) := by
  cases h with
  | @single r _ es hw h =>
    have hl := h.failsLast
    have ha := answered_handling h.isHandling
    rcases r with (e | m | _) | ⟨⟩
    · obtain ⟨pre, rfl, hg⟩ := hl
      rw [answered_append] at ha
      refine .inr ⟨by simp, pre, e, [], by simp, hg, by simp, .inr ⟨?_, rfl⟩⟩
      rw [hw, replies_nil]
      exact (List.append_eq_nil_iff.1 ha).1
    · exact .inl ⟨by rw [completion_error, List.append_nil]; exact hl, by simp [ha]⟩
    · exact .inl ⟨by rw [completion_error, List.append_nil]; exact hl, by simp [ha]⟩
    · refine .inl ⟨hl.append (by simp [Calm, Effect.isFailed]), ?_⟩
      rw [answered_append, ha]
      exact List.nil_prefix
  | @flushStopped _ _ s _ _ _ h =>
    exact .inl ⟨h.failsLast, by rw [answered_flush h.isFlush]; exact List.nil_prefix⟩
  | @answerStopped _ _ res _ es s es' _ h h' =>
    rcases res with e | ⟨⟩
    · obtain ⟨pre, rfl, hg⟩ := h.failsLast
      refine .inr ⟨by simp, pre, e, es', by simp, calm_of_isDiskIo hg,
        fun x hx => isAftermath_answers (h'.mem x hx), .inl ⟨hg, h'.replies_le⟩⟩
    · refine .inl ⟨Calm.append h.failsLast (calm_answers h'.mem), ?_⟩
      rw [answered_append, answered_flush h.isFlush]
      exact h'.replies_le
  | @failed _ _ e _ es _ h =>
    obtain ⟨pre, rfl, hg⟩ := h.failsLast
    refine .inr ⟨by simp, pre, e, answers (.error e) b.writes ++ [.release b.bytes],
      by simp, calm_of_isDiskIo hg, ?_, .inl ⟨hg, ?_⟩⟩
    · intro x hx
      rcases List.mem_append.1 hx with hx | hx
      · exact isAftermath_answers hx
      · rw [List.mem_singleton.1 hx]
        rfl
    · rw [answered_append, answered_answers]
      exact List.append_nil _ ▸ List.prefix_refl _
  | @flushed _ _ _ es r _ es' _ h h' =>
    have hcalm : Calm (es ++ answers (.ok ()) b.writes ++ [.release b.bytes]) :=
      (Calm.append h.failsLast (calm_answers fun _ h => h)).append
        (by simp [Calm, Effect.isFailed])
    have hans : answered (es ++ answers (.ok ()) b.writes ++ [.release b.bytes]) =
        replies (.ok ()) b.writes := by
      rw [answered_append, answered_append, answered_flush h.isFlush, answered_answers]
      exact List.append_nil _
    have ha := answered_handling h'.isHandling
    have hl := h'.failsLast
    rcases r with (e | m | _) | ⟨⟩
    · obtain ⟨pre, rfl, hg⟩ := hl
      rw [answered_append] at ha
      refine .inr ⟨by simp, _ ++ pre, e, [], by simp, hcalm.append hg, by simp,
        .inr ⟨?_, rfl⟩⟩
      rw [answered_append, hans, (List.append_eq_nil_iff.1 ha).1, List.append_nil]
    · refine .inl ⟨by simpa using hcalm.append hl, ?_⟩
      rw [completion_error, List.append_nil, answered_append, hans, ha, List.append_nil]
    · refine .inl ⟨by simpa using hcalm.append hl, ?_⟩
      rw [completion_error, List.append_nil, answered_append, hans, ha, List.append_nil]
    · refine .inl ⟨(hcalm.append hl).append (by simp [Calm, Effect.isFailed]), ?_⟩
      rw [answered_append, answered_append, hans, ha, List.append_nil]
      exact List.append_nil _ ▸ List.prefix_refl _

/-! ## Whole runs -/

/-- The batches of a run, each with its effects. -/
def batches (maxItems : Nat) : List Cut → Run C Cb → List (WriteBatch C Cb × List (Effect C Cb))
  | [], _ => []
  | c :: cuts, w =>
    match w.stop, w.queue with
    | some _, _ => []
    | none, [] => []
    | none, r :: q =>
      let (batch, _, x) := turn maxItems c w.files r q
      (batch, x.effects) :: batches maxItems cuts (afterTurn maxItems c w r q)

/-- The answers of a trace: first those that got `Ok`, then those that got an error. -/
def OkFirst (as : List (Nat × Cb × IoResult)) (oks errs : List (Nat × Cb × IoResult)) : Prop :=
  as = oks ++ errs ∧ (∀ a ∈ oks, a.2.2 = .ok ()) ∧ ∀ a ∈ errs, a.2.2 ≠ .ok ()

/-- What holds of a run between two turns of the loop. -/
structure FailStop (w : Run C Cb) : Prop where
  ordered : (answered w.effects).Pairwise fun a b => a.1 < b.1
  okFirst : ∃ oks errs, OkFirst (answered w.effects) oks errs
  silent : ∀ pre e post, w.effects = pre ++ .failed e :: post → ∀ x ∈ post, x.isAftermath = true
  running : w.stop = none → Calm w.effects ∧ (∀ a ∈ answered w.effects, a.2.2 = .ok ()) ∧
    ∀ a ∈ answered w.effects, ∀ r ∈ w.queue, a.1 < r.seq
  queue : w.queue.Pairwise fun a b => a.seq < b.seq
  files : w.stop = none → w.files ≠ []

theorem replies_ok {res : IoResult} {ws : List (QueuedWrite Cb)} {a : Nat × Cb × IoResult}
    (h : a ∈ replies res ws) :
    a.2.2 = res ∧ ∃ w ∈ ws, w.seq = a.1 ∧ w.write.callback = some a.2.1 := by
  obtain ⟨w, hw, ha⟩ := List.mem_filterMap.1 h
  obtain ⟨cb, hcb, rfl⟩ := Option.map_eq_some_iff.1 ha
  exact ⟨rfl, w, hw, rfl, hcb⟩

theorem replies_ordered {res : IoResult} {ws : List (QueuedWrite Cb)}
    (h : ws.Pairwise fun a b => a.seq < b.seq) :
    (replies res ws).Pairwise fun a b => a.1 < b.1 := by
  refine List.Pairwise.filterMap _ ?_ h
  intro v w hvw a ha b hb
  obtain ⟨_, -, rfl⟩ := Option.map_eq_some_iff.1 ha
  obtain ⟨_, -, rfl⟩ := Option.map_eq_some_iff.1 hb
  exact hvw

theorem mem_requests {b : WriteBatch C Cb} {w : QueuedWrite Cb} (h : w ∈ b.writes) :
    ({ seq := w.seq, req := .write w.write } : SeqRequest C Cb) ∈ b.requests :=
  List.mem_append_left _ (List.mem_map_of_mem h)

/-- Without a failure inside, a trace splits at a failure behind it. -/
theorem Calm.split {es es' pre post : List (Effect C Cb)} {e : IoError} (h : Calm es)
    (he : es ++ es' = pre ++ .failed e :: post) :
    ∃ pre', pre = es ++ pre' ∧ es' = pre' ++ .failed e :: post :=
  split_of_notMem (fun hm => by cases h _ hm) he

theorem turn_failStop {maxItems : Nat} {c : Cut} {w : Run C Cb} {r : SeqRequest C Cb}
    {q : List (SeqRequest C Cb)} (hs : w.stop = none) (hq : w.queue = r :: q) (h : FailStop w) :
    FailStop (afterTurn maxItems c w r q) := by
  let t := turn maxItems c w.files r q
  have hE : (afterTurn maxItems c w r q).effects = w.effects ++ t.2.2.effects := rfl
  obtain ⟨hb, hreq⟩ := nextBatch_spec maxItems c.budget r q
  have ht : BatchTrace w.files t.1 (afterTurn maxItems c w r q).stop
      (afterTurn maxItems c w r q).files t.2.2.effects := execBatch_trace hb (h.files hs)
  have hqueue := h.queue
  rw [hq, ← hreq, List.pairwise_append] at hqueue
  obtain ⟨hpair, hrest, hlt⟩ := hqueue
  obtain ⟨hcalm, hok, hbelow⟩ := h.running hs
  have hws : t.1.writes.Pairwise fun a b => a.seq < b.seq := by
    have := (List.pairwise_append.1 hpair).1
    rwa [List.pairwise_map] at this
  have below : ∀ {res : IoResult} {as}, as <+: replies res t.1.writes →
      (answered w.effects ++ as).Pairwise (fun a b => a.1 < b.1) := by
    intro res as has
    refine List.pairwise_append.2 ⟨h.ordered, (replies_ordered hws).sublist has.sublist, ?_⟩
    intro a ha b hb
    obtain ⟨-, v, hv, hseq, -⟩ := replies_ok (has.subset hb)
    rw [← hseq]
    refine hbelow a ha ⟨v.seq, .write v.write⟩ ?_
    rw [hq, ← hreq]
    exact List.mem_append_left _ (mem_requests hv)
  have okAll : ∀ {as}, as <+: replies (.ok ()) t.1.writes →
      ∀ a ∈ answered w.effects ++ as, a.2.2 = .ok () := by
    intro as has a ha
    rcases List.mem_append.1 ha with ha | ha
    · exact hok a ha
    · exact (replies_ok (has.subset ha)).1
  rcases ht.failStop with ⟨hc, ha⟩ | ⟨hstop, pre, e, post, hf⟩
  · have hcalm' := hcalm.append hc
    refine ⟨?_, ⟨_, [], (List.append_nil _).symm, ?_, by simp⟩, ?_, ?_, hrest, ?_⟩
    · rw [hE, answered_append]
      exact below ha
    · rw [hE, answered_append]
      exact okAll ha
    · intro pre e post hs
      rw [hE] at hs
      exact absurd (hcalm' (.failed e) (by rw [hs]; simp)) (by simp [Effect.isFailed])
    · intro _
      refine ⟨hE ▸ hcalm', by rw [hE, answered_append]; exact okAll ha, ?_⟩
      intro a hae r' hr'
      rw [hE, answered_append] at hae
      rcases List.mem_append.1 hae with hae | hae
      · refine hbelow a hae r' ?_
        rw [hq, ← hreq]
        exact List.mem_append_right _ hr'
      · obtain ⟨-, v, hv, hseq, -⟩ := replies_ok (ha.subset hae)
        rw [← hseq]
        exact hlt _ (mem_requests hv) _ hr'
    · exact fun hn => ht.files_ne_nil hn (h.files hs)
  · have hans : answered (w.effects ++ t.2.2.effects) =
        answered w.effects ++ answered pre ++ answered post := by
      rw [answered_append, hf.split, answered_append, List.append_assoc]
      rfl
    have hpre : answered pre = [] ∧ answered post <+: replies (.error e) t.1.writes ∨
        answered pre = replies (.ok ()) t.1.writes ∧ post = [] := by
      refine hf.answers.imp_left fun h => ⟨answered_flush fun x hx => ?_, h.2⟩
      have := h.1 x hx
      cases x <;> first | rfl | cases this
    refine ⟨?_, ?_, ?_, fun hn => absurd hn hstop, hrest, fun hn => absurd hn hstop⟩
    · rw [hE, hans]
      rcases hpre with ⟨hp, ha⟩ | ⟨hp, rfl⟩
      · rw [hp, List.append_nil]
        exact below ha
      · rw [hp, answered_nil, List.append_nil]
        exact below (List.prefix_refl _)
    · rw [hE, hans]
      rcases hpre with ⟨hp, ha⟩ | ⟨hp, rfl⟩
      · refine ⟨answered w.effects, answered post, by rw [hp, List.append_nil], hok, ?_⟩
        intro a ha'
        rw [(replies_ok (ha.subset ha')).1]
        simp
      · refine ⟨_, [], rfl, ?_, by simp⟩
        rw [hp]
        exact okAll (List.prefix_refl _)
    · intro pre' e' post' hs'
      rw [hE, hf.split] at hs'
      obtain ⟨pre'', -, h1⟩ := hcalm.split hs'
      obtain ⟨pre3, -, h2⟩ := hf.calm.split h1
      cases pre3 with
      | nil =>
        obtain ⟨-, rfl⟩ := List.cons.inj h2
        exact hf.aftermath
      | cons y ys =>
        obtain ⟨-, rfl⟩ := List.cons.inj h2
        have := hf.aftermath (.failed e') (by simp)
        cases this

theorem runInner_failStop {maxItems : Nat} : ∀ (cuts : List Cut) {w : Run C Cb},
    FailStop w → FailStop (runInner maxItems cuts w)
  | [], _, h => h
  | c :: cuts, w, h => by
    rcases hs : w.stop with _ | s
    · rcases hq : w.queue with _ | ⟨r, q⟩
      · rwa [runInner_stopped (.inr hq)]
      · rw [runInner_cons hs hq]
        exact runInner_failStop cuts (turn_failStop hs hq h)
    · rwa [runInner_stopped (.inl (by simp [hs]))]

theorem runInner_effects {maxItems : Nat} : ∀ (cuts : List Cut) (w : Run C Cb),
    (runInner maxItems cuts w).effects =
      w.effects ++ (batches maxItems cuts w).flatMap fun t => t.2
  | [], w => by simp [runInner, batches]
  | c :: cuts, w => by
    rcases hs : w.stop with _ | s
    · rcases hq : w.queue with _ | ⟨r, q⟩
      · simp [runInner_stopped (.inr hq), batches, hs, hq]
      · rw [runInner_cons hs hq, runInner_effects cuts]
        simp only [batches, hs, hq, afterTurn, List.flatMap_cons, List.append_assoc]
    · rw [runInner_stopped (.inl (by simp [hs]))]
      simp [batches, hs]

theorem batches_trace {maxItems : Nat} : ∀ (cuts : List Cut) (w : Run C Cb),
    (w.stop = none → w.files ≠ []) → ∀ t ∈ batches maxItems cuts w,
      ∃ files stop fs, BatchTrace files t.1 stop fs t.2
  | [], w, _, t, ht => by cases ht
  | c :: cuts, w, hf, t, ht => by
    unfold batches at ht
    split at ht
    · cases ht
    · cases ht
    · rename_i r q hs hq
      have hb : BatchTrace w.files _ (execBatch w.files c.script _).1 _ _ :=
        execBatch_trace (nextBatch_spec maxItems c.budget r q).1 (hf hs)
      rcases List.mem_cons.1 ht with rfl | ht
      · exact ⟨_, _, _, hb⟩
      · exact batches_trace cuts _ (fun hn => hb.files_ne_nil hn (hf hs)) t ht

/-- Errors are only delivered to the batch whose write or synchronization failed. -/
theorem BatchTrace.error_answer {files fs : List (FileEntry C)} {b : WriteBatch C Cb}
    {stop : Option Stop} {es : List (Effect C Cb)} (h : BatchTrace files b stop fs es)
    {seq : Nat} {cb : Cb} {e : IoError} (ha : .answer seq cb (.error e) ∈ es) :
    (∃ w ∈ b.writes, w.seq = seq ∧ w.write.callback = some cb) ∧
      ∃ pre post, es = pre ++ .failed e :: post ∧ (∀ x ∈ pre, x.isDiskIo = true) ∧
        .answer seq cb (.error e) ∈ post := by
  have mem : (seq, cb, .error e) ∈ answered es := List.mem_filterMap.2 ⟨_, ha, rfl⟩
  rcases h.failStop with ⟨-, hok⟩ | ⟨-, pre, e', post, hf⟩
  · cases (replies_ok (hok.subset mem)).1
  · rcases hf.answers with ⟨hd, hans⟩ | ⟨hans, rfl⟩
    · have hp : .answer seq cb (.error e) ∈ post := by
        rw [hf.split, List.mem_append, List.mem_cons] at ha
        rcases ha with ha | ha | ha
        · cases hd _ ha
        · cases ha
        · exact ha
      have hr := replies_ok (hans.subset (List.mem_filterMap.2 ⟨_, hp, rfl⟩))
      obtain ⟨he, w, hw, hseq, hcb⟩ := hr
      simp only [Except.error.injEq] at he
      subst he
      exact ⟨⟨w, hw, hseq, hcb⟩, pre, post, hf.split, hd, hp⟩
    · rw [hf.split, answered_append, hans] at mem
      rcases List.mem_append.1 mem with mem | mem
      · cases (replies_ok mem).1
      · cases mem

/-- **The worker is fail-stop.** Over any queue and however it is cut into batches: the callbacks
are answered in the order of their requests, each at most once, first with `Ok` and then with
errors; an error goes to a callback of the batch whose write or synchronization failed before; and
after a failure nothing is written, removed or reported, and no callback gets `Ok`. -/
theorem runInner_fail_stop (maxItems : Nat) (cuts : List Cut) (files : List (FileEntry C))
    (queue : List (SeqRequest C Cb)) (hf : files ≠ [])
    (hq : queue.Pairwise fun a b => a.seq < b.seq) :
    let w : Run C Cb := { files, effects := [], queue, stop := none }
    let es := (runInner maxItems cuts w).effects
    (answered es).Pairwise (fun a b => a.1 < b.1) ∧
    (∃ oks errs, answered es = oks ++ errs ∧ (∀ a ∈ oks, a.2.2 = .ok ()) ∧
      ∀ a ∈ errs, a.2.2 ≠ .ok ()) ∧
    (es = (batches maxItems cuts w).flatMap (fun t => t.2) ∧
      ∀ t ∈ batches maxItems cuts w, ∀ seq cb e, .answer seq cb (.error e) ∈ t.2 →
        (∃ w ∈ t.1.writes, w.seq = seq ∧ w.write.callback = some cb) ∧
        ∃ pre post, t.2 = pre ++ .failed e :: post ∧ (∀ x ∈ pre, x.isDiskIo = true) ∧
          .answer seq cb (.error e) ∈ post) ∧
    ∀ pre e post, es = pre ++ .failed e :: post → ∀ x ∈ post, x.isAftermath = true := by
  intro w es
  have h : FailStop (runInner maxItems cuts w) :=
    runInner_failStop cuts ⟨List.Pairwise.nil, ⟨[], [], rfl, by simp, by simp⟩, by simp [w],
      fun _ => ⟨by simp [Calm, w], by simp [w], by simp [w]⟩, hq, fun _ => hf⟩
  refine ⟨h.ordered, h.okFirst, ⟨?_, ?_⟩, h.silent⟩
  · exact (runInner_effects cuts w).trans (List.nil_append _)
  · intro t ht seq cb e ha
    obtain ⟨_, _, _, hb⟩ := batches_trace cuts w (fun _ => hf) t ht
    exact hb.error_answer ha

/-- Two synchronized writes; the disk fails on the second. -/
def twoWrites : List (SeqRequest Unit Nat) :=
  [{ seq := 1
     req := .write { uptoOffset := 2, data := [1, 2], sync := true, callback := some 1 } },
    { seq := 2
      req := .write { uptoOffset := 3, data := [3], sync := true, callback := some 2 } }]

def secondFails : List Cut :=
  [{ budget := 0, script := { writes := [.ok 2], calls := [.ok ()], user := [none, none] } },
    { budget := 0, script := { writes := [.error (.other "disk")], calls := [], user := [none] } }]

theorem runInner_fail_stop_secondFails :
    let w : Run Unit Nat :=
      { files := [.new 0 0 none], effects := [], queue := twoWrites, stop := none }
    let es := (runInner 8 secondFails w).effects
    (answered es).map (·.1) = [1, 2] ∧ (answered es).Pairwise (fun a b => a.1 < b.1) :=
  ⟨by decide +kernel,
    (runInner_fail_stop 8 secondFails [.new 0 0 none] twoWrites (by simp) (by decide)).1⟩

end Worker

end Wal

import Wal.Flow

/-!
# The bound on queued bytes

Until `release_all`, `used` is the sum of the data lengths of the requests that are reserved by the
client, in the channel, or in a batch whose bytes were not released (`Session.reservations`). It
exceeds the limit only when it belongs to a single request, and who waits for it to shrink waits for
a request that the worker has, or finds in the channel (`runs_metered`).
-/

namespace Wal

open Lib

variable {A C Cb : Type}

/-- The data lengths of the requests of a batch. -/
def WriteBatch.reservations (b : WriteBatch C Cb) : List Nat := b.requests.map fun r =>
    r.req.reserved

theorem WriteBatch.bytes_eq (b : WriteBatch C Cb)
    (h : ∀ r, b.lastNonFlush = some r → r.req.isWrite = false) : b.reservations.sum = b.bytes := by
  have hlast : (b.lastNonFlush.toList.map fun r => r.req.reserved).sum = 0 := by
    rcases hl : b.lastNonFlush with _ | ⟨seq, req⟩
    · rfl
    · have := h _ hl
      cases req with
      | write => cases this
      | appendFile | removeChunks | getFlushStat => rfl
  unfold WriteBatch.reservations WriteBatch.requests WriteBatch.bytes
  rw [List.map_append, List.sum_append, hlast, List.map_map]
  rfl

/-- The data lengths of a batch of which `held` bytes are not released: a batch gives back all of
them or none. -/
def WriteBatch.unreleased (b : WriteBatch C Cb) (held : Nat) : List Nat :=
  if held = 0 then [] else b.reservations

namespace Session

/-- The bytes of the batches that were not given back. -/
def owed (s : Session A C Cb) : Nat := (s.batches.map WriteBatch.bytes).sum - (released s.trace).sum

/-- The data lengths of the requests that the worker has taken and not released yet. -/
def unreleased (s : Session A C Cb) : List Nat :=
  match s.worker with
  | .collect b => b.reservations
  | .exec b _ _ held => b.unreleased held
  | .stopping _ => (s.batches.getLast?.map (·.unreleased s.owed)).getD []
  | _ => []

/-- The data length of the request that the client has reserved and not sent yet. -/
def reserved (s : Session A C Cb) : List Nat :=
  match s.sending with
  | .idle => []
  | _ => [reservation s.client]

/-- The data lengths of all requests on their way, the oldest first. -/
def reservations (s : Session A C Cb) : List Nat :=
  s.unreleased ++ s.queue.map (fun r => r.req.reserved) ++ s.reserved

/-- The client waits in `FlushClient::acquire`. -/
def Blocked (s : Session A C Cb) : Prop :=
  s.sending = .idle ∧ s.tx = true ∧ ∃ op req k, s.client = .busy op (.act (.send req) k) ∧
    waits s.used s.config.flushQueueMaxBytes req.reserved

/-- What the worker owes of its batches: those behind it are released, and of the one that it
executes either all bytes or none. A batch that goes to its end is released. -/
def Owing (s : Session A C Cb) : Prop :=
  match s.worker with
  | .recv | .collect _ | .stopping none =>
    (s.batches.map WriteBatch.bytes).sum = (released s.trace).sum
  | .exec b es stop held =>
    s.batches.getLast? = some b ∧ (s.batches.map WriteBatch.bytes).sum =
    (released s.trace).sum + held ∧
      b.reservations.sum = b.bytes ∧ (released es = [b.bytes] ∧ held = b.bytes ∨
        released es = [] ∧ (held = 0 ∨ held = b.bytes ∧ stop ≠ none))
  | _ => True

/-- **The meter is right.** -/
structure Metered (s : Session A C Cb) : Prop where
  exact : s.used = s.reservations.sum
  bounded : s.used ≤ s.config.flushQueueMaxBytes ∨ ∃ n, s.reservations.filter (0 < ·) = [n]

theorem reserved_idle {s : Session A C Cb} (h : s.sending = .idle) : s.reserved = [] := by
  unfold reserved
  rw [h]

theorem reserved_send {s : Session A C Cb} (h : s.sending ≠ .idle) :
    s.reserved = [reservation s.client] := by
  unfold reserved
  split
  · exact absurd ‹_› h
  · rfl

end Session

/-- A batch gives its bytes back in one step, or not at all: a batch that goes to its end gives back
what it has. -/
theorem Worker.BatchTrace.released_eq {files fs : List (FileEntry C)} {b : WriteBatch C Cb}
    {stop : Option Stop} {es : List (Effect C Cb)} (h : BatchTrace files b stop fs es) :
    Wal.released es = [b.bytes] ∨ Wal.released es = [] ∧ (b.bytes = 0 ∨ stop ≠ none) := by
  have hcompl : ∀ r : Except Stop Unit, Wal.released (completion b r) = [] := by
    rintro (_ | _) <;> rfl
  cases h with
  | single hw h =>
    refine .inr ⟨by simp [released_handling h.isHandling, hcompl], .inl ?_⟩
    rw [WriteBatch.bytes, hw]
    rfl
  | flushStopped _ h => exact .inr ⟨by simp [released_flush h.isFlush], .inr (by simp)⟩
  | answerStopped _ h h' =>
    exact .inr ⟨by simp [released_flush h.isFlush, released_answers h'.mem], .inr (by simp)⟩
  | @failed _ _ e _ es _ h =>
    have ha : Wal.released (answers (C := C) (.error e) b.writes) = [] :=
      released_answers fun _ h => h
    exact .inl (by simp [released_flush h.isFlush, ha])
  | @flushed _ _ _ _ _ _ _ _ h h' =>
    have ha : Wal.released (answers (C := C) (.ok ()) b.writes) = [] := released_answers fun _ h =>
      h
    exact .inl (by simp [released_flush h.isFlush, ha, released_handling h'.isHandling, hcompl])

theorem filter_pos_drop {xs ys : List Nat} {limit : Nat}
    (h : (xs ++ ys).sum ≤ limit ∨ ∃ n, (xs ++ ys).filter (0 < ·) = [n]) :
    ys.sum ≤ limit ∨ ∃ n, ys.filter (0 < ·) = [n] := by
  rcases h with h | ⟨n, h⟩
  · rw [List.sum_append] at h
    exact .inl (by omega)
  · rw [List.filter_append] at h
    rcases List.append_eq_singleton_iff.1 h with ⟨-, h⟩ | ⟨-, h⟩
    · exact .inr ⟨n, h⟩
    · refine .inl ?_
      have hz : ys.sum = 0 := by
        refine List.sum_eq_zero fun y hy => ?_
        have := List.filter_eq_nil_iff.1 h y hy
        simpa using this
      omega

theorem filter_pos_snoc {xs : List Nat} {limit size : Nat}
    (hw : ¬ Session.waits xs.sum limit size)
    (h : xs.sum ≤ limit ∨ ∃ n, xs.filter (0 < ·) = [n]) :
    (xs ++ [size]).sum ≤ limit ∨ ∃ n, (xs ++ [size]).filter (0 < ·) = [n] := by
  rw [List.sum_append, List.sum_singleton, List.filter_append]
  by_cases hz : xs.sum = 0
  · have hnil : xs.filter (0 < ·) = [] := by
      refine List.filter_eq_nil_iff.2 fun x hx => ?_
      have := List.le_sum_of_mem hx
      simp only [decide_eq_true_eq]
      omega
    rw [hnil, List.nil_append]
    rcases Nat.eq_zero_or_pos size with rfl | hs
    · exact .inl (by omega)
    · exact .inr ⟨size, by simp [hs]⟩
  · unfold Session.waits at hw
    exact .inl (by omega)

namespace Session

variable {s s' : Session A C Cb}

theorem Metered.drop (h : s.Metered) (xs : List Nat) (hr : s.reservations = xs ++ s'.reservations)
    (hu : s'.used = s.used - xs.sum) (hcfg : s'.config = s.config) : s'.Metered := by
  obtain ⟨hex, hbd⟩ := h
  rw [hex] at hbd hu
  rw [hr] at hbd hu
  have hu : s'.used = s'.reservations.sum := by
    rw [hu, List.sum_append]
    omega
  refine ⟨hu, ?_⟩
  rw [hu, hcfg]
  exact filter_pos_drop hbd

theorem Metered.congr (h : s.Metered) (hu : s'.used = s.used) (hcfg : s'.config = s.config)
    (hr : s'.reservations = s.reservations) : s'.Metered :=
  h.drop [] hr.symm hu hcfg

theorem unreleased_congr (hw : s'.worker = s.worker) (hb : s'.batches = s.batches)
    (ht : s'.trace = s.trace) : s'.unreleased = s.unreleased := by
  unfold unreleased owed
  rw [hw, hb, ht]

theorem Owing.congr (h : s.Owing) (hw : s'.worker = s.worker) (hb : s'.batches = s.batches)
    (ht : s'.trace = s.trace) : s'.Owing := by
  unfold Owing
  rw [hw, hb, ht]
  exact h

theorem unreleased_zero (b : WriteBatch C Cb) : b.unreleased 0 = [] := rfl

theorem unreleased_bytes {b : WriteBatch C Cb} (h : b.bytes ≠ 0) :
    b.unreleased b.bytes = b.reservations := if_neg h

theorem Metered.of_idle (h : s.Metered) (hn : s.sending = .idle) (hu : s'.used = s.used)
    (hcfg : s'.config = s.config) (hq : s'.queue = s.queue) (hn' : s'.sending = .idle)
    (hr : s'.unreleased = s.unreleased) : s'.Metered := by
  refine h.congr hu hcfg ?_
  unfold reservations
  rw [hr, hq, reserved_idle hn, reserved_idle hn']

theorem Metered.acquire (h : s.Metered) {op : Op A C Cb} {req : WorkerRequest C Cb}
    {k : IoResult → Prog (ClientAct A C Cb) IoResult (Except Fault (Ret C) × ChunkedWal C)}
    (hc : s.client = .busy op (.act (.send req) k)) (hn : s.sending = .idle)
    (hw : ¬ waits s.used s.config.flushQueueMaxBytes req.reserved) :
    Metered { s with used := s.used + req.reserved, sending := .reserved } := by
  obtain ⟨hex, hbd⟩ := h
  have hres : reservations { s with used := s.used + req.reserved, sending := .reserved } =
      s.reservations ++ [req.reserved] := by
    unfold reservations
    rw [reserved_idle hn, reserved_send (by simp), List.append_nil]
    simp only [hc, reservation]
    rfl
  rw [hex] at hw hbd
  have hsum : s.used + req.reserved = (s.reservations ++ [req.reserved]).sum := by
    rw [List.sum_append, ← hex, List.sum_singleton]
  exact ⟨hres ▸ hsum, by rw [hres]; exact hsum ▸ filter_pos_snoc hw hbd⟩

/-- Who waits, waits for a request that the worker has or finds. -/
theorem Metered.served (h : s.Metered) (hb : s.Blocked) : s.queue ≠ [] ∨ s.unreleased ≠ [] := by
  obtain ⟨hn, -, op, req, k, -, hused, -⟩ := hb
  by_contra hno
  obtain ⟨hq, hu⟩ := not_or.1 hno
  have := h.exact
  unfold reservations at this
  rw [reserved_idle hn, not_not.1 hq, not_not.1 hu] at this
  simp at this
  omega

theorem Owing.effect (h : s.Owing) {b : WriteBatch C Cb} {e : Effect C Cb} {es : List (Effect C Cb)}
    {stop : Option Stop} {held : Nat} (hw : s.worker = .exec b (e :: es) stop held) :
    Owing { s.onEffect e with
      worker := .exec b es stop (held - e.release?.getD 0), trace := s.trace ++ [e] } := by
  simp only [Owing, hw] at h
  obtain ⟨hlast, hsum, hb, hrel⟩ := h
  have hcons : released (e :: es) = e.release?.toList ++ released es := by cases e <;> rfl
  have htrace : released (s.trace ++ [e]) = released s.trace ++ e.release?.toList := by
    rw [released_append]
    cases e <;> rfl
  rw [hcons] at hrel
  rcases hrele : e.release? with _ | n <;> rw [hrele] at hrel htrace
  · simp only [Owing, htrace, Option.getD_none, Option.toList_none, List.append_nil, Nat.sub_zero]
    exact ⟨hlast, hsum, hb, hrel⟩
  · have hrel := hrel.resolve_right fun h => by simp at h
    obtain ⟨hone, rfl⟩ := hrel
    obtain ⟨rfl, hnil⟩ := List.cons.inj hone
    simp only [Owing, htrace, Option.getD_some, Option.toList_some, List.sum_append,
      List.sum_singleton, Nat.sub_self, Nat.add_zero]
    exact ⟨hlast, hsum, hb, .inr ⟨hnil, .inl trivial⟩⟩

theorem Metered.effect (h : s.Metered) (ho : s.Owing) {b : WriteBatch C Cb} {e : Effect C Cb}
    {es : List (Effect C Cb)} {stop : Option Stop} {held : Nat}
    (hw : s.worker = .exec b (e :: es) stop held) :
    Metered { s.onEffect e with
      worker := .exec b es stop (held - e.release?.getD 0), trace := s.trace ++ [e] } := by
  simp only [Owing, hw] at ho
  obtain ⟨-, -, hb, hrel⟩ := ho
  have hcons : released (e :: es) = e.release?.toList ++ released es := by cases e <;> rfl
  rw [hcons] at hrel
  rcases hrele : e.release? with _ | n
  · refine h.congr (by simp [onEffect, hrele]) rfl ?_
    simp [reservations, unreleased, hw, onEffect, reserved]
  · rw [hrele] at hrel
    have hrel := hrel.resolve_right fun h => by simp at h
    obtain ⟨hone, rfl⟩ := hrel
    obtain ⟨rfl, -⟩ := List.cons.inj hone
    refine h.drop (b.unreleased b.bytes) ?_ ?_ rfl
    · simp [reservations, unreleased, hw, onEffect, reserved, unreleased_zero]
    · by_cases hz : b.bytes = 0
      · simp [onEffect, hrele, hz, unreleased_zero]
      · simp [onEffect, hrele, unreleased_bytes hz, hb]

end Session

namespace System

open Session

section
variable [Crc32fast] [Encode A] [Decode A] [Encode C] [Decode C] {sm : StateMachine A C}

theorem owing_step (sys : System A C Cb) (l : Label Cb sm) (sys' : System A C Cb)
    (hr : sys.InSession Ready) (h : sys.InSession Owing) (hstep : step sys l = some sys') :
    sys'.InSession Owing := by
  intro s' hs'
  cases step_move hstep with
  | opened =>
    cases hs'
    rfl
  | notOpened hn => exact absurd hs' (by simp [afterOpen, hn])
  | openCrashed hn => exact absurd hs' (by simp [afterOpen, hn])
  | crashed | dropped => cases hs'
  | received hs hw | collected hs hw | disconnected hs hw =>
    cases hs'
    have := h _ hs
    simp only [Owing, hw] at this ⊢
    exact this
  | @executed s b script hs hw =>
    cases hs'
    have ho := h _ hs
    have hsum := b.bytes_eq ((hr _ hs).collected b hw).deferred
    simp only [Owing, hw] at ho
    refine ⟨List.getLast?_concat, ?_, hsum, ?_⟩
    · rw [List.map_append, List.sum_append, ho]
      rfl
    · rcases (executed_trace (hr _ hs) hw script).released_eq with hrel | ⟨hrel, hz⟩
      · exact .inl ⟨hrel, rfl⟩
      · exact .inr ⟨hrel, hz.imp id fun hz => ⟨rfl, hz⟩⟩
  | effect hs hw =>
    cases hs'
    exact (h _ hs).effect hw
  | batchDone hs hw =>
    cases hs'
    have ho := h _ hs
    simp only [Owing, hw] at ho ⊢
    obtain ⟨-, hsum, -, ⟨hrel, -⟩ | ⟨-, rfl | ⟨-, hne⟩⟩⟩ := ho
    · cases hrel
    · exact hsum
    · exact absurd rfl hne
  | batchStopped hs hw | releasedAll hs hw | releasedFailed hs hw | failed hs hw
      | receiverDropped hs hw =>
    cases hs'
    trivial
  | _ =>
    cases hs'
    have hs := ‹sys.session = some _›
    exact (h _ hs).congr rfl rfl rfl

theorem metered_step (sys : System A C Cb) (l : Label Cb sm) (sys' : System A C Cb)
    (hr : sys.InSession Ready) (hb : sys.InSession Balanced) (ho : sys.InSession Owing)
    (h : sys.InSession fun s => s.accounting = true → s.Metered) (hstep : step sys l = some sys') :
    sys'.InSession fun s => s.accounting = true → s.Metered := by
  intro s' hs' hacc
  cases step_move hstep with
  | opened =>
    cases hs'
    exact ⟨rfl, .inl (Nat.zero_le _)⟩
  | notOpened hn => exact absurd hs' (by simp [afterOpen, hn])
  | openCrashed hn => exact absurd hs' (by simp [afterOpen, hn])
  | crashed | dropped => cases hs'
  | acquired hs hc hn htx hw =>
    cases hs'
    exact (h _ hs hacc).acquire hc hn hw
  | @enqueued s op req k r hs hc hn =>
    cases hs'
    refine (h _ hs hacc).congr rfl rfl ?_
    have hold : s.reserved = [req.reserved] := by
      rw [reserved_send (by simp [hn]), hc]
      rfl
    unfold reservations
    rw [hold]
    simp [respond, reserved, unreleased, owed]
  | refused hs hc hn =>
    cases hs'
    exact (h _ hs hacc).of_idle hn rfl rfl rfl rfl rfl
  | rejected hs hc hn hr' =>
    cases hs'
    exact absurd (hr'.symm.trans (receiving_of_accounting hacc)) (by simp)
  | underflow hs hc hn | givenBack hs hc hn =>
    have hrec := (hb _ hs).receiving
    cases hs'
    exact absurd hn (hrec (receiving_of_accounting hacc))
  | @received s r q hs hw hq =>
    cases hs'
    refine (h _ hs (by rw [accounting, hw])).congr rfl rfl ?_
    have hpush :=
      WriteBatch.push_requests (r := r) (b := (WriteBatch.new s.config.flushBatchMaxItems :
      WriteBatch C Cb)) rfl
    simp only [reservations, unreleased, WriteBatch.reservations, hw, hq, hpush]
    rfl
  | @collected s b r q hs hw hq hmore =>
    cases hs'
    refine (h _ hs (by rw [accounting, hw])).congr rfl rfl ?_
    simp only [reservations, unreleased, WriteBatch.reservations, hw, hq,
      WriteBatch.push_requests (wantsMore_deferred hmore)]
    simp [reserved]
  | @executed s b script hs hw =>
    cases hs'
    have hm := h _ hs (by rw [accounting, hw])
    by_cases hz : b.bytes = 0
    · refine hm.drop b.reservations ?_ ?_ rfl
      · simp [reservations, unreleased, hw, hz, unreleased_zero, reserved]
      · rw [b.bytes_eq ((hr _ hs).collected b hw).deferred, hz]
        rfl
    · refine hm.congr rfl rfl ?_
      simp [reservations, unreleased, hw, unreleased_bytes hz, reserved]
  | effect hs hw =>
    cases hs'
    exact (h _ hs (by rw [accounting, hw])).effect (ho _ hs) hw
  | @batchDone s b held hs hw =>
    cases hs'
    refine (h _ hs (by rw [accounting, hw])).congr rfl rfl ?_
    have ho := ho _ hs
    simp only [Owing, hw] at ho
    obtain ⟨-, -, -, ⟨hrel, -⟩ | ⟨-, rfl | ⟨-, hne⟩⟩⟩ := ho
    · cases hrel
    · simp [reservations, unreleased, hw, unreleased_zero, reserved]
    · exact absurd rfl hne
  | @batchStopped s b stop held hs hw =>
    cases hs'
    refine (h _ hs (by rw [accounting, hw])).congr rfl rfl ?_
    have ho := ho _ hs
    simp only [Owing, hw] at ho
    obtain ⟨hlast, hsum, -⟩ := ho
    have howed : (s.batches.map WriteBatch.bytes).sum - (released s.trace).sum = held := by omega
    simp [reservations, unreleased, owed, hw, hlast, howed, reserved]
  | @disconnected s hs hw =>
    cases hs'
    refine (h _ hs (by rw [accounting, hw])).congr rfl rfl ?_
    have ho := ho _ hs
    simp only [Owing, hw] at ho
    have howed : (s.batches.map WriteBatch.bytes).sum - (released s.trace).sum = 0 := by omega
    rcases hl : s.batches.getLast? <;>
      simp [reservations, unreleased, owed, hw, hl, howed, unreleased_zero, reserved]
  | releasedAll | releasedFailed | failed | receiverDropped =>
    cases hs'
    cases hacc
  | called hs hc | finished hs hc =>
    cases hs'
    have hn := (hb _ hs).idle fun _ _ _ hc' => by rw [hc] at hc'; cases hc'
    exact (h _ hs hacc).of_idle hn rfl rfl rfl hn rfl
  | _ =>
    -- the other acts of the client
    cases hs'
    have hs := ‹sys.session = some _›
    have hc := ‹Session.client _ = _›
    have hn := (hb _ hs).idle fun _ _ _ hc' => by rw [hc] at hc'; cases hc'
    exact (h _ hs hacc).of_idle hn rfl rfl rfl rfl rfl

/-- **The bound on queued bytes**, in every run until the worker releases everything. -/
theorem runs_metered {ls : List (Label Cb sm)} {sys : System A C Cb} {s : Session A C Cb}
    (h : runs step (System.fresh A C Cb) ls = some sys) (hs : sys.session = some s)
    (hw : s.accounting = true) :
    s.used = s.reservations.sum ∧
    (s.used ≤ s.config.flushQueueMaxBytes ∨ ∃ n, s.reservations.filter (0 < ·) = [n]) ∧
    (s.Blocked → (s.queue ≠ [] ∨ s.unreleased ≠ []) ∧ ¬ (s.worker = .recv ∧ s.queue = [])) := by
  have hall : sys.InSession Ready ∧ sys.InSession Balanced ∧ sys.InSession Owing ∧
      sys.InSession fun s => s.accounting = true → s.Metered := by
    refine runs_invariant (I := fun sys => sys.InSession Ready ∧ sys.InSession Balanced ∧
      sys.InSession Owing ∧ sys.InSession fun s => s.accounting = true → s.Metered) ?_ ?_ h
    · intro s l s' hi hs
      obtain ⟨h1, h2, h3, h4⟩ := hi
      exact ⟨ready_step s l s' h1 hs, balanced_step s l s' h1 h2 hs, owing_step s l s' h1 h3 hs,
        metered_step s l s' h1 h2 h3 h4 hs⟩
    · exact ⟨fresh_inSession, fresh_inSession, fresh_inSession, fresh_inSession⟩
  have hm := hall.2.2.2 s hs hw
  refine ⟨hm.exact, hm.bounded, fun hb => ⟨hm.served hb, fun hno => ?_⟩⟩
  obtain ⟨hrecv, hq⟩ := hno
  rcases hm.served hb with hne | hne
  · exact hne hq
  · refine hne ?_
    unfold unreleased
    rw [hrecv]

end

open Register in
/-- A client whose second request does not fit waits for the first. -/
def waitingRun : List Step :=
  [start { Register.config with flushQueueMaxBytes? := some 1 }] ++ puts 1 ++
  sends false ++ puts 2 ++
    [.call (.sendPending false none)]

theorem runs_metered_waiting : ∃ (sys : System Put Register Nat) (s : Session Put Register Nat),
    runs step (System.fresh Put Register Nat) waitingRun = some sys ∧ sys.session = some s ∧
      s.Blocked ∧
    s.used = s.reservations.sum ∧ s.queue ≠ [] := by
  have h : ((runs step (System.fresh Put Register Nat) waitingRun).any fun sys =>
    sys.session.any fun s =>
      s.accounting && decide (s.sending = .idle ∧ s.tx = true) && atSend s.client &&
        decide (waits s.used s.config.flushQueueMaxBytes (reservation s.client)) &&
        s.unreleased.isEmpty) = true := by decide +kernel
  obtain ⟨sys, hsys, h⟩ := (Option.any_eq_true _ _).1 h
  obtain ⟨s, hs, h⟩ := (Option.any_eq_true _ _).1 h
  simp only [Bool.and_eq_true, decide_eq_true_eq, List.isEmpty_iff] at h
  obtain ⟨⟨⟨⟨hw, hn, htx⟩, hat⟩, hwait⟩, hnone⟩ := h
  obtain ⟨op, req, k, hc⟩ := atSend_iff.1 hat
  rw [hc] at hwait
  have hb : s.Blocked := ⟨hn, htx, op, req, k, hc, hwait⟩
  obtain ⟨hex, -, hserved⟩ := runs_metered hsys hs hw
  refine ⟨sys, s, hsys, hs, hb, hex, ?_⟩
  exact (hserved hb).1.resolve_right fun hne => hne hnone

end System

end Wal

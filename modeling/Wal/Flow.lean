import Wal.Lib.Runs
import Wal.Moves
import Wal.Register

/-!
# Queued bytes

Three paths give reserved bytes back: the worker for a batch, the worker for everything when it
stops (`release_all`), and the client when the channel rejects its request. `Session.Balanced` is
the account while the worker runs; behind `release_all` what the client reserved before is not
accounted for any more. `runs_release` says under which condition on the last steps of the worker no
release underflows, and `runs_used` when nothing is left that would block a sender.
-/

namespace Wal

open Lib

variable {A C Cb : Type}

namespace Session

/-- The bytes of the request that the client is sending. -/
def reservation : Client A C Cb → Nat
  | .busy _ (.act (.send req) _) => req.reserved
  | _ => 0

/-- The bytes that the client has reserved and not passed on. -/
def inflight (s : Session A C Cb) : Nat :=
  match s.sending with
  | .idle => 0
  | _ => reservation s.client

/-- The bytes of the requests in the channel. -/
def queued (s : Session A C Cb) : Nat := (s.queue.map fun r => r.req.reserved).sum

/-- The bytes that the worker has taken from the channel and not given back. -/
def held (s : Session A C Cb) : Nat :=
  match s.worker with
  | .collect b => b.bytes
  | .exec _ _ _ held => held
  | _ => 0

/-- The worker has not released every byte yet. -/
def accounting (s : Session A C Cb) : Bool :=
  match s.worker with
  | .released _ | .exiting | .terminated => false
  | _ => true

theorem inflight_idle {s : Session A C Cb} (h : s.sending = .idle) : s.inflight = 0 := by
  unfold inflight
  rw [h]

theorem inflight_send {s : Session A C Cb} (h : s.sending ≠ .idle) :
    s.inflight = reservation s.client := by
  unfold inflight
  split
  · rename_i hs
    exact absurd hs h
  · rfl

/-- **The account of queued bytes.** -/
structure Balanced (s : Session A C Cb) : Prop where
  account : s.accounting = true → s.queued + s.inflight + s.held ≤ s.used
  releases : ∀ b es stop held, s.worker = .exec b es stop held → (released es).sum ≤ held
  receiving : s.receiving = true → s.sending ≠ .rejected
  sending : s.sending ≠ .idle → ∃ op req k, s.client = .busy op (.act (.send req) k)

theorem receiving_of_accounting {s : Session A C Cb} (h : s.accounting = true) :
    s.receiving = true := by
  unfold accounting at h
  unfold receiving
  split
  · rename_i hw
    rw [hw] at h
    cases h
  · rfl

theorem Balanced.idle {s : Session A C Cb} (h : s.Balanced)
    (hc : ∀ op req k, s.client ≠ .busy op (.act (.send req) k)) : s.sending = .idle := by
  by_contra hn
  obtain ⟨op, req, k, hc'⟩ := h.sending hn
  exact hc op req k hc'

theorem Balanced.of_idle {s s' : Session A C Cb} (h : s.Balanced) (hw : s'.worker = s.worker)
    (hq : s'.queue = s.queue) (hu : s'.used = s.used) (hn : s'.sending = .idle) :
    s'.Balanced := by
  refine ⟨fun ha => ?_, fun b es stop held he => ?_, fun _ => by simp [hn],
    fun hne => absurd hn hne⟩
  · have := h.account (by simpa only [accounting, hw] using ha)
    simp only [inflight_idle hn, queued, held, hw, hq, hu] at this ⊢
    omega
  · exact h.releases b es stop held (hw ▸ he)

/-- Every release finds the bytes it gives back. -/
structure Releasable (s : Session A C Cb) : Prop where
  client : s.sending = .rejected → s.inflight ≤ s.used
  worker : ∀ b n es stop held, s.worker = .exec b (.release n :: es) stop held → n ≤ s.used

/-- Behind the end of the worker, the client's own reservation is counted. -/
def Counted (s : Session A C Cb) : Prop := s.receiving = false → s.inflight ≤ s.used

end Session

namespace Worker

/-- A batch gives back its bytes once, or not at all when user code panics before. -/
theorem BatchTrace.released {files fs : List (FileEntry C)} {b : WriteBatch C Cb}
    {stop : Option Stop} {es : List (Effect C Cb)} (h : BatchTrace files b stop fs es) :
    (Wal.released es).sum ≤ b.bytes := by
  have hcompl : ∀ r : Except Stop Unit, Wal.released (completion b r) = [] := by
    rintro (_ | _) <;> rfl
  cases h with
  | single hw h => simp [released_handling h.isHandling, hcompl]
  | flushStopped _ h => simp [released_flush h.isFlush]
  | answerStopped _ h h' => simp [released_flush h.isFlush, released_answers h'.mem]
  | @failed _ _ e _ es _ h =>
    have ha : Wal.released (answers (C := C) (.error e) b.writes) = [] :=
      released_answers fun _ h => h
    simp [released_flush h.isFlush, ha]
  | @flushed _ _ _ _ _ _ _ _ h h' =>
    have ha : Wal.released (answers (C := C) (.ok ()) b.writes) = [] :=
      released_answers fun _ h => h
    simp [released_flush h.isFlush, ha, released_handling h'.isHandling, hcompl]

end Worker

namespace System

open Session

section
variable [Crc32fast] [Encode A] [Decode A] [Encode C] [Decode C] {sm : StateMachine A C}

theorem balanced_step (sys : System A C Cb) (l : Label Cb sm) (sys' : System A C Cb)
    (hr : sys.InSession Ready) (h : sys.InSession Balanced) (hstep : step sys l = some sys') :
    sys'.InSession Balanced := by
  intro s' hs'
  cases step_move hstep with
  | opened =>
    cases hs'
    exact ⟨fun _ => Nat.le_refl 0, fun _ _ _ _ hw => (by cases hw),
      fun _ => (by simp [startSession]), fun hn => absurd rfl hn⟩
  | notOpened hn => exact absurd hs' (by simp [afterOpen, hn])
  | openCrashed hn => exact absurd hs' (by simp [afterOpen, hn])
  | crashed | dropped => cases hs'
  | called hs hc =>
    cases hs'
    exact (h _ hs).of_idle rfl rfl rfl ((h _ hs).idle fun _ _ _ hc' => by rw [hc] at hc'; cases hc')
  | finished hs hc =>
    cases hs'
    exact (h _ hs).of_idle rfl rfl rfl ((h _ hs).idle fun _ _ _ hc' => by rw [hc] at hc'; cases hc')
  | @acquired s op req k r hs hc hn =>
    cases hs'
    obtain ⟨ha, hl, -, -⟩ := h _ hs
    refine ⟨fun hacc => ?_, hl, fun _ => by simp, fun _ => ⟨op, req, k, hc⟩⟩
    have := ha hacc
    have hi : inflight { s with used := s.used + req.reserved, sending := .reserved } =
        req.reserved := by simp [inflight, hc, reservation]
    rw [hi]
    simp only [queued, held] at this ⊢
    omega
  | @enqueued s op req k r hs hc hn =>
    cases hs'
    obtain ⟨ha, hl, -, -⟩ := h _ hs
    refine ⟨fun hacc => ?_, hl, fun _ => by simp [respond], fun hne => absurd rfl hne⟩
    have := ha hacc
    rw [inflight_send (by simp [hn]), hc] at this
    simp only [queued, held, reservation, inflight, respond, List.map_append, List.sum_append,
      List.map_cons, List.map_nil, List.sum_cons, List.sum_nil] at this ⊢
    omega
  | rejected hs hc hn hr =>
    cases hs'
    obtain ⟨ha, hl, -, -⟩ := h _ hs
    refine ⟨fun hacc => ?_, hl, fun hr' => ?_, fun _ => ⟨_, _, _, hc⟩⟩
    · have := ha hacc
      rw [inflight_send (by simp [hn])] at this
      exact this
    · exact absurd (hr.symm.trans hr') (by simp)
  | underflow hs hc hn =>
    cases hs'
    exact (h _ hs).of_idle rfl rfl rfl rfl
  | givenBack hs hc hn =>
    cases hs'
    obtain ⟨-, hl, hrej, -⟩ := h _ hs
    refine ⟨fun hacc => ?_, hl, fun _ => by simp [respond], fun hne => absurd rfl hne⟩
    exact absurd hn (hrej (receiving_of_accounting hacc))
  | @received s r q hs hw hq =>
    cases hs'
    obtain ⟨ha, -, hrej, hsend⟩ := h _ hs
    refine ⟨fun _ => ?_, fun _ _ _ _ he => (by cases he), fun _ => hrej (by simp [receiving, hw]),
      hsend⟩
    have := ha (by simp [accounting, hw])
    simp only [queued, held, hw, hq, List.map_cons, List.sum_cons, WriteBatch.push_bytes] at this ⊢
    simp only [WriteBatch.bytes, WriteBatch.new, List.map_nil, List.sum_nil]
    simp only [inflight] at this ⊢
    omega
  | @collected s b r q hs hw hq =>
    cases hs'
    obtain ⟨ha, -, hrej, hsend⟩ := h _ hs
    refine ⟨fun _ => ?_, fun _ _ _ _ he => (by cases he), fun _ => hrej (by simp [receiving, hw]),
      hsend⟩
    have := ha (by simp [accounting, hw])
    simp only [queued, held, hw, hq, List.map_cons, List.sum_cons, WriteBatch.push_bytes] at this ⊢
    simp only [inflight] at this ⊢
    omega
  | @executed s b script hs hw =>
    cases hs'
    obtain ⟨ha, -, hrej, hsend⟩ := h _ hs
    refine ⟨fun _ => ?_, fun _ _ _ _ he => ?_, fun _ => hrej (by simp [receiving, hw]), hsend⟩
    · have := ha (by simp [accounting, hw])
      simp only [queued, held, hw, inflight] at this ⊢
      exact this
    · cases he
      exact (executed_trace (hr _ hs) hw script).released
  | @effect s b e effects stop held fs hs hw =>
    cases hs'
    obtain ⟨ha, hl, hrej, hsend⟩ := h _ hs
    have hle := hl b _ stop held hw
    have hsum : (released (e :: effects)).sum = e.release?.getD 0 + (released effects).sum := by
      cases e with
      | release n => exact List.sum_cons
      | _ => exact (Nat.zero_add _).symm
    rw [hsum] at hle
    refine ⟨fun _ => ?_, fun _ _ _ _ he => ?_, fun _ => hrej (by simp [receiving, hw]), hsend⟩
    · have := ha (by simp [accounting, hw])
      simp only [queued, Session.held, hw, inflight, onEffect] at this ⊢
      omega
    · cases he
      omega
  | batchDone hs hw | batchStopped hs hw | disconnected hs hw =>
    cases hs'
    obtain ⟨ha, hl, hrej, hsend⟩ := h _ hs
    refine ⟨fun _ => ?_, fun _ _ _ _ he => (by cases he), fun _ => hrej (by simp [receiving, hw]),
      hsend⟩
    have := ha (by simp [accounting, hw])
    simp only [queued, held, hw, inflight] at this ⊢
    omega
  | releasedAll hs hw | releasedFailed hs hw | failed hs hw =>
    cases hs'
    obtain ⟨-, -, hrej, hsend⟩ := h _ hs
    exact ⟨fun hacc => Bool.noConfusion hacc, fun _ _ _ _ he => (by cases he),
      fun _ => hrej (by simp [receiving, hw]), hsend⟩
  | receiverDropped hs hw =>
    cases hs'
    obtain ⟨-, -, -, hsend⟩ := h _ hs
    exact ⟨fun hacc => Bool.noConfusion hacc, fun _ _ _ _ he => (by cases he),
      fun hr => Bool.noConfusion hr, hsend⟩
  | _ =>
    -- the other acts of the client
    cases hs'
    have hb := h _ ‹sys.session = some _›
    exact hb.of_idle rfl rfl rfl rfl

theorem runs_balanced {ls : List (Label Cb sm)} {sys : System A C Cb}
    (h : runs step (System.fresh A C Cb) ls = some sys) :
    sys.InSession Ready ∧ sys.InSession Balanced := by
  refine runs_invariant (I := fun sys => sys.InSession Ready ∧ sys.InSession Balanced)
    (fun s l s' hi hs => ⟨ready_step s l s' hi.1 hs, balanced_step s l s' hi.1 hi.2 hs⟩) ?_ h
  exact ⟨fresh_inSession, fresh_inSession⟩

/-! ## Releases -/

/-- **The condition on a run**: when the worker drops its receiver, a client that has reserved bytes
and not sent its request yet finds them still counted. -/
def KeepsReservation (sys : System A C Cb) (l : Label Cb sm) : Prop :=
  match l with
  | .dropReceiver => ∀ s, sys.session = some s → s.inflight ≤ s.used
  | _ => True

theorem counted_step (sys : System A C Cb) (l : Label Cb sm) (sys' : System A C Cb)
    (hb : sys.InSession Balanced) (h : sys.InSession Counted) (hok : KeepsReservation sys l)
    (hstep : step sys l = some sys') : sys'.InSession Counted := by
  intro s' hs'
  cases step_move hstep with
  | notOpened hn => exact absurd hs' (by simp [afterOpen, hn])
  | openCrashed hn => exact absurd hs' (by simp [afterOpen, hn])
  | crashed | dropped => cases hs'
  | opened | received | collected | executed | effect | disconnected | batchDone | batchStopped
    | releasedAll | releasedFailed | failed =>
    cases hs'
    exact fun hr => Bool.noConfusion hr
  | receiverDropped hs hw =>
    have := hok _ hs
    cases hs'
    exact fun _ => this
  | @acquired s op req k r hs hc hn =>
    cases hs'
    intro hr
    simp [inflight, hc, reservation]
  | rejected hs hc hn hr =>
    have := h _ hs hr
    cases hs'
    intro _
    rw [inflight_send (by simp [hn])] at this
    rwa [inflight_send (by simp)]
  | called hs hc =>
    cases hs'
    exact fun _ => le_of_eq_of_le
      (inflight_idle ((hb _ hs).idle fun _ _ _ hc' => by rw [hc] at hc'; cases hc'))
      (Nat.zero_le _)
  | finished hs hc =>
    cases hs'
    exact fun _ => le_of_eq_of_le
      (inflight_idle ((hb _ hs).idle fun _ _ _ hc' => by rw [hc] at hc'; cases hc'))
      (Nat.zero_le _)
  | _ =>
    cases hs'
    exact fun _ => le_of_eq_of_le (inflight_idle rfl) (Nat.zero_le _)

theorem runs_counted {ls : List (Label Cb sm)} {sys : System A C Cb}
    (h : RunsOf step KeepsReservation (System.fresh A C Cb) ls sys) :
    sys.InSession Balanced ∧ sys.InSession Counted := by
  have hall : sys.InSession Ready ∧ sys.InSession Balanced ∧ sys.InSession Counted := by
    refine h.invariant
      (I := fun sys => sys.InSession Ready ∧ sys.InSession Balanced ∧ sys.InSession Counted)
      (fun s l s' hi hok hs => ⟨ready_step s l s' hi.1 hs, balanced_step s l s' hi.1 hi.2.1 hs,
        counted_step s l s' hi.2.1 hi.2.2 hok hs⟩) ?_
    exact ⟨fresh_inSession, fresh_inSession, fresh_inSession⟩
  exact hall.2

/-- **Releasing queued bytes never underflows** in a run that keeps the reservation of a client in
the middle of a send: every release finds the bytes that it gives back. -/
theorem runs_release {ls : List (Label Cb sm)} {sys : System A C Cb}
    (h : RunsOf step KeepsReservation (System.fresh A C Cb) ls sys) :
    sys.InSession Releasable := by
  intro s hs
  obtain ⟨hb, hc⟩ := runs_counted h
  refine ⟨fun hn => hc s hs ?_, fun b n es stop held hw => ?_⟩
  · by_contra hr
    exact (hb s hs).receiving (by simpa using hr) hn
  · have ha := (hb s hs).account (by simp [accounting, hw])
    have hr := (hb s hs).releases _ _ _ _ hw
    simp only [Session.held, hw, released_release, List.sum_cons] at ha hr
    omega

instance (sys : System A C Cb) (l : Label Cb sm) : Decidable (KeepsReservation sys l) :=
  match l with
  | .dropReceiver =>
    decidable_of_iff (∀ s ∈ sys.session, s.inflight ≤ s.used) (by simp [KeepsReservation])
  | .open .. | .openCrash .. | .crash _ | .drop | .call _ | .client _ | .recv | .collect | .exec _
    | .effect | .releaseAll | .fail => .isTrue trivial

end

open Register in
/-- The worker fails, and the client reserves bytes behind `release_all`; the channel is closed when
it sends. -/
def reservesLate : List Step :=
  [start Register.config] ++ puts 1 ++ sends false ++ failedBatch ++ [.releaseAll] ++ puts 2 ++
    [.call (.sendPending false none), go, .fail, .dropReceiver, go]

theorem runs_release_late : ∃ (sys : System Put Register Nat) (s : Session Put Register Nat),
    runs step (System.fresh Put Register Nat) reservesLate = some sys ∧ sys.session = some s ∧
    s.sending = .rejected ∧ s.inflight = 5 ∧ s.inflight ≤ s.used := by
  have h : ((runs (guarded KeepsReservation step) (System.fresh Put Register Nat) reservesLate).any
      fun sys => sys.session.any fun s => decide (s.sending = .rejected ∧ s.inflight = 5))
        = true := by
    decide +kernel
  obtain ⟨sys, hsys, h⟩ := (Option.any_eq_true _ _).1 h
  obtain ⟨s, hs, h⟩ := (Option.any_eq_true _ _).1 h
  obtain ⟨hn, hi⟩ := of_decide_eq_true h
  have hrun := RunsOf.of_guarded hsys
  exact ⟨sys, s, hrun.runs, hs, hn, hi, (runs_release hrun s hs).client hn⟩

open Register in
/-- The worker fails while the client stands between the byte limit and the channel. -/
def failsBeforeSend : List Step :=
  [start Register.config] ++ puts 1 ++ sends false ++ puts 2 ++
  [.call (.sendPending false none), go] ++
    failedBatch ++ [.releaseAll, .fail, .dropReceiver, go]

/-- A client that has reserved its bytes before `release_all` gives them back a second time. -/
theorem release_underflows : ¬ ∀ (ls : List Register.Step) (sys : System Put Register Nat),
    runs step (System.fresh Put Register Nat) ls = some sys → sys.InSession Releasable := by
  intro h
  have hrun : ((runs step (System.fresh Put Register Nat) failsBeforeSend).any fun sys =>
      sys.session.any fun s => decide (s.sending = .rejected ∧ s.used < s.inflight)) = true := by
    decide +kernel
  obtain ⟨sys, hsys, hs⟩ := (Option.any_eq_true _ _).1 hrun
  obtain ⟨s, hs, hu⟩ := (Option.any_eq_true _ _).1 hs
  obtain ⟨hn, hu⟩ := of_decide_eq_true hu
  exact absurd ((h _ sys hsys s hs).client hn) (by omega)

/-! ## After the worker has stopped -/

/-- The client is about to send a request. -/
def atSend : Client A C Cb → Bool
  | .busy _ (.act (.send _) _) => true
  | _ => false

theorem atSend_iff {c : Client A C Cb} :
    atSend c = true ↔ ∃ op req k, c = .busy op (.act (.send req) k) := by
  refine ⟨fun h => ?_, by rintro ⟨op, req, k, rfl⟩; rfl⟩
  unfold atSend at h
  split at h
  · exact ⟨_, _, _, rfl⟩
  · cases h

section
variable [Crc32fast] [Encode A] [Decode A] [Encode C] [Decode C] {sm : StateMachine A C}

/-- **The condition on a run**: no request with bytes enters the channel between `release_all` and
the end of the receiver, except those that were reserved before. -/
def NoLateRequest (sys : System A C Cb) (l : Label Cb sm) : Prop :=
  match l with
  | .client _ => ∀ s op req k, sys.session = some s →
      s.client = .busy op (.act (.send req) k) → s.sending = .reserved → s.accounting = false →
      s.receiving = true → s.used = 0
  | _ => True

/-- Behind `release_all`, only the client's own reservation is counted. -/
def OwnOnly (s : Session A C Cb) : Prop :=
  s.accounting = false → s.used = 0 ∨ s.used = s.inflight

theorem ownOnly_step (sys : System A C Cb) (l : Label Cb sm) (sys' : System A C Cb)
    (hb : sys.InSession Balanced) (h : sys.InSession OwnOnly) (hok : NoLateRequest sys l)
    (hstep : step sys l = some sys') : sys'.InSession OwnOnly := by
  intro s' hs'
  have idle : ∀ s s' : Session A C Cb, OwnOnly s → s.sending = .idle → s'.worker = s.worker →
      s'.used = s.used → OwnOnly s' := by
    intro s s' ho hn hw hu hacc
    left
    rcases ho (by simpa only [accounting, hw] using hacc) with h0 | h0
    · rw [hu, h0]
    · rw [hu, h0, inflight_idle hn]
  cases step_move hstep with
  | notOpened hn => exact absurd hs' (by simp [afterOpen, hn])
  | openCrashed hn => exact absurd hs' (by simp [afterOpen, hn])
  | crashed | dropped => cases hs'
  | opened | received | collected | executed | effect | disconnected | batchDone | batchStopped =>
    cases hs'
    exact fun hr => Bool.noConfusion hr
  | releasedAll | releasedFailed =>
    cases hs'
    exact fun _ => .inl rfl
  | failed hs hw | receiverDropped hs hw =>
    have := h _ hs (by simp [accounting, hw])
    cases hs'
    exact fun _ => this
  | called hs hc =>
    cases hs'
    exact idle _ _ (h _ hs)
      ((hb _ hs).idle fun _ _ _ hc' => by rw [hc] at hc'; cases hc') rfl rfl
  | finished hs hc =>
    cases hs'
    exact idle _ _ (h _ hs)
      ((hb _ hs).idle fun _ _ _ hc' => by rw [hc] at hc'; cases hc') rfl rfl
  | @acquired s op req k r hs hc hn =>
    cases hs'
    intro hacc
    right
    have h0 : s.used = 0 := by
      rcases h _ hs hacc with h0 | h0
      · exact h0
      · rw [h0, inflight_idle hn]
    simp [inflight, hc, reservation, h0]
  | @enqueued s op req k r hs hc hn hr hq =>
    cases hs'
    exact fun hacc => .inl (hok s op req k hs hc hn hacc hr)
  | @rejected s op req k r hs hc hn hr =>
    cases hs'
    intro hacc
    have := h _ hs hacc
    rw [inflight_send (by simp [hn])] at this
    rwa [inflight_send (by simp)]
  | @underflow s op req k r hs hc hn hu =>
    cases hs'
    intro hacc
    have := h _ hs hacc
    rw [inflight_send (by simp [hn]), hc] at this
    simp only [reservation] at this
    exact .inl (by simp only; omega)
  | @givenBack s op req k r hs hc hn hu =>
    cases hs'
    intro hacc
    have := h _ hs hacc
    rw [inflight_send (by simp [hn]), hc] at this
    simp only [reservation] at this
    exact .inl (by simp only; omega)
  | refused hs hc hn =>
    cases hs'
    exact idle _ _ (h _ hs) hn rfl rfl
  | _ =>
    cases hs'
    have hc := ‹_ = Client.busy _ (Prog.act _ _)›
    have hs := ‹sys.session = some _›
    exact idle _ _ (h _ hs)
      ((hb _ hs).idle fun _ _ _ hc' => by rw [hc] at hc'; cases hc') rfl rfl

theorem runs_ownOnly {ls : List (Label Cb sm)} {sys : System A C Cb}
    (h : RunsOf step NoLateRequest (System.fresh A C Cb) ls sys) :
    sys.InSession Balanced ∧ sys.InSession OwnOnly := by
  have hall : sys.InSession Ready ∧ sys.InSession Balanced ∧ sys.InSession OwnOnly := by
    refine h.invariant
      (I := fun sys => sys.InSession Ready ∧ sys.InSession Balanced ∧ sys.InSession OwnOnly)
      (fun s l s' hi hok hs => ⟨ready_step s l s' hi.1 hs, balanced_step s l s' hi.1 hi.2.1 hs,
        ownOnly_step s l s' hi.2.1 hi.2.2 hok hs⟩) ?_
    exact ⟨fresh_inSession, fresh_inSession, fresh_inSession⟩
  exact hall.2

/-- A send to a worker that is gone fails at once, when nothing is counted. -/
theorem send_gone {sys : System A C Cb} {s : Session A C Cb} {op : Op A C Cb}
    {req : WorkerRequest C Cb} {k : IoResult → ClientProg A C Cb} (hs : sys.session = some s)
    (hr : s.receiving = false) (hn : s.sending = .idle) (hu : s.used = 0)
    (hc : s.client = .busy op (.act (.send req) k)) :
    ∃ (ls : List (Label Cb sm)) (e : IoError) (s' : Session A C Cb),
      runs step sys ls = some (sys.withSession s') ∧ s'.client = .busy op (k (.error e)) ∧
      (e = channelClosed ∨ e = walIsShutDown) ∧ ls.length ≤ 3 := by
  have one : ∀ {sys : System A C Cb} {s : Session A C Cb} (r : IoResult), sys.session = some s →
      step sys (.client r : Label Cb sm) = sys.clientStep s r := by
    intro sys s r hs
    simp only [step, hs]
  by_cases htx : s.tx = false
  · refine ⟨[.client (.ok ())], walIsShutDown, s.respond op k (.error walIsShutDown), ?_, rfl,
      .inr rfl, by simp⟩
    rw [runs_cons, one _ hs]
    simp only [clientStep, hc, sendStep, hn, htx, if_true, Option.map_some, Option.bind_some,
      runs_nil]
  · have hw : ¬ waits s.used s.config.flushQueueMaxBytes req.reserved := by
      simp [waits, hu]
    let s' : Session A C Cb :=
      { s with used := s.used + req.reserved, sentSeq := s.sentSeq + 1, sending := .rejected }
    refine ⟨[.client (.ok ()), .client (.ok ()), .client (.ok ())], channelClosed,
      { s'.respond op k (.error channelClosed) with used := s'.used - req.reserved }, ?_, rfl,
      .inl rfl, by simp⟩
    rw [runs_cons, one _ hs]
    simp only [clientStep, hc, sendStep, hn, if_neg htx, if_neg hw, Option.map_some,
      Option.bind_some]
    rw [runs_cons, one _ rfl]
    simp only [clientStep, sendStep, receiving] at hr ⊢
    simp only [hr, if_true, Option.map_some, Option.bind_some]
    rw [runs_cons, one _ rfl]
    simp only [clientStep, sendStep]
    rw [if_neg (by omega)]
    simp only [Option.map_some, Option.bind_some, runs_nil]
    rfl

/-- Behind a worker that is gone, only the bytes of a client in the middle of a send are counted. -/
theorem runs_used {ls : List (Label Cb sm)} {sys : System A C Cb}
    (h : RunsOf step NoLateRequest (System.fresh A C Cb) ls sys) {s : Session A C Cb}
    (hs : sys.session = some s) (hr : s.receiving = false) : s.used = 0 ∨ s.used = s.inflight := by
  have hacc : s.accounting = false := by
    by_contra ha
    have := receiving_of_accounting (by simpa using ha)
    rw [hr] at this
    cases this
  exact (runs_ownOnly h).2 s hs hacc

instance (sys : System A C Cb) (l : Label Cb sm) : Decidable (NoLateRequest sys l) :=
  match l with
  | .client _ =>
    decidable_of_iff (∀ s ∈ sys.session, atSend s.client = true → s.sending = .reserved →
      s.accounting = false → s.receiving = true → s.used = 0) (by
        simp only [NoLateRequest, atSend_iff, Option.mem_def]
        exact ⟨fun h s op req k hs hc => h s hs ⟨op, req, k, hc⟩,
          fun h s hs ⟨op, req, k, hc⟩ => h s op req k hs hc⟩)
  | .open .. | .openCrash .. | .crash _ | .drop | .call _ | .dropReceiver | .recv | .collect
    | .exec _ | .effect | .releaseAll | .fail => .isTrue trivial

end

end System

end Wal

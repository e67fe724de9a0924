import Wal.Memory
import Wal.Ledger

/-!
# The user of a WAL

`SeenByUser` is a session seen by its user: while no method returns an error, the chunks match the
ledger, and a `shutdown` leaves a worker that has ended without a failure. `Placed` says that the
files of the directory are those of the ledger and the ones that the worker is still to remove.
`seenByUser_step` keeps both, until the worker fails or a method is bound to return an error.
-/

namespace Wal

open Lib

namespace Worker

variable {C Cb : Type} {files fs : List (FileEntry C)} {b : WriteBatch C Cb}
    {es : List (Effect C Cb)}

theorem removals_eq (q : SeqRequest C Cb) : removals q = q.req.removed := by
  obtain ⟨seq, req⟩ := q
  cases req <;> rfl

theorem HandledDeferred.unlinks (h : HandledDeferred files b (.ok ()) fs es) :
    unlinked es = (b.lastNonFlush.toList.map (·.req)).flatMap WorkerRequest.removed := by
  unfold HandledDeferred at h
  split at h
  · rename_i hn
    obtain ⟨-, -, rfl⟩ := h
    rw [hn]
    rfl
  · rename_i q hq
    obtain ⟨-, rfl⟩ := h
    rw [hq, unlinked_handled, removals_eq]
    simp

/-- **A batch that succeeds** removes the files it was asked to. -/
theorem BatchTrace.unlinks (h : BatchTrace files b none fs es) :
    unlinked es = (b.requests.map (·.req)).flatMap WorkerRequest.removed := by
  have hreq : (b.requests.map (·.req)).flatMap WorkerRequest.removed =
      (b.lastNonFlush.toList.map (·.req)).flatMap WorkerRequest.removed := by
    have hw : ∀ ws : List (QueuedWrite Cb),
        (ws.map fun w => (.write w.write : WorkerRequest C Cb)).flatMap
        WorkerRequest.removed = [] := by
      intro ws
      induction ws with
      | nil => rfl
      | cons w ws ih => exact ih
    have hr : b.requests.map (·.req) = (b.writes.map fun w => .write w.write) ++
        b.lastNonFlush.toList.map (·.req) := by
      rw [WriteBatch.requests, List.map_append, List.map_map]
      rfl
    rw [hr, List.flatMap_append, hw, List.nil_append]
  rw [hreq]
  generalize hstop : (none : Option Stop) = stop at h
  cases h with
  | @single r fs es hw h =>
    rcases r with s | ⟨⟩
    · cases hstop
    rw [completion_ok, unlinked_append, h.unlinks]
    simp
  | flushStopped => cases hstop
  | answerStopped => cases hstop
  | failed => cases hstop
  | @flushed f upto fs₁ es₁ r fs es' ht h h' =>
    rcases r with s | ⟨⟩
    · cases hstop
    rw [completion_ok]
    simp only [unlinked_append, unlinked_flush h.isFlush, h'.unlinks, unlinked_answers fun _ h => h]
    simp

end Worker

section
variable {A C Cb : Type}

/-- The files that the worker is still to remove. -/
def Session.removing (s : Session A C Cb) : List Nat :=
  unlinked s.executing ++ s.outstanding.flatMap WorkerRequest.removed

/-- The last call was a `shutdown`, and it succeeded. -/
def Session.closedDown (s : Session A C Cb) : Bool :=
  match s.returned with
  | some (.shutdown, .ok _) => true
  | _ => false

/-- What the method returns that the client is in. -/
def Client.returning? : Client A C Cb → Option (Except Fault (Ret C))
  | .busy _ (.done (res, _)) => some res
  | _ => none

/-- The record that `append` has accepted. -/
def Client.accepted? : Client A C Cb → Option (LogEntry A C)
  | .busy (.append _) (.act (.note e) _) => some e
  | _ => none

variable {sm : StateMachine A C}

/-- **The files of the directory** are those of the ledger, and those to be removed. -/
structure Placed (fs : Fs) (s : Session A C Cb) (g : Ledger sm) : Prop where
  aliases : fs.aliases = []
  nodup : fs.dir.Nodup
  dir : fs.dir.Perm (g.ids ++ s.removing)

variable {fs fs' : Fs} {s s' : Session A C Cb} {g g' : Ledger sm}

theorem Placed.congr (h : Placed fs s g) (ha : fs'.aliases = fs.aliases) (hd : fs'.dir = fs.dir)
    (hi : g'.ids = g.ids) (hr : s'.removing = s.removing) : Placed fs' s' g' := by
  obtain ⟨h1, h2, h3⟩ := h
  refine ⟨ha.trans h1, hd ▸ h2, ?_⟩
  rw [hd, hi, hr]
  exact h3

theorem Placed.enqueued (h : Placed fs s g) {req : WorkerRequest C Cb}
    (hpre : req.removed.Subperm g.ids) (hi : g'.ids = g.ids.diff req.removed)
    (he : s'.executing = s.executing) (ho : s'.outstanding = s.outstanding ++ [req]) :
    Placed fs s' g' := by
  refine ⟨h.aliases, h.nodup, h.dir.trans ?_⟩
  have hsplit : (g.ids.diff req.removed ++ req.removed).Perm g.ids :=
    List.perm_append_comm.trans (List.subperm_append_diff_self_of_count_le fun a _ =>
      hpre.count_le a)
  rw [hi, Session.removing, Session.removing, he, ho, List.flatMap_append, List.flatMap_singleton]
  refine List.perm_iff_count.2 fun a => ?_
  have := hsplit.count_eq a
  simp only [List.count_append] at this ⊢
  omega

theorem Placed.created (h : Placed fs s g) {id : Nat} (hid : id ∉ fs.dir)
    (hi : g'.ids = g.ids ++ [id]) (hr : s'.removing = s.removing) :
    Placed (fs.createNew id) s' g' := by
  refine ⟨h.aliases, ?_, ?_⟩
  · rw [Fs.createNew_dir]
    exact List.nodup_append.2 ⟨h.nodup, List.nodup_singleton _,
      fun a ha b hb hab => hid (by simp_all)⟩
  · rw [Fs.createNew_dir, hi, hr]
    refine (h.dir.append_right [id]).trans (List.perm_iff_count.2 fun a => ?_)
    simp only [List.count_append]
    omega

theorem Placed.effect (h : Placed fs s g) {e : Effect C Cb} {es : List (Effect C Cb)}
    (hfs : fs.onEffect e = some fs') (he : s.executing = e :: es) (he' : s'.executing = es)
    (ho : s'.outstanding = s.outstanding) : Placed fs' s' g := by
  have hrem : s.removing = unlinked [e] ++ s'.removing := by
    rw [Session.removing, Session.removing, he, he', ho, ← List.append_assoc, ← unlinked_append]
    rfl
  obtain ⟨h1, h2, h3⟩ := h
  rw [hrem] at h3
  cases e with
  | unlink id =>
    simp only [Fs.onEffect] at hfs
    split at hfs
    · rename_i hid
      cases hfs
      have hdir : (fs.unlink id).dir = fs.dir.erase id := by
        rw [h2.erase_eq_filter]
        exact List.filter_congr fun i _ => by by_cases hi : i = id <;> simp [hi]
      refine ⟨h1, ?_, ?_⟩
      · rw [hdir]
        exact h2.erase id
      · rw [hdir]
        have := (h3.trans List.perm_middle).erase id
        simpa using this
    · cases hfs
  | append | sync | syncDir | persisted | answer | release | appendFile | stat | failed
      | complete =>
    cases hfs
    exact ⟨h1, h2, h3⟩

theorem Placed.executed (h : Placed fs s g) {b : WriteBatch C Cb} {files : List (FileEntry C)}
    {es : List (Effect C Cb)} (ht : Worker.BatchTrace s.files b none files es)
    (he : s.executing = []) (ho : s.outstanding = b.requests.map (·.req) ++ s'.outstanding)
    (he' : s'.executing = es) :
    Placed fs s' g := by
  refine ⟨h.aliases, h.nodup, ?_⟩
  have hrem : s'.removing = s.removing := by
    rw [Session.removing, Session.removing, he, ho, he', ht.unlinks, List.flatMap_append]
    rfl
  rw [hrem]
  exact h.dir

end

/-! ## A WAL and its user -/

/-- A system, with the state machine that the user keeps and the chunks that were drained and not
passed on. -/
structure Live {A C : Type} (sm : StateMachine A C) (Cb : Type) where
  sys : System A C Cb
  state : sm.State
  shelf : List Nat

section
variable {A C Cb : Type} [Crc32fast] [Encode A] [Decode A] [Encode C] [Decode C]
    {sm : StateMachine A C}

/-- The state that an opening returns. -/
def openedState (fs : Fs) (config : Config) (st : sm.State) : Option sm.State :=
  match (openLocked sm config st).run (.init fs) with
  | .ok o _ => some o.state
  | .error _ _ => none

namespace Live

variable (v : Live sm Cb)

/-- A client's step, for the user: a record that `append` accepts is applied, drained chunks are
kept. -/
def clientStep (sys : System A C Cb) : Option (Live sm Cb) :=
  let shelf :=
    v.shelf ++ ((v.sys.session.bind (·.client.returning?)).bind (·.toOption)).elim [] Ret.drained
  match v.sys.session.bind (·.client.accepted?) with
  | none => some { sys, state := v.state, shelf }
  | some e => (sm.apply v.state e.1 e.2.1 e.2.2).toOption.map fun state => { sys, state, shelf }

/-- **A step of the system, and of its user.** -/
def step (l : Label Cb sm) : Option (Live sm Cb) :=
  (System.step v.sys l).bind fun sys =>
    match l with
    | .open config st =>
      some { sys, state := (openedState v.sys.fs config st).getD v.state, shelf := [] }
    | .call op => some { v with sys, shelf := v.shelf.diff op.passed }
    | .client _ => v.clientStep sys
    | _ => some { v with sys }

/-- **Everything succeeds**: openings, methods and the shutdown behind them. The user closes a chunk
with the checkpoint of his state machine, passes on the chunks he has drained, and lets the WAL go
after its shutdown. -/
def Succeeds : Label Cb sm → Prop
  | .open config st => (openedState v.sys.fs config st).isSome = true
  | .openCrash .. | .crash _ => False
  | .drop => v.shelf = [] ∧ ∀ s ∈ v.sys.session, s.closedDown = true
  | .call op => op.passed.Subperm v.shelf ∧ op.Current sm v.state ∧
      ∀ s ∈ v.sys.session, ∀ w ∈ s.client.wal?, w.workerHandle = true
  | .client _ => ∀ s ∈ v.sys.session, ∀ res ∈ s.client.returning?, res.isOk = true
  | _ => True

end Live

/-- **A session and its user.** -/
structure SeenByUser (log : List (LogEntry A C)) (state : sm.State) (shelf : List Nat)
    (s : Session A C Cb) (g : Ledger sm) : Prop where
  log : g.log = log
  state : g.state = state
  idle : ∀ w, s.client = .idle w → g.hurt = false ∧ MatchesLedger w shelf g
  busy : ∀ op p, s.client = .busy op p →
    p.Safe (keeping sm op.isAppend) (fun x g => Filed op shelf x.1 x.2 g) g
  joined : g.joined = true → s.receiving = false
  settled : g.settled = true → s.receiving = false ∧ s.failing = false
  ended : ∀ w, s.client = .idle w → s.closedDown = true →
    s.receiving = false ∧ s.failing = false ∧ w.open.pendingData = []

variable {s s' : Session A C Cb} {g g' : Ledger sm} {log log' : List (LogEntry A C)}
    {state state' : sm.State}
  {shelf : List Nat}

omit [Decode A] [Decode C] in
theorem SeenByUser.congr (h : SeenByUser log state shelf s g) (hc : s'.client = s.client)
    (hret : s'.returned = s.returned) (hr : s.receiving = false → s'.receiving = false)
    (hf : s.receiving = false → s'.failing = s.failing) : SeenByUser log state shelf s' g where
  log := h.log
  state := h.state
  idle w hw := h.idle w (hc ▸ hw)
  busy op p hp := h.busy op p (hc ▸ hp)
  joined hj := hr (h.joined hj)
  settled hs := by
    obtain ⟨h1, h2⟩ := h.settled hs
    exact ⟨hr h1, (hf h1).trans h2⟩
  ended w hw hcd := by
    obtain ⟨h1, h2, h3⟩ := h.ended w (hc ▸ hw) (by unfold Session.closedDown at hcd ⊢; rwa [← hret])
    exact ⟨hr h1, (hf h1).trans h2, h3⟩

omit [Decode A] [Decode C] in
theorem SeenByUser.worker (h : SeenByUser log state shelf s g) (hc : s'.client = s.client)
    (hret : s'.returned = s.returned) (hr : s.receiving = true) : SeenByUser log state shelf s' g :=
  h.congr hc hret (fun hf => absurd (hr.symm.trans hf) (by simp)) fun hf =>
  absurd (hr.symm.trans hf) (by simp)

omit [Decode A] [Decode C] in
theorem SeenByUser.respond (h : SeenByUser log state shelf s g) {op : Op A C Cb}
    {a : ClientAct A C Cb} {k : IoResult → System.ClientProg A C Cb} {r : IoResult}
    (hc : s.client = .busy op (.act a k)) (hs : s'.client = .busy op (k r))
    (hstep : (keeping sm op.isAppend).step a g r g') (hl : g'.log = log') (hst : g'.state = state')
    (hj : g'.joined = true → s'.receiving = false)
    (hset : g'.settled = true → s'.receiving = false ∧ s'.failing = false) :
    SeenByUser log' state' shelf s' g' where
  log := hl
  state := hst
  idle w hw := by
    rw [hs] at hw
    cases hw
  busy op' p hp := by
    rw [hs] at hp
    cases hp
    exact (h.busy _ _ hc).2 r g' hstep
  joined := hj
  settled := hset
  ended w hw := by
    rw [hs] at hw
    cases hw

omit [Decode A] [Decode C] in
theorem System.Carries.of_none {sys : System A C Cb} {r : IoResult} (hs : sys.session = some s)
    (h : s.client.request? = none) : System.Carries sys (.client r : Label Cb sm) := by
  intro s' hs' req hreq
  cases hs.symm.trans hs'
  rw [h] at hreq
  cases hreq

namespace Live

variable {v v' : Live sm Cb} {l : Label Cb sm} {sys : System A C Cb} {op : Op A C Cb}

omit [Crc32fast] [Encode A] [Decode A] [Encode C] [Decode C] in
theorem clientStep_act {a : ClientAct A C Cb} {k : IoResult → System.ClientProg A C Cb}
    (hs : v.sys.session = some s) (hc : s.client = .busy op (.act a k)) (ha : ∀ e, a ≠ .note e)
    (h : v.clientStep sys = some v') : v' = { v with sys } := by
  have hacc : s.client.accepted? = none := by
    rw [hc]
    cases op with
    | append => cases a <;> first | rfl | exact absurd rfl (ha _)
    | _ => rfl
  have hret : s.client.returning? = none := by rw [hc]; rfl
  simp only [clientStep, hs, Option.bind_some, hacc, hret, Option.bind_none, Option.elim_none,
    List.append_nil, Option.some.injEq] at h
  exact h.symm

omit [Crc32fast] [Encode A] [Decode A] [Encode C] [Decode C] in
theorem clientStep_done {r : Ret C} {w : ChunkedWal C} (hs : v.sys.session = some s)
    (hc : s.client = .busy op (.done (.ok r, w))) (h : v.clientStep sys = some v') :
    v' = { v with sys, shelf := v.shelf ++ r.drained } := by
  have hacc : s.client.accepted? = none := by
    rw [hc]
    cases op <;> rfl
  have hret : s.client.returning? = some (.ok r) := by rw [hc]; rfl
  simp only [clientStep, hs, Option.bind_some, hacc, hret, Option.some.injEq] at h
  exact h.symm

omit [Crc32fast] [Encode A] [Decode A] [Encode C] [Decode C] in
theorem clientStep_note {e : LogEntry A C} {k : IoResult → System.ClientProg A C Cb}
    (hs : v.sys.session = some s) (hc : s.client = .busy op (.act (.note e) k))
    (h : v.clientStep sys = some v') :
    v'.sys = sys ∧ v'.shelf = v.shelf ∧
      if op.isAppend then sm.apply v.state e.1 e.2.1 e.2.2 = .ok v'.state
      else v'.state = v.state := by
  have hret : s.client.returning? = none := by rw [hc]; rfl
  by_cases hop : op.isAppend = true
  · have hacc : s.client.accepted? = some e := by
      rw [hc]
      cases op <;> first | rfl | cases hop
    simp only [clientStep, hs, Option.bind_some, hacc, hret, Option.bind_none, Option.elim_none,
      List.append_nil, Option.map_eq_some_iff] at h
    obtain ⟨st, hst, rfl⟩ := h
    rw [if_pos hop]
    refine ⟨rfl, rfl, ?_⟩
    cases ha : sm.apply v.state e.1 e.2.1 e.2.2 with
    | error => rw [ha] at hst; cases hst
    | ok => rw [ha] at hst; cases hst; rfl
  · have hacc : s.client.accepted? = none := by
      rw [hc]
      cases op <;> first | rfl | exact absurd rfl hop
    simp only [clientStep, hs, Option.bind_some, hacc, hret, Option.bind_none, Option.elim_none,
      List.append_nil, Option.some.injEq] at h
    rw [if_neg hop, ← h]
    exact ⟨rfl, rfl, rfl⟩

end Live

omit [Crc32fast] [Encode A] [Decode A] [Encode C] [Decode C] in
theorem MatchesLedger.shelved {w : ChunkedWal C} {shelf' : List Nat} (h : MatchesLedger w shelf g)
    (hp : shelf.Perm shelf') :
    MatchesLedger w shelf' g := by
  obtain ⟨h1, h2, h3, h4, h5, h6, h7⟩ := h
  exact ⟨h1.trans ((hp.cons _).append_left _), h2, h3, h4, h5, h6, h7⟩

section
variable [WALRecord.LawfulAction A] [LawfulCodec C]

/-- What a step does to a session and its user. As long as the worker does not fail and no method is
bound to return an error, nothing was refused and the files stay in place. -/
def SeenStep (v : Live sm Cb) (l : Label Cb sm) (v' : Live sm Cb) (s : Session A C Cb)
    (g : Ledger sm) : Prop :=
  ∃ s' g', v'.sys.session = some s' ∧ SeenByUser v'.sys.log v'.state v'.shelf s' g' ∧
    (g'.hurt = false → s'.failing = false → g.hurt = false ∧ s.failing = false ∧
      System.Carries v.sys l ∧ (Placed v.sys.fs s g → Placed v'.sys.fs s' g'))

theorem seenByUser_call (hrev : sm.Reverts) {v v' : Live sm Cb} {op : Op A C Cb}
    (hs : v.sys.session = some s) (h : SeenByUser v.sys.log v.state v.shelf s g)
    (hok : v.Succeeds (.call op)) (hstep : v.step (.call op) = some v') :
    SeenStep v (.call op) v' s g := by
  obtain ⟨sys, hsys, hv⟩ := Option.bind_eq_some_iff.1 hstep
  cases System.step_move hsys with
  | @called _ _ w hs' hc =>
    cases hs.symm.trans hs'
    cases hv
    obtain ⟨hh, hst⟩ := h.idle w hc
    obtain ⟨hsub, hcur, hw⟩ := hok
    have hperm : v.shelf.Perm (op.passed ++ v.shelf.diff op.passed) :=
      (List.subperm_append_diff_self_of_count_le fun a _ => hsub.count_le a).symm
    refine ⟨_, { g with joined := false, settled := false }, rfl, ⟨h.log, h.state, fun w' hw' => ?_,
      fun op' p hp => ?_, fun hj => (by cases hj), fun hj => (by cases hj), fun w' hw' => ?_⟩,
      fun _ hf => ⟨hh, hf, trivial, fun hp => hp.congr rfl rfl rfl rfl⟩⟩
    · cases hw'
    · cases hp
      have hst' : MatchesLedger w (op.passed ++ v.shelf.diff op.passed) { g with
        joined := false, settled := false } :=
        (hst.shelved hperm).congr rfl rfl rfl rfl rfl
      exact op.keeps hrev hst' hh (hw s hs w (by rw [hc]; rfl)) (by rw [h.state]; exact hcur)
    · cases hw'

omit [WALRecord.LawfulAction A] [LawfulCodec C] in
theorem seenByUser_client {v v' : Live sm Cb} {r : IoResult} (hs : v.sys.session = some s)
    (hnum : s.Numbered) (htr : s.Traced) (h : SeenByUser v.sys.log v.state v.shelf s g)
    (hok : v.Succeeds (.client r)) (hstep : v.step (.client r) = some v') :
    SeenStep v (.client r) v' s g := by
  obtain ⟨sys, hsys, hv⟩ := Option.bind_eq_some_iff.1 hstep
  have hopen : s.sending ≠ .idle → s.tx = true := fun hn => by
    by_contra htx
    exact hn (hnum.closed (by simpa using htx))
  cases System.step_move hsys with
  | @finished _ op res w _ hs' hc =>
    cases hs.symm.trans hs'
    have hres : res.isOk = true := hok s hs res (by rw [hc]; rfl)
    obtain ⟨r, rfl⟩ : ∃ r, res = .ok r := by
      cases res with
      | error => cases hres
      | ok r => exact ⟨r, rfl⟩
    obtain rfl := Live.clientStep_done hs hc hv
    have hfiled : Filed op v.shelf (.ok r) w g := h.busy _ _ hc
    obtain ⟨hh, hst, hshut⟩ := hfiled r rfl
    refine ⟨_, g, rfl, ⟨h.log, h.state, fun w' hw' => ?_, fun op' p hp => ?_, h.joined, h.settled,
      fun w' hw' hcd => ?_⟩, fun _ hf => ⟨hh, hf, .of_none hs (by rw [hc]; rfl),
      fun hp => hp.congr rfl rfl rfl rfl⟩⟩
    · cases hw'
      exact ⟨hh, hst⟩
    · cases hp
    · cases hw'
      have hop : op.isShutdown = true := by
        cases op <;> first | rfl | cases hcd
      obtain ⟨hset, hpend⟩ := hshut hop
      exact ⟨(h.settled hset).1, (h.settled hset).2, hpend⟩
  | refused hs' hc =>
    cases hs.symm.trans hs'
    obtain rfl := Live.clientStep_act hs hc (by simp) hv
    exact ⟨_, { g with hurt := true }, rfl, h.respond hc rfl rfl h.log h.state h.joined h.settled,
      fun hh => by cases hh⟩
  | acquired hs' hc hn htx =>
    cases hs.symm.trans hs'
    obtain rfl := Live.clientStep_act hs hc (by simp) hv
    refine ⟨_, g, rfl, h.congr rfl rfl id fun _ => rfl,
      fun hh hf => ⟨hh, hf, fun s' hs' req hreq => ?_, fun hp => hp.congr rfl rfl rfl rfl⟩⟩
    cases hs.symm.trans hs'
    exact ⟨htx, fun hr => absurd (hn.symm.trans hr) (by simp)⟩
  | @enqueued _ op req k r hs' hc hn hr hq =>
    cases hs.symm.trans hs'
    obtain rfl := Live.clientStep_act hs hc (by simp) hv
    refine ⟨_, { g with
        ids := g.ids.diff req.removed, hurt := g.hurt || !decide (Fits A req)
        settled := false }, rfl,
      h.respond hc rfl rfl h.log h.state h.joined fun hset => (by cases hset), fun hh hf => ?_⟩
    simp only [Bool.or_eq_false_iff, Bool.not_eq_false', decide_eq_true_eq] at hh
    obtain ⟨hh, hfits⟩ := hh
    refine ⟨hh, hf, fun s' hs' req' hreq => ?_,
      fun hp => hp.enqueued ((h.busy _ _ hc).1 hh) rfl rfl ?_⟩
    · cases hs.symm.trans hs'
      rw [hc] at hreq
      cases hreq
      exact ⟨hopen (by rw [hn]; simp), fun _ => hfits⟩
    · simp [Session.outstanding, Session.collecting, Session.respond]
  | rejected hs' hc hn hr =>
    cases hs.symm.trans hs'
    obtain rfl := Live.clientStep_act hs hc (by simp) hv
    refine ⟨_, g, rfl, h.congr rfl rfl id fun _ => rfl, fun hh hf => ?_⟩
    -- the receiver is gone without a failure only behind the shutdown
    have hw := Session.not_receiving.1 hr
    have hst : s.status = none := by simpa [Session.failing, hw] using hf
    have htx := (hnum.ended (by simp [Session.ended, hw, hst])).2
    exact absurd (hopen (by rw [hn]; simp)) (by simp [htx])
  | underflow hs' hc hn =>
    cases hs.symm.trans hs'
    obtain rfl := Live.clientStep_act hs hc (by simp) hv
    refine ⟨_, g, rfl,
      ⟨h.log, h.state, fun w hw => (by cases hw), fun op p hp => (by cases hp), h.joined, h.settled,
        fun w hw => (by cases hw)⟩, fun hh hf =>
          ⟨hh, hf, fun s' hs' req hreq => ?_, fun hp => hp.congr rfl rfl rfl rfl⟩⟩
    cases hs.symm.trans hs'
    exact ⟨hopen (by rw [hn]; simp), fun hr => absurd (hn.symm.trans hr) (by simp)⟩
  | givenBack hs' hc | notCreated hs' hc | «exists» hs' hc | notSynced hs' hc =>
    cases hs.symm.trans hs'
    obtain rfl := Live.clientStep_act hs hc (by simp) hv
    exact ⟨_, { g with hurt := true }, rfl, h.respond hc rfl rfl h.log h.state h.joined h.settled,
      fun hh => by cases hh⟩
  | @created _ op id k hs' hc hd =>
    cases hs.symm.trans hs'
    obtain rfl := Live.clientStep_act hs hc (by simp) hv
    exact ⟨_, { g with ids := g.ids ++ [id] }, rfl,
      h.respond hc rfl rfl h.log h.state h.joined h.settled,
      fun hh hf => ⟨hh, hf, .of_none hs (by rw [hc]; rfl), fun hp => hp.created hd rfl rfl⟩⟩
  | synced hs' hc | closed hs' hc =>
    cases hs.symm.trans hs'
    obtain rfl := Live.clientStep_act hs hc (by simp) hv
    exact ⟨_, g, rfl, h.respond hc rfl rfl h.log h.state h.joined h.settled,
      fun hh hf => ⟨hh, hf, .of_none hs (by rw [hc]; rfl), fun hp => hp.congr rfl rfl rfl rfl⟩⟩
  | joined hs' hc hr =>
    cases hs.symm.trans hs'
    obtain rfl := Live.clientStep_act hs hc (by simp) hv
    exact ⟨_, { g with joined := true }, rfl,
      h.respond hc rfl rfl h.log h.state (fun _ => hr) h.settled,
      fun hh hf => ⟨hh, hf, .of_none hs (by rw [hc]; rfl), fun hp => hp.congr rfl rfl rfl rfl⟩⟩
  | @waited _ op k _ res hs' hc hw =>
    cases hs.symm.trans hs'
    obtain rfl := Live.clientStep_act hs hc (by simp) hv
    rcases res with e | ⟨⟩
    · exact ⟨_, { g with hurt := true }, rfl, h.respond hc rfl rfl h.log h.state h.joined h.settled,
        fun hh => by cases hh⟩
    refine ⟨_, { g with settled := g.joined }, rfl,
      h.respond hc rfl rfl h.log h.state h.joined fun hset => ?_,
      fun hh hf => ⟨hh, hf, .of_none hs (by rw [hc]; rfl), fun hp => hp.congr rfl rfl rfl rfl⟩⟩
    refine ⟨h.joined hset, ?_⟩
    by_contra hf
    obtain ⟨e, he⟩ := Session.waitFor_failing htr hnum (eq_true_of_ne_false hf) hw
    cases he
  | @noted _ op e k r hs' hc =>
    cases hs.symm.trans hs'
    obtain ⟨hsys', hshelf, happ⟩ := Live.clientStep_note hs hc hv
    rw [SeenStep, hsys', hshelf]
    refine ⟨_, { g with log := g.log ++ [e], state := v'.state }, rfl,
      h.respond hc rfl ⟨v'.state, ?_, rfl⟩ ?_ rfl h.joined h.settled,
      fun hh hf => ⟨hh, hf, .of_none hs (by rw [hc]; rfl), fun hp => hp.congr rfl rfl rfl rfl⟩⟩
    · rw [h.state]
      exact happ
    · rw [h.log]

omit [WALRecord.LawfulAction A] [LawfulCodec C] in
theorem seenByUser_worker {v v' : Live sm Cb} {l : Label Cb sm} (hs : v.sys.session = some s)
    (hready : s.Ready) (hnum : s.Numbered) (h : SeenByUser v.sys.log v.state v.shelf s g)
    (hl : System.Inside l = true) (hc : ∀ r, l ≠ .client r) (hstep : v.step l = some v') :
    SeenStep v l v' s g := by
  obtain ⟨sys, hsys, hv⟩ := Option.bind_eq_some_iff.1 hstep
  cases System.step_move hsys with
  | opened | notOpened | openCrashed | crashed | dropped | called => simp [System.Inside] at hl
  | @received _ r queue hs' hw hq =>
    cases hs.symm.trans hs'
    cases hv
    refine ⟨_, g, rfl, h.worker rfl rfl (by simp [Session.receiving, hw]),
      fun hh hf => ⟨hh, ?_, trivial, fun hp => hp.congr rfl rfl rfl ?_⟩⟩
    · simp [Session.failing, hw]
    · have hpush :=
        WriteBatch.push_requests (r := r) (b := (WriteBatch.new s.config.flushBatchMaxItems :
        WriteBatch C Cb)) rfl
      simp only [Session.removing, Session.executing, Session.outstanding, Session.collecting,
        hw, hq, hpush]
      rfl
  | disconnected hs' hw hq htx =>
    cases hs.symm.trans hs'
    cases hv
    refine ⟨_, g, rfl, h.worker rfl rfl (by simp [Session.receiving, hw]),
      fun hh hf => ⟨hh, ?_, trivial, fun hp => hp.congr rfl rfl rfl ?_⟩⟩
    · simp [Session.failing, hw]
    · simp [Session.removing, Session.executing, Session.outstanding, Session.collecting, hw]
  | collected hs' hw hq hm =>
    cases hs.symm.trans hs'
    cases hv
    refine ⟨_, g, rfl, h.worker rfl rfl (by simp [Session.receiving, hw]),
      fun hh hf => ⟨hh, ?_, trivial, fun hp => hp.congr rfl rfl rfl ?_⟩⟩
    · simp [Session.failing, hw]
    · simp [Session.removing, Session.executing, Session.outstanding, Session.collecting, hw, hq,
        WriteBatch.push_requests (System.wantsMore_deferred hm)]
  | @executed _ b script hs' hw hn =>
    cases hs.symm.trans hs'
    cases hv
    refine ⟨_, g, rfl, h.worker rfl rfl (by simp [Session.receiving, hw]), fun hh hf => ?_⟩
    have hnone : (Worker.execBatch s.files script b).1 = none := by
      cases hst : (Worker.execBatch s.files script b).1 with
      | none => rfl
      | some => simp [Session.failing, hst] at hf
    have ht := System.executed_trace hready hw script
    rw [hnone] at ht
    refine ⟨hh, by simp [Session.failing, hw], fun s' hs' b' hb' => ?_,
      fun hp => hp.executed ht ?_ ?_ rfl⟩
    · cases hs.symm.trans hs'
      rw [hw] at hb'
      cases hb'
      exact hnone
    · simp [Session.executing, hw]
    · simp [Session.outstanding, Session.collecting, hw]
  | @effect _ b e es stop held fs' hs' hw hfs =>
    cases hs.symm.trans hs'
    cases hv
    refine ⟨_, g, rfl, h.worker rfl rfl (by simp [Session.receiving, hw]), fun hh hf => ?_⟩
    refine ⟨hh, ?_, trivial, fun hp => hp.effect hfs ?_ rfl ?_⟩
    · cases stop with
      | none => simp [Session.failing, hw]
      | some => simp [Session.failing] at hf
    · simp [Session.executing, hw]
    · simp [Session.outstanding, Session.collecting, hw, Session.onEffect]
  | batchDone hs' hw =>
    cases hs.symm.trans hs'
    cases hv
    refine ⟨_, g, rfl, h.worker rfl rfl (by simp [Session.receiving, hw]),
      fun hh hf => ⟨hh, ?_, trivial, fun hp => hp.congr rfl rfl rfl ?_⟩⟩
    · simp [Session.failing, hw]
    · simp [Session.removing, Session.executing, Session.outstanding, Session.collecting, hw]
  | batchStopped hs' hw | releasedFailed hs' hw | failed hs' hw =>
    cases hs.symm.trans hs'
    cases hv
    refine ⟨_, g, rfl, h.worker rfl rfl (by simp [Session.receiving, hw]), fun hh hf => ?_⟩
    · simp [Session.failing] at hf
  | releasedAll hs' hw =>
    cases hs.symm.trans hs'
    cases hv
    refine ⟨_, g, rfl, h.worker rfl rfl (by simp [Session.receiving, hw]),
      fun hh hf => ⟨hh, ?_, trivial, fun hp => hp.congr rfl rfl rfl ?_⟩⟩
    · simp [Session.failing, hw]
    · simp [Session.removing, Session.executing, Session.outstanding, Session.collecting, hw]
  | receiverDropped hs' hw =>
    cases hs.symm.trans hs'
    cases hv
    refine ⟨_, g, rfl, h.worker rfl rfl (by simp [Session.receiving, hw]),
      fun hh hf => ⟨hh, ?_, trivial, fun hp => hp.congr rfl rfl rfl ?_⟩⟩
    · simpa [Session.failing, hw] using hf
    · have hst : s.status = none := by simpa [Session.failing] using hf
      have hq := (hnum.ended (by simp [Session.ended, hw, hst])).1
      simp [Session.removing, Session.executing, Session.outstanding, Session.collecting, hw, hq]
  | _ => exact absurd rfl (hc _)

/-- **A step of a session and its user.** -/
theorem seenByUser_step (hrev : sm.Reverts) {v v' : Live sm Cb} {l : Label Cb sm}
    (hs : v.sys.session = some s) (hready : s.Ready) (hnum : s.Numbered) (htr : s.Traced)
    (h : SeenByUser v.sys.log v.state v.shelf s g)
    (hl : System.Inside l = true ∨ ∃ op, l = .call op) (hok : v.Succeeds l)
    (hstep : v.step l = some v') : SeenStep v l v' s g := by
  rcases hl with hl | ⟨op, rfl⟩
  · by_cases hc : ∃ r, l = .client r
    · obtain ⟨r, rfl⟩ := hc
      exact seenByUser_client hs hnum htr h hok hstep
    · exact seenByUser_worker hs hready hnum h hl (fun r he => hc ⟨r, he⟩) hstep
  · exact seenByUser_call hrev hs h hok hstep

end

end

end Wal

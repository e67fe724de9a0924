import Wal.Contract
import Wal.Contiguous
import Wal.Steering

/-!
# Notifications and stable storage

The worker announces a chunk right behind its synchronization: the disk of its tape lies `Within`
the files, and every session keeps its disk on the way to the plan of the client (`SessionOnTape`),
whatever fails. A chunk that an opening announces may still be in the page cache; `runs_truthful`
says when no notification is false.
-/

namespace Wal

open Lib

/-! ## Tapes, plans and disks -/

theorem Tape.Le.id_le {t u : Tape} (h : t.Le u) (hc : Tape.Chained u.chunks) : t.id ≤ u.id := by
  obtain ⟨-, bs, hm⟩ := h.mem
  rcases List.mem_append.1 hm with hm | hm
  · exact Nat.le_of_lt (Tape.Chained.lt hc _ hm).2
  · exact Nat.le_of_eq (congrArg Prod.fst (List.mem_singleton.1 hm))

section
variable {C Cb : Type} {R : Rules}

theorem Plan.accept_chained {p p' : Plan} {r : WorkerRequest C Cb} (h : p.accept R r = some p')
    (hc : Tape.Chained p.tape.chunks) : Tape.Chained p'.tape.chunks := by
  cases r with
  | write w =>
    simp only [accept] at h
    split at h
    · cases h
      obtain ⟨h₁, -, h₃⟩ := List.isChain_append.1 hc
      refine List.isChain_append.2 ⟨h₁, List.isChain_singleton _, fun a ha b hb => ?_⟩
      cases hb
      exact h₃ a ha (p.tape.id, p.tape.bytes) rfl
    · cases h
  | appendFile e =>
    simp only [accept] at h
    split at h
    · rename_i hne
      cases h
      refine List.isChain_append.2 ⟨hc, List.isChain_singleton _, fun a ha b hb => ?_⟩
      cases hb
      have ha : a ∈ (p.tape.prev ++ [(p.tape.id, p.tape.bytes)]).getLast? := ha
      rw [List.getLast?_concat] at ha
      cases ha
      exact ⟨rfl, hne.2.1⟩
    · cases h
  | removeChunks ids =>
    simp only [accept] at h
    split at h
    · cases h
      exact hc
    · split at h
      · cases h
        exact hc
      · cases h
  | getFlushStat =>
    cases h
    exact hc

theorem Plan.runs_chained {p p' : Plan} {rs : List (WorkerRequest C Cb)}
    (h : runs (accept R) p rs = some p') (hc : Tape.Chained p.tape.chunks) :
    Tape.Chained p'.tape.chunks :=
  runs_invariant (I := fun p => Tape.Chained p.tape.chunks)
    (fun _ _ _ hi hs => accept_chained hs hi) hc h

theorem Plan.accept_id_le {p p' : Plan} {r : WorkerRequest C Cb} (h : p.accept R r = some p')
    (hc : Tape.Chained p.tape.chunks) : p.tape.id ≤ p'.tape.id :=
  (Plan.accept_le h (.refl _)).id_le (accept_chained h hc)

namespace Disk

variable {b : WriteBatch C Cb} {d d' : Disk} {fs fs' : Fs}

/-- **What an effect does to the tape.** -/
theorem step_tape {e : Effect C Cb} (h : step R b d e = some d') : d'.tape = d.tape ∨
    (∃ bs, d'.tape = d.tape.write bs) ∨ d'.tape = d.tape.rotate ∨
    d'.tape = { d.tape with gone := d.tape.gone + 1 } := by
  cases e with
  | append f bs =>
    simp only [step] at h
    split at h <;> cases h
    exact .inr (.inl ⟨bs, rfl⟩)
  | sync f =>
    simp only [step] at h
    split at h
    · cases h
      exact .inl rfl
    · split at h <;> cases h
      exact .inl rfl
  | persisted p c =>
    simp only [step] at h
    split at h <;> cases h
    exact .inl rfl
  | answer seq cb res =>
    rcases res with e | ⟨⟩
    · cases h
      exact .inl rfl
    · simp only [step] at h
      split at h <;> cases h
      exact .inl rfl
  | appendFile f =>
    simp only [step] at h
    split at h <;> cases h
    exact .inr (.inr (.inl rfl))
  | unlink id =>
    simp only [step] at h
    split at h
    · cases h
      exact .inl rfl
    · split at h <;> cases h
      exact .inr (.inr (.inr rfl))
  | syncDir | release | stat | failed | complete =>
    cases h
    exact .inl rfl

theorem step_id_le {e : Effect C Cb} (h : step R b d e = some d') : d.tape.id ≤ d'.tape.id := by
  rcases step_tape h with h | ⟨bs, h⟩ | h | h
  · rw [h]
  · rw [h]
    exact Nat.le_refl _
  · rw [h]
    exact Nat.le_add_right _ _
  · rw [h]

theorem runs_id_le {es : List (Effect C Cb)} (h : runs (step R b) d es = some d') :
    d.tape.id ≤ d'.tape.id :=
  runs_invariant (I := fun d' => d.tape.id ≤ d'.tape.id)
    (fun _ _ _ hi hs => hi.trans (step_id_le hs))
    (Nat.le_refl _) h

/-- The files hold at least what the disk does, and as much of it is on stable storage. -/
structure Within (d : Disk) (fs : Fs) : Prop where
  written : d.tape.bytes.length ≤ (fs.file d.tape.id).data.length
  synced : d.synced ≤ (fs.file d.tape.id).synced

theorem Within.effect (h : d.Within fs) {e : Effect C Cb} (hs : step R b d e = some d')
    (hfs : fs.onEffect e = some fs') : d'.Within fs' := by
  obtain ⟨h₁, h₂⟩ := h
  cases e with
  | append f bs =>
    simp only [step] at hs
    split at hs
    · rename_i hf
      subst hf
      cases hs
      cases hfs
      refine ⟨?_, ?_⟩
      · show (d.tape.bytes ++ bs).length ≤ ((fs.append d.tape.id bs).file d.tape.id).data.length
        rw [Fs.append_file_self, FileData.append_data, List.length_append, List.length_append]
        omega
      · show d.synced ≤ ((fs.append d.tape.id bs).file d.tape.id).synced
        rwa [Fs.append_file_self, FileData.append_synced]
    · cases hs
  | sync f =>
    cases hfs
    simp only [step] at hs
    split at hs
    · rename_i hf
      subst hf
      cases hs
      refine ⟨?_, ?_⟩
      · rw [Fs.syncData_file_self, FileData.sync_data]
        exact h₁
      · rw [Fs.syncData_file_self, FileData.sync_synced]
        exact h₁
    · rename_i hne
      split at hs
      · cases hs
        refine ⟨?_, ?_⟩
        · rwa [Fs.syncData_file_ne (Ne.symm hne)]
        · rwa [Fs.syncData_file_ne (Ne.symm hne)]
      · cases hs
  | persisted p c =>
    cases hfs
    simp only [step] at hs
    split at hs <;> cases hs
    exact ⟨h₁, h₂⟩
  | answer seq cb res =>
    cases hfs
    rcases res with e | ⟨⟩
    · cases hs
      exact ⟨h₁, h₂⟩
    · simp only [step] at hs
      split at hs <;> cases hs
      exact ⟨h₁, h₂⟩
  | appendFile f =>
    cases hfs
    simp only [step] at hs
    split at hs <;> cases hs
    exact ⟨Nat.zero_le _, Nat.zero_le _⟩
  | unlink id =>
    have hfile : fs'.file = fs.file := by
      simp only [Fs.onEffect] at hfs
      split at hfs <;> cases hfs
      rfl
    simp only [step] at hs
    split at hs
    · cases hs
      exact ⟨by rw [hfile]; exact h₁, by rw [hfile]; exact h₂⟩
    · split at hs <;> cases hs
      exact ⟨by rw [hfile]; exact h₁, by rw [hfile]; exact h₂⟩
  | syncDir | release | stat | failed | complete =>
    cases hfs
    cases hs
    exact ⟨h₁, h₂⟩

theorem Within.created (h : d.Within fs) {id : Nat} (hid : d.tape.id < id) :
    d.Within (fs.createNew id) := by
  obtain ⟨h₁, h₂⟩ := h
  have hfile : (fs.createNew id).file d.tape.id = fs.file d.tape.id :=
    Fs.createNew_file_ne (Nat.ne_of_lt hid)
  exact ⟨by rw [hfile]; exact h₁, by rw [hfile]; exact h₂⟩

/-- **What is announced** is on stable storage. -/
theorem Within.persisted (h : d.Within fs) {p : ChunkPersisted} {c : Option C}
    (hs : step R b d (.persisted p c) = some d') :
    p.syncedOffset ≤ p.startingOffset + (fs.file p.startingOffset).synced := by
  simp only [step] at hs
  split at hs
  · rename_i hp
    obtain ⟨hstart, hend, hsync⟩ := hp
    have := h.synced
    rw [hstart, hend, Tape.end_]
    omega
  · cases hs

end Disk

end

/-! ## Sessions -/

section
variable {A C Cb : Type} [Crc32fast] [Encode A] [Encode C]

/-- **The worker is under way to a plan**: its disk lies within the files, the effects of the batch
in execution bring it forward, and as long as the worker runs, the requests that are left bring it
to the plan. -/
def Underway (R : Rules) (fs : Fs) (s : Session A C Cb) (plan : Plan) : Prop :=
  ∃ (b : WriteBatch C Cb) (d d' : Disk), d.Within fs ∧
  runs (Disk.step R b) d s.executing = some d' ∧
    d'.tape.id ≤ plan.tape.id ∧ (s.worker.running = true → d'.Holds s.files ∧
      ∃ p, d'.At R p ∧ Tape.Chained p.tape.chunks ∧
      runs (Plan.accept R) p s.outstanding = some plan)

/-- Between two steps of a session, whatever has failed. -/
structure SessionOnTape (fs : Fs) (s : Session A C Cb) (g : View A C) : Prop where
  disk : Underway (Mode.loose.rules A C) fs s g.plan
  idle : ∀ w, s.client = .idle w → WalOk Mode.loose w g
  busy : ∀ op p, s.client = .busy op p →
    p.Safe (contract Mode.loose) (fun x g => WalOk Mode.loose x.2 g) g
  refused : g.dead = true → s.tx = false ∨ s.receiving = false
  chained : Tape.Chained g.plan.tape.chunks

variable {fs fs' : Fs} {s s' : Session A C Cb} {g g' : View A C} {R : Rules} {plan : Plan}

omit [Crc32fast] [Encode A] [Encode C] in
theorem Underway.congr (h : Underway R fs s plan) (hf : s'.files = s.files)
    (he : s'.executing = s.executing) (ho : s'.outstanding = s.outstanding)
    (hr : s'.worker.running = true → s.worker.running = true) (hd : fs'.file = fs.file) :
    Underway R fs' s' plan := by
  obtain ⟨b, d, d', ⟨h₁, h₂⟩, hrun, hle, hat⟩ := h
  refine ⟨b, d, d', ⟨by rw [hd]; exact h₁, by rw [hd]; exact h₂⟩, by rw [he]; exact hrun, hle,
    fun hr' => ?_⟩
  rw [hf, ho]
  exact hat (hr hr')

omit [Crc32fast] [Encode A] [Encode C] in
theorem Underway.rests (h : Underway R fs s plan) (hr : s.Rests s') : Underway R fs s' plan :=
  h.congr hr.files hr.executing hr.outstanding hr.running rfl

omit [Crc32fast] [Encode A] [Encode C] in
theorem Underway.stopped (h : Underway R fs s plan) (he : s'.executing = s.executing)
    (hr : s'.worker.running = false) : Underway R fs s' plan := by
  obtain ⟨b, d, d', hw, hrun, hle, -⟩ := h
  exact ⟨b, d, d', hw, by rw [he]; exact hrun, hle, fun hr' => Bool.noConfusion (hr.symm.trans hr')⟩

omit [Crc32fast] [Encode A] [Encode C] in
theorem Underway.enqueued (h : Underway R fs s plan) {req : WorkerRequest C Cb} {plan' : Plan}
    (ha : plan.accept R req = some plan') (hc : Tape.Chained plan.tape.chunks)
    (hf : s'.files = s.files) (he : s'.executing = s.executing) (hw : s'.worker = s.worker)
    (ho : s'.outstanding = s.outstanding ++ [req]) :
    Underway R fs s' plan' := by
  obtain ⟨b, d, d', hin, hrun, hle, hat⟩ := h
  refine ⟨b, d, d', hin, by rw [he]; exact hrun, hle.trans (Plan.accept_id_le ha hc), fun hr => ?_⟩
  obtain ⟨hh, p, hp, hcp, hto⟩ := hat (hw ▸ hr)
  refine ⟨hf ▸ hh, p, hp, hcp, ?_⟩
  rw [ho, runs_append, hto, Option.bind_some, runs_cons, ha]
  rfl

omit [Crc32fast] [Encode A] [Encode C] in
theorem Underway.created (h : Underway R fs s plan) {id : Nat} (hid : plan.tape.id < id)
    (hf : s'.files = s.files) (he : s'.executing = s.executing) (hw : s'.worker = s.worker)
    (ho : s'.outstanding = s.outstanding) :
    Underway R (fs.createNew id) s' plan := by
  obtain ⟨b, d, d', hin, hrun, hle, hat⟩ := h
  have hlt : d.tape.id < id := ((Disk.runs_id_le hrun).trans hle).trans_lt hid
  refine ⟨b, d, d', hin.created hlt, by rw [he]; exact hrun, hle, fun hr => ?_⟩
  rw [hf, ho]
  exact hat (hw ▸ hr)

omit [Crc32fast] [Encode A] [Encode C] in
theorem Underway.executed (h : Underway R fs s plan) {b : WriteBatch C Cb} {stop : Option Stop}
    {es : List (Effect C Cb)} (hrunning : s.worker.running = true)
    (ht : Worker.BatchTrace s.files b stop s'.files es) (hb : Worker.Collected b)
    (he : s.executing = []) (ho : s.outstanding = b.requests.map (·.req) ++ s'.outstanding)
    (he' : s'.executing = es) (hr : s'.worker.running = true → stop = none) :
    Underway R fs s' plan := by
  obtain ⟨b₀, d, d', hin, hrun, hle, hat⟩ := h
  rw [he] at hrun
  cases hrun
  obtain ⟨hh, p, hp, hcp, hto⟩ := hat hrunning
  rw [ho, runs_append] at hto
  obtain ⟨p₁, hp₁, hto⟩ := Option.bind_eq_some_iff.1 hto
  obtain ⟨d₁, hrun₁, hle₁, hat₁⟩ := ht.onDisk hb hh hp hp₁
  have hcp₁ := Plan.runs_chained hp₁ hcp
  have hplan : p₁.tape.id ≤ plan.tape.id :=
    (Plan.runs_le hto (.refl _)).id_le (Plan.runs_chained hto hcp₁)
  refine ⟨b, d, d₁, hin, he' ▸ hrun₁, (hle₁.id_le hcp₁).trans hplan, fun hr' => ?_⟩
  obtain ⟨hh₁, hp₁'⟩ := hat₁ (hr hr')
  exact ⟨hh₁, p₁, hp₁', hcp₁, hto⟩

omit [Crc32fast] [Encode A] [Encode C] in
theorem Underway.effect (h : Underway R fs s plan) {e : Effect C Cb} {es : List (Effect C Cb)}
    (hfs : fs.onEffect e = some fs') (he : s.executing = e :: es) (he' : s'.executing = es)
    (hf : s'.files = s.files) (ho : s'.outstanding = s.outstanding)
    (hr : s'.worker.running = true → s.worker.running = true) : Underway R fs' s' plan := by
  obtain ⟨b, d, d', hin, hrun, hle, hat⟩ := h
  rw [he, runs_cons] at hrun
  obtain ⟨d₁, hd₁, hrun⟩ := Option.bind_eq_some_iff.1 hrun
  refine ⟨b, d₁, d', hin.effect hd₁ hfs, he' ▸ hrun, hle, fun hr' => ?_⟩
  rw [hf, ho]
  exact hat (hr hr')

omit [Crc32fast] [Encode A] [Encode C] in
/-- **A notification of the worker** is true. -/
theorem Underway.truthful (h : Underway R fs s plan) {p : ChunkPersisted} {c : Option C}
    {es : List (Effect C Cb)} (he : s.executing = .persisted p c :: es) :
    p.syncedOffset ≤ p.startingOffset + (fs.file p.startingOffset).synced := by
  obtain ⟨b, d, d', hin, hrun, -, -⟩ := h
  rw [he, runs_cons] at hrun
  obtain ⟨d₁, hd₁, -⟩ := Option.bind_eq_some_iff.1 hrun
  exact hin.persisted hd₁

theorem SessionOnTape.worker (h : SessionOnTape fs s g) (hc : s.SameClient s')
    (hr : s.receiving = false → s'.receiving = false)
    (hdisk : Underway (Mode.loose.rules A C) fs' s' g.plan) : SessionOnTape fs' s' g where
  disk := hdisk
  idle w hi := h.idle w (hc.client ▸ hi)
  busy op p hp := h.busy op p (hc.client ▸ hp)
  refused hd := (h.refused hd).imp (hc.tx.trans ·) hr
  chained := h.chained

/-- Who has sent a request that was refused does not send any more. -/
theorem SessionOnTape.alive (h : SessionOnTape fs s g) (htx : s.tx = true)
    (hr : s.receiving = true) : g.dead = false := by
  by_contra hd
  rcases h.refused (Bool.eq_true_of_not_eq_false hd) with htx' | hr'
  · exact absurd (htx.symm.trans htx') (by simp)
  · exact absurd (hr.symm.trans hr') (by simp)

theorem SessionOnTape.respond (h : SessionOnTape fs s g) {op : Op A C Cb} {a : ClientAct A C Cb}
    {k : IoResult → System.ClientProg A C Cb} {r : IoResult} (hc : s.client = .busy op (.act a k))
    (hs : s'.client = .busy op (k r)) (hstep : (contract Mode.loose).step a g r g')
    (hdisk : Underway (Mode.loose.rules A C) fs' s' g'.plan)
    (hrefused : g'.dead = true → s'.tx = false ∨ s'.receiving = false)
    (hchained : Tape.Chained g'.plan.tape.chunks) : SessionOnTape fs' s' g' where
  disk := hdisk
  idle w hi := by
    rw [hs] at hi
    cases hi
  busy op' p hp := by
    rw [hs] at hp
    cases hp
    exact (h.busy _ _ hc).2 r g' hstep
  refused := hrefused
  chained := hchained

end

namespace System

section
variable {A C Cb : Type} [Crc32fast] [Encode A] [Decode A] [Encode C] [Decode C]
  {sm : StateMachine A C} [SizedCodec A] [SizedCodec C] {s : Session A C Cb} {g : View A C}

omit [Decode A] [Decode C] in
/-- **A turn of a session**, whatever fails in it. -/
theorem Turn.sessionOnTape (hne : ∀ rec : WALRecord A C, Encodes rec → enc rec ≠ [])
    {sys : System A C Cb} {l : Label Cb sm} {fs' : Fs} {log' acked' : List (LogEntry A C)}
    {s' : Session A C Cb} (hready : s.Ready) (h : SessionOnTape sys.fs s g)
    (ht : Turn sys s l fs' log' acked' s') : ∃ g', SessionOnTape fs' s' g' := by
  have hdisk : Underway (Mode.loose.rules A C) sys.fs s g.plan := h.disk
  cases ht with
  | @called op w hc =>
    refine ⟨g, hdisk.rests (.of_client rfl rfl rfl), by simp, fun op' p hp => ?_, h.refused,
      h.chained⟩
    cases hp
    exact op.meets hne (h.idle w hc)
  | @finished _ op res w hc =>
    refine ⟨g, hdisk.rests (.of_client rfl rfl rfl), fun w' hw => ?_, fun op' p hp => ?_, h.refused,
      h.chained⟩
    · simp only [Session.finish] at hw
      split at hw <;> cases hw
      exact h.busy _ _ hc
    · simp only [Session.finish] at hp
      split at hp <;> cases hp
  | rested hc hr hrest => exact ⟨g, h.worker hc hr (hdisk.rests hrest)⟩
  | panicked =>
    exact ⟨g, hdisk.rests (.of_client rfl rfl rfl), by simp, by simp, h.refused, h.chained⟩
  | refused hc ha hgone =>
    exact ⟨{ g with dead := true }, h.respond (r := .error _) hc ha.client rfl
      (hdisk.rests ha.rests) (fun _ => hgone.imp ha.tx (ha.receiving.trans ·)) h.chained⟩
  | @enqueued _ op req k hc htx hr =>
    have hdead : g.dead = false := h.alive htx hr
    obtain ⟨hacc, hallowed⟩ := (h.busy _ _ hc).1 hdead
    obtain ⟨p, hp⟩ := Option.isSome_iff_exists.1 hacc
    have hchained : Tape.Chained (g.sent req p).plan.tape.chunks := by
      rw [View.sent_plan]
      exact Plan.accept_chained hp h.chained
    refine ⟨g.sent req p, h.respond (r := .ok ()) hc rfl ⟨hdead, hallowed, p, hp, rfl⟩ ?_
      (fun hd => Bool.noConfusion (((g.sent_dead req p).trans hdead).symm.trans hd)) hchained⟩
    rw [View.sent_plan]
    refine hdisk.enqueued hp h.chained rfl rfl rfl ?_
    simp [Session.outstanding, Session.collecting, Session.respond]
  | @created _ op id k hc hd =>
    obtain ⟨-, hid, hbytes, -⟩ := (h.busy _ _ hc).1
    have hlt : g.plan.tape.id < id := by
      have := List.length_pos_of_ne_nil hbytes
      rw [hid, Tape.end_]
      omega
    exact ⟨{ g with extras := g.extras ++ [id], synced := false }, h.respond (r := .ok ()) hc rfl
      rfl (hdisk.created hlt rfl rfl rfl rfl) h.refused h.chained⟩
  | notCreated hc =>
    exact ⟨g, h.respond (r := .error _) hc rfl ⟨rfl, rfl⟩ (hdisk.rests (.of_client rfl rfl rfl))
      h.refused h.chained⟩
  | @synced op k r hc =>
    rcases r with e | ⟨⟩
    · exact ⟨g, h.respond (r := .error e) hc rfl ⟨rfl, rfl⟩ (hdisk.rests (.of_client rfl rfl rfl))
        h.refused h.chained⟩
    · exact ⟨{ g with synced := true }, h.respond (r := .ok ()) hc rfl rfl
        (hdisk.congr rfl rfl rfl id rfl) h.refused h.chained⟩
  | @noted _ op e k hc =>
    exact ⟨{ g with records := g.records ++ [e.1] }, h.respond (r := .ok ()) hc rfl rfl
      (hdisk.rests (.of_client rfl rfl rfl)) h.refused h.chained⟩
  | @answered _ op a k r _ hc ha hans =>
    obtain ⟨hplan, hdead, -⟩ := g.told_eq a r
    refine ⟨g.told a r, h.respond hc hans.client (View.told_step (ha.imp_left And.left))
      (hplan ▸ hdisk.rests hans.rests) (fun hd => ?_) (hplan ▸ h.chained)⟩
    exact (h.refused (hdead ▸ hd)).imp hans.tx (hans.receiving.trans ·)
  | stopped hc hr he hb hrun =>
    exact ⟨g, h.worker hc (fun hr' => absurd (hr.symm.trans hr') (by simp)) (hdisk.stopped he hrun)⟩
  | executed hw =>
    refine ⟨g, h.worker ⟨rfl, rfl, rfl, rfl⟩ (by simp [Session.receiving, hw])
      (hdisk.executed (by simp [hw, WorkerPc.running]) (executed_trace hready hw _)
        (hready.collected _ hw) ?_ ?_ rfl fun hr => running_exec hr)⟩
    · simp [Session.executing, hw]
    · simp [Session.outstanding, Session.collecting, hw]
  | effect hw hf =>
    refine ⟨g, h.worker ⟨rfl, rfl, rfl, rfl⟩ (by simp [Session.receiving, hw])
      (hdisk.effect hf ?_ rfl rfl ?_ fun hr => ?_)⟩
    · simp [Session.executing, hw]
    · simp [Session.outstanding, Session.collecting, hw, Session.onEffect]
    · obtain rfl := running_exec hr
      simp [hw, WorkerPc.running]

/-- **A step inside of a session**, whatever fails in it. -/
theorem sessionOnTape_step (hne : ∀ rec : WALRecord A C, Encodes rec → enc rec ≠ [])
    {sys sys' : System A C Cb} {l : Label Cb sm} (hs : sys.session = some s) (hready : s.Ready)
    (hbal : s.Balanced) (hnum : s.Numbered) (h : SessionOnTape sys.fs s g)
    (hl : Inside l = true ∨ ∃ op, l = .call op) (hstep : step sys l = some sys') :
    ∃ s' g', sys'.session = some s' ∧ SessionOnTape sys'.fs s' g' := by
  obtain ⟨s', hs', ht⟩ := turn_of_step hs hbal hnum hl hstep
  obtain ⟨g', h'⟩ := ht.sessionOnTape hne hready h
  exact ⟨s', g', hs', h'⟩

end

end System

/-! ## Openings -/

section
variable {A C Cb : Type} [Crc32fast] [Encode A] [Decode A] [Encode C] [Decode C]
    {sm : StateMachine A C}
  {config : Config} [SizedCodec A] [SizedCodec C]

/-- Where the plan of a session begins: with the records that the opening found in the open
chunk. -/
def OpenState.view (x : OpenState A C) (o : Opened sm) : View A C where
  plan := {
    tape := {
      prev := [], gone := 0, id := o.entry.f
      bytes := (x.fs.file o.entry.f).data.take (o.wal.open.chunk.globalEnd - o.entry.f) }
    clean := false }
  parts := []
  records := []
  extras := []
  synced := false
  dead := false
  joined := false
  settled := false

theorem OpenRun.stored {st : sm.State} {fs : Fs} {x : OpenState A C} {o : Opened sm}
    (h : OpenRun config st (OpenState.init fs) (.ok o) x) :
    o.wal.open.chunk.f = o.entry.f ∧ o.entry.startingOffset = o.entry.f ∧
      o.wal.open.chunk.globalStart = o.entry.f ∧ o.wal.open.pendingData = [] ∧
      0 < config.chunkMaxRecords ∧ 0 < config.chunkMaxSize ∧ o.wal.config = config ∧
      ∃ n, o.wal.open.chunk.globalEnd = o.entry.f + n ∧ n ≤ (x.fs.file o.entry.f).data.length := by
  cases h with
  | @reopened k s₁ acc _ oc closed hv ht hr hl =>
    obtain ⟨c, hreads, hcut, hwhole, -⟩ := ht.replayed hr
    obtain ⟨cs, hcs, hall⟩ := hreads.chunks (Replay.start_ordered st)
    rw [show (Replay.start sm st).closed = [] from rfl, List.nil_append] at hcs
    obtain ⟨-, hrec, hsize, -⟩ := Config.validate_pos hv
    unfold reopenLastClosed at hl
    split at hl
    · cases hl
    rename_i id last hlast
    split at hl
    · cases hl
    cases hl
    obtain ⟨hid, -, t, hc⟩ := hall _ (hcs ▸ List.mem_of_getLast? hlast)
    have hc : last.chunk = chunkIn A C (fs.file id).data id t := hc
    have hchunk : (ChunkedWal.new sm config acc.closed.dropLast (OpenChunk.new last.chunk)
        acc.state).wal.open.chunk = chunkIn A C (fs.file id).data id t := hc
    have hstart : last.chunk.globalStart = id := by rw [hc]; rfl
    have hf : last.chunk.f = id := by rw [hc]; rfl
    refine ⟨rfl, ?_, ?_, rfl, hrec, hsize, rfl, recordsEnd A C (fs.file id).data id, ?_, ?_⟩
    · exact hstart.trans hf.symm
    · exact hstart.trans hf.symm
    · show last.chunk.globalEnd = last.chunk.f + _
      rw [hf, hc]
      exact chunkIn_globalEnd
    · show _ ≤ (x.fs.file last.chunk.f).data.length
      rw [hf]
      by_cases hcid : c = some id
      · rw [hcut id hcid, List.length_take]
        exact Nat.le_min.2 ⟨Nat.le_refl _, recordsEnd_le⟩
      · rw [hwhole id hcid]
        exact recordsEnd_le
  | @created k s₁ acc s₂ n hv ht hr hl hm he =>
    obtain ⟨-, hrec, hsize, -⟩ := Config.validate_pos hv
    have hn : n = (enc acc.head).length := SizedCodec.size_eq he
    refine ⟨rfl, rfl, rfl, rfl, hrec, hsize, rfl, n, rfl, ?_⟩
    show n ≤ ((((s₂.fs.createNew acc.end_).syncDir).append acc.end_ (enc acc.head)).file
      acc.end_).data.length
    rw [Fs.append_file_self, Fs.syncDir_file, Fs.createNew_file_self]
    exact Nat.le_of_eq hn

theorem SessionOnTape.started {st : sm.State} {fs : Fs} {x : OpenState A C} {o : Opened sm}
    (h : OpenRun config st (OpenState.init fs) (.ok o) x) :
    SessionOnTape x.fs (System.startSession config o : Session A C Cb) (x.view o) := by
  obtain ⟨hf, hoff, hstart, hpending, hrec, hsize, hconfig, n, hend, hn⟩ := h.stored
  have hlen : (x.view o).plan.tape.bytes.length = n := by
    show ((x.fs.file o.entry.f).data.take (o.wal.open.chunk.globalEnd - o.entry.f)).length = n
    rw [List.length_take, hend]
    omega
  refine ⟨⟨.new 0, { tape := (x.view o).plan.tape, synced := 0 }, _, ⟨?_, Nat.zero_le _⟩,
    rfl, Nat.le_refl _, fun _ =>
      ⟨⟨fun e he => ?_, rfl⟩, (x.view o).plan, ⟨rfl, fun hc => Bool.noConfusion hc, .inr fun hs =>
      Bool.noConfusion hs⟩, List.isChain_singleton _, rfl⟩⟩, fun w hw => ?_, fun op p hp => ?_,
    fun hd => Bool.noConfusion hd, List.isChain_singleton _⟩
  · exact hlen.trans_le hn
  · obtain rfl := List.mem_singleton.1 he
    exact ⟨hoff, .inl rfl⟩
  · cases hw
    refine ⟨hf, hstart, h.chained.filled.increasing, fun _ => ?_, fun hf => Bool.noConfusion hf, ?_,
      fun hs => Bool.noConfusion hs⟩
    · rw [hpending, Tape.end_, hlen]
      exact hend
    · rw [hconfig]
      exact ⟨hrec, hsize⟩
  · cases hp

end

/-! ## What an opening announces -/

section
variable {A C : Type}

/-- A call of `on_chunk_persisted` that was visible at some point of an opening. -/
def OpenState.Called (s : OpenState A C) (c : PersistedCall C) : Prop :=
  c ∈ s.persisted ∨ ∃ v ∈ s.trail, c ∈ v.persisted

variable {s : OpenState A C} {c : PersistedCall C}

theorem OpenState.Called.of_note {g : OpenView A C → OpenView A C} (h : (s.note g).Called c) :
    s.Called c ∨ c ∈ (g s.toOpenView).persisted := by
  rcases h with h | ⟨v, hv, h⟩
  · exact .inr h
  · rcases List.mem_append.1 hv with hv | hv
    · exact .inl (.inr ⟨v, hv, h⟩)
    · rw [List.mem_singleton.1 hv] at h
      exact .inr h

theorem OpenState.Called.of_noteFs {g : Fs → Fs} (h : (s.noteFs g).Called c) : s.Called c := by
  rcases h.of_note with h | h
  · exact h
  · exact .inl h

theorem OpenState.Called.of_applying {es : List (LogEntry A C)} (h : (s.applying es).Called c) :
    s.Called c := h

theorem OpenState.Called.of_announced {chunk : Chunk} {checkpoint : Option C}
    (h : (s.announced chunk checkpoint).Called c) : s.Called c ∨
      c.persisted = { startingOffset := chunk.globalStart, syncedOffset := chunk.globalEnd } ∧
      c.durable = (s.fs.file chunk.globalStart).synced := by
  rcases h.of_note with h | h
  · exact .inl h
  · rcases List.mem_append.1 h with h | h
    · exact .inl (.inl h)
    · rw [List.mem_singleton.1 h]
      exact .inr ⟨rfl, rfl⟩

end

section
variable {A C : Type} [Crc32fast] [Encode A] [Decode A] [Encode C] [Decode C]
    {sm : StateMachine A C}
  {config : Config}

variable (A C) in
/-- **The announcement of the chunk `i`** by an opening, as its file was before: it is read whole
and announced with what is on stable storage of it, or it is cut, and all that is left is on stable
storage. -/
def CallOf (fs : Fs) (i : Nat) (c : PersistedCall C) : Prop :=
  c.persisted = { startingOffset := i, syncedOffset := i + recordsEnd A C (fs.file i).data i } ∧
    (failureIn A C (fs.file i).data i = none ∧ c.durable = (fs.file i).synced ∨
      c.durable = recordsEnd A C (fs.file i).data i)

omit [Encode C] in
theorem Opens.callOf {allow : Bool} {i : Nat} {t : Option Nat} {s s₁ : OpenState A C}
    (h : Opens config allow i s t s₁) {checkpoint : Option C} {c : PersistedCall C}
    (hc : (s₁.announced (chunkIn A C (s.fs.file i).data i t) checkpoint).Called c) :
    s.Called c ∨ CallOf A C s.fs i c := by
  have hp : ∀ {t : Option Nat}, ChunkPersisted.mk (chunkIn A C (s.fs.file i).data i t).globalStart
      (chunkIn A C (s.fs.file i).data i t).globalEnd =
      .mk i (i + recordsEnd A C (s.fs.file i).data i) := by
    intro t
    rw [chunkIn_globalEnd]
    rfl
  cases h with
  | whole hm hf =>
    rcases hc.of_announced with hc | ⟨hc, hd⟩
    · exact .inl hc
    · exact .inr ⟨hc.trans hp, .inl ⟨hf, hd⟩⟩
  | cut hm ht =>
    rcases hc.of_announced with hc | ⟨hc, hd⟩
    · exact .inl hc.of_noteFs.of_noteFs
    · refine .inr ⟨hc.trans hp, .inr (hd.trans ?_)⟩
      show (((s.fs.setLen i _).syncData i).file i).synced = _
      rw [Fs.syncData_file_self, FileData.sync_synced, Fs.setLen_file_self, FileData.setLen_data,
        List.length_take]
      exact Nat.min_eq_left recordsEnd_le

omit [Encode C] in
/-- **What a replay announces.** -/
theorem Replayed.calls {t : Nat} {ids : List Nat} {acc : Replay sm} {s s' : OpenState A C}
    {r : Except Fault (Replay sm)} (h : Replayed config (some t) ids acc s r s')
    (hle : ∀ i ∈ ids, i ≤ t) {c : PersistedCall C} (hc : s'.Called c) :
    s.Called c ∨ ∃ older i newer acc₁, ids = older ++ i :: newer ∧
      Reads config (fun i => (s.fs.file i).data) older acc acc₁ none ∧ acc₁.Follows i ∧
        CallOf A C s.fs i c := by
  induction h with
  | nil | stopped => exact .inl hc
  | @refused id ids acc s tr s₁ m done hp ho ha hd =>
    rcases ho.callOf hc.of_applying with hc | hc
    · exact .inl hc
    · exact .inr ⟨[], id, ids, acc, rfl, .nil, hp, hc⟩
  | @panicked id ids acc s tr s₁ hp ho hr =>
    rcases ho.callOf hc with hc | hc
    · exact .inl hc
    · exact .inr ⟨[], id, ids, acc, rfl, .nil, hp, hc⟩
  | @step id ids acc s tr s₁ st r s' hp ho hr ha h ih =>
    have here : ∀ {checkpoint : Option C}, (s₁.announced (chunkIn A C (s.fs.file id).data id tr)
        checkpoint).Called c → s.Called c ∨ ∃ older i newer acc₁, id :: ids = older ++ i :: newer ∧
        Reads config (fun i => (s.fs.file i).data) older acc acc₁ none ∧ acc₁.Follows i ∧
          CallOf A C s.fs i c := by
      intro checkpoint hc
      rcases ho.callOf hc with hc | hc
      · exact .inl hc
      · exact .inr ⟨[], id, ids, acc, rfl, .nil, hp, hc⟩
    cases ho with
    | whole hm hf =>
      rcases ih (fun i hi => hle i (List.mem_cons_of_mem _ hi)) hc with hc | ⟨older, i, newer, acc₁,
        rfl, hreads, hfollows, hcall⟩
      · exact here hc.of_applying
      · exact .inr ⟨id :: older, i, newer, acc₁, rfl, .whole hp hf hr ha hreads, hfollows, hcall⟩
    | cut hm ht =>
      obtain rfl : id = t := ht.tail_eq
      have hpos := recordsEnd_pos hr
      obtain ⟨rfl, -⟩ := h.behind rfl fun i hi => by
        have := hle i (List.mem_cons_of_mem _ hi)
        show i < id + recordsEnd A C (s.fs.file id).data id
        omega
      exact here hc.of_applying

omit [Encode C] in
theorem Tidied.calls {ids : List Nat} {s s' : OpenState A C} {r : Except IoError (List Nat)}
    (h : Tidied ids s r s') {c : PersistedCall C} (hc : s'.Called c) : s.Called c := by
  induction h with
  | empty | complete | stopped => exact hc
  | removed hm hb h ih => exact (ih hc).of_noteFs.of_noteFs

variable (sm) in
/-- **An opening reaches the chunk `i`**: it keeps the file, reads all older ones whole, and finds
that `i` follows them. -/
def Reaches (config : Config) (st : sm.State) (fs : Fs) (i : Nat) : Prop :=
  config.validate = .ok () ∧ ∃ kept removed older newer acc, Tidy A C fs kept removed ∧
    kept = older ++ i :: newer ∧
    Reads config (fun i => (fs.file i).data) older (Replay.start sm st) acc none ∧
    acc.Follows i

omit [Encode C] in
theorem Reaches.listed {st : sm.State} {fs : Fs} {i : Nat} (h : Reaches sm config st fs i) :
    i ∈ loadChunkIds fs := by
  obtain ⟨-, kept, removed, older, newer, acc, htidy, rfl, -⟩ := h
  rw [htidy.listed]
  simp

/-- **What an opening announces**, of whatever directory and however it ends. -/
theorem OpenRun.calls {st : sm.State} {fs : Fs} {x : OpenState A C} {r : Except Fault (Opened sm)}
    (h : OpenRun config st (OpenState.init fs) r x) {c : PersistedCall C} (hc : x.Called c) :
    ∃ i, Reaches sm config st fs i ∧ CallOf A C fs i c := by
  have hinit : ¬ (OpenState.init fs : OpenState A C).Called c := by
    rintro (h | ⟨v, h, -⟩) <;> cases h
  have replayed : ∀ {kept s₁ rr s₂}, config.validate = .ok () →
      Tidied (loadChunkIds fs).reverse (OpenState.init fs) (.ok kept) s₁ →
      Replayed config kept.reverse.getLast? kept.reverse (Replay.start sm st) s₁ rr s₂ →
      s₂.Called c →
      ∃ i, Reaches sm config st fs i ∧ CallOf A C fs i c := by
    intro kept s₁ rr s₂ hv ht hr hc
    obtain ⟨removed, htidy, -, hfile, -⟩ := Tidied.tidy (s := OpenState.init fs) ht
    rcases hk : kept.reverse.getLast? with _ | t
    · rw [hk, List.getLast?_eq_none_iff.1 hk] at hr
      cases hr
      exact absurd (ht.calls hc) hinit
    · rw [hk] at hr
      rcases hr.calls (le_tail htidy.listed hk) hc with hc | ⟨older, i, newer, acc, hids, hreads,
        hfollows, hcall⟩
      · exact absurd (ht.calls hc) hinit
      · rw [hfile] at hreads
        unfold CallOf at hcall
        rw [hfile] at hcall
        exact ⟨i, ⟨hv, kept.reverse, removed, older, newer, acc, htidy, hids, hreads, hfollows⟩,
          hcall⟩
  cases h with
  | invalid => exact absurd hc hinit
  | untidy hv ht => exact absurd (ht.calls hc) hinit
  | failed hv ht hr => exact replayed hv ht hr hc
  | reopened hv ht hr hl => exact replayed hv ht hr hc
  | blocked hv ht hr => exact replayed hv ht hr hc
  | unencoded hv ht hr => exact replayed hv ht hr hc.of_noteFs.of_noteFs
  | created hv ht hr =>
    rcases hc.of_note with hc | hc
    · exact replayed hv ht hr hc.of_noteFs.of_noteFs
    · exact replayed hv ht hr (.inl hc)

end

/-! ## Every run -/

/-- What is announced of a chunk was on stable storage. -/
def Notification.Truthful (n : Notification) : Prop :=
  n.persisted.syncedOffset ≤ n.persisted.startingOffset + n.durable

namespace System

section
variable {A C Cb : Type} [Crc32fast] [Encode A] [Decode A] [Encode C] [Decode C]
    {sm : StateMachine A C}

/-- Whenever a WAL is opened, the files that it reaches and can read to their end are on stable
storage. -/
def FindsStable (sys : System A C Cb) : Label Cb sm → Prop
  | .open config st | .openCrash config st _ => ∀ i, Reaches sm config st sys.fs i →
      failureIn A C (sys.fs.file i).data i = none →
      (sys.fs.file i).data.length ≤ (sys.fs.file i).synced
  | _ => True

theorem truthful_opened {config : Config} {st : sm.State} {fs : Fs} {x : OpenState A C}
    (hopen : (∃ o, (openLocked sm config st).run (OpenState.init fs) = .ok o x) ∨
      ∃ e, (openLocked sm config st).run (OpenState.init fs) = .error e x)
    (hok : ∀ i, Reaches sm config st fs i → failureIn A C (fs.file i).data i = none →
      (fs.file i).data.length ≤ (fs.file i).synced) {c : PersistedCall C} (hc : x.Called c) :
    c.persisted.syncedOffset ≤ c.persisted.startingOffset + c.durable := by
  obtain ⟨r, x', hrun, heq⟩ := openLocked_run config st (OpenState.init fs)
  have hx : x' = x := by
    rcases hopen with ⟨o, ho⟩ | ⟨e, ho⟩
    all_goals
      have := heq.symm.trans ho
      rcases r with e | o' <;> cases this
      rfl
  subst hx
  obtain ⟨i, hi, hp, hd⟩ := hrun.calls hc
  rw [hp]
  rcases hd with ⟨hf, hd⟩ | hd
  · have hle := hok i hi hf
    have := recordsEnd_eq hf
    rw [hd]
    exact Nat.add_le_add_left (this ▸ hle) i
  · exact Nat.add_le_add_left (Nat.le_of_eq hd.symm) i

/-- A step inside of a session notifies of nothing, or of what the worker announces. -/
theorem notified_inside {sys sys' : System A C Cb} {l : Label Cb sm} (h : Move sys l sys')
    (hl : Inside l = true ∨ ∃ op, l = .call op) : sys'.notified = sys.notified ∨
      ∃ s e es, sys.session = some s ∧ s.executing = e :: es ∧
        sys'.notified = sys.notified ++ notifiedBy sys.fs e := by
  cases h with
  | @effect s b e effects stop held fs hs hw =>
    exact .inr ⟨s, e, effects, hs, by simp [Session.executing, hw], rfl⟩
  | opened | notOpened | openCrashed | crashed | dropped => simp [Inside] at hl
  | _ => exact .inl rfl

variable [SizedCodec A] [SizedCodec C]

/-- Every notification so far was true, and a session is under way to its plan. -/
structure Candid (sys : System A C Cb) : Prop where
  truthful : ∀ n ∈ sys.notified, n.Truthful
  onTape : ∀ s ∈ sys.session, ∃ g, SessionOnTape sys.fs s g

theorem candid_step (hne : ∀ rec : WALRecord A C, Encodes rec → enc rec ≠ [])
    {sys sys' : System A C Cb} {l : Label Cb sm} (hready : sys.InSession Session.Ready)
    (hbal : sys.InSession Session.Balanced) (hnum : sys.InSession Session.Numbered) (h : Candid sys)
    (hok : FindsStable sys l) (hstep : step sys l = some sys') : Candid sys' := by
  have hmove := step_move hstep
  by_cases hl : Inside l = true ∨ ∃ op, l = .call op
  · rcases hs : sys.session with _ | s
    · cases l with
      | «open» | openCrash | crash | drop => simp [Inside] at hl
      | client | recv | collect | exec | effect | releaseAll | fail | dropReceiver | call =>
        simp [step, hs] at hstep
    · obtain ⟨g, hg⟩ := h.onTape s hs
      obtain ⟨s', g', hs', hg'⟩ :=
        sessionOnTape_step hne hs (hready s hs) (hbal s hs) (hnum s hs) hg hl hstep
      refine ⟨fun n hn => ?_, fun s₁ hs₁ => ⟨g', ?_⟩⟩
      · rcases notified_inside hmove hl with heq | ⟨s₀, e, es, hs₀, he, heq⟩
        · exact h.truthful n (heq ▸ hn)
        · rw [heq] at hn
          rcases List.mem_append.1 hn with hn | hn
          · exact h.truthful n hn
          · cases hs.symm.trans hs₀
            cases e with
            | persisted p c =>
              obtain rfl := List.mem_singleton.1 hn
              exact hg.disk.truthful he
            | _ => cases hn
      · cases hs'.symm.trans hs₁
        exact hg'
  · have opened : ∀ {config : Config} {st : sm.State} {x : OpenState A C} {v : OpenView A C},
        ((∃ o, (openLocked sm config st).run (OpenState.init sys.fs) = .ok o x) ∨
          ∃ e, (openLocked sm config st).run (OpenState.init sys.fs) = .error e x) →
        (∀ i, Reaches sm config st sys.fs i → failureIn A C (sys.fs.file i).data i = none →
          (sys.fs.file i).data.length ≤ (sys.fs.file i).synced) →
        v = x.toOpenView ∨ v ∈ x.trail →
        ∀ n ∈ sys.notified ++
        v.persisted.map (fun c => ({ persisted := c.persisted, durable := c.durable } :
          Notification)), n.Truthful := by
      intro config st x v hopen hok hv n hn
      rcases List.mem_append.1 hn with hn | hn
      · exact h.truthful n hn
      · obtain ⟨c, hc, rfl⟩ := List.mem_map.1 hn
        refine truthful_opened hopen hok (c := c) ?_
        rcases hv with rfl | hv
        · exact .inl hc
        · exact .inr ⟨v, hv, hc⟩
    cases hmove with
    | @opened config st o x hs hopen =>
      refine ⟨opened (.inl ⟨o, hopen⟩) hok (.inl rfl), fun s hs' => ?_⟩
      cases hs'
      obtain ⟨r, x', hrun, heq⟩ := openLocked_run config st (OpenState.init sys.fs)
      have := heq.symm.trans hopen
      rcases r with e | o'
      · cases this
      cases this
      exact ⟨_, .started hrun⟩
    | @notOpened config st e x hs hopen =>
      refine ⟨opened (.inr ⟨e, hopen⟩) hok (.inl rfl), fun s hs' => ?_⟩
      exact absurd (hs.symm.trans hs') (by simp)
    | @openCrashed config st k x v hs hopen hv =>
      refine ⟨opened hopen hok (.inr (List.mem_of_getElem? hv)), fun s hs' => ?_⟩
      exact absurd (hs.symm.trans hs') (by simp)
    | crashed hc => exact ⟨h.truthful, fun s hs' => absurd hs' (by simp)⟩
    | dropped hs => exact ⟨h.truthful, fun s hs' => absurd hs' (by simp)⟩
    | @called _ op => exact (hl (.inr ⟨op, rfl⟩)).elim
    | _ => exact (hl (.inl rfl)).elim

/-- **Every notification is true**, of the workers and of the openings, in every run in which
whatever a WAL finds when it is opened, and reads whole, is on stable storage. -/
theorem runs_truthful (hne : ∀ rec : WALRecord A C, Encodes rec → enc rec ≠ [])
    {ls : List (Label Cb sm)} {sys : System A C Cb}
    (hr : RunsOf step FindsStable (System.fresh A C Cb) ls sys) :
    ∀ n ∈ sys.notified, n.Truthful := by
  have hall : sys.InSession Session.Ready ∧ sys.InSession Session.Balanced ∧
    sys.InSession Session.Numbered ∧
      Candid sys := by
    refine hr.invariant (I := fun sys => sys.InSession Session.Ready ∧
      sys.InSession Session.Balanced ∧
      sys.InSession Session.Numbered ∧ Candid sys) ?_ ⟨fresh_inSession, fresh_inSession,
      fresh_inSession, ?_⟩
    · intro s l s' h hok hs
      obtain ⟨h1, h2, h3, h4⟩ := h
      exact ⟨ready_step s l s' h1 hs, balanced_step s l s' h1 h2 hs, numbered_step s l s' h2 h3 hs,
        candid_step hne h1 h2 h3 h4 hok hs⟩
    · exact ⟨fun n hn => absurd hn (by simp [System.fresh]),
        fun s hs => absurd hs (by simp [System.fresh])⟩
  exact hall.2.2.2.truthful

instance (n : Notification) : Decidable n.Truthful :=
  inferInstanceAs (Decidable (_ ≤ _))

/-- Whenever a WAL is opened, every listed file is on stable storage. -/
def FindsSynced (sys : System A C Cb) : Label Cb sm → Prop
  | .open .. | .openCrash .. =>
    ∀ i ∈ loadChunkIds sys.fs, (sys.fs.file i).data.length ≤ (sys.fs.file i).synced
  | _ => True

instance (sys : System A C Cb) (l : Label Cb sm) : Decidable (FindsSynced sys l) :=
  match l with
  | .open .. | .openCrash .. => inferInstanceAs (Decidable (∀ i ∈ loadChunkIds sys.fs, _))
  | .crash _ | .drop | .call _ | .client _ | .recv | .collect | .exec _ | .effect
      | .releaseAll | .fail
    | .dropReceiver => .isTrue trivial

omit [Encode C] [SizedCodec A] [SizedCodec C] in
theorem FindsSynced.findsStable {sys : System A C Cb} {l : Label Cb sm} (h : FindsSynced sys l) :
    FindsStable sys l := by
  cases l with
  | «open» config st => exact fun i hi _ => h i hi.listed
  | openCrash config st k => exact fun i hi _ => h i hi.listed
  | _ => trivial

end

open Register

/-- A WAL is shut down and opened again. -/
def reopenedRun : List Register.Step :=
  [start Register.config] ++ puts 7 ++ [.call .shutdown, go, go, go, .recv,
    .exec { writes := [.ok 5], calls := [.ok ()], user := [none] }] ++ List.replicate 6 .effect ++
    [.recv, .releaseAll, .dropReceiver, go, go, go, .drop, start Register.config]

theorem runs_truthful_reopened : ∃ sys : System Put Register Nat,
    runs step (System.fresh Put Register Nat) reopenedRun = some sys ∧
    sys.notified.map (fun n => n.persisted.syncedOffset) = [18, 18] ∧ ∀ n ∈ sys.notified,
      n.Truthful := by
  have h : ((runs (guarded FindsSynced step) (System.fresh Put Register Nat)
    reopenedRun).any fun sys =>
      decide (sys.notified.map (fun n => n.persisted.syncedOffset) = [18, 18])) = true :=
        by decide +kernel
  obtain ⟨sys, hsys, h⟩ := (Option.any_eq_true _ _).1 h
  have hr := RunsOf.of_guarded hsys
  exact ⟨sys, hr.runs, of_decide_eq_true h,
    runs_truthful (fun rec hrec => LawfulRecord.enc_ne_nil hrec)
    (hr.mono fun _ _ hok => hok.findsStable)⟩

/-- The process dies behind a write without `sync`, what was written survives, and the WAL is opened
again. -/
def unsyncedRun : List Register.Step :=
  [start Register.config] ++ puts 7 ++ sends false ++
  [.recv, .exec { writes := [.ok 5], calls := [], user := [] }] ++
    List.replicate 3 .effect ++ [.crash fun _ => some (18, 0), start Register.config]

/-- An opening announces the 18 bytes that it has read, and a power loss may still take all of
them. -/
theorem opening_untruthful : ¬ ∀ (ls : List Register.Step) (sys : System Put Register Nat),
    runs step (System.fresh Put Register Nat) ls = some sys → ∀ n ∈ sys.notified, n.Truthful := by
  intro hall
  have h : ((runs step (System.fresh Put Register Nat) unsyncedRun).any fun sys =>
      sys.notified.any fun n => decide (¬ n.Truthful)) = true := by decide +kernel
  obtain ⟨sys, hsys, h⟩ := (Option.any_eq_true _ _).1 h
  obtain ⟨n, hn, h⟩ := List.any_eq_true.1 h
  exact of_decide_eq_true h (hall _ sys hsys n hn)

end System

end Wal

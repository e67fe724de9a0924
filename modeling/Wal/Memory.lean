import Wal.Advancing
import Wal.Agreeing
import Wal.Encoded

/-!
# Memory and disk

In every run in which no request is refused and no batch fails, the files of a session, what is
still to be written, and the index of the WAL agree (`SessionAgrees`). Between sessions every file
is the first part of a list of encoded records, and an opening reads as much of it as it leaves in
the file (`OpenRun.sessionAgrees`).
-/

namespace Wal

open Lib

section
variable {A C Cb : Type}

/-- Where the requests end, once they are written behind what the batch in execution still
writes. -/
def Session.endOf (s : Session A C Cb) (fs : Fs) (rs : List (WorkerRequest C Cb)) : Nat :=
  addressedEnd s.current rs + ((fs.file (addressedEnd s.current rs)).data ++
    bytesFor (addressedEnd s.current rs) (landing s.executing ++ addressed s.current rs)).length

/-- **What is on its way to the files** makes them what the client knows of them. -/
structure Flowing (g : ExpectedFiles A C) (s : Session A C Cb) (fs : Fs) : Prop where
  listed : (s.files.map (·.f)).getLast? = some s.current
  total : ∀ f, (fs.file f).data ++ bytesFor f s.unwritten = g.total f
  current : addressedEnd s.current s.outstanding = g.cur
  landed : ∀ t ∈ landing s.executing, t.1 ≤ g.cur
  below : ∀ pre, pre <+: s.outstanding → addressedEnd s.current pre ≤ g.cur
  uptos : ∀ pre w post, s.outstanding = pre ++ .write w :: post →
    w.uptoOffset = s.endOf fs (pre ++ [.write w])

variable {g : ExpectedFiles A C} {s s' : Session A C Cb} {fs fs' : Fs}

theorem Flowing.congr (h : Flowing g s fs) (hf : s'.files = s.files)
    (he : s'.executing = s.executing) (ho : s'.outstanding = s.outstanding)
    (hfs : ∀ f, (fs'.file f).data = (fs.file f).data) :
    Flowing g s' fs' := by
  have hc : s'.current = s.current := by unfold Session.current; rw [hf]
  have hend : ∀ rs, s'.endOf fs' rs = s.endOf fs rs := fun rs => by
    unfold Session.endOf
    rw [hc, he, hfs]
  obtain ⟨h1, h2, h3, h4, h5, h6⟩ := h
  refine ⟨by rw [hf, hc]; exact h1, fun f => ?_, by rw [hc, ho]; exact h3, by rw [he]; exact h4,
    fun pre hp => by rw [hc]; exact h5 pre (ho ▸ hp), fun pre w post hp => ?_⟩
  · unfold Session.unwritten
    rw [hfs, he, hc, ho]
    exact h2 f
  · rw [hend]
    exact h6 pre w post (ho ▸ hp)

theorem Flowing.log (h : Flowing g s fs) {g' : ExpectedFiles A C} (hc : g'.cur = g.cur)
    (ht : g'.total = g.total) :
    Flowing g' s fs := by
  obtain ⟨h1, h2, h3, h4, h5, h6⟩ := h
  exact ⟨h1, ht ▸ h2, hc ▸ h3, hc ▸ h4, hc ▸ h5, h6⟩

theorem Flowing.same (h : Flowing g s fs) (hs : s.SameCourse s')
    (hfs : ∀ f, (fs'.file f).data = (fs.file f).data) :
    Flowing g s' fs' := h.congr hs.files hs.executing hs.outstanding hfs

variable [Crc32fast] [Encode A] [Encode C]

theorem Flowing.enqueued (h : Flowing g s fs) {req : WorkerRequest C Cb}
    (hpre : carrying.pre (.send req : ClientAct A C Cb) g) (hf : s'.files = s.files)
    (he : s'.executing = s.executing) (ho : s'.outstanding = s.outstanding ++ [req]) :
    Flowing (g.sent req) s' fs := by
  have hc : s'.current = s.current := by unfold Session.current; rw [hf]
  have hcur : g.cur ≤ (g.sent req).cur := by
    cases req with
    | appendFile e => exact Nat.le_of_lt hpre
    | write | removeChunks | getFlushStat => exact Nat.le_refl _
  have hnew : addressedEnd s.current (s.outstanding ++ [req]) = (g.sent req).cur := by
    rw [addressedEnd_append, h.current]
    cases req <;> rfl
  have hend : ∀ rs, s'.endOf fs rs = s.endOf fs rs := fun rs => by
    unfold Session.endOf
    rw [hc, he]
  refine ⟨by rw [hf, hc]; exact h.listed, fun f => ?_, by rw [hc, ho, hnew], fun t ht => ?_,
    fun pre hp => ?_, fun pre w post hp => ?_⟩
  · have hu : s'.unwritten = s.unwritten ++ addressed g.cur [req] := by
      unfold Session.unwritten
      rw [he, hc, ho, addressed_append, h.current, List.append_assoc]
    rw [hu, bytesFor_append, ← List.append_assoc, h.total]
    cases req with
    | write w =>
      simp only [addressed, List.append_nil, ExpectedFiles.sent]
      by_cases hfc : f = g.cur
      · subst hfc
        simp
      · rw [bytesFor_tag_ne (Ne.symm hfc), List.append_nil, Function.update_of_ne hfc]
    | appendFile | removeChunks | getFlushStat => simp [addressed, ExpectedFiles.sent]
  · exact (h.landed t (he ▸ ht)).trans hcur
  · rw [ho, List.prefix_concat_iff] at hp
    rw [hc]
    rcases hp with rfl | hp
    · exact Nat.le_of_eq hnew
    · exact (h.below pre hp).trans hcur
  · rw [hend]
    rcases List.eq_nil_or_concat post with rfl | ⟨post, x, rfl⟩
    · rw [ho] at hp
      obtain ⟨rfl, hx⟩ := List.append_inj' hp rfl
      cases hx
      obtain ⟨hupto, -⟩ := hpre
      rw [hupto]
      unfold Session.endOf
      rw [addressedEnd_append, h.current]
      simp only [addressedEnd]
      rw [addressed_append, h.current, ← List.append_assoc, bytesFor_append, ← List.append_assoc]
      have := h.total g.cur
      unfold Session.unwritten at this
      rw [this]
      simp [addressed]
    · refine h.uptos pre w post ?_
      rw [ho, List.concat_eq_append, ← List.cons_append, ← List.append_assoc] at hp
      exact (List.append_inj' hp rfl).1

omit [Crc32fast] [Encode A] [Encode C] in
theorem Flowing.created (h : Flowing g s fs) {id : Nat} (hid : g.cur < id) :
    Flowing (g.created id) s (fs.createNew id) := by
  have hnone : bytesFor id s.unwritten = [] := by
    refine bytesFor_eq_nil fun t ht => ?_
    rcases List.mem_append.1 ht with ht | ht
    · exact Nat.ne_of_lt ((h.landed t ht).trans_lt hid)
    · obtain ⟨pre, hp, hpre⟩ := mem_addressed ht
      exact Nat.ne_of_lt (hpre ▸ (h.below pre hp).trans_lt hid)
  refine ⟨h.listed, fun f => ?_, h.current, h.landed, h.below, fun pre w post hp => ?_⟩
  · by_cases hf : f = id
    · subst hf
      rw [hnone, ExpectedFiles.created_total, Fs.createNew_file_self]
      rfl
    · rw [Fs.createNew_file_ne hf, ExpectedFiles.created_total_ne hf]
      exact h.total f
  · have hne : addressedEnd s.current (pre ++ [.write w]) ≠ id := by
      refine Nat.ne_of_lt ((h.below _ ⟨post, ?_⟩).trans_lt hid)
      rw [hp, List.append_assoc]
      rfl
    rw [h.uptos pre w post hp]
    unfold Session.endOf
    rw [Fs.createNew_file_ne hne]

omit [Crc32fast] [Encode A] [Encode C] in
theorem Flowing.executed (h : Flowing g s fs) {b : WriteBatch C Cb} {files : List (FileEntry C)}
    {es : List (Effect C Cb)} (ht : Worker.BatchTrace s.files b none files es)
    (hb : Worker.Collected b) (he : s.executing = [])
    (ho : s.outstanding = b.requests.map (·.req) ++ s'.outstanding) (hf : s'.files = files)
    (he' : s'.executing = es) : Flowing g s' fs := by
  obtain ⟨hland, hlast⟩ := ht.lands hb h.listed
  have hc : s'.current = addressedEnd s.current (b.requests.map (·.req)) := by
    unfold Session.current
    rw [hf, hlast]
    rfl
  have hpre : ∀ rs, addressed s.current (b.requests.map (·.req) ++ rs) = landing s'.executing ++
    addressed s'.current rs := by
    intro rs
    rw [addressed_append, he', hland, hc]
  have hendl : ∀ rs, addressedEnd s.current (b.requests.map (·.req) ++ rs) =
    addressedEnd s'.current rs := by
    intro rs
    rw [addressedEnd_append, hc]
  refine ⟨by rw [hf, hlast, hc], fun f => ?_, ?_, fun t ht => ?_, fun pre hp => ?_,
    fun pre w post hp => ?_⟩
  · have := h.total f
    unfold Session.unwritten at this ⊢
    rw [he, landing_nil, List.nil_append, ho, hpre] at this
    exact this
  · rw [← hendl, ← ho]
    exact h.current
  · have hmem : t ∈ addressed s.current (b.requests.map (·.req) ++ []) := by
      rw [hpre]
      exact List.mem_append_left _ ht
    obtain ⟨pre, hp, hpre'⟩ := mem_addressed hmem
    rw [hpre']
    refine h.below pre (hp.trans ?_)
    rw [List.append_nil, ho]
    exact List.prefix_append _ _
  · rw [← hendl]
    refine h.below _ ?_
    rw [ho]
    exact (List.prefix_append_right_inj _).2 hp
  · have := h.uptos (b.requests.map (·.req) ++ pre) w post (by rw [ho, hp, List.append_assoc])
    rw [this]
    unfold Session.endOf
    rw [List.append_assoc, hendl, hpre, he, landing_nil, List.nil_append]

omit [Crc32fast] [Encode A] [Encode C] in
theorem onEffect_data {e : Effect C Cb} (h : fs.onEffect e = some fs') (es : List (Effect C Cb))
    (f : Nat) (l : List Tagged) : (fs'.file f).data ++ bytesFor f (landing es ++ l) =
      (fs.file f).data ++ bytesFor f (landing (e :: es) ++ l) := by
  cases e with
  | append i bs =>
    cases h
    simp only [landing, List.append_assoc, bytesFor_append]
    by_cases hi : f = i
    · subst hi
      simp
    · rw [Fs.append_file_ne _ hi, bytesFor_tag_ne (Ne.symm hi), List.nil_append]
  | sync i =>
    cases h
    rw [Fs.syncData_data]
    rfl
  | unlink id =>
    simp only [Fs.onEffect] at h
    split at h
    · cases h
      rfl
    · cases h
  | syncDir => cases h; rfl
  | persisted | answer | release | appendFile | stat | failed | complete =>
    cases h
    rfl

omit [Crc32fast] [Encode A] [Encode C] in
theorem Flowing.effect (h : Flowing g s fs) {e : Effect C Cb} {es : List (Effect C Cb)}
    (hfs : fs.onEffect e = some fs') (he : s.executing = e :: es) (he' : s'.executing = es)
    (hf : s'.files = s.files) (ho : s'.outstanding = s.outstanding) : Flowing g s' fs' := by
  have hc : s'.current = s.current := by unfold Session.current; rw [hf]
  have hdata := onEffect_data hfs es
  refine ⟨by rw [hf, hc]; exact h.listed, fun f => ?_, by rw [hc, ho]; exact h.current,
    fun t ht => ?_, fun pre hp => by rw [hc]; exact h.below pre (ho ▸ hp), fun pre w post hp => ?_⟩
  · unfold Session.unwritten
    rw [he', hc, ho, hdata]
    have := h.total f
    unfold Session.unwritten at this
    rwa [he] at this
  · refine h.landed t ?_
    rw [he]
    rw [he'] at ht
    cases e <;> first | exact ht | exact List.mem_append_right _ ht
  · rw [h.uptos pre w post (ho ▸ hp)]
    unfold Session.endOf
    rw [hc, he', hdata, he]

end

/-! ## Sessions -/

namespace System

variable {A C Cb : Type} [Crc32fast] [Encode A] [Decode A] [Encode C] [Decode C]
  {sm : StateMachine A C}

/-- **Memory and disk agree** between two steps of a session. -/
structure SessionAgrees (fs : Fs) (log : List (LogEntry A C)) (s : Session A C Cb)
    (g : ExpectedFiles A C) : Prop where
  log : g.log = log
  flowing : Flowing g s fs
  spelt : ∀ f, Spelt A C (g.total f)
  idle : ∀ w, s.client = .idle w → Agrees w g
  busy : ∀ op p, s.client = .busy op p → p.Safe carrying (fun x g => Agrees x.2 g) g
  running : s.failing = false
  status : s.status = none
  accepted : s.sending ≠ .rejected

variable {fs fs' : Fs} {log : List (LogEntry A C)} {s s' : Session A C Cb}
    {g g' : ExpectedFiles A C}

omit [Decode A] [Decode C] in
theorem SessionAgrees.worker (h : SessionAgrees fs log s g) (hc : s'.client = s.client)
    (hu : s'.Unbroken) (hf : Flowing g s' fs') : SessionAgrees fs' log s' g where
  log := h.log
  flowing := hf
  spelt := h.spelt
  idle w hw := h.idle w (hc ▸ hw)
  busy op p hp := h.busy op p (hc ▸ hp)
  running := hu.running
  status := hu.status
  accepted := hu.accepted

omit [Decode A] [Decode C] in
theorem SessionAgrees.respond (h : SessionAgrees fs log s g) {op : Op A C Cb} {a : ClientAct A C Cb}
    {k : IoResult → ClientProg A C Cb} {r : IoResult} {log' : List (LogEntry A C)}
    (hc : s.client = .busy op (.act a k)) (hs : s'.client = .busy op (k r)) (hu : s'.Unbroken)
    (hstep : carrying.step a g r g') (hl : g'.log = log') (hf : Flowing g' s' fs')
    (hsp : ∀ f, Spelt A C (g'.total f)) : SessionAgrees fs' log' s' g' where
  log := hl
  flowing := hf
  spelt := hsp
  idle w hi := by
    rw [hs] at hi
    cases hi
  busy op' p hp := by
    rw [hs] at hp
    cases hp
    exact (h.busy _ _ hc).2 r g' hstep
  running := hu.running
  status := hu.status
  accepted := hu.accepted

omit [Decode A] [Decode C] in
theorem carrying_plain {a : ClientAct A C Cb} {r : IoResult} (h : a.isPlain r = true) :
    carrying.step a g r g := by
  cases a <;> cases r <;> first | rfl | cases h

variable [WALRecord.LawfulAction A] [LawfulCodec C]

/-- **Memory and disk agree** behind every step. -/
theorem SessionAgrees.advance {log' : List (LogEntry A C)} (h : SessionAgrees fs log s g)
    (hu : s'.Unbroken) (ha : Advance fs log s fs' log' s') :
    ∃ g', SessionAgrees fs' log' s' g' := by
  cases ha with
  | @called op w _ hc hc' hsame =>
    refine ⟨g, h.log, h.flowing.same hsame fun _ => rfl, h.spelt, fun w hw => ?_,
      fun op' p hp => ?_, hu.running, hu.status, hu.accepted⟩
    · rw [hc'] at hw
      cases hw
    · rw [hc'] at hp
      cases hp
      exact op.carries (h.idle w hc)
  | finished hc hidle hbusy hsame =>
    refine ⟨g, h.log, h.flowing.same hsame fun _ => rfl, h.spelt, fun w hw => ?_,
      fun op p hp => absurd hp (hbusy op p), hu.running, hu.status, hu.accepted⟩
    obtain rfl := hidle w hw
    exact h.busy _ _ hc
  | @enqueued op req k _ hc hc' hfits hf ht he ho =>
    have hpre := (h.busy _ _ hc).1
    refine ⟨g.sent req,
      h.respond hc hc' hu ⟨rfl, hfits⟩ ?_ (h.flowing.enqueued hpre hf he ho) fun f => ?_⟩
    · rw [← h.log]
      cases req <;> rfl
    · cases req with
      | write w =>
        simp only [ExpectedFiles.sent]
        by_cases hf : f = g.cur
        · subst hf
          rw [Function.update_self]
          exact hpre.2
        · rw [Function.update_of_ne hf]
          exact h.spelt f
      | appendFile | removeChunks | getFlushStat => exact h.spelt f
  | @created op id k _ hc hc' hsame =>
    have hpre : g.cur < id := (h.busy _ _ hc).1
    refine ⟨g.created id,
      h.respond hc hc' hu rfl h.log ((h.flowing.created hpre).same hsame fun _ => rfl)
      fun f => ?_⟩
    by_cases hf : f = id
    · subst hf
      rw [ExpectedFiles.created_total]
      exact .nil
    · rw [ExpectedFiles.created_total_ne hf]
      exact h.spelt f
  | @noted op entry k _ hc hc' hsame =>
    refine ⟨{ g with log := g.log ++ [entry] }, h.respond hc hc' hu rfl ?_ ?_ h.spelt⟩
    · rw [h.log]
    · exact (h.flowing.same hsame fun _ => rfl).log rfl rfl
  | acted hc hc' ha hd hsame =>
    exact ⟨g, h.respond hc hc' hu (carrying_plain ha) h.log (h.flowing.same hsame hd) h.spelt⟩
  | worked hc hsame => exact ⟨g, h.worker hc hu (h.flowing.same hsame fun _ => rfl)⟩
  | executed hc ht hb he ho htr he' =>
    exact ⟨g, h.worker hc hu (h.flowing.executed ht hb he ho rfl he')⟩
  | effect hc hfs he he' ht hf ho => exact ⟨g, h.worker hc hu (h.flowing.effect hfs he he' hf ho)⟩

/-- **A step inside of a session.** -/
theorem sessionAgrees_step {sys sys' : System A C Cb} {l : Label Cb sm} (hs : sys.session = some s)
    (hready : s.Ready) (hnum : s.Numbered) (h : SessionAgrees sys.fs sys.log s g)
    (hl : Inside l = true ∨ ∃ op, l = .call op) (hok : Carries sys l)
    (hstep : step sys l = some sys') :
    ∃ s' g', sys'.session = some s' ∧ SessionAgrees sys'.fs sys'.log s' g' := by
  obtain ⟨s', hs', hu, ha⟩ :=
    advance_of_step hs hready hnum ⟨h.running, h.status, h.accepted⟩ hl hok hstep
  obtain ⟨g', h'⟩ := h.advance hu ha
  exact ⟨s', g', hs', h'⟩

end System

/-! ## Between sessions -/

section
variable {A C Cb : Type} [Crc32fast] [Encode A] [Encode C]

variable (A C) in
/-- Every file is the first part of a list of encoded records. -/
def SpeltFs (fs : Fs) : Prop := ∀ f, Spelt A C (fs.file f).data

/-- At every visible point of an opening. -/
structure SpeltOpen (s : OpenState A C) : Prop where
  now : SpeltFs A C s.fs
  trail : ∀ v ∈ s.trail, SpeltFs A C v.fs

variable {s s' : OpenState A C} {fs : Fs}

theorem SpeltFs.setLen (h : SpeltFs A C fs) (id n : Nat) : SpeltFs A C (fs.setLen id n) := by
  intro f
  by_cases hf : f = id
  · subst hf
    rw [Fs.setLen_file_self]
    exact (h f).mono (List.take_prefix _ _)
  · rw [Fs.setLen_file_ne n hf]
    exact h f

theorem SpeltFs.createNew (h : SpeltFs A C fs) (id : Nat) : SpeltFs A C (fs.createNew id) := by
  intro f
  by_cases hf : f = id
  · subst hf
    rw [Fs.createNew_file_self]
    exact .nil
  · rw [Fs.createNew_file_ne hf]
    exact h f

theorem SpeltFs.crash (h : SpeltFs A C fs) {keep : Fs.Keep} {fs' : Fs}
    (hc : fs.crash keep = some fs') :
    SpeltFs A C fs' := by
  obtain ⟨-, rfl⟩ := Fs.crash_eq hc
  intro f
  apply (h f).mono
  simp only [Fs.cutAll]
  split
  · exact List.prefix_refl _
  · exact List.take_prefix _ _

theorem SpeltOpen.note (h : SpeltOpen s) {g : OpenView A C → OpenView A C}
    (hg : SpeltFs A C (g s.toOpenView).fs) : SpeltOpen (s.note g) where
  now := hg
  trail v hv := by
    rcases List.mem_append.1 hv with hv | hv
    · exact h.trail v hv
    · obtain rfl := List.mem_singleton.1 hv
      exact hg

theorem SpeltOpen.noteFs (h : SpeltOpen s) {g : Fs → Fs} (hg : SpeltFs A C (g s.fs)) :
    SpeltOpen (s.noteFs g) := h.note (g := fun v => { v with fs := g v.fs }) hg

theorem SpeltOpen.createdFile (h : SpeltOpen s) (id : Nat) : SpeltOpen (s.createdFile id) := by
  have h₁ : SpeltOpen (s.noteFs (·.createNew id)) := h.noteFs (h.now.createNew id)
  exact h₁.noteFs (g := (·.syncDir)) h₁.now

theorem SpeltOpen.announced (h : SpeltOpen s) (chunk : Chunk) (checkpoint : Option C) :
    SpeltOpen (s.announced chunk checkpoint) := by
  unfold OpenState.announced
  exact h.note h.now

theorem SpeltOpen.applying (h : SpeltOpen s) (es : List (LogEntry A C)) :
    SpeltOpen (s.applying es) :=
  ⟨h.now, h.trail⟩

section
variable [Decode A] [Decode C] {sm : StateMachine A C} {config : Config} {st : sm.State}

omit [Crc32fast] [Encode A] [Encode C] [Decode A] [Decode C] in
theorem Tidied.speltOpen [Crc32fast] [Encode A] [Encode C] [Decode A] [Decode C] {ids : List Nat}
    {r : Except IoError (List Nat)} (h : Tidied ids s r s') (hs : SpeltOpen s) : SpeltOpen s' := by
  induction h with
  | empty => exact hs
  | complete => exact hs
  | stopped => exact hs
  | @removed id older s r s' hm hb h ih =>
    have h₁ : SpeltOpen (s.noteFs (·.unlink id)) := hs.noteFs (g := (·.unlink id)) hs.now
    exact ih (h₁.noteFs (g := (·.syncDir)) h₁.now)

theorem Opens.speltOpen {allow : Bool} {id : Nat} {tr : Option Nat}
    (h : Opens config allow id s tr s') (hs : SpeltOpen s) : SpeltOpen s' := by
  cases h with
  | whole => exact hs
  | cut =>
    have h₁ : SpeltOpen (s.noteFs (·.setLen id (recordsEnd A C (s.fs.file id).data id))) :=
      hs.noteFs (hs.now.setLen _ _)
    refine h₁.noteFs (g := (·.syncData id)) fun f => ?_
    show Spelt A C
      (((s.noteFs (·.setLen id (recordsEnd A C (s.fs.file id).data id))).fs.syncData
        id).file f).data
    rw [Fs.syncData_data]
    exact h₁.now f

theorem Replayed.speltOpen {tail : Option Nat} {ids : List Nat} {acc : Replay sm}
    {r : Except Fault (Replay sm)} (h : Replayed config tail ids acc s r s') (hs : SpeltOpen s) :
    SpeltOpen s' := by
  induction h with
  | nil => exact hs
  | stopped => exact hs
  | refused hp ho => exact ((ho.speltOpen hs).announced _ _).applying _
  | panicked hp ho => exact (ho.speltOpen hs).announced _ _
  | step hp ho hr ha h ih => exact ih (((ho.speltOpen hs).announced _ _).applying _)

/-- **An opening** leaves spelt files at every point. -/
theorem OpenRun.speltOpen {r : Except Fault (Opened sm)} (h : OpenRun config st s r s')
    (hs : SpeltOpen s) : SpeltOpen s' := by
  cases h with
  | invalid => exact hs
  | untidy hv ht => exact ht.speltOpen hs
  | failed hv ht hr => exact hr.speltOpen (ht.speltOpen hs)
  | reopened hv ht hr => exact hr.speltOpen (ht.speltOpen hs)
  | blocked hv ht hr => exact hr.speltOpen (ht.speltOpen hs)
  | unencoded hv ht hr => exact (hr.speltOpen (ht.speltOpen hs)).createdFile _
  | @created k s₁ acc s₂ n hv ht hr hl hm he =>
    have h₂ := (hr.speltOpen (ht.speltOpen hs)).createdFile acc.end_
    unfold OpenState.createdWith
    refine h₂.note fun f => ?_
    show Spelt A C (((s₂.createdFile acc.end_).fs.append acc.end_ (enc acc.head)).file f).data
    by_cases hf : f = acc.end_
    · subst hf
      refine ⟨[acc.head], by simpa using ⟨n, he⟩, ?_⟩
      rw [Fs.append_file_self]
      simp [OpenState.createdFile]
    · rw [Fs.append_file_ne _ hf]
      exact h₂.now f

end

end

/-! ## What an opening reads -/

section
variable {A C : Type} [Crc32fast] [Encode A] [Encode C]

theorem entriesFrom_records (id off : Nat) (rs : List (WALRecord A C)) :
    (entriesFrom id off rs).map (·.1) = rs := by
  induction rs generalizing off with
  | nil => rfl
  | cons r rs ih => rw [entriesFrom, List.map_cons, ih]

section
variable [Decode A] [Decode C]

omit [Encode C] in
theorem entriesIn_chunk {data : Bytes} {id : Nat} {e : LogEntry A C}
    (he : e ∈ entriesIn A C data id) :
    e.2.1 = id := by
  obtain ⟨x, -, rfl⟩ := List.mem_map.1 he
  rfl

omit [Encode C] in
theorem mem_ids_of_entriesIn {file : Nat → Bytes} {ids : List Nat} {e : LogEntry A C}
    (he : e ∈ ids.flatMap fun i => entriesIn A C (file i) i) : e.2.1 ∈ ids := by
  obtain ⟨i, hi, he⟩ := List.mem_flatMap.1 he
  rwa [entriesIn_chunk he]

omit [Crc32fast] [Encode A] [Encode C] [Decode A] [Decode C] in
theorem reopenLastClosed_concat {cs cs' : List (Nat × ClosedChunk C)} {o : OpenChunk}
    (h : reopenLastClosed cs = some (o, cs')) :
    ∃ p, cs = cs' ++ [p] ∧ o = OpenChunk.new p.2.chunk := by
  unfold reopenLastClosed at h
  split at h
  · cases h
  rename_i id last hlast
  split at h
  · cases h
  cases h
  exact ⟨(id, last), (List.dropLast_append_getLast? _ hlast).symm, rfl⟩

omit [Encode C] in
theorem inChunk_entriesIn (data : Bytes) (id i : Nat) :
    inChunk i (entriesIn A C data id) = if i = id then entriesIn A C data id else [] := by
  unfold inChunk
  split
  · rename_i h
    exact List.filter_eq_self.2 fun e he => decide_eq_true ((entriesIn_chunk he).trans h.symm)
  · rename_i h
    refine List.filter_eq_nil_iff.2 fun e he => ?_
    rw [decide_eq_true_eq, entriesIn_chunk he]
    exact Ne.symm h

omit [Encode C] in
/-- The part of the replayed records that is in one chunk. -/
theorem inChunk_flatMap {file : Nat → Bytes} {ids : List Nat} (hn : ids.Nodup) (i : Nat) :
    inChunk i (ids.flatMap fun j => entriesIn A C (file j) j) =
      if i ∈ ids then entriesIn A C (file i) i else [] := by
  induction ids with
  | nil => rfl
  | cons j ids ih =>
    obtain ⟨hj, hn⟩ := List.nodup_cons.1 hn
    rw [List.flatMap_cons, inChunk_append, inChunk_entriesIn, ih hn]
    by_cases h : i = j
    · subst h
      simp [hj]
    · simp [h]

variable [WALRecord.LawfulAction A] [LawfulCodec C]

/-- **What is read of a spelt file.** -/
theorem Spelt.reads {data : Bytes} (h : Spelt A C data) (id : Nat) : ∃ rs : List (WALRecord A C),
    (∀ r ∈ rs, Encodes r) ∧ recordsIn A C data id = spelled 0 rs ∧
      data.take (recordsEnd A C data id) = encAll rs ∧
      (failureIn A C data id = none → data = encAll rs) := by
  obtain ⟨all, hall, hp⟩ := h
  obtain ⟨rs, rest, t, rfl, rfl, ht⟩ := exists_frame all hp
  have hrs : ∀ r ∈ rs, Encodes r := fun r hr => hall r (List.mem_append_left _ hr)
  obtain ⟨err, herr, hsplit⟩ := @splitItems_frame _ _ _ _ id _ _ _ hrs
    (fun r hr => hall r (List.mem_append_right _ hr)) ht
  have hrec : recordsIn A C (encAll rs ++ t) id = spelled 0 rs := by rw [recordsIn, hsplit]
  refine ⟨rs, hrs, hrec, ?_, fun hf => ?_⟩
  · rw [recordsEnd, hrec, lastEnd_spelled, Nat.zero_add, List.take_left]
  · rw [failureIn, hsplit] at hf
    rcases herr with ⟨rfl, -⟩ | ⟨-, e, he, -⟩
    · exact List.append_nil _
    · exact absurd (hf.symm.trans he) (by simp)

variable {sm : StateMachine A C} {config : Config} {file : Nat → Bytes} {ids : List Nat}
  {acc acc' : Replay sm} {c : Option Nat}

omit [Encode C] [WALRecord.LawfulAction A] [LawfulCodec C] in
/-- Only the last file is cut. -/
theorem Reads.whole_ne (h : Reads config file ids acc acc' c) {i : Nat} (hi : i ∈ ids)
    (hc : c ≠ some i) :
    failureIn A C (file i) i = none := by
  induction h with
  | nil => cases hi
  | whole hp hf hr ha h ih =>
    rcases List.mem_cons.1 hi with rfl | hi
    · exact hf
    · exact ih hi hc
  | cut hp ht =>
    obtain rfl := List.mem_singleton.1 hi
    exact absurd rfl hc

theorem Held.of_reads (h : Reads config file ids acc acc' c) {i : Nat} (hi : i ∈ ids)
    (hsp : Spelt A C (file i)) {g : ExpectedFiles A C}
    (hlog : inChunk i g.log = entriesIn A C (file i) i)
    (hcut : c = some i → g.total i = (file i).take (recordsEnd A C (file i) i))
    (hwhole : c ≠ some i → g.total i = file i) (t : Option Nat) :
    Held g (chunkIn A C (file i) i t) [] i ∧ recordsOf i g.log ≠ [] := by
  obtain ⟨rs, hrs, hrec, htake, hnone⟩ := hsp.reads i
  have hentries : entriesIn A C (file i) i = entriesFrom i i rs := entriesIn_of i hrec
  have hof : recordsOf i g.log = rs := by
    rw [recordsOf, hlog, hentries, entriesFrom_records]
  have hbytes : g.total i = encAll rs := by
    by_cases hc : c = some i
    · rw [hcut hc, htake]
    · rw [hwhole hc]
      exact hnone (h.whole_ne hi hc)
  refine ⟨⟨rfl, ?_, ?_, ?_, ?_⟩, ?_⟩
  · have hsegs : (spelled 0 rs).map (·.1) = segments 0 rs := by
      rw [List.map_fst_zip]
      rw [segments_length]
    show tableOf i ((recordsIn A C (file i) i).map (·.1)) = _
    rw [hof, hrec, hsegs, tableOf_segments]
  · rw [hof, hlog, hentries]
  · rw [hof, List.append_nil, hbytes]
  · rw [hof]
    exact hrs
  · rw [hof]
    intro hnil
    refine h.records i hi ?_
    rw [hrec, hnil]
    rfl

theorem Held.of_created {g : ExpectedFiles A C} {r : WALRecord A C} {id n : Nat}
    (he : (encode r).2 = .ok n)
    (hlog : inChunk id g.log = [(r, id, { offset := id, size := n })]) (hb : g.total id = enc r) :
    Held g (createdChunk id n).chunk [] id ∧ recordsOf id g.log ≠ [] := by
  have hn : n = (enc r).length := SizedCodec.size_eq he
  have hof : recordsOf id g.log = [r] := by
    rw [recordsOf, hlog]
    rfl
  refine ⟨⟨rfl, ?_, ?_, ?_, ?_⟩, ?_⟩
  · rw [hof, hn]
    rfl
  · rw [hlog, hof, hn]
    rfl
  · rw [hof, List.append_nil, hb]
    exact (List.append_nil _).symm
  · rw [hof]
    simpa using ⟨n, he⟩
  · rw [hof]
    simp

section
variable {k : List Nat} {st : sm.State} {g : ExpectedFiles A C}
  (hreads : Reads config file k (Replay.start sm st) acc c) (hsp : ∀ i, Spelt A C (file i))
  (hcut : ∀ i ∈ k, c = some i → g.total i = (file i).take (recordsEnd A C (file i) i))
  (hwhole : ∀ i ∈ k, c ≠ some i → g.total i = file i)
include hreads hsp hcut hwhole

/-- The chunks that were replayed. -/
theorem Reads.held (hlog : ∀ i ∈ k, inChunk i g.log = entriesIn A C (file i) i) :
    ∀ p ∈ acc.closed, p.1 ∈ k ∧ Held g p.2.chunk [] p.1 ∧ recordsOf p.1 g.log ≠ [] := by
  obtain ⟨cs, hcs, hall⟩ := hreads.chunks (Replay.start_ordered st)
  rw [show (Replay.start sm st).closed = [] from rfl, List.nil_append] at hcs
  intro p hp
  obtain ⟨hk, -, t, ht⟩ := hall p (hcs ▸ hp)
  rw [ht]
  exact ⟨hk, Held.of_reads hreads hk (hsp p.1) (hlog p.1 hk) (hcut p.1 hk) (hwhole p.1 hk) t⟩

/-- **An opening that goes on with the last chunk.** -/
theorem Reads.agrees_reopened {w : ChunkedWal C} {last : ClosedChunk C}
    (hlog : g.log = k.flatMap fun i => entriesIn A C (file i) i)
    (hsplit : acc.closed = w.closed ++ [(g.cur, last)])
    (hopen : w.open = OpenChunk.new last.chunk) : Agrees w g := by
  have hinc : k.Pairwise (· < ·) := hreads.increasing.1
  have hids : k = w.closed.map (·.1) ++ [g.cur] := by
    obtain ⟨-, cs, hcs, hids, -⟩ := hreads.closed (Replay.start_ordered st)
    rw [show (Replay.start sm st).closed = [] from rfl, List.nil_append] at hcs
    rw [← hids, ← hcs, hsplit, List.map_append]
    rfl
  have hheld := hreads.held hsp hcut hwhole fun i hi => by
    rw [hlog, inChunk_flatMap (hinc.imp Nat.ne_of_lt), if_pos hi]
  rw [hsplit] at hheld
  obtain ⟨-, hlast, hne⟩ := hheld (g.cur, last) (by simp)
  have hlt : ∀ i ∈ w.closed.map (·.1), i < g.cur := fun i hi => by
    rw [hids, List.pairwise_append] at hinc
    exact hinc.2.2 i hi g.cur (by simp)
  refine ⟨by rw [hopen]; exact hlast, fun p hp => ?_, hne, fun e he => ?_⟩
  · exact ⟨hlt p.1 (List.mem_map_of_mem hp), (hheld p (List.mem_append_left _ hp)).2.1⟩
  · rw [hlog] at he
    have he := mem_ids_of_entriesIn he
    rw [hids] at he
    rcases List.mem_append.1 he with he | he
    · exact Nat.le_of_lt (hlt _ he)
    · exact Nat.le_of_eq (List.mem_singleton.1 he)

/-- **An opening that creates a chunk.** -/
theorem Reads.agrees_created {w : ChunkedWal C} {r : WALRecord A C} {n : Nat}
    (he : (encode r).2 = .ok n) (hcur : g.cur = acc.end_) (hnew : g.total acc.end_ = enc r)
    (hlog : g.log = (k.flatMap fun i => entriesIn A C (file i) i) ++
      [(r, acc.end_, { offset := acc.end_, size := n })])
    (hclosed : w.closed = acc.closed) (hopen : w.open = createdChunk acc.end_ n) : Agrees w g := by
  have hlt : ∀ i ∈ k, i < acc.end_ := fun i hi => hreads.lt_end hi
  have hnodup : k.Nodup := hreads.increasing.1.imp Nat.ne_of_lt
  have hheld := hreads.held hsp hcut hwhole fun i hi => by
    rw [hlog, inChunk_append, inChunk_ne (Nat.ne_of_gt (hlt i hi)), List.append_nil,
      inChunk_flatMap hnodup, if_pos hi]
  have hend : acc.end_ ∉ k := fun hi => Nat.lt_irrefl _ (hlt _ hi)
  obtain ⟨hopened, hne⟩ := Held.of_created (g := g) he (by
    rw [hlog, inChunk_append, inChunk_flatMap hnodup, if_neg hend]
    exact inChunk_self rfl) hnew
  refine ⟨?_, fun p hp => ?_, hcur ▸ hne, fun e he => ?_⟩
  · rw [hopen, hcur]
    exact hopened
  · obtain ⟨hk, hp, -⟩ := hheld p (hclosed ▸ hp)
    exact ⟨hcur ▸ hlt p.1 hk, hp⟩
  · rw [hcur]
    rcases List.mem_append.1 (hlog ▸ he) with he | he
    · exact Nat.le_of_lt (hlt _ (mem_ids_of_entriesIn he))
    · obtain rfl := List.mem_singleton.1 he
      exact Nat.le_refl _

end

omit [Encode C] [WALRecord.LawfulAction A] [LawfulCodec C] in
theorem Tidied.replayed {st : sm.State} {k : List Nat} {s s₁ s₂ : OpenState A C}
    (ht : Tidied (loadChunkIds s.fs).reverse s (.ok k) s₁)
    (hr : Replayed config k.reverse.getLast? k.reverse (Replay.start sm st) s₁ (.ok acc) s₂) :
    ∃ c, Reads config (fun i => (s.fs.file i).data) k.reverse (Replay.start sm st) acc c ∧
      (∀ i, c = some i →
        (s₂.fs.file i).data = (s.fs.file i).data.take (recordsEnd A C (s.fs.file i).data i)) ∧
      (∀ i, c ≠ some i → (s₂.fs.file i).data = (s.fs.file i).data) ∧
      s₂.applied = s.applied ++ k.reverse.flatMap (fun i => entriesIn A C (s.fs.file i).data i) ∧
      s₂.created = s.created := by
  obtain ⟨removed, c, hs, -⟩ := ht.sound hr
  obtain ⟨_, htidy, hdir, hfile, -⟩ := ht.tidy
  have hmem : ∀ i ∈ k.reverse, i ∈ s₁.fs.dir := fun i hi => by
    rw [hdir, List.mem_filter]
    exact ⟨(hs.mem i).2 (.inl hi), decide_eq_true (htidy.disjoint hi)⟩
  obtain ⟨-, hfs, happ⟩ := hs.reads.replayed hr (fun i hi => hs.reads.cut_mem hi) hmem fun i _ => by
    rw [hfile]
  refine ⟨c, hs.reads, fun i hi => ?_, fun i hi => ?_, by rw [happ, ht.applied_eq], ?_⟩
  · subst hi
    rw [hfs, Fs.healed_self, hfile]
  · rw [hfs, Fs.healed_ne hi, hfile]
  · rw [hr.created_eq, ht.created_eq]

/-- What a session begins with. -/
def Opened.expectedFiles (o : Opened sm) (s : OpenState A C) : ExpectedFiles A C where
  cur := o.wal.open.chunk.f
  total f := (s.fs.file f).data
  log := s.applied ++ s.created

/-- **The index that an opening builds** agrees with the files. -/
theorem OpenRun.agrees {st : sm.State} {fs : Fs} {s' : OpenState A C} {o : Opened sm}
    (h : OpenRun config st (OpenState.init fs) (.ok o) s') (hsp : SpeltFs A C fs) :
    Agrees o.wal (o.expectedFiles s') := by
  cases h with
  | @reopened k s₁ acc _ oc closed hv ht hr hl =>
    obtain ⟨c, hreads, hcut, hwhole, happ, hcre⟩ := ht.replayed hr
    obtain ⟨⟨id, last⟩, hsplit, rfl⟩ := reopenLastClosed_concat hl
    obtain ⟨cs, hcs, hall⟩ := hreads.chunks (Replay.start_ordered st)
    rw [show (Replay.start sm st).closed = [] from rfl, List.nil_append] at hcs
    obtain ⟨-, -, t, ht'⟩ := hall (id, last) (hcs ▸ hsplit ▸ by simp)
    have hf : last.chunk.f = id := congrArg Chunk.f ht'
    refine hreads.agrees_reopened hsp (fun i _ => hcut i) (fun i _ => hwhole i) ?_ ?_ rfl
    · show s'.applied ++ s'.created = _
      rw [happ, hcre]
      simp [OpenState.init]
    · rw [hsplit, ← hf]
      rfl
  | @created k s₁ acc s₂ n hv ht hr hl hm he =>
    obtain ⟨c, hreads, hcut, hwhole, happ, -⟩ := ht.replayed hr
    have hb := s₂.createdFile_beyond hm (enc acc.head)
    have hne : ∀ i ∈ k.reverse, i ≠ acc.end_ := fun i hi => Nat.ne_of_lt (hreads.lt_end hi)
    refine hreads.agrees_created hsp (fun i hi hc => (hb.old i (hne i hi)).trans (hcut i hc))
      (fun i hi hc => (hb.old i (hne i hi)).trans (hwhole i hc)) he rfl hb.data ?_ rfl rfl
    show s₂.applied ++ _ = _
    rw [happ]
    rfl

end

end

end Wal

import Wal.Rotating

/-!
# Fresh chunks

A new chunk holds one checkpoint, which counts towards both limits of a chunk. `Roomy` is the
condition on the configuration and the checkpoint under which it is not full (`runs_fresh_chunk`).
-/

namespace Wal

open Lib

section
variable {A C Cb : Type}

/-- A chunk that holds one record of `n` bytes. -/
def Renewed (n : Nat) (w : ChunkedWal C) : Prop := w.open.chunk.recordsCount = 1 ∧
    w.open.chunk.chunkSize = n

theorem createdChunk_renewed {w : ChunkedWal C} {id n : Nat}
    (h : w.open.chunk = (OpenChunk.fromFile id).chunk.appendRecordSize n) : Renewed n w := by
  unfold Renewed
  rw [h]
  refine ⟨rfl, ?_⟩
  simp [Chunk.chunkSize, Chunk.endOffset, Chunk.globalEnd, Chunk.globalStart,
    Chunk.appendRecordSize, OpenChunk.fromFile]

/-- Any answer may come. -/
def anyContract : Contract (ClientAct A C Cb) IoResult Unit where
  pre _ _ := True
  step _ _ _ _ := True

theorem sendPending_any {w : ChunkedWal C} (sync : Bool) (callback : Option Cb) :
    ClientM.Meets anyContract (fun (_ : Except Fault IoResult) w' _ => w'.open.chunk = w.open.chunk)
      (ChunkedWal.sendPending sync callback : ClientM A C Cb IoResult) w () := by
  unfold ChunkedWal.sendPending
  exact .get_bind (.set_bind (.perform trivial fun r g' _ => rfl))

theorem createEmpty_any {w : ChunkedWal C} (id : Nat) :
    ClientM.Meets anyContract (fun res _ _ => ∀ o, res = .ok o → o = OpenChunk.fromFile id)
      (ChunkedWal.createEmpty id : ClientM A C Cb OpenChunk) w () := by
  unfold ChunkedWal.createEmpty
  refine .perform_bind trivial fun r g' _ => .require_bind (fun _ => ?_) fun e _ o h => by cases h
  refine .perform_bind trivial fun r g' _ => .require_bind (fun _ => ?_) fun e _ o h => by cases h
  refine .pure fun o h => ?_
  exact (Except.ok.inj h).symm

theorem anyOutcome {α : Type} (m : ClientM A C Cb α) (w : ChunkedWal C) :
    ClientM.Meets anyContract (fun _ _ _ => True) m w () := by
  have h : ∀ p : Prog (ClientAct A C Cb) IoResult (Except Fault α × ChunkedWal C),
      p.Safe anyContract (fun _ _ => True) () := by
    intro p
    induction p with
    | done x => trivial
    | act a k ih => exact ⟨trivial, fun r _ _ => ih r⟩
  exact h (m w)

section
variable [Crc32fast] [Encode A] [Encode C]

variable (A) in
/-- **The room** that a checkpoint leaves in a chunk of its own. -/
def Roomy (config : Config) (c : C) : Prop :=
  1 < config.chunkMaxRecords ∧ ∀ n, (encode (.checkpoint c : WALRecord A C)).2 = .ok n →
    n < config.chunkMaxSize

/-- Nothing is closed: neither now nor by the next call. -/
structure StaysOpen (A Cb : Type) [Encode A] (w : ChunkedWal C) : Prop where
  notFull : w.isOpenChunkFull = false
  next : ∀ c, (Op.tryCloseFullChunk c : Op A C Cb).run w = .done (.ok (.checkpoint none), w)

/-- A full chunk is all that the next call looks for. -/
theorem staysOpen_iff {w : ChunkedWal C} : StaysOpen A Cb w ↔ w.isOpenChunkFull = false := by
  refine ⟨fun h => h.notFull, fun h => ⟨h, fun c => ?_⟩⟩
  unfold Op.run ChunkedWal.tryCloseFullChunk
  simp only [bind, ClientM.bind, ClientM.get, Prog.bind_done, h, Bool.not_false, if_true, pure,
    ClientM.pure]

theorem Renewed.roomy {w : ChunkedWal C} {n : Nat} (h : Renewed n w) {c : C}
    (hn : (encode (.checkpoint c : WALRecord A C)).2 = .ok n) :
    w.isOpenChunkFull = false ↔ Roomy A w.config c := by
  obtain ⟨hcount, hsize⟩ := h
  unfold ChunkedWal.isOpenChunkFull Roomy
  rw [hcount, hsize, Bool.or_eq_false_iff, decide_eq_false_iff_not, decide_eq_false_iff_not]
  refine and_congr (by omega) ⟨fun h m hm => ?_, fun h => ?_⟩
  · obtain rfl := Except.ok.inj (hn.symm.trans hm)
    omega
  · have := h n hn
    omega

/-! ## Rotations -/

/-- What a rotation leaves. -/
def Renews (op : Op A C Cb) (res : Except Fault (Ret C)) (w : ChunkedWal C) : Prop :=
  ∀ c c', op = .tryCloseFullChunk c → res = .ok (.checkpoint (some c')) →
    ∃ n, (encode (.checkpoint c : WALRecord A C)).2 = .ok n ∧ Renewed n w

theorem append_any {w : ChunkedWal C} (rec : WALRecord A C) :
    ClientM.Meets anyContract (fun (res : Except Fault Unit) w' _ => res = .ok () →
      ∃ n, (encode rec).2 = .ok n ∧ w'.open.chunk = w.open.chunk.appendRecordSize n)
      (ChunkedWal.append rec : ClientM A C Cb Unit) w () := by
  unfold ChunkedWal.append
  refine .get_bind ?_
  unfold OpenChunk.appendRecord
  rcases he : encode rec with ⟨bs, e | n⟩
  · exact .set_bind (.liftFault_bind (fun _ h => by cases h) fun _ _ h => by cases h)
  · refine .set_bind (.liftFault_bind (fun seg _ => ?_) fun _ _ h => by cases h)
    exact .perform_bind trivial fun r g' _ => .pure fun _ => ⟨n, rfl, rfl⟩

/-- **A rotation** leaves a chunk with the checkpoint. -/
theorem tryCloseFullChunk_any {w : ChunkedWal C} (c : C) :
    ClientM.Meets anyContract (fun res w' _ => ∀ c', res = .ok (some c') →
      ∃ n, (encode (.checkpoint c : WALRecord A C)).2 = .ok n ∧ Renewed n w')
      (ChunkedWal.tryCloseFullChunk c : ClientM A C Cb (Option C)) w () := by
  unfold ChunkedWal.tryCloseFullChunk
  refine .get_bind ?_
  by_cases hf : w.isOpenChunkFull = true
  swap
  · simp only [hf, Bool.not_false, if_true]
    exact .pure fun c' h => by cases h
  simp only [hf, Bool.not_true, Bool.false_eq_true, if_false]
  refine .bind (sendPending_any true none) (fun r w₁ g₁ _ => ?_) fun e w' g' _ c' h => by cases h
  refine .require_bind (fun _ => ?_) fun e _ c' h => by cases h
  refine .liftFault_bind (fun seg _ => ?_) fun e _ c' h => by cases h
  refine .bind (createEmpty_any seg.end_) (fun o w₂ g₂ ho => ?_) fun e w' g' _ c' h => by cases h
  obtain rfl := ho o rfl
  refine .perform_bind trivial fun r₂ g₃ _ => .require_bind (fun _ => ?_) fun e _ c' h => by cases h
  refine .get_bind (.set_bind (.bind (append_any (.checkpoint c)) (fun u w₃ g₄ ha => ?_)
    fun e w' g' _ c' h => by cases h))
  obtain ⟨n, hn, hchunk⟩ := ha rfl
  refine .bind (sendPending_any false none) (fun r₃ w₄ g₅ hs => ?_) fun e w' g' _ c' h => by cases h
  refine .require_bind (fun _ => .get_bind (.set_bind (.pure fun c' _ => ⟨n, hn, ?_⟩)))
    fun e _ c' h => by cases h
  exact createdChunk_renewed (hs.trans hchunk)

theorem Op.renews (op : Op A C Cb) (w : ChunkedWal C) :
    ClientM.Meets anyContract (fun res w' _ => Renews op res w') op.run w () := by
  cases op with
  | tryCloseFullChunk c =>
    refine .bind (tryCloseFullChunk_any c) (fun o w' g' h => .pure fun c₁ c' hop hres => ?_)
      fun e w' g' _ c₁ c' _ h => by cases h
    cases hop
    exact h c' (by cases hres; rfl)
  | append | sendPending | drainClosedChunksWhile | sendRemoveChunks | sendGetStat | waitWorkerIdle
      | shutdown =>
    exact (anyOutcome _ w).mono fun _ _ _ _ _ _ h => by cases h

end

end

/-! ## Runs -/

/-- The checkpoints of a rotation that has just succeeded. -/
def Session.rotated {A C Cb : Type} (s : Session A C Cb) : Option (C × C) :=
  match s.returned with
  | some (.tryCloseFullChunk c, .ok (.checkpoint (some c'))) => some (c, c')
  | _ => none

theorem Session.rotated_eq {A C Cb : Type} {s : Session A C Cb} {x : C × C}
    (h : s.rotated = some x) :
    s.returned = some (.tryCloseFullChunk x.1, .ok (.checkpoint (some x.2))) := by
  unfold Session.rotated at h
  split at h
  · cases h
    assumption
  · cases h

namespace System

section
variable {A C Cb : Type} [Crc32fast] [Encode A] [Decode A] [Encode C] [Decode C]
    {sm : StateMachine A C}

/-- The call that returned last, and the one in progress. -/
structure Renewing (s : Session A C Cb) : Prop where
  idle : ∀ w op res, s.client = .idle w → s.returned = some (op, res) → Renews op res w
  busy : ∀ op p, s.client = .busy op p → p.Safe anyContract (fun x _ => Renews op x.1 x.2) ()

theorem renewing_step (sys : System A C Cb) (l : Label Cb sm) (sys' : System A C Cb)
    (h : sys.InSession Renewing) (hstep : step sys l = some sys') : sys'.InSession Renewing := by
  have hgo : ∀ {s s' : Session A C Cb} {op a k r}, sys.session = some s →
    s.client = .busy op (.act a k) →
      s'.client = .busy op (k r) → Renewing s' := by
    intro s s' op a k r hs hc hc'
    refine ⟨fun w _ _ hw => ?_, fun op' p hp => ?_⟩
    · rw [hc'] at hw
      cases hw
    · rw [hc'] at hp
      cases hp
      exact ((h s hs).busy _ _ hc).2 r () trivial
  have hkeep : ∀ {s s' : Session A C Cb}, sys.session = some s → s'.client = s.client →
      s'.returned = s.returned → Renewing s' := by
    intro s s' hs hc hr
    exact ⟨fun w op res hw hret => (h s hs).idle w op res (hc ▸ hw) (hr ▸ hret),
      fun op p hp => (h s hs).busy op p (hc ▸ hp)⟩
  intro s' hs'
  cases step_move hstep with
  | opened =>
    cases hs'
    exact ⟨fun w op res _ hr => (by cases hr), fun op p hp => (by cases hp)⟩
  | notOpened hn => exact absurd hs' (by simp [afterOpen, hn])
  | openCrashed hn => exact absurd hs' (by simp [afterOpen, hn])
  | crashed | dropped => cases hs'
  | @called s op w hs hc =>
    cases hs'
    refine ⟨fun w op res hw => (by cases hw), fun op' p hp => ?_⟩
    cases hp
    exact op.renews w
  | @finished s op res w r hs hc =>
    cases hs'
    have hdone : Renews op res w := (h s hs).busy _ _ hc
    refine ⟨fun w' op' res' hw hret => ?_, fun op' p hp => ?_⟩
    · simp only [Session.finish] at hw hret
      cases hret
      split at hw
      · cases hw
      · cases hw
        exact hdone
    · simp only [Session.finish] at hp
      split at hp <;> cases hp
  | acquired hs | rejected hs => cases hs'; exact hkeep hs rfl rfl
  | underflow hs =>
    cases hs'
    exact ⟨fun w _ _ hw => (by cases hw), fun _ _ hp => (by cases hp)⟩
  | refused hs hc | enqueued hs hc | givenBack hs hc | notCreated hs hc | «exists» hs hc
      | created hs hc
    | notSynced hs hc | synced hs hc | closed hs hc | joined hs hc | waited hs hc | noted hs hc =>
    cases hs'
    exact hgo hs hc rfl
  | _ =>
    have hs := ‹sys.session = some _›
    cases hs'
    exact hkeep hs rfl rfl

/-- **A fresh chunk is not full** exactly if the configuration leaves room behind its checkpoint:
after a rotation, and after an opening that has created a chunk. -/
theorem runs_fresh_chunk :
    (∀ (ls : List (Label Cb sm)) (sys : System A C Cb) (s : Session A C Cb) (w : ChunkedWal C)
      (c c' : C),
      runs step (System.fresh A C Cb) ls = some sys → sys.session = some s → s.client = .idle w →
      s.returned = some (.tryCloseFullChunk c, .ok (.checkpoint (some c'))) →
      (StaysOpen A Cb w ↔ Roomy A w.config c)) ∧
    ∀ (config : Config) (st : sm.State) (fs : Fs) (o : Opened sm) (x : OpenState A C),
      (openLocked sm config st).run (.init fs) = .ok o x → x.created ≠ [] →
      (StaysOpen A Cb o.wal ↔ Roomy A config (sm.checkpoint o.state)) := by
  refine ⟨fun ls sys s w c c' hr hs hc hret => ?_, fun config st fs o x hopen hcreated => ?_⟩
  · have hall : sys.InSession Renewing :=
      runs_invariant (I := fun sys => sys.InSession Renewing) renewing_step fresh_inSession hr
    obtain ⟨n, hn, hnew⟩ := (hall s hs).idle w _ _ hc hret c c' rfl rfl
    rw [staysOpen_iff, hnew.roomy hn]
  · obtain ⟨r, x', hrun, heq⟩ := openLocked_run config st (OpenState.init fs)
    have := heq.symm.trans hopen
    rcases r with e | o'
    · cases this
    cases this
    cases hrun with
    | reopened hv ht hr hl =>
      refine absurd ?_ hcreated
      rw [hr.created_eq, ht.created_eq]
      rfl
    | @created k s₁ acc s₂ n hv ht hr hl hm he =>
      have hnew : Renewed n
        (ChunkedWal.new sm config acc.closed (createdChunk acc.end_ n) acc.state).wal := by
        apply createdChunk_renewed
        rfl
      rw [staysOpen_iff, hnew.roomy he]
      rfl

end

open Register

/-- A rotation with room for one more record. -/
theorem runs_fresh_chunk_two : ∃ (sys : System Put Register Nat) (s : Session Put Register Nat)
    (w : ChunkedWal Register), runs step (System.fresh Put Register Nat)
      (fullRun ++ rotation (List.replicate 10 go)) = some sys ∧ sys.session = some s ∧
    s.client = .idle w ∧ StaysOpen Put Nat w := by
  have h : ((runs step (System.fresh Put Register Nat)
    (fullRun ++ rotation (List.replicate 10 go))).any fun sys =>
      sys.session.any fun s => s.client.wal?.any fun w => s.rotated.any fun _ =>
        decide (w.config = twoRecords)) = true := by decide +kernel
  obtain ⟨sys, hsys, h⟩ := (Option.any_eq_true _ _).1 h
  obtain ⟨s, hs, h⟩ := (Option.any_eq_true _ _).1 h
  obtain ⟨w, hw, h⟩ := (Option.any_eq_true _ _).1 h
  obtain ⟨x, hx, h⟩ := (Option.any_eq_true _ _).1 h
  have hcfg := of_decide_eq_true h
  refine ⟨sys, s, w, hsys, hs, Client.wal?_eq hw, ?_⟩
  refine (runs_fresh_chunk.1 _ sys s w x.1 x.2 hsys hs (Client.wal?_eq hw)
    (Session.rotated_eq hx)).2 ?_
  rw [hcfg]
  refine ⟨by decide, fun n hn => ?_⟩
  cases hn
  decide

/-- One record fills a chunk. -/
def oneRecord : Config := { Register.config with chunkMaxRecords? := some 1 }

def fullAgainRun : List Register.Step := [start oneRecord] ++ rotation (List.replicate 10 go)

/-- **An accepted configuration** under which a fresh chunk is full. -/
theorem fresh_chunk_full : ¬ ∀ (ls : List Register.Step) (sys : System Put Register Nat)
    (s : Session Put Register Nat) (w : ChunkedWal Register) (c c' : Register),
    runs step (System.fresh Put Register Nat) ls = some sys → sys.session = some s →
      s.client = .idle w →
    w.config.validate = .ok () →
      s.returned = some (.tryCloseFullChunk c, .ok (.checkpoint (some c'))) →
    w.isOpenChunkFull = false := by
  intro hall
  have h : ((runs step (System.fresh Put Register Nat) fullAgainRun).any fun sys =>
      sys.session.any fun s => s.client.wal?.any fun w =>
        decide (w.config.validate = .ok ()) && w.isOpenChunkFull && s.rotated.isSome) = true :=
          by decide +kernel
  obtain ⟨sys, hsys, h⟩ := (Option.any_eq_true _ _).1 h
  obtain ⟨s, hs, h⟩ := (Option.any_eq_true _ _).1 h
  obtain ⟨w, hw, h⟩ := (Option.any_eq_true _ _).1 h
  simp only [Bool.and_eq_true, decide_eq_true_eq] at h
  obtain ⟨⟨hv, hf⟩, hret⟩ := h
  obtain ⟨x, hx⟩ := Option.isSome_iff_exists.1 hret
  have := hall _ sys s w x.1 x.2 hsys hs (Client.wal?_eq hw) hv (Session.rotated_eq hx)
  exact absurd (this.symm.trans hf) (by simp)

end System

end Wal

import Wal.Contract
import Wal.Ledger

/-!
# A client that keeps the log

What a client must ensure for its log to outlive a crash: it removes chunks in the order in which it
has drained them, and only behind a synchronization of everything it has sent. `Mode.careful` says
so, and `WalKept` is what every method of such a client leaves: the open chunk continues what was
sent, and the closed chunks are on the shelf. Whether a request can be sent is not up to the client,
and a method may return an error.
-/

namespace Wal

open Lib

/-- The records of the chunks are known, and only those that `may` be are removed, behind a
synchronization. -/
def Mode.careful (may : Nat → Prop) : Mode where
  strict := true
  covered := true
  removable := may
  fails := false
  exact := false
  once := false
  strict_of_fails _ := rfl

section
variable {A C Cb : Type} [Crc32fast] [Encode A] [Encode C]

/-- The chunks that a method returns. -/
def drainedBy (res : Except Fault (Ret C)) : List Nat :=
  match res with
  | .ok r => r.drained
  | .error _ => []

/-- What is asked of a call: `drained` are the chunks that were not passed on yet, and `clean` says
that everything sent before is behind a synchronization. -/
def Op.Proper (drained : List Nat) (clean : Bool) : Op A C Cb → Prop
  | .sendRemoveChunks ids => ids <+: drained ∧ clean = true
  | .tryCloseFullChunk c => Encodes (.checkpoint c : WALRecord A C)
  | _ => True

/-- **What a method leaves.** -/
structure WalKept (may : Nat → Prop) (w : ChunkedWal C) (g : View A C) (drained : List Nat) :
    Prop where
  ok : WalOk (Mode.careful may) w g
  shelved : g.dead = false → Shelved g w.closed drained

variable {may : Nat → Prop} {w : ChunkedWal C} {g : View A C} {drained : List Nat}

theorem WalKept.of_open (h : WalKept may w g drained) {w' : ChunkedWal C} (ho : w'.open = w.open)
    (hc : w'.config = w.config) (hcl : w'.closed = w.closed) : WalKept may w' g drained :=
  ⟨h.ok.of_open ho hc, fun hd => hcl ▸ h.shelved hd⟩

theorem WalKept.lost (h : WalKept may w g drained) {drained' : List Nat} :
    WalKept may w.flushed { g with dead := true } drained' :=
  ⟨h.ok.lost, fun hd => Bool.noConfusion hd⟩

theorem WalKept.dead (h : WalKept may w g drained) (g' : View A C) (hp : g'.plan = g.plan)
    (hr : g'.records = g.records) (hd : g'.dead = true) {drained' : List Nat} :
    WalKept may w g' drained' := by
  obtain ⟨h1, h2, h3, h4, h5, h6, h7⟩ := h.ok
  have hlive : g'.dead ≠ false := by simp [hd]
  refine ⟨⟨hp ▸ h1, hp ▸ h2, h3, fun hd => absurd hd hlive, fun _ hd => absurd hd hlive, h6,
    fun hs => ?_⟩, fun hd => absurd hd hlive⟩
  obtain ⟨ht, -, he⟩ := h7 hs
  refine ⟨?_, fun hd => absurd hd hlive, fun r hm => he r (hr ▸ hm)⟩
  rw [ht]
  unfold View.newest
  rw [hp, hr]

theorem WalKept.wrote (h : WalKept may w g drained) (hd : g.dead = false) (sync : Bool) :
    WalKept may w.flushed (g.wrote sync w.open.pendingData) drained where
  ok := h.ok.wrote hd sync
  shelved _ := by
    obtain ⟨hb, hids, hlt, hsplit⟩ := h.shelved hd
    exact ⟨by simp [View.wrote, hb], hids, hlt, hsplit⟩

theorem WalKept.push (h : WalKept may w g drained) {rec : WALRecord A C} (hr : Encodes rec)
    (hne : enc rec ≠ []) :
    WalKept may (w.pushed rec) { g with records := g.records ++ [rec] } drained where
  ok := h.ok.push hr hne
  shelved hd := by
    obtain ⟨hb, hids, hlt, hsplit⟩ := h.shelved hd
    exact ⟨hb, hids, hlt, hsplit⟩

theorem WalKept.of_view (h : WalKept may w g drained) {g' : View A C} (hp : g'.plan = g.plan)
    (hps : g'.parts = g.parts) (hr : g'.records = g.records) (hx : g'.extras = g.extras)
    (hd : g'.dead = g.dead) : WalKept may w g' drained where
  ok := by
    obtain ⟨h1, h2, h3, h4, h5, h6, h7⟩ := h.ok
    refine ⟨hp ▸ h1, hp ▸ h2, h3, fun hd' => hp ▸ h4 (hd ▸ hd'),
      fun hf hd' => hx ▸ h5 hf (hd ▸ hd'), h6, fun hs => ?_⟩
    obtain ⟨ht, hb, he⟩ := h7 hs
    refine ⟨?_, fun hd' => ?_, fun r hm => he r (hr ▸ hm)⟩
    · rw [ht]
      unfold View.newest
      rw [hp, hr]
    · rw [hp, hr]
      exact hb (hd ▸ hd')
  shelved hd' := by
    obtain ⟨hb, hids, hlt, old, ps, qs, hsplit, hgone, hdr, hcl⟩ := h.shelved (hd ▸ hd')
    refine ⟨hp ▸ hb, ?_, hp ▸ hlt, old, ps, qs, hps ▸ hsplit, hp ▸ hgone, hdr, hcl⟩
    rw [hp, hps]
    exact hids

omit [Crc32fast] [Encode A] [Encode C] in
theorem Shelved.drain {closed : List (Nat × ClosedChunk C)} (h : Shelved g closed drained)
    (k : Nat) :
    Shelved g (closed.drop k) (drained ++ (closed.take k).map (·.1)) := by
  obtain ⟨hb, hids, hlt, old, ps, qs, hsplit, hgone, rfl, hcl⟩ := h
  refine ⟨hb, hids, fun c hc => hlt c (List.mem_of_mem_drop hc), old, ps ++ qs.take k, qs.drop k,
    ?_, hgone, ?_, ?_⟩
  · rw [hsplit, ← List.append_assoc old, List.append_assoc, List.append_assoc, List.append_assoc,
      List.take_append_drop]
  · rw [List.map_append, List.map_take, hcl, List.map_take]
  · rw [List.map_drop, hcl, List.map_drop]

omit [Crc32fast] [Encode A] [Encode C] in
theorem Shelved.remove {closed : List (Nat × ClosedChunk C)} (h : Shelved g closed drained)
    {ids : List Nat} (hp : ids <+: drained) : Shelved { g with
      plan := { g.plan with tape := { g.plan.tape with gone := g.plan.tape.gone + ids.length } }
      settled := false } closed (drained.drop ids.length) := by
  obtain ⟨hb, hids, hlt, old, ps, qs, hsplit, hgone, rfl, hcl⟩ := h
  have hlen : ids.length ≤ ps.length := by simpa using hp.length_le
  refine ⟨hb, hids, hlt, old ++ ps.take ids.length, ps.drop ids.length, qs, ?_, ?_, ?_, hcl⟩
  · show g.parts = _
    rw [hsplit, List.append_assoc old, List.append_assoc, List.append_assoc,
      ← List.append_assoc (ps.take _), List.take_append_drop]
  · show _ = g.plan.tape.gone + ids.length
    rw [List.length_append, List.length_take, hgone, Nat.min_eq_left hlen]
  · rw [List.map_drop]

omit [Crc32fast] [Encode A] [Encode C] in
/-- The drained chunks may be removed. -/
theorem Shelved.spare {closed : List (Nat × ClosedChunk C)} (h : Shelved g closed drained)
    {ids : List Nat} (hp : ids <+: drained) : ids <+: g.plan.tape.spare.drop g.plan.tape.gone := by
  obtain ⟨hb, hids, hlt, old, ps, qs, hsplit, hgone, rfl, hcl⟩ := h
  unfold Tape.spare
  rw [if_neg hb, hids, hsplit, ← hgone, List.append_assoc, List.map_append,
    List.drop_left' (by simp), List.map_append]
  exact hp.trans (List.prefix_append _ _)

omit [Crc32fast] [Encode A] [Encode C] in
theorem Shelved.rotate {closed : List (Nat × ClosedChunk C)} (h : Shelved g closed drained)
    {c : ClosedChunk C} {g' : View A C} (hb : g'.plan.tape.bytes ≠ [])
    (hi : g'.plan.tape.ids = g.plan.tape.ids ++ [g.plan.tape.id])
    (hlt : g.plan.tape.id < g'.plan.tape.id) (hg : g'.plan.tape.gone = g.plan.tape.gone)
    (hps : g'.parts = g.layout) :
    Shelved g' (insertChunk g.plan.tape.id c closed) drained := by
  obtain ⟨-, hids, hbelow, old, ps, qs, hsplit, hgone, hdr, hcl⟩ := h
  rw [insertChunk_of_lt hbelow]
  refine ⟨hb, ?_, fun p hp => ?_, old, ps, qs ++ [g.newest], ?_, hgone.trans hg.symm, hdr, ?_⟩
  · rw [hi, hids, hps, View.layout, List.map_append]
    rfl
  · rcases List.mem_append.1 hp with hp | hp
    · exact (hbelow p hp).trans hlt
    · obtain rfl := List.mem_singleton.1 hp
      exact hlt
  · rw [hps, View.layout, hsplit, List.append_assoc, List.append_assoc]
  · rw [List.map_append, List.map_append, hcl]
    rfl

end

/-! ## The methods -/

section
variable {A C Cb : Type} [Crc32fast] [Encode A] [Encode C] {may : Nat → Prop} {w : ChunkedWal C}
    {g : View A C}
  {drained : List Nat}

theorem flush_kept (h : WalKept may w g drained) (sync : Bool) (callback : Option Cb) :
    ClientM.Meets (contract (Mode.careful may)) (fun (res : Except Fault IoResult) w' g' => w' =
      w.flushed ∧
      WalKept may w' g' drained ∧ ∃ r, res = .ok r ∧
        (r = .ok () → g.dead = false ∧ g' = g.wrote sync w.open.pendingData))
      (ChunkedWal.sendPending sync callback : ClientM A C Cb IoResult) w g := by
  refine (sendPending_meets h.ok sync callback).mono ?_
  rintro res w' g' ⟨rfl, ⟨rfl, hd, rfl⟩ | ⟨e, rfl, rfl⟩⟩
  · exact ⟨rfl, h.wrote hd sync, _, rfl, fun _ => ⟨hd, rfl⟩⟩
  · exact ⟨rfl, h.lost, _, rfl, fun hr => absurd hr (by simp)⟩

theorem createEmpty_kept {id : Nat} (hd : g.dead = false) (hid : id = g.plan.tape.end_)
    (hne : g.plan.tape.bytes ≠ []) (hx : g.extras = []) :
    ClientM.Meets (contract (Mode.careful may)) (fun res w' g' => w' = w ∧
      res = .ok (OpenChunk.fromFile id) ∧
      g' = { g with extras := [id], synced := true })
      (ChunkedWal.createEmpty id : ClientM A C Cb OpenChunk) w g := by
  unfold ChunkedWal.createEmpty
  refine .perform_bind ⟨hd, hid, hne, fun _ => hx⟩ fun r g₁ h₁ => ?_
  rcases r with e | ⟨⟩
  · exact Bool.noConfusion h₁.1
  obtain rfl : g₁ = { g with extras := g.extras ++ [id], synced := false } := h₁
  refine .require_bind (fun _ => .perform_bind trivial fun r g₂ h₂ => ?_) fun e he =>
    absurd he (by simp)
  rcases r with e | ⟨⟩
  · exact Bool.noConfusion h₂.1
  obtain rfl : g₂ = _ := h₂
  refine .require_bind (fun _ => .pure ⟨rfl, rfl, ?_⟩) fun e he => absurd he (by simp)
  rw [hx]
  rfl

theorem send_kept (h : WalKept may w g drained) {req : WorkerRequest C Cb} {p : Plan} {d : List Nat}
    (haccept : g.dead = false → g.plan.accept ((Mode.careful may).rules A C) req = some p)
    (hallowed : Allowed (Mode.careful may) g req)
    (hsent : g.dead = false → WalKept may w (g.sent req p) d) :
    ClientM.Meets (contract (Mode.careful may)) (fun (_ : Except Fault Unit) w' g' =>
      WalKept may w' g' d)
      (do ClientM.require (← ClientM.perform (.send req)) : ClientM A C Cb Unit) w g := by
  refine .perform_bind (fun hd => ⟨by rw [haccept hd]; rfl, hallowed⟩) fun r g' hstep => ?_
  rcases r with e | ⟨⟩
  · obtain rfl : g' = { g with dead := true } := hstep
    exact .require (fun _ => h.dead { g with dead := true } rfl rfl rfl)
      fun _ _ => h.dead { g with dead := true } rfl rfl rfl
  · obtain ⟨hd, -, p', hp, rfl⟩ := hstep
    obtain rfl := Option.some.inj ((haccept hd).symm.trans hp)
    exact .require (fun _ => hsent hd) fun _ _ => hsent hd

variable [SizedCodec A] [SizedCodec C]

theorem append_fits {m : Mode} (h : WalOk m w g) {rec : WALRecord A C} (hr : Encodes rec) :
    ClientM.Meets (contract m) (fun res w' g' => res = .ok () ∧ w' = w.pushed rec ∧
      g' = { g with records := g.records ++ [rec] })
      (ChunkedWal.append rec : ClientM A C Cb Unit) w g := by
  refine append_rule rec (fun hn => absurd hr hn) (fun _ hs => ⟨hr, ?_⟩) fun _ r g' hg =>
    ⟨rfl, rfl, hg⟩
  rw [h.start, Chunk.globalEnd_of (h.laid hs).table]
  rfl

/-- **A rotation.** -/
theorem tryCloseFullChunk_kept (hne : ∀ rec : WALRecord A C, Encodes rec → enc rec ≠ [])
    (h : WalKept may w g drained) {c : C} (hc : Encodes (.checkpoint c : WALRecord A C)) :
    ClientM.Meets (contract (Mode.careful may)) (fun (_ : Except Fault (Option C)) w' g' =>
      WalKept may w' g' drained)
      (ChunkedWal.tryCloseFullChunk c : ClientM A C Cb (Option C)) w g := by
  unfold ChunkedWal.tryCloseFullChunk
  refine .get_bind ?_
  by_cases hf : w.isOpenChunkFull = true
  swap
  · simp only [hf, Bool.not_false, if_true]
    exact .pure h
  simp only [hf, Bool.not_true, Bool.false_eq_true, if_false]
  refine .bind (flush_kept h true none) ?_ ?_
  swap
  · rintro e w' g' ⟨-, -, r, hr, -⟩
    cases hr
  rintro r₁ _ g₁ ⟨rfl, h₁, r, hr, hok⟩
  obtain rfl := Except.ok.inj hr
  refine .require_bind (fun hr => ?_) fun e _ => h₁
  obtain ⟨hd, rfl⟩ := hok hr
  have hcount := h.ok.full hf
  obtain ⟨seg, hseg, hend⟩ := Chunk.lastSegment_of_increasing h.ok.increasing hcount
  refine .liftFault_bind (fun seg' hseg' => ?_) fun e he => absurd (hseg.symm.trans he) (by simp)
  obtain rfl := Except.ok.inj (hseg.symm.trans hseg')
  have hstop : w.open.chunk.globalEnd = (g.wrote true w.open.pendingData).plan.tape.end_ :=
    h₁.ok.stop hd
  have hid : seg.end_ = (g.wrote true w.open.pendingData).plan.tape.end_ := hend.trans hstop
  have hstart : w.open.chunk.globalStart = g.plan.tape.id := h.ok.start
  have hlt : g.plan.tape.id < seg.end_ := by
    rw [hend, ← hstart]
    exact Chunk.lt_of_recordsCount h.ok.increasing hcount
  have hbegun : (g.wrote true w.open.pendingData).plan.tape.bytes ≠ [] := (h₁.shelved hd).begun
  refine .bind (createEmpty_kept hd hid hbegun (h₁.ok.clear rfl hd)) ?_ ?_
  swap
  · rintro e _ g₂ ⟨-, he, -⟩
    cases he
  rintro o _ g₂ ⟨rfl, ho, rfl⟩
  obtain rfl := Except.ok.inj ho
  have hbytes : g.plan.tape.bytes ++ w.open.pendingData = encAll g.records :=
    (h.ok.laid rfl).bytes hd
  refine .perform_bind
    (fun _ => ⟨?_, List.mem_singleton_self _, rfl, fun _ => rfl, fun _ => hbytes⟩)
    fun r₂ g₃ h₃ => ?_
  · exact Option.isSome_iff_exists.2 ⟨_, if_pos ⟨rfl, hbegun, hid, hid⟩⟩
  rcases r₂ with e | ⟨⟩
  · obtain rfl : g₃ = _ := h₃
    refine .require_bind (fun h => absurd h (by simp)) fun e _ => ?_
    apply h₁.dead <;> rfl
  obtain ⟨-, -, p, hacc, rfl⟩ := h₃
  obtain rfl := Option.some.inj ((if_pos ⟨rfl, hbegun, hid, hid⟩).symm.trans hacc)
  have h₃ : WalOk (Mode.careful may) { w.flushed with «open» := OpenChunk.fromFile seg.end_ }
      (({ g.wrote true w.open.pendingData with extras := [seg.end_], synced := true } : View A
        C).begunAt seg.end_) :=
    .rotate h.ok.limits hid fun _ => rfl
  refine .require_bind (fun _ =>
    .get_bind (.set_bind (.bind (append_fits h₃ hc) ?_ fun e _ _ h => by cases h.1)))
    fun e he => absurd he (by simp)
  rintro u _ _ ⟨-, rfl, rfl⟩
  have h₄ := h₃.push hc (hne _ hc)
  refine .bind (sendPending_meets h₄ false none) ?_ fun e _ _ h => ?_
  swap
  · obtain ⟨-, ⟨he, -⟩ | ⟨e', he, -⟩⟩ := h <;> cases he
  rintro r₃ _ g₅ ⟨rfl, ⟨hr₃, hd₃, rfl⟩ | ⟨e, hr₃, rfl⟩⟩
  · obtain rfl := Except.ok.inj hr₃
    refine .require_bind
      (fun _ => .get_bind (.set_bind (.pure ⟨(h₄.wrote hd₃ false).of_open rfl rfl, fun _ => ?_⟩)))
      fun e he => absurd he (by simp)
    have hkey : w.flushed.open.chunk.chunkId = g.plan.tape.id := hstart
    rw [hkey]
    refine (h.shelved hd).rotate ?_ ?_ ?_ rfl rfl
    · exact fun hnil => hne _ hc (List.append_eq_nil_iff.1 hnil).2
    · simp [View.wrote, View.begunAt, Tape.ids, Tape.rotate, Tape.chunks]
    · exact hid ▸ hlt
  · obtain rfl := Except.ok.inj hr₃
    exact .require_bind (fun h => absurd h (by simp)) fun e _ =>
      ⟨h₄.lost, fun hd => Bool.noConfusion hd⟩

omit [SizedCodec A] [SizedCodec C] in
/-- **A shutdown.** -/
theorem shutdown_kept (h : WalKept may w g drained) :
    ClientM.Meets (contract (Mode.careful may)) (fun (_ : Except Fault Unit) w' g' =>
      WalKept may w' g' drained)
      (ChunkedWal.shutdown : ClientM A C Cb Unit) w g := by
  unfold ChunkedWal.shutdown
  refine .get_bind ?_
  by_cases hw : w.workerHandle = true
  swap
  · simp only [hw, Bool.not_false, if_true]
    exact .pure h
  simp only [hw, Bool.not_true, Bool.false_eq_true, if_false]
  have h' : WalKept may { w with workerHandle := false } g drained := h.of_open rfl rfl rfl
  refine .set_bind (.bind (flush_kept h' true none) ?_ ?_)
  swap
  · rintro e _ _ ⟨-, -, r, hr, -⟩
    cases hr
  rintro r _ g₁ ⟨rfl, h₁, -⟩
  refine .perform_bind trivial fun r₁ g₂ h₂ => .perform_bind trivial fun r₂ g₃ h₃ => ?_
  obtain rfl : g₂ = g₁ := by cases r₁ <;> exact h₂
  obtain rfl : g₃ = { g₂ with joined := true } := by cases r₂ <;> exact h₃
  have hjoined : WalKept may _ { g₂ with joined := true } drained := h₁.of_view rfl rfl rfl rfl rfl
  refine .require_bind (fun _ => .require_bind (fun _ => ?_) fun e _ => hjoined) fun e _ => hjoined
  refine .perform_bind trivial fun r₄ g₄ h₄ => ?_
  have hlast : WalKept may ({ w with workerHandle := false } : ChunkedWal C).flushed g₄
    drained := by
    cases r₄ <;> cases h₄ <;> exact h₁.of_view rfl rfl rfl rfl rfl
  exact .require (fun _ => hlast) fun _ _ => hlast

/-- **Every method** of a client that keeps the log. -/
theorem Op.kept (hne : ∀ rec : WALRecord A C, Encodes rec → enc rec ≠ []) (op : Op A C Cb)
    (h : WalKept may w g drained) {clean : Bool} (hop : op.Proper drained clean)
    (hmay : ∀ id ∈ op.passed, may id) (hclean : g.dead = false → clean = true →
      g.plan.clean = true) :
    ClientM.Meets (contract (Mode.careful may)) (fun (res : Except Fault (Ret C)) w' g' =>
      WalKept may w' g' (Session.handOver drained op ++ drainedBy res)) op.run w g := by
  have herr : ∀ {e : Fault} {w' : ChunkedWal C} {g' : View A C} {ds : List Nat},
    WalKept may w' g' ds →
      WalKept may w' g' (ds ++ drainedBy (.error e : Except Fault (Ret C))) := by
    intro e w' g' ds h
    simpa [drainedBy] using h
  have hok : ∀ {r : Ret C} {w' : ChunkedWal C} {g' : View A C} {ds : List Nat}, r.drained = [] →
    WalKept may w' g' ds →
      WalKept may w' g' (ds ++ drainedBy (.ok r : Except Fault (Ret C))) := by
    intro r w' g' ds hr h
    simpa [drainedBy, hr] using h
  cases op with
  | append rec =>
    refine .bind (append_meets h.ok rec) ?_ ?_
    · rintro u _ _ (⟨e, he, -⟩ | ⟨-, hr, rfl, rfl⟩)
      · cases he
      · exact .pure (hok rfl (h.push hr (hne _ hr)))
    · rintro e _ _ (⟨-, -, rfl, rfl⟩ | ⟨he, -⟩)
      · exact herr h
      · cases he
  | sendPending sync callback =>
    refine .bind (flush_kept h sync callback) ?_ ?_
    · rintro r _ g₁ ⟨rfl, h₁, -⟩
      exact .require_bind (fun _ => .pure (hok rfl h₁)) fun e _ => herr h₁
    · rintro e _ _ ⟨-, -, r, hr, -⟩
      cases hr
  | tryCloseFullChunk c =>
    exact .bind (tryCloseFullChunk_kept hne h hop) (fun _ _ _ h => .pure (hok rfl h)) fun _ _ _ h =>
      herr h
  | drainClosedChunksWhile shouldDrain =>
    obtain ⟨k, hk⟩ := ChunkedWal.drainLoop_eq shouldDrain 0 w.closed
    refine .bind (Q := fun res w' g' => ∃ ids, res = .ok ids ∧
      WalKept may w' g' (drained ++ ids)) ?_ ?_
      fun e _ _ h => by obtain ⟨ids, he, -⟩ := h; cases he
    · unfold ChunkedWal.drainClosedChunksWhile
      refine .get_bind ?_
      rw [hk]
      exact .set_bind (.pure ⟨_, rfl, h.ok.of_open rfl rfl, fun hd => (h.shelved hd).drain k⟩)
    · rintro ids w' g' ⟨ids', hids, h'⟩
      obtain rfl := Except.ok.inj hids
      exact .pure h'
  | sendRemoveChunks ids =>
    obtain ⟨hp, hcl⟩ := hop
    have hgive : Session.handOver drained (.sendRemoveChunks ids : Op A C Cb) =
      drained.drop ids.length := if_pos hp
    refine .bind
      (send_kept (p :=
        { g.plan with tape := { g.plan.tape with gone := g.plan.tape.gone + ids.length } })
      (d := drained.drop ids.length) h (fun hd => ?_) hmay fun hd => ?_)
      (fun _ _ _ h => .pure (hok rfl (hgive ▸ h))) fun _ _ _ h => herr (hgive ▸ h)
    · simp only [Plan.accept, Mode.rules, Mode.careful, Bool.true_eq_false, if_false]
      exact if_pos ⟨(h.shelved hd).spare hp, fun _ => hclean hd hcl⟩
    · obtain ⟨h1, h2, h3, h4, h5, h6, h7⟩ := h.ok
      exact ⟨⟨h1, h2, h3, h4, h5, h6, fun hs => ⟨(h7 hs).table, (h7 hs).bytes, (h7 hs).encodes⟩⟩,
        fun _ => (h.shelved hd).remove hp⟩
  | sendGetStat =>
    refine .bind (send_kept h (fun _ => rfl) trivial fun _ => ?_) (fun _ _ _ h => .pure (hok rfl h))
      fun _ _ _ h => herr h
    exact h.of_view rfl rfl rfl rfl rfl
  | waitWorkerIdle =>
    refine .bind (Q := fun _ w' g' => WalKept may w' g' drained) ?_
      (fun _ _ _ h => .pure (hok rfl h))
      fun _ _ _ h => herr h
    refine .perform_bind trivial fun r g' hstep => ?_
    have h' : WalKept may w g' drained := by
      cases r <;> cases hstep <;> exact h.of_view rfl rfl rfl rfl rfl
    exact .require (fun _ => h') fun _ _ => h'
  | shutdown =>
    exact .bind (shutdown_kept h) (fun _ _ _ h => .pure (hok rfl h)) fun _ _ _ h => herr h

end

end Wal

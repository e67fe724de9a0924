import Wal.Client

/-!
# Rules for client programs

`ClientM.Meets c Q m w g`: run on the WAL `w` from a world that looks like `g`, the program `m`
performs its acts as the contract `c` demands, and its result, the WAL it leaves and the view then
satisfy `Q`. There is one rule for each way a program is put together.
-/

namespace Wal

open Lib

namespace ClientM

variable {A C Cb α β G : Type} {c : Contract (ClientAct A C Cb) IoResult G}

/-- **Postconditions of a client program** under a contract. -/
def Meets (c : Contract (ClientAct A C Cb) IoResult G)
    (Q : Except Fault α → ChunkedWal C → G → Prop) (m : ClientM A C Cb α) (w : ChunkedWal C)
      (g : G) : Prop :=
  (m w).Safe c (fun x g => Q x.1 x.2 g) g

namespace Meets

variable {Q : Except Fault α → ChunkedWal C → G → Prop}
    {R : Except Fault β → ChunkedWal C → G → Prop}
  {m : ClientM A C Cb α} {w : ChunkedWal C} {g : G}

theorem mono {Q' : Except Fault α → ChunkedWal C → G → Prop} (h : Meets c Q m w g)
    (hQ : ∀ x w g, Q x w g → Q' x w g) : Meets c Q' m w g := by
  refine Prog.Safe.mono ?_ (show (m w).Safe c (fun x g => Q x.1 x.2 g) g from h)
  exact fun x g hq => hQ x.1 x.2 g hq

theorem pure {a : α} (h : Q (.ok a) w g) : Meets c Q (Pure.pure a) w g := h

theorem bind {k : α → ClientM A C Cb β} (h : Meets c Q m w g)
    (hok : ∀ a w g, Q (.ok a) w g → Meets c R (k a) w g)
    (herr : ∀ e w g, Q (.error e) w g → R (.error e) w g) : Meets c R (m >>= k) w g := by
  refine Prog.Safe.bind ?_ h
  rintro ⟨r, w'⟩ g' hq
  rcases r with e | a
  · exact herr e w' g' hq
  · exact hok a w' g' hq

theorem get_bind {k : ChunkedWal C → ClientM A C Cb β} (h : Meets c R (k w) w g) :
    Meets c R (ClientM.get >>= k) w g := h

theorem set_bind {w' : ChunkedWal C} {k : Unit → ClientM A C Cb β} (h : Meets c R (k ()) w' g) :
    Meets c R (ClientM.set w' >>= k) w g := h

theorem perform {a : ClientAct A C Cb} {Q : Except Fault IoResult → ChunkedWal C → G → Prop}
    (hp : c.pre a g) (h : ∀ r g', c.step a g r g' → Q (.ok r) w g') :
    Meets c Q (ClientM.perform a) w g := ⟨hp, h⟩

theorem perform_bind {a : ClientAct A C Cb} {k : IoResult → ClientM A C Cb β} (hp : c.pre a g)
    (h : ∀ r g', c.step a g r g' → Meets c R (k r) w g') :
    Meets c R (ClientM.perform a >>= k) w g := ⟨hp, h⟩

theorem require {r : IoResult} {Q : Except Fault Unit → ChunkedWal C → G → Prop}
    (hok : r = .ok () → Q (.ok ()) w g) (herr : ∀ e, r = .error e → Q (.error (.io e)) w g) :
    Meets c Q (ClientM.require r) w g := by
  rcases r with e | ⟨⟩
  · exact herr e rfl
  · exact hok rfl

theorem require_bind {r : IoResult} {k : Unit → ClientM A C Cb β}
    (hok : r = .ok () → Meets c R (k ()) w g) (herr : ∀ e, r = .error e → R (.error (.io e)) w g) :
    Meets c R (ClientM.require r >>= k) w g := by
  rcases r with e | ⟨⟩
  · exact herr e rfl
  · exact hok rfl

theorem liftFault_bind {r : Except Fault α} {k : α → ClientM A C Cb β}
    (hok : ∀ a, r = .ok a → Meets c R (k a) w g) (herr : ∀ e, r = .error e → R (.error e) w g) :
    Meets c R (ClientM.liftFault r >>= k) w g := by
  rcases r with e | a
  · exact herr e rfl
  · exact hok a rfl

end Meets

end ClientM

end Wal

/-!
# Programs over acts, and their contracts

A `Prog A R ρ` performs acts of type `A` one at a time, gets an answer of type `R` to each, and
returns a `ρ`. A thread that runs such a program can be interleaved with others between any two
acts.

A `Contract` says, over a view `G` of the world, what the program must ensure before an act, and how
the view can change with the answer. `Prog.Safe` is the verification condition: whatever the
answers, every act is performed as the contract demands, and the result satisfies `Q`. It is
composed by `Safe.bind` and weakened by `Safe.mono`.
-/

namespace Wal.Lib

inductive Prog (A R ρ : Type)
  | done (x : ρ)
  | act (a : A) (k : R → Prog A R ρ)

variable {A R ρ τ G : Type}

namespace Prog

def bind : Prog A R ρ → (ρ → Prog A R τ) → Prog A R τ
  | done x, f => f x
  | act a k, f => act a fun r => (k r).bind f

@[simp] theorem bind_done (x : ρ) (f : ρ → Prog A R τ) : (done x).bind f = f x := rfl

@[simp] theorem bind_act (a : A) (k : R → Prog A R ρ) (f : ρ → Prog A R τ) :
    (act a k).bind f = act a fun r => (k r).bind f := rfl

end Prog

/-- What a program must ensure before an act, and what it may rely on with the answer. -/
structure Contract (A R G : Type) where
  pre : A → G → Prop
  step : A → G → R → G → Prop

namespace Prog

/-- **The verification condition of a program** under a contract. -/
def Safe (c : Contract A R G) (Q : ρ → G → Prop) : Prog A R ρ → G → Prop
  | done x, g => Q x g
  | act a k, g => c.pre a g ∧ ∀ r g', c.step a g r g' → Safe c Q (k r) g'

variable {c : Contract A R G}

theorem Safe.mono {Q Q' : ρ → G → Prop} (hQ : ∀ x g, Q x g → Q' x g) :
    ∀ {p : Prog A R ρ} {g : G}, p.Safe c Q g → p.Safe c Q' g
  | done x, g, h => hQ x g h
  | act _ _, _, ⟨hp, hk⟩ => ⟨hp, fun r g' hs => Safe.mono hQ (hk r g' hs)⟩

theorem Safe.bind {Q : ρ → G → Prop} {Q' : τ → G → Prop} {f : ρ → Prog A R τ}
    (hf : ∀ x g, Q x g → (f x).Safe c Q' g) :
    ∀ {p : Prog A R ρ} {g : G}, p.Safe c Q g → (p.bind f).Safe c Q' g
  | done x, g, h => hf x g h
  | act _ _, _, ⟨hp, hk⟩ => ⟨hp, fun r g' hs => Safe.bind hf (hk r g' hs)⟩

end Prog

end Wal.Lib

import Mathlib.Logic.Function.Basic

-- Tokens that are handed from place to place: every place holds at most one token, and the question
-- is whether a token can be at two places.
namespace Tokens

variable {P T : Type} {f g : P → Option T} {p q : P} {w : T}

def Exclusive (f : P → Option T) : Prop :=
  ∀ p q w, f p = some w → f q = some w → p = q

namespace Exclusive

theorem empty : Exclusive fun _ : P => (none : Option T) :=
  fun _ _ _ h => by cases h

-- Tokens may get lost.
theorem mono (h : Exclusive f) (hg : ∀ p w, g p = some w → f p = some w) : Exclusive g :=
  fun p q w hp hq => h p q w (hg p w hp) (hg q w hq)

-- A new token appears.
theorem add (h : Exclusive f) (hg : ∀ q v, g q = some v → f q = some v ∨ q = p ∧ v = w) (hn : ∀ q, f q ≠ some w) :
    Exclusive g := by
  intro a b v ha hb
  cases hg a v ha <;> cases hg b v hb
  case inl.inl ha hb => exact h a b v ha hb
  case inl.inr ha hb => exact absurd (hb.right ▸ ha) <| hn a
  case inr.inl ha hb => exact absurd (ha.right ▸ hb) <| hn b
  case inr.inr ha hb => exact ha.left.trans hb.left.symm

-- A token moves from `p` to `q`.
theorem move (h : Exclusive f) (hg : ∀ r v, g r = some v → f r = some v ∨ r = q ∧ f p = some v) (hp : g p = none) :
    Exclusive g := by
  -- Only the token that moves can be both at an old place and at the new one.
  have old {a v} (ha : g a = some v) (hf : f a = some v) : f p ≠ some v := by
    intro hv
    cases h a p v hf hv
    cases ha.symm.trans hp
  intro a b v ha hb
  cases hg a v ha <;> cases hg b v hb
  case inl.inl ha' hb' => exact h a b v ha' hb'
  case inl.inr ha' hb' => exact absurd hb'.right <| old ha ha'
  case inr.inl ha' hb' => exact absurd ha'.right <| old hb hb'
  case inr.inr ha' hb' => exact ha'.left.trans hb'.left.symm

end Exclusive

end Tokens

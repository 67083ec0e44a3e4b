import Mathlib.Data.Set.Finite.Basic
import Mathlib.Order.BoundedOrder.Basic

-- A single-decree consensus protocol with numbered ballots over arbitrary acceptors `A`, ballots
-- `B`, proposer tags `T` and values `V`. In contrast to the usual presentation, an acceptor that
-- learns a decision adopts the ballot of the decision, even if that lowers its promise. Moreover,
-- several proposers may use the same ballot.
namespace Synod

-- A system of sets of acceptors any two of which intersect.
structure Quorums (A : Type) where
  IsQuorum : Set A → Prop
  inter    : IsQuorum Q₁ → IsQuorum Q₂ → ∃ a, a ∈ Q₁ ∧ a ∈ Q₂

-- The first three fields are the memory of the acceptors, where `⊥` stands for "no ballot". All
-- other fields record what has happened so far:
--
-- * `learned a`: acceptor `a` knows that a value is decided
-- * `reported b t a m x`: in answer to tag `t`, `a` has promised ballot `b` and reported that it
--   has accepted value `x` at ballot `m`
-- * `voted a b v`: `a` has accepted value `v` at ballot `b`, at a time when no value had been
--   decided at or below `b`
structure State (A B T V : Type) where
  promised : A → B
  accepted : A → B
  value    : A → V
  started  : V → Prop
  learned  : A → Prop
  reported : B → T → A → B → V → Prop
  proposed : B → T → V → Prop
  voted    : A → B → V → Prop
  decided  : B → V → Prop

variable {A B T V : Type} {s s' : State A B T V}

-- What has happened is never undone.
structure Grows (s s' : State A B T V) : Prop where
  started  : ∀ {v}, s.started v → s'.started v
  reported : ∀ {b t a m x}, s.reported b t a m x → s'.reported b t a m x
  proposed : ∀ {b t v}, s.proposed b t v → s'.proposed b t v
  voted    : ∀ {a b v}, s.voted a b v → s'.voted a b v
  decided  : ∀ {b v}, s.decided b v → s'.decided b v

theorem Grows.refl (s : State A B T V) : Grows s s :=
  ⟨id, id, id, id, id⟩

namespace State

def start (s : State A B T V) (v : V) : State A B T V :=
  { s with started := fun v' => s.started v' ∨ v' = v }

def propose (s : State A B T V) (b : B) (t : T) (v : V) : State A B T V :=
  { s with proposed := fun b' t' v' => s.proposed b' t' v' ∨ (b' = b ∧ t' = t ∧ v' = v) }

def decide (s : State A B T V) (b : B) (v : V) : State A B T V :=
  { s with decided := fun b' v' => s.decided b' v' ∨ (b' = b ∧ v' = v) }

section

variable [DecidableEq A]

def promise (s : State A B T V) (b : B) (t : T) (a : A) : State A B T V :=
  { s with
    promised := Function.update s.promised a b
    reported := fun b' t' a' m x => s.reported b' t' a' m x ∨
      (b' = b ∧ t' = t ∧ a' = a ∧ m = s.accepted a ∧ x = s.value a) }

def learn (s : State A B T V) (a : A) (b : B) (v : V) : State A B T V :=
  { s with
    promised := Function.update s.promised a b
    accepted := Function.update s.accepted a b
    value    := Function.update s.value a v
    learned  := fun a' => s.learned a' ∨ a' = a }

@[simp]
theorem promise_promised : (s.promise b t a).promised = Function.update s.promised a b :=
  rfl

@[simp]
theorem learn_promised : (s.learn a b v).promised = Function.update s.promised a b :=
  rfl

@[simp]
theorem learn_accepted : (s.learn a b v).accepted = Function.update s.accepted a b :=
  rfl

@[simp]
theorem learn_value : (s.learn a b v).value = Function.update s.value a v :=
  rfl

@[simp]
theorem learn_proposed : (s.learn a b v).proposed = s.proposed :=
  rfl

@[simp]
theorem learn_learned : (s.learn a b v).learned a' ↔ s.learned a' ∨ a' = a :=
  .rfl

end

variable [LinearOrder B]

def DecidedBelow (s : State A B T V) (b : B) : Prop :=
  ∃ b' v, s.decided b' v ∧ b' < b

def DecidedUpTo (s : State A B T V) (b : B) : Prop :=
  ∃ b' v, s.decided b' v ∧ b' ≤ b

theorem DecidedUpTo.trans (hb : b ≤ c) : s.DecidedUpTo b → s.DecidedUpTo c
  | ⟨b', v, h, hle⟩ => ⟨b', v, h, hle.trans hb⟩

theorem DecidedUpTo.below (hb : b < c) : s.DecidedUpTo b → s.DecidedBelow c
  | ⟨b', v, h, hle⟩ => ⟨b', v, h, hle.trans_lt hb⟩

section

variable [DecidableEq A]

def vote (s : State A B T V) (a : A) (b : B) (v : V) : State A B T V :=
  { s with
    promised := Function.update s.promised a b
    accepted := Function.update s.accepted a b
    value    := Function.update s.value a v
    voted    := fun a' b' v' => s.voted a' b' v' ∨
      (a' = a ∧ b' = b ∧ v' = v ∧ ¬s.DecidedUpTo b) }

@[simp]
theorem vote_promised : (s.vote a b v).promised = Function.update s.promised a b :=
  rfl

@[simp]
theorem vote_accepted : (s.vote a b v).accepted = Function.update s.accepted a b :=
  rfl

@[simp]
theorem vote_value : (s.vote a b v).value = Function.update s.value a v :=
  rfl

@[simp]
theorem vote_proposed : (s.vote a b v).proposed = s.proposed :=
  rfl

@[simp]
theorem learn_decidedUpTo : (s.learn a b v).DecidedUpTo c ↔ s.DecidedUpTo c :=
  .rfl

@[simp]
theorem learn_decidedBelow : (s.learn a b v).DecidedBelow c ↔ s.DecidedBelow c :=
  .rfl

-- A vote is recorded unless a value had been decided before.
theorem voted_or_decidedUpTo : (s.vote a b v).voted a b v ∨ (s.vote a b v).DecidedUpTo b := by
  by_cases h : s.DecidedUpTo b
  case pos => exact .inr h
  case neg => exact .inl <| .inr ⟨rfl, rfl, rfl, h⟩

end

variable [OrderBot B]

def init (v : V) : State A B T V where
  promised _         := ⊥
  accepted _         := ⊥
  value _            := v
  started _          := False
  learned _          := False
  reported _ _ _ _ _ := False
  proposed _ _ _     := False
  voted _ _ _        := False
  decided _ _        := False

-- The value that a proposer may choose when the acceptors in `Q` have answered: the reported value
-- with the highest ballot, or any started value if no value was reported.
structure Choice (s : State A B T V) (Q : Set A) (b : B) (t : T) (v : V) (m : B) : Prop where
  report  : ∀ a ∈ Q, ∃ m' x, s.reported b t a m' x ∧ m' ≤ m
  highest : m ≠ ⊥ → ∃ a, s.reported b t a m v
  own     : m = ⊥ → s.started v

end State

namespace Grows

variable [LinearOrder B]

theorem decidedUpTo (g : Grows s s') : s.DecidedUpTo b → s'.DecidedUpTo b
  | ⟨b', v, h, hle⟩ => ⟨b', v, g.decided h, hle⟩

theorem decidedBelow (g : Grows s s') : s.DecidedBelow b → s'.DecidedBelow b
  | ⟨b', v, h, hlt⟩ => ⟨b', v, g.decided h, hlt⟩

end Grows

variable [DecidableEq A] [LinearOrder B]

-- What an acceptor does in answer to a message.
inductive Answer (s : State A B T V) (a : A) : State A B T V → Prop
  | ignore : Answer s a s
  | promise (free : s.promised a < b) : Answer s a (s.promise b t a)
  | vote (proposed : s.proposed b t v) (free : s.promised a ≤ b) : Answer s a (s.vote a b v)
  | learn (decided : s.decided b v) : Answer s a (s.learn a b v)

namespace Answer

theorem grows (h : Answer s a s') : Grows s s' := by
  cases h
  case ignore  => exact .refl s
  case promise => exact ⟨id, .inl, id, id, id⟩
  case vote    => exact ⟨id, id, id, .inl, id⟩
  case learn   => exact ⟨id, id, id, id, id⟩

theorem started_eq (h : Answer s a s') : s'.started = s.started := by
  cases h <;> rfl

theorem proposed_eq (h : Answer s a s') : s'.proposed = s.proposed := by
  cases h <;> rfl

-- The memory of the other acceptors stays as it is.
theorem frame (h : Answer s a s') (ne : a' ≠ a) :
    s'.promised a' = s.promised a' ∧ s'.accepted a' = s.accepted a' ∧ s'.value a' = s.value a' := by
  cases h <;> simp [State.promise, ne]

theorem learned (h : Answer s a s') (hl : s.learned a') : s'.learned a' := by
  cases h
  case learn => exact .inl hl
  all_goals exact hl

end Answer

variable [OrderBot B]

inductive Step (q : Quorums A) (s : State A B T V) : State A B T V → Prop
  | start : Step q s (s.start v)
  | answer (h : Answer s a s₁) : Step q s s₁
  | propose (unused : ∀ w, ¬s.proposed b t w) (quorum : q.IsQuorum Q) (choice : s.Choice Q b t v m) :
    Step q s (s.propose b t v)
  | decide (proposed : s.proposed b t v) (quorum : q.IsQuorum Q)
    (votes : ∀ a ∈ Q, s.voted a b v ∨ s.DecidedUpTo b) : Step q s (s.decide b v)

theorem Step.grows {q : Quorums A} (h : Step q s s') : Grows s s' := by
  cases h
  case start    => exact ⟨.inl, id, id, id, id⟩
  case answer h => exact h.grows
  case propose  => exact ⟨id, id, .inl, id, id⟩
  case decide   => exact ⟨id, id, id, id, .inl⟩

end Synod

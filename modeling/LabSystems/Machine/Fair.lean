import LabSystems.Machine.Basic

namespace Machine

def Enabled (m : Machine σ α ε) (s : σ) (a : α) : Prop :=
  (m.step s a).isSome

-- An infinite run, in which nothing has to happen at a given moment.
structure Schedule (m : Machine σ α ε) where
  state : Nat → σ
  valid : ∀ n, state (n + 1) = state n ∨ ∃ t : m.Transition, t.pre = state n ∧ t.post = state (n + 1)

namespace Schedule

variable {m : Machine σ α ε} {r : m.Schedule} {a : α} {P : σ → Prop} {n : Nat} {s : σ}

def Takes (r : m.Schedule) (a : α) (n : Nat) : Prop :=
  ∃ t : m.Transition, t.act = a ∧ t.pre = r.state n ∧ t.post = r.state (n + 1)

-- Weak fairness: an action that stays enabled is taken at some time.
def Fair (r : m.Schedule) (a : α) : Prop :=
  ∀ n, (∀ k ≥ n, m.Enabled (r.state k) a) → ∃ k ≥ n, r.Takes a k

-- The rule for a fair action that is enabled as long as a property holds, which only it can end.
theorem Fair.leads_to (fair : r.Fair a) (enabled : ∀ s, P s → m.Enabled s a)
    (stable : ∀ t : m.Transition, t.act ≠ a → P t.pre → P t.post) (h : P (r.state n)) :
    ∃ k ≥ n, P (r.state k) ∧ r.Takes a k := by
  by_contra hn
  have hP : ∀ k ≥ n, P (r.state k) := by
    intro k hk
    induction hk
    case refl => exact h
    case step k hk hi =>
      cases r.valid k
      case inl he => rwa [he]
      case inr ht =>
        have ⟨t, hpre, hpost⟩ := ht
        by_cases ha : t.act = a
        case pos => exact absurd ⟨k, hk, hi, t, ha, hpre, hpost⟩ hn
        case neg => exact hpost ▸ stable t ha (hpre ▸ hi)
  have ⟨k, hk, ht⟩ := fair n fun k hk => enabled _ <| hP k hk
  exact hn ⟨k, hk, hP k hk, ht⟩

-- Nothing happens any more.
def rest (m : Machine σ α ε) (s : σ) : m.Schedule where
  state _ := s
  valid _ := .inl rfl

theorem fair_rest (h : ¬m.Enabled s a) : (rest m s).Fair a :=
  fun n he => absurd (he n <| Nat.le_refl n) h

def cons (t : m.Transition) (r : m.Schedule) (h : r.state 0 = t.post) : m.Schedule where
  state
    | 0     => t.pre
    | n + 1 => r.state n
  valid
    | 0     => .inr ⟨t, rfl, h.symm⟩
    | n + 1 => r.valid n

-- Fairness does not depend on how a schedule begins.
theorem Fair.cons {t : m.Transition} {h : r.state 0 = t.post} (fair : r.Fair a) : (cons t r h).Fair a := by
  intro n he
  have ⟨k, hk, ht⟩ := fair n fun k hk => he (k + 1) (by omega)
  exact ⟨k + 1, by omega, ht⟩

end Schedule

end Machine

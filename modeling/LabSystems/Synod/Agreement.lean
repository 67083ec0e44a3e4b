import LabSystems.Synod.Basic
import Mathlib.Data.Set.Finite.Lemmas

namespace Synod

open State

variable {A B T V : Type} [LinearOrder B] [OrderBot B] {q : Quorums A} {s s' : State A B T V}

-- The invariant from which agreement follows. An acceptor can lower its promise only by learning a
-- decision. The fields that speak about promises and votes therefore leave a way out: a decision at
-- a low enough ballot. That suffices, because then the field `safe` takes over.
structure Inv (q : Quorums A) (s : State A B T V) : Prop where
  accepted_le       : ∀ a, s.accepted a ≤ s.promised a
  accepted_proposed : ∀ {a}, s.accepted a ≠ ⊥ → ∃ t, s.proposed (s.accepted a) t (s.value a)
  learned_decided   : ∀ {a}, s.learned a → s.DecidedUpTo (s.accepted a)
  voted_proposed    : ∀ {a b v}, s.voted a b v → ∃ t, s.proposed b t v
  voted_accepted    : ∀ {a b v}, s.voted a b v → b ≤ s.accepted a ∨ s.DecidedBelow b
  reported_lt       : ∀ {b t a m x}, s.reported b t a m x → m < b
  reported_proposed : ∀ {b t a m x}, s.reported b t a m x → m ≠ ⊥ → ∃ t', s.proposed m t' x
  reported_promised : ∀ {b t a m x}, s.reported b t a m x →
    b ≤ s.promised a ∨ s.DecidedUpTo (s.promised a)
  reported_voted    : ∀ {b t a m x p v}, s.reported b t a m x → s.voted a p v → p < b →
    p ≤ m ∨ s.DecidedBelow p
  reported_twice    : ∀ {b t t' a m m' x x'}, s.reported b t a m x → s.reported b t' a m' x' →
    t ≠ t' → s.DecidedBelow b
  proposed_ne_bot   : ∀ {b t v}, s.proposed b t v → b ≠ ⊥
  proposed_started  : ∀ {b t v}, s.proposed b t v → s.started v
  proposed_reported : ∀ {b t v}, s.proposed b t v →
    ∃ Q, q.IsQuorum Q ∧ ∀ a ∈ Q, ∃ m x, s.reported b t a m x
  proposed_same     : ∀ {b t t' v w}, s.proposed b t v → s.proposed b t' w → v = w
  -- A quorum can no longer choose a different value at a lower ballot.
  proposed_blocks   : ∀ {b t w p v}, s.proposed b t w → p < b → v ≠ w → s.DecidedUpTo p ∨
    ∀ Q, q.IsQuorum Q → ∃ a ∈ Q, ¬s.voted a p v ∧ p < s.promised a
  decided_proposed  : ∀ {b v}, s.decided b v → ∃ t, s.proposed b t v
  decided_finite    : {b | ∃ v, s.decided b v}.Finite
  -- A decision rests on a quorum of votes, or on a decision at the same or a lower ballot.
  decided_voted     : ∀ {b v}, s.decided b v → ∃ b' v' Q, s.decided b' v' ∧ b' ≤ b ∧
    q.IsQuorum Q ∧ ∀ a ∈ Q, s.voted a b' v'
  safe              : ∀ {b v b' t w}, s.decided b v → s.proposed b' t w → b ≤ b' → w = v

namespace Inv

theorem init (v : V) : Inv q (State.init v : State A B T V) := by
  constructor <;> simp [State.init]

theorem start (hi : Inv q s) : Inv q (s.start v) :=
  { hi with proposed_started := (.inl <| hi.proposed_started ·) }

theorem decided_eq (hi : Inv q s) (h₁ : s.decided b v) (h₂ : s.decided b' w) : v = w := by
  have ⟨_, hp₁⟩ := hi.decided_proposed h₁
  have ⟨_, hp₂⟩ := hi.decided_proposed h₂
  cases le_total b b'
  case inl h => exact (hi.safe h₁ hp₂ h).symm
  case inr h => exact hi.safe h₂ hp₁ h

-- The lowest decided ballot is decided by a quorum of votes.
theorem exists_lowest (hi : Inv q s) (h : s.decided b v) :
    ∃ b' v' Q, s.decided b' v' ∧ b' ≤ b ∧ ¬s.DecidedBelow b' ∧ q.IsQuorum Q ∧
      ∀ a ∈ Q, s.voted a b' v' := by
  have ⟨c, ⟨w, hc⟩, hmin⟩ := Set.exists_min_image _ id hi.decided_finite ⟨b, v, h⟩
  have ⟨b', v', Q, hd, hle, hq, hv⟩ := hi.decided_voted hc
  have hmin {d u} (hu : s.decided d u) : b' ≤ d := hle.trans <| hmin d ⟨u, hu⟩
  exact ⟨b', v', Q, hd, hmin h, fun ⟨_, _, hu, hlt⟩ => absurd hlt (hmin hu).not_gt, hq, hv⟩

-- A proposal rests on the reports of acceptors, and is thus never made at `⊥`.
theorem ne_bot_of_reported (hi : Inv q s) (hq : q.IsQuorum Q)
    (hr : ∀ a ∈ Q, ∃ m x, s.reported b t a m x) : b ≠ ⊥ := by
  have ⟨a, ha, _⟩ := q.inter hq hq
  have ⟨_, _, h⟩ := hr a ha
  exact (hi.reported_lt h).ne_bot

section Choice

variable {t : T} {m : B}

theorem choice_reported (choice : s.Choice Q b t v m) : ∀ a ∈ Q, ∃ m x, s.reported b t a m x :=
  fun a ha =>
    have ⟨m', x, h, _⟩ := choice.report a ha
    ⟨m', x, h⟩

theorem choice_proposed (hi : Inv q s) (choice : s.Choice Q b t v m) (hm : m ≠ ⊥) : ∃ t', s.proposed m t' v :=
  have ⟨_, h⟩ := choice.highest hm
  hi.reported_proposed h hm

-- If the ballot has been used before, then an acceptor has promised it twice.
theorem decidedBelow_of_used (hi : Inv q s) (unused : ∀ w, ¬s.proposed b t w) (quorum : q.IsQuorum Q)
    (choice : s.Choice Q b t v m) (hp : s.proposed b t' w) : s.DecidedBelow b := by
  have ⟨Q', hq', hr'⟩ := hi.proposed_reported hp
  have ⟨a, ha, ha'⟩ := q.inter quorum hq'
  have ⟨_, _, h⟩ := choice_reported choice a ha
  have ⟨_, _, h'⟩ := hr' a ha'
  exact hi.reported_twice h h' <| by
    rintro rfl
    exact unused w hp

-- The quorum of votes for the lowest decision is visible in the reports.
theorem choice_eq_lowest (hi : Inv q s) (unused : ∀ w, ¬s.proposed b t w) (quorum : q.IsQuorum Q)
    (choice : s.Choice Q b t v m) (hd : s.decided c u) (hlow : ¬s.DecidedBelow c) (hq' : q.IsQuorum Q')
    (hv : ∀ a ∈ Q', s.voted a c u) (hcb : c ≤ b) : v = u := by
  have ⟨_, hp⟩ := hi.decided_proposed hd
  cases hcb.eq_or_lt
  case inl h => exact absurd (h ▸ hi.decidedBelow_of_used unused quorum choice (h ▸ hp)) hlow
  case inr hlt =>
    have ⟨a, ha, ha'⟩ := q.inter quorum hq'
    have ⟨m', x, hr, hm'⟩ := choice.report a ha
    have hcm := hi.reported_voted hr (hv a ha') hlt |>.resolve_right hlow |>.trans hm'
    have hm : m ≠ ⊥ := by
      rintro rfl
      exact hi.proposed_ne_bot hp <| le_bot_iff.mp hcm
    have ⟨_, hp'⟩ := hi.choice_proposed choice hm
    exact hi.safe hd hp' hcm

theorem choice_eq_decided (hi : Inv q s) (unused : ∀ w, ¬s.proposed b t w) (quorum : q.IsQuorum Q)
    (choice : s.Choice Q b t v m) (hd : s.decided c u) (hle : c ≤ b) : v = u :=
  have ⟨_, _, _, hd', hle', hlow, hq', hv⟩ := hi.exists_lowest hd
  (hi.choice_eq_lowest unused quorum choice hd' hlow hq' hv <| hle'.trans hle).trans <| hi.decided_eq hd' hd

theorem choice_eq_proposed (hi : Inv q s) (unused : ∀ w, ¬s.proposed b t w) (quorum : q.IsQuorum Q)
    (choice : s.Choice Q b t v m) (hp : s.proposed b t' w) : v = w :=
  have ⟨_, _, hd, hlt⟩ := hi.decidedBelow_of_used unused quorum choice hp
  (hi.choice_eq_decided unused quorum choice hd hlt.le).trans (hi.safe hd hp hlt.le).symm

-- Below the highest report, the proposal that has been reported blocks other values. Above it, the
-- acceptors of the quorum have not voted, and have promised not to.
theorem choice_blocks (hi : Inv q s) (quorum : q.IsQuorum Q) (choice : s.Choice Q b t v m) (hlt : p < b) (hne : w ≠ v) :
    s.DecidedUpTo p ∨ ∀ Q, q.IsQuorum Q → ∃ a ∈ Q, ¬s.voted a p w ∧ p < s.promised a := by
  cases lt_or_ge p m
  case inl hpm =>
    have ⟨_, hp⟩ := hi.choice_proposed choice hpm.ne_bot
    exact hi.proposed_blocks hp hpm hne
  case inr hmp =>
    refine or_iff_not_imp_left.mpr fun hd Q' hq' => ?_
    have ⟨a, ha, ha'⟩ := q.inter quorum hq'
    have ⟨m', x, hr, hm'⟩ := choice.report a ha
    refine ⟨a, ha', fun hv => ?_, ?_⟩
    · have ⟨_, hp⟩ := hi.voted_proposed hv
      have hpm := hi.reported_voted hr hv hlt |>.resolve_right
        fun ⟨c, u, hc, hcp⟩ => hd ⟨c, u, hc, hcp.le⟩
      have he : p = m := le_antisymm (hpm.trans hm') hmp
      have ⟨_, hp'⟩ := hi.choice_proposed choice <| he ▸ hi.proposed_ne_bot hp
      exact hne <| hi.proposed_same hp (he ▸ hp')
    · cases hi.reported_promised hr
      case inl h => exact hlt.trans_le h
      case inr h => exact not_le.mp fun hle => hd <| h.trans hle

end Choice

variable [DecidableEq A]

theorem promise (hi : Inv q s) (free : s.promised a < b) : Inv q (s.promise b t a) := by
  have mono (a') : s.promised a' ≤ (s.promise b t a).promised a' := by
    by_cases h : a' = a
    case pos => simpa [h] using free.le
    case neg => simp [h]
  have lift {c a'} : c ≤ s.promised a' ∨ s.DecidedUpTo (s.promised a') →
      c ≤ (s.promise b t a).promised a' ∨ s.DecidedUpTo ((s.promise b t a).promised a')
    | .inl h => .inl <| h.trans (mono a')
    | .inr h => .inr <| h.trans (mono a')
  -- A promise of the same ballot to another tag must have been lowered in the meantime.
  have below {t' m x} (h : s.reported b t' a m x) : s.DecidedBelow b :=
    hi.reported_promised h |>.resolve_left free.not_ge |>.below free
  exact { hi with
    accepted_le := fun a' => hi.accepted_le a' |>.trans <| mono a'
    reported_lt := by
      rintro _ _ _ _ _ (h | ⟨rfl, rfl, rfl, rfl, rfl⟩)
      case inl => exact hi.reported_lt h
      case inr => exact hi.accepted_le _ |>.trans_lt free
    reported_proposed := by
      rintro _ _ _ _ _ (h | ⟨rfl, rfl, rfl, rfl, rfl⟩)
      case inl => exact hi.reported_proposed h
      case inr => exact hi.accepted_proposed
    reported_promised := by
      rintro _ _ _ _ _ (h | ⟨rfl, rfl, rfl, rfl, rfl⟩)
      case inl => exact lift <| hi.reported_promised h
      case inr => exact .inl <| by simp
    reported_voted := by
      rintro _ _ _ _ _ _ _ (h | ⟨rfl, rfl, rfl, rfl, rfl⟩) hv hlt
      case inl => exact hi.reported_voted h hv hlt
      case inr => exact hi.voted_accepted hv
    reported_twice := by
      rintro _ _ _ _ _ _ _ _ (h | ⟨rfl, rfl, rfl, rfl, rfl⟩) (h' | ⟨h₁, rfl, h₃, _, _⟩) hne
      case inl.inl => exact hi.reported_twice h h' hne
      case inl.inr => exact h₁ ▸ below (h₁ ▸ h₃ ▸ h)
      case inr.inl => exact below h'
      case inr.inr => exact absurd rfl hne
    proposed_reported := fun h =>
      have ⟨Q, hq, hr⟩ := hi.proposed_reported h
      ⟨Q, hq, fun a ha => have ⟨m, x, h⟩ := hr a ha; ⟨m, x, .inl h⟩⟩
    proposed_blocks := fun h hlt hne => (hi.proposed_blocks h hlt hne).imp id fun hb Q hq =>
      have ⟨a, ha, hv, hp⟩ := hb Q hq
      ⟨a, ha, hv, hp.trans_le <| mono a⟩
  }

theorem learn (hi : Inv q s) (decided : s.decided b v) : Inv q (s.learn a b v) := by
  have upTo {c} (hc : b ≤ c) : s.DecidedUpTo c := ⟨b, v, decided, hc⟩
  exact { hi with
    accepted_le := fun a' => by
      by_cases h : a' = a
      case pos => simp [h]
      case neg => simpa [h] using hi.accepted_le a'
    accepted_proposed := fun {a'} hb => by
      by_cases h : a' = a
      case pos => simpa [h] using hi.decided_proposed decided
      case neg =>
        simp only [learn_accepted, learn_value, Function.update_of_ne h] at hb ⊢
        exact hi.accepted_proposed hb
    learned_decided := fun {a'} hl => by
      by_cases h : a' = a
      case pos => simpa [h] using upTo le_rfl
      case neg =>
        simp only [learn_decidedUpTo, learn_accepted, learn_learned, Function.update_of_ne h, h, or_false] at hl ⊢
        exact hi.learned_decided hl
    voted_accepted := fun {a' p _} hv => by
      by_cases h : a' = a
      case neg => simpa [h] using hi.voted_accepted hv
      case pos =>
        cases le_or_gt p b
        case inl hle => exact .inl <| by simpa [h] using hle
        case inr hlt => exact .inr ⟨b, v, decided, hlt⟩
    reported_promised := fun {_ _ a' _ _} hr => by
      by_cases h : a' = a
      case pos => exact .inr <| by simpa [h] using upTo le_rfl
      case neg => simpa [h] using hi.reported_promised hr
    proposed_blocks := fun {_ _ _ p _} hp hlt hne => by
      by_cases hb : b ≤ p
      case pos => exact .inl <| upTo hb
      case neg =>
        refine hi.proposed_blocks hp hlt hne |>.imp id fun hb' Q hq => ?_
        obtain ⟨a', ha, hv, hlt⟩ := hb' Q hq
        refine ⟨a', ha, hv, ?_⟩
        by_cases h : a' = a
        case pos => simpa [h] using not_le.mp hb
        case neg => simpa [h] using hlt
  }

theorem vote (hi : Inv q s) (proposed : s.proposed b t v) (free : s.promised a ≤ b) :
    Inv q (s.vote a b v) := by
  have mono (a') : s.promised a' ≤ (s.vote a b v).promised a' := by
    by_cases h : a' = a
    case pos => simpa [h] using free
    case neg => simp [h]
  have accepted_mono (a') : s.accepted a' ≤ (s.vote a b v).accepted a' := by
    by_cases h : a' = a
    case pos => simpa [h] using hi.accepted_le a |>.trans free
    case neg => simp [h]
  exact { hi with
    accepted_le := fun a' => by
      by_cases h : a' = a
      case pos => simp [h]
      case neg => simpa [h] using hi.accepted_le a'
    accepted_proposed := fun {a'} hb => by
      by_cases h : a' = a
      case pos => exact ⟨t, by simpa [h] using proposed⟩
      case neg =>
        simp only [vote_accepted, vote_value, Function.update_of_ne h] at hb ⊢
        exact hi.accepted_proposed hb
    learned_decided := fun {a'} hl => hi.learned_decided hl |>.trans <| accepted_mono a'
    voted_proposed := by
      rintro _ _ _ (h | ⟨rfl, rfl, rfl, _⟩)
      case inl => exact hi.voted_proposed h
      case inr => exact ⟨t, proposed⟩
    voted_accepted := by
      rintro a' _ _ (h | ⟨rfl, rfl, rfl, _⟩)
      case inl => exact hi.voted_accepted h |>.imp (·.trans <| accepted_mono a') id
      case inr => exact .inl <| by simp
    reported_promised := fun {_ _ a' _ _} hr =>
      hi.reported_promised hr |>.imp (·.trans <| mono a') (·.trans <| mono a')
    reported_voted := by
      rintro _ _ _ _ _ _ _ hr (h | ⟨rfl, rfl, rfl, hn⟩) hlt
      case inl => exact hi.reported_voted hr h hlt
      case inr =>
        -- The acceptor has promised a higher ballot, so its promise was lowered by a decision.
        cases hi.reported_promised hr
        case inl h => exact absurd (h.trans free) hlt.not_ge
        case inr h => exact absurd (h.trans free) hn
    proposed_blocks := fun hp hlt hne => by
      refine hi.proposed_blocks hp hlt hne |>.imp id fun hb Q hq => ?_
      have ⟨a', ha, hv, hlt⟩ := hb Q hq
      refine ⟨a', ha, ?_, hlt.trans_le <| mono a'⟩
      rintro (h | ⟨rfl, rfl, _⟩)
      case inl => exact hv h
      case inr => exact absurd free hlt.not_ge
    decided_voted := fun hd =>
      have ⟨b', v', Q, hd', hle, hq, hv⟩ := hi.decided_voted hd
      ⟨b', v', Q, hd', hle, hq, fun a ha => .inl <| hv a ha⟩
  }

omit [DecidableEq A] in
theorem decide (hi : Inv q s) (proposed : s.proposed b t v) (quorum : q.IsQuorum Q)
    (votes : ∀ a ∈ Q, s.voted a b v ∨ s.DecidedUpTo b) : Inv q (s.decide b v) := by
  have g : Grows s (s.decide b v) := ⟨id, id, id, id, .inl⟩
  -- Proposals at or above the decided ballot carry the decided value: by the invariant if there was
  -- a decision up to this ballot before, and else because they block all other values.
  have agree {b' t' w} (hp : s.proposed b' t' w) (hle : b ≤ b') : w = v := by
    by_cases hd : s.DecidedUpTo b
    case pos =>
      have ⟨c, u, hc, hcb⟩ := hd
      exact hi.safe hc hp (hcb.trans hle) |>.trans <| (hi.safe hc proposed hcb).symm
    case neg =>
      by_contra hne
      have hlt : b < b' := lt_of_le_of_ne hle <| by
        rintro rfl
        exact hne <| hi.proposed_same hp proposed
      have hb := hi.proposed_blocks hp hlt (Ne.symm hne) |>.resolve_left hd
      have ⟨a, ha, hv, _⟩ := hb Q quorum
      exact votes a ha |>.elim hv hd
  exact { hi with
    learned_decided   := (g.decidedUpTo <| hi.learned_decided ·)
    voted_accepted    := (hi.voted_accepted · |>.imp id g.decidedBelow)
    reported_promised := (hi.reported_promised · |>.imp id g.decidedUpTo)
    reported_voted    := (hi.reported_voted · · · |>.imp id g.decidedBelow)
    reported_twice    := (g.decidedBelow <| hi.reported_twice · · ·)
    proposed_blocks   := (hi.proposed_blocks · · · |>.imp g.decidedUpTo id)
    decided_proposed := by
      rintro _ _ (h | ⟨rfl, rfl⟩)
      case inl => exact hi.decided_proposed h
      case inr => exact ⟨t, proposed⟩
    decided_finite := by
      refine hi.decided_finite.insert b |>.subset ?_
      rintro c ⟨w, h | ⟨rfl, rfl⟩⟩
      case inl => exact .inr ⟨w, h⟩
      case inr => exact .inl rfl
    decided_voted := by
      have old {c w} (h : s.decided c w) : ∃ b' v' Q, (s.decide b v).decided b' v' ∧ b' ≤ c ∧
          q.IsQuorum Q ∧ ∀ a ∈ Q, s.voted a b' v' :=
        have ⟨b', v', Q, hd, h⟩ := hi.decided_voted h
        ⟨b', v', Q, .inl hd, h⟩
      rintro _ _ (h | ⟨rfl, rfl⟩)
      case inl => exact old h
      case inr =>
        by_cases hd : s.DecidedUpTo ‹_›
        case neg => exact ⟨_, _, Q, .inr ⟨rfl, rfl⟩, le_rfl, quorum, (votes · · |>.resolve_right hd)⟩
        case pos =>
          have ⟨c, u, hc, hcb⟩ := hd
          have ⟨b', v', Q, hd', hle, h⟩ := old hc
          exact ⟨b', v', Q, hd', hle.trans hcb, h⟩
    safe := by
      rintro _ _ _ _ _ (h | ⟨rfl, rfl⟩) hp hle
      case inl => exact hi.safe h hp hle
      case inr => exact agree hp hle
  }

omit [DecidableEq A] in
theorem propose (hi : Inv q s) (unused : ∀ w, ¬s.proposed b t w) (quorum : q.IsQuorum Q)
    (choice : s.Choice Q b t v m) : Inv q (s.propose b t v) := by
  have hr := choice_reported choice
  have same {t' w} (hp : s.proposed b t' w) : v = w := hi.choice_eq_proposed unused quorum choice hp
  exact { hi with
    accepted_proposed := fun ha => (hi.accepted_proposed ha).imp fun _ => .inl
    voted_proposed    := fun hv => (hi.voted_proposed hv).imp fun _ => .inl
    reported_proposed := fun hr hm => (hi.reported_proposed hr hm).imp fun _ => .inl
    decided_proposed  := fun hd => (hi.decided_proposed hd).imp fun _ => .inl
    proposed_ne_bot := by
      rintro _ _ _ (h | ⟨rfl, rfl, rfl⟩)
      case inl => exact hi.proposed_ne_bot h
      case inr => exact hi.ne_bot_of_reported quorum hr
    proposed_started := by
      rintro _ _ _ (h | ⟨rfl, rfl, rfl⟩)
      case inl => exact hi.proposed_started h
      case inr =>
        by_cases hm : m = ⊥
        case pos => exact choice.own hm
        case neg => exact hi.proposed_started (hi.choice_proposed choice hm).choose_spec
    proposed_reported := by
      rintro _ _ _ (h | ⟨rfl, rfl, rfl⟩)
      case inl => exact hi.proposed_reported h
      case inr => exact ⟨Q, quorum, hr⟩
    proposed_same := by
      rintro _ _ _ _ _ (h | ⟨rfl, rfl, rfl⟩) (h' | ⟨h₁, rfl, rfl⟩)
      case inl.inl => exact hi.proposed_same h h'
      case inl.inr => exact (same <| h₁ ▸ h).symm
      case inr.inl => exact same h'
      case inr.inr => rfl
    proposed_blocks := by
      rintro _ _ _ _ _ (h | ⟨rfl, rfl, rfl⟩) hlt hne
      case inl => exact hi.proposed_blocks h hlt hne
      case inr => exact hi.choice_blocks quorum choice hlt hne
    safe := by
      rintro _ _ _ _ _ hd (h | ⟨rfl, rfl, rfl⟩) hle
      case inl => exact hi.safe hd h hle
      case inr => exact hi.choice_eq_decided unused quorum choice hd hle
  }

theorem answer (hi : Inv q s) (h : Answer s a s') : Inv q s' := by
  cases h
  case ignore             => exact hi
  case promise free       => exact hi.promise free
  case vote proposed free => exact hi.vote proposed free
  case learn decided      => exact hi.learn decided

theorem step (hi : Inv q s) (h : Step q s s') : Inv q s' := by
  cases h
  case start                        => exact hi.start
  case answer h                     => exact hi.answer h
  case propose unused quorum choice => exact hi.propose unused quorum choice
  case decide proposed quorum votes => exact hi.decide proposed quorum votes

omit [DecidableEq A] in
-- What an acceptor that has learned of a decision holds is the decided value, even if it has
-- accepted another proposal since.
theorem decided_of_learned (hi : Inv q s) (h : s.learned a) : ∃ b, s.decided b (s.value a) := by
  have ⟨b, v, hd, hle⟩ := hi.learned_decided h
  have ⟨_, hp⟩ := hi.decided_proposed hd
  have hb : s.accepted a ≠ ⊥ := fun he => hi.proposed_ne_bot hp <| le_bot_iff.mp <| he ▸ hle
  have ⟨_, hp⟩ := hi.accepted_proposed hb
  exact ⟨b, hi.safe hd hp hle ▸ hd⟩

omit [DecidableEq A] in
theorem started_of_decided (hi : Inv q s) (h : s.decided b v) : s.started v :=
  have ⟨_, hp⟩ := hi.decided_proposed h
  hi.proposed_started hp

end Inv

end Synod

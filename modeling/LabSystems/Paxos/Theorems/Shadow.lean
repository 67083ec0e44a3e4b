import LabSystems.Paxos.Theorems.Done
import LabSystems.Synod.Agreement
import Mathlib.Data.Fintype.Card

namespace Paxos

-- The consensus protocol that the peers run for one instance. A proposal is tagged with its
-- goroutine and the number of proposals which the goroutine has made before.
abbrev Consensus (n : Nat) (V : Type) :=
  Synod.State (Fin n) String (Nat × Nat) (Option V)

variable {n : Nat} {V : Type} {a a' : Consensus n V} {p : Fin n} {seq : Int} {τ : Nat × Nat}

def quorums (n : Nat) : Synod.Quorums (Fin n) where
  IsQuorum Q := ∃ S : Finset (Fin n), (∀ p ∈ S, p ∈ Q) ∧ majority n ≤ S.card
  inter := by
    intro _ _ ⟨S₁, hs₁, hc₁⟩ ⟨S₂, hs₂, hc₂⟩
    have hc : (Finset.univ : Finset (Fin n)).card < S₁.card + S₂.card := by
      simp only [majority, Finset.card_univ, Fintype.card_fin] at *
      omega
    have ⟨p, hp⟩ :=
      Finset.inter_nonempty_of_card_lt_card_add_card (S₁.subset_univ) (S₂.subset_univ) hc
    have ⟨h₁, h₂⟩ := Finset.mem_inter.mp hp
    exact ⟨p, hs₁ p h₁, hs₂ p h₂⟩

-- A loop over the peers has counted `num` of the peers below `i`, all of which satisfy `P`.
def Counted (P : Fin n → Prop) (i num : Nat) : Prop :=
  ∃ S : Finset (Fin n), S.card = num ∧ ∀ p ∈ S, p.val < i ∧ P p

namespace Counted

variable {P P' : Fin n → Prop}

theorem zero : Counted P i 0 :=
  ⟨∅, rfl, by simp⟩

theorem skip (h : Counted P i num) : Counted P (i + 1) num :=
  have ⟨S, hc, hs⟩ := h
  ⟨S, hc, fun p hp => ⟨Nat.lt_succ_of_lt (hs p hp).left, (hs p hp).right⟩⟩

theorem count (h : Counted P p num) (hp : P p) : Counted P (p + 1) (num + 1) := by
  have ⟨S, hc, hs⟩ := h
  have hn : p ∉ S := fun hm => Nat.lt_irrefl _ (hs p hm).left
  refine ⟨insert p S, by simp [hn, hc], fun p' hm => ?_⟩
  cases Finset.mem_insert.mp hm
  case inl he =>
    subst he
    exact ⟨Nat.lt_succ_self _, hp⟩
  case inr hm => exact ⟨Nat.lt_succ_of_lt (hs p' hm).left, (hs p' hm).right⟩

theorem mono (h : Counted P i num) (hp : ∀ p, P p → P' p) : Counted P' i num :=
  have ⟨S, hc, hs⟩ := h
  ⟨S, hc, fun p hm => ⟨(hs p hm).left, hp p (hs p hm).right⟩⟩

theorem isQuorum (h : Counted P i num) (hm : majority n ≤ num) : (quorums n).IsQuorum {p | P p} :=
  have ⟨S, hc, hs⟩ := h
  ⟨S, fun p hp => (hs p hp).right, hc ▸ hm⟩

end Counted

-- Peers treat an instance without a record like a new one.
def Peer.record (px : Peer n V) (seq : Int) : Instance V :=
  px.instances.lookup seq |>.getD newInstance

-- The record of an instance is the memory of an acceptor.
structure Peer.Shows (px : Peer n V) (seq : Int) (a : Consensus n V) (p : Fin n) : Prop where
  promised : a.promised p = (px.record seq).nP
  accepted : a.accepted p = (px.record seq).nA
  value    : a.value p = (px.record seq).vA
  learned  : (px.record seq).state = .decided → a.learned p

-- The protocol allows a message with this content.
def Request.Backed (a : Consensus n V) : Request n V → Prop
  | prepare args => args.pNum ≠ ""
  | accept args  => ∃ t, a.proposed args.pNum t args.value
  | decide args  => a.decided args.pNum args.value

def Reply.Backed (a : Consensus n V) (τ : Nat × Nat) (p : Fin n) : Request n V → Reply V → Prop
  | .prepare args, prepare reply =>
    reply.err = .ok → a.reported args.pNum τ p reply.acceptPNum reply.acceptValue
  | .accept args, accept reply =>
    reply.err = .ok → a.voted p args.pNum args.value ∨ a.DecidedUpTo args.pNum
  | _, _ => True

-- The local variables of a loop reflect the replies of the peers below `i`.
def Phase.Backed (a : Consensus n V) (τ : Nat × Nat) (v : Option V) (i : Nat) : Phase n V → Prop
  | sendPrepare pnum num replyPnum replyValue =>
    pnum ≠ "" ∧ Counted (fun p => ∃ m x, a.reported pnum τ p m x ∧ m ≤ replyPnum) i num ∧
      (replyPnum = "" → replyValue = v) ∧
      (replyPnum ≠ "" → ∃ p, a.reported pnum τ p replyPnum replyValue)
  | sendAccept pnum value num =>
    (∃ t, a.proposed pnum t value) ∧
      Counted (fun p => a.voted p pnum value ∨ a.DecidedUpTo pnum) i num
  | sendDecide args => a.decided args.pNum args.value

theorem Request.Backed.mono (g : Synod.Grows a a') {req : Request n V} (h : req.Backed a) :
    req.Backed a' := by
  cases req
  case prepare => exact h
  case accept  => exact h.imp fun _ => g.proposed
  case decide  => exact g.decided h

theorem Reply.Backed.mono (g : Synod.Grows a a') {req : Request n V} {r : Reply V}
    (h : r.Backed a τ p req) : r.Backed a' τ p req := by
  cases req <;> cases r <;> simp only [Backed] at h ⊢
  case prepare.prepare => exact fun he => g.reported (h he)
  case accept.accept   => exact fun he => (h he).imp g.voted g.decidedUpTo

-- A failed call leaves behind a reply that counts for nothing.
theorem Phase.noReply_backed (phase : Phase n V) (seq : Int) :
    phase.noReply.Backed a τ p (phase.request seq) := by
  cases phase <;> simp [noReply, request, Reply.Backed]

namespace Phase.Backed

variable {phase : Phase n V}

theorem mono (g : Synod.Grows a a') (h : phase.Backed a τ v i) : phase.Backed a' τ v i := by
  cases phase
  case sendPrepare =>
    have ⟨hn, hc, ho, hr⟩ := h
    refine ⟨hn, hc.mono fun _ ⟨m, x, hr, hm⟩ => ?_, ho, fun he => (hr he).imp fun _ => g.reported⟩
    exact ⟨m, x, g.reported hr, hm⟩
  case sendAccept =>
    have ⟨hp, hc⟩ := h
    exact ⟨hp.imp fun _ => g.proposed, hc.mono fun _ => Or.imp g.voted g.decidedUpTo⟩
  case sendDecide => exact g.decided h

theorem request (h : phase.Backed a τ v i) : (phase.request seq).Backed a := by
  cases phase
  case sendPrepare => exact h.left
  case sendAccept  => exact h.left
  case sendDecide  => exact h

theorem receive {r : Reply V} (h : phase.Backed a τ v p) (hr : r.Backed a τ p (phase.request seq)) :
    (phase.receive r).Backed a τ v (p + 1) := by
  cases phase <;> cases r <;> simp only [Phase.receive]
  case sendPrepare.prepare pnum num replyPnum replyValue reply =>
    obtain ⟨hn, hc, ho, hb⟩ := h
    split
    case isFalse => exact ⟨hn, hc.skip, ho, hb⟩
    case isTrue he =>
      have hr := hr he
      split
      case isTrue hlt =>
        have hc : Counted (fun p => ∃ m x, a.reported pnum τ p m x ∧ m ≤ reply.acceptPNum) p num := by
          refine hc.mono ?_
          rintro _ ⟨m, x, hr, hm⟩
          exact ⟨m, x, hr, hm.trans hlt.le⟩
        exact ⟨hn, hc.count ⟨_, _, hr, le_rfl⟩, fun h => absurd h hlt.ne_bot, fun _ => ⟨p, hr⟩⟩
      case isFalse hle => exact ⟨hn, hc.count ⟨_, _, hr, not_lt.mp hle⟩, ho, hb⟩
  case sendAccept.accept =>
    obtain ⟨hp, hc⟩ := h
    split
    case isTrue he => exact ⟨hp, hc.count <| hr he⟩
    case isFalse   => exact ⟨hp, hc.skip⟩
  case sendDecide.prepare | sendDecide.accept | sendDecide.decide => exact h
  case sendPrepare.accept | sendPrepare.decide =>
    obtain ⟨hn, hc, h⟩ := h
    exact ⟨hn, hc.skip, h⟩
  case sendAccept.prepare | sendAccept.decide =>
    obtain ⟨hp, hc⟩ := h
    exact ⟨hp, hc.skip⟩

-- A majority of promises allows a proposal.
theorem choice (h : (sendPrepare pnum num replyPnum replyValue).Backed a τ v i)
    (hs : a.started v) :
    a.Choice {p | ∃ m x, a.reported pnum τ p m x ∧ m ≤ replyPnum} pnum τ replyValue replyPnum where
  report _ hm := hm
  highest hn  := h.right.right.right hn
  own he      := h.right.right.left he ▸ hs

end Phase.Backed

namespace Peer

variable {px px' : Peer n V}

theorem setInstance_record (px : Peer n V) {inst : Instance V} : (px.setInstance seq inst).record seq = inst := by
  simp [record]

theorem Shows.mono (hp : px.Shows seq a p) (h : Synod.Answer a i a') (ne : p ≠ i) :
    px.Shows seq a' p :=
  have ⟨h₁, h₂, h₃⟩ := h.frame ne
  ⟨h₁ ▸ hp.promised, h₂ ▸ hp.accepted, h₃ ▸ hp.value, fun hd => h.learned <| hp.learned hd⟩

-- The proposal number of a new instance is the lowest one, so that a record always decides.
theorem prepare_eq {args : PrepareArgs} (hn : args.pNum ≠ "") : px.prepare args =
    if (px.record args.seq).nP < args.pNum then prepare.promise px args (px.record args.seq)
    else (px, ⟨.reject, "", none⟩) := by
  simp only [prepare]
  split
  case h_1 hl =>
    rw [show px.record args.seq = newInstance by simp [record, hl]]
    exact (if_pos <| bot_lt_iff_ne_bot.mpr hn).symm
  case h_2 inst hl => rw [show px.record args.seq = inst by simp [record, hl]]

theorem accept_eq {args : AcceptArgs V} : px.accept args =
    if (px.record args.seq).nP ≤ args.pNum then accept.vote px args (px.record args.seq)
    else (px, ⟨.reject⟩) := by
  simp only [accept]
  split
  case h_1 hl =>
    rw [show px.record args.seq = newInstance by simp [record, hl]]
    exact (if_pos bot_le).symm
  case h_2 inst hl => rw [show px.record args.seq = inst by simp [record, hl]]

-- A peer handles a message in the way of an acceptor.
theorem Shows.handle {req : Request n V} (τ : Nat × Nat) (hp : px.Shows req.seq a p) (hr : req.Backed a) :
    ∃ a', Synod.Answer a p a' ∧ (px.handle req).1.Shows req.seq a' p ∧
      (px.handle req).2.Backed a' τ p req := by
  cases req
  case prepare args =>
    simp only [Peer.handle, prepare_eq hr]
    split
    case isFalse => exact ⟨a, .ignore, hp, by simp [Reply.Backed]⟩
    case isTrue hlt =>
      refine ⟨a.promise args.pNum τ p, .promise <| hp.promised ▸ hlt, ?shows, fun _ => ?report⟩
      case report => exact .inr ⟨rfl, rfl, rfl, hp.accepted.symm, hp.value.symm⟩
      case shows =>
        simp only [prepare.promise, Request.seq]
        constructor <;> rw [setInstance_record]
        case promised => simp
        case accepted => exact hp.accepted
        case value    => exact hp.value
        case learned  => exact hp.learned
  case accept args =>
    simp only [Peer.handle, accept_eq]
    split
    case isFalse => exact ⟨a, .ignore, hp, by simp [Reply.Backed]⟩
    case isTrue hle =>
      obtain ⟨_, hq⟩ := hr
      refine ⟨a.vote p args.pNum args.value, .vote hq <| hp.promised ▸ hle, ?shows, fun _ => ?vote⟩
      case vote => exact Synod.State.voted_or_decidedUpTo
      case shows =>
        simp only [accept.vote, Request.seq]
        constructor <;> rw [setInstance_record]
        case learned => exact hp.learned
        all_goals simp
  case decide args =>
    refine ⟨a.learn p args.pNum args.value, .learn hr, ?_, trivial⟩
    have he : (px.handle (.decide args)).1.record args.seq =
        ⟨.decided, args.pNum, args.pNum, args.value⟩ := px.setInstance_record
    constructor <;> rw [Request.seq, he] <;> simp

theorem Shows.learn (hp : px.learn seq pnum v = some px') :
    px'.Shows seq (a.learn p pnum v) p := by
  have ⟨he, _⟩ := learn_eq_some hp
  constructor <;> rw [he, setInstance_record] <;> simp

-- What happens to one instance does not affect the others.
theorem record_eq_of_lookup_eq (h : px'.instances.lookup seq = px.instances.lookup seq) :
    px'.record seq = px.record seq := by
  simp [record, h]

theorem Shows.of_record_eq (h : px'.record seq = px.record seq) (hp : px.Shows seq a p) :
    px'.Shows seq a p where
  promised := h ▸ hp.promised
  accepted := h ▸ hp.accepted
  value    := h ▸ hp.value
  learned  := h ▸ hp.learned

end Peer

end Paxos

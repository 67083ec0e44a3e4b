import LabSystems.Paxos.Theorems.Forgotten
import LabSystems.Paxos.Theorems.Invariant

namespace Paxos

variable {n : Nat} {V : Type} {s s' : State n V} {es es₁ es₂ : List (Event n V)} {p : Fin n} {seq : Int}
  {ts : List (Transition n V)}

theorem Peer.learn_lookup {px px' : Peer n V} (h : px.learn k pnum v = some px')
    (hl : (px.instances.lookup seq).isSome) : (px'.instances.lookup seq).isSome := by
  rw [(learn_eq_some h).left]
  by_cases he : seq = k
  case pos => exact he ▸ Option.isSome_of_mem setInstance_lookup
  case neg => rwa [setInstance_lookup_ne he]

theorem Peer.handle_lookup_isSome {px : Peer n V} {req : Request n V} (hl : (px.instances.lookup seq).isSome) :
    ((px.handle req).1.instances.lookup seq).isSome := by
  by_cases he : seq = req.seq
  case pos => exact he ▸ handle_lookup
  case neg => rwa [handle_lookup_ne he]

theorem Peer.done_lookup {px : Peer n V} : (px.done p k).instances = px.instances := by
  unfold Peer.done
  split <;> rfl

-- A peer has a record of each instance that it has a record of in another state.
def Peer.Keeps (px px' : Peer n V) : Prop :=
  ∀ seq, (px.instances.lookup seq).isSome → (px'.instances.lookup seq).isSome

theorem Peer.Keeps.refl {px : Peer n V} : px.Keeps px :=
  fun _ => id

theorem State.setPeer_keeps {q : Fin n} (h : (s.peers q).Keeps px) (p : Fin n) :
    (s.peers p).Keeps ((s.setPeer q px).peers p) := by
  by_cases he : p = q
  case pos => simpa [State.setPeer, he] using he ▸ h
  case neg => simpa [State.setPeer, he] using .refl

-- A step that does not call `Min` at a peer keeps all of its records.
theorem Step.min_or_keeps (h : Step s s' es) (p : Fin n) :
    (∃ m, .min p m ∈ es) ∨ (s.peers p).Keeps (s'.peers p) := by
  have min {q : Fin n} (hm : .min q (s.minAt q) ∈ es) :
      (∃ m, .min p m ∈ es) ∨ (s.peers p).Keeps ((s.forgetAt q).peers p) := by
    by_cases he : p = q
    case pos => exact .inl ⟨_, he ▸ hm⟩
    case neg => exact .inr <| by simpa [State.forgetAt, State.setPeer, he] using .refl
  cases h
  case min | forgotten | query | check | retry | status => exact min (by simp)
  case done    => exact .inr <| s.setPeer_keeps (fun _ h => by rwa [Peer.done_lookup]) p
  case self    => exact .inr <| s.setPeer_keeps (fun _ => Peer.handle_lookup_isSome) p
  case deliver => exact .inr <| s.setPeer_keeps (fun _ => Peer.handle_lookup_isSome) p
  case learn h => exact .inr <| s.setPeer_keeps (fun _ => Peer.learn_lookup h) p
  all_goals exact .inr .refl

-- `Min` deletes the record of an instance that has been decided.
def Deletes (p : Fin n) (seq : Int) (t : Transition n V) : Prop :=
  (∃ m, .min p m ∈ t.events) ∧ seq ≤ (t.pre.peers p).minDone p ∧
    ∃ inst ∈ (t.pre.peers p).instances.lookup seq, inst.state = .decided

theorem Deletes.lookup {t : Transition n V} (h : Deletes p seq t) : (t.post.peers p).instances.lookup seq = none := by
  have ⟨⟨_, hm⟩, hle, inst, hl, hd⟩ := h
  rw [(Step.of t |>.of_min hm).right]
  by_contra hn
  have ⟨_, hf⟩ := Option.ne_none_iff_exists'.mp hn
  have ⟨hl', h⟩ := Peer.forget_lookup.mp hf
  cases hl.symm.trans hl'
  exact h.elim (not_lt.mpr hle) (· hd)

theorem lookup_of_not_deletes {t : Transition n V} (h : ¬Deletes p seq t)
    (hl : ((t.pre.peers p).instances.lookup seq).isSome) : ((t.post.peers p).instances.lookup seq).isSome := by
  cases Step.of t |>.min_or_keeps p
  case inr hk => exact hk seq hl
  case inl hm =>
    have ⟨inst, hi⟩ := Option.isSome_iff_exists.mp hl
    have ⟨_, hp⟩ := Step.of t |>.of_min hm.choose_spec
    rw [hp]
    refine Option.isSome_of_mem (Peer.forget_lookup.mpr ⟨hi, or_iff_not_imp_right.mpr fun hd => ?_⟩)
    by_contra hlt
    exact h ⟨hm, not_lt.mp hlt, inst, hi, not_not.mp hd⟩

-- A message for the instance has been handled since its record was last deleted.
def Recorded (p : Fin n) (seq : Int) (ts : List (Transition n V)) : Prop :=
  ∀ us u vs, ts = us ++ u :: vs → Deletes p seq u → ∃ e ∈ Machine.events vs, e.Handles p seq

theorem recorded_snoc {t : Transition n V} : Recorded p seq (ts ++ [t]) ↔
    (Recorded p seq ts ∨ ∃ e ∈ t.events, e.Handles p seq) ∧ ¬Deletes p seq t := by
  constructor
  case mp =>
    intro h
    refine ⟨?_, fun hd => ?_⟩
    case refine_2 => simpa using h ts t [] rfl hd
    case refine_1 =>
      refine or_iff_not_imp_right.mpr fun hn us u vs hs hd => ?_
      have ⟨e, he, hh⟩ := h us u (vs ++ [t]) (by simp [hs]) hd
      rw [Machine.events_append, Machine.events_singleton] at he
      exact ⟨e, (List.mem_append.mp he).resolve_right fun he => hn ⟨e, he, hh⟩, hh⟩
  case mpr =>
    intro ⟨h, hn⟩ us u vs hs hd
    cases vs using List.reverseRecOn
    case nil =>
      have ⟨_, he⟩ := List.append_inj' hs rfl
      exact absurd ((List.cons.inj he).left ▸ hd) hn
    case append_singleton vs w _ =>
      have ⟨hs', he⟩ := List.append_inj' (by simpa using hs : ts ++ [t] = (us ++ u :: vs) ++ [w]) rfl
      have he := (List.cons.inj he).left
      subst he
      rw [Machine.events_append, Machine.events_singleton]
      cases h
      case inl h =>
        have ⟨e, he, hh⟩ := h us u vs hs' hd
        exact ⟨e, List.mem_append_left _ he, hh⟩
      case inr h =>
        have ⟨e, he, hh⟩ := h
        exact ⟨e, List.mem_append_right _ he, hh⟩

theorem isSome_lookup_iff (r : (peers n V).Run ts s) : ((s.peers p).instances.lookup seq).isSome ↔
    (∃ e ∈ Machine.events ts, e.Handles p seq) ∧ Recorded p seq ts := by
  induction r
  case nil => simp [State.init, Peer.make]
  case snoc ts t r hi =>
    rw [recorded_snoc, Machine.events_append, Machine.events_singleton]
    by_cases hh : ∃ e ∈ t.events, e.Handles p seq
    case pos =>
      have hl := Step.of t |>.lookup_of_handles hh
      have hd : ¬Deletes p seq t := fun hd => by simp [hd.lookup] at hl
      refine ⟨fun _ => ⟨?_, .inr hh, hd⟩, fun _ => hl⟩
      exact hh.imp fun _ => And.imp_left <| List.mem_append_right _
    case neg =>
      by_cases hd : Deletes p seq t
      case pos => simp [hd.lookup, hd]
      case neg =>
        have hkeep : ((t.post.peers p).instances.lookup seq).isSome ↔
            ((t.pre.peers p).instances.lookup seq).isSome := by
          refine ⟨fun hl => ?_, lookup_of_not_deletes hd⟩
          by_contra hn
          have hn := Step.of t |>.peer p |>.lookup_none (by simpa using hn)
            fun req reply he hr => hh ⟨_, he, rfl, hr⟩
          simp [hn] at hl
        simp only [hkeep, hi, hd, hh, or_false, not_false_eq_true, and_true, List.mem_append]
        simp only [or_and_right, exists_or, hh, or_false]

-- The own peer has been asked to promise.
def Phase.Past (p : Fin n) (i : Nat) : Phase n V → Prop
  | .sendPrepare .. => p < i
  | _               => True

def Pc.Past (p : Fin n) : Pc n V → Prop
  | .loop phase i _ => phase.Past p i
  | .decide ..      => True
  | .announce ..    => True
  | _               => False

theorem Phase.past_receive {phase : Phase n V} : (phase.receive r).Past p i ↔ phase.Past p i := by
  cases phase <;> cases r <;> simp only [receive]
  all_goals
    split <;> try split
    all_goals exact .rfl

theorem Phase.past_succ {phase : Phase n V} (h : phase.Past p (i + 1)) (hi : i ≠ p) : phase.Past p i := by
  cases phase
  case sendPrepare =>
    have hlt : p < i + 1 := h
    exact (by omega : p < i)
  all_goals exact trivial

theorem Phase.past_exit {phase : Phase n V} (h : phase.exit.Past p) (hi : n ≤ i) : phase.Past p i := by
  cases phase
  case sendPrepare => exact p.isLt.trans_le hi
  all_goals exact trivial

theorem Phase.exit_ne {phase : Phase n V} : phase.exit ≠ .loop phase' i (some c) := by
  cases phase <;> simp only [exit]
  case sendDecide => simp
  all_goals split <;> simp

-- A goroutine that is past its own peer has left a message for its instance there.
structure Thread.Opened (es : List (Event n V)) (th : Thread n V) : Prop where
  other   : ∀ phase i c, th.pc = .loop phase i (some c) → i ≠ th.peer
  handled : th.pc.Past th.peer → ∃ e ∈ es, e.Handles th.peer th.seq

def State.Opened (es : List (Event n V)) (s : State n V) : Prop :=
  s.All (fun _ _ => True) (fun _ th => th.Opened es) fun _ _ => True

theorem Thread.Opened.mono {th : Thread n V} (h : th.Opened es₁) : th.Opened (es₁ ++ es₂) where
  other      := h.other
  handled hp :=
    have ⟨e, he, hh⟩ := h.handled hp
    ⟨e, List.mem_append_left _ he, hh⟩

-- A goroutine goes on without a call.
theorem Thread.Opened.go {th : Thread n V} {pc : Pc n V} (hc : ∀ phase i c, pc ≠ .loop phase i (some c))
    (hp : pc.Past th.peer → ∃ e ∈ es, e.Handles th.peer th.seq) : Thread.Opened es { th with pc := pc } :=
  ⟨fun phase i c he => absurd he <| hc phase i c, hp⟩

theorem Phase.request_seq {phase : Phase n V} (h : ∀ args, phase ≠ .sendDecide args) :
    (phase.request seq).seq = seq := by
  cases phase
  case sendDecide args => exact absurd rfl (h args)
  all_goals rfl

theorem Step.opened (h : Step s s' es₂) (hs : s.Opened es₁) : s'.Opened (es₁ ++ es₂) := by
  replace hs : s.Opened (es₁ ++ es₂) := hs.mono (fun _ => id) (fun _ _ _ => .mono) fun _ _ _ => id
  have handled {t th pc} (here : s.At t th pc) (hp : pc.Past th.peer) :
      ∃ e ∈ es₁ ++ es₂, e.Handles th.peer th.seq :=
    hs.thread _ _ here.thread |>.handled <| here.pc.symm ▸ hp
  have other {t th phase i c} (here : s.At t th (.loop phase i (some c))) : i ≠ th.peer :=
    hs.thread _ _ here.thread |>.other _ _ _ here.pc
  cases h
  case start    => exact hs.spawn ⟨nofun, nofun⟩
  case query    => exact hs.setPeer trivial |>.spawn ⟨nofun, nofun⟩
  case max      => exact hs
  case crash    => exact hs.crash
  case deliver hp => exact hs.setPeer trivial |>.answer hp trivial
  case done | min | forgotten => exact hs.setPeer trivial
  case check =>
    refine hs.setPeer trivial |>.setThread ?_
    split <;> exact .go (by simp) nofun
  case lookup =>
    refine hs.setThread ?_
    split <;> exact .go (by simp) nofun
  case retry | status   => exact hs.setPeer trivial |>.setThread <| .go (by simp) nofun
  case propose | answer => exact hs.setThread <| .go (by simp) nofun
  case learn here _     => exact hs.setPeer trivial |>.setThread <| .go (by simp) fun _ => handled here trivial
  case announce here    => exact hs.setThread <| .go (by simp) fun _ => handled here trivial
  case skip here        => exact hs.setThread <| .go (by simp) fun _ => handled here trivial
  case self hr          =>
    refine hs.setPeer trivial |>.setThread <| .go (by simp) fun _ => ?_
    exact ⟨_, List.mem_append_right _ List.mem_cons_self, rfl, Phase.request_seq hr⟩
  case send here hi     =>
    have hp := handled here
    refine hs.send trivial |>.setThread ⟨fun _ _ _ he => ?_, hp⟩
    cases he
    exact Fin.val_ne_of_ne hi
  case exit here hi     =>
    exact hs.setThread <| .go (fun _ _ _ => Phase.exit_ne) fun hp => handled here <| Phase.past_exit hp hi
  case receive here _ | fail here =>
    refine hs.setThread <| .go (by simp) fun hp => handled here ?_
    exact Phase.past_succ (Phase.past_receive.mp hp) (other here)

theorem opened_of_run (r : (peers n V).Run ts s) : s.Opened (Machine.events ts) := by
  induction r
  case nil         => exact .init fun _ => trivial
  case snoc t _ hi => simpa using Step.of t |>.opened hi

-- A goroutine that is about to learn its value finds the record of the instance, unless `Min` has
-- deleted it in the meantime. Otherwise the peer crashes.
theorem isSome_iff_recorded (r : (peers n V).Run ts s) (here : s.At t th (.decide pnum v)) :
    ((s.peers th.peer).instances.lookup th.seq).isSome ↔ Recorded th.peer th.seq ts := by
  have ho := opened_of_run r |>.thread _ _ here.thread |>.handled
  rw [here.pc] at ho
  rw [isSome_lookup_iff r]
  exact and_iff_right (ho trivial)

-- Both peers propose a value for instance 0. Peer 1 decides its value and announces it, and is done with
-- the instance. Peer 0 has got all votes for the value.
def twoProposers : List (Action 2 Nat) :=
  [.start 1 0 (some 8), .run 0 "", .run 0 "1", .run 0 "", .deliver 0, .receive 0, .run 0 "", .run 0 "",
    .run 0 "", .deliver 1, .receive 0, .run 0 "", .run 0 "", .done 1 0, .run 0 "", .run 0 "", .run 0 "",
    .start 0 0 (some 7), .run 1 "", .run 1 "2", .run 1 "", .run 1 "", .deliver 3, .receive 1, .run 1 "",
    .run 1 "", .run 1 "", .deliver 4, .receive 1, .run 1 "", .deliver 2, .done 0 0]

theorem isSome_iff_recorded_twoProposers :
    Recorded 0 0 ((peers 2 Nat).trace .init twoProposers).1 :=
  have here : State.At _ 1 ⟨0, 0, some 7, .decide "2" (some 8)⟩ _ := ⟨by rfl, rfl⟩
  isSome_iff_recorded ((peers 2 Nat).path_trace .init twoProposers) here |>.mp (by decide +kernel)

-- `Min` deletes the record at peer 0 before it learns the value.
theorem exists_crash :
    ∃ (ts : List (Transition 2 Nat)) (s : _), (peers 2 Nat).Run ts s ∧
      (∃ th, s.At 1 th (.decide "2" (some 8)) ∧ (s.peers th.peer).instances.lookup th.seq = none) ∧
      ∃ s', (peers 2 Nat).step s (.run 1 "") = some (s', []) ∧ s'.crashed 0 := by
  let as := twoProposers ++ [.min 0]
  let th : Thread 2 Nat := ⟨0, 0, some 7, .decide "2" (some 8)⟩
  exact ⟨_, _, (peers 2 Nat).path_trace .init as, ⟨th, ⟨by rfl, rfl⟩, by rfl⟩, _, by rfl, by rfl⟩

end Paxos

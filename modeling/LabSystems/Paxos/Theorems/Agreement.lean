import LabSystems.Paxos.Theorems.Shadow

namespace Paxos

-- The consensus protocol as it is run for one instance, together with the number of proposals that
-- each goroutine has made and the tag of each call.
structure Shadow (n : Nat) (V : Type) where
  synod   : Consensus n V
  attempt : Nat → Nat
  caller  : Nat → Nat × Nat

variable {n : Nat} {V : Type} {s s' : State n V} {g : Shadow n V} {a : Consensus n V}
  {es es₁ es₂ : List (Event n V)} {seq : Int} {t : Nat} {p : Fin n}
  {cs cs' : Calls (Fin n × Request n V) (Reply V)} {v : Option V} {pc : Pc n V}

def Shadow.tag (g : Shadow n V) (t : Nat) : Nat × Nat :=
  (t, g.attempt t)

-- What a goroutine that works on the instance knows.
def Pc.Shows (g : Shadow n V) (cs : Calls (Fin n × Request n V) (Reply V)) (t : Nat) (seq : Int)
    (v : Option V) : Pc n V → Prop
  | start | propose | status | lookup => g.synod.started v
  | loop phase i c =>
    g.synod.started v ∧ phase.Backed g.synod (g.tag t) v i ∧
      ∀ k, c = some k → g.caller k = g.tag t ∧ ∃ p : Fin n, p.val = i ∧ cs.Carries k (p, phase.request seq)
  | decide pnum value | announce pnum value => g.synod.started v ∧ g.synod.decided pnum value
  | query | finished => True

structure Shadow.Covers (g : Shadow n V) (c : Nat) (call : Call (Fin n × Request n V) (Reply V)) :
    Prop where
  request : call.request.2.Backed g.synod
  reply   : ∀ r, call.reply = some r → r.Backed g.synod (g.caller c) call.request.1 call.request.2

def State.Shows (seq : Int) (g : Shadow n V) (s : State n V) : Prop :=
  s.All (fun p px => px.Shows seq g.synod p)
    (fun t th => th.seq = seq → th.pc.Shows g s.calls t seq th.v)
    (fun c call => call.request.2.seq = seq → g.Covers c call)

-- What an observer sees is backed by the protocol.
structure Shadow.Sound (seq : Int) (es : List (Event n V)) (g : Shadow n V) : Prop where
  inv     : Synod.Inv (quorums n) g.synod
  started : ∀ {v}, g.synod.started v → ∃ p, .start p seq v ∈ es
  status  : ∀ {p v}, .status p seq .decided v ∈ es → ∃ b, g.synod.decided b v
  unused  : ∀ {b t k v}, g.synod.proposed b (t, k) v → k < g.attempt t

theorem Pc.Shows.mono {g' : Shadow n V} (h : pc.Shows g cs t seq v)
    (hg : Synod.Grows g.synod g'.synod) (ht : g'.tag t = g.tag t)
    (hc : ∀ k r, cs.Carries k r → cs'.Carries k r ∧ g'.caller k = g.caller k) :
    pc.Shows g' cs' t seq v := by
  cases pc
  case loop phase i c =>
    have ⟨hs, hb, hw⟩ := h
    refine ⟨hg.started hs, ht ▸ hb.mono hg, fun k hk => ?_⟩
    have ⟨hk, p, hi, hr⟩ := hw k hk
    have ⟨hr, he⟩ := hc k _ hr
    exact ⟨he.trans hk |>.trans ht.symm, p, hi, hr⟩
  case decide | announce => exact h.imp hg.started hg.decided
  case query | finished  => trivial
  all_goals exact hg.started h

theorem Shadow.Covers.mono {g' : Shadow n V} {c : Nat}
    {call : Call (Fin n × Request n V) (Reply V)} (h : g.Covers c call)
    (hg : Synod.Grows g.synod g'.synod) (hc : g'.caller c = g.caller c) : g'.Covers c call :=
  ⟨h.request.mono hg, fun r hr => hc ▸ (h.reply r hr).mono hg⟩

namespace State.Shows

-- The protocol goes on without the acceptors.
theorem grow (h : s.Shows seq g) (hg : Synod.Grows g.synod a)
    (hp : ∀ p, (s.peers p).Shows seq g.synod p → (s.peers p).Shows seq a p) :
    s.Shows seq { g with synod := a } :=
  h.mono hp (fun _ _ _ ht he => (ht he).mono hg rfl fun _ _ h => ⟨h, rfl⟩)
    (fun _ _ _ hc he => (hc he).mono hg rfl)

theorem answer {px : Peer n V} (h : s.Shows seq g) (ha : Synod.Answer g.synod p a)
    (hp : px.Shows seq a p) : (s.setPeer p px).Shows seq { g with synod := a } where
  peer i := by
    by_cases he : i = p
    case pos => simpa [State.setPeer, he] using hp
    case neg => simpa [State.setPeer, he] using h.peer i |>.mono ha he
  thread t th hm he := (h.thread t th hm he).mono ha.grows rfl fun _ _ h => ⟨h, rfl⟩
  call c call hm he := (h.call c call hm he).mono ha.grows rfl

theorem start (h : s.Shows seq g) : s.Shows seq { g with synod := g.synod.start v } :=
  h.grow (Synod.Step.grows <| .start (q := quorums n)) fun _ hp =>
    ⟨hp.promised, hp.accepted, hp.value, hp.learned⟩

theorem decide (h : s.Shows seq g) :
    s.Shows seq { g with synod := g.synod.decide pnum v } :=
  h.grow ⟨id, id, id, id, .inl⟩ fun _ hp => ⟨hp.promised, hp.accepted, hp.value, hp.learned⟩

theorem send {req : Request n V} (τ : Nat × Nat) (h : s.Shows seq g) (hb : req.seq = seq → req.Backed g.synod) :
    (s.setCalls <| s.calls.send (p, req)).Shows seq
      { g with caller := Function.update g.caller s.calls.length τ } := by
  have keep {k} (hk : k < s.calls.length) :
      Function.update g.caller s.calls.length τ k = g.caller k :=
    Function.update_of_ne hk.ne ..
  refine All.mono h (fun _ => id) (fun _ _ _ ht he => ?thread) (fun _ _ hm hc he => ?call)
    |>.send fun he => ⟨hb he, by simp⟩
  case thread => exact (ht he).mono (.refl _) rfl fun _ _ hk => ⟨hk.send, keep hk.lt⟩
  case call => exact (hc he).mono (.refl _) <| keep (List.getElem?_eq_some_iff.mp hm).choose

theorem reply {req : Request n V} {r : Reply V} (h : s.Shows seq g)
    (hc : s.calls.pending c = some (p, req))
    (hr : req.seq = seq → r.Backed g.synod (g.caller c) p req) :
    (s.setCalls <| s.calls.answer c r).Shows seq g := by
  refine All.mono h (fun _ => id) (fun _ _ _ ht he => ?thread) (fun _ _ _ => id)
    |>.answer hc fun he => ?call
  case thread => exact (ht he).mono (.refl _) rfl fun _ _ hk => ⟨hk.answer, rfl⟩
  case call =>
    have hb := h.call c _ (Calls.pending_eq_some.mp hc) he
    exact ⟨hb.request, fun r' hr' => Option.some.inj hr' ▸ hr he⟩

end State.Shows

namespace Shadow.Sound

-- Events that do not show a decision of the instance can be ignored.
theorem quiet (h : g.Sound seq es₁) (hq : ∀ p v, .status p seq .decided v ∉ es₂) :
    g.Sound seq (es₁ ++ es₂) where
  inv       := h.inv
  started h' := (h.started h').imp fun _ => List.mem_append_left _
  status h'  := h.status <| List.mem_append.mp h' |>.resolve_right <| hq _ _
  unused    := h.unused

theorem call (h : g.Sound seq es) : Shadow.Sound seq es { g with caller := f } :=
  ⟨h.inv, h.started, h.status, h.unused⟩

theorem answer (h : g.Sound seq es) (ha : Synod.Answer g.synod p a) :
    Shadow.Sound seq es { g with synod := a } where
  inv        := h.inv.step <| .answer ha
  started h' := h.started <| ha.started_eq ▸ h'
  status h'  := (h.status h').imp fun _ => ha.grows.decided
  unused h'  := h.unused <| ha.proposed_eq ▸ h'

theorem start (h : g.Sound seq es₁) (hm : .start p seq v ∈ es₂) (hq : ∀ p v, .status p seq .decided v ∉ es₂) :
    Shadow.Sound seq (es₁ ++ es₂) { g with synod := g.synod.start v } where
  inv := h.inv.step .start
  started := by
    rintro _ (h' | rfl)
    case inl => exact h.quiet hq |>.started h'
    case inr => exact ⟨p, List.mem_append_right _ hm⟩
  status h' := h.quiet hq |>.status h'
  unused h' := h.unused h'

theorem decide (h : g.Sound seq es) (hp : g.synod.proposed pnum τ v)
    (hc : Counted (fun p => g.synod.voted p pnum v ∨ g.synod.DecidedUpTo pnum) i num)
    (hm : majority n ≤ num) : Shadow.Sound seq es { g with synod := g.synod.decide pnum v } where
  inv        := h.inv.step <| .decide hp (hc.isQuorum hm) fun _ => id
  started h' := h.started h'
  status h'  := (h.status h').imp fun _ => .inl
  unused h'  := h.unused h'

end Shadow.Sound

theorem Peer.Sound.min_record {px : Peer n V} (h : px.Sound es) (hn : ∀ i d, .done i d ∉ es)
    (hz : 0 ≤ seq) : (px.min p).1.record seq = px.record seq := by
  refine record_eq_of_lookup_eq <| forget_lookup_of_lt ?_
  have hd := h.announced p |>.mem
  rw [doneCalls_eq_nil.mpr hn p] at hd
  have := px.minDone_le p p
  simp at hd
  omega

structure Refines (seq : Int) (es : List (Event n V)) (s : State n V) (g : Shadow n V) : Prop where
  sound : g.Sound seq es
  shows : s.Shows seq g

namespace Refines

theorem handle {req : Request n V} (p : Fin n) (τ : Nat × Nat) (h : Refines seq es s g)
    (hb : req.seq = seq → req.Backed g.synod) :
    ∃ a, Synod.Grows g.synod a ∧
      Refines seq es (s.setPeer p ((s.peers p).handle req).1) { g with synod := a } ∧
      (req.seq = seq → ((s.peers p).handle req).2.Backed a τ p req) := by
  by_cases he : req.seq = seq
  case pos =>
    have hp : (s.peers p).Shows req.seq g.synod p := he ▸ h.shows.peer p
    have ⟨a, ha, hp, hr⟩ := hp.handle τ (hb he)
    exact ⟨a, ha.grows, ⟨h.sound.answer ha, h.shows.answer ha (he ▸ hp)⟩, fun _ => hr⟩
  case neg =>
    have hl := Peer.record_eq_of_lookup_eq <| (s.peers p).handle_lookup_ne (Ne.symm he)
    exact ⟨_, .refl _, ⟨h.sound, h.shows.setPeer <| h.shows.peer p |>.of_record_eq hl⟩, (absurd · he)⟩

-- A goroutine leaves the loop of `sendPrepare` with a majority of promises.
theorem propose {th : Thread n V} (h : Refines seq es s g)
    (hs : g.synod.started th.v)
    (hb : (Phase.sendPrepare pnum num replyPnum replyValue).Backed g.synod (g.tag t) th.v i)
    (hm : majority n ≤ num) :
    ∃ g', Refines seq es
      (s.setThread t th (.loop (.sendAccept pnum replyValue 0) 0 none)) g' := by
  have grows : Synod.Grows g.synod (g.synod.propose pnum (g.tag t) replyValue) :=
    ⟨id, id, .inl, id, id⟩
  refine ⟨⟨g.synod.propose pnum (g.tag t) replyValue, Function.update g.attempt t (g.attempt t + 1),
    g.caller⟩, ?sound, ?shows⟩
  case sound =>
    constructor
    case inv =>
      refine h.sound.inv.step <| .propose (fun w hp => ?_) (hb.right.left.isQuorum hm) (hb.choice hs)
      exact Nat.lt_irrefl _ <| h.sound.unused hp
    case started => exact h.sound.started
    case status  => exact h.sound.status
    case unused =>
      rintro b t' k v (hp | ⟨rfl, hk, rfl⟩)
      case inl =>
        have hk := h.sound.unused hp
        by_cases he : t' = t
        case pos => simpa [he] using Nat.lt_succ_of_lt (he ▸ hk)
        case neg => simpa [he] using hk
      case inr =>
        cases hk
        simp
  case shows =>
    constructor
    case peer =>
      intro p
      have hp := h.shows.peer p
      exact ⟨hp.promised, hp.accepted, hp.value, hp.learned⟩
    case call => exact fun c call hc he => (h.shows.call c call hc he).mono grows rfl
    case thread =>
      refine List.forall_set (fun t' th' hn ht' he => ?_) fun _ => ?_
      case refine_1 =>
        refine (h.shows.thread t' th' ht' he).mono grows ?_ fun _ _ h => ⟨h, rfl⟩
        simp [Shadow.tag, hn]
      case refine_2 => exact ⟨hs, ⟨⟨_, .inr ⟨rfl, rfl, rfl⟩⟩, .zero⟩, by simp⟩

-- What a goroutine knows that works on the instance.
theorem here (h : Refines seq es s g) (ha : s.At t th pc) (he : th.seq = seq) : pc.Shows g s.calls t seq th.v :=
  ha.pc ▸ h.shows.thread t th ha.thread he

theorem quiet (h : Refines seq es₁ s g) (hq : ∀ p v, .status p seq .decided v ∉ es₂) : Refines seq (es₁ ++ es₂) s g :=
  ⟨h.sound.quiet hq, h.shows⟩

theorem setThread {th : Thread n V} (h : Refines seq es s g) (hp : th.seq = seq → pc.Shows g s.calls t seq th.v) :
    Refines seq es (s.setThread t th pc) g :=
  ⟨h.sound, h.shows.setThread hp⟩

-- The request that a goroutine makes next is backed if it is about the instance.
theorem request (h : Refines seq es s g) (hs : s.Sound es) (ha : s.At t th (.loop phase i none)) :
    (phase.request th.seq).seq = th.seq ∧ ((phase.request th.seq).seq = seq → (phase.request th.seq).Backed g.synod) := by
  have seq_eq := (hs.thread t th ha.thread).request _ _ _ ha.pc |>.right
  exact ⟨seq_eq, fun he => (h.here ha <| seq_eq ▸ he).right.left.request⟩

theorem self (h : Refines seq es s g) (hs : s.Sound es) (ha : s.At t th (.loop phase th.peer none)) :
    ∃ g', Refines seq es ((s.setPeer th.peer ((s.peers th.peer).handle (phase.request th.seq)).1).setThread t th
      (.loop (phase.receive ((s.peers th.peer).handle (phase.request th.seq)).2) (th.peer + 1) none)) g' := by
  have ⟨seq_eq, hb⟩ := h.request hs ha
  obtain ⟨a, hg, h', hr⟩ := h.handle th.peer (g.tag t) hb
  refine ⟨_, h'.setThread fun he => ?_⟩
  obtain ⟨h₁, h₂, _⟩ := h.here ha he
  exact ⟨hg.started h₁, h₂.mono hg |>.receive <| hr <| seq_eq.trans he, by simp⟩

theorem send {i : Fin n} (h : Refines seq es s g) (hs : s.Sound es) (ha : s.At t th (.loop phase i none)) :
    ∃ g', Refines seq es ((s.setCalls <| s.calls.send (i, phase.request th.seq)).setThread t th
      (.loop phase i (some s.calls.length))) g' := by
  have ⟨_, hb⟩ := h.request hs ha
  refine ⟨_, h.sound.call, h.shows.send (g.tag t) hb |>.setThread fun he => ?_⟩
  obtain ⟨h₁, h₂, _⟩ := h.here ha he
  refine ⟨h₁, h₂, fun k hk => ?_⟩
  cases hk
  exact ⟨by simp [Shadow.tag], i, rfl, he ▸ Calls.carries_self⟩

theorem receive (h : Refines seq es s g) (hs : s.Sound es) (ha : s.At t th (.loop phase i (some c)))
    (hc : s.calls.reply c = some r) : Refines seq es (s.setThread t th (.loop (phase.receive r) (i + 1) none)) g := by
  refine h.setThread fun he => ?_
  obtain ⟨h₁, h₂, hw⟩ := h.here ha he
  obtain ⟨ht, p, rfl, _, hm⟩ := hw c rfl
  obtain ⟨req, hr⟩ := Calls.reply_eq_some.mp hc
  cases hr.symm.trans hm
  have seq_eq := (hs.thread t th ha.thread).request _ _ _ ha.pc |>.right
  have hr := (h.shows.call c _ hm <| he ▸ seq_eq).reply r rfl
  exact ⟨h₁, h₂.receive <| ht ▸ hr, by simp⟩

theorem fail (h : Refines seq es s g) (ha : s.At t th (.loop phase i (some c))) :
    Refines seq es (s.setThread t th (.loop (phase.receive phase.noReply) (i + 1) none)) g := by
  refine h.setThread fun he => ?_
  obtain ⟨h₁, h₂, hw⟩ := h.here ha he
  obtain ⟨_, p, rfl, _⟩ := hw c rfl
  exact ⟨h₁, h₂.receive <| phase.noReply_backed seq, by simp⟩

-- A peer learns a decision of its own goroutine.
theorem learn (h : Refines seq es s g) (ha : s.At t th (.decide pnum value))
    (hl : (s.peers th.peer).learn th.seq pnum value = some px) :
    ∃ g', Refines seq es ((s.setPeer th.peer px).setThread t th (.announce pnum value)) g' := by
  by_cases he : th.seq = seq
  case pos =>
    obtain ⟨h₁, h₂⟩ := h.here ha he
    have hs := Synod.Answer.learn (a := th.peer) h₂
    have hp := Peer.Shows.learn (a := g.synod) (p := th.peer) (he ▸ hl)
    exact ⟨_, h.sound.answer hs, h.shows.answer hs hp |>.setThread fun _ => ⟨h₁, h₂⟩⟩
  case neg =>
    obtain ⟨hp, _⟩ := Peer.learn_eq_some hl
    have hl := Peer.record_eq_of_lookup_eq <| hp ▸ Peer.setInstance_lookup_ne (Ne.symm he)
    exact ⟨g, h.sound, h.shows.setPeer (h.shows.peer th.peer |>.of_record_eq hl) |>.setThread (absurd · he)⟩

-- A goroutine proposes, decides or begins again after its calls.
theorem exit (h : Refines seq es s g) (ha : s.At t th (.loop phase i none)) :
    ∃ g', Refines seq es (s.setThread t th phase.exit) g' := by
  by_cases he : th.seq = seq
  case neg => exact ⟨g, h.setThread (absurd · he)⟩
  case pos =>
    obtain ⟨h₁, h₂, _⟩ := h.here ha he
    cases phase <;> simp only [Phase.exit]
    case sendDecide => exact ⟨g, h.setThread fun _ => trivial⟩
    all_goals
      split
      case isFalse => exact ⟨g, h.setThread fun _ => h₁⟩
    case sendPrepare.isTrue hm => exact h.propose h₁ h₂ hm
    case sendAccept.isTrue hm =>
      obtain ⟨⟨_, hp⟩, hc⟩ := h₂
      exact ⟨_, h.sound.decide hp hc hm, h.shows.decide.setThread fun _ => ⟨h₁, .inr ⟨rfl, rfl⟩⟩⟩

end Refines

-- A decision that a peer shows is a decision of the protocol.
theorem Refines.status (h : Refines seq es s g) (hl : (s.peers p).lookup k = (fate, v)) :
    Refines seq (es ++ [.status p k fate v]) s g := by
  refine ⟨{ h.sound with started := ?started, status := ?status }, h.shows⟩
  case started => exact fun hs => (h.sound.started hs).imp fun _ => List.mem_append_left _
  case status =>
    intro p' w hm
    cases List.mem_append.mp hm
    case inl hm => exact h.sound.status hm
    case inr hm =>
      cases List.mem_singleton.mp hm
      have hp := h.shows.peer p
      simp only [Peer.lookup] at hl
      split at hl
      case h_1 => cases hl
      case h_2 inst hi =>
        have he : (s.peers p).record seq = inst := by simp [Peer.record, hi]
        have hd := hp.learned <| he ▸ (Prod.mk.inj hl).left
        have hv : g.synod.value p = v := hp.value.trans <| he ▸ (Prod.mk.inj hl).right
        exact hv ▸ h.sound.inv.decided_of_learned hd

theorem Step.refines (h : Step s s' es₂) (hr : Refines seq es₁ s g) (hs : s.Sound es₁)
    (hn : ∀ i d, .done i d ∉ es₁ ++ es₂) (hz : 0 ≤ seq) : ∃ g', Refines seq (es₁ ++ es₂) s' g' := by
  -- A call of `Min` only forgets records that are not of the instance.
  have forget {p} : Refines seq es₁ (s.forgetAt p) g :=
    ⟨hr.sound, hr.shows.setPeer <| hr.shows.peer p |>.of_record_eq <| (hs.peer p).min_record
      (fun i d h => hn i d <| List.mem_append_left _ h) hz⟩
  cases h
  case start p k v =>
    by_cases he : k = seq
    case pos =>
      subst he
      exact ⟨_, hr.sound.start (p := p) (by simp) (by simp), hr.shows.start.spawn fun _ => .inr rfl⟩
    case neg => exact ⟨g, hr.sound.quiet <| by simp, hr.shows.spawn (absurd · he)⟩
  case done => exact absurd (List.mem_append_right _ <| List.mem_singleton_self _) (hn _ _)
  case min | forgotten => exact ⟨g, forget.quiet <| by simp⟩
  case max => exact ⟨g, hr.quiet <| by simp⟩
  case query => exact ⟨g, hr.sound.quiet <| by simp, forget.shows.spawn fun _ => trivial⟩
  case crash => exact ⟨g, hr.sound.quiet <| by simp, hr.shows.crash⟩
  case check h =>
    refine ⟨g, forget.setThread (fun he => ?_) |>.quiet <| by simp⟩
    have hs : g.synod.started _ := hr.here h he
    split
    case isTrue  => trivial
    case isFalse => exact hs
  case retry h _ | status h _ =>
    refine ⟨g, forget.setThread (fun he => ?_) |>.quiet <| by simp⟩
    have hs : g.synod.started _ := hr.here h he
    exact hs
  case propose h hp =>
    refine ⟨g, hr.setThread (fun he => ?_) |>.quiet <| by simp⟩
    have hs : g.synod.started _ := hr.here h he
    exact ⟨hs, ⟨hp, .zero, fun _ => rfl, absurd rfl⟩, by simp⟩
  case skip h =>
    refine ⟨g, hr.setThread (fun he => ?_) |>.quiet <| by simp⟩
    obtain ⟨h₁, h₂, _⟩ := hr.here h he
    exact ⟨h₁, h₂, by simp⟩
  case announce h =>
    refine ⟨g, hr.setThread (fun he => ?_) |>.quiet <| by simp⟩
    obtain ⟨h₁, h₂⟩ := hr.here h he
    exact ⟨h₁, h₂, by simp⟩
  case self h _ =>
    obtain ⟨g', h'⟩ := hr.self hs h
    exact ⟨g', h'.quiet <| by simp⟩
  case deliver c p req hp =>
    have hc := hr.shows.call c _ <| Calls.pending_eq_some.mp hp
    obtain ⟨a, ha, ⟨hg', hr'⟩, hr⟩ := hr.handle p (g.caller c) fun he => (hc he).request
    exact ⟨_, hg'.quiet <| by simp, hr'.reply hp hr⟩
  case learn h hl =>
    obtain ⟨g', h'⟩ := hr.learn h hl
    exact ⟨g', h'.quiet <| by simp⟩
  case lookup h hl =>
    refine ⟨g, hr.status hl |>.setThread fun he => ?_⟩
    have hs : g.synod.started _ := hr.here h he
    split
    case isTrue  => trivial
    case isFalse => exact hs
  case answer hl      => exact ⟨g, hr.status hl |>.setThread fun _ => trivial⟩
  case receive h hc   => exact ⟨g, hr.receive hs h hc |>.quiet <| by simp⟩
  case fail h         => exact ⟨g, hr.fail h |>.quiet <| by simp⟩
  case send h _ =>
    obtain ⟨g', h'⟩ := hr.send hs h
    exact ⟨g', h'.quiet <| by simp⟩
  case exit h _ =>
    obtain ⟨g', h'⟩ := hr.exit h
    exact ⟨g', h'.quiet <| by simp⟩

theorem refines_of_run (r : (peers n V).Run ts s) (hz : 0 ≤ seq)
    (hn : ∀ i d, .done i d ∉ Machine.events ts) : ∃ g, Refines seq (Machine.events ts) s g := by
  induction r
  case nil =>
    refine ⟨⟨.init none, fun _ => 0, fun _ => (0, 0)⟩, ⟨.init none, nofun, nofun, nofun⟩,
      .init fun p => ?peer⟩
    case peer  => exact ⟨rfl, rfl, rfl, nofun⟩
  case snoc ts t r hi =>
    rw [Machine.events_append, Machine.events_singleton] at hn ⊢
    have ⟨g, hr⟩ := hi fun i d hm => hn i d <| List.mem_append_left _ hm
    exact Step.of t |>.refines hr (sound_of_run r) hn hz

-- All peers agree on the decision of an instance, which is one of the values it was started with.
theorem agreement (r : (peers n V).Run ts s) (hz : 0 ≤ seq)
    (hn : ∀ i d, .done i d ∉ Machine.events ts)
    (hv : .status p seq .decided v ∈ Machine.events ts)
    (hw : .status q seq .decided w ∈ Machine.events ts) :
    v = w ∧ ∃ i, .start i seq v ∈ Machine.events ts := by
  have ⟨g, hr⟩ := refines_of_run r hz hn
  have ⟨_, hv⟩ := hr.sound.status hv
  have ⟨_, hw⟩ := hr.sound.status hw
  exact ⟨hr.sound.inv.decided_eq hv hw, hr.sound.started <| hr.sound.inv.started_of_decided hv⟩

-- Peer 0 decides with the help of peer 1, which learns of the decision. Peer 2 can not be reached.
theorem agreement_majority :
    let es := Machine.events <| Prod.fst <| (peers 3 Nat).trace .init
      [.start 0 0 (some 7), .run 0 "", .run 0 "1",
        .run 0 "", .run 0 "", .deliver 0, .receive 0, .run 0 "", .fail 0, .run 0 "",
        .run 0 "", .run 0 "", .deliver 2, .receive 0, .run 0 "", .fail 0, .run 0 "",
        .run 0 "", .run 0 "", .run 0 "", .run 0 "", .deliver 4,
        .status 0 0, .run 1 "", .status 1 0, .run 2 ""]
    ∃ i, .start i 0 (some 7) ∈ es := by
  exact agreement (p := 0) (q := 1) (w := some 7) ((peers 3 Nat).path_trace ..) le_rfl
    (doneCalls_eq_nil.mp <| by decide) (by decide) (by decide) |>.right

end Paxos

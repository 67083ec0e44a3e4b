import LabSystems.Paxos.Theorems.Invariant
import LabSystems.Paxos.Theorems.Peer

namespace Paxos

variable {n : Nat} {V : Type} {s s' : State n V} {es es₁ es₂ : List (Event n V)} {i : Fin n} {d : Int}

-- The arguments of all calls of `Done` at peer `i`.
def doneCalls (es : List (Event n V)) (i : Fin n) : List Int :=
  es.filterMap fun
    | .done p seq => if p = i then some seq else none
    | _           => none

-- The highest number ever passed to `Done` at peer `i`. Instances are numbered from 0, so `-1` stands
-- for none.
def highestDone (es : List (Event n V)) (i : Fin n) : Int :=
  (-1 :: doneCalls es i).max (List.cons_ne_nil _ _)

-- A value which peer `i` may have announced.
structure Announced (es : List (Event n V)) (i : Fin n) (d : Int) : Prop where
  mem : d ∈ -1 :: doneCalls es i
  le  : -1 ≤ d
  lt  : d < 2 ^ 63

-- `Start` only accepts natural numbers, until each peer has been called with the largest number and `Min` wraps.
def Numbered (es : List (Event n V)) (seq : Int) : Prop :=
  0 ≤ seq ∨ ∀ i, .done i (2 ^ 63 - 1) ∈ es

@[simp]
theorem doneCalls_append : doneCalls (es₁ ++ es₂) i = doneCalls es₁ i ++ doneCalls es₂ i :=
  List.filterMap_append

theorem mem_doneCalls : d ∈ doneCalls es i ↔ .done i d ∈ es := by
  simp only [doneCalls, List.mem_filterMap]
  constructor
  case mp =>
    intro ⟨e, hm, he⟩
    cases e <;> simp at he
    exact he.left ▸ he.right ▸ hm
  case mpr => exact fun h => ⟨_, h, by simp⟩

theorem doneCalls_eq_nil : (∀ i, doneCalls es i = []) ↔ ∀ i d, .done i d ∉ es := by
  simp only [List.eq_nil_iff_forall_not_mem, mem_doneCalls]

namespace Announced

theorem none : Announced es i (-1) :=
  ⟨List.mem_cons_self, le_rfl, by decide⟩

theorem mono (h : Announced es₁ i d) : Announced (es₁ ++ es₂) i d :=
  ⟨by simpa [← or_assoc] using Or.inl (by simpa using h.mem), h.le, h.lt⟩

-- The largest number can only have been announced after a call of `Done`.
theorem mem_of_le (h : Announced es i d) (hd : 2 ^ 63 - 1 ≤ d) : .done i (2 ^ 63 - 1) ∈ es := by
  have he : d = 2 ^ 63 - 1 := le_antisymm (Int.le_sub_one_of_lt h.lt) hd
  cases List.mem_cons.mp h.mem
  case inl hn => omega
  case inr hm => exact mem_doneCalls.mp <| he ▸ hm

theorem le_highestDone (h : Announced es i d) : d ≤ highestDone es i :=
  List.le_max_of_mem h.mem

end Announced

theorem Numbered.mono (h : Numbered es₁ d) : Numbered (es₁ ++ es₂) d :=
  h.imp_right fun hd i => List.mem_append_left _ (hd i)

theorem Numbered.of_le {k : Int} (h : Numbered es d) (hle : d ≤ k) : Numbered es k :=
  h.imp_left hle.trans'

-- A number that is at most the highest one is at most one of the numbers that were passed.
theorem exists_done_of_le (hz : Numbered es d) (h : d ≤ highestDone es i) : ∃ k ≥ d, .done i k ∈ es := by
  have hm : highestDone es i ∈ -1 :: doneCalls es i := List.max_mem _
  cases List.mem_cons.mp hm
  case inr hm => exact ⟨_, h, mem_doneCalls.mp hm⟩
  case inl he =>
    cases hz
    case inl hz => omega
    case inr hd => exact ⟨_, by omega, hd i⟩

-- Instances are numbered, and messages carry numbers that their sender has announced.
structure Request.Sound (es : List (Event n V)) (req : Request n V) : Prop where
  numbered  : Numbered es req.seq
  announced : ∀ args, req = .decide args → Announced es args.me args.done

structure Peer.Sound (es : List (Event n V)) (px : Peer n V) : Prop where
  numbered  : ∀ k, (px.instances.lookup k).isSome → Numbered es k
  announced : ∀ i, Announced es i (px.dones i)

structure Thread.Sound (es : List (Event n V)) (th : Thread n V) : Prop where
  numbered : th.pc = .start ∨ th.pc = .finished ∨ Numbered es th.seq
  request  : ∀ phase i c, th.pc = .loop phase i c →
    (phase.request th.seq).Sound es ∧ (phase.request th.seq).seq = th.seq

def State.Sound (es : List (Event n V)) (s : State n V) : Prop :=
  s.All (fun _ px => px.Sound es) (fun _ th => th.Sound es) (fun _ call => call.request.2.Sound es)

theorem Request.Sound.mono {req : Request n V} (h : req.Sound es₁) : req.Sound (es₁ ++ es₂) :=
  ⟨h.numbered.mono, fun args he => h.announced args he |>.mono⟩

namespace Peer.Sound

variable {px px' : Peer n V} {me : Fin n}

theorem make : (make : Peer n V).Sound es where
  numbered _ h := by simp [Peer.make] at h
  announced _  := .none

theorem mono (h : px.Sound es₁) : px.Sound (es₁ ++ es₂) :=
  ⟨fun k hk => h.numbered k hk |>.mono, fun i => h.announced i |>.mono⟩

theorem handle {req : Request n V} (h : px.Sound es) (hr : req.Sound es) :
    (px.handle req).1.Sound es where
  numbered k hk := by
    by_cases he : k = req.seq
    case pos => exact he ▸ hr.numbered
    case neg => exact h.numbered k <| handle_lookup_ne he ▸ hk
  announced i := by
    cases px.handle_dones req
    case inl hd => exact hd ▸ h.announced i
    case inr hd =>
      have ⟨args, he, hd⟩ := hd
      rw [hd]
      by_cases hi : i = args.me
      case pos => simpa [hi] using hr.announced args he
      case neg => simpa [hi] using h.announced i

theorem learn (h : px.Sound es) (hl : px.learn seq pnum v = some px') : px'.Sound es := by
  have ⟨he, hs⟩ := learn_eq_some hl
  refine ⟨fun k hk => ?_, he ▸ h.announced⟩
  by_cases hk' : k = seq
  case pos => exact hk' ▸ h.numbered seq hs
  case neg => exact h.numbered k <| setInstance_lookup_ne hk' ▸ he ▸ hk

theorem min (h : px.Sound es) : (px.min me).1.Sound es where
  numbered k hk := by
    have ⟨_, hl⟩ := Option.isSome_iff_exists.mp hk
    exact h.numbered k <| Option.isSome_of_mem (forget_lookup.mp hl).left
  announced := h.announced

theorem done (h : px.Sound es) (hd : .done me seq ∈ es) (hs : seq < 2 ^ 63) : (px.done me seq).Sound es where
  numbered k hk := by
    refine h.numbered k ?_
    revert hk
    simp only [Peer.done]
    split <;> exact id
  announced i := by
    simp only [Peer.done]
    split
    case isFalse => exact h.announced i
    case isTrue hlt =>
      by_cases hi : i = me
      case neg => simpa [hi] using h.announced i
      case pos =>
        have hle := h.announced me |>.le
        simpa [hi] using ⟨List.mem_cons_of_mem _ <| mem_doneCalls.mpr hd, by omega, hs⟩

theorem numbered_min (h : px.Sound es) (me : Fin n) : Numbered es (px.min me).2 := by
  have hle := le_minDone me fun i => h.announced i |>.le
  simp only [Peer.min, increment]
  split
  case isFalse    => exact .inl <| by omega
  case isTrue hm =>
    refine .inr fun i => h.announced i |>.mem_of_le ?_
    exact hm ▸ px.minDone_le me i

end Peer.Sound

namespace Thread.Sound

variable {th : Thread n V} {pc : Pc n V}

-- A goroutine that has passed the test of `Start`.
theorem numbered_of_pc (h : th.Sound es) (hp : th.pc = pc) (hs : pc ≠ .start) (hf : pc ≠ .finished) :
    Numbered es th.seq :=
  h.numbered.resolve_left (hp ▸ hs) |>.resolve_left (hp ▸ hf)

-- A goroutine goes on outside of a loop.
theorem leave (hz : Numbered es th.seq) (hp : ∀ phase j c, pc ≠ .loop phase j c) :
    Sound es { th with pc := pc } :=
  ⟨.inr <| .inr hz, fun phase j c he => absurd he <| hp phase j c⟩

-- A goroutine goes on in a loop.
theorem loop (hz : Numbered es th.seq)
    (hr : (phase.request th.seq).Sound es ∧ (phase.request th.seq).seq = th.seq) :
    Sound es { th with pc := .loop phase j c } :=
  ⟨.inr <| .inr hz, fun _ _ _ he => by cases he; exact hr⟩

end Thread.Sound

@[simp]
theorem Phase.receive_request {phase : Phase n V} {r : Reply V} :
    (phase.receive r).request seq = phase.request seq := by
  cases phase <;> cases r <;> simp only [receive]
  all_goals
    split <;> try split
    all_goals rfl

theorem Phase.request_sound_exit {phase phase' : Phase n V} (hz : Numbered es seq)
    (he : phase.exit = .loop phase' j c) :
    (phase'.request seq).Sound es ∧ (phase'.request seq).seq = seq := by
  cases phase <;> simp only [exit] at he
  case sendDecide => contradiction
  all_goals
    split at he <;> cases he
  exact ⟨⟨hz, by simp [request]⟩, rfl⟩

theorem Step.sound (h : Step s s' es₂) (hs : s.Sound es₁) : s'.Sound (es₁ ++ es₂) := by
  replace hs : s.Sound (es₁ ++ es₂) := hs.mono (fun _ => .mono)
    (fun _ _ _ h => ⟨h.numbered.imp_right <| Or.imp_right .mono, fun phase i c hp => (h.request phase i c hp).imp .mono id⟩)
    (fun _ _ _ => .mono)
  have seq {t th pc} (here : s.At t th pc) (h₁ : pc ≠ .start) (h₂ : pc ≠ .finished) :
      Numbered (es₁ ++ es₂) th.seq :=
    hs.thread _ _ here.thread |>.numbered_of_pc here.pc h₁ h₂
  have request {t th phase i c} (here : s.At t th (.loop phase i c)) :
      (phase.request th.seq).Sound (es₁ ++ es₂) ∧ (phase.request th.seq).seq = th.seq :=
    hs.thread _ _ here.thread |>.request _ _ _ here.pc
  cases h
  case start => exact hs.spawn ⟨.inl rfl, by simp⟩
  case done  => exact hs.setPeer <| hs.peer _ |>.done (by simp) (Int64.toInt_lt _)
  case max   => exact hs
  case crash => exact hs.crash
  case min | forgotten => exact hs.setPeer (hs.peer _).min
  case query seq p above =>
    have hz := hs.peer p |>.numbered_min p
    refine hs.setPeer (hs.peer _).min |>.spawn ⟨.inr <| .inr ?_, by simp⟩
    exact hz.of_le <| not_lt.mp above
  case check th here =>
    have hz := hs.peer th.peer |>.numbered_min th.peer
    refine hs.setPeer (hs.peer _).min |>.setThread ?_
    split
    case isTrue => exact ⟨.inr <| .inl rfl, by simp⟩
    case isFalse h => exact .leave (hz.of_le <| not_lt.mp h) (by simp)
  case propose here _ =>
    have hz := seq here (by simp) (by simp)
    exact hs.setThread <| .loop hz ⟨⟨by simpa [Phase.request, Request.seq] using hz, by simp [Phase.request]⟩, rfl⟩
  case self here _ =>
    refine hs.setPeer (hs.peer _ |>.handle (request here).left) |>.setThread ?_
    exact .loop (seq here (by simp) (by simp)) (by simpa using request here)
  case skip here => exact hs.setThread <| .loop (seq here (by simp) (by simp)) (request here)
  case send here _ =>
    exact hs.send (request here).left |>.setThread <| .loop (seq here (by simp) (by simp)) (request here)
  case exit phase _ here _ =>
    have hz := seq here (by simp) (by simp)
    exact hs.setThread ⟨.inr <| .inr hz, fun _ _ _ he => phase.request_sound_exit hz he⟩
  case learn here hl =>
    exact hs.setPeer (hs.peer _ |>.learn hl) |>.setThread <|
      .leave (seq here (by simp) (by simp)) (by simp)
  case announce t th _ _ here =>
    have hz := seq here (by simp) (by simp)
    refine hs.setThread <| .loop hz ⟨⟨hz, fun args he => ?_⟩, rfl⟩
    cases he
    exact hs.peer th.peer |>.announced th.peer
  case retry here _ | status here _ =>
    exact hs.setPeer (hs.peer _).min |>.setThread <| .leave (seq here (by simp) (by simp)) (by simp)
  case lookup here _ =>
    refine hs.setThread <| .leave (seq here (by simp) (by simp)) ?_
    split <;> simp
  case answer => exact hs.setThread ⟨.inr <| .inl rfl, by simp⟩
  case deliver hp =>
    have hr := hs.call _ _ <| Calls.pending_eq_some.mp hp
    exact hs.setPeer (hs.peer _ |>.handle hr) |>.answer hp hr
  case receive here _ | fail here =>
    exact hs.setThread <| .loop (seq here (by simp) (by simp)) (by simpa using request here)

theorem sound_of_run (r : (peers n V).Run ts s) : s.Sound (Machine.events ts) := by
  induction r
  case nil       => exact .init fun _ => .make
  case snoc t _ hi => simpa using Step.of t |>.sound hi

-- `Min` deletes only instances up to the minimum of the announced values.
theorem le_minDone_of_deleted {j : Fin n} (hk : ((s.peers j).instances.lookup seq).isSome)
    (hn : ((s.forgetAt j).peers j).instances.lookup seq = none) : seq ≤ (s.peers j).minDone j := by
  by_contra hlt
  have ⟨_, hl⟩ := Option.isSome_iff_exists.mp hk
  have hl := Peer.forget_lookup.mpr ⟨hl, .inl <| not_le.mp hlt⟩
  simp [State.forgetAt, State.setPeer, Peer.min, hl] at hn

-- `Min` does not run ahead of the peers' calls of `Done`.
theorem min_le_highestDone (r : (peers n V).Run ts s) (j : Fin n) :
    (∀ i, s.minAt j ≤ highestDone (Machine.events ts) i + 1) ∧
    ∀ seq, ((s.peers j).instances.lookup seq).isSome →
      ((s.forgetAt j).peers j).instances.lookup seq = none →
      ∀ i, ∃ k ≥ seq, .done i k ∈ Machine.events ts := by
  have hs := sound_of_run r |>.peer j
  have hle i : (s.peers j).minDone j ≤ highestDone (Machine.events ts) i :=
    (s.peers j).minDone_le j i |>.trans (hs.announced i).le_highestDone
  refine ⟨fun i => ?_, fun seq hk hn i => ?_⟩
  case refine_1 => exact (s.peers j).min_le_minDone j |>.trans <| Int.add_le_add_right (hle i) 1
  case refine_2 => exact exists_done_of_le (hs.numbered seq hk) <| le_minDone_of_deleted hk hn |>.trans <| hle i

-- A single peer decides instance 0, is done with it and forgets it.
theorem min_le_highestDone_single :
    let t := (peers 1 Nat).trace .init [.start 0 0 (some 7), .run 0 "", .run 0 "1", .run 0 "", .run 0 "",
      .run 0 "", .run 0 "", .run 0 "", .done 0 0]
    ∀ i, ∃ k ≥ 0, .done i k ∈ Machine.events t.1 :=
  min_le_highestDone ((peers 1 Nat).path_trace ..) 0 |>.right 0 (by decide) (by decide)

end Paxos

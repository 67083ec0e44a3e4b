import LabSystems.Paxos.Theorems.Done
import LabSystems.Paxos.Theorems.Forgotten

namespace Paxos

variable {n : Nat} {V : Type} {s s' : State n V} {es es₁ es₂ : List (Event n V)} {p i : Fin n} {seq m d : Int}
  {ts : List (Transition n V)} {t : Transition n V} {req : Request n V}

namespace Peer

variable {px px' : Peer n V}

-- What `Status` returns if nothing happens after its call of `Min`.
def status (px : Peer n V) (me : Fin n) (seq : Int) : Fate × Option V :=
  if seq < (px.min me).2 then (.forgotten, none) else (px.min me).1.lookup seq

-- No record is marked as forgotten. An instance is forgotten when it has no record.
def Known (px : Peer n V) : Prop :=
  ∀ k inst, px.instances.lookup k = some inst → inst.state ≠ .forgotten

theorem Known.setInstance (h : px.Known) (hi : inst.state ≠ .forgotten) : (px.setInstance k inst).Known := by
  intro k' inst' hl
  by_cases he : k' = k
  case pos =>
    rw [he, setInstance_lookup] at hl
    exact Option.some.inj hl ▸ hi
  case neg => exact h k' inst' <| (setInstance_lookup_ne he).symm.trans hl

theorem Known.handle {req : Request n V} (h : px.Known) : (px.handle req).1.Known := by
  cases req <;> simp only [Peer.handle, prepare, accept, decide]
  case decide => exact h.setInstance (by simp)
  all_goals
    split
    case h_1 => exact h.setInstance (by simp [newInstance])
    case h_2 hl =>
      split
      case isTrue  =>
        have hs := h _ _ hl
        exact h.setInstance hs
      case isFalse => exact h

theorem Step.known (h : Step p es px px') (hk : px.Known) : px'.Known := by
  cases h
  case same       => exact hk
  case handle     => exact hk.handle
  case min        => exact fun k inst hl => hk k inst (forget_lookup.mp hl).left
  case learn hl   => exact (learn_eq_some hl).left ▸ hk.setInstance (by simp)
  case done k     =>
    intro k' inst hl
    refine hk k' inst ?_
    revert hl
    simp only [Peer.done]
    split <;> exact id

-- The last number that is not the largest one is replaced by the largest one.
def Completes (dones : Fin n → Int) (i : Fin n) (d : Int) : Prop :=
  d = 2 ^ 63 - 1 ∧ dones i ≠ 2 ^ 63 - 1 ∧ ∀ j ≠ i, dones j = 2 ^ 63 - 1

instance {dones : Fin n → Int} : Decidable (Completes dones i d) :=
  inferInstanceAs <| Decidable (_ ∧ _)

-- After the largest number, `Min` returns the smallest one.
theorem increment_le_increment_iff (hk : -1 ≤ k) (hm : -1 ≤ m) :
    increment k ≤ increment m ↔ k = 2 ^ 63 - 1 ∨ m ≠ 2 ^ 63 - 1 ∧ k ≤ m := by
  unfold increment
  split <;> split <;> omega

theorem le_minDone_update (hd : px'.dones = Function.update px.dones i d) (hb : b ≤ px.minDone p) :
    b ≤ px'.minDone p ↔ b ≤ d := by
  rw [le_minDone_iff, hd]
  refine ⟨fun h => by simpa using h i, fun h j => ?_⟩
  by_cases hj : j = i
  case pos => simpa [hj] using h
  case neg => simpa [hj] using le_minDone_iff.mp hb j

theorem max_le_minDone_update (hd : px'.dones = Function.update px.dones i d) (hi : d < 2 ^ 63)
    (hr : ∀ j, px.dones j < 2 ^ 63) :
    2 ^ 63 - 1 ≤ px'.minDone p ↔ d = 2 ^ 63 - 1 ∧ ∀ j ≠ i, px.dones j = 2 ^ 63 - 1 := by
  rw [le_minDone_iff, hd]
  constructor
  case mp =>
    intro h
    have hdi := h i
    rw [Function.update_self] at hdi
    refine ⟨by omega, fun j hj => ?_⟩
    have hdj := h j
    rw [Function.update_of_ne hj] at hdj
    exact le_antisymm (Int.le_sub_one_of_lt <| hr j) hdj
  case mpr =>
    intro ⟨he, h⟩ j
    by_cases hj : j = i
    case pos => simp [hj, he]
    case neg => simp [hj, h j hj]

-- What `Min` returns when one of the known numbers is replaced.
theorem min_le_min_update (hd : px'.dones = Function.update px.dones i d) (hl : -1 ≤ d) (hi : d < 2 ^ 63)
    (hr : ∀ j, -1 ≤ px.dones j ∧ px.dones j < 2 ^ 63) :
    (px.min p).2 ≤ (px'.min p).2 ↔ ¬d + 1 < (px.min p).2 ∧ ¬Completes px.dones i d := by
  have hpx : -1 ≤ px.minDone p := le_minDone_iff.mpr fun j => (hr j).left
  have hpx' : -1 ≤ px'.minDone p := (le_minDone_update hd hpx).mpr hl
  have hmax := max_le_minDone_update (p := p) hd hi fun j => (hr j).right
  have hlt' := px'.minDone_le p i
  rw [hd, Function.update_self] at hlt'
  simp only [Peer.min, increment_le_increment_iff hpx hpx', le_minDone_update hd le_rfl, Completes]
  by_cases hm : px.minDone p = 2 ^ 63 - 1
  case pos =>
    have he : px.dones i = 2 ^ 63 - 1 :=
      le_antisymm (Int.le_sub_one_of_lt (hr i).right) <| hm ▸ px.minDone_le p i
    have hd : ¬d + 1 < -2 ^ 63 := by omega
    simp [hm, he, increment] at hd ⊢
    omega
  case neg =>
    have hne : (∀ j ≠ i, px.dones j = 2 ^ 63 - 1) → px.dones i ≠ 2 ^ 63 - 1 := by
      intro h hi
      have hle : 2 ^ 63 - 1 ≤ px.minDone p := by
        refine le_minDone_iff.mpr fun j => ?_
        by_cases hj : j = i
        case pos => rw [hj, hi]
        case neg => rw [h j hj]
      have := px.minDone_le p i
      omega
    simp only [increment, hm, if_false, false_or]
    have hiff : px'.minDone p = 2 ^ 63 - 1 ↔ 2 ^ 63 - 1 ≤ px'.minDone p := by omega
    rw [ne_eq, hiff, hmax, and_comm, not_lt, Int.add_le_add_iff_right]
    refine and_congr_right fun _ => not_congr <| and_congr_right fun _ => ?_
    exact (and_iff_right_of_imp hne).symm

end Peer

theorem known_of_run (r : (peers n V).Run ts s) (p : Fin n) : (s.peers p).Known :=
  r.invariant (I := fun s => (s.peers p).Known) (by simp [State.init, Peer.make, Peer.Known])
    fun t h => (Step.of t).peer p |>.known h

-- A `Decide` arrives at peer `p` with a `Done` that is lower than what is known of all peers, when `Min`
-- returns `m`.
def Event.Lowers (p : Fin n) (m : Int) : Event n V → Prop
  | handle q (.decide args) _ => q = p ∧ args.done + 1 < m
  | _                         => False

-- The largest number becomes known of all peers at peer `p`, by a call of `Done` or by a `Decide`, when it
-- knows `dones`.
def Event.Wraps (p : Fin n) (dones : Fin n → Int) : Event n V → Prop
  | done q seq                => q = p ∧ Peer.Completes dones p seq
  | handle q (.decide args) _ => q = p ∧ Peer.Completes dones args.me args.done
  | _                         => False

instance : DecidablePred (Event.Lowers p m : Event n V → Prop)
  | .handle q (.decide args) _ => inferInstanceAs <| Decidable (q = p ∧ args.done + 1 < m)
  | .handle _ (.prepare _) _ | .handle _ (.accept _) _ => instDecidableFalse
  | .start .. | .done .. | .min .. | .max .. | .status .. | .learn .. => instDecidableFalse

instance {dones : Fin n → Int} : DecidablePred (Event.Wraps p dones : Event n V → Prop)
  | .done q seq                => inferInstanceAs <| Decidable (q = p ∧ Peer.Completes dones p seq)
  | .handle q (.decide args) _ => inferInstanceAs <| Decidable (q = p ∧ Peer.Completes dones args.me args.done)
  | .handle _ (.prepare _) _ | .handle _ (.accept _) _ => instDecidableFalse
  | .start .. | .min .. | .max .. | .status .. | .learn .. => instDecidableFalse

-- `Min` returns less after one of these.
def Event.Reduces (p : Fin n) (s : State n V) (e : Event n V) : Prop :=
  e.Lowers p (s.minAt p) ∨ e.Wraps p (s.peers p).dones

instance : DecidablePred (Event.Reduces p s) :=
  fun _ => inferInstanceAs <| Decidable (_ ∨ _)

theorem Step.of_done (h : Step s s' es) (hm : .done p seq ∈ es) :
    s'.peers p = (s.peers p).done p seq ∧ seq < 2 ^ 63 := by
  cases h <;> simp at hm
  case done =>
    have ⟨hp, hs⟩ := hm
    subst hp hs
    exact ⟨by simp [State.setPeer], Int64.toInt_lt _⟩

theorem Step.sound_of_handle (h : Step s s' es) (hs : s.Sound es₁) (hm : .handle p req reply ∈ es) :
    req.Sound es₁ := by
  cases h <;> simp at hm
  case self here _ =>
    rw [hm.right.left]
    exact hs.thread _ _ here.thread |>.request _ _ _ here.pc |>.left
  case deliver hp =>
    rw [hm.right.left]
    exact hs.call _ _ <| Calls.pending_eq_some.mp hp

theorem Peer.Sound.range {px : Peer n V} (h : px.Sound es) (i : Fin n) : -1 ≤ px.dones i ∧ px.dones i < 2 ^ 63 :=
  ⟨(h.announced i).le, (h.announced i).lt⟩

-- A call of `Done` with a higher number.
theorem Peer.Sound.min_le_min_done {px : Peer n V} (hs : px.Sound es) (hlt : seq < 2 ^ 63) :
    (px.min p).2 ≤ ((px.done p seq).min p).2 ↔ ¬Completes px.dones p seq := by
  have hr := hs.range
  have hle := px.minDone_le p p
  have hm := px.min_le_minDone p
  by_cases hd : px.dones p < seq
  case neg =>
    have hn : ¬Completes px.dones p seq := fun ⟨he, hne, _⟩ => by
      have := hr p
      omega
    simp [Peer.done, hd, hn]
  case pos =>
    have he : (px.done p seq).dones = Function.update px.dones p seq := by simp [Peer.done, hd]
    have hp := hr p
    rw [Peer.min_le_min_update he (by omega) hlt hr]
    exact and_iff_right (by omega)

theorem Request.Sound.min_le_min_decide {px : Peer n V} (hs : px.Sound es) (hr : Sound es (.decide args)) :
    (px.min p).2 ≤ ((px.decide args).min p).2 ↔
    ¬args.done + 1 < (px.min p).2 ∧ ¬Peer.Completes px.dones args.me args.done :=
  have ha := hr.announced args rfl
  Peer.min_le_min_update rfl ha.le ha.lt hs.range

theorem Peer.min_eq_of_dones {px px' : Peer n V} (h : px'.dones = px.dones) : (px'.min p).2 = (px.min p).2 := by
  simp [Peer.min, Peer.minDone, h]

theorem Step.minAt_le_iff (h : Step s s' es) (hs : s.Sound es₁) :
    s.minAt p ≤ s'.minAt p ↔ ∀ e ∈ es, ¬e.Reduces p s := by
  constructor
  case mp =>
    intro hle e he hr
    cases hr
    case inl hl =>
      unfold Event.Lowers at hl
      split at hl
      case h_2 => exact hl
      case h_1 q args _ =>
        have ⟨hq, hlt⟩ := hl
        subst hq
        have hd := h.sound_of_handle hs he |>.min_le_min_decide (p := q) (hs.peer q)
        simp only [State.minAt, h.of_handle he] at hle
        exact (hd.mp hle).left hlt
    case inr hw =>
      unfold Event.Wraps at hw
      split at hw
      case h_3 => exact hw
      case h_1 q seq =>
        have ⟨hq, hc⟩ := hw
        subst hq
        have ⟨hp, hlt⟩ := h.of_done he
        simp only [State.minAt, hp] at hle
        exact (hs.peer q).min_le_min_done hlt |>.mp hle hc
      case h_2 q args _ =>
        have ⟨hq, hc⟩ := hw
        subst hq
        have hd := h.sound_of_handle hs he |>.min_le_min_decide (p := q) (hs.peer q)
        simp only [State.minAt, h.of_handle he] at hle
        exact (hd.mp hle).right hc
  case mpr =>
    intro hn
    have hp := h.peer p
    simp only [State.minAt]
    generalize s'.peers p = px' at hp
    cases hp
    case same | min => exact le_rfl
    case learn hl   =>
      have he := (Peer.learn_eq_some hl).left
      exact (Peer.min_eq_of_dones <| he ▸ rfl).ge
    case done k event =>
      have ⟨_, hlt⟩ := h.of_done event
      refine (hs.peer p).min_le_min_done hlt |>.mpr fun hc => hn _ event <| .inr ⟨rfl, hc⟩
    case handle req event =>
      cases req
      case decide args =>
        refine h.sound_of_handle hs event |>.min_le_min_decide (hs.peer p) |>.mpr ⟨?_, ?_⟩
        case refine_1 => exact fun hl => hn _ event <| .inl ⟨rfl, hl⟩
        case refine_2 => exact fun hc => hn _ event <| .inr ⟨rfl, hc⟩
      all_goals
        refine (Peer.min_eq_of_dones ?_).ge
        cases (s.peers p).handle_dones _
        case inl hd => exact hd
        case inr hd => exact absurd hd.choose_spec.left nofun

theorem Peer.Known.lookup {px : Peer n V} (h : px.Known) : (px.lookup seq).1 ≠ .forgotten := by
  unfold Peer.lookup
  split
  case h_1    => simp
  case h_2 hl => exact h _ _ hl

theorem Step.of_status (h : Step s s' es) (hk : ∀ p, (s.peers p).Known) (hm : .status p seq .forgotten v ∈ es) :
    seq < s.minAt p := by
  cases h <;> simp at hm
  case forgotten hb | retry hb => exact hm.left ▸ hm.right.left ▸ hb
  case lookup th fate v _ hl | answer th fate v _ hl =>
    have hf : (Peer.lookup _ th.seq).1 ≠ .forgotten := hk th.peer |>.lookup
    rw [hl] at hf
    exact absurd hm.right.right.left.symm hf

-- `Min` never returns less than it has returned before, and `Status` goes on to return `Forgotten`,
-- whenever they are called.
def ForgetsForever (p : Fin n) (ts : List (Transition n V)) : Prop :=
  ∀ ts₁ t ts₂, ts = ts₁ ++ t :: ts₂ → ∀ u ∈ t :: ts₂,
    t.pre.minAt p ≤ u.post.minAt p ∧
    ∀ seq v, .status p seq .forgotten v ∈ t.events → ((u.post.peers p).status p seq).1 = .forgotten

theorem minAt_le_of_mem (r : (peers n V).Run ts s) (ht : t ∈ ts) :
    t.pre.minAt p ≤ t.post.minAt p ↔ ∀ e ∈ t.events, ¬e.Reduces p t.pre := by
  have ⟨_, _, hs⟩ := List.append_of_mem ht
  exact Step.of t |>.minAt_le_iff (sound_of_run (hs ▸ r).split_cons.left)

-- `Decide` replaces what is known of the sender's calls of `Done`, also by a lower number, and `Min` adds one
-- to the largest number.
theorem forgetsForever_iff (r : (peers n V).Run ts s) :
    ForgetsForever p ts ↔ ∀ t ∈ ts, ∀ e ∈ t.events,
      ¬e.Lowers p (t.pre.minAt p) ∧ ¬e.Wraps p (t.pre.peers p).dones := by
  simp only [← not_or]
  constructor
  case mp =>
    intro h t ht
    have ⟨ts₁, ts₂, hs⟩ := List.append_of_mem ht
    exact minAt_le_of_mem r ht |>.mp (h ts₁ t ts₂ hs t List.mem_cons_self).left
  case mpr =>
    intro h ts₁ t ts₂ hs u hu
    have ⟨us, vs, hv⟩ := List.append_of_mem hu
    have path : (peers n V).Path t.pre (us ++ [u]) u.post := (hs ▸ r).between hv
    have hle : t.pre.minAt p ≤ u.post.minAt p := by
      refine path.invariant_of (I := fun s => t.pre.minAt p ≤ s.minAt p) (le_refl _)
        (C := fun t => t.pre.minAt p ≤ t.post.minAt p) (fun w hw => ?_) fun w hw hle => hle.trans hw
      have hw : w ∈ ts := by
        rw [hs, hv]
        have hw := List.mem_append_left vs hw
        simpa using .inr (by simpa [or_assoc] using hw)
      exact minAt_le_of_mem r hw |>.mpr <| h w hw
    refine ⟨hle, fun seq v hm => ?_⟩
    have hb := Step.of t |>.of_status (fun p => known_of_run (hs ▸ r).split_cons.left p) hm
    have hb : seq < ((u.post.peers p).min p).2 := hb.trans_le hle
    rw [Peer.status, if_pos hb]

example : ((Peer.make : Peer 1 Nat).done 0 (2 ^ 63 - 1) |>.min 0).2 = -2 ^ 63 := by
  decide

-- Peer 0 decides two instances. It is done with both of them after it has announced the first one.
def announcements : List (Action 2 Nat) :=
  [.start ⟨0, Nat.two_pos⟩ 0 (some 7), .run 0 "", .run 0 "1", .run 0 "", .run 0 "", .deliver 0, .receive 0, .run 0 "",
    .run 0 "", .run 0 "", .deliver 1, .receive 0, .run 0 "", .run 0 "", .run 0 "", .run 0 "", .run 0 "",
    .done ⟨0, Nat.two_pos⟩ 1, .start ⟨0, Nat.two_pos⟩ 1 (some 8), .run 1 "", .run 1 "2", .run 1 "", .run 1 "", .deliver 3,
    .receive 1, .run 1 "", .run 1 "", .run 1 "", .deliver 4, .receive 1, .run 1 "", .run 1 "", .run 1 "",
    .run 1 "", .run 1 "", .done ⟨1, Nat.one_lt_two⟩ 1]

-- The announcements arrive in the order in which they have been sent.
theorem forgetsForever_inOrder :
    ForgetsForever 1 <| Prod.fst <| (peers 2 Nat).trace .init <|
      announcements ++ [.deliver 2, .min 1, .deliver 5, .status 1 0, .min 1] :=
  forgetsForever_iff ((peers 2 Nat).path_trace ..) |>.mpr (by decide +kernel)

-- The first announcement arrives last, and takes back that peer 0 is done.
theorem not_forgetsForever :
    ∃ (ts : List (Transition 2 Nat)) (s : _), (peers 2 Nat).Run ts s ∧
      (Machine.events ts).filter (fun | .min p _ => p = 1 | .status p .. => p = 1 | _ => false) =
        [.min 1 2, .status 1 0 .forgotten none, .min 1 0] ∧
      ((s.peers 1).status 1 0).1 = .decided ∧ ¬ForgetsForever 1 ts := by
  let as := announcements ++ [.deliver 5, .status 1 0, .deliver 2, .min 1]
  refine ⟨_, _, (peers 2 Nat).path_trace .init as, by decide +kernel, by decide +kernel, fun h => ?_⟩
  exact absurd (forgetsForever_iff ((peers 2 Nat).path_trace ..) |>.mp h) (by decide +kernel)

end Paxos

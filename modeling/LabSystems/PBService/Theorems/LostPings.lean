import LabSystems.PBService.Theorems.Views
import LabSystems.ViewService.Theorems.Members

namespace PBService

open ViewService (ViewServer PingArgs)

variable {s s' : State} {ts ts₁ ts₂ us : List Transition} {t u : Transition} {p : String} {n : Nat}

-- The step that the view server takes in a step of the system.
def State.vsAction (s : State) : Action → Option ViewService.Action
  | .vsTick => some .tick
  | .handle c =>
    match s.calls.pending c with
    | some (.ping args) => some (.ping args)
    | _                 => none
  | _ => none

theorem Step.vsAction (h : Step s a s' es) :
    s.vsAction a = none ∧ s'.vs = s.vs ∨ s.vsAction a = some .tick ∧ s'.vs = s.vs.tick ∨
    ∃ args, s.vsAction a = some (.ping args) ∧ s'.vs = s.vs.pinged args := by
  cases h
  case vsTick => exact .inr <| .inl ⟨rfl, rfl⟩
  case handlePing hc => exact .inr <| .inr ⟨_, by simp [State.vsAction, hc], rfl⟩
  case handleGet hc _ | refuse hc _ _ | execute hc _ _ _ | replicate hc _ _ _ | merge hc _ =>
    exact .inl ⟨by simp [State.vsAction, hc], rfl⟩
  case get | putAppend =>
    refine .inl ⟨rfl, ?_⟩
    simp only [State.beginOp]
    split <;> rfl
  case view ho | viewForward ho | forwarded ho | replicated ho | updateView ho | retry ho =>
    cases ho <;> exact .inl ⟨rfl, rfl⟩
  all_goals exact .inl ⟨rfl, rfl⟩

theorem State.vsAction_eq_ping (h : s.vsAction a = some (.ping args)) :
    ∃ c, a = .handle c ∧ s.calls.pending c = some (.ping args) := by
  unfold vsAction at h
  split at h
  case h_1 => cases h
  case h_3 => cases h
  case h_2 c =>
    split at h
    case h_2 => cases h
    case h_1 hc =>
      cases h
      exact ⟨c, rfl, hc⟩

abbrev Transition.vsAction (t : Transition) : Option ViewService.Action :=
  t.pre.vsAction t.act

-- How many ticks the view server has taken since it has last handled a ping of the server with the
-- number of a view.
def silence (p : String) (ts : List Transition) : Nat :=
  ts.foldl (fun n t => t.vsAction.elim n (ViewService.silence p n)) 0

theorem silence_snoc : silence p (ts ++ [t]) =
    t.vsAction.elim (silence p ts) (ViewService.silence p (silence p ts)) := by
  simp [silence]

-- The step deposes a primary that has been silent for `n` ticks.
def Transition.Deposes (p : String) (n : Nat) (t : Transition) : Prop :=
  ∃ a ∈ t.vsAction, t.pre.vs.Deposes p n a

instance : DecidablePred (Transition.Deposes p n) :=
  fun t => inferInstanceAs (Decidable (∃ a ∈ t.vsAction, _))

theorem begun_vs_of_run (r : cluster.Run ts s) : s.vs.Begun :=
  have ⟨_, r, _⟩ := vs_of_run r
  ViewService.begun_of_run r

theorem distinct_of_run (r : cluster.Run ts s) : s.vs.Distinct :=
  have ⟨_, r, _⟩ := vs_of_run r
  ViewService.distinct_of_run r

theorem Transition.serves (t : Transition) (hs : t.pre.vs.Serves p n) (hn : p ≠ "") (hd : t.pre.vs.Distinct) :
    (t.post.vs.IsPrimary p ↔ ¬t.Deposes p n) ∧
    (t.post.vs.IsPrimary p → t.post.vs.Serves p (t.vsAction.elim n (ViewService.silence p n))) := by
  rcases Step.of t |>.vsAction with ⟨ha, hv⟩ | ⟨ha, hv⟩ | ⟨args, ha, hv⟩
  · simpa [Transition.Deposes, ha, hv] using ⟨hs.primary, fun _ => hs⟩
  · simpa [Transition.Deposes, ha, hv] using hs.tick hn hd
  · simpa [Transition.Deposes, ha, hv] using hs.pinged hn hd args

theorem serves_of_path (r : cluster.Run ts₁ s) (hs : s.vs.Serves p 0) (hn : p ≠ "") (q : cluster.Path s ts₂ s')
    (hp : ∀ u ∈ ts₂, u.post.vs.IsPrimary p) : s'.vs.Serves p (silence p ts₂) := by
  induction q
  case nil => exact hs
  case snoc ts₂ t q hi =>
    have hi := hi fun u hu => hp u <| List.mem_append_left _ hu
    rw [silence_snoc]
    exact Transition.serves t hi hn (distinct_of_run <| r.trans q) |>.right <| hp t <| by simp

-- A server stays primary from its last acknowledgement on exactly as long as no ping of it with view
-- number 0 is handled while there is a backup, and the ticks without another ping of it are few.
theorem staysPrimary_iff (r : cluster.Run (ts₁ ++ t :: ts₂) s) (hn : p ≠ "") (hp : t.pre.vs.IsPrimary p)
    (ht : t.vsAction = some (.ping ⟨p, n⟩)) (hz : n ≠ 0) :
    (∀ u ∈ ts₂, u.post.vs.IsPrimary p) ↔ ∀ us u ws, ts₂ = us ++ u :: ws → ¬u.Deposes p (silence p us) := by
  have r₁ := r.split_cons.left.snoc t
  have hs : t.post.vs.Serves p 0 := by
    rcases Step.of t |>.vsAction with ⟨ha, _⟩ | ⟨ha, _⟩ | ⟨_, ha, hv⟩ <;> cases ht.symm.trans ha
    exact hv ▸ ViewServer.serves_of_ack hn hp hz
  have q := r.split_cons.right
  constructor
  case mp =>
    intro h us u ws hu
    have q₁ := (hu ▸ q).split_cons.left
    have h₁ := serves_of_path r₁ hs hn q₁ fun x hx => h x <| by simp [hu, hx]
    exact u.serves h₁ hn (distinct_of_run <| r₁.trans q₁) |>.left.mp <| h u <| by simp [hu]
  case mpr =>
    intro h
    clear r
    induction q
    case nil => simp
    case snoc ts₂ u q hi =>
      have hi := hi fun us v ws hv => h us v (ws ++ [u]) (by simp [hv])
      have h₁ := serves_of_path r₁ hs hn q hi
      have hu := Transition.serves u h₁ hn (distinct_of_run <| r₁.trans q) |>.left.mpr <| h ts₂ u [] rfl
      simpa [or_imp, forall_and] using ⟨hi, hu⟩

-- Server a is primary of view 2 and acknowledges it. Then a single ping of it fails, so that it goes
-- back to the empty view and sends its next ping with view number 0.
def lostPing : List Action :=
  [.startServer "a", .startServer "b", .tick "a", .handle 0, .receive "a", .tick "a", .handle 1,
    .receive "a", .tick "b", .handle 2, .receive "b", .tick "a", .handle 3, .receive "a", .handle 4,
    .receive "a", .tick "a", .handle 5, .receive "a", .tick "a", .fail "a", .tick "a", .handle 7]

-- Server a is the only server, acknowledges view 1 and sends one ping in each tick. Three of them
-- fail, and the one after them has view number 0.
def lostPings : List Action :=
  [.startServer "a", .tick "a", .handle 0, .receive "a", .tick "a", .handle 1, .receive "a", .vsTick, .tick "a",
    .fail "a", .vsTick, .tick "a", .fail "a", .vsTick, .tick "a", .fail "a", .vsTick, .tick "a", .handle 5,
    .receive "a", .vsTick]

theorem staysPrimary_acknowledged :
    let ts := (cluster.trace .init (lostPing.take 20 ++ [.handle 6, .receive "a"])).1
    ts.length = 22 ∧ ∀ u ∈ ts.drop 18, u.post.vs.IsPrimary "a" :=
  have r := cluster.path_trace .init (lostPing.take 20 ++ [.handle 6, .receive "a"])
  ⟨by decide, staysPrimary_iff (n := 2) (r.splitAt (i := 17) (by decide)) (by decide) (by decide) (by decide)
    (by decide) |>.mpr <| List.forall_split_iff.mpr (by decide)⟩

-- The primary is deposed after one lost ping when there is a backup, and after three otherwise.
theorem not_staysPrimary :
    (∃ (ts₁ : List Transition) (t : Transition) (ts₂ : List Transition) (s : _), cluster.Run (ts₁ ++ t :: ts₂) s ∧
      t.vsAction = some (.ping ⟨"a", 2⟩) ∧ t.post.vs.view = ⟨2, "a", "b"⟩ ∧ t.post.vs.Acked ∧
      (∀ u ∈ ts₂, (u.post.servers "a").isSome) ∧
      ts₂.map (·.act) = [.receive "a", .tick "a", .fail "a", .tick "a", .handle 7] ∧ s.vs.view = ⟨3, "b", ""⟩) ∧
    ∃ (ts₁ : List Transition) (t : Transition) (ts₂ : List Transition) (s : _), cluster.Run (ts₁ ++ t :: ts₂) s ∧
      t.vsAction = some (.ping ⟨"a", 1⟩) ∧ t.post.vs.view = ⟨1, "a", ""⟩ ∧ t.post.vs.Acked ∧
      (∀ u ∈ ts₂, (u.post.servers "a").isSome) ∧ ts₂.map (·.act) = lostPings.drop 6 ∧ s.vs.view = ⟨2, "", ""⟩ :=
  ⟨⟨_, _, _, _, cluster.path_trace .init lostPing |>.splitAt (i := 17) (by decide), by decide⟩,
    ⟨_, _, _, _, cluster.path_trace .init lostPings |>.splitAt (i := 5) (by decide), by decide⟩⟩

end PBService

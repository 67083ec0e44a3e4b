import LabSystems.ViewService.Theorems.FirstPrimary
import LabSystems.ViewService.Theorems.History

namespace ViewService

variable {vs vs' : ViewServer} {a : Action} {ts us ws : List Transition} {t u : Transition} {q : String} {k : Nat}

-- The server is heard of as a primary that knows a view, as a backup, or when it becomes the backup.
def Heard (q : String) (vs : ViewServer) (a : Action) (vs' : ViewServer) : Prop :=
  ∃ n, a = .ping ⟨q, n⟩ ∧ (vs.IsPrimary q ∧ n ≠ 0 ∨ vs.IsBackup q ∨ vs'.IsBackup q)

theorem not_heard_other {args : PingArgs} (h : args.me ≠ q) : ¬Heard q vs (.ping args) vs' := by
  intro ⟨_, ha, _⟩
  exact h <| congrArg PingArgs.me <| Action.ping.inj ha

theorem not_heard_get : ¬Heard q vs .get vs' := by
  simp [Heard]

theorem not_heard_tick : ¬Heard q vs .tick vs' := by
  simp [Heard]

namespace Step

-- A step sets the clock of the primary, leaves it alone or takes it over from the backup.
theorem primary_clock (h : Step vs a vs') (hn : a.Named) (hs : vs.Sound) (hp : vs'.HasPrimary) :
    vs'.primaryTick = vs'.currentTick ∨
    vs'.view.primary = vs.view.primary ∧ vs'.primaryTick = vs.primaryTick ∧ ¬Heard vs.view.primary vs a vs' ∨
    vs'.view.primary = vs.view.backup ∧ vs'.primaryTick = vs.backupTick ∧ ¬Heard vs.view.backup vs a vs' := by
  cases h
  case first | ack => exact .inl rfl
  case restart args hb hq hz hk =>
    have hd : args.me ≠ vs.view.backup := fun h => hk <| h ▸ hq ▸ hs.distinct (hq.trans h)
    exact .inr <| .inr ⟨rfl, rfl, not_heard_other hd⟩
  case timeout => exact .inr <| .inr ⟨rfl, rfl, not_heard_tick⟩
  case lone args hb hq hz hk =>
    refine .inr <| .inl ⟨rfl, rfl, ?_⟩
    intro ⟨n, ha, ho⟩
    cases ha
    have hk : vs.view.backup = "" := not_not.mp hk
    rcases ho with ⟨_, ho⟩ | ho | ho
    · exact ho hz
    all_goals exact hp <| ho.symm.trans hk
  case join | rejoin | refresh | ignore => exact .inr <| .inl ⟨rfl, rfl, not_heard_other <| Ne.symm ‹_›⟩
  case get         => exact .inr <| .inl ⟨rfl, rfl, not_heard_get⟩
  case idle | drop => exact .inr <| .inl ⟨rfl, rfl, not_heard_tick⟩

-- A step sets the clock of the backup or leaves it alone.
theorem backup_clock (h : Step vs a vs') (hn : a.Named) (hs : vs.Sound) (hk : vs'.HasBackup) :
    vs'.backupTick = vs'.currentTick ∨
    vs'.view.backup = vs.view.backup ∧ vs'.backupTick = vs.backupTick ∧ ¬Heard vs.view.backup vs a vs' := by
  cases h
  case join | rejoin | refresh => exact .inl rfl
  case restart | timeout | drop => exact absurd rfl hk
  case first hz _ => simp [hs.zero hz, ViewServer.HasBackup] at hk
  case ack args hb hq hz =>
    have hd : args.me ≠ vs.view.backup := fun h => hk <| h ▸ hq ▸ hs.distinct (hq.trans h)
    exact .inr ⟨rfl, rfl, not_heard_other hd⟩
  case lone hk' => exact absurd hk hk'
  case ignore args hb ho hf hq => exact .inr ⟨rfl, rfl, not_heard_other <| Ne.symm hq⟩
  case get  => exact .inr ⟨rfl, rfl, not_heard_get⟩
  case idle => exact .inr ⟨rfl, rfl, not_heard_tick⟩

theorem clocks_le (h : Step vs a vs') (hp : vs.primaryTick ≤ vs.currentTick) (hb : vs.backupTick ≤ vs.currentTick) :
    vs'.primaryTick ≤ vs'.currentTick ∧ vs'.backupTick ≤ vs'.currentTick := by
  cases h
  case first | ack              => exact ⟨Nat.le_refl _, hb⟩
  case join | rejoin | refresh  => exact ⟨hp, Nat.le_refl _⟩
  case restart                  => exact ⟨hb, hb⟩
  case lone | ignore | get      => exact ⟨hp, hb⟩
  case timeout                  => exact ⟨Nat.le_succ_of_le hb, Nat.le_succ_of_le hb⟩
  case idle | drop              => exact ⟨Nat.le_succ_of_le hp, Nat.le_succ_of_le hb⟩

end Step

theorem currentTick_of_run (r : server.Run ts vs) : vs.currentTick = ticks ts := by
  induction r
  case nil => rfl
  case snoc ts t _ hi =>
    have hs := Step.of t
    cases ha : t.act <;> rw [ha] at hs
    case tick =>
      rw [ticks_snoc_tick ha, ← hi]
      generalize t.post = vs' at hs
      cases hs <;> rfl
    all_goals
      rw [ticks_snoc (by simp [ha]), ← hi]
      generalize t.post = vs' at hs
      cases hs <;> rfl

theorem clocks_le_of_run (r : server.Run ts vs) :
    vs.primaryTick ≤ vs.currentTick ∧ vs.backupTick ≤ vs.currentTick :=
  r.invariant (I := fun vs => vs.primaryTick ≤ vs.currentTick ∧ vs.backupTick ≤ vs.currentTick)
    ⟨Nat.le_refl _, Nat.le_refl _⟩ (fun t h => Step.of t |>.clocks_le h.left h.right)

-- The server has not been heard of after tick `k`.
def HeardUntil (q : String) (ts : List Transition) (k : Nat) : Prop :=
  ∀ us u ws, ts = us ++ u :: ws → Heard q u.pre u.act u.post → ticks us ≤ k

theorem HeardUntil.snoc (h : HeardUntil q ts k) (ht : ¬Heard q t.pre t.act t.post) : HeardUntil q (ts ++ [t]) k := by
  intro us u ws hs hh
  cases ws using List.reverseRecOn
  case nil =>
    have ⟨_, he⟩ := List.append_inj' hs rfl
    exact absurd ((List.cons.inj he).left ▸ hh) ht
  case append_singleton ws w _ =>
    have ⟨hs, _⟩ := List.append_inj' (by simpa using hs : ts ++ [t] = (us ++ u :: ws) ++ [w]) rfl
    exact h us u ws hs hh

theorem heardUntil_ticks : HeardUntil q ts (ticks ts) := by
  intro us u ws hs _
  simp [ticks, hs]

-- The two counters tell how long nothing has been heard of the primary and of the backup.
structure Clocks (ts : List Transition) (vs : ViewServer) : Prop where
  primary : vs.HasPrimary → HeardUntil vs.view.primary ts vs.primaryTick
  backup  : vs.HasBackup → HeardUntil vs.view.backup ts vs.backupTick

theorem clocks_of_run (r : server.Run ts vs) (hn : ∀ t ∈ ts, t.act.Named) : Clocks ts vs := by
  induction r
  case nil => exact ⟨absurd rfl, absurd rfl⟩
  case snoc ts t r hi =>
    have hn' : ∀ u ∈ ts, u.act.Named := fun u hu => hn u <| List.mem_append_left _ hu
    have ht : t.act.Named := hn t <| by simp
    have hs := sound_of_run r hn'
    have ⟨hp, hb⟩ := hi hn'
    have hcur := currentTick_of_run (r.snoc t)
    constructor
    case primary =>
      intro h
      rcases Step.of t |>.primary_clock ht hs h with he | ⟨he, hk, hh⟩ | ⟨he, hk, hh⟩
      · exact he ▸ hcur ▸ heardUntil_ticks
      · exact he ▸ hk ▸ (hp <| by simpa [ViewServer.HasPrimary, he] using h).snoc hh
      · exact he ▸ hk ▸ (hb <| by simpa [ViewServer.HasPrimary, ViewServer.HasBackup, he] using h).snoc hh
    case backup =>
      intro h
      rcases Step.of t |>.backup_clock ht hs h with he | ⟨he, hk, hh⟩
      · exact he ▸ hcur ▸ heardUntil_ticks
      · exact he ▸ hk ▸ (hb <| by simpa [ViewServer.HasBackup, he] using h).snoc hh

-- Whoever has been heard of until tick `k` has been silent for the ticks since then.
theorem HeardUntil.silent (h : HeardUntil q (us ++ u :: ws) k) (hh : Heard q u.pre u.act u.post)
    (ht : t.act = .tick) (hl : deadPings ≤ ticks (us ++ u :: ws) + 1 - k) : deadPings ≤ ticks (ws ++ [t]) := by
  have hk := h us u ws rfl hh
  have hu : u.act ≠ .tick := by
    intro he
    exact not_heard_tick (he ▸ hh)
  have hs : ticks (us ++ u :: ws) = ticks us + ticks ws := by
    simp [ticks, hu]
  rw [ticks_snoc_tick ht]
  omega

-- Only silent servers are declared dead: a tick replaces the primary, or drops a backup that it does
-- not promote, only after enough ticks without a word of it. The counters are never ahead.
theorem silent_of_tick (r : server.Run (ts ++ [t]) vs) (hn : ∀ u ∈ ts ++ [t], u.act.Named) (ht : t.act = .tick) :
    (t.pre.HasPrimary → t.post.view.primary ≠ t.pre.view.primary → ∀ us u ws n, ts = us ++ u :: ws →
      u.act = .ping ⟨t.pre.view.primary, n⟩ → n ≠ 0 → u.pre.IsPrimary t.pre.view.primary →
      deadPings ≤ ticks (ws ++ [t])) ∧
    (t.pre.HasBackup → t.post.view.backup ≠ t.pre.view.backup → t.post.view.primary ≠ t.pre.view.backup →
      ∀ us u ws n, ts = us ++ u :: ws → u.act = .ping ⟨t.pre.view.backup, n⟩ →
      u.pre.IsBackup t.pre.view.backup ∨ u.post.IsBackup t.pre.view.backup → deadPings ≤ ticks (ws ++ [t])) ∧
    t.pre.primaryTick ≤ t.pre.currentTick + 1 ∧ t.pre.backupTick ≤ t.pre.currentTick + 1 := by
  have r := r.of_snoc.left
  have ⟨hp, hb⟩ := clocks_of_run r <| fun u hu => hn u <| List.mem_append_left _ hu
  have ⟨hpt, hbt⟩ := clocks_le_of_run r
  have hc := currentTick_of_run r
  have hs := ht ▸ Step.of t
  refine ⟨?primary, ?backup, Nat.le_succ_of_le hpt, Nat.le_succ_of_le hbt⟩
  case primary =>
    intro h he us u ws n hts ha hz hq
    have hl : deadPings ≤ ticks ts + 1 - t.pre.primaryTick := by
      rw [← hc, ← uintSub_of_le (Nat.le_succ_of_le hpt)]
      generalize t.post = vs' at hs he
      cases hs
      case idle | drop  => exact absurd rfl he
      case timeout hl _ => exact hl
    subst hts
    exact (hp h).silent ⟨n, ha, .inl ⟨hq, hz⟩⟩ ht hl
  case backup =>
    intro h he hd us u ws n hts ha hq
    have hl : deadPings ≤ ticks ts + 1 - t.pre.backupTick := by
      rw [← hc, ← uintSub_of_le (Nat.le_succ_of_le hbt)]
      generalize t.post = vs' at hs he hd
      cases hs
      case idle        => exact absurd rfl he
      case timeout     => exact absurd rfl hd
      case drop _ hl _ => exact hl
    subst hts
    exact (hb h).silent ⟨n, ha, .inr hq⟩ ht hl

theorem silent_of_tick_failover :
    let r := server.trace .startServer
      [.ping ⟨"s1", 0⟩, .ping ⟨"s1", 1⟩, .ping ⟨"s2", 0⟩, .ping ⟨"s1", 2⟩, .tick, .tick, .tick, .tick]
    let t : Transition := ⟨r.2, .tick, [], r.2.tick, rfl⟩
    t.pre.view = ⟨2, "s1", "s2"⟩ ∧ t.post.view = ⟨3, "s2", ""⟩ ∧ deadPings ≤ ticks (r.1.drop 4 ++ [t]) := by
  intro r t
  have hr : server.Run (r.1 ++ [t]) t.post := (server.path_trace ..).snoc t
  have hs : r.1 = r.1.take 3 ++ r.1[3] :: r.1.drop 4 := by
    rw [← List.drop_eq_getElem_cons, List.take_append_drop]
  have h := silent_of_tick hr (by decide) rfl |>.left (by decide) (by decide) _ _ _ 2 hs rfl (by decide) rfl
  exact ⟨by decide, by decide, h⟩

end ViewService

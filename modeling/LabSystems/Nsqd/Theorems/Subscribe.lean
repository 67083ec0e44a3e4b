import LabSystems.Machine.Fair
import LabSystems.Nsqd.Client

namespace Nsqd

open Machine (events)

-- The channel for which `IOLoop` is inside `SUB`.
def IOLoop.sub : IOLoop → Option Subscription
  | .creating ch | .subscribing ch => some ch
  | _                              => none

-- The pump before it has received from `SubEventChan`.
def ClientPump.start : ClientPump :=
  ⟨true, none, false⟩

namespace ClientV2

-- The channels of all `SUB` commands that are executed.
def entered (es : List Event) : List Subscription :=
  es.filterMap fun
    | .entered ch => some ch
    | _           => none

def answered (es : List Event) : List Subscription :=
  es.filterMap fun
    | .answered ch => some ch
    | _            => none

-- There is a fair schedule in which `IOLoop` stays inside `SUB`.
def BlockedForever (c : ClientV2) : Prop :=
  ∃ r : client.Schedule, r.state 0 = c ∧ (∀ a ∈ [.update, .subscribe, .receive], r.Fair a) ∧
    ∀ n, (r.state n).io.sub.isSome

-- The acknowledged subscription takes effect.
structure TakesEffect (ts : List client.Transition) (c : ClientV2) : Prop where
  progress : ¬c.BlockedForever
  effect   : ¬client.Enabled c .receive → c.pump.subChannel = (answered <| events ts).getLast?

-- What a step does inside and outside of `SUB`.
inductive Stepped (c c' : ClientV2) : Action → List Event → Prop
  | enter {ch : Subscription} {cmd : Command} {put : Except String Unit} :
    (c.io.sub = none) → (c'.io.sub = some ch) → (c'.subEventChan = c.subEventChan) → (c'.pump = c.pump) →
    Stepped c c' (.command cmd put) [.entered ch]
  | outside {a : Action} :
    (c.io.sub = none) → (c'.io.sub = none) → (c'.subEventChan = c.subEventChan) → (c'.pump = c.pump) →
    Stepped c c' a []
  | update {ch : Subscription} :
    (c.io = .creating ch) → (c' = { c with io := .subscribing ch, channel := some ch }) → Stepped c c' .update []
  | subscribe {ch : Subscription} :
    (c.io = .subscribing ch) → (c.subEventChan = []) → (c'.io.sub = none) → (c'.subEventChan = [ch]) →
    (c'.pump = c.pump) → Stepped c c' .subscribe [.answered ch]
  | receive {ch : Subscription} {chs : List Subscription} :
    (c.subEventChan = ch :: chs) → c.pump.subEventChan → (c'.io = c.io) → (c'.subEventChan = chs) →
    (c'.pump = ⟨false, some ch, c.pump.exited⟩) → Stepped c c' .receive []
  | message {sent : Bool} :
    c.pump.subChannel.isSome → (c' = { c with pump := { c.pump with exited := !sent } }) →
    Stepped c c' (.message sent) []
  | other {cmd : Command} {nsqd : NSQD} : (c' = { c with nsqd }) → Stepped c c' (.other cmd) []

variable {c c' : ClientV2} {a : Action} {es : List Event}

theorem command_stepped {cmd : Command} {put : Except String Unit} (hr : c.io = .reading) :
    Stepped c (c.command cmd put).1 (.command cmd put) (c.command cmd put).2 := by
  have hs : c.io.sub = none := by rw [hr]; rfl
  simp only [command]
  split
  · split
    · exact .enter hs rfl rfl rfl
    · exact .enter hs rfl rfl rfl
  · exact .outside hs rfl rfl rfl
  · exact .outside hs hs rfl rfl
  · exact .outside hs rfl rfl rfl

theorem stepped (h : c.step a = some (c', es)) : Stepped c c' a es := by
  cases a
  case command cmd put =>
    simp only [step] at h
    split at h
    case h_1 hr =>
      have hc := @command_stepped c cmd put hr
      rw [Option.some.inj h] at hc
      exact hc
    case h_2 => cases h
  case update =>
    simp only [step] at h
    split at h
    case h_1 hc =>
      cases h
      exact .update hc rfl
    case h_2 => cases h
  case subscribe =>
    simp only [step] at h
    split at h
    case h_1 hs =>
      split at h
      case isTrue hl =>
        cases h
        have hn := List.length_eq_zero_iff.mp <| Nat.lt_one_iff.mp hl
        exact .subscribe hs hn rfl (by simp [hn]) rfl
      case isFalse => cases h
    case h_2 => cases h
  case respond sent =>
    simp only [step] at h
    split at h
    case h_1 hr =>
      cases h
      exact .outside (by rw [hr]; rfl) rfl rfl rfl
    case h_2 hr =>
      cases h
      exact .outside (by rw [hr]; rfl) (by cases sent <;> rfl) rfl rfl
    case h_3 => cases h
  case close =>
    simp only [step] at h
    split at h
    case h_1 hr =>
      cases h
      exact .outside (by rw [hr]; rfl) rfl rfl rfl
    case h_2 => cases h
  case receive =>
    simp only [step] at h
    split at h
    case h_1 hb =>
      split at h
      case isTrue hp =>
        cases h
        exact .receive hb hp.1 rfl rfl rfl
      case isFalse => cases h
    case h_2 => cases h
  case message sent =>
    simp only [step] at h
    split at h
    case isTrue hp =>
      cases h
      exact .message hp.1 rfl
    case isFalse => cases h
  case other cmd =>
    cases h
    exact .other rfl

-- What has been answered has been received from `SubEventChan` or is in its buffer.
structure Account (es : List Event) (c : ClientV2) : Prop where
  answered : answered es = c.pump.subChannel.toList ++ c.subEventChan
  entered  : entered es = ClientV2.answered es ++ c.io.sub.toList
  room     : c.subEventChan.length ≤ 1
  start    : c.pump.subChannel = none → c.pump = .start
  received : c.pump.subChannel.isSome → c.pump.subEventChan = false

theorem Account.init : Account [] newClientV2 where
  answered := rfl
  entered  := rfl
  room     := Nat.zero_le _
  start _  := rfl
  received := nofun

theorem Account.step (h : Account es₀ c) (hs : Stepped c c' a es) : Account (es₀ ++ es) c' := by
  have hans : ClientV2.answered (es₀ ++ es) = ClientV2.answered es₀ ++ ClientV2.answered es := List.filterMap_append
  have hent : ClientV2.entered (es₀ ++ es) = ClientV2.entered es₀ ++ ClientV2.entered es := List.filterMap_append
  cases hs
  case enter ch cmd put hn hc hb hp =>
    constructor
    case answered => rw [hans, hb, hp, ← h.answered]; exact List.append_nil _
    case entered  => rw [hent, hans, h.entered, hn, hc]; simp [ClientV2.answered, ClientV2.entered]
    case room     => exact hb ▸ h.room
    case start    => exact hp ▸ h.start
    case received => exact hp ▸ h.received
  case outside hn hc hb hp =>
    constructor
    case answered => rw [List.append_nil, hb, hp, h.answered]
    case entered  => rw [List.append_nil, hc, ← hn, h.entered]
    case room     => exact hb ▸ h.room
    case start    => exact hp ▸ h.start
    case received => exact hp ▸ h.received
  case update ch hc hs =>
    subst hs
    rw [List.append_nil]
    exact ⟨h.answered, by rw [h.entered, hc]; rfl, h.room, h.start, h.received⟩
  case subscribe ch hc he hn hb hp =>
    constructor
    case answered => rw [hans, h.answered, he, hb, hp]; simp [ClientV2.answered]
    case entered  => rw [hent, hans, h.entered, hc, hn]; simp [ClientV2.answered, ClientV2.entered, IOLoop.sub]
    case room     => exact hb ▸ Nat.le_refl 1
    case start    => exact hp ▸ h.start
    case received => exact hp ▸ h.received
  case receive ch chs hb hl hi hb' hp =>
    rw [List.append_nil]
    have hn : c.pump.subChannel = none := by
      cases hc : c.pump.subChannel
      case none => rfl
      case some => simp [h.received <| by simp [hc]] at hl
    constructor
    case answered => rw [h.answered, hn, hb, hp, hb']; rfl
    case entered  => rw [h.entered, hi]
    case room     =>
      have hle := h.room
      rw [hb, List.length_cons] at hle
      rw [hb']
      omega
    case start    => simp [hp]
    case received => simp [hp]
  case message sent hc hs =>
    subst hs
    rw [List.append_nil]
    exact ⟨h.answered, h.entered, h.room, fun hn => absurd hc (by simpa using hn), h.received⟩
  case other cmd nsqd hs =>
    subst hs
    rw [List.append_nil]
    exact ⟨h.answered, h.entered, h.room, h.start, h.received⟩

theorem account (p : client.Run ts c) : Account (events ts) c := by
  refine p.history_invariant (I := fun ts c => Account (events ts) c) Account.init fun ts t h => ?_
  rw [Machine.events_append, Machine.events_singleton]
  exact h.step <| stepped t.valid

-- There is a place in the buffer, or the pump is going to make one.
def Open (c : ClientV2) : Prop :=
  c.subEventChan = [] ∨ (∃ ch, c.subEventChan = [ch]) ∧ c.pump = .start

theorem Account.open_of_none (h : Account es c) (hc : c.pump.subChannel = none) : c.Open := by
  cases hb : c.subEventChan
  case nil       => exact .inl hb
  case cons ch chs =>
    have hroom := h.room
    rw [hb, List.length_cons] at hroom
    have hn : chs = [] := List.length_eq_zero_iff.mp (by omega)
    exact .inr ⟨⟨ch, hn ▸ hb⟩, h.start hc⟩

theorem Open.step (h : c.Open) (hs : Stepped c c' a es) (ha : a ≠ .subscribe) : c'.Open := by
  cases hs
  case enter hb hp   => rwa [Open, hb, hp]
  case outside hb hp => rwa [Open, hb, hp]
  case update hs     => rwa [hs]
  case subscribe     => contradiction
  case receive hb _ _ hb' _ =>
    cases h
    case inl hn => simp [hn] at hb
    case inr h =>
      have ⟨⟨_, he⟩, _⟩ := h
      rw [hb] at he
      cases he
      exact .inl hb'
  case message hc hs =>
    cases h
    case inl hn => exact .inl <| hs ▸ hn
    case inr h  => simp [h.right, ClientPump.start] at hc
  case other hs => rwa [hs]

theorem Stepped.subscribing (h : Stepped c c' a es) (hs : c.io = .subscribing ch) (ha : a ≠ .subscribe) :
    c'.io = .subscribing ch := by
  cases h
  case enter hn _ _ _     => simp [hs, IOLoop.sub] at hn
  case outside hn _ _ _   => simp [hs, IOLoop.sub] at hn
  case update hc _        => simp [hs] at hc
  case subscribe          => contradiction
  case receive hi _ _     => rw [hi, hs]
  case message _ he       => rw [he, hs]
  case other he           => rw [he, hs]

theorem Stepped.creating (h : Stepped c c' a es) (hs : c.io = .creating ch) (ha : a ≠ .update) :
    c'.io = .creating ch := by
  cases h
  case enter hn _ _ _     => simp [hs, IOLoop.sub] at hn
  case outside hn _ _ _   => simp [hs, IOLoop.sub] at hn
  case update             => contradiction
  case subscribe hc _ _ _ _ => simp [hs] at hc
  case receive hi _ _     => rw [hi, hs]
  case message _ he       => rw [he, hs]
  case other he           => rw [he, hs]

-- Only `SUB` sends to `SubEventChan`.
theorem Stepped.empty (h : Stepped c c' a es) (he : c.subEventChan = []) (ha : a ≠ .subscribe) :
    c'.subEventChan = [] := by
  cases h
  case enter hb _         => rw [hb, he]
  case outside hb _       => rw [hb, he]
  case update hc          => rw [hc, he]
  case subscribe          => contradiction
  case receive hc _ _ _ _ => simp [he] at hc
  case message hc         => rw [hc, he]
  case other hc           => rw [hc, he]

-- The pump takes from the buffer, and nobody else.
theorem Stepped.fresh (h : Stepped c c' a es) (hb : c.subEventChan = [ch]) (hp : c.pump = .start)
    (hs : a ≠ .subscribe) (hr : a ≠ .receive) : c'.subEventChan = [ch] ∧ c'.pump = .start := by
  cases h
  case enter hb' hp'   => exact ⟨hb'.trans hb, hp'.trans hp⟩
  case outside hb' hp' => exact ⟨hb'.trans hb, hp'.trans hp⟩
  case update he       => exact he ▸ ⟨hb, hp⟩
  case subscribe       => contradiction
  case receive         => contradiction
  case message hc _    => simp [hp, ClientPump.start] at hc
  case other he        => exact he ▸ ⟨hb, hp⟩

theorem Stepped.sends (h : Stepped c c' .subscribe es) (hs : c.io.sub.isSome) :
    (∃ ch, c.io = .subscribing ch) ∧ c.subEventChan = [] := by
  cases h
  case outside hn _ _ _     => simp [hn] at hs
  case subscribe hc he _ _ _ => exact ⟨⟨_, hc⟩, he⟩

section

variable {r : client.Schedule}

theorem takes_stepped (h : r.Takes a n) : ∃ es, Stepped (r.state n) (r.state (n + 1)) a es := by
  have ⟨t, ha, hpre, hpost⟩ := h
  exact ⟨t.events, ha ▸ hpre ▸ hpost ▸ stepped t.valid⟩

theorem subscribes (fair : r.Fair .subscribe) (hs : (r.state n).io = .subscribing ch)
    (he : (r.state n).subEventChan = []) : ∃ k, (r.state k).io.sub = none := by
  have henabled : ∀ c : ClientV2, c.io = .subscribing ch ∧ c.subEventChan = [] → client.Enabled c .subscribe :=
    fun c ⟨hs, he⟩ => by simp [Machine.Enabled, client, step, hs, he]
  have ⟨k, _, ⟨hk, _⟩, ht⟩ := fair.leads_to henabled
    (fun t ha ⟨hs, he⟩ => ⟨(stepped t.valid).subscribing hs ha, (stepped t.valid).empty he ha⟩) ⟨hs, he⟩
  have ⟨_, hst⟩ := takes_stepped ht
  refine ⟨k + 1, ?_⟩
  cases hst
  case outside hn _ _         => exact hn
  case subscribe _ hn _ _     => exact hn

theorem receives (fair : r.Fair .receive) (hs : (r.state n).io = .subscribing ch)
    (hb : (r.state n).subEventChan = [ch']) (hp : (r.state n).pump = .start) :
    ∃ k, (r.state k).io = .subscribing ch ∧ (r.state k).subEventChan = [] := by
  let P (c : ClientV2) : Prop := c.io = .subscribing ch ∧ c.subEventChan = [ch'] ∧ c.pump = .start
  have henabled : ∀ c, P c → client.Enabled c .receive :=
    fun c ⟨hs, hb, hp⟩ => by simp [Machine.Enabled, client, step, hb, hp, ClientPump.start]
  have hstable : ∀ t : client.Transition, t.act ≠ .receive → P t.pre → P t.post := by
    intro t ha ⟨hs, hb, hp⟩
    have hst := stepped t.valid
    have hne : t.act ≠ .subscribe := by
      intro he
      have ⟨_, hn⟩ := (he ▸ hst).sends <| by simp [hs, IOLoop.sub]
      simp [hn] at hb
    exact ⟨hst.subscribing hs hne, hst.fresh hb hp hne ha⟩
  have ⟨k, _, ⟨hk, hb, _⟩, ht⟩ := fair.leads_to henabled hstable ⟨hs, hb, hp⟩
  have ⟨_, hst⟩ := takes_stepped ht
  refine ⟨k + 1, hst.subscribing hk nofun, ?_⟩
  cases hst
  case outside hn _ _ _       => simp [hk, IOLoop.sub] at hn
  case receive hc _ _ hb' _   =>
    rw [hb] at hc
    cases hc
    exact hb'

theorem updates (fair : r.Fair .update) (hs : (r.state n).io = .creating ch) (ho : (r.state n).Open) :
    ∃ k, (r.state k).io = .subscribing ch ∧ (r.state k).Open := by
  let P (c : ClientV2) : Prop := c.io = .creating ch ∧ c.Open
  have henabled : ∀ c, P c → client.Enabled c .update :=
    fun c ⟨hs, _⟩ => by simp [Machine.Enabled, client, step, hs]
  have hstable : ∀ t : client.Transition, t.act ≠ .update → P t.pre → P t.post := by
    intro t ha ⟨hs, ho⟩
    have hst := stepped t.valid
    have hne : t.act ≠ .subscribe := by
      intro he
      have ⟨⟨_, hn⟩, _⟩ := (he ▸ hst).sends <| by simp [hs, IOLoop.sub]
      simp [hn] at hs
    exact ⟨hst.creating hs ha, ho.step hst hne⟩
  have ⟨k, _, ⟨hk, ho⟩, ht⟩ := fair.leads_to henabled hstable ⟨hs, ho⟩
  have ⟨_, hst⟩ := takes_stepped ht
  refine ⟨k + 1, ?_, ho.step hst nofun⟩
  cases hst
  case outside hn _ _ _ => simp [hk, IOLoop.sub] at hn
  case update hc he     =>
    rw [hk] at hc
    cases hc
    rw [he]

-- If there is a place in the buffer or the pump makes one, then `IOLoop` leaves `SUB`.
theorem leaves (hu : r.Fair .update) (hs : r.Fair .subscribe) (hr : r.Fair .receive) (ho : (r.state 0).Open) :
    ∃ k, (r.state k).io.sub = none := by
  have hsub : ∀ n ch, (r.state n).io = .subscribing ch → (r.state n).Open → ∃ k, (r.state k).io.sub = none := by
    intro n ch hn ho
    cases ho
    case inl he => exact subscribes hs hn he
    case inr h =>
      have ⟨⟨ch', hb⟩, hp⟩ := h
      have ⟨k, hk, he⟩ := receives hr hn hb hp
      exact subscribes hs hk he
  cases hio : (r.state 0).io
  case creating ch =>
    have ⟨k, hk, ho⟩ := updates hu hio ho
    exact hsub k ch hk ho
  case subscribing ch => exact hsub 0 ch hio ho
  all_goals exact ⟨0, by rw [hio]; rfl⟩

end

-- Nobody is going to make a place in the full buffer.
theorem stuck (hs : c.io = .subscribing ch) (hn : c.subEventChan ≠ []) (hp : c.pump.subEventChan = false) :
    ∃ r : client.Schedule, r.state 0 = c ∧ (∀ a ∈ [.update, .subscribe, .receive], r.Fair a) ∧
      ∀ n, (r.state n).io.sub.isSome := by
  refine ⟨.rest client c, rfl, ?_, fun _ => by simp [Machine.Schedule.rest, hs, IOLoop.sub]⟩
  have hlen : ¬c.subEventChan.length < 1 := by simpa [Nat.lt_one_iff] using hn
  simp only [List.forall_mem_cons]
  refine ⟨Machine.Schedule.fair_rest ?_, Machine.Schedule.fair_rest ?_, Machine.Schedule.fair_rest ?_, nofun⟩
  · simp [Machine.Enabled, client, step, hs]
  · simp [Machine.Enabled, client, step, hs, hlen]
  · cases hb : c.subEventChan <;> simp [Machine.Enabled, client, step, hb, hp]

theorem blockedForever_iff (h : Account es c) :
    c.BlockedForever ↔ c.io.sub.isSome ∧ c.pump.subChannel.isSome ∧ c.subEventChan ≠ [] := by
  constructor
  case mp =>
    intro ⟨r, h0, hfair, hin⟩
    simp only [List.forall_mem_cons] at hfair
    have ⟨hu, hs, hr, _⟩ := hfair
    refine ⟨h0 ▸ hin 0, ?_⟩
    by_contra hn
    have ho : c.Open := by
      cases hc : c.pump.subChannel
      case none      => exact h.open_of_none hc
      case some ch   => exact .inl <| by simpa [hc] using hn
    have ⟨k, hk⟩ := leaves hu hs hr <| h0 ▸ ho
    simpa [hk] using hin k
  case mpr =>
    intro ⟨hs, hc, hn⟩
    have hp := h.received hc
    cases hio : c.io
    case subscribing ch => exact stuck hio hn hp
    case creating ch =>
      have hv : client.step c .update = some ({ c with io := .subscribing ch, channel := some ch }, []) := by
        simp [client, step, hio]
      have ⟨r, h0, hfair, hin⟩ := stuck (c := { c with io := .subscribing ch, channel := some ch }) rfl hn hp
      refine ⟨.cons ⟨c, .update, [], _, hv⟩ r h0, rfl, fun a ha => (hfair a ha).cons, fun n => ?_⟩
      cases n
      case zero   => exact hs
      case succ n => exact hin n
    all_goals simp [hio, IOLoop.sub] at hs

theorem not_enabled_receive (hp : c.pump.subEventChan = false) : ¬client.Enabled c .receive := by
  cases hb : c.subEventChan <;> simp [Machine.Enabled, client, step, hb, hp]

-- At most two commands, and no two different channels that have been answered.
def Accepted (es : List Event) : Prop :=
  (entered es).length ≤ 2 ∧ ∀ a ∈ answered es, ∀ b ∈ answered es, a = b

theorem takesEffect_iff (p : client.Run ts c) : TakesEffect ts c ↔ Accepted (events ts) := by
  have h := account p
  have hiff : TakesEffect ts c ↔
      ¬c.BlockedForever ∧ (¬client.Enabled c .receive → c.pump.subChannel = (answered <| events ts).getLast?) :=
    ⟨fun h => ⟨h.progress, h.effect⟩, fun h => ⟨h.left, h.right⟩⟩
  rw [hiff, blockedForever_iff h, Accepted, h.entered, h.answered]
  have hlen : c.io.sub.toList.length ≤ 1 := by cases c.io.sub <;> simp
  cases hc : c.pump.subChannel
  case none =>
    have hp := h.start hc
    cases h.open_of_none hc
    case inl he => simp [he, hlen.trans]
    case inr h  =>
      have ⟨⟨ch, hb⟩, _⟩ := h
      have hr : client.Enabled c .receive := by simp [Machine.Enabled, client, step, hb, hp, ClientPump.start]
      simp [hb, hr, hlen]
  case some a =>
    have hr := not_enabled_receive <| h.received <| Option.isSome_of_eq_some hc
    match hb : c.subEventChan, h.room with
    | [], _  => simp [hr, hlen]
    | [b], _ =>
      have hall : (∀ x ∈ [a, b], ∀ y ∈ [a, b], x = y) ↔ a = b := by
        constructor
        case mp  => exact fun h => h a (by simp) b (by simp)
        case mpr => simp +contextual [-Prod.forall]
      rw [Option.toList_some, List.singleton_append, hall]
      cases c.io.sub
      case none    => simp [hr]
      case some ch => simp

theorem Accepted.mono (h : Accepted (es₁ ++ es₂)) : Accepted es₁ := by
  have hent : entered (es₁ ++ es₂) = entered es₁ ++ entered es₂ := List.filterMap_append
  have hans : answered (es₁ ++ es₂) = answered es₁ ++ answered es₂ := List.filterMap_append
  have ⟨hl, ha⟩ := h
  rw [hent, List.length_append] at hl
  rw [hans] at ha
  exact ⟨by omega, fun a h₁ b h₂ => ha a (List.mem_append_left _ h₁) b (List.mem_append_left _ h₂)⟩

-- The pump receives from `SubEventChan` only once.
theorem subscribed_iff (p : client.Run ts c) : client.Throughout client.init ts TakesEffect ↔
    (entered <| events ts).length ≤ 2 ∧ ∀ a ∈ answered <| events ts, ∀ b ∈ answered <| events ts, a = b := by
  constructor
  case mp => exact fun h => takesEffect_iff p |>.mp <| h.last p
  case mpr =>
    intro h ts₁ u ⟨ts₂, he⟩ p₁
    subst he
    rw [Machine.events_append] at h
    exact takesEffect_iff p₁ |>.mpr <| Accepted.mono h

-- The channels `t:a` and `t:b`.
def subscription (c : UInt8) : Action :=
  .command ⟨.ofString "SUB t " ++ [c], []⟩ (.ok ())

theorem subscribed_once : client.Throughout client.init
    (client.trace client.init [subscription 0x61, .update, .subscribe, .receive, .respond true]).1 TakesEffect :=
  subscribed_iff (client.path_trace ..) |>.mpr <| by decide

-- The pump goes on to read from the first channel.
theorem not_subscribed_twice : ¬client.Throughout client.init
    (client.trace client.init
      [subscription 0x61, .update, .subscribe, .receive, .respond true,
        subscription 0x62, .update, .subscribe, .respond true]).1 TakesEffect := by
  intro h
  have he := (h.last <| client.path_trace ..).effect <| not_enabled_receive (by decide)
  revert he
  decide

end ClientV2

end Nsqd

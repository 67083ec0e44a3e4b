import LabSystems.Ssdb.Theorems.Copying

namespace Ssdb

namespace Slave

structure Fresh (r : Slave) : Prop where
  lastSeq : r.lastSeq = 0
  lastKey : r.lastKey = []
  kv      : ∀ key, r.kv key = none

-- The position of a slave that has received everything is not ahead of its thread.
structure Behind (r : Slave) (c : Client) : Prop where
  lastSeq : r.lastSeq ≤ c.lastSeq
  rawGet  : ∀ log, c.position = .rawGet log → r.lastSeq < c.lastSeq

-- What holds of a slave while it is in the middle of a copy.
structure Partial (r : Slave) (s : SSDBImpl) : Prop where
  lastSeq : r.lastSeq ≤ s.binlogs.lastSeq
  below   : ∀ key, encodeKvKey key ≤ r.lastKey → r.kv key = s.kv key ∨ Due s.ldb r.lastSeq (encodeKvKey key)
  above   : ∀ key, r.lastKey < encodeKvKey key → r.kv key = none

end Slave

namespace Replication

-- The slave that has received all messages.
def received (s : Replication) : Slave :=
  s.slave.receive s.channel

-- There is nothing to receive, and the loop goes round without doing anything.
def Idle (s : Replication) : Prop :=
  s.channel = [] ∧ ∃ c, s.client = some c ∧ c.step s.master = some (c, [])

instance (s : Replication) : Decidable s.Idle :=
  inferInstanceAs <| Decidable (s.channel = [] ∧ ∃ c ∈ s.client, c.step s.master = some (c, []))

def Skips (s : Replication) : Prop :=
  ∃ c, s.client = some c ∧ c.Skips s.master

-- What an action can do, with the guards under which it does it.
inductive Step (s : Replication) : Action → Replication → Prop
  | set : Step s (.set ok key val) { s with master := s.master.set ok key val |>.1 }
  | del : Step s (.del ok key) { s with master := s.master.del ok key |>.1 }
  | connect (alone : s.client = none) :
    Step s .connect { s with
      client  := (Client.new.init s.slave.request).1
      channel := (Client.new.init s.slave.request).2 }
  | work (serves : s.client = some c) (works : c.step s.master = some (c', ms)) :
    Step s .work { s with client := c', channel := s.channel ++ ms }
  | receive (channel : s.channel = m :: ms) :
    Step s .receive { s with slave := s.slave.proc true m |>.1, channel := ms }
  | restart : Step s .restart { s with client := none, channel := [], slave := s.slave.restart }

theorem Step.of {s s' : Replication} (h : s.step a = some s') : s.Step a s' := by
  cases a
  case set | del | restart =>
    cases h
    constructor
  case connect =>
    rw [Replication.step] at h
    split at h
    case h_1 => cases h
    case h_2 hc =>
      cases h
      exact .connect hc
  case work =>
    have ⟨c, hc, h⟩ := Option.bind_eq_some_iff.mp h
    have ⟨⟨c', ms⟩, hs, h⟩ := Option.bind_eq_some_iff.mp h
    cases h
    exact .work hc hs
  case receive =>
    rw [Replication.step] at h
    split at h
    case h_1 => cases h
    case h_2 hc =>
      cases h
      exact .receive hc

-- The invariant of a session that starts with an empty slave.
structure Session (s : Replication) : Prop where
  written  : s.master.Written
  stored   : s.slave.Stored
  start    : s.client = none → s.channel = [] ∧ s.slave.Fresh
  sound    : ∀ c, s.client = some c → c.Sound s.master
  behind   : ∀ c, s.client = some c → s.received.Behind c
  phase    : ∀ c, s.client = some c →
    c.status = .copy ∧ Copying s.received s.master c ∨ c.status = .sync ∧ Copied s.received s.master c
  prefixes : ∀ ms, ms <+: s.channel → (s.slave.receive ms).lastKey ≠ [] →
    (s.slave.receive ms).Partial s.master

end Replication

section

variable {r : Slave} {s s' : SSDBImpl} {c c' : Client}

theorem Slave.Partial.extends (h : r.Partial s) (he : s.Extends s') : r.Partial s' where
  lastSeq      := h.lastSeq.trans he.lastSeq
  below key hk := by
    rcases he.kv key with hv | hd
    case inl => exact hv ▸ h.below key hk |>.imp_right he.due
    case inr => exact .inr <| hd.mono h.lastSeq
  above        := h.above

theorem Slave.Behind.returned (h : r.lastSeq ≤ c.lastSeq) : r.Behind c.returned := by
  refine ⟨h, fun log hp => ?_⟩
  simp only [Client.returned] at hp
  split at hp <;> cases hp

theorem Slave.Behind.step (h : r.Behind c) (hs : c.Step s c' ms) (hw : s.Written) (hc : c.Sound s) :
    (r.receive ms).Behind c' := by
  have hl := h.lastSeq
  cases hs
  case missing | skip  => exact .returned hl
  case drop hp hf _ _  => exact ⟨hl.trans hf.lt.le, by simp [hp]⟩
  case set hp hf _ _   => exact ⟨hl.trans hf.lt.le, fun _ _ => hl.trans_lt hf.lt⟩
  case enter | pause   => exact ⟨hl, by simp⟩
  case del hf _ hd     =>
    have ⟨_, _, hr⟩ := hf.receives (r := r) hw hd
    exact .returned hr.lastSeq.le
  case send hp hg      =>
    have ⟨_, _, _, hr⟩ := hc.receives (r := r) hw hp hg
    exact .returned <| hr.lastSeq.le.trans (hw.logged.get_seq (hc.rawGet _ hp).left).left.le
  case copy key' val hp _ hk _ =>
    have hr : r.Receives _ key' (some val) _ := Slave.receives_copy c.lastSeq hk
    exact ⟨hr.lastSeq.le.trans Binlog.seq_of.le, by simp⟩
  case copyEnd =>
    rw [Slave.receive_cons, Slave.receive_nil, Slave.proc_end]
    exact ⟨hl, by simp⟩

-- The position of the slave is covered by what is sent next.
theorem Copying.partial (h : Copying r s c) (hb : r.Behind c) (hc : c.Sound s) : r.Partial s where
  lastSeq      := hb.lastSeq.trans hc.lastSeq
  below key hk := by
    rcases h.below key (h.lastKey ▸ hk) with hv | hd | ⟨log, hp, hk'⟩
    case inl     => exact .inl hv
    case inr.inl => exact .inr <| hd.mono hb.lastSeq
    case inr.inr => exact .inr ⟨_, log, hb.rawGet log hp, (hc.rawGet log hp).left, hk'⟩
  above key hk := h.above key (h.lastKey ▸ hk)

theorem Client.Step.messages (h : c.Step s c' ms) : ms = [] ∨ ∃ m, ms = [m] := by
  cases h <;> simp

namespace Replication

variable {s : Replication}

theorem Session.extends (h : s.Session) (hw : m.Written) (he : s.master.Extends m) :
    Session { s with master := m } := { h with
  written              := hw
  sound c hc           := h.sound c hc |>.extends he
  phase c hc           := by
    have hl := (h.sound c hc).lastSeq
    exact h.phase c hc |>.imp (.imp_right (·.extends he hl)) (.imp_right (·.extends he hl))
  prefixes ms hms hne  := h.prefixes ms hms hne |>.extends he }

theorem Session.work (h : s.Session) (hc : s.client = some c) (hs : c.Step s.master c' ms)
    (hn : ¬c.Skips s.master) : Session { s with client := c', channel := s.channel ++ ms } := by
  have hsound := h.sound c hc
  have hsound' := hs.sound h.written hsound
  have hbehind := (h.behind c hc).step hs h.written hsound
  have hphase : c'.status = .copy ∧ Copying (s.received.receive ms) s.master c' ∨
      c'.status = .sync ∧ Copied (s.received.receive ms) s.master c' := by
    rcases h.phase c hc with ⟨hst, hp⟩ | ⟨hst, hp⟩
    case inl => exact hp.step hs h.written hsound hst hn
    case inr =>
      have ⟨hst', hp⟩ := hp.step hs h.written hsound (by simp [hst])
      exact .inr ⟨hst'.trans hst, hp⟩
  have hr : s.received.receive ms = s.slave.receive (s.channel ++ ms) := Slave.receive_append.symm
  rw [hr] at hbehind hphase
  refine { h with
    start hn    := by cases hn
    sound c hc  := by cases hc; exact hsound'
    behind c hc := by cases hc; exact hbehind
    phase c hc  := by cases hc; exact hphase
    prefixes pre hpre hne := ?_ }
  -- Only the slave that has received the new message, too, is new.
  have full (hf : pre = s.channel ++ ms) : (s.slave.receive pre).Partial s.master := by
    subst hf
    rcases hphase with ⟨_, hp⟩ | ⟨_, hp⟩
    case inl => exact hp.partial hbehind hsound'
    case inr => exact absurd hp.lastKey hne
  rcases hs.messages with rfl | ⟨m, rfl⟩
  case inl => exact h.prefixes pre (by simpa using hpre) hne
  case inr =>
    cases List.prefix_concat_iff.mp hpre
    case inl hf => exact full hf
    case inr hp => exact h.prefixes pre hp hne

theorem Session.receive (h : s.Session) (hc : s.channel = m :: ms) :
    Session { s with slave := s.slave.proc true m |>.1, channel := ms } := by
  have hr : received { s with slave := s.slave.proc true m |>.1, channel := ms } = s.received := by
    rw [received, received, hc, Slave.receive_cons]
  refine { h with
    stored      := h.stored.step Slave.proc_step
    start hn    := absurd (h.start hn).left (by simp [hc])
    behind c hc := ?_
    phase c hc  := ?_
    prefixes pre hpre hne := ?_ }
  case refine_1 => exact hr.symm ▸ h.behind c hc
  case refine_2 => exact hr.symm ▸ h.phase c hc
  case refine_3 => exact h.prefixes (m :: pre) (hc ▸ List.cons_prefix_cons.mpr ⟨rfl, hpre⟩) hne

end Replication

-- A slave that has no position gets a copy.
theorem Client.init_request : new.init r.request = if r.lastKey = [] ∧ r.lastSeq = 0 then new.reset else
    ({ new with lastSeq := r.lastSeq, lastKey := r.lastKey }, []) := by
  have hm : (Bytes.ofString "sync" == .ofString "mirror") = false := by decide
  simp [init, Slave.request, hm, reset, new]

theorem Client.sound_reset : new.reset.1.Sound s where
  status        := by simp [Client.reset]
  isMirror      := rfl
  lastSeq       := UInt64.zero_le
  rawGet _ hp   := by cases hp
  copy _        := rfl
  iterates _ hp := by cases hp
  lastKey _     := .inl rfl
  iter _ hi     := by cases hi

theorem Client.sound_init (h : r.lastSeq ≤ s.binlogs.lastSeq) : (new.init r.request).1.Sound s := by
  rw [init_request]
  split
  case isTrue  => exact sound_reset
  case isFalse =>
    exact {
      status        := by simp [new]
      isMirror      := rfl
      lastSeq       := h
      rawGet _ hp   := by cases hp
      copy hp       := by simp [new] at hp
      iterates _ hp := by cases hp
      lastKey hc    := by cases hc
      iter _ hi     := by cases hi }

namespace Replication

variable {s s' : Replication}

theorem Session.connect (h : s.Session) (hn : s.client = none) :
    let r := Client.new.init s.slave.request
    Session { s with client := r.1, channel := r.2 } := by
  have ⟨_, hf⟩ := h.start hn
  have hr : s.slave.receive (Client.new.reset).2 = s.slave := by
    simp [Client.reset, Slave.proc_begin]
  simp only [Client.init_request, hf.lastKey, hf.lastSeq, and_self, if_true]
  refine { h with
    start hn    := by cases hn
    sound c hc  := ?_
    behind c hc := ?_
    phase c hc  := ?_
    prefixes pre hpre hne := ?_ }
  case refine_4 =>
    have hr' : s.slave.receive pre = s.slave := by
      have hpre : pre <+: [] ++ [(Client.new.reset).2.head (by simp [Client.reset])] := hpre
      cases List.prefix_concat_iff.mp hpre
      case inl hp => exact hp ▸ hr
      case inr hp => rw [List.prefix_nil.mp hp, Slave.receive_nil]
    exact absurd hf.lastKey (hr' ▸ hne)
  all_goals
    cases hc
    try rw [received, hr]
  case refine_1.refl => exact Client.sound_reset
  case refine_2.refl => exact ⟨hf.lastSeq ▸ le_refl _, fun _ hp => by cases hp⟩
  case refine_3.refl =>
    exact .inl ⟨rfl, {
      lastKey        := hf.lastKey
      below _ hle    := absurd (List.nil_lt_cons _ _) hle.not_gt
      above key _    := hf.kv key
      ahead _ hi     := by cases hi
      fresh _ _ hi   := by cases hi
      start _ _      := rfl }⟩

theorem Session.step (h : s.Session) (hs : s.step a = some s') (ha : a ≠ .restart)
    (hm : s'.master.binlogs.lastSeq ≠ maxSeq) (hn : a = .work → ¬s.Skips) : s'.Session := by
  cases Step.of hs
  case set =>
    have ⟨hw, he⟩ := h.written.set hm
    exact h.extends hw he
  case del =>
    have ⟨hw, he⟩ := h.written.del hm
    exact h.extends hw he
  case connect hc => exact h.connect hc
  case work c _ _ hc hst => exact h.work hc (.of h.written (h.sound c hc) hst) fun hk => hn rfl ⟨c, hc, hk⟩
  case receive hc => exact h.receive hc
  case restart => exact absurd rfl ha

end Replication

end

namespace Replication

abbrev Transition (id : Bytes) (h : id.length < 128) :=
  (replication id h).Transition

section

variable {id : Bytes} {h : id.length < 128} {ts : List (Transition id h)} {s : Replication}

theorem step_eq (t : Transition id h) : t.pre.step t.act = some t.post := by
  have ⟨_, hs, he⟩ := Option.map_eq_some_iff.mp t.valid
  rw [hs, (Prod.mk.inj he).left]

-- A thread that has no iterator when it looks for the first log does not skip it.
theorem not_skips (h : ∀ c ∈ s.client, c.position = .sync → c.lastSeq = 0 → c.iter.isNone) : ¬s.Skips := by
  rintro ⟨c, hc, hp, _, hl, it, _, hi, _⟩
  have hn := h c hc hp hl
  simp [hi] at hn

theorem session_init : Session (replication id h).init where
  written := .init
  stored  := ⟨rfl, rfl⟩
  start _ := ⟨rfl, rfl, rfl, fun _ => rfl⟩
  sound _ hc  := by cases hc
  behind _ hc := by cases hc
  phase _ hc  := by cases hc
  prefixes ms hms hne := by
    cases List.prefix_nil.mp hms
    exact absurd rfl hne

theorem session_of_run (r : (replication id h).Run ts s) (hr : ∀ t ∈ ts, t.act ≠ .restart)
    (hm : ∀ t ∈ ts, t.post.master.binlogs.lastSeq ≠ maxSeq) (hs : ∀ t ∈ ts, t.act = .work → ¬t.pre.Skips) :
    s.Session :=
  r.invariant_of (C := fun t => t.act ≠ .restart ∧ t.post.master.binlogs.lastSeq ≠ maxSeq ∧
    (t.act = .work → ¬t.pre.Skips)) session_init (fun t ht => ⟨hr t ht, hm t ht, hs t ht⟩)
    fun t ⟨hr, hm, hs⟩ hp => hp.step (step_eq t) hr hm hs

theorem Idle.last (hi : s.Idle) (hw : s.master.Written) (hs : ∀ c, s.client = some c → c.Sound s.master) :
    ∃ c, s.client = some c ∧ c.status ≠ .copy ∧ c.position = .sync ∧ c.lastSeq = s.master.binlogs.lastSeq := by
  have ⟨_, c, hc, hstep⟩ := hi
  exact ⟨c, hc, Client.Step.of hw (hs c hc) hstep |>.idle rfl rfl⟩

-- As long as a thread does not skip logs, its slave gets all data of the master.
theorem converges (r : (replication id h).Run ts s) (hr : ∀ t ∈ ts, t.act ≠ .restart)
    (hm : ∀ t ∈ ts, t.post.master.binlogs.lastSeq ≠ maxSeq) (hs : ∀ t ∈ ts, t.act = .work → ¬t.pre.Skips)
    (hi : s.Idle) : s.slave.ssdb.get true = s.master.get true := by
  have hse := session_of_run r hr hm hs
  have ⟨c, hc, hst, hp, hl⟩ := hi.last hse.written hse.sound
  have hcp := hse.phase c hc |>.resolve_left (fun h => hst h.left) |>.right
  have hr : s.received = s.slave := by rw [received, hi.left, Slave.receive_nil]
  refine SSDBImpl.get_eq_iff.mpr fun key => ?_
  rcases hr ▸ hcp.keys key with hk | hd | ⟨_, hp', _⟩
  case inl     => exact hk
  case inr.inl => exact absurd (hl ▸ hd) hse.written.not_due
  case inr.inr => cases hp.symm.trans hp'

end

-- A key is copied, and another one is written in the meantime.
def copied : List (Transition [] length_nil_lt) × Replication :=
  Machine.trace _ (replication [] length_nil_lt).init
    [.set true [97] [1], .connect, .work, .work, .work, .set true [98] [2], .work, .work, .work, .work, .receive,
      .receive, .receive, .receive]

theorem converges_copied : copied.2.slave.ssdb.get true = copied.2.master.get true :=
  converges (Machine.path_trace ..) (by decide +kernel) (by decide +kernel)
    (fun t ht _ => not_skips <| (by decide +kernel : ∀ t ∈ copied.1, ∀ c ∈ t.pre.client,
      c.position = .sync → c.lastSeq = 0 → c.iter.isNone) t ht) (by decide +kernel)

end Replication

end Ssdb

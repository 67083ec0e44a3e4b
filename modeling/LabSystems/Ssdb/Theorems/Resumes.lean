import LabSystems.Ssdb.Theorems.Converges

namespace Ssdb

namespace Replication

-- What holds in all runs, in which the slave may be restarted.
structure Served (s : Replication) : Prop where
  written : s.master.Written
  stored  : s.slave.Stored
  lastSeq : s.slave.lastSeq ≤ s.master.binlogs.lastSeq
  channel : ∀ m ∈ s.channel, ∀ log, Binlog.load (m.headD []) = some log → log.seq ≤ s.master.binlogs.lastSeq
  sound   : ∀ c, s.client = some c → c.Sound s.master

-- What holds of a session of a slave that has been in the middle of a copy.
structure Resumed (m : SSDBImpl) (p : UInt64) (kv : Bytes → Option Bytes) (s : Replication) : Prop where
  extends' : m.Extends s.master
  start    : s.client = none → s.channel = [] ∧ s.slave.lastSeq = p ∧ s.slave.lastKey ≠ [] ∧ s.slave.kv = kv
  status   : ∀ c, s.client = some c → c.status = .init ∧ p ≤ c.lastSeq ∧
    ∀ log, c.position = .rawGet log → p < c.lastSeq
  due      : ∀ c, s.client = some c → ∀ key, Due s.master.ldb p (encodeKvKey key) →
    Current s.received s.master c key
  others   : ∀ c, s.client = some c → ∀ key, ¬Due s.master.ldb p (encodeKvKey key) → s.received.kv key = kv key

end Replication

section

variable {r r' : Slave} {s s' : SSDBImpl} {c c' : Client}

theorem Slave.Step.lastSeq (h : r.Step (.proc ok req) r' o) :
    r'.lastSeq = r.lastSeq ∨ ∃ log, Binlog.load (req.headD []) = some log ∧ r'.lastSeq = log.seq := by
  cases h
  case ignored | ended | failed => exact .inl rfl
  case skipped | applied        => exact .inr ⟨_, ‹_›, rfl⟩

-- What is sent has the number of a log.
theorem Client.Step.seq (h : c.Step s c' ms) (hw : s.Written) (hc : c.Sound s) (hm : m ∈ ms)
    (hl : Binlog.load (m.headD []) = some log) : log.seq ≤ s.binlogs.lastSeq := by
  have head {log' : Binlog} {m' : List Bytes} (he : m = log'.buf :: m') : log = log' := by
    rw [he, List.headD_cons, Binlog.load_buf] at hl
    exact (Option.some.inj hl).symm
  cases h
  case missing | drop | set | skip | enter | pause => simp at hm
  case del hf _ _    => exact head (List.mem_singleton.mp hm) ▸ hf.le hw
  case send hp _     =>
    rw [head (List.mem_singleton.mp hm), hw.logged.get_seq (hc.rawGet _ hp).left |>.left]
    exact hc.lastSeq
  case copy | copyEnd =>
    rw [head (List.mem_singleton.mp hm), Binlog.seq_of]
    exact hc.lastSeq

-- A thread that has not begun a copy does not begin one.
theorem Client.Step.resumed (h : c.Step s c' ms) (hc : c.Sound s) (hi : c.status = .init) (hle : p ≤ c.lastSeq) :
    c'.status = .init ∧ p ≤ c'.lastSeq ∧ ∀ log, c'.position = .rawGet log → p < c'.lastSeq := by
  have hn {c : Client} (hi : c.status = .init) (log : Binlog) : c.returned.position ≠ .rawGet log := by
    simp [returned, hi]
  have hcopy {count : Nat} (hp : c.position = .iterate count) : False := by
    have hn := hc.copy (.inr ⟨count, hp⟩)
    rw [hi] at hn
    cases hn
  cases h
  case missing | send | skip => exact ⟨hi, hle, fun _ hp => absurd hp (hn hi _)⟩
  case drop hst _            => cases hi.symm.trans hst
  case set hf _ _            => exact ⟨hi, hle.trans hf.lt.le, fun _ _ => hle.trans_lt hf.lt⟩
  case del hf _ _            => exact ⟨hi, hle.trans hf.lt.le, fun _ hp => absurd hp (hn hi _)⟩
  case enter | pause         => exact ⟨hi, hle, fun _ hp => by cases hp⟩
  case copy hp _ _ _ | copyEnd hp _ _ => exact (hcopy hp).elim

namespace Replication

variable {s s' : Replication} {p : UInt64}

theorem Served.extends (h : s.Served) (hw : m.Written) (he : s.master.Extends m) :
    Served { s with master := m } := { h with
  written            := hw
  lastSeq            := h.lastSeq.trans he.lastSeq
  channel m hm log hl := h.channel m hm log hl |>.trans he.lastSeq
  sound c hc         := h.sound c hc |>.extends he }

theorem Served.connect (h : s.Served) :
    let r := Client.new.init s.slave.request
    Served { s with client := r.1, channel := r.2 } := { h with
  sound c hc          := by cases hc; exact Client.sound_init h.lastSeq
  channel m hm log hl := by
    rw [Client.init_request] at hm
    split at hm
    case isFalse => cases hm
    case isTrue  =>
      rw [List.mem_singleton.mp hm, List.headD_cons, Binlog.load_buf] at hl
      rw [← Option.some.inj hl, Binlog.seq_of]
      exact UInt64.zero_le }

theorem Served.work (h : s.Served) (hc : s.client = some c) (hs : c.Step s.master c' ms) :
    Served { s with client := c', channel := s.channel ++ ms } := { h with
  sound c hc'         := by cases hc'; exact hs.sound h.written (h.sound c hc)
  channel m hm log hl := by
    cases List.mem_append.mp hm
    case inl hm => exact h.channel m hm log hl
    case inr hm => exact hs.seq h.written (h.sound c hc) hm hl }

theorem Served.receive (h : s.Served) (hc : s.channel = m :: ms) :
    Served { s with slave := s.slave.proc true m |>.1, channel := ms } := { h with
  stored  := h.stored.step Slave.proc_step
  lastSeq := by
    have hp : s.slave.Step (.proc true m) (s.slave.proc true m).1 _ := Slave.proc_step
    rcases hp.lastSeq with hl | ⟨log, hl, hs⟩
    case inl => exact hl ▸ h.lastSeq
    case inr => exact hs ▸ h.channel m (by simp [hc]) log hl
  channel m' hm := h.channel m' (by simp [hc, hm]) }

theorem Served.restart (h : s.Served) : Served { s with client := none, channel := [], slave := s.slave.restart } := { h with
  stored    := h.stored.step .restart
  lastSeq   := h.stored.lastSeq ▸ h.lastSeq
  channel _ hm := by cases hm
  sound _ hc   := by cases hc }

theorem Served.step (h : s.Served) (hs : s.step a = some s') (hm : s'.master.binlogs.lastSeq ≠ maxSeq) :
    s'.Served := by
  cases Step.of hs
  case set =>
    have ⟨hw, he⟩ := h.written.set hm
    exact h.extends hw he
  case del =>
    have ⟨hw, he⟩ := h.written.del hm
    exact h.extends hw he
  case connect     => exact h.connect
  case work hc hst => exact h.work hc <| .of h.written (h.sound _ hc) hst
  case receive hc  => exact h.receive hc
  case restart     => exact h.restart

theorem Resumed.extends (h : s.Resumed m₀ p kv) (hs : s.Served) (he : s.master.Extends m) :
    Resumed m₀ p kv { s with master := m } := { h with
  extends'         := h.extends'.trans he
  due c hc key hd  := by
    have hl := (hs.sound c hc).lastSeq
    rcases he.due_new hs.written.logged hd with hd | hd
    case inl => exact h.due c hc key hd |>.extends he hl
    case inr => exact .inr <| .inl <| hd.mono hl
  others c hc key hd := h.others c hc key fun hd' => hd <| he.due hd' }

theorem Resumed.connect (h : s.Resumed m p kv) (hn : s.client = none) :
    let r := Client.new.init s.slave.request
    Resumed m p kv { s with client := r.1, channel := r.2 } := by
  have ⟨_, hl, hk, hkv⟩ := h.start hn
  simp only [Client.init_request, hk, false_and, if_false]
  refine { h with
    start hn      := by cases hn
    status c hc   := by cases hc; exact ⟨rfl, hl.ge, nofun⟩
    due c hc key hd    := by cases hc; exact .inr <| .inl <| hl ▸ hd
    others c hc key _  := hkv ▸ rfl }

-- What is sent is about keys that are due.
theorem Resumed.kv_of_not_due (h : s.Resumed m p kv) (hs : s.Served) (hc : s.client = some c)
    (hst : c.Step s.master c' ms) (hd : ¬Due s.master.ldb p (encodeKvKey key)) :
    (s.received.receive ms).kv key = s.received.kv key := by
  have ⟨hst', hle, hlt⟩ := h.status c hc
  have hsound := hs.sound c hc
  have hcopy {count : Nat} (hp : c.position = .iterate count) : False := by
    have hn := hsound.copy (.inr ⟨count, hp⟩)
    rw [hst'] at hn
    cases hn
  cases hst
  case missing | drop | set | skip | enter | pause => rfl
  case del hf _ hk =>
    have ⟨_, hl, hr⟩ := hf.receives (r := s.received) hs.written hk
    exact hr.kv_of_ne hl.about fun he => hd ⟨_, _, hle.trans_lt hf.lt, hf.get, he⟩
  case send hp hg  =>
    have ⟨_, hl, _, hr⟩ := hsound.receives (r := s.received) hs.written hp hg
    exact hr.kv_of_ne hl.about fun he => hd ⟨_, _, hlt _ hp, (hsound.rawGet _ hp).left, he⟩
  case copy hp _ _ _ | copyEnd hp _ _ => exact (hcopy hp).elim

theorem Resumed.work (h : s.Resumed m p kv) (hs : s.Served) (hc : s.client = some c) (hst : c.Step s.master c' ms) :
    Resumed m p kv { s with client := c', channel := s.channel ++ ms } := by
  have ⟨hi, hle, _⟩ := h.status c hc
  have hsound := hs.sound c hc
  refine { h with
    start hn           := by cases hn
    status c hc'       := by cases hc'; exact hst.resumed hsound hi hle
    due c hc' key hd    := ?_
    others c hc' key hd := ?_ }
  all_goals
    cases hc'
    rw [received, Slave.receive_append]
  case refine_1.refl => exact h.due _ hc key hd |>.step_of_ne hst hs.written hsound (by simp [hi])
  case refine_2.refl => exact h.kv_of_not_due hs hc hst hd |>.trans <| h.others _ hc key hd

theorem Resumed.receive (h : s.Resumed m₀ p kv) (hc : s.channel = m :: ms) :
    Resumed m₀ p kv { s with slave := s.slave.proc true m |>.1, channel := ms } := by
  have hr : received { s with slave := s.slave.proc true m |>.1, channel := ms } = s.received := by
    rw [received, received, hc, Slave.receive_cons]
  exact { h with
    start hn := absurd (h.start hn).left (by simp [hc])
    due      := hr.symm ▸ h.due
    others   := hr.symm ▸ h.others }

theorem Resumed.step (h : s.Resumed m p kv) (hs : s.Served) (hst : s.step a = some s') (ha : a ≠ .restart)
    (hm : s'.master.binlogs.lastSeq ≠ maxSeq) : s'.Resumed m p kv := by
  cases Step.of hst
  case set         => exact h.extends hs (hs.written.set hm).right
  case del         => exact h.extends hs (hs.written.del hm).right
  case connect hc  => exact h.connect hc
  case work hc hc' => exact h.work hs hc <| .of hs.written (hs.sound _ hc) hc'
  case receive hc  => exact h.receive hc
  case restart     => exact absurd rfl ha

section

variable {id : Bytes} {h : id.length < 128} {ts ts₁ ts₂ : List (Transition id h)} {t : Transition id h}

theorem served_init : Served (replication id h).init where
  written        := .init
  stored         := ⟨rfl, rfl⟩
  lastSeq        := UInt64.zero_le
  channel _ hm   := by cases hm
  sound _ hc     := by cases hc

theorem served_of_run (r : (replication id h).Run ts s) (hm : ∀ t ∈ ts, t.post.master.binlogs.lastSeq ≠ maxSeq) :
    s.Served :=
  r.invariant_of served_init hm fun t hm hs => hs.step (step_eq t) hm

theorem resumed_of_restart (hs : t.pre.Served) (ht : t.act = .restart) (hk : t.post.slave.lastKey ≠ []) :
    t.post.Served ∧ t.post.Resumed t.pre.master t.post.slave.lastSeq t.pre.slave.kv := by
  have he := step_eq t
  rw [ht] at he
  have he := Option.some.inj he
  rw [← he] at hk ⊢
  exact ⟨hs.restart, {
    extends'       := .refl
    start _        := ⟨rfl, rfl, hk, rfl⟩
    status _ hc    := by cases hc
    due _ hc       := by cases hc
    others _ hc    := by cases hc }⟩

theorem resumed_of_run (r : (replication id h).Run (ts₁ ++ t :: ts₂) s) (ht : t.act = .restart)
    (hk : t.post.slave.lastKey ≠ []) (hr : ∀ t ∈ ts₂, t.act ≠ .restart)
    (hm : ∀ u ∈ ts₁ ++ t :: ts₂, u.post.master.binlogs.lastSeq ≠ maxSeq) :
    s.Served ∧ s.Resumed t.pre.master t.post.slave.lastSeq t.pre.slave.kv := by
  have ⟨r₁, p₂⟩ := r.split_cons
  have hs := served_of_run r₁ fun u hu => hm u <| by simp [hu]
  refine p₂.invariant_of (I := fun s => s.Served ∧ s.Resumed t.pre.master t.post.slave.lastSeq t.pre.slave.kv)
    (C := fun u => u.act ≠ .restart ∧ u.post.master.binlogs.lastSeq ≠ maxSeq) (resumed_of_restart hs ht hk)
    (fun u hu => ⟨hr u hu, hm u <| by simp [hu]⟩) fun u ⟨hr, hm⟩ ⟨hs, hre⟩ => ?_
  exact ⟨hs.step (step_eq u) hm, hre.step hs (step_eq u) hr hm⟩

theorem Resumed.kv_iff (h : s.Resumed m p kv) (hs : s.Served) (hi : s.Idle) (key : Bytes) :
    s.slave.kv key = s.master.kv key ↔ Due s.master.ldb p (encodeKvKey key) ∨ kv key = s.master.kv key := by
  have ⟨c, hc, _, hp, hl⟩ := hi.last hs.written hs.sound
  have hr : s.received = s.slave := by rw [received, hi.left, Slave.receive_nil]
  have hdue := h.due c hc key
  have hothers := h.others c hc key
  rw [hr] at hdue hothers
  by_cases hd : Due s.master.ldb p (encodeKvKey key)
  case neg => rw [hothers hd, or_iff_right hd]
  case pos =>
    refine iff_of_true ?_ (.inl hd)
    rcases hdue hd with hk | hd | ⟨_, hp', _⟩
    case inl     => exact hk
    case inr.inl => exact absurd (hl ▸ hd) hs.written.not_due
    case inr.inr => cases hp.symm.trans hp'

-- The keys that have been copied are there, or are going to be.
theorem Resumed.above_iff (h : s.Resumed m p r.kv) (hr : r.Partial m) (hp : r.lastSeq = p) (key : Bytes) :
    Due s.master.ldb p (encodeKvKey key) ∨ r.kv key = s.master.kv key ↔
      (r.lastKey < encodeKvKey key → (s.master.kv key).isSome → Due s.master.ldb p (encodeKvKey key)) := by
  subst hp
  rcases lt_or_ge r.lastKey (encodeKvKey key) with hlt | hle
  case inl =>
    rw [hr.above key hlt, or_comm, or_iff_not_imp_left, eq_comm, ← ne_eq, ← Option.isSome_iff_ne_none]
    exact ⟨fun hi _ => hi, fun hi => hi hlt⟩
  case inr =>
    refine iff_of_true ?_ fun hlt => absurd hlt hle.not_gt
    rcases hr.below key hle with hk | hd
    case inr => exact .inl <| h.extends'.due hd
    case inl =>
      rcases h.extends'.kv key with hk' | hd
      case inl => exact .inr <| hk.trans hk'.symm
      case inr => exact .inl <| hd.mono hr.lastSeq

-- A slave that has been restarted in the middle of a copy does not get the rest of the copy, but only
-- what is in the log after its position.
theorem resumes_iff (r : (replication id h).Run (ts₁ ++ t :: ts₂) s) (ht : t.act = .restart)
    (hk : t.post.slave.lastKey ≠ []) (hr : ∀ t ∈ ts₂, t.act ≠ .restart)
    (hm : ∀ u ∈ ts₁ ++ t :: ts₂, u.post.master.binlogs.lastSeq ≠ maxSeq) (hi : s.Idle) :
    (s.slave.ssdb.get true = s.master.get true ↔ ∀ key,
      Due s.master.ldb t.post.slave.lastSeq (encodeKvKey key) ∨ t.pre.slave.kv key = s.master.kv key) ∧
    ((∀ u ∈ ts₁, u.act ≠ .restart) → (∀ u ∈ ts₁, u.act = .work → ¬u.pre.Skips) →
      (s.slave.ssdb.get true = s.master.get true ↔ ∀ key, t.post.slave.lastKey < encodeKvKey key →
        (s.master.kv key).isSome → Due s.master.ldb t.post.slave.lastSeq (encodeKvKey key))) := by
  have ⟨hs, hre⟩ := resumed_of_run r ht hk hr hm
  have hkv : s.slave.ssdb.get true = s.master.get true ↔ ∀ key,
      Due s.master.ldb t.post.slave.lastSeq (encodeKvKey key) ∨ t.pre.slave.kv key = s.master.kv key :=
    SSDBImpl.get_eq_iff.trans <| forall_congr' fun key => hre.kv_iff hs hi key
  refine ⟨hkv, fun hr₁ hn => hkv.trans <| forall_congr' fun key => ?_⟩
  have ⟨r₁, _⟩ := r.split_cons
  have hse := session_of_run r₁ hr₁ (fun u hu => hm u <| by simp [hu]) hn
  have he := step_eq t
  rw [ht] at he
  have hslave : t.pre.slave.restart = t.post.slave := congrArg slave <| Option.some.inj he
  have hk' : t.pre.slave.lastKey ≠ [] := by rwa [← hse.stored.lastKey, hslave]
  have hp := hse.prefixes [] List.nil_prefix hk'
  have hseq : t.pre.slave.lastSeq = t.post.slave.lastSeq := by rw [← hslave, hse.stored.lastSeq]
  have habove := hre.above_iff hp hseq key
  rwa [← hse.stored.lastKey, hslave] at habove

end

-- The slave is restarted when it has one of two keys.
def interrupted : List (Transition [] length_nil_lt) × Replication :=
  Machine.trace _ (replication [] length_nil_lt).init
    [.set true [97] [1], .set true [98] [2], .connect, .work, .work, .work, .work, .receive, .receive]

def restarted : Transition [] length_nil_lt :=
  let s := interrupted.2
  ⟨s, .restart, [], { s with client := none, channel := [], slave := s.slave.restart }, rfl⟩

def resumed (as : List Action) : List (Transition [] length_nil_lt) × Replication :=
  Machine.trace _ restarted.post as

theorem run_resumed (as : List Action) :
    (replication [] (by decide)).Run (interrupted.1 ++ restarted :: (resumed as).1) (resumed as).2 := by
  have hp : restarted.pre = interrupted.2 := by rw [restarted]
  have p₁ : Machine.Path _ _ interrupted.1 interrupted.2 := Machine.path_trace _ _ _
  rw [← hp] at p₁
  have p₂ : Machine.Path _ restarted.post (resumed as).1 (resumed as).2 := Machine.path_trace _ _ _
  exact p₁.trans <| (Machine.Path.single restarted).trans p₂

-- The other key is written once more.
def rewritten : List (Transition [] length_nil_lt) × Replication :=
  resumed [.connect, .set true [98] [3], .work, .work, .receive]

theorem run_rewritten :
    (replication [] (by decide)).Run (interrupted.1 ++ restarted :: rewritten.1) rewritten.2 :=
  run_resumed _

theorem due_rewritten (hk : restarted.post.slave.lastKey < encodeKvKey key) (hm : (rewritten.2.master.kv key).isSome) :
    Due rewritten.2.master.ldb restarted.post.slave.lastSeq (encodeKvKey key) := by
  have hall : ∀ k ∈ rewritten.2.master.ldb.keys, k.head? = some DataType.kv → restarted.post.slave.lastKey < k →
      k = encodeKvKey [98] := by decide +kernel
  have ⟨log, hg, hl⟩ : ∃ log ∈ BinlogQueue.get rewritten.2.master.ldb 3, log.key = encodeKvKey [98] := by decide +kernel
  exact ⟨3, log, by decide +kernel, hg, hl.trans (hall _ (Ordered.Map.mem_keys.mpr hm) rfl hk).symm⟩

theorem resumes_rewritten : rewritten.2.slave.ssdb.get true = rewritten.2.master.get true := by
  have hs : ∀ t ∈ interrupted.1, ∀ c ∈ t.pre.client, c.position = .sync → c.lastSeq = 0 → c.iter.isNone := by
    decide +kernel
  have h := resumes_iff run_rewritten rfl (by decide +kernel) (by decide +kernel) (by decide +kernel) (by decide +kernel)
    |>.right (by decide +kernel) fun t ht _ => not_skips <| hs t ht
  exact h.mpr fun _ => due_rewritten

-- The other key is neither written again nor copied.
theorem not_resumes : ¬∀ (id : Bytes) (h : id.length < 128) (ts₁ ts₂ : List (Transition id h)) (t : Transition id h)
    (s : Replication), (replication id h).Run (ts₁ ++ t :: ts₂) s → t.act = .restart → t.post.slave.lastKey ≠ [] →
      (∃ c ∈ t.pre.client, c.status = .copy) → (∀ u ∈ ts₁ ++ ts₂, u.act ≠ .restart) → s.Idle →
        s.slave.ssdb.get true = s.master.get true := by
  intro hall
  have he := hall [] _ _ _ restarted _ (run_resumed [.connect]) rfl (by decide +kernel) (by decide +kernel)
    (by decide +kernel) (by decide +kernel)
  have hk : (resumed [.connect]).2.slave.ssdb.get true [98] ≠ (resumed [.connect]).2.master.get true [98] := by
    decide +kernel
  exact hk <| congrFun he [98]

end Replication

end

end Ssdb

import LabSystems.Ssdb.Theorems.Settles

namespace Ssdb

open Ordered (Map)

-- A slave has an old value, and is not going to be sent anything for the key.
structure Stale (key : Bytes) (v : Option Bytes) (r : Slave) (s : SSDBImpl) (c : Client) : Prop where
  kv     : r.kv key = v
  below  : c.status = .copy → encodeKvKey key ≤ c.lastKey
  due    : ¬Due s.ldb c.lastSeq (encodeKvKey key)
  rawGet : ∀ log, c.position = .rawGet log → log.key ≠ encodeKvKey key

section

variable {r r' : Slave} {s : SSDBImpl} {c c' : Client} {log : Binlog}

theorem Stale.step (h : Stale key v r s c) (hs : c.Step s c' ms) (hw : s.Written) (hc : c.Sound s) :
    Stale key v (r.receive ms) s c' := by
  have returned {c : Client} {log : Binlog} (hp : c.returned.position = .rawGet log) : False := by
    simp only [Client.returned] at hp
    split at hp <;> cases hp
  -- A log that is found is about another key.
  have find {log : Binlog} (hf : c.Finds s log) : log.key ≠ encodeKvKey key ∧
      ¬Due s.ldb log.seq (encodeKvKey key) :=
    ⟨fun he => h.due ⟨_, log, hf.lt, hf.get, he⟩, fun hd => h.due <| hd.mono hf.lt.le⟩
  cases hs
  case missing | skip   => exact ⟨h.kv, h.below, h.due, fun _ hp => (returned hp).elim⟩
  case drop hf _ _      => exact ⟨h.kv, h.below, (find hf).right, h.rawGet⟩
  case set hf _ _       =>
    refine ⟨h.kv, h.below, (find hf).right, fun _ hp => ?_⟩
    cases hp
    exact (find hf).left
  case del hf _ hd      =>
    obtain ⟨_, hl, hr⟩ := hf.receives (r := r) hw hd
    have hv := hr.kv_of_ne hl.about (find hf).left
    exact ⟨hv.trans h.kv, h.below, (find hf).right, fun _ hp => (returned hp).elim⟩
  case send hp hg       =>
    obtain ⟨_, hl, _, hr⟩ := hc.receives (r := r) hw hp hg
    have hv := hr.kv_of_ne hl.about <| h.rawGet _ hp
    exact ⟨hv.trans h.kv, h.below, h.due, fun _ hp => (returned hp).elim⟩
  case enter | pause    => exact ⟨h.kv, h.below, h.due, fun _ hp => by cases hp⟩
  case copy it key' val hp hi hk he =>
    have hst := hc.copy <| .inr ⟨_, hp⟩
    obtain ⟨_, hlt, _⟩ := Map.first_eq_some.mp <| (hc.iter it hi).left.symm.trans he
    have hlt := (h.below hst).trans_lt <| Client.lt_copyStart.mp hlt
    have hr : r.Receives _ key' (some val) _ := Slave.receives_copy c.lastSeq hk
    have hv := hr.kv_of_ne Binlog.key_of (by rw [Binlog.key_of]; exact hlt.ne')
    exact ⟨hv.trans h.kv, fun _ => hlt.le, h.due, fun _ hp => by cases hp⟩
  case copyEnd          =>
    rw [Slave.receive_cons, Slave.receive_nil, Slave.proc_end]
    exact ⟨h.kv, (by cases ·), h.due, fun _ hp => (by cases hp)⟩

end

namespace SSDBImpl

variable {s : SSDBImpl}

theorem lastSeq_set (h : key ≠ []) : (s.set true key val).1.binlogs.lastSeq = s.binlogs.lastSeq + 1 := by
  rw [set, if_neg h]
  rfl

theorem get_lastSeq_set (h : key ≠ []) : BinlogQueue.get (s.set true key val).1.ldb (s.binlogs.lastSeq + 1) =
    some (.of (s.binlogs.lastSeq + 1) BinlogType.sync BinlogCommand.kset (encodeKvKey key)) := by
  rw [set, if_neg h]
  exact (congrArg (Option.bind · _) Map.get_insert_self).trans <| Binlog.load_buf _

end SSDBImpl

-- The keys of a run in which a thread skips logs. They are in the order of their lengths.
def zeros (n : Nat) : Bytes :=
  List.replicate n 0

theorem zeros_lt : zeros n < zeros m ↔ n < m := by
  induction n generalizing m
  case zero => cases m <;> simp [zeros, List.replicate_succ]
  case succ n hi =>
    cases m
    case zero   => simp [zeros]
    case succ m =>
      simp only [zeros, List.replicate_succ, List.cons_lt_cons_iff, lt_self_iff_false, true_and, false_or]
      exact hi.trans Nat.succ_lt_succ_iff.symm

theorem encodeKvKey_lt : encodeKvKey key < encodeKvKey key' ↔ key < key' := by
  simp [encodeKvKey]

-- A master that has the first keys.
structure SSDBImpl.Zeros (s : SSDBImpl) (n : Nat) : Prop where
  written : s.Written
  lastSeq : s.binlogs.lastSeq.toNat = n
  kv      : ∀ key v, s.kv key = some v ↔ v = [0] ∧ ∃ i, 1 ≤ i ∧ i ≤ n ∧ key = zeros i

theorem SSDBImpl.Zeros.set {s : SSDBImpl} (h : s.Zeros n) (hn : n + 1 < 2 ^ 64 - 1) :
    (s.set true (zeros (n + 1)) [0]).1.Zeros (n + 1) := by
  have hz : zeros (n + 1) ≠ [] := by simp [zeros]
  have hl : (s.set true (zeros (n + 1)) [0]).1.binlogs.lastSeq.toNat = n + 1 := by
    rw [lastSeq_set hz, UInt64.toNat_add_one h.written.bound, h.lastSeq]
  refine ⟨h.written.set (fun he => ?_) |>.left, hl, fun key v => ?_⟩
  case refine_1 =>
    have hm : maxSeq.toNat = 2 ^ 64 - 1 := by decide
    rw [he, hm] at hl
    omega
  case refine_2 =>
    rw [kv_set hz]
    split
    case isTrue he =>
      subst he
      refine ⟨fun hv => ⟨(Option.some.inj hv).symm, n + 1, by omega, le_refl _, rfl⟩, fun hv => hv.left ▸ rfl⟩
    case isFalse he =>
      refine (h.kv key v).trans <| and_congr_right fun _ => exists_congr fun i => and_congr_right fun _ =>
        and_congr_left fun hk => ⟨fun hi => hi.trans <| Nat.le_succ n, fun hi => ?_⟩
      refine Nat.lt_succ_iff.mp <| lt_of_le_of_ne hi fun he' => he ?_
      rw [hk, he']

namespace Replication

variable {id : Bytes} {h : id.length < 128} {s s' : Replication} {c c' : Client} {m : SSDBImpl} {r : Slave}

-- A state that is reached without a restart.
def Reached (id : Bytes) (h : id.length < 128) (s : Replication) : Prop :=
  ∃ ts : List (Transition id h), (replication id h).Run ts s ∧ ∀ t ∈ ts, t.act ≠ .restart

theorem Reached.step (hr : Reached id h s) (hs : s.step a = some s') (ha : a ≠ .restart) : Reached id h s' := by
  have ⟨ts, r, hts⟩ := hr
  have hv : (replication id h).step s a = some (s', []) := by simp [replication, hs]
  refine ⟨ts ++ [⟨s, a, [], s', hv⟩], r.snoc ⟨s, a, [], s', hv⟩, fun t ht => ?_⟩
  cases List.mem_append.mp ht
  case inl ht => exact hts t ht
  case inr ht => exact List.mem_singleton.mp ht ▸ ha

theorem Reached.work (hr : Reached id h s) (hc : s.client = some c) (hs : c.step s.master = some (c', ms)) :
    Reached id h { s with client := some c', channel := s.channel ++ ms } :=
  hr.step (a := .work) (by simp [Replication.step, hc, hs]) nofun

-- The thread has found no logs, and is about to copy.
def started (id : Bytes) (h : id.length < 128) : Replication where
  master  := .open .empty
  client  := some { Client.new with status := .copy, position := .copy }
  channel := Client.new.reset.2
  slave   := ⟨id, h, 0, [], .open .empty, .open .empty⟩

theorem reached_started : Reached id h (started id h) := by
  have hr : Reached id h (replication id h).init := ⟨[], .nil, by simp⟩
  have hf : BinlogQueue.findLast (SSDBImpl.open .empty).ldb = .missing := by decide
  have hc : (replication id h).init.step .connect = some { (replication id h).init with
      client := some Client.new.reset.1, channel := Client.new.reset.2 } := by
    rw [Replication.step]
    simp only [replication, Client.init_request, and_self, if_true]
  have hs : (Client.new.reset.1).step (.open .empty) = some ({ Client.new with status := .copy, position := .copy }, []) := by
    rw [Client.reset, Client.step]
    simp only [Client.new, Client.find, and_self, if_true, hf, Client.returned, reduceCtorEq, if_false]
  have hw := hr.step hc (by simp) |>.work rfl hs
  rwa [List.append_nil] at hw

theorem exists_zeros (id : Bytes) (h : id.length < 128) (n : Nat) (hn : n < 2 ^ 64 - 1) :
    ∃ m, Reached id h { started id h with master := m } ∧ m.Zeros n := by
  induction n
  case zero =>
    refine ⟨_, reached_started, .init, rfl, fun key v => ?_⟩
    refine iff_of_false (by simp [SSDBImpl.kv, SSDBImpl.open]) ?_
    rintro ⟨_, i, _, _, _⟩
    omega
  case succ n hi =>
    obtain ⟨m, hr, hz⟩ := hi (by omega)
    exact ⟨_, hr.step (a := .set true (zeros (n + 1)) [0]) rfl (by simp), hz.set hn⟩

-- A thread that has copied the first keys, and has found no logs.
structure Copies (c : Client) (s : SSDBImpl) (r : Slave) (n : Nat) : Prop where
  sound    : c.Sound s
  status   : c.status = .copy
  lastSeq  : c.lastSeq = 0
  lastKey  : c.lastKey = if n = 0 then [] else encodeKvKey (zeros n)
  position : c.position = .iterate n
  iter     : ∃ it, c.iter = some it ∧ it.cursor.map = s.ldb
  kv       : 1 ≤ n → r.kv (zeros 1) = some [0]

theorem Copies.lastKey_lt (hc : Copies c m r n) (hi : 1 ≤ i) : c.lastKey < encodeKvKey (zeros i) ↔ n < i := by
  rw [hc.lastKey]
  split
  case isTrue hn  => exact iff_of_true (List.nil_lt_cons _ _) (by omega)
  case isFalse hn => rw [encodeKvKey_lt, zeros_lt]

theorem Copies.entry (hc : Copies c m r n) (hz : m.Zeros k) (hn : n < k) (hi : c.iter = some it)
    (hm : it.cursor.map = m.ldb) : it.next.cursor.entry = some (encodeKvKey (zeros (n + 1)), [0]) := by
  have ⟨ha, hk⟩ := hc.sound.iter it hi
  rw [hm] at hk
  refine ha.trans <| hm ▸ Map.first_eq_some.mpr ⟨?_, ?_, fun k' hlt hlt' => ?_⟩
  case refine_1 => exact hz.kv _ _ |>.mpr ⟨rfl, n + 1, by omega, hn, rfl⟩
  case refine_2 => exact Client.lt_copyStart.mpr <| hc.lastKey_lt (by omega) |>.mpr n.lt_succ_self
  case refine_3 =>
    refine Option.not_isSome_iff_eq_none.mp fun hs => ?_
    have ⟨key, _, hk⟩ := hk k' hs |>.resolve_left <| hc.sound.ne_synclog hc.status hlt
    subst hk
    have ⟨v, hv⟩ := Option.isSome_iff_exists.mp hs
    have ⟨_, i, hi, _, hk⟩ := hz.kv key v |>.mp hv
    subst hk
    have hl := hc.lastKey_lt hi |>.mp <| Client.lt_copyStart.mp hlt
    have hl' := zeros_lt.mp <| encodeKvKey_lt.mp hlt'
    omega

theorem exists_copies (hr : Reached id h { started id h with master := m }) (hz : m.Zeros k) (n : Nat)
    (hk : n ≤ k) (hn : n ≤ 1000) : ∃ c ms, Reached id h ⟨m, some c, ms, (started id h).slave⟩ ∧
      Copies c m ((started id h).slave.receive ms) n := by
  induction n
  case zero =>
    have hr := hr.work rfl rfl
    refine ⟨_, _, hr, {
      sound    := Client.Step.enter rfl |>.sound hz.written Client.sound_reset.returned
      status   := rfl
      lastSeq  := rfl
      lastKey  := rfl
      position := rfl
      iter     := ⟨_, rfl, SSDBImpl.at_iterator.right⟩
      kv hn    := by omega }⟩
  case succ n hi =>
    have ⟨c, ms, hr, hc⟩ := hi (by omega) (by omega)
    have ⟨it, hit, hm⟩ := hc.iter
    have he := hc.entry hz (by omega) hit hm
    have hne : zeros (n + 1) ≠ [] := by simp [zeros]
    have hs : c.step m = some (c.iterate it n) := by
      simp only [Client.step, hc.position, hit, Option.map_some]
    rw [Client.iterate_copy (by omega) he] at hs
    have hr' : ((started id h).slave.receive ms).Receives _ _ (some [0]) _ := Slave.receives_copy c.lastSeq hne
    have hv := hr'.kv (zeros 1)
    refine ⟨_, _, hr.work rfl hs, {
      sound    := Client.Step.copy hc.position hit hne he |>.sound hz.written hc.sound
      status   := hc.status
      lastSeq  := hc.lastSeq
      lastKey  := rfl
      position := rfl
      iter     := ⟨_, rfl, Iterator.map_next.trans hm⟩
      kv hn    := ?_ }⟩
    rw [Slave.receive_append, Slave.receive_cons, Slave.receive_nil]
    refine hv.trans ?_
    split
    case isTrue     => rfl
    case isFalse hn => exact hc.kv <| Nat.pos_of_ne_zero fun hz => hn <| by rw [hz]

-- Two more keys are written: one that has been copied, and one that has not.
theorem Copies.drop (hc : Copies c m r 1000) (hz : m.Zeros 1000) :
    let m := (m.set true (zeros 1) [1]).1.set true [1] [] |>.1
    m.Written ∧ m.kv (zeros 1) = some [1] ∧ ∃ c', Client.step { c with position := .sync } m = some (c', []) ∧
      c'.Sound m ∧ Stale (zeros 1) (some [0]) r m c' := by
  have h₀ : zeros 1 ≠ [] := by simp [zeros]
  have h₁ : ([1] : Bytes) ≠ [] := by simp
  have max (s : SSDBImpl) (h : s.binlogs.lastSeq.toNat < 2000) : s.binlogs.lastSeq ≠ maxSeq := by
    intro he
    have hm : maxSeq.toNat = 2 ^ 64 - 1 := by decide
    rw [he, hm] at h
    omega
  have hl : (m.set true (zeros 1) [1]).1.binlogs.lastSeq.toNat = 1001 := by
    rw [SSDBImpl.lastSeq_set h₀, UInt64.toNat_add_one hz.written.bound, hz.lastSeq]
  obtain ⟨hw₁, he₁⟩ := hz.written.set <| max (m.set true (zeros 1) [1]).1 <| by rw [hl]; omega
  have hlast : ((m.set true (zeros 1) [1]).1.set true [1] []).1.binlogs.lastSeq =
      (m.set true (zeros 1) [1]).1.binlogs.lastSeq + 1 := SSDBImpl.lastSeq_set h₁
  have hl' := UInt64.toNat_add_one hw₁.bound
  rw [hl] at hl'
  obtain ⟨hw, he₂⟩ := hw₁.set <| max ((m.set true (zeros 1) [1]).1.set true [1] []).1 <| by rw [hlast, hl']; omega
  have hg : BinlogQueue.get ((m.set true (zeros 1) [1]).1.set true [1] []).1.ldb _ = some _ :=
    SSDBImpl.get_lastSeq_set h₁
  rw [← hlast] at hg
  have hv : ((m.set true (zeros 1) [1]).1.set true [1] []).1.kv (zeros 1) = some [1] := by
    rw [SSDBImpl.kv_set h₁, if_neg (by simp [zeros]), SSDBImpl.kv_set h₀, if_pos rfl]
  generalize ((m.set true (zeros 1) [1]).1.set true [1] []).1 = m' at hw he₂ hlast hg hv
  have hs := hc.sound.extends he₁ |>.extends he₂
  have hs : Client.Sound { c with position := .sync } m' := { hs with
    rawGet _ hp   := by cases hp
    copy hp       := by simp at hp
    iterates _ hp := by cases hp }
  refine ⟨hw, hv, ?_⟩
  rcases Client.find_spec hw hs with ⟨_, hl⟩ | ⟨log, hf, hl⟩
  case inl =>
    have hz := hc.lastSeq.symm.trans <| hl.trans hlast
    rw [← hz] at hl'
    simp at hl'
  case inr =>
    have hn := hl.next
    rw [if_pos ⟨hc.status, hc.lastSeq⟩] at hn
    have hg' := hl.get
    rw [hn, hg] at hg'
    have hk : encodeKvKey [1] = log.key := by rw [← Option.some.inj hg', Binlog.key_of]
    have hd : c.lastKey < log.key := by
      rw [hc.lastKey, if_neg (by omega), ← hk, encodeKvKey_lt, zeros, List.replicate_succ]
      exact List.cons_lt_cons_iff.mpr <| .inl <| by decide
    have hlk : encodeKvKey (zeros 1) ≤ c.lastKey := by
      refine not_lt.mp fun hlt => ?_
      rw [hc.lastKey, if_neg (by omega), encodeKvKey_lt, zeros_lt] at hlt
      omega
    have hstep : Client.step { c with position := .sync } m' =
        some ({ c with position := .sync, lastSeq := log.seq, iter := none }, []) := by
      rw [Client.step]
      simp only [if_neg hs.status, hf, Client.sync, if_pos (And.intro hc.status hd)]
    refine ⟨_, hstep, Client.Step.drop log rfl hl hc.status hd |>.sound hw hs,
      hc.kv (by omega), fun _ => hlk, fun hdue => hw.not_due (hn ▸ hdue), fun _ hp => by cases hp⟩

-- A slave that has an old value, of a master that has a new one.
structure StaleAt (s : Replication) (key : Bytes) (v : Option Bytes) : Prop where
  written : s.master.Written
  client  : ∃ c, s.client = some c ∧ c.Sound s.master ∧ Stale key v s.received s.master c

theorem StaleAt.step (hs : StaleAt s key v) (hst : s.step a = some s') (ha : a = .work ∨ a = .receive) :
    StaleAt s' key v ∧ s'.master = s.master := by
  have ⟨hw, c, hc, hsound, hstale⟩ := hs
  cases Step.of hst
  case set | del | connect | restart => simp at ha
  case work hc' hst =>
    cases hc.symm.trans hc'
    have hst := Client.Step.of hw hsound hst
    refine ⟨⟨hw, _, rfl, hst.sound hw hsound, ?_⟩, rfl⟩
    rw [received, Slave.receive_append]
    exact hstale.step hst hw hsound
  case receive m ms hm =>
    have hr : s.received = (s.slave.proc true m).1.receive ms := by rw [received, hm, Slave.receive_cons]
    rw [hr] at hstale
    exact ⟨⟨hw, c, hc, hsound, hstale⟩, rfl⟩

theorem exists_staleAt (id : Bytes) (h : id.length < 128) :
    ∃ s, Reached id h s ∧ StaleAt s (zeros 1) (some [0]) ∧ s.master.kv (zeros 1) = some [1] := by
  obtain ⟨m, hr, hz⟩ := exists_zeros id h 1000 (by omega)
  obtain ⟨c, ms, hr, hc⟩ := exists_copies hr hz 1000 (le_refl _) (le_refl _)
  obtain ⟨it, hi, _⟩ := hc.iter
  have hp : c.step m = some ({ c with position := .sync }, []) := by
    simp only [Client.step, hc.position, hi, Option.map_some, Client.iterate, if_pos (by omega : 1000 + 1 > 1000)]
  obtain ⟨hw, hv, c', hs, hsound, hstale⟩ := hc.drop hz
  have hr := hr.work rfl hp |>.step (a := .set true (zeros 1) [1]) rfl (by simp)
    |>.step (a := .set true [1] []) rfl (by simp) |>.work rfl hs
  simp only [List.append_nil] at hr
  exact ⟨_, hr, ⟨hw, c', rfl, hsound, hstale⟩, hv⟩

-- The thread has found no logs at first, because the master has been empty. When it has copied a
-- batch of 1000 keys, it looks for the last log again, and skips the one of a key it has copied.
theorem not_converges : ¬∀ (id : Bytes) (h : id.length < 128) (ts : List (Transition id h)) (s : Replication),
    (replication id h).Run ts s → (∀ t ∈ ts, t.act ≠ .restart) → s.Idle →
      s.slave.ssdb.get true = s.master.get true := by
  intro hall
  have ⟨s, ⟨ts, r, hr⟩, hs, hv⟩ := exists_staleAt [] (by decide)
  have ⟨hw, c, hc, hsound, _⟩ := hs
  have ⟨ts', s', p, hset, hidle, hm⟩ : ∃ (ts' : List (Transition [] _)) (s' : Replication), _ :=
    exists_idle (h := by decide) hw hc hsound
  have hs' : StaleAt s' (zeros 1) (some [0]) ∧ s'.master = s.master :=
    p.invariant_of (I := fun s' => StaleAt s' (zeros 1) (some [0]) ∧ s'.master = s.master) ⟨hs, rfl⟩ hset
      fun t ha ⟨hs, hm⟩ => have ⟨hs, hm'⟩ := hs.step (step_eq t) ha; ⟨hs, hm'.trans hm⟩
  have ha : ∀ t ∈ ts ++ ts', t.act ≠ .restart := by
    intro t ht
    cases List.mem_append.mp ht
    case inl ht => exact hr t ht
    case inr ht => rcases hset t ht with ha | ha <;> rw [ha] <;> nofun
  have ⟨⟨_, _, _, _, hstale⟩, _⟩ := hs'
  have hk : s'.slave.kv (zeros 1) = _ := SSDBImpl.get_eq_iff.mp (hall [] _ _ s' (r.trans p) ha hidle) (zeros 1)
  have hkv := hstale.kv
  rw [received, hidle.left, Slave.receive_nil] at hkv
  rw [← hm] at hv
  rw [hkv, hv] at hk
  simp at hk

end Replication

end Ssdb

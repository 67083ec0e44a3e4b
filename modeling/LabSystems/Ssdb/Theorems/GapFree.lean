import LabSystems.Ssdb.Theorems.Step

namespace Ssdb

open Ordered (Map Write)

-- The record with the highest sequence number for a key.
structure BinlogQueue.Latest (db : DB) (k : Bytes) (seq : UInt64) (log : Binlog) : Prop where
  found : get db seq = some log
  key   : log.key = k
  last  : ∀ seq' log', get db seq' = some log' → log'.key = k → seq' ≤ seq

namespace SSDBImpl

-- The log has no gaps and agrees with the data.
structure GapFree (s : SSDBImpl) : Prop where
  present  : ∀ k, k.head? = some DataType.synclog →
    ((s.ldb.get k).isSome ↔ ∃ seq, 1 ≤ seq ∧ seq ≤ s.binlogs.lastSeq ∧ k = encodeSeqKey seq)
  decodes  : ∀ seq val, s.ldb.get (encodeSeqKey seq) = some val →
    ∃ log, Binlog.load val = some log ∧ log.seq = seq
  recovers : (BinlogQueue.new s.ldb).lastSeq = s.binlogs.lastSeq
  data     : ∀ key, (s.ldb.get (encodeKvKey key)).isSome ↔
    ∃ seq log, BinlogQueue.Latest s.ldb (encodeKvKey key) seq log ∧ log.cmd = BinlogCommand.kset

-- The invariant, which has to know of all keys of the database.
structure Logged (s : SSDBImpl) : Prop where
  head    : ∀ k, (s.ldb.get k).isSome → k.head? = some DataType.synclog ∨
    k.head? = some DataType.kv ∨ k.head? = some DataType.hash ∨ k.head? = some DataType.hsize
  present : ∀ k, k.head? = some DataType.synclog →
    ((s.ldb.get k).isSome ↔ ∃ seq, 1 ≤ seq ∧ seq ≤ s.binlogs.lastSeq ∧ k = encodeSeqKey seq)
  decodes : ∀ seq val, s.ldb.get (encodeSeqKey seq) = some val →
    ∃ log, Binlog.load val = some log ∧ log.seq = seq
  data    : ∀ key, (s.ldb.get (encodeKvKey key)).isSome ↔
    ∃ seq log, BinlogQueue.Latest s.ldb (encodeKvKey key) seq log ∧ log.cmd = BinlogCommand.kset

end SSDBImpl

section

variable {db db' : DB} {s s' : SSDBImpl} {seq seq' n : UInt64} {writes : List (Write Bytes Bytes)}

theorem BinlogQueue.get_eq_some : get db seq = some log ↔ db.get (encodeSeqKey seq) = some log.buf := by
  simp only [get, Option.bind_eq_some_iff, Binlog.load_eq_some]
  exact ⟨fun ⟨_, h, he⟩ => he ▸ h, fun h => ⟨_, h, rfl⟩⟩

theorem BinlogQueue.latest_iff (hg : ∀ seq, get db' seq = if seq = n then some top else get db seq)
    (hn : ∀ seq log, get db seq = some log → seq < n) : Latest db' k seq log ↔
    if top.key = k then seq = n ∧ log = top else Latest db k seq log := by
  have old {seq : UInt64} {log : Binlog} (h : get db seq = some log) : get db' seq = some log := by
    rw [hg, if_neg (hn _ _ h).ne, h]
  have of {seq : UInt64} {log : Binlog} (h : get db' seq = some log) :
      seq = n ∧ log = top ∨ get db seq = some log := by
    rw [hg] at h
    split at h
    case isTrue he => exact .inl ⟨he, Option.some.inj h |>.symm⟩
    case isFalse   => exact .inr h
  have self : get db' n = some top := by rw [hg, if_pos rfl]
  split
  case isTrue hk =>
    constructor
    case mp =>
      intro h
      exact of h.found |>.resolve_right fun hf => (hn _ _ hf).not_ge <| h.last n top self hk
    case mpr =>
      rintro ⟨rfl, rfl⟩
      exact ⟨self, hk, fun seq' log' hf _ => (of hf).elim (·.left.le) fun hf => (hn _ _ hf).le⟩
  case isFalse hk =>
    have of {seq : UInt64} {log : Binlog} (h : get db' seq = some log) (hl : log.key = k) :
        get db seq = some log := of h |>.resolve_left fun ⟨_, he⟩ => hk <| he ▸ hl
    exact ⟨fun h => ⟨of h.found h.key, h.key, fun _ _ hf => h.last _ _ <| old hf⟩,
      fun h => ⟨old h.found, h.key, fun _ _ hf hl => h.last _ _ (of hf hl) hl⟩⟩

theorem BinlogQueue.findLast_eq : findLast db =
    match db.last (· < encodeSeqKey maxSeq) with
    | none            => .missing
    | some (key, val) => if decodeSeqKey key ≠ 0 then .load val else .missing := by
  rw [findLast, Ordered.Cursor.prev_seek ⟨db, none⟩]
  congr!

-- The last sequence number that is found is less than the greatest one.
theorem BinlogQueue.new_lastSeq_ne (hd : ∀ seq val, db.get (encodeSeqKey seq) = some val →
    ∃ log, Binlog.load val = some log ∧ log.seq = seq) : (new db).lastSeq ≠ maxSeq := by
  simp only [new, findLast_eq]
  cases hl : db.last (· < encodeSeqKey maxSeq)
  case none => decide
  case some e =>
    obtain ⟨key, val⟩ := e
    obtain ⟨hg, hk, _⟩ := Map.last_eq_some.mp hl
    by_cases hz : decodeSeqKey key = 0
    case pos => simpa [hz] using (by decide : (0 : UInt64) ≠ maxSeq)
    case neg =>
      have he := encodeSeqKey_decodeSeqKey hz
      obtain ⟨log, hlog, hs⟩ := hd _ _ (he ▸ hg)
      rw [← he, encodeSeqKey_lt] at hk
      simpa [hz, Find.load, hlog, hs] using ne_of_lt hk

theorem lt_maxSeq (h : seq ≠ maxSeq) : seq < maxSeq := by
  rw [UInt64.lt_iff_toNat_lt]
  have := UInt64.toNat_add_one h
  have := (seq + 1).toNat_lt
  have : maxSeq.toNat = 2 ^ 64 - 1 := by decide
  omega

namespace SSDBImpl

theorem Logged.get_le (h : s.Logged) (hg : (s.ldb.get (encodeSeqKey seq)).isSome) :
    1 ≤ seq ∧ seq ≤ s.binlogs.lastSeq := by
  have ⟨_, h₁, h₂, he⟩ := h.present _ rfl |>.mp hg
  rw [encodeSeqKey_inj] at he
  exact ⟨he ▸ h₁, he ▸ h₂⟩

theorem Logged.exists_log (h : s.Logged) (h₁ : 1 ≤ seq) (h₂ : seq ≤ s.binlogs.lastSeq) :
    ∃ log, BinlogQueue.get s.ldb seq = some log ∧ log.seq = seq := by
  have hp := h.present (encodeSeqKey seq) rfl |>.mpr ⟨seq, h₁, h₂, rfl⟩
  have ⟨val, hv⟩ := Option.isSome_iff_exists.mp hp
  have ⟨log, hl, hs⟩ := h.decodes seq val hv
  exact ⟨log, by rw [BinlogQueue.get, hv, Option.bind_some, hl], hs⟩

-- Before the greatest sequence number there are only logs.
theorem Logged.eq_of_lt (h : s.Logged) (hg : (s.ldb.get k).isSome) (hk : k < encodeSeqKey maxSeq) :
    ∃ seq, 1 ≤ seq ∧ seq ≤ s.binlogs.lastSeq ∧ k = encodeSeqKey seq := by
  refine h.present k ?_ |>.mp hg
  have head (t : UInt8) (ht : DataType.synclog < t) : k.head? ≠ some t := by
    intro hh
    cases k
    case nil => cases hh
    case cons c k =>
      cases hh
      exact lt_asymm (List.cons_lt_cons_iff.mpr <| .inl ht) hk
  have hn := head _ (by decide : DataType.synclog < DataType.kv)
  have hn' := head _ (by decide : DataType.synclog < DataType.hash)
  have hn'' := head _ (by decide : DataType.synclog < DataType.hsize)
  simpa [hn, hn', hn''] using h.head k hg

-- The last log is found, if there is one.
theorem Logged.findLast (h : s.Logged) (hm : s.binlogs.lastSeq ≠ maxSeq) :
    s.binlogs.lastSeq = 0 ∧ BinlogQueue.findLast s.ldb = .missing ∨
    1 ≤ s.binlogs.lastSeq ∧ ∃ log, BinlogQueue.findLast s.ldb = .found log ∧
      BinlogQueue.get s.ldb s.binlogs.lastSeq = some log ∧ log.seq = s.binlogs.lastSeq := by
  have hlt := encodeSeqKey_lt.mpr <| lt_maxSeq hm
  rw [BinlogQueue.findLast_eq]
  cases hl : s.ldb.last (· < encodeSeqKey maxSeq)
  case none =>
    refine .inl ⟨?_, rfl⟩
    by_contra hz
    have ⟨log, hg, _⟩ := h.exists_log (UInt64.one_le_iff.mpr hz) (le_refl _)
    simp [BinlogQueue.get, Map.last_eq_none.mp hl _ hlt] at hg
  case some e =>
    have ⟨key, val⟩ := e
    have ⟨hg, hk, hlast⟩ := Map.last_eq_some.mp hl
    have ⟨seq, h₁, hle, he⟩ := h.eq_of_lt (by simp [hg]) hk
    subst he
    have ⟨log, hlog, hs⟩ := h.decodes _ _ hg
    have he : seq = s.binlogs.lastSeq := by
      by_contra hne
      have hn := hlast _ hlt <| encodeSeqKey_lt.mpr <| lt_of_le_of_ne hle hne
      have ⟨log, hg, _⟩ := h.exists_log (le_trans h₁ hle) (le_refl _)
      simp [BinlogQueue.get, hn] at hg
    subst he
    refine .inr ⟨h₁, log, ?_, by rw [BinlogQueue.get, hg, Option.bind_some, hlog], hs⟩
    simp [UInt64.one_le_iff.mp h₁, Find.load, hlog]

theorem Logged.recovers (h : s.Logged) (hm : s.binlogs.lastSeq ≠ maxSeq) :
    (BinlogQueue.new s.ldb).lastSeq = s.binlogs.lastSeq := by
  rcases h.findLast hm with ⟨hz, hf⟩ | ⟨_, log, hf, _, hs⟩
  case inl => simp [BinlogQueue.new, hf, hz]
  case inr => simp [BinlogQueue.new, hf, hs]

-- The next log is found, until there are no more.
theorem Logged.findNext (h : s.Logged) (h₁ : 1 ≤ seq) (hle : seq ≤ s.binlogs.lastSeq) :
    ∃ log, BinlogQueue.findNext s.ldb seq = .found log ∧ BinlogQueue.get s.ldb seq = some log ∧
      log.seq = seq := by
  have ⟨log, hg, hs⟩ := h.exists_log h₁ hle
  exact ⟨log, by rw [BinlogQueue.findNext, hg], hg, hs⟩

theorem Logged.findNext_missing (h : s.Logged) (hlt : s.binlogs.lastSeq < seq) :
    BinlogQueue.findNext s.ldb seq = .missing := by
  have none {k : Bytes} {v : Bytes} (hg : s.ldb.get k = some v) (hk : encodeSeqKey seq ≤ k) :
      decodeSeqKey k = 0 := by
    by_contra hz
    have he := encodeSeqKey_decodeSeqKey hz
    have hle := h.get_le (by rw [he, hg, Option.isSome_some] : (s.ldb.get (encodeSeqKey _)).isSome) |>.right
    rw [← he] at hk
    exact absurd (encodeSeqKey_lt.mpr <| hle.trans_lt hlt) hk.not_gt
  have hg : BinlogQueue.get s.ldb seq = .none := by
    cases hg : BinlogQueue.get s.ldb seq
    case none => rfl
    case some log =>
      have hg := BinlogQueue.get_eq_some.mp hg
      exact absurd hlt <| (h.get_le (by simp [hg])).right.not_gt
  rw [BinlogQueue.findNext, hg]
  simp only [Ordered.Cursor.seek]
  cases hf : s.ldb.first (encodeSeqKey seq ≤ ·)
  case none => rfl
  case some e =>
    obtain ⟨hg, hk, _⟩ := Map.first_eq_some.mp hf
    simp [none hg hk]

-- What is stored together with a log does not touch other logs.
structure Data (s : SSDBImpl) (writes : List (Write Bytes Bytes)) (cmd : UInt8) (k : Bytes) : Prop where
  head : ∀ w ∈ writes, w.key.head? = some DataType.kv ∨ w.key.head? = some DataType.hash ∨
    w.key.head? = some DataType.hsize
  data : ∀ key, ((s.ldb.write writes).get (encodeKvKey key)).isSome ↔
    if k = encodeKvKey key then cmd = BinlogCommand.kset else (s.ldb.get (encodeKvKey key)).isSome

theorem Data.get_log (h : s.Data writes cmd k) (hk : key.head? = some DataType.synclog) :
    (s.ldb.write writes).get key = s.ldb.get key := by
  refine Map.get_write_of_ne fun w hw => ?_
  rcases h.head w hw with hh | hh | hh <;> exact ne_of_head? hk hh (by decide)

theorem Data.head_of_get (h : s.Data writes cmd k) (hg : ((s.ldb.write writes).get key).isSome) :
    (s.ldb.get key).isSome ∨ key.head? = some DataType.kv ∨ key.head? = some DataType.hash ∨
      key.head? = some DataType.hsize := by
  by_cases hw : ∃ w ∈ writes, key = w.key
  case pos =>
    have ⟨w, hw, he⟩ := hw
    exact .inr <| he ▸ h.head w hw
  case neg => exact .inl <| by rwa [Map.get_write_of_ne fun w hm he => hw ⟨w, hm, he⟩] at hg

theorem Logged.keep (h : s.Logged) (hk : s.Keeps s') : s'.Logged where
  head    := hk.ldb ▸ h.head
  present := hk.ldb ▸ hk.lastSeq ▸ h.present
  decodes := hk.ldb ▸ h.decodes
  data    := hk.ldb ▸ h.data

theorem Appends.get_log (ha : s.Appends writes type cmd k s') (hd : s.Data writes cmd k) (seq : UInt64) :
    BinlogQueue.get s'.ldb seq = if seq = s'.binlogs.lastSeq then
      some (.of s'.binlogs.lastSeq type cmd k) else BinlogQueue.get s.ldb seq := by
  have ⟨hs, get⟩ := ha
  rw [← hs] at get
  simp only [BinlogQueue.get, get, Map.get_insert, encodeSeqKey_inj]
  split
  case isTrue  => exact Binlog.load_buf _
  case isFalse => rw [hd.get_log rfl]

theorem Appends.lt_lastSeq (ha : s.Appends writes type cmd k s') (hm : s.binlogs.lastSeq ≠ maxSeq) :
    s.binlogs.lastSeq < s'.binlogs.lastSeq := by
  rw [ha.lastSeq, UInt64.lt_iff_toNat_lt, UInt64.toNat_add_one hm]
  exact Nat.lt_succ_self _

theorem Logged.append (h : s.Logged) (hm : s.binlogs.lastSeq ≠ maxSeq) (hd : s.Data writes cmd k)
    (ha : s.Appends writes type cmd k s') : s'.Logged := by
  have ⟨hs, get⟩ := ha
  have hle (seq : UInt64) : seq ≤ s'.binlogs.lastSeq ↔
      seq = s'.binlogs.lastSeq ∨ seq ≤ s.binlogs.lastSeq := hs ▸ UInt64.le_add_one_iff hm
  have hlt := ha.lt_lastSeq hm
  have hz : 1 ≤ s'.binlogs.lastSeq :=
    UInt64.one_le_iff.mpr fun hz => UInt64.not_lt_zero (hz ▸ hlt)
  rw [← hs] at get
  constructor
  case head =>
    intro key hg
    rw [get, Map.get_insert] at hg
    split at hg
    case isTrue he => exact .inl <| he ▸ rfl
    case isFalse   => exact hd.head_of_get hg |>.elim (h.head key) .inr
  case present =>
    intro key hh
    rw [get, Map.get_insert]
    split
    case isTrue he => exact iff_of_true rfl ⟨_, hz, le_refl _, he⟩
    case isFalse he =>
      rw [hd.get_log hh, h.present key hh]
      refine exists_congr fun seq => and_congr_right fun _ => and_congr_left fun hk => ?_
      rw [hle, or_iff_right]
      exact fun hs => he <| hs ▸ hk
  case decodes =>
    intro seq val hg
    rw [get, Map.get_insert] at hg
    split at hg
    case isTrue he  => exact ⟨_, Option.some.inj hg ▸ Binlog.load_buf _, by simp [encodeSeqKey_inj.mp he]⟩
    case isFalse he => exact h.decodes seq val <| hd.get_log head?_encodeSeqKey ▸ hg
  case data =>
    intro key
    have hn := ne_of_head? (k := encodeKvKey key) rfl
      (head?_encodeSeqKey : (encodeSeqKey s'.binlogs.lastSeq).head? = _) (by decide)
    have hlast (seq : UInt64) (l : Binlog) (hf : BinlogQueue.get s.ldb seq = some l) :
        seq < s'.binlogs.lastSeq := by
      have hf := BinlogQueue.get_eq_some.mp hf
      exact (h.get_le <| by simp [hf]).right.trans_lt hlt
    have hk : s'.ldb.get (encodeKvKey key) = (s.ldb.write writes).get (encodeKvKey key) := by
      rw [get, Map.get_insert_ne hn]
    rw [hk, hd.data]
    simp only [BinlogQueue.latest_iff (ha.get_log hd) hlast, Binlog.key_of]
    split
    case isTrue  => simp
    case isFalse => exact h.data key

theorem Logged.gapFree (h : s.Logged) (hm : s.binlogs.lastSeq ≠ maxSeq) : s.GapFree :=
  ⟨h.present, h.decodes, h.recovers hm, h.data⟩

theorem data_set : s.Data [.put (encodeKvKey key) val] BinlogCommand.kset (encodeKvKey key) := by
  refine ⟨by simp, fun key' => ?_⟩
  simp only [Map.write, List.foldl_cons, List.foldl_nil, Write.apply, Map.get_insert, eq_comm]
  split <;> simp

theorem data_del : s.Data [.delete (encodeKvKey key)] BinlogCommand.kdel (encodeKvKey key) := by
  refine ⟨by simp, fun key' => ?_⟩
  simp only [Map.write, List.foldl_cons, List.foldl_nil, Write.apply, Map.get_erase, eq_comm]
  split
  case isTrue  => simpa using (by decide : BinlogCommand.kdel ≠ BinlogCommand.kset)
  case isFalse => rfl

theorem data_hset (hw : ∀ w ∈ writes, w.key.head? = some DataType.hash ∨
    w.key.head? = some DataType.hsize) :
    s.Data writes BinlogCommand.hset (encodeHashKey name key) where
  head w hm := .inr <| hw w hm
  data k    := by
    have hn := ne_of_head? (k := encodeHashKey name key) rfl (head?_encodeKvKey : (encodeKvKey k).head? = _) (by decide)
    rw [if_neg hn, Map.get_write_of_ne]
    intro w hm
    rcases hw w hm with hh | hh <;> exact ne_of_head? rfl hh (by decide)

end SSDBImpl

theorem Step.logged (h : Step s a s') (hl : s.Logged) (hm : s.binlogs.lastSeq ≠ maxSeq) :
    s'.Logged := by
  cases h
  case setKeep hk | delKeep hk | hsetRefused hk | hsetFailed hk | hsetSame hk => exact hl.keep hk
  case set ha => exact hl.append hm SSDBImpl.data_set ha
  case del ha => exact hl.append hm SSDBImpl.data_del ha
  case hsetOver ha =>
    refine hl.append hm (SSDBImpl.data_hset ?_) ha
    simp
  case hsetNew ha =>
    refine hl.append hm (SSDBImpl.data_hset ?_) ha
    simp [SSDBImpl.sizeWrite_key]
  case reopen => exact hl.keep ⟨rfl, hl.recovers hm⟩

theorem SSDBImpl.Logged.init : Logged (.open .empty) where
  head k hg      := by simp [SSDBImpl.open] at hg
  present k _    := by
    refine iff_of_false (by simp [SSDBImpl.open]) fun ⟨seq, h₁, h₂, _⟩ => ?_
    exact absurd (h₁.trans h₂) (by decide)
  decodes _ _ hg := by simp [SSDBImpl.open] at hg
  data key       := by
    refine iff_of_false (by simp [SSDBImpl.open]) fun ⟨seq, log, h, _⟩ => ?_
    simpa [SSDBImpl.open] using BinlogQueue.get_eq_some.mp h.found

theorem logged_of_run (r : ssdb.Run ts s) (hm : ∀ t ∈ ts, t.post.binlogs.lastSeq ≠ maxSeq) :
    s.Logged ∧ s.binlogs.lastSeq ≠ maxSeq :=
  r.invariant_of (I := fun s => s.Logged ∧ s.binlogs.lastSeq ≠ maxSeq)
    ⟨.init, by decide⟩ hm fun t hm h => ⟨Step.of t |>.logged h.left h.right, hm⟩

-- As long as the greatest sequence number is not used, the log is gap-free.
theorem gapFree_of_run (r : ssdb.Run ts s) (hm : ∀ t ∈ ts, t.post.binlogs.lastSeq ≠ maxSeq) :
    s.GapFree :=
  have ⟨hl, hm⟩ := logged_of_run r hm
  hl.gapFree hm

-- A write fails, and the process is restarted.
theorem gapFree_reopen : SSDBImpl.GapFree (ssdb.trace (.open .empty)
    [.set true [97] [1], .hset ⟨true, true, true⟩ [110] [102] [2] BinlogType.sync, .del false [97],
      .reopen, .del true [97]]).2 :=
  gapFree_of_run (ssdb.path_trace ..) (by decide)

theorem exists_run_lastSeq (n : Nat) : ∃ (ts : List Transition) (s : SSDBImpl), ssdb.Run ts s ∧
    s.binlogs.lastSeq = .ofNat n := by
  induction n
  case zero => exact ⟨[], _, .nil, by decide⟩
  case succ n hi =>
    have ⟨ts, s, r, hs⟩ := hi
    refine ⟨_, _, .snoc ⟨s, .del true [], _, _, rfl⟩ r, ?_⟩
    show s.binlogs.lastSeq + 1 = _
    rw [hs, UInt64.ofNat_add]
    rfl

-- After 2 ^ 64 - 1 deletions, a restart does not find the last log.
theorem not_gapFree_overflow : ∃ (ts : List Transition) (s : SSDBImpl), ssdb.Run ts s ∧ ¬s.GapFree := by
  have ⟨ts, s, r, hs⟩ := exists_run_lastSeq (2 ^ 64 - 1)
  refine ⟨ts, s, r, fun h => ?_⟩
  exact BinlogQueue.new_lastSeq_ne h.decodes <| h.recovers.trans hs

end

end Ssdb

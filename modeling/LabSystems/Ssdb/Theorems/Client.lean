import LabSystems.Ssdb.BackendSync
import LabSystems.Ssdb.Theorems.Maps
import LabSystems.Ssdb.Theorems.Written

namespace Ssdb

open Ordered (Map)

-- The next entry of an iterator is the first one after a key.
def Iterator.At (it : Iterator) (k : Bytes) : Prop :=
  it.next.cursor.entry = it.cursor.map.first (k < ·)

theorem SSDBImpl.at_iterator {s : SSDBImpl} : (s.iterator k).At k ∧ (s.iterator k).cursor.map = s.ldb := by
  have hm : (s.iterator k).cursor.map = s.ldb := by
    simp only [iterator]
    split <;> rfl
  refine ⟨?_, hm⟩
  rw [Iterator.At, hm]
  refine .trans ?_ <| (Ordered.Cursor.entry_seek_next ⟨s.ldb, none⟩ k).trans <| by congr!
  simp only [Iterator.next, iterator, if_true]
  congr!

theorem Iterator.map_next {it : Iterator} : it.next.cursor.map = it.cursor.map := by
  unfold next
  split <;> rfl

theorem Iterator.at_next {it : Iterator} (h : it.next.cursor.entry = some (k, v)) : it.next.At k := by
  have hf : it.next.isFirst = false := by
    unfold next
    split
    case isTrue    => rfl
    case isFalse h => simpa using h
  rw [At, Iterator.next.eq_1 it.next, hf]
  simp only [Bool.false_eq_true, if_false, Ordered.Cursor.next, h, Option.bind_some]
  congr!

namespace Client

variable {c c' : Client} {s s' : SSDBImpl}

-- The log that is found is the last one if there is none that the thread knows of, and the next one
-- otherwise.
structure Finds (c : Client) (s : SSDBImpl) (log : Binlog) : Prop where
  found : c.find s.ldb = .found log
  get   : BinlogQueue.get s.ldb log.seq = some log
  lt    : c.lastSeq < log.seq
  next  : if c.status = .copy ∧ c.lastSeq = 0 then log.seq = s.binlogs.lastSeq else log.seq = c.lastSeq + 1

-- What holds of a thread as long as it serves a slave.
structure Sound (c : Client) (s : SSDBImpl) : Prop where
  status   : c.status ≠ .outOfSync
  isMirror : c.isMirror = false
  lastSeq  : c.lastSeq ≤ s.binlogs.lastSeq
  rawGet   : ∀ log, c.position = .rawGet log → BinlogQueue.get s.ldb c.lastSeq = some log ∧
    log.cmd = BinlogCommand.kset ∧ (c.status = .copy → log.key ≤ c.lastKey)
  copy     : c.position = .copy ∨ (∃ count, c.position = .iterate count) → c.status = .copy
  iterates : ∀ count, c.position = .iterate count → c.iter.isSome
  lastKey  : c.status = .copy → c.lastKey = [] ∨ ∃ key, c.lastKey = encodeKvKey key
  iter     : ∀ it, c.iter = some it → it.At c.copyStart ∧
    ∀ k, (it.cursor.map.get k).isSome → k.head? = some DataType.synclog ∨ ∃ key, key ≠ [] ∧ k = encodeKvKey key

theorem find_spec (hw : s.Written) (hs : c.Sound s) :
    c.find s.ldb = .missing ∧ c.lastSeq = s.binlogs.lastSeq ∨
    ∃ log, c.find s.ldb = .found log ∧ c.Finds s log := by
  unfold find
  split
  case isTrue hz =>
    rcases hw.logged.findLast hw.bound with ⟨hn, hf⟩ | ⟨h₁, log, hf, hg, hl⟩
    case inl => exact .inl ⟨hf, hz.right.trans hn.symm⟩
    case inr =>
      refine .inr ⟨log, hf, (if_pos hz).trans hf, hl ▸ hg, ?_, by rw [if_pos hz, hl]⟩
      rw [hl, hz.right]
      exact UInt64.pos_iff_ne_zero.mpr <| UInt64.one_le_iff.mp h₁
  case isFalse hz =>
    by_cases hl : c.lastSeq = s.binlogs.lastSeq
    case pos =>
      refine .inl ⟨hw.logged.findNext_missing ?_, hl⟩
      rw [hl, UInt64.lt_iff_toNat_lt, UInt64.toNat_add_one hw.bound]
      exact Nat.lt_succ_self _
    case neg =>
      have hlt := lt_of_le_of_ne hs.lastSeq hl
      have hm : c.lastSeq ≠ maxSeq := fun he => (lt_maxSeq hw.bound).not_gt <| he ▸ hlt
      have hn := UInt64.toNat_add_one hm
      rw [UInt64.lt_iff_toNat_lt] at hlt
      have h₁ : 1 ≤ c.lastSeq + 1 := UInt64.one_le_iff.mpr fun hz => by simp [hz] at hn
      have hle : c.lastSeq + 1 ≤ s.binlogs.lastSeq := by
        rw [UInt64.le_iff_toNat_le, hn]
        exact hlt
      have ⟨log, hf, hg, hl⟩ := hw.logged.findNext h₁ hle
      refine .inr ⟨log, hf, (if_neg hz).trans hf, hl ▸ hg, ?_, by rw [if_neg hz, hl]⟩
      rw [hl, UInt64.lt_iff_toNat_lt, hn]
      exact Nat.lt_succ_self _

-- What a thread can do, with the guards under which it does it.
inductive Step (c : Client) (s : SSDBImpl) : Client → List (List Bytes) → Prop
  | missing (position : c.position = .sync) (last : c.lastSeq = s.binlogs.lastSeq) :
    Step c s c.returned []
  | drop (log : Binlog) (position : c.position = .sync) (finds : c.Finds s log) (status : c.status = .copy)
    (beyond : c.lastKey < log.key) : Step c s { c with lastSeq := log.seq, iter := none } []
  | set (log : Binlog) (position : c.position = .sync) (finds : c.Finds s log)
    (within : c.status = .copy → log.key ≤ c.lastKey) (cmd : log.cmd = BinlogCommand.kset) :
    Step c s { c with lastSeq := log.seq, position := .rawGet log } []
  | del (log : Binlog) (position : c.position = .sync) (finds : c.Finds s log)
    (within : c.status = .copy → log.key ≤ c.lastKey) (cmd : log.cmd = BinlogCommand.kdel) :
    Step c s { c with lastSeq := log.seq }.returned [[log.buf]]
  | send (position : c.position = .rawGet log) (found : s.ldb.get log.key = some val) :
    Step c s c.returned [[log.buf, val]]
  | skip (position : c.position = .rawGet log) (missing : s.ldb.get log.key = none) :
    Step c s c.returned []
  | enter (position : c.position = .copy) : Step c s
      { c with iter := c.iter <|> some (s.iterator c.copyStart), position := .iterate 0 } []
  | pause (position : c.position = .iterate count) (full : 1000 < count + 1) : Step c s { c with position := .sync } []
  | copy (position : c.position = .iterate count) (iter : c.iter = some it) (named : key ≠ [])
    (entry : it.next.cursor.entry = some (encodeKvKey key, val)) : Step c s
      { c with
        iter     := some it.next
        position := .iterate (count + 1)
        lastKey  := encodeKvKey key }
      [[(Binlog.of c.lastSeq BinlogType.copy BinlogCommand.kset (encodeKvKey key)).buf, val]]
  | copyEnd (position : c.position = .iterate count) (iter : c.iter = some it)
    (entry : it.next.cursor.entry = none) : Step c s
      { c with status := .sync, iter := none, position := .sync }
      [[(Binlog.of c.lastSeq BinlogType.copy BinlogCommand.end []).buf, .ofString "copy_end"]]

theorem Finds.step {log : Binlog} (h : c.Finds s log) (hw : s.Written) (hs : c.Sound s) (hp : c.position = .sync) :
    Step c s (c.sync log).1 (c.sync log).2 := by
  have ⟨key, hl⟩ := hw.logs _ _ h.get
  have ht : ¬(log.type = BinlogType.mirror ∧ c.isMirror = true) := by simp [hs.isMirror]
  have hseq : ¬(c.lastSeq ≠ 0 ∧ log.seq ≠ c.lastSeq + 1) := by
    rintro ⟨hz, hne⟩
    have hn := h.next
    rw [if_neg fun hc => hz hc.right] at hn
    exact hne hn
  unfold sync
  split
  case isTrue hd => exact .drop log hp h hd.left hd.right
  case isFalse hd =>
    have hk (hc : c.status = .copy) : log.key ≤ c.lastKey := not_lt.mp fun hlt => hd ⟨hc, hlt⟩
    simp only [ht, if_false]
    rcases hl.cmd with ⟨hc, _⟩ | hc
    case inl =>
      rw [if_pos hc]
      exact .set log hp h hk hc
    case inr =>
      rw [if_neg (by rw [hc]; decide), if_pos hc]
      exact .del log hp h hk hc

-- An iterator starts after all logs.
theorem Sound.ne_synclog (hs : c.Sound s) (hc : c.status = .copy) (hlt : c.copyStart < k) :
    k.head? ≠ some DataType.synclog := by
  have hm : DataType.synclog < DataType.minPrefix := by decide
  have hv : DataType.synclog < DataType.kv := by decide
  intro hh
  cases k
  case nil => cases hh
  case cons t k =>
    cases hh
    unfold copyStart at hlt
    rcases hs.lastKey hc with hn | ⟨key, hn⟩
    case inl =>
      rw [hn, if_pos rfl] at hlt
      exact lt_asymm hlt <| List.cons_lt_cons_iff.mpr <| .inl hm
    case inr =>
      rw [hn, if_neg (by simp [encodeKvKey])] at hlt
      exact lt_asymm hlt <| List.cons_lt_cons_iff.mpr <| .inl hv

theorem Sound.copied (hs : c.Sound s) (hi : c.iter = some it) (hc : c.status = .copy)
    (he : it.next.cursor.entry = some (k, val)) : ∃ key, key ≠ [] ∧ k = encodeKvKey key := by
  have ⟨ha, hk⟩ := hs.iter it hi
  have ⟨hg, hlt, _⟩ := Map.first_eq_some.mp <| ha.symm.trans he
  exact hk k (by simp [hg]) |>.resolve_left <| hs.ne_synclog hc hlt

theorem iterate_copy (hl : count < 1000) (he : it.next.cursor.entry = some (encodeKvKey key, val)) :
    c.iterate it count = ({ c with
      iter     := some it.next
      position := .iterate (count + 1)
      lastKey  := encodeKvKey key },
      [[(Binlog.of c.lastSeq BinlogType.copy BinlogCommand.kset (encodeKvKey key)).buf, val]]) := by
  have hm : ¬DataType.kv.toInt8 > DataType.maxPrefix.toInt8 := by decide
  have hc : ¬count + 1 > 1000 := by omega
  simp only [iterate, he, encodeKvKey, hm, hc, if_false, if_true]

theorem iterate_step (hs : c.Sound s) (hi : c.iter = some it) (hp : c.position = .iterate count)
    (hc : c.status = .copy) : Step c s (c.iterate it count).1 (c.iterate it count).2 := by
  by_cases hl : count < 1000
  case neg =>
    rw [iterate, if_pos (by omega)]
    exact .pause hp (by omega)
  case pos =>
    cases he : it.next.cursor.entry
    case none =>
      rw [iterate, if_neg (by omega)]
      simp only [he]
      exact .copyEnd hp hi he
    case some e =>
      have ⟨k, val⟩ := e
      have ⟨key, hn, hk⟩ := hs.copied hi hc he
      subst hk
      rw [iterate_copy hl he]
      exact .copy hp hi hn he

theorem Step.of (hw : s.Written) (hs : c.Sound s) (h : c.step s = some (c', ms)) : Step c s c' ms := by
  unfold step at h
  split at h
  case h_1 hp =>
    rw [if_neg hs.status] at h
    rcases find_spec hw hs with ⟨hf, hl⟩ | ⟨log, hf, hl⟩
    case inl =>
      rw [hf] at h
      cases h
      exact .missing hp hl
    case inr =>
      rw [hf] at h
      have hs := hl.step hw hs hp
      rwa [Option.some.inj h] at hs
  case h_2 log hp =>
    have h : c.rawGet s log = (c', ms) := Option.some.inj h
    rw [rawGet, SSDBImpl.rawGet, SSDBImpl.ldbGet_true] at h
    cases hg : s.ldb.get log.key
    case none =>
      rw [hg] at h
      cases h
      exact .skip hp hg
    case some val =>
      rw [hg] at h
      cases h
      exact .send hp hg
  case h_3 hp =>
    cases h
    exact .enter hp
  case h_4 count hp =>
    have ⟨it, hi, he⟩ := Option.map_eq_some_iff.mp h
    have hs := iterate_step hs hi hp <| hs.copy <| .inr ⟨count, hp⟩
    rwa [he] at hs

theorem Sound.extends (h : c.Sound s) (he : s.Extends s') : c.Sound s' where
  status        := h.status
  isMirror      := h.isMirror
  lastSeq       := h.lastSeq.trans he.lastSeq
  rawGet log hp := (h.rawGet log hp).imp_left <| he.logs _ _
  copy          := h.copy
  iterates      := h.iterates
  lastKey       := h.lastKey
  iter          := h.iter

theorem Finds.le {log : Binlog} (h : c.Finds s log) (hw : s.Written) : log.seq ≤ s.binlogs.lastSeq :=
  hw.logged.get_seq h.get |>.right.right

theorem Sound.returned (h : c.Sound s) : c.returned.Sound s where
  status        := h.status
  isMirror      := h.isMirror
  lastSeq       := h.lastSeq
  rawGet log hp := by
    simp only [Client.returned] at hp
    split at hp <;> cases hp
  copy hp       := by
    simp only [Client.returned] at hp
    split at hp
    case isTrue hc => exact hc
    case isFalse   => simp at hp
  iterates _ hp := by
    simp only [Client.returned] at hp
    split at hp <;> cases hp
  lastKey       := h.lastKey
  iter          := h.iter

theorem Step.sound (h : Step c s c' ms) (hw : s.Written) (hs : c.Sound s) : c'.Sound s := by
  cases h
  case missing | send | skip => exact hs.returned
  case drop log hp hf _ _ =>
    exact { hs with
      lastSeq  := hf.le hw
      rawGet _ hp' := by cases hp.symm.trans hp'
      iterates _ hp' := by cases hp.symm.trans hp'
      iter _ hi := by cases hi }
  case set log hp hf hk hc =>
    refine { hs with
      lastSeq  := hf.le hw
      rawGet _ hp' := ?_
      copy hp' := by simp at hp'
      iterates _ hp' := by cases hp' }
    cases hp'
    exact ⟨hf.get, hc, hk⟩
  case del log hp hf _ _ =>
    refine Sound.returned { hs with
      lastSeq  := hf.le hw
      rawGet _ hp' := by cases hp.symm.trans hp' }
  case enter hp =>
    refine { hs with
      rawGet _ hp' := by cases hp'
      copy _ := hs.copy <| .inl hp
      iterates _ _ := ?_
      iter it hi := ?_ }
    case refine_1 => cases c.iter <;> rfl
    cases hi' : c.iter
    case none =>
      rw [hi'] at hi
      cases hi
      have ⟨ha, hm⟩ := SSDBImpl.at_iterator (s := s) (k := c.copyStart)
      exact ⟨ha, hm ▸ hw.keys⟩
    case some it' =>
      rw [hi'] at hi
      cases hi
      exact hs.iter _ hi'
  case pause hp _ =>
    exact { hs with
      rawGet _ hp' := by cases hp'
      copy hp' := by simp at hp'
      iterates _ hp' := by cases hp' }
  case copy hp hi _ he =>
    refine { hs with
      rawGet _ hp' := by cases hp'
      copy _ := hs.copy <| .inr ⟨_, hp⟩
      iterates _ _ := rfl
      lastKey _ := .inr ⟨_, rfl⟩
      iter it hi' := ?_ }
    cases hi'
    refine ⟨?_, by simpa only [Iterator.map_next] using (hs.iter _ hi).right⟩
    have ha := Iterator.at_next he
    rwa [copyStart, if_neg (by simp [encodeKvKey])]
  case copyEnd hp _ _ =>
    exact { hs with
      status := by simp
      rawGet _ hp' := by cases hp'
      copy hp' := by simp at hp'
      iterates _ hp' := by cases hp'
      lastKey hc := by cases hc
      iter _ hi := by cases hi }

-- A step that does nothing is one that has not found anything.
theorem Step.idle (h : Step c s c' ms) (hc : c = c') (hm : ms = []) :
    c.status ≠ .copy ∧ c.position = .sync ∧ c.lastSeq = s.binlogs.lastSeq := by
  have hp' := congrArg position hc
  cases h
  case missing hp hl =>
    refine ⟨fun hst => ?_, hp, hl⟩
    simp [returned, hst, hp] at hp'
  case drop log hp hf _ _ => exact absurd hf.lt <| not_lt_of_ge <| (congrArg Client.lastSeq hc).ge
  case skip hp _ =>
    simp only [returned, hp] at hp'
    split at hp' <;> cases hp'
  case set hp _ _ _ | enter hp | pause hp _ => cases hp.symm.trans hp'
  all_goals cases hm

theorem Sound.exists_step (hs : c.Sound s) (hw : s.Written) : ∃ c' ms, c.step s = some (c', ms) := by
  cases hp : c.position
  case sync =>
    rcases find_spec hw hs with ⟨hf, _⟩ | ⟨log, hf, _⟩
    all_goals
      simp only [step, hp, if_neg hs.status, hf]
      exact ⟨_, _, rfl⟩
  case rawGet | copy =>
    simp only [step, hp]
    exact ⟨_, _, rfl⟩
  case iterate count =>
    have ⟨it, hi⟩ := Option.isSome_iff_exists.mp <| hs.iterates count hp
    simp only [step, hp, hi]
    exact ⟨_, _, rfl⟩

end Client

end Ssdb

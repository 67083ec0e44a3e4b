import LabSystems.Ssdb.Theorems.Client
import LabSystems.Ssdb.Theorems.Received

namespace Ssdb

open Ordered (Map)

-- A thread that has found no logs before finds the last one, and there are keys whose logs it skips
-- that have changed since its iterator was made.
def Client.Skips (c : Client) (s : SSDBImpl) : Prop :=
  c.position = .sync ∧ c.status = .copy ∧ c.lastSeq = 0 ∧
    ∃ it log, c.iter = some it ∧ BinlogQueue.findLast s.ldb = .found log ∧
      ∃ key, encodeKvKey key ≠ log.key ∧ (encodeKvKey key ≤ c.lastKey ∨ log.key ≤ c.lastKey) ∧
        it.cursor.map.get (encodeKvKey key) ≠ s.kv key

-- A slave that has received everything has the data of the master for a key, or is going to be sent it.
def Current (r : Slave) (s : SSDBImpl) (c : Client) (key : Bytes) : Prop :=
  r.kv key = s.kv key ∨ Due s.ldb c.lastSeq (encodeKvKey key) ∨
    ∃ log, c.position = .rawGet log ∧ log.key = encodeKvKey key

-- What holds of a slave that has received everything, while data is copied to it.
structure Copying (r : Slave) (s : SSDBImpl) (c : Client) : Prop where
  lastKey : r.lastKey = c.lastKey
  below   : ∀ key, encodeKvKey key ≤ c.lastKey → Current r s c key
  above   : ∀ key, c.lastKey < encodeKvKey key → r.kv key = none
  ahead   : ∀ it, c.iter = some it → ∀ key, c.lastKey < encodeKvKey key →
    it.cursor.map.get (encodeKvKey key) = s.kv key ∨ Due s.ldb c.lastSeq (encodeKvKey key)
  fresh   : c.lastSeq = 0 → ∀ it, c.iter = some it → ∀ key, encodeKvKey key ≤ c.lastKey →
    r.kv key = it.cursor.map.get (encodeKvKey key)
  start   : c.lastSeq = 0 → c.iter = none → c.lastKey = []

-- And after that.
structure Copied (r : Slave) (s : SSDBImpl) (c : Client) : Prop where
  lastKey : r.lastKey = []
  keys    : ∀ key, Current r s c key

section

variable {r : Slave} {s s' : SSDBImpl} {c c' : Client} {log : Binlog}

theorem Current.extends (h : Current r s c key) (he : s.Extends s') (hl : c.lastSeq ≤ s.binlogs.lastSeq) :
    Current r s' c key := by
  rcases he.kv key with hk | hd
  case inr => exact .inr <| .inl <| hd.mono hl
  case inl => exact h.imp (hk ▸ ·) <| .imp_left he.due

theorem Current.congr {r' : Slave} (h : Current r s c key) (hv : r'.kv key = r.kv key) :
    Current r' s c key :=
  h.imp_left hv.trans

theorem Current.move (h : Current r s c key) (hp : ∀ log, c.position ≠ .rawGet log)
    (hl : c'.lastSeq = c.lastSeq) : Current r s c' key := by
  rcases h with hv | hd | ⟨log, hp', _⟩
  case inl     => exact .inl hv
  case inr.inl => exact .inr <| .inl <| hl ▸ hd
  case inr.inr => exact absurd hp' (hp log)

theorem Client.Finds.due (hf : c.Finds s log) (hj : ¬(c.status = .copy ∧ c.lastSeq = 0))
    (hd : Due s.ldb c.lastSeq k) (hk : log.key ≠ k) : Due s.ldb log.seq k := by
  have hn := hf.next
  rw [if_neg hj] at hn
  exact hd.next (fun seq hlt => hn ▸ UInt64.add_one_le_of_lt hlt) hf.get hk

-- A log that is found does not matter to other keys.
theorem Current.find (h : Current r s c key) (hp : c.position = .sync) (hf : c.Finds s log)
    (hj : ¬(c.status = .copy ∧ c.lastSeq = 0)) (hk : log.key ≠ encodeKvKey key) :
    r.kv key = s.kv key ∨ Due s.ldb log.seq (encodeKvKey key) := by
  rcases h with hv | hd | ⟨_, hp', _⟩
  case inl     => exact .inl hv
  case inr.inl => exact .inr <| hf.due hj hd hk
  case inr.inr => cases hp.symm.trans hp'

theorem Client.Sound.receives (hs : c.Sound s) (hw : s.Written) (hp : c.position = .rawGet log)
    (hg : s.ldb.get log.key = some val) : ∃ key, log.Writes key ∧ s.kv key = some val ∧
      r.Receives log key (some val) (r.proc true [log.buf, val]).1 := by
  have ⟨hl, hc, _⟩ := hs.rawGet log hp
  have ⟨key, ht, hk, hn⟩ := hw.logs _ _ hl
  have hn := hn.resolve_right fun hd => absurd (hc.symm.trans hd) (by decide)
  exact ⟨key, ⟨ht, hk, .inl hn⟩, by rw [SSDBImpl.kv, ← hk, hg], Slave.receives_kset (.inr ht) hc hk hn.right⟩

theorem Client.Finds.receives (hf : c.Finds s log) (hw : s.Written) (hc : log.cmd = BinlogCommand.kdel) :
    ∃ key, log.Writes key ∧ r.Receives log key none (r.proc true [log.buf]).1 := by
  have ⟨key, hk⟩ := hw.logs _ _ hf.get
  exact ⟨key, hk, Slave.receives_kdel (.inr hk.type) hc hk.about⟩

-- A step outside of the loop of `copy`.
theorem Current.step (h : Current r s c key) (hs : c.Step s c' ms) (hw : s.Written) (hc : c.Sound s)
    (hp : ∀ count, c.position ≠ .iterate count) (hb : c.status = .copy → encodeKvKey key ≤ c.lastKey)
    (hf : ∀ log, c.position = .sync → c.Finds s log → log.key ≠ encodeKvKey key →
      r.kv key = s.kv key ∨ Due s.ldb log.seq (encodeKvKey key)) :
    Current (r.receive ms) s c' key := by
  cases hs
  case missing hp' _ => exact h.move (by simp [hp']) rfl
  case enter hp'     => exact h.move (by simp [hp']) rfl
  case drop log hp' hl hst hd =>
    exact hf log hp' hl (fun he => (hb hst).not_gt <| he ▸ hd) |>.imp_right .inl
  case set log hp' hl _ _ =>
    by_cases he : log.key = encodeKvKey key
    case pos => exact .inr <| .inr ⟨log, rfl, he⟩
    case neg => exact hf log hp' hl he |>.imp_right .inl
  case del log hp' hl _ hd =>
    have ⟨key', hk, hr⟩ := hl.receives (r := r) hw hd
    have hv := hr.kv key
    by_cases he : key = key'
    case pos =>
      subst he
      rw [if_pos rfl] at hv
      exact hw.due_of_kdel hl.get hk.about hd |>.imp (fun hn => hv.trans hn.symm) .inl
    case neg =>
      rw [if_neg he] at hv
      exact hf log hp' hl (hk.about ▸ fun he' => he (encodeKvKey_inj.mp he').symm) |>.imp (hv ▸ ·) .inl
  case send log val hp' hg =>
    have ⟨key', hk, hv', hr⟩ := hc.receives (r := r) hw hp' hg
    have hv := hr.kv key
    by_cases he : key = key'
    case pos =>
      subst he
      exact .inl <| hv.trans <| (if_pos rfl).trans hv'.symm
    case neg =>
      rw [if_neg he] at hv
      rcases h with h | hd | ⟨log', hp'', hk'⟩
      case inl     => exact .inl <| hv.trans h
      case inr.inl => exact .inr <| .inl hd
      case inr.inr =>
        cases hp'.symm.trans hp''
        exact absurd (encodeKvKey_inj.mp <| hk.about.symm.trans hk').symm he
  case skip log hp' hg =>
    rcases h with h | hd | ⟨log', hp'', hk'⟩
    case inl     => exact .inl h
    case inr.inl => exact .inr <| .inl hd
    case inr.inr =>
      cases hp'.symm.trans hp''
      have ⟨hl, hk, _⟩ := hc.rawGet log hp'
      exact .inr <| .inl <| hw.due_of_kset hl hk' hk <| by rw [SSDBImpl.kv, ← hk', hg]
  case pause hp' _ | copy hp' _ _ _ | copyEnd hp' _ _ => exact absurd hp' (hp _)

theorem Current.step_of_ne (h : Current r s c key) (hs : c.Step s c' ms) (hw : s.Written) (hc : c.Sound s)
    (hn : c.status ≠ .copy) : Current (r.receive ms) s c' key := by
  refine h.step hs hw hc (fun count hp => hn <| hc.copy <| .inr ⟨count, hp⟩) (absurd · hn)
    fun log hp hf hk => h.find hp hf (fun hj => hn hj.left) hk

theorem Client.lt_copyStart : c.copyStart < encodeKvKey key ↔ c.lastKey < encodeKvKey key := by
  unfold copyStart
  split
  case isFalse => rfl
  case isTrue h =>
    rw [h]
    refine iff_of_true (List.cons_lt_cons_iff.mpr <| .inl <| by decide) (by simp [encodeKvKey])

namespace Copying

theorem fresh_of_not_skips (h : Copying r s c) (hn : ¬c.Skips s) (hp : c.position = .sync)
    (hj : c.status = .copy ∧ c.lastSeq = 0) (hf : c.Finds s log) (hk : log.key ≠ encodeKvKey key) :
    encodeKvKey key ≤ c.lastKey → r.kv key = s.kv key := by
  intro hle
  have hl := hf.found
  rw [Client.find, if_pos hj] at hl
  cases hi : c.iter
  case none =>
    rw [h.start hj.right hi] at hle
    exact absurd (List.nil_lt_cons _ _) hle.not_gt
  case some it =>
    rw [h.fresh hj.right it hi key hle]
    by_contra hv
    exact hn ⟨hp, hj.left, hj.right, it, log, hi, hl, key, hk.symm, .inl hle, hv⟩

theorem find (h : Copying r s c) (hn : ¬c.Skips s) (hp : c.position = .sync) (hf : c.Finds s log)
    (hk : log.key ≠ encodeKvKey key) (hle : encodeKvKey key ≤ c.lastKey) :
    r.kv key = s.kv key ∨ Due s.ldb log.seq (encodeKvKey key) := by
  by_cases hj : c.status = .copy ∧ c.lastSeq = 0
  case pos => exact .inl <| h.fresh_of_not_skips hn hp hj hf hk hle
  case neg => exact h.below key hle |>.find hp hf hj hk

-- An iterator that is kept still goes over what is due.
theorem ahead_find (h : Copying r s c) (hn : ¬c.Skips s) (hp : c.position = .sync) (hf : c.Finds s log)
    (hle : log.key ≤ c.lastKey) (hi : c.iter = some it) (hk : c.lastKey < encodeKvKey key) :
    it.cursor.map.get (encodeKvKey key) = s.kv key ∨ Due s.ldb log.seq (encodeKvKey key) := by
  have hne : log.key ≠ encodeKvKey key := fun he => hk.not_ge <| he ▸ hle
  by_cases hj : c.status = .copy ∧ c.lastSeq = 0
  case neg => exact h.ahead it hi key hk |>.imp_right fun hd => hf.due hj hd hne
  case pos =>
    refine .inl <| by_contra fun hv => ?_
    have hl := hf.found
    rw [Client.find, if_pos hj] at hl
    exact hn ⟨hp, hj.left, hj.right, it, log, hi, hl, key, hne.symm, .inr hle, hv⟩

-- What is sent for a log is about a key that has been copied.
theorem receives {r' : Slave} (h : Copying r s c) (hr : r.Receives log key v r') (hl : log.Writes key)
    (hle : log.key ≤ c.lastKey) :
    r'.lastKey = c.lastKey ∧ ∀ key', c.lastKey < encodeKvKey key' → r'.kv key' = none := by
  have ht : log.type ≠ BinlogType.copy := by
    rw [hl.type]
    decide
  refine ⟨hr.lastKey.trans <| (if_neg ht).trans h.lastKey, fun key' hk => ?_⟩
  rw [hr.kv, if_neg, h.above key' hk]
  rintro rfl
  exact hk.not_ge <| hl.about ▸ hle

-- After a key has been copied, what the iterator has for a key up to it is there, unless it was there before.
theorem kv_copied {r' : Slave} (h : Copying r s c) (hc : c.Sound s) (hi : c.iter = some it)
    (he : it.next.cursor.entry = some (encodeKvKey key', val)) (hr : r.Receives log key' (some val) r')
    (hle : encodeKvKey key ≤ encodeKvKey key') :
    c.lastKey < encodeKvKey key ∧ r'.kv key = it.cursor.map.get (encodeKvKey key) ∨
      encodeKvKey key ≤ c.lastKey ∧ r'.kv key = r.kv key := by
  have ⟨hm, hlt, between⟩ := Map.first_eq_some.mp <| (hc.iter it hi).left.symm.trans he
  have hlt := Client.lt_copyStart.mp hlt
  cases le_or_gt (encodeKvKey key) c.lastKey
  case inl hle' =>
    have hne : key ≠ key' := by
      rintro rfl
      exact hlt.not_ge hle'
    exact .inr ⟨hle', (hr.kv key).trans <| if_neg hne⟩
  case inr hgt =>
    refine .inl ⟨hgt, ?_⟩
    by_cases hne : key = key'
    case pos =>
      subst hne
      exact (hr.kv key).trans <| (if_pos rfl).trans hm.symm
    case neg =>
      have hn := between _ (Client.lt_copyStart.mpr hgt) <| lt_of_le_of_ne hle <| mt encodeKvKey_inj.mp hne
      exact (hr.kv key).trans <| (if_neg hne).trans <| (h.above key hgt).trans hn.symm

theorem copy (h : Copying r s c) (hc : c.Sound s) (hp : c.position = .iterate count) (hi : c.iter = some it)
    (hk : key ≠ []) (he : it.next.cursor.entry = some (encodeKvKey key, val)) :
    Copying (r.receive [[(Binlog.of c.lastSeq BinlogType.copy BinlogCommand.kset (encodeKvKey key)).buf, val]]) s
      { c with iter := some it.next, position := .iterate (count + 1), lastKey := encodeKvKey key } := by
  have ⟨_, hlt, _⟩ := Map.first_eq_some.mp <| (hc.iter it hi).left.symm.trans he
  have hlt := Client.lt_copyStart.mp hlt
  have hr : r.Receives _ key (some val) _ := Slave.receives_copy c.lastSeq hk
  refine {
    lastKey := hr.lastKey.trans <| (if_pos Binlog.type_of).trans Binlog.key_of
    below key' hle := ?_
    above key' hgt := ?_
    ahead it' hi' key' hgt := ?_
    fresh hz it' hi' key' hle := ?_
    start _ hi' := by cases hi' }
  case refine_1 =>
    rcases h.kv_copied hc hi he hr hle with ⟨hgt, hv⟩ | ⟨hle, hv⟩
    case inl => exact h.ahead it hi key' hgt |>.imp hv.trans .inl
    case inr => exact h.below key' hle |>.congr hv |>.move (by simp [hp]) rfl
  case refine_2 =>
    have hne : key' ≠ key := by
      rintro rfl
      exact lt_irrefl _ hgt
    exact (hr.kv key').trans <| (if_neg hne).trans <| h.above key' <| hlt.trans hgt
  case refine_3 =>
    cases hi'
    rw [Iterator.map_next]
    exact h.ahead it hi key' <| hlt.trans hgt
  case refine_4 =>
    cases hi'
    rw [Iterator.map_next]
    rcases h.kv_copied hc hi he hr hle with ⟨_, hv⟩ | ⟨hle, hv⟩
    case inl => exact hv
    case inr => exact hv.trans <| h.fresh hz it hi key' hle

-- The iterator has passed all keys.
theorem copyEnd (h : Copying r s c) (hc : c.Sound s) (hp : c.position = .iterate count) (hi : c.iter = some it)
    (he : it.next.cursor.entry = none) :
    Copied (r.receive [[(Binlog.of c.lastSeq BinlogType.copy BinlogCommand.end []).buf, .ofString "copy_end"]]) s
      { c with status := .sync, iter := none, position := .sync } := by
  have hn := Map.first_eq_none.mp <| (hc.iter it hi).left.symm.trans he
  rw [Slave.receive_cons, Slave.receive_nil, Slave.proc_end]
  refine ⟨rfl, fun key => ?_⟩
  cases le_or_gt (encodeKvKey key) c.lastKey
  case inl hle => exact h.below key hle |>.move (by simp [hp]) rfl
  case inr hgt =>
    refine h.ahead it hi key hgt |>.imp (fun hs => ?_) .inl
    refine (h.above key hgt).trans <| .trans ?_ hs
    exact (hn _ <| Client.lt_copyStart.mpr hgt).symm

-- A thread that has no iterator makes one of the keys that have not been copied.
theorem enter (h : Copying r s c) (hp : c.position = .copy) : Copying r s
    { c with iter := c.iter <|> some (s.iterator c.copyStart), position := .iterate 0 } := by
  have hm := (SSDBImpl.at_iterator (s := s) (k := c.copyStart)).right
  refine { h with
    below key hk := h.below key hk |>.move (by simp [hp]) rfl
    ahead it hi key hk := ?_
    fresh hz it hi key hk := ?_
    start hz hi := ?_ }
  all_goals
    cases hi' : c.iter
    all_goals rw [hi'] at hi; cases hi
  case refine_1.none   => exact .inl <| hm ▸ rfl
  case refine_1.some   => exact h.ahead _ hi' key hk
  case refine_2.none   =>
    rw [h.start hz hi'] at hk
    exact absurd (List.nil_lt_cons _ _) hk.not_gt
  case refine_2.some   => exact h.fresh hz _ hi' key hk

end Copying

theorem Copying.step (h : Copying r s c) (hs : c.Step s c' ms) (hw : s.Written) (hc : c.Sound s)
    (hst : c.status = .copy) (hn : ¬c.Skips s) :
    c'.status = .copy ∧ Copying (r.receive ms) s c' ∨ c'.status = .sync ∧ Copied (r.receive ms) s c' := by
  have below (hp : ∀ count, c.position ≠ .iterate count) (key : Bytes) (hk : encodeKvKey key ≤ c.lastKey) :
      Current (r.receive ms) s c' key :=
    h.below key hk |>.step hs hw hc hp (fun _ => hk) fun log hp' hf hk' => h.find hn hp' hf hk' hk
  have pos {log : Binlog} (hf : c.Finds s log) : log.seq ≠ 0 := fun hz => UInt64.not_lt_zero (hz ▸ hf.lt)
  cases hs
  case missing hp _ => exact .inl ⟨hst, { h with below := below (by simp [hp]) }⟩
  case drop log hp hf _ hd =>
    refine .inl ⟨hst, { h with
      below    := below (by simp [hp])
      ahead _ hi := by cases hi
      fresh hz := absurd hz (pos hf)
      start hz := absurd hz (pos hf) }⟩
  case set log hp hf hk _ =>
    refine .inl ⟨hst, { h with
      below := below (by simp [hp])
      ahead it hi key := h.ahead_find hn hp hf (hk hst) hi
      fresh hz := absurd hz (pos hf)
      start hz := absurd hz (pos hf) }⟩
  case del log hp hf hk hd =>
    have ⟨key', hl, hr⟩ := hf.receives (r := r) hw hd
    have ⟨hlast, above⟩ := h.receives hr hl (hk hst)
    exact .inl ⟨hst, {
      lastKey := hlast
      below   := below (by simp [hp])
      above
      ahead it hi key := h.ahead_find hn hp hf (hk hst) hi
      fresh hz := absurd hz (pos hf)
      start hz := absurd hz (pos hf) }⟩
  case send log val hp hg =>
    have ⟨key', hl, _, hr⟩ := hc.receives (r := r) hw hp hg
    have ⟨hf, _, hk⟩ := hc.rawGet log hp
    have ⟨hlast, above⟩ := h.receives hr hl (hk hst)
    have hz : c.lastSeq ≠ 0 := UInt64.one_le_iff.mp (hw.logged.get_seq hf).right.left
    exact .inl ⟨hst, {
      lastKey := hlast
      below   := below (by simp [hp])
      above
      ahead   := h.ahead
      fresh hz' := absurd hz' hz
      start   := h.start }⟩
  case skip hp _          => exact .inl ⟨hst, { h with below := below (by simp [hp]) }⟩
  case enter hp           => exact .inl ⟨hst, h.enter hp⟩
  case pause hp _         => exact .inl ⟨hst, { h with below key hk := h.below key hk |>.move (by simp [hp]) rfl }⟩
  case copy hp hi hk he   => exact .inl ⟨hst, h.copy hc hp hi hk he⟩
  case copyEnd hp hi he   => exact .inr ⟨rfl, h.copyEnd hc hp hi he⟩

theorem Copied.step (h : Copied r s c) (hs : c.Step s c' ms) (hw : s.Written) (hc : c.Sound s)
    (hst : c.status ≠ .copy) : c'.status = c.status ∧ Copied (r.receive ms) s c' := by
  have keys (key : Bytes) := (h.keys key).step_of_ne hs hw hc hst
  have hn (hp : c.position = .copy ∨ ∃ count, c.position = .iterate count) := hst (hc.copy hp)
  cases hs
  case missing | set | skip => exact ⟨rfl, h.lastKey, keys⟩
  case drop hst' _  => exact absurd hst' hst
  case enter hp     => exact absurd hp fun hp => hn (.inl hp)
  case pause hp _ | copy hp _ _ _ | copyEnd hp _ _ => exact absurd hp fun hp => hn (.inr ⟨_, hp⟩)
  case del log hp hf _ hd =>
    have ⟨key', hl, hr⟩ := hf.receives (r := r) hw hd
    refine ⟨rfl, hr.lastKey.trans <| (if_neg ?_).trans h.lastKey, keys⟩
    rw [hl.type]
    decide
  case send log val hp hg =>
    have ⟨key', hl, _, hr⟩ := hc.receives (r := r) hw hp hg
    refine ⟨rfl, hr.lastKey.trans <| (if_neg ?_).trans h.lastKey, keys⟩
    rw [hl.type]
    decide

theorem Copying.extends (h : Copying r s c) (he : s.Extends s') (hl : c.lastSeq ≤ s.binlogs.lastSeq) :
    Copying r s' c := { h with
  below key hk       := h.below key hk |>.extends he hl
  ahead it hi key hk := by
    rcases he.kv key with hv | hd
    case inl => exact hv ▸ h.ahead it hi key hk |>.imp_right he.due
    case inr => exact .inr <| hd.mono hl }

theorem Copied.extends (h : Copied r s c) (he : s.Extends s') (hl : c.lastSeq ≤ s.binlogs.lastSeq) :
    Copied r s' c :=
  ⟨h.lastKey, fun key => h.keys key |>.extends he hl⟩

end

end Ssdb

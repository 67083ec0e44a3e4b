import LabSystems.Ssdb.Slave
import LabSystems.Ssdb.Theorems.Maps

namespace Ssdb

namespace Binlog

-- The types of logs that a slave applies.
def Replicated (log : Binlog) : Prop :=
  log.type = BinlogType.copy ∨ log.type = BinlogType.sync ∨ log.type = BinlogType.mirror

def Redo (log : Binlog) : Prop :=
  log.cmd = BinlogCommand.kset ∨ log.cmd = BinlogCommand.kdel

-- A message with the log is complete, so that it leads to a call to the store.
def Asks (log : Binlog) (req : List Bytes) : Prop :=
  log.Redo ∧ log.key ≠ [] ∧ (log.cmd = BinlogCommand.kset → req.length = 2)

-- The call fails, unless it is the one that sets an empty key and therefore does nothing.
def Refused (log : Binlog) (ok : Bool) : Prop :=
  ok = false ∧ ¬(log.cmd = BinlogCommand.kset ∧ log.key.length = 1)

def Marks (log : Binlog) (c : UInt8) : Prop :=
  log.type = BinlogType.copy ∧ log.cmd = c

instance (log : Binlog) : Decidable log.Replicated := inferInstanceAs (Decidable (_ ∨ _))
instance (log : Binlog) : Decidable log.Redo       := inferInstanceAs (Decidable (_ ∨ _))
instance (log : Binlog) : Decidable (log.Asks req) := inferInstanceAs (Decidable (_ ∧ _))
instance (log : Binlog) : Decidable (log.Refused ok) := inferInstanceAs (Decidable (_ ∧ _))
instance (log : Binlog) : Decidable (log.Marks c)  := inferInstanceAs (Decidable (_ ∧ _))

end Binlog

namespace Slave

-- The position that `saveStatus` has stored.
def saved (s : Slave) : Option UInt64 :=
  match s.meta.hget true s.statusKey lastSeqField with
  | .found seq => some <| strToUint64 seq
  | _          => none

-- The position that is stored for a message, if there is one.
def position (s : Slave) : Action → Option UInt64
  | .proc ok req =>
    Binlog.load (req.headD []) |>.bind fun log =>
      if log.Marks BinlogCommand.end then
        some s.lastSeq
      else if log.Replicated ∧ ¬log.Marks BinlogCommand.begin ∧ ¬(log.Asks req ∧ log.Refused ok) then
        some log.seq
      else
        none
  | .restart => none

-- What an action can do, with the guards under which it does it.
inductive Step (s : Slave) : Action → Slave → Option Int → Prop
  | ignored (ignores : ∀ log, Binlog.load (req.headD []) = some log →
      ¬log.Replicated ∨ log.Marks BinlogCommand.begin) : Step s (.proc ok req) s none
  | ended (load : Binlog.load (req.headD []) = some log) (marks : log.Marks BinlogCommand.end) :
    Step s (.proc ok req) { s with lastKey := [] }.saveStatus none
  | skipped (load : Binlog.load (req.headD []) = some log) (replicated : log.Replicated)
    (marks : ¬log.Marks BinlogCommand.begin ∧ ¬log.Marks BinlogCommand.end) (asks : ¬log.Asks req) :
    Step s (.proc ok req) (s.advance log) none
  | failed (load : Binlog.load (req.headD []) = some log) (replicated : log.Replicated)
    (asks : log.Asks req) (refused : log.Refused ok) (redo : s.redo ok log req = some (db, -1)) :
    Step s (.proc ok req) { s with ssdb := db } (some (-1))
  | applied (load : Binlog.load (req.headD []) = some log) (replicated : log.Replicated)
    (asks : log.Asks req) (refused : ¬log.Refused ok) (redo : s.redo ok log req = some (db, ret))
    (done : ret ≠ -1) : Step s (.proc ok req) ({ s with ssdb := db }.advance log) (some ret)
  | restart : Step s .restart s.restart none

abbrev Transition (s₀ : Slave) :=
  (slave s₀).Transition

end Slave

section

variable {s : SSDBImpl}

theorem Binlog.Asks.not_marks {log : Binlog} (h : log.Asks req) :
    ¬log.Marks BinlogCommand.begin ∧ ¬log.Marks BinlogCommand.end := by
  constructor <;> intro hm <;> rcases h.left with hc | hc <;>
    exact absurd (hc.symm.trans hm.right) (by decide)

theorem SSDBImpl.ret_set : (s.set ok key val).2 = -1 ↔ ok = false ∧ key ≠ [] := by
  unfold set
  split
  case isTrue h  => simp [h]
  case isFalse h => cases ok <;> simp [transaction, h]

theorem SSDBImpl.ret_del : (s.del ok key).2 = -1 ↔ ok = false := by
  cases ok <;> simp [del, transaction]

-- The maps that a database holds.
def SSDBImpl.maps (s : SSDBImpl) : Maps where
  kv key := s.ldb.get (encodeKvKey key)
  hash p := s.ldb.get (encodeHashKey p.1 p.2)

theorem SSDBImpl.hget_hset (ha : Accepted name key) :
    (s.hset ⟨true, true, true⟩ name key val type).1.hget true name' key' =
      if (name', key') = (name, key) then .found val else s.hget true name' key' := by
  have hr : s.Refines s.maps := ⟨fun _ => rfl, fun _ _ => rfl⟩
  have hs : Step s (.hset ⟨true, true, true⟩ name key val type) _ := hset_step
  have h := hs.refines hr rfl |>.hash name' key'
  rw [hget, ldbGet_true, h, Maps.call, if_pos ha]
  simp only [Function.update_apply]
  split
  case isTrue  => rfl
  case isFalse => exact ldbGet_true.symm

end

namespace Slave

variable {s s' s₀ : Slave} {log : Binlog} {req : List Bytes}

theorem redo_cases : s.redo ok log req = none ∧ ¬log.Asks req ∨
    ∃ db ret, s.redo ok log req = some (db, ret) ∧ log.Asks req ∧ (ret = -1 ↔ log.Refused ok) := by
  have hn : BinlogCommand.kdel ≠ BinlogCommand.kset := by decide
  unfold redo Binlog.Asks Binlog.Redo Binlog.Refused
  split
  case isTrue hc =>
    simp only [hc, true_or, true_and, forall_const]
    split
    case h_1 val =>
      cases hk : log.key
      case nil => exact .inl ⟨rfl, by simp⟩
      case cons t key => exact .inr ⟨_, _, rfl, by simp, SSDBImpl.ret_set.trans <| by simp⟩
    case h_2 hr =>
      refine .inl ⟨rfl, fun ⟨_, hl⟩ => ?_⟩
      have ⟨a, b, he⟩ := List.length_eq_two.mp hl
      exact hr a b he
  case isFalse hc =>
    simp only [hc, false_or, false_imp_iff, and_true, false_and, not_false_eq_true]
    split
    case isTrue hc' =>
      cases hk : log.key
      case nil => exact .inl ⟨rfl, by simp⟩
      case cons t key => exact .inr ⟨_, _, rfl, by simp [hc'],
        (SSDBImpl.ret_del : (s.ssdb.del ok key).2 = -1 ↔ _)⟩
    case isFalse hc' => exact .inl ⟨rfl, fun h => hc' h.left⟩

theorem procSync_step (h : Binlog.load (req.headD []) = some log) (hr : log.Replicated)
    (hm : ¬log.Marks BinlogCommand.begin ∧ ¬log.Marks BinlogCommand.end) :
    Step s (.proc ok req) (s.procSync ok log req).1 (s.procSync ok log req).2 := by
  unfold procSync
  rcases redo_cases with ⟨hn, ha⟩ | ⟨db, ret, he, ha, hf⟩
  case inl =>
    rw [hn]
    exact .skipped h hr hm ha
  case inr =>
    rw [he]
    by_cases hn : ret = -1
    case pos =>
      subst hn
      exact .failed h hr ha (hf.mp rfl) he
    case neg =>
      simp only [hn, if_false]
      exact .applied h hr ha (mt hf.mpr hn) he hn

theorem proc_step : Step s (.proc ok req) (s.proc ok req).1 (s.proc ok req).2 := by
  unfold proc
  split
  case h_1 h =>
    refine .ignored fun log h' => ?_
    cases h.symm.trans h'
  case h_2 log h =>
    split
    case isTrue hc =>
      unfold procCopy
      split
      case isTrue hb =>
        refine .ignored fun log' h' => ?_
        cases h.symm.trans h'
        exact .inr ⟨hc, hb⟩
      case isFalse hb =>
        split
        case isTrue he  => exact .ended h ⟨hc, he⟩
        case isFalse he => exact procSync_step h (.inl hc) ⟨fun hm => hb hm.right, fun hm => he hm.right⟩
    case isFalse hc =>
      split
      case isTrue hs  => exact procSync_step h (.inr hs) ⟨fun hm => hc hm.left, fun hm => hc hm.left⟩
      case isFalse hs =>
        refine .ignored fun log' h' => ?_
        cases h.symm.trans h'
        exact .inl fun hr => hr.elim hc hs

theorem Step.of (t : Transition s₀) : ∃ o, Step t.pre t.act t.post o ∧ t.events = o.toList := by
  have ⟨pre, act, events, post, valid⟩ := t
  cases valid
  refine ⟨_, ?_, rfl⟩
  cases act
  case proc    => exact proc_step
  case restart => exact .restart

theorem accepted_statusKey (hf : field ∈ [lastKeyField, lastSeqField]) : Accepted s.statusKey field := by
  have hl := s.idLen
  have hn : 0 < field.length ∧ field.length ≤ keyLenMax := by
    simp only [List.mem_cons, List.not_mem_nil, or_false] at hf
    rcases hf with rfl | rfl <;> decide
  have hs : s.statusKey.length = 13 + s.id.length := List.length_append
  exact ⟨List.ne_nil_of_length_pos <| by omega, List.ne_nil_of_length_pos hn.left,
    by unfold keyLenMax; omega, hn.right⟩

theorem hget_saveStatus : s.saveStatus.meta.hget true s.statusKey field =
    if field = lastSeqField then .found (str s.lastSeq)
    else if field = lastKeyField then .found s.lastKey
    else s.meta.hget true s.statusKey field := by
  have h := accepted_statusKey (s := s) (List.mem_cons_self (a := lastKeyField))
  have h' := accepted_statusKey (s := s) (List.mem_cons_of_mem lastKeyField (List.mem_singleton_self lastSeqField))
  simp only [saveStatus, hsetMeta, statusKey] at h h' ⊢
  simp only [SSDBImpl.hget_hset h, SSDBImpl.hget_hset h', Prod.mk.injEq, true_and]

@[simp]
theorem saved_saveStatus : s.saveStatus.saved = some s.lastSeq := by
  have h : s.saveStatus.meta.hget true s.statusKey lastSeqField = .found (str s.lastSeq) :=
    hget_saveStatus.trans <| if_pos rfl
  simp only [saved, saveStatus, hsetMeta, statusKey] at h ⊢
  rw [h]
  simp

theorem position_of_load (h : Binlog.load (req.headD []) = some log) : s.position (.proc ok req) =
    if log.Marks BinlogCommand.end then some s.lastSeq
    else if log.Replicated ∧ ¬log.Marks BinlogCommand.begin ∧ ¬(log.Asks req ∧ log.Refused ok)
    then some log.seq else none := by
  rw [position, h, Option.bind_some]

theorem Step.saved (h : Step s a s' o) : s'.saved = (s.position a).or s.saved := by
  cases h
  case ignored hi =>
    suffices hp : s.position (.proc _ _) = none by rw [hp, Option.none_or]
    refine Option.bind_eq_none_iff.mpr fun log hl => ?_
    rcases hi log hl with hr | hb
    case inl =>
      have hm : ¬log.Marks BinlogCommand.end := fun hm => hr <| .inl hm.left
      simp [hm, hr]
    case inr =>
      have hm : ¬log.Marks BinlogCommand.end :=
        fun hm => absurd (hb.right.symm.trans hm.right) (by decide)
      simp [hm, hb]
  case ended hl hm => rw [position_of_load hl, if_pos hm, saved_saveStatus, Option.some_or]
  case skipped hl hr hm ha =>
    rw [position_of_load hl, if_neg hm.right, if_pos ⟨hr, hm.left, fun h => ha h.left⟩, advance,
      saved_saveStatus, Option.some_or]
  case failed hl hr ha hf _ =>
    rw [position_of_load hl, if_neg ha.not_marks.right, if_neg fun h => h.right.right ⟨ha, hf⟩,
      Option.none_or]
    rfl
  case applied hl hr ha hf _ _ =>
    have hm := ha.not_marks
    rw [position_of_load hl, if_neg hm.right, if_pos ⟨hr, hm.left, fun h => hf h.right⟩, advance,
      saved_saveStatus, Option.some_or]
  case restart => rfl

end Slave

end Ssdb

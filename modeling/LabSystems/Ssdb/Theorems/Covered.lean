import LabSystems.Ssdb.Theorems.Received

namespace Ssdb

namespace Slave

-- What a message that sets or deletes a key is about. It is the same if the log is sent again.
structure Update where
  seq : UInt64
  cmd : UInt8
  key : Bytes
  deriving DecidableEq

namespace Action

def update : Action → Option Update
  | proc _ req => Binlog.load (req.headD []) |>.filter (·.Redo) |>.map fun log => ⟨log.seq, log.cmd, log.key⟩
  | restart    => none

-- The value that a message asks for a key to have, where `none` stands for no value.
def asks : Action → Option (Bytes × Option Bytes)
  | proc _ req =>
    Binlog.load (req.headD []) |>.bind fun log =>
      if log.cmd = BinlogCommand.kset then
        match req with
        | [_, val] => decodeKvKey log.key |>.map (·, some val)
        | _        => none
      else if log.cmd = BinlogCommand.kdel then
        decodeKvKey log.key |>.map (·, none)
      else
        none
  | restart    => none

-- The message is complete and of a type that is applied, its key is not empty if it is to be set, and the call to the
-- store succeeds.
def Applies : Action → Prop
  | proc ok req => ∃ log ∈ Binlog.load (req.headD []),
    log.Replicated ∧ log.Asks req ∧ ok = true ∧ ¬(log.cmd = BinlogCommand.kset ∧ log.key.length = 1)
  | restart     => False

instance : DecidablePred Applies
  | proc _ req => inferInstanceAs <| Decidable <| ∃ log ∈ Binlog.load (req.headD []), _
  | restart    => instDecidableFalse

-- The message is about an update, which is not applied.
def Misses (u : Update) (a : Action) : Prop :=
  a.update = some u ∧ ¬a.Applies

-- The message is about an update, which is applied.
def Redoes (u : Update) (a : Action) : Prop :=
  a.update = some u ∧ a.Applies

instance : DecidablePred (Misses u) := fun _ => inferInstanceAs <| Decidable (_ ∧ _)
instance : DecidablePred (Redoes u) := fun _ => inferInstanceAs <| Decidable (_ ∧ _)

end Action

-- The store has been changed as a message asks.
def Transition.Applied (t : Transition s₀) : Prop :=
  ∃ key val, t.act.asks = some (key, val) ∧ t.events = [1] ∧
    ∀ key', t.post.kv key' = if key' = key then val else t.pre.kv key'

-- All messages up to the saved position have been applied, when they have been received or later.
def Covered (ts : List (Transition s₀)) (s : Slave) : Prop :=
  ∀ v, s.saved = some v → ∀ us t vs, ts = us ++ t :: vs → ∀ u, t.act.update = some u → u.seq ≤ v →
    ∃ w ∈ t :: vs, w.act.update = some u ∧ Transition.Applied w

-- The positions that are stored are less than the number of an update, until it is applied.
def Below (u : Update) : List (Transition s₀) → Prop
  | []      => True
  | t :: ts => t.act.Redoes u ∨ (∀ v, t.pre.position t.act = some v → v < u.seq) ∧ Below u ts

-- Whenever an update is missed, its number is greater than the position that is stored at that time, and than the
-- positions that are stored for later messages until it is applied.
def InOrder : List (Transition s₀) → Prop
  | []      => True
  | t :: ts =>
    (∀ u, t.act.Misses u → (∀ v, (t.pre.position t.act).or t.pre.saved = some v → v < u.seq) ∧ Below u ts) ∧
      InOrder ts

-- It suffices to look at the position that there is, if any.
def decideBefore (n : UInt64) : (pos : Option UInt64) → Decidable (∀ v, pos = some v → v < n)
  | none   => isTrue nofun
  | some v => decidable_of_iff (v < n) ⟨fun h _ he => Option.some.inj he ▸ h, fun h => h v rfl⟩

instance instDecidableBelow : (ts : List (Transition s₀)) → Decidable (Below u ts)
  | []      => instDecidableTrue
  | t :: ts =>
    have := instDecidableBelow (u := u) ts
    have := decideBefore u.seq (t.pre.position t.act)
    inferInstanceAs <| Decidable <| t.act.Redoes u ∨ (∀ v, t.pre.position t.act = some v → v < u.seq) ∧ Below u ts

-- So it does to look at the update that the message is about.
instance instDecidableInOrder : (ts : List (Transition s₀)) → Decidable (InOrder ts)
  | []      => instDecidableTrue
  | t :: ts =>
    have := instDecidableInOrder ts
    match hu : t.act.update with
    | none   => decidable_of_iff (InOrder ts) <| by simp [InOrder, Action.Misses, hu]
    | some u =>
      have := decideBefore u.seq ((t.pre.position t.act).or t.pre.saved)
      decidable_of_iff
        ((¬t.act.Applies → (∀ v, (t.pre.position t.act).or t.pre.saved = some v → v < u.seq) ∧ Below u ts) ∧ InOrder ts)
        <| by simp [InOrder, Action.Misses, hu]

-- An update has been missed and not been applied since.
def Missing (u : Update) (ts : List (Transition s₀)) : Prop :=
  ∃ us t vs, ts = us ++ t :: vs ∧ t.act.Misses u ∧ ∀ w ∈ vs, ¬w.act.Redoes u

variable {s s' s₀ : Slave} {log : Binlog} {req : List Bytes} {u : Update} {ts : List (Transition s₀)} {t : Transition s₀}
  {db : SSDBImpl}

theorem ret_set_eq_one : (db.set ok key val).2 = 1 ↔ ok = true ∧ key ≠ [] := by
  unfold SSDBImpl.set
  split
  case isTrue h  => simp [h]
  case isFalse h => cases ok <;> simp [SSDBImpl.transaction, h]

theorem ret_del_eq_one : (db.del ok key).2 = 1 ↔ ok = true := by
  cases ok <;> simp [SSDBImpl.del, SSDBImpl.transaction]

-- A call that returns 1 has done what the message asks for.
theorem redo_eq_some (h : s.redo ok log req = some (db, ret)) (hl : Binlog.load (req.headD []) = some log) :
    ∃ key val, (Action.proc ok req).asks = some (key, val) ∧
      (ret = 1 ↔ ok = true ∧ ¬(log.cmd = BinlogCommand.kset ∧ log.key.length = 1)) ∧
      (ret = 1 → ∀ key', db.kv key' = if key' = key then val else s.kv key') := by
  have hn : BinlogCommand.kdel ≠ BinlogCommand.kset := by decide
  rw [Action.asks, hl, Option.bind_some]
  unfold redo at h
  split at h
  case isTrue hc =>
    rw [if_pos hc]
    split at h
    case h_2 => cases h
    case h_1 req val =>
      cases hk : log.key <;> rw [hk] at h
      case nil           => cases h
      case cons head key =>
        obtain ⟨rfl, rfl⟩ := Prod.ext_iff.mp <| Option.some.inj h
        refine ⟨key, some val, rfl, ret_set_eq_one.trans ?_, fun h => ?_⟩
        case refine_1 => simp [hc]
        case refine_2 =>
          have ⟨ho, hne⟩ := ret_set_eq_one.mp h
          exact ho ▸ SSDBImpl.kv_set hne
  case isFalse hc =>
    rw [if_neg hc]
    split at h
    case isFalse => cases h
    case isTrue hc' =>
      cases hk : log.key <;> rw [hk] at h
      case nil           => cases h
      case cons head key =>
        obtain ⟨rfl, rfl⟩ := Prod.ext_iff.mp <| Option.some.inj h
        refine ⟨key, none, by rw [if_pos hc']; rfl, ret_del_eq_one.trans ?_, fun h => ?_⟩
        case refine_1 => simp [hc]
        case refine_2 => exact ret_del_eq_one.mp h ▸ SSDBImpl.kv_del

theorem Step.applied_iff (h : Step s a s' o) :
    (∃ key val, a.asks = some (key, val) ∧ o = some 1 ∧ ∀ key', s'.kv key' = if key' = key then val else s.kv key') ↔
    a.Applies := by
  cases h
  case restart => simp [Action.Applies]
  case ignored hi =>
    refine iff_of_false (by simp) ?_
    rintro ⟨log, hl, hr, ha, -⟩
    exact (hi log hl).elim (· hr) ha.not_marks.left
  case ended hl hm =>
    refine iff_of_false (by simp) ?_
    rintro ⟨log, hl', -, ha, -⟩
    cases hl.symm.trans hl'
    exact ha.not_marks.right hm
  case skipped hl _ _ ha =>
    refine iff_of_false (by simp) ?_
    rintro ⟨log, hl', -, ha', -⟩
    cases hl.symm.trans hl'
    exact ha ha'
  case failed hl _ _ hf _ =>
    refine iff_of_false (by simp) ?_
    rintro ⟨log, hl', -, -, ho, -⟩
    rw [hf.left] at ho
    cases ho
  case applied hl hr ha _ he _ =>
    obtain ⟨key, val, hk, hret, hdb⟩ := redo_eq_some he hl
    constructor
    case mp =>
      rintro ⟨_, _, -, ho, -⟩
      obtain ⟨ho, hne⟩ := hret.mp <| Option.some.inj ho
      exact ⟨_, hl, hr, ha, ho, hne⟩
    case mpr =>
      rintro ⟨log', hl', -, -, ho, hne⟩
      cases hl.symm.trans hl'
      have h := hret.mpr ⟨ho, hne⟩
      exact ⟨key, val, hk, congrArg some h, hdb h⟩

theorem Transition.applied_iff : Transition.Applied t ↔ t.act.Applies := by
  have ⟨o, h, he⟩ := Step.of t
  rw [← h.applied_iff, Applied, he]
  cases o <;> simp

section Missing

theorem not_missing_nil : ¬Missing u ([] : List (Transition s₀)) := by
  rintro ⟨us, t, vs, he, _⟩
  simp at he

theorem missing_cons : Missing u (t :: ts) ↔ (t.act.Misses u ∧ ∀ w ∈ ts, ¬w.act.Redoes u) ∨ Missing u ts := by
  constructor
  case mp =>
    rintro ⟨us, w, vs, he, hw, hvs⟩
    rcases List.cons_eq_append_iff.mp he with ⟨rfl, he⟩ | ⟨us, rfl, rfl⟩
    case inl =>
      cases he
      exact .inl ⟨hw, hvs⟩
    case inr => exact .inr ⟨us, w, vs, rfl, hw, hvs⟩
  case mpr =>
    rintro (⟨ht, hts⟩ | ⟨us, w, vs, rfl, hw, hvs⟩)
    case inl => exact ⟨[], t, ts, rfl, ht, hts⟩
    case inr => exact ⟨t :: us, w, vs, rfl, hw, hvs⟩

theorem missing_snoc : Missing u (ts ++ [t]) ↔ t.act.Misses u ∨ Missing u ts ∧ ¬t.act.Redoes u := by
  induction ts
  case nil             => simp [missing_cons, not_missing_nil]
  case cons w ts hi =>
    rw [List.cons_append, missing_cons, missing_cons, hi, List.forall_mem_append, List.forall_mem_singleton]
    tauto

theorem below_snoc : Below u (ts ++ [t]) ↔ Below u ts ∧
    ((∀ w ∈ ts, ¬w.act.Redoes u) → ¬t.act.Redoes u → ∀ v, t.pre.position t.act = some v → v < u.seq) := by
  induction ts
  case nil          => simp [Below, or_iff_not_imp_left]
  case cons w ts hi =>
    rw [List.cons_append, Below, Below, hi, List.forall_mem_cons]
    tauto

theorem inOrder_snoc : InOrder (ts ++ [t]) ↔ InOrder ts ∧
    (∀ u, t.act.Misses u → ∀ v, (t.pre.position t.act).or t.pre.saved = some v → v < u.seq) ∧
    ∀ u, Missing u ts → ¬t.act.Redoes u → ∀ v, t.pre.position t.act = some v → v < u.seq := by
  induction ts
  case nil          => simp [InOrder, Below, not_missing_nil]
  case cons w ts hi =>
    simp only [List.cons_append, InOrder, below_snoc, hi, missing_cons]
    constructor
    case mp =>
      intro ⟨hw, hts, ht, hm⟩
      refine ⟨⟨fun u hu => ⟨(hw u hu).left, (hw u hu).right.left⟩, hts⟩, ht, fun u hu => hu.elim ?_ (hm u)⟩
      exact fun ⟨hu, hn⟩ => (hw u hu).right.right hn
    case mpr =>
      intro ⟨⟨hw, hts⟩, ht, hm⟩
      exact ⟨fun u hu => ⟨(hw u hu).left, (hw u hu).right, fun hn => hm u <| .inl ⟨hu, hn⟩⟩, hts, ht,
        fun u hu => hm u <| .inr hu⟩

end Missing

-- What the position must not pass are the updates that are missing.
theorem covered_iff : Covered ts s ↔ ∀ v, s.saved = some v → ∀ u, Missing u ts → v < u.seq := by
  unfold Covered
  refine forall₂_congr fun v _ => ?_
  constructor
  case mp =>
    rintro h u ⟨us, t, vs, he, ⟨hu, ht⟩, hvs⟩
    by_contra hle
    have ⟨w, hw, hwu, ha⟩ := h us t vs he u hu <| not_lt.mp hle
    have ha := Transition.applied_iff.mp ha
    cases List.mem_cons.mp hw
    case inl hw => exact ht <| hw ▸ ha
    case inr hw => exact hvs w hw ⟨hwu, ha⟩
  case mpr =>
    intro h us t vs he u hu hle
    by_contra hn
    have hn (w) (hw : w ∈ t :: vs) : ¬w.act.Redoes u :=
      fun ⟨hwu, ha⟩ => hn ⟨w, hw, hwu, Transition.applied_iff.mpr ha⟩
    rw [List.forall_mem_cons] at hn
    exact (h u ⟨us, t, vs, he, ⟨hu, fun ha => hn.left ⟨hu, ha⟩⟩, hn.right⟩).not_ge hle

theorem covered_snoc (h : Covered ts t.pre) : Covered (ts ++ [t]) t.post ↔
    (∀ u, t.act.Misses u → ∀ v, (t.pre.position t.act).or t.pre.saved = some v → v < u.seq) ∧
    ∀ u, Missing u ts → ¬t.act.Redoes u → ∀ v, t.pre.position t.act = some v → v < u.seq := by
  have ⟨_, hs, _⟩ := Step.of t
  rw [covered_iff] at h ⊢
  simp only [hs.saved, missing_snoc]
  constructor
  case mp =>
    intro hc
    exact ⟨fun u hu v hv => hc v hv u <| .inl hu, fun u hu hn v hv => hc v (by rw [hv, Option.some_or]) u <| .inr ⟨hu, hn⟩⟩
  case mpr =>
    rintro ⟨ht, hts⟩ v hv u (hu | ⟨hu, hn⟩)
    case inl => exact ht u hu v hv
    case inr =>
      cases hp : t.pre.position t.act
      case none   => exact h v (by rwa [hp, Option.none_or] at hv) u hu
      case some p => exact hts u hu hn v <| by rwa [hp, Option.some_or, ← hp] at hv

-- The saved position never passes an update that is missing, if and only if the numbers of the messages do not make it
-- do so.
theorem covered_iff_inOrder (r : (slave s₀).Run ts s) :
    (slave s₀).Throughout (slave s₀).init ts Covered ↔ InOrder ts := by
  induction r
  case nil =>
    rw [Machine.throughout_nil, covered_iff]
    exact iff_of_true (fun _ _ _ hu => absurd hu not_missing_nil) trivial
  case snoc ts t r hi =>
    rw [Machine.throughout_snoc r, inOrder_snoc, ← hi]
    exact and_congr_right fun h => covered_snoc <| h.last r

def new (id : Bytes) (h : id.length < 128) : Slave :=
  ⟨id, h, 0, [], .open .empty, .open .empty⟩

-- A message that sets a key.
def kset (seq : UInt64) : List Bytes :=
  [(Binlog.of seq BinlogType.sync BinlogCommand.kset [107, 97]).buf, [1]]

-- The position is not stored until the key, which cannot be set at first, is set when the log is sent again.
theorem covered_iff_inOrder_retry :
    let s₀ := new [49] (by decide)
    let tr := (slave s₀).trace s₀.restart [.proc false (kset 5), .restart, .proc true (kset 5), .proc true (kset 6)]
    tr.2.saved = some 6 ∧ (slave s₀).Throughout (slave s₀).init tr.1 Covered :=
  ⟨by decide +kernel, covered_iff_inOrder ((slave _).path_trace ..) |>.mpr <| by decide +kernel⟩

-- A key cannot be set, and the next one can.
theorem not_covered : ¬∀ (s₀ : Slave) (ts : List (Transition s₀)) (s : Slave), (slave s₀).Run ts s →
    Covered ts s := by
  intro h
  let s₀ := new [49] (by decide)
  let tr := (slave s₀).trace s₀.restart [.proc false (kset 5), .proc true (kset 6)]
  have hc : Covered tr.1 tr.2 := h s₀ _ _ <| (slave s₀).path_trace ..
  have hm : Missing ⟨5, BinlogCommand.kset, [107, 97]⟩ tr.1 := by
    refine ⟨[], _, _, rfl, ?_, ?_⟩ <;> decide +kernel
  exact absurd (covered_iff.mp hc 6 (by decide +kernel) _ hm) (by decide)

end Slave

end Ssdb

import Mathlib.Data.Finset.Insert
import Mathlib.Data.List.Nodup
import Mathlib.Order.Basic

-- Finite maps whose entries are ordered by their keys, as sorted lists of entries.

theorem List.Pairwise.find?_eq_some {l : List α} {R : α → α → Prop} {p : α → Bool}
    (h : l.Pairwise R) (ha : ∀ a b, R a b → ¬R b a) :
    l.find? p = some a ↔ a ∈ l ∧ p a ∧ ∀ b ∈ l, p b → b = a ∨ R a b := by
  induction h
  case nil => simp
  case cons c l hc _ ih =>
    rw [List.find?_cons]
    by_cases hp : p c
    case pos =>
      simp only [hp, Option.some.injEq]
      constructor
      case mp =>
        rintro rfl
        exact ⟨List.mem_cons_self, hp, fun b hb _ => List.mem_cons.mp hb |>.imp_right (hc b)⟩
      case mpr =>
        intro ⟨hm, _, hb⟩
        have hr := hb c List.mem_cons_self hp
        cases List.mem_cons.mp hm
        case inl he => exact he.symm
        case inr hm => exact hr.resolve_right <| ha _ _ <| hc a hm
    case neg =>
      simp only [hp, ih]
      constructor
      case mp =>
        intro ⟨hm, hq, hb⟩
        refine ⟨List.mem_cons_of_mem _ hm, hq, fun b hb' hq => ?_⟩
        cases List.mem_cons.mp hb'
        case inl he => exact absurd (he ▸ hq) hp
        case inr hm => exact hb b hm hq
      case mpr =>
        intro ⟨hm, hq, hb⟩
        have hm := List.mem_cons.mp hm |>.resolve_left fun he => hp <| he ▸ hq
        exact ⟨hm, hq, fun b hm => hb b <| List.mem_cons_of_mem _ hm⟩

namespace Ordered

structure Map (κ υ : Type) [LinearOrder κ] where
  entries : List (κ × υ)
  sorted  : entries.Pairwise (·.1 < ·.1)

namespace Map

variable {κ υ : Type} [LinearOrder κ] {m m' : Map κ υ} {k k' : κ} {v v' : υ} {e : κ × υ}

instance [DecidableEq υ] : DecidableEq (Map κ υ) :=
  fun ⟨l, _⟩ ⟨l', _⟩ => decidable_of_iff (l = l') (by simp)

def empty : Map κ υ :=
  ⟨[], .nil⟩

def get (m : Map κ υ) (k : κ) : Option υ :=
  m.entries.find? (·.1 = k) |>.map (·.2)

def erase (m : Map κ υ) (k : κ) : Map κ υ :=
  ⟨m.entries.filter (·.1 ≠ k), m.sorted.filter _⟩

def insert (m : Map κ υ) (k : κ) (v : υ) : Map κ υ where
  entries := m.entries.filter (·.1 < k) ++ (k, v) :: m.entries.filter (k < ·.1)
  sorted  := by
    refine List.pairwise_append.mpr ⟨m.sorted.filter _, .cons ?_ (m.sorted.filter _), ?_⟩
    case refine_1 => simp
    case refine_2 =>
      intro e he e' he'
      have hl : e.1 < k := by simpa using (List.mem_filter.mp he).right
      cases List.mem_cons.mp he'
      case inl he' => exact he' ▸ hl
      case inr he' => exact hl.trans <| by simpa using (List.mem_filter.mp he').right

-- The first and the last entry whose keys have a property.
def first (m : Map κ υ) (p : κ → Prop) [DecidablePred p] : Option (κ × υ) :=
  m.entries.find? (p ·.1)

def last (m : Map κ υ) (p : κ → Prop) [DecidablePred p] : Option (κ × υ) :=
  m.entries.reverse.find? (p ·.1)

theorem nodup_keys (m : Map κ υ) : (m.entries.map (·.1)).Nodup :=
  List.pairwise_map.mpr <| m.sorted.imp fun hl => hl.ne

def keys (m : Map κ υ) : Finset κ :=
  ⟨↑(m.entries.map (·.1)), Multiset.coe_nodup.mpr m.nodup_keys⟩

theorem eq_of_mem_entries (h : (k, v) ∈ m.entries) (h' : (k, v') ∈ m.entries) : v = v' :=
  congrArg Prod.snd <| List.inj_on_of_nodup_map m.nodup_keys h h' rfl

theorem mem_entries : (k, v) ∈ m.entries ↔ m.get k = some v := by
  rw [get, Option.map_eq_some_iff]
  constructor
  case mp =>
    intro h
    cases hf : m.entries.find? (·.1 = k)
    case none => simpa using List.find?_eq_none.mp hf _ h
    case some e =>
      have hk : e.1 = k := by simpa using List.find?_some hf
      have hm := List.mem_of_find?_eq_some hf
      exact ⟨e, rfl, m.eq_of_mem_entries (hk ▸ hm : (k, e.2) ∈ _) h⟩
  case mpr =>
    intro ⟨e, hf, hv⟩
    have hk : e.1 = k := by simpa using List.find?_some hf
    exact hk ▸ hv ▸ List.mem_of_find?_eq_some hf

theorem get_eq_none : m.get k = none ↔ ∀ v, (k, v) ∉ m.entries := by
  rw [Option.eq_none_iff_forall_ne_some]
  exact forall_congr' fun v => not_congr mem_entries.symm

@[simp]
theorem get_empty : (empty : Map κ υ).get k = none :=
  rfl

theorem get_insert [Decidable (k' = k)] : (m.insert k v).get k' = if k' = k then some v else m.get k' := by
  apply Option.ext
  intro w
  rw [← mem_entries]
  split
  case isTrue he =>
    subst he
    simp [insert, eq_comm]
  case isFalse hn =>
    rw [← mem_entries]
    simp only [insert, List.mem_append, List.mem_filter, List.mem_cons, Prod.mk.injEq, hn, false_and,
      false_or, decide_eq_true_eq, ← and_or_left]
    exact and_iff_left <| lt_or_gt_of_ne hn

@[simp]
theorem get_insert_self : (m.insert k v).get k = some v := by
  simp [get_insert]

theorem get_insert_ne (h : k' ≠ k) : (m.insert k v).get k' = m.get k' := by
  simp [get_insert, h]

theorem get_erase [Decidable (k' = k)] : (m.erase k).get k' = if k' = k then none else m.get k' := by
  apply Option.ext
  intro w
  rw [← mem_entries]
  split
  case isTrue he => simp [erase, he]
  case isFalse hn => simp [erase, hn, mem_entries]

@[simp]
theorem get_erase_self : (m.erase k).get k = none := by
  simp [get_erase]

theorem get_erase_ne (h : k' ≠ k) : (m.erase k).get k' = m.get k' := by
  simp [get_erase, h]

@[ext]
theorem ext (h : ∀ k, m.get k = m'.get k) : m = m' := by
  have hn (m : Map κ υ) : m.entries.Nodup := List.Nodup.of_map _ m.nodup_keys
  have hp : m.entries.Perm m'.entries := by
    refine List.perm_ext_iff_of_nodup (hn m) (hn m') |>.mpr fun ⟨k, v⟩ => ?_
    rw [mem_entries, mem_entries, h]
  have he := hp.eq_of_pairwise (fun _ _ _ _ hl hl' => absurd hl hl'.not_gt) m.sorted m'.sorted
  cases m
  cases m'
  simpa using he

theorem mem_keys : k ∈ m.keys ↔ (m.get k).isSome := by
  rw [Option.isSome_iff_exists]
  simp only [← mem_entries]
  exact Multiset.mem_coe.trans <| by simp

theorem find?_eq_some {l : List (κ × υ)} {R : κ → κ → Prop} {p : κ → Prop} [DecidablePred p]
    (hl : l.Pairwise fun a b => R a.1 b.1) (hm : ∀ e, e ∈ l ↔ e ∈ m.entries)
    (ha : ∀ a b, R a b → ¬R b a) (ht : ∀ a b, ¬R a b → a = b ∨ R b a) :
    l.find? (p ·.1) = some (k, v) ↔
    m.get k = some v ∧ p k ∧ ∀ k', p k' → R k' k → m.get k' = none := by
  rw [hl.find?_eq_some fun _ _ => ha _ _, hm, mem_entries]
  refine and_congr_right fun hg => and_congr (by simp) ?_
  constructor
  case mp =>
    intro h k' hp hr
    rw [get_eq_none]
    intro v' he
    cases h (k', v') ((hm _).mpr he) (by simpa using hp)
    case inl he =>
      cases he
      exact ha _ _ hr hr
    case inr hr' => exact ha _ _ hr hr'
  case mpr =>
    intro h (k', v') he hp
    have hg' := mem_entries.mp <| (hm _).mp he
    have hr : ¬R k' k := fun hr => by simp [h k' (by simpa using hp) hr] at hg'
    refine ht _ _ hr |>.imp_left fun hk => ?_
    subst hk
    rw [hg] at hg'
    cases hg'
    rfl

theorem first_eq_some {p : κ → Prop} [DecidablePred p] : m.first p = some (k, v) ↔
    m.get k = some v ∧ p k ∧ ∀ k', p k' → k' < k → m.get k' = none :=
  find?_eq_some m.sorted (fun _ => Iff.rfl) (fun _ _ => not_lt_of_gt)
    fun _ _ h => (not_lt.mp h).eq_or_lt.imp_left Eq.symm

theorem last_eq_some {p : κ → Prop} [DecidablePred p] : m.last p = some (k, v) ↔
    m.get k = some v ∧ p k ∧ ∀ k', p k' → k < k' → m.get k' = none :=
  find?_eq_some (R := fun a b => b < a) (List.pairwise_reverse.mpr m.sorted)
    (fun _ => List.mem_reverse) (fun _ _ => not_lt_of_gt) fun _ _ h => (not_lt.mp h).eq_or_lt

theorem find?_eq_none {l : List (κ × υ)} {p : κ → Prop} [DecidablePred p]
    (hm : ∀ e, e ∈ l ↔ e ∈ m.entries) : l.find? (p ·.1) = none ↔ ∀ k, p k → m.get k = none := by
  rw [List.find?_eq_none]
  constructor
  case mp =>
    intro h k hp
    rw [get_eq_none]
    intro v he
    simpa [hp] using h _ <| (hm _).mpr he
  case mpr =>
    intro h (k, v) he hp
    have hg := mem_entries.mp <| (hm _).mp he
    simp [h k (by simpa using hp)] at hg

theorem first_eq_none {p : κ → Prop} [DecidablePred p] :
    m.first p = none ↔ ∀ k, p k → m.get k = none :=
  find?_eq_none fun _ => Iff.rfl

theorem last_eq_none {p : κ → Prop} [DecidablePred p] :
    m.last p = none ↔ ∀ k, p k → m.get k = none :=
  find?_eq_none fun _ => List.mem_reverse

end Map

-- A batch of writes takes effect at once.
inductive Write (κ υ : Type)
  | put (k : κ) (v : υ)
  | delete (k : κ)
  deriving DecidableEq, Repr

def Write.apply [LinearOrder κ] (m : Map κ υ) : Write κ υ → Map κ υ
  | put k v  => m.insert k v
  | delete k => m.erase k

def Map.write [LinearOrder κ] (m : Map κ υ) (batch : List (Write κ υ)) : Map κ υ :=
  batch.foldl Write.apply m

def Write.key : Write κ υ → κ
  | put k _  => k
  | delete k => k

@[simp]
theorem Write.key_put {k : κ} {v : υ} : (put k v).key = k :=
  rfl

@[simp]
theorem Write.key_delete {k : κ} : (delete k : Write κ υ).key = k :=
  rfl

theorem Map.get_write_of_ne [LinearOrder κ] {m : Map κ υ} (h : ∀ w ∈ batch, k ≠ w.key) :
    (m.write batch).get k = m.get k := by
  induction batch generalizing m
  case nil => rfl
  case cons w batch hi =>
    have hw := h w List.mem_cons_self
    refine hi (m := w.apply m) (fun w hm => h w <| List.mem_cons_of_mem _ hm) |>.trans ?_
    cases w
    case put    => exact get_insert_ne hw
    case delete => exact get_erase_ne hw

theorem Write.apply_insert [LinearOrder κ] {m : Map κ υ} {w : Write κ υ} (h : w.key ≠ k) :
    w.apply (m.insert k v) = (w.apply m).insert k v := by
  apply Map.ext
  intro k'
  cases w <;> simp only [apply, key, Map.get_insert, Map.get_erase] at h ⊢ <;> grind

-- A cursor moves over the entries of a map as they were when it was made.
structure Cursor (κ υ : Type) [LinearOrder κ] where
  map   : Map κ υ
  entry : Option (κ × υ)
  deriving DecidableEq

namespace Cursor

variable {κ υ : Type} [LinearOrder κ]

def seek (c : Cursor κ υ) (k : κ) : Cursor κ υ :=
  { c with entry := c.map.first (k ≤ ·) }

def seekToLast (c : Cursor κ υ) : Cursor κ υ :=
  { c with entry := c.map.last fun _ => True }

def next (c : Cursor κ υ) : Cursor κ υ :=
  { c with entry := c.entry.bind fun e => c.map.first (e.1 < ·) }

def prev (c : Cursor κ υ) : Cursor κ υ :=
  { c with entry := c.entry.bind fun e => c.map.last (· < e.1) }

-- The first entry after a key is the one that is sought, unless that is the key itself.
theorem entry_seek_next (c : Cursor κ υ) (k : κ) :
    (if (c.seek k).entry.map (·.1) = some k then (c.seek k).next else c.seek k).entry =
      c.map.first (k < ·) := by
  cases hs : (c.seek k).entry
  case none =>
    have hn := Map.first_eq_none.mp hs
    simp only [Option.map_none, reduceCtorEq, if_false, hs]
    exact Map.first_eq_none.mpr (fun k' hk => hn k' hk.le) |>.symm
  case some e =>
    have ⟨hg, hk, hf⟩ := Map.first_eq_some.mp hs
    simp only [Option.map_some, Option.some.injEq]
    split
    case isTrue he =>
      simp only [next, hs, Option.bind_some, he]
      rfl
    case isFalse hn =>
      rw [hs]
      have hlt := lt_of_le_of_ne hk <| Ne.symm hn
      exact Map.first_eq_some.mpr ⟨hg, hlt, fun k' hk' => hf k' hk'.le⟩ |>.symm

-- The last entry before a key is before the first one that is not, or at the end.
theorem prev_seek (c : Cursor κ υ) (k : κ) :
    (if (c.seek k).entry.isNone then (c.seek k).seekToLast else (c.seek k).prev).entry =
      c.map.last (· < k) := by
  cases hs : (c.seek k).entry
  case none =>
    have hs := Map.first_eq_none.mp hs
    simp only [Option.isNone_none, if_true, seekToLast, seek]
    cases hl : c.map.last fun _ => True
    case none =>
      have hl := Map.last_eq_none.mp hl
      exact Map.last_eq_none.mpr (fun k' _ => hl k' trivial) |>.symm
    case some e =>
      have ⟨hg, _, hl⟩ := Map.last_eq_some.mp hl
      have hk : e.1 < k := not_le.mp fun hle => by simp [hs _ hle] at hg
      exact Map.last_eq_some.mpr ⟨hg, hk, fun k' _ => hl k' trivial⟩ |>.symm
  case some e =>
    have ⟨hg, hk, hs'⟩ := Map.first_eq_some.mp hs
    have hlt (k' : κ) (v : υ) (h : c.map.get k' = some v) : k' < e.1 ↔ k' < k := by
      refine ⟨fun hlt => not_le.mp fun hle => ?_, fun hlt => hlt.trans_le hk⟩
      simp [hs' k' hle hlt] at h
    simp only [Option.isNone_some, Bool.false_eq_true, if_false, prev, hs, Option.bind_some]
    cases hl : c.map.last (· < k)
    case none =>
      have hl := Map.last_eq_none.mp hl
      refine Map.last_eq_none.mpr fun k' hk' => ?_
      by_contra hn
      have ⟨v, hv⟩ := Option.ne_none_iff_exists'.mp hn
      exact hn <| hl k' <| (hlt k' v hv).mp hk'
    case some e' =>
      have ⟨hg', hk', hl⟩ := Map.last_eq_some.mp hl
      refine Map.last_eq_some.mpr ⟨hg', (hlt _ _ hg').mpr hk', fun k' hk' hlt' => ?_⟩
      by_contra hn
      have ⟨v, hv⟩ := Option.ne_none_iff_exists'.mp hn
      exact hn <| hl k' ((hlt k' v hv).mp hk') hlt'

end Cursor

end Ordered

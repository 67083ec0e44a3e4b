import Mathlib.Logic.Function.Basic
import LabSystems.Algorithm.Theorems.BTreeSlots

namespace Algorithm

-- The keys of a node, with which `n` agrees.
structure BTreeNode.Has (n : BTreeNode) (leaf : Bool) (ks : List Int32) : Prop where
  leaf : n.leaf = leaf
  len  : n.n = ks.length
  keys : Slots.used n.keys n.n = ks

namespace BTree

-- What some writes and the allocation of `m` nodes do.
structure Writes (s : BTree) (m : Nat) (node : Addr → Option BTreeNode) (s' : BTree) : Prop where
  root   : s'.root = s.root
  length : s'.mem.length = s.mem.length + m
  node   : s'.node = node

variable {malloc : Addr → BTreeNode} {s s' : BTree} {n n' nx ny : BTreeNode} {x y : Addr} {i : Nat} {key : Int32}

theorem lt_of_node (h : s.node x = some n) : x < s.mem.length :=
  (List.getElem?_eq_some_iff.mp h).choose

theorem exists_alloc (malloc : Addr → BTreeNode) (s : BTree) : ∃ s' n, s.allocNode malloc = (s', s.mem.length) ∧
    s.Writes 1 (Function.update s.node s.mem.length (some n)) s' ∧ n.Has true [] ∧
      n.keys[0]? = (malloc s.mem.length).keys[0]? := by
  refine ⟨_, { malloc s.mem.length with leaf := true, n := 0 }, rfl, ⟨rfl, by simp, funext fun y => ?_⟩, ⟨rfl, rfl, rfl⟩, rfl⟩
  rw [node, Function.update_apply]
  split
  case isTrue he  => simp [he]
  case isFalse he =>
    rw [List.getElem?_append]
    split
    case isTrue  => rfl
    case isFalse hle =>
      have hlt : s.mem.length < y := Nat.lt_of_le_of_ne (Nat.not_lt.mp hle) (Ne.symm he)
      have hn : s.mem[y]? = none := List.getElem?_eq_none (Nat.le_of_lt hlt)
      rw [node, hn, List.getElem?_singleton, if_neg (by omega)]

namespace Writes

variable {f : Addr → Option BTreeNode}

theorem node_self (h : s.Writes m (Function.update f x (some n)) s') : s'.node x = some n := by
  rw [h.node, Function.update_self]

theorem node_ne (h : s.Writes m (Function.update f x (some n)) s') (hy : y ≠ x) : s'.node y = f y := by
  rw [h.node, Function.update_of_ne hy]

theorem trans {s'' : BTree} (h : s.Writes m (Function.update f x a) s')
    (h' : s'.Writes 0 (Function.update s'.node x b) s'') : s.Writes m (Function.update f x b) s'' where
  root   := h'.root.trans h.root
  length := h'.length.trans h.length
  node   := by rw [h'.node, h.node, Function.update_idem]

end Writes

theorem exists_update {f : BTreeNode → Option BTreeNode} (h : s.node x = some n) (n' : BTreeNode) (hf : f n = some n') :
    ∃ s', s.update x f = some s' ∧ s.Writes 0 (Function.update s.node x (some n')) s' := by
  refine ⟨{ s with mem := s.mem.set x n' }, by simp [update, h, hf], rfl, by simp, funext fun y => ?_⟩
  rw [node, List.getElem?_set, Function.update_apply]
  split
  case isTrue he  => rw [if_pos he.symm, if_pos (lt_of_node h)]
  case isFalse he => rw [if_neg (Ne.symm he), node]

-- A full child `y` of the node `x` is split, and its right half becomes the node `z`.
structure Splits (malloc : Addr → BTreeNode) (s : BTree) (x y : Addr) (nx ny nx' ny' nz : BTreeNode) (s' : BTree) :
    Prop where
  root   : s'.root = s.root
  length : s'.mem.length = s.mem.length + 1
  node_x : s'.node x = some nx'
  node_y : s'.node y = some ny'
  node_z : s'.node s.mem.length = some nz
  node   : ∀ w, w ≠ x → w ≠ y → w ≠ s.mem.length → s'.node w = s.node w
  slot_x : nx'.keys[0]? = nx.keys[0]?
  slot_y : ny'.keys[0]? = ny.keys[0]?
  slot_z : nz.keys[0]? = (malloc s.mem.length).keys[0]?

-- What is in slot 0 of a node stays there.
theorem Splits.slot {nx' ny' nz : BTreeNode} (h : s.Splits malloc x y nx ny nx' ny' nz s') (hx : s.node x = some nx)
    (hy : s.node y = some ny) (hs : ∀ x n, s.node x = some n → n.keys[0]? = (malloc x).keys[0]?)
    (hw : s'.node w = some n) : n.keys[0]? = (malloc w).keys[0]? := by
  by_cases hwx : w = x
  case pos =>
    subst hwx
    cases h.node_x.symm.trans hw
    exact h.slot_x.trans <| hs w nx hx
  case neg =>
    by_cases hwy : w = y
    case pos =>
      subst hwy
      cases h.node_y.symm.trans hw
      exact h.slot_y.trans <| hs w ny hy
    case neg =>
      by_cases hwz : w = s.mem.length
      case pos =>
        subst hwz
        cases h.node_z.symm.trans hw
        exact h.slot_z
      case neg => exact hs w n <| (h.node w hwx hwy hwz).symm.trans hw

-- The part of `split_child` that fills the new node with the right half of the old one.
def fillRight (s : BTree) (old : BTreeNode) (z : Addr) : Option BTree := do
  let s ← s.update z fun n => some { n with leaf := old.leaf, n := MAX_NODE_KEY - 1 }
  let s ← s.update z fun n => do
    return { n with keys := ← Slots.copy old.keys n.keys MAX_NODE_KEY (MAX_NODE_KEY - 1) }
  if old.leaf then some s else s.update z fun n => do
    return { n with childs := ← Slots.copy old.childs n.childs MAX_NODE_KEY MAX_NODE_KEY }

-- The part that puts the new node into the parent, with the key that goes up.
def adopt (s : BTree) (x y z : Addr) (i : Nat) : Option BTree := do
  let s ← s.update x fun n => do return { n with childs := ← Slots.shift n.childs (i + 1) (n.n + 1 - i) }
  let s ← s.update x fun n => do return { n with childs := ← Slots.write n.childs (i + 1) (some z) }
  let s ← s.update x fun n => do return { n with keys := ← Slots.shift n.keys i (n.n + 1 - i) }
  let key ← (← s.node y).keys[MAX_NODE_KEY]?
  s.update x fun n => do return { n with keys := ← Slots.write n.keys i key, n := n.n + 1 }

theorem splitChild_eq : s.splitChild malloc x i = (do
    let (s, z) := s.allocNode malloc
    let y ← (← (← s.node x).childs[i]?)
    let old ← s.node y
    let s ← s.fillRight old z
    let s ← s.update y fun n => some { n with n := MAX_NODE_KEY - 1 }
    s.adopt x y z i) := by
  simp only [splitChild, fillRight, adopt, bind_assoc]
  refine bind_congr fun _ => bind_congr fun _ => bind_congr fun y => bind_congr fun old => bind_congr fun _ =>
    bind_congr fun _ => ?_
  split <;> rfl

theorem exists_fillRight {leaf : Bool} {cl cr : List (Option Addr)} {yl yr : List Int32} (hz : s.node z = some n)
    (hky : ny.Has leaf (yl ++ k :: yr)) (hyl : yl.length = MAX_NODE_KEY - 1) (hyr : yr.length = MAX_NODE_KEY - 1)
    (hcy : leaf = false → Slots.used ny.childs (ny.n + 1) = cl ++ cr ∧ cl.length = MAX_NODE_KEY ∧ cr.length = MAX_NODE_KEY) :
    ∃ s' nz, s.fillRight ny z = some s' ∧ s.Writes 0 (Function.update s.node z (some nz)) s' ∧ nz.Has leaf yr ∧
      nz.keys[0]? = n.keys[0]? ∧ (leaf = false → Slots.used nz.childs MAX_NODE_KEY = cr) := by
  have hM : MAX_NODE_KEY = 2 := rfl
  have hyk := hky.len
  rw [List.length_append, List.length_cons] at hyk
  have hkr : Slots.used ny.keys ny.n = (yl ++ [k]) ++ yr := by rw [hky.keys, List.append_assoc, List.singleton_append]
  obtain ⟨ks, hks, hku, hk₀⟩ := Slots.exists_copied (b := n.keys) (d := MAX_NODE_KEY) hkr (by omega)
    (by rw [List.length_append, List.length_singleton]; omega) hyr
  obtain ⟨s₁, hu₁, hw₁⟩ := exists_update (f := fun n => some { n with leaf := ny.leaf, n := MAX_NODE_KEY - 1 }) hz _ rfl
  obtain ⟨s₂, hu₂, hw₂⟩ := exists_update (f := fun n => do
    return { n with keys := ← Slots.copy ny.keys n.keys MAX_NODE_KEY (MAX_NODE_KEY - 1) }) hw₁.node_self
      { n with leaf := ny.leaf, n := MAX_NODE_KEY - 1, keys := ks } (by simp [hks])
  have hw₂ := hw₁.trans hw₂
  have hleaf := hky.leaf
  simp only [Option.bind_eq_bind] at hu₂
  cases leaf with
  | true =>
    refine ⟨s₂, _, ?_, hw₂, ⟨hleaf, hyr.symm, hku⟩, hk₀, nofun⟩
    simp only [fillRight, hu₁, hu₂, if_pos hleaf, Option.bind_eq_bind, Option.bind_some]
  | false =>
    obtain ⟨hcy, hcl, hcr⟩ := hcy rfl
    obtain ⟨cs, hcs, hcu, _⟩ := Slots.exists_copied (b := n.childs) (d := MAX_NODE_KEY) hcy (by omega) hcl hcr
    obtain ⟨s₃, hu₃, hw₃⟩ := exists_update (f := fun n => do
      return { n with childs := ← Slots.copy ny.childs n.childs MAX_NODE_KEY MAX_NODE_KEY }) hw₂.node_self
        ⟨ny.leaf, MAX_NODE_KEY - 1, ks, cs⟩ (by simp [hcs])
    simp only [Option.bind_eq_bind] at hu₃
    refine ⟨s₃, _, ?_, hw₂.trans hw₃, ⟨hleaf, hyr.symm, hku⟩, hk₀, fun _ => hcu⟩
    simp only [fillRight, hu₁, hu₂, hu₃, if_neg (Bool.not_eq_true _ ▸ hleaf), Option.bind_eq_bind, Option.bind_some]

theorem exists_adopt {l r : List (Option Addr)} {kl kr : List Int32} (hx : s.node x = some nx)
    (hkx : nx.Has false (kl ++ kr)) (hcx : Slots.used nx.childs (nx.n + 1) = l ++ some y :: r)
    (hlen : nx.n < 2 * MAX_NODE_KEY - 1) (hl : kl.length = l.length) (hi : l.length + 1 = i) (hy : s.node y = some ny)
    (hxy : x ≠ y) (hk : ny.keys[MAX_NODE_KEY]? = some k) :
    ∃ s' nx', s.adopt x y z i = some s' ∧ s.Writes 0 (Function.update s.node x (some nx')) s' ∧
      nx'.Has false (kl ++ k :: kr) ∧ nx'.keys[0]? = nx.keys[0]? ∧
        Slots.used nx'.childs (nx'.n + 1) = l ++ some y :: some z :: r := by
  have hM : MAX_NODE_KEY = 2 := rfl
  have hxk := hkx.len
  rw [List.length_append] at hxk
  have hcl := Slots.length_used (a := nx.childs) (n := nx.n + 1) (by omega)
  rw [hcx, List.length_append, List.length_cons] at hcl
  have hcx' : Slots.used nx.childs (nx.n + 1) = (l ++ [some y]) ++ r := by
    rw [hcx, List.append_assoc, List.singleton_append]
  obtain ⟨c₁, cs, hc₁, hc₂, hcu, _⟩ := Slots.exists_insert (v := some z) (i := i + 1) (k := nx.n + 1 - i) hcx'
    (by omega) (by rw [List.length_append, List.length_singleton, hi]) (by omega)
  obtain ⟨k₁, ks, hk₁, hk₂, hku, hk₀⟩ := Slots.exists_insert (v := k) (i := i) (k := nx.n + 1 - i) hkx.keys
    (by omega) (by omega) (by omega)
  obtain ⟨s₁, hu₁, hw₁⟩ := exists_update (f := fun n => do
    return { n with childs := ← Slots.shift n.childs (i + 1) (n.n + 1 - i) }) hx { nx with childs := c₁ } (by simp [hc₁])
  obtain ⟨s₂, hu₂, hw₂⟩ := exists_update (f := fun n => do
    return { n with childs := ← Slots.write n.childs (i + 1) (some z) }) hw₁.node_self { nx with childs := cs }
      (by simp [hc₂])
  obtain ⟨s₃, hu₃, hw₃⟩ := exists_update (f := fun n => do
    return { n with keys := ← Slots.shift n.keys i (n.n + 1 - i) }) hw₂.node_self { nx with childs := cs, keys := k₁ }
      (by simp [hk₁])
  obtain ⟨s₄, hu₄, hw₄⟩ := exists_update (f := fun n => do
    return { n with keys := ← Slots.write n.keys i k, n := n.n + 1 }) hw₃.node_self
      ⟨nx.leaf, nx.n + 1, ks, cs⟩ (by simp [hk₂])
  have hw₃' := (hw₁.trans hw₂).trans hw₃
  have hy₃ : s₃.node y = some ny := (hw₃'.node_ne hxy.symm).trans hy
  simp only [Option.bind_eq_bind] at hu₁ hu₂ hu₃ hu₄
  refine ⟨s₄, _, ?_, hw₃'.trans hw₄, ⟨hkx.leaf, ?_, hku⟩, hk₀, ?_⟩
  case refine_1 => simp only [adopt, hu₁, hu₂, hu₃, hy₃, hk, hu₄, Option.bind_eq_bind, Option.bind_some]
  case refine_2 => rw [List.length_append, List.length_cons, ← Nat.add_assoc, ← hxk]
  case refine_3 => rw [hcu, List.append_assoc, List.singleton_append]

theorem exists_splitChild (malloc : Addr → BTreeNode) {leaf : Bool} {l r cl cr : List (Option Addr)}
    {kl kr yl yr : List Int32} (hx : s.node x = some nx) (hkx : nx.Has false (kl ++ kr)) (hcx : Slots.used nx.childs (nx.n + 1) = l ++ some y :: r)
    (hlen : nx.n < 2 * MAX_NODE_KEY - 1) (hl : kl.length = l.length) (hi : l.length + 1 = i) (hy : s.node y = some ny)
    (hxy : x ≠ y) (hky : ny.Has leaf (yl ++ k :: yr)) (hyl : yl.length = MAX_NODE_KEY - 1)
    (hyr : yr.length = MAX_NODE_KEY - 1)
    (hcy : leaf = false → Slots.used ny.childs (ny.n + 1) = cl ++ cr ∧ cl.length = MAX_NODE_KEY ∧ cr.length = MAX_NODE_KEY) :
    ∃ s' nx' ny' nz, s.splitChild malloc x i = some s' ∧ s.Splits malloc x y nx ny nx' ny' nz s' ∧
      nx'.Has false (kl ++ k :: kr) ∧ Slots.used nx'.childs (nx'.n + 1) = l ++ some y :: some s.mem.length :: r ∧
        ny'.Has leaf yl ∧ nz.Has leaf yr ∧
          (leaf = false → Slots.used ny'.childs MAX_NODE_KEY = cl ∧ Slots.used nz.childs MAX_NODE_KEY = cr) := by
  have hM : MAX_NODE_KEY = 2 := rfl
  have hxz := Nat.ne_of_lt <| lt_of_node hx
  have hyz := Nat.ne_of_lt <| lt_of_node hy
  -- The pointer to the child and the key that goes up.
  have hci := Slots.getElem?_of_used hcx hi
  have hk := Slots.getElem?_of_used hky.keys (by omega : yl.length + 1 = MAX_NODE_KEY)
  obtain ⟨s₀, n₀, ha, hw₀, _, hz₀⟩ := exists_alloc malloc s
  have hx₀ := (hw₀.node_ne hxz).trans hx
  have hy₀ := (hw₀.node_ne hyz).trans hy
  obtain ⟨s₁, nz, hu₁, hw₁, hkz, hz₁, hcz⟩ := exists_fillRight hw₀.node_self hky hyl hyr hcy
  have hx₁ := (hw₁.node_ne hxz).trans hx₀
  have hy₁ := (hw₁.node_ne hyz).trans hy₀
  -- The old node keeps the left half.
  obtain ⟨s₂, hu₂, hw₂⟩ := exists_update (f := fun n => some { n with n := MAX_NODE_KEY - 1 }) hy₁ _ rfl
  have hx₂ := (hw₂.node_ne hxy).trans hx₁
  obtain ⟨s₃, nx', hu₃, hw₃, hkx', hx₃, hcx'⟩ := exists_adopt (z := s.mem.length) hx₂ hkx hcx hlen hl hi hw₂.node_self hxy hk
  refine ⟨s₃, nx', _, nz, ?_, ⟨?_, ?_, hw₃.node_self, (hw₃.node_ne hxy.symm).trans hw₂.node_self, ?_, fun w hx hy hz => ?_,
    hx₃, rfl, hz₁.trans hz₀⟩, hkx', hcx', ⟨hky.leaf, hyl.symm, ?_⟩, hkz, fun h => ⟨?_, hcz h⟩⟩
  case refine_1 =>
    simp only [splitChild_eq, ha, hx₀, hci, hy₀, hu₁, hu₂, hu₃, Option.bind_eq_bind, Option.bind_some]
  case refine_2 => rw [hw₃.root, hw₂.root, hw₁.root, hw₀.root]
  case refine_3 => rw [hw₃.length, hw₂.length, hw₁.length, hw₀.length]
  case refine_4 => rw [hw₃.node_ne hxz.symm, hw₂.node_ne hyz.symm, hw₁.node_self]
  case refine_5 => rw [hw₃.node_ne hx, hw₂.node_ne hy, hw₁.node_ne hz, hw₀.node_ne hz]
  case refine_6 => exact Slots.used_of_append hky.keys hyl
  case refine_7 =>
    obtain ⟨hc, hl, _⟩ := hcy h
    exact Slots.used_of_append hc hl

theorem exists_copyNode (malloc : Addr → BTreeNode) (hx : s.node x = some n) (hn : n.n ≤ 2 * MAX_NODE_KEY - 1) :
    ∃ s' n', s.copyNode malloc x = some (s', s.mem.length) ∧
      s.Writes 1 (Function.update s.node s.mem.length (some n')) s' ∧ n'.leaf = n.leaf ∧ n'.n = n.n ∧
        Slots.used n'.keys n.n = Slots.used n.keys n.n ∧
          Slots.used n'.childs (n.n + 1) = Slots.used n.childs (n.n + 1) ∧
            n'.keys[0]? = (malloc s.mem.length).keys[0]? := by
  have hM : MAX_NODE_KEY = 2 := rfl
  obtain ⟨s₀, n₀, ha, hw₀, _, hz₀⟩ := exists_alloc malloc s
  have hx₀ := (hw₀.node_ne <| Nat.ne_of_lt <| lt_of_node hx).trans hx
  obtain ⟨ks, hks, hku, hk₀⟩ := Slots.exists_copied (a := n.keys) (b := n₀.keys) (n := n.n) (l := []) (d := 0) (k := n.n)
    rfl (by omega) rfl (Slots.length_used (by omega))
  obtain ⟨cs, hcs, hcu, _⟩ := Slots.exists_copied (a := n.childs) (b := n₀.childs) (n := n.n + 1) (l := []) (d := 0)
    (k := n.n + 1) rfl (by omega) rfl (Slots.length_used (by omega))
  obtain ⟨s₁, hu₁, hw₁⟩ := exists_update (f := fun m => do
    return {
      leaf   := n.leaf,
      n      := n.n,
      keys   := ← Slots.copy n.keys m.keys 0 n.n,
      childs := ← Slots.copy n.childs m.childs 0 (n.n + 1)
    }) hw₀.node_self ⟨n.leaf, n.n, ks, cs⟩ (by simp [hks, hcs])
  refine ⟨s₁, ⟨n.leaf, n.n, ks, cs⟩, ?_, ⟨hw₁.root.trans hw₀.root, by rw [hw₁.length, hw₀.length], ?_⟩, rfl, rfl, hku, hcu,
    hk₀.trans hz₀⟩
  case refine_1 =>
    simp only [Option.bind_eq_bind] at hu₁
    simp only [copyNode, ha, hx₀, hu₁, Option.bind_eq_bind, Option.bind_some]
    rfl
  case refine_2 => rw [hw₁.node, hw₀.node, Function.update_idem]

-- A leaf gets a key.
theorem exists_insertLeaf (malloc : Addr → BTreeNode) (key : Int32) (fuel : Nat) {ks : List Int32}
    (hx : s.node x = some n) (hk : n.Has true ks) (hlen : ks.length < 2 * MAX_NODE_KEY - 1) : ∃ s' n' l r, insertNonfull malloc key (fuel + 1) s x = some s' ∧
      s.Writes 0 (Function.update s.node x (some n')) s' ∧ n'.Has true (l ++ key :: r) ∧ ks = l ++ r ∧
        (∀ k ∈ l.getLast?, k ≤ key) ∧ (∀ k ∈ r, key < k) ∧ n'.keys[0]? = n.keys[0]? := by
  have hM : MAX_NODE_KEY = 2 := rfl
  have hn := hk.len
  have hn' : n.n < 2 * MAX_NODE_KEY - 1 := hn ▸ hlen
  obtain ⟨i, l, r, hi, hu, hl, hle, hr⟩ := Slots.exists_lastNotGreater key (a := n.keys) (n := n.n) (by omega)
  have hks : ks = l ++ r := hk.keys.symm.trans hu
  rw [hks, List.length_append] at hn
  obtain ⟨k₁, k₂, hk₁, hk₂, hku, hk₀⟩ := Slots.exists_insert (v := key) (i := i + 1) (k := n.n - i) hu (by omega) (by omega)
    (by omega)
  have hs := Slots.shiftGreater_eq (by omega) hi
  rw [hk₁, Option.map_some] at hs
  obtain ⟨s', hs', hw⟩ := exists_update (f := fun n => some { n with keys := k₂, n := n.n + 1 }) hx _ rfl
  refine ⟨s', _, l, r, ?_, hw, ⟨hk.leaf, ?_, hku⟩, hks, hle, hr, hk₀⟩
  case refine_1 => simp [insertNonfull, hx, hk.leaf, hs, hk₂, hs']
  case refine_2 => rw [hn, List.length_append, List.length_cons, Nat.add_assoc]

end BTree

end Algorithm

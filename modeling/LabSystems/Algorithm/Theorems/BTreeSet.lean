import LabSystems.Algorithm.Theorems.BTreeInsert

namespace Algorithm.BTree

open Linked Multiway

variable {malloc : Addr → BTreeNode} {s : BTree} {t : Multiway Addr Int32} {key : Int32} {d fuel : Nat}

theorem mapM_range {l : List β} {f : Nat → Option β} (h : ∀ i b, l[i]? = some b → f i = some b) :
    (List.range l.length).mapM f = some l := by
  induction l using List.reverseRecOn
  case nil => rfl
  case append_singleton l b hi =>
    have hl i c (hc : l[i]? = some c) : f i = some c := by
      refine h i c ?_
      rw [List.getElem?_append_left (List.getElem?_eq_some_iff.mp hc).choose, hc]
    rw [List.length_append, List.length_singleton, List.range_succ, List.mapM_append, hi hl]
    simp [h l.length b]

theorem print_weave {n : BTreeNode} (cs : List (List Int32)) (c : List Int32) (child : Nat → Option (List Int32))
    (hk : Slots.used n.keys n.n = ks) (hn : n.n = ks.length) (hc : cs.length = ks.length)
    (hcs : ∀ i e, (cs ++ [c])[i]? = some e → child (i + 1) = some e) : n.print child = some (weave (cs ++ [c]) ks) := by
  have hlen : (List.zipWith (fun c k => c ++ [k]) cs ks).length = n.n := by
    rw [List.length_zipWith, hc, Nat.min_self, hn]
  have hm := mapM_range (l := List.zipWith (fun c k => c ++ [k]) cs ks) (f := fun i => do
    return (← child (i + 1)) ++ [← n.keys[i + 1]?]) ?_
  case refine_1 =>
    intro i e he
    obtain ⟨d, k, hd, hki, rfl⟩ := List.getElem?_zipWith_eq_some.mp he
    have hi := (List.getElem?_eq_some_iff.mp hki).choose
    rw [← hk, Slots.getElem?_used, if_pos (hn ▸ hi)] at hki
    have hd := hcs i d <| by rw [List.getElem?_append_left (hc ▸ hi), hd]
    simp [hd, hki]
  have hl := hcs n.n c <| by rw [hn, ← hc, List.getElem?_append_right (Nat.le_refl _), Nat.sub_self, List.getElem?_cons_zero]
  have hw : weave (cs ++ c :: []) (ks ++ []) = _ := weave_append hc
  rw [List.append_nil] at hw
  rw [BTreeNode.print, ← hlen, hm, hlen, hl, hw]
  simp [keysBefore, keysAfter]

theorem print_eq (hr : s.Rep d t) (hf : t.Formed lo hi d) (hd : d < fuel) : s.print fuel t.root = some t.content := by
  induction d generalizing t fuel <;> obtain ⟨x, ks, cs⟩ := t <;> cases fuel
  case zero.succ fuel =>
    obtain ⟨rfl, n, hx, hn⟩ := hr
    have hw := print_weave (ks.map fun _ => []) [] (fun i => if n.leaf then some [] else do
      s.print fuel (← (← n.childs[i]?))) hn.keys hn.len (List.length_map _) ?_
    case refine_1 =>
      intro i e he
      have hm := List.mem_of_getElem? he
      simp only [List.mem_append, List.mem_map, List.mem_singleton, hn.leaf, if_true] at hm ⊢
      grind
    have hws : weave ((ks.map fun _ => []) ++ [[]]) ks = ks := by
      have hl : weave ((ks.map fun _ => []) ++ [] :: []) (ks ++ []) = _ := weave_append (List.length_map _)
      rw [List.append_nil, keysBefore_nil] at hl
      rw [hl]
      simp [keysAfter]
    rw [root_node, content_leaf, print, hx]
    exact hw.trans <| congrArg some hws
  case succ.succ d hi fuel =>
    obtain ⟨⟨n, hx, hn, hcs⟩, hc⟩ := hr
    have hlen := hf.left
    obtain ⟨cs₁, c, cs₂, rfl, hl⟩ := exists_append_cons (by omega : ks.length < cs.length)
    obtain rfl : cs₂ = [] := by
      rw [List.length_append, List.length_cons] at hlen
      exact List.length_eq_zero_iff.mp (by omega)
    have hw := print_weave (cs₁.map content) c.content (fun i => if n.leaf then some [] else do
      s.print fuel (← (← n.childs[i]?))) hn.keys hn.len (by rw [List.length_map, hl]) ?_
    case refine_1 =>
      intro i e he
      have hm : ((cs₁ ++ [c]).map content)[i]? = some e := by rw [List.map_append, List.map_singleton, he]
      rw [List.getElem?_map, Option.map_eq_some_iff] at hm
      obtain ⟨b, hb, rfl⟩ := hm
      have hlt := (List.getElem?_eq_some_iff.mp hb).choose
      have hi := hi (hc b <| List.mem_of_getElem? hb) (hf.child <| List.mem_of_getElem? hb) (Nat.lt_of_succ_lt_succ hd)
      have hp := Slots.getElem?_used (a := n.childs) (n := n.n + 1) (j := i)
      rw [hcs, List.getElem?_map, hb, if_pos (by rw [hn.len]; omega)] at hp
      simp [hn.leaf, ← hp, hi]
    rw [root_node, content, print, hx, List.map_append]
    exact hw
  all_goals cases hd

theorem search_node (fuel : Nat) {leaf : Bool} {n : BTreeNode} (hx : s.node x = some n) (hn : n.Has leaf ks)
    (h₀ : ∀ k ∈ n.keys[0]?, k < key) (hk : ks.length ≤ MAX_NODE_KEY * 2) : ∃ l r, ks = l ++ r ∧ (∀ k ∈ l, k < key) ∧
      (∀ k ∈ r.head?, key ≤ k) ∧ s.search key (fuel + 1) (some x) = if r.head? = some key then some (some x) else
        if leaf then some none else n.childs[l.length + 1]?.bind (s.search key fuel) := by
  obtain ⟨l, r, hi, hu, hl, hr⟩ := Slots.exists_firstNotLess h₀ (hn.len ▸ hk : n.n ≤ _)
  obtain rfl : ks = l ++ r := hn.keys.symm.trans hu
  refine ⟨l, r, rfl, hl, hr, ?_⟩
  have hlen := hn.len
  rw [List.length_append] at hlen
  simp only [search, hx, hi, hn.leaf, Option.bind_eq_bind, Option.bind_some]
  cases r with
  | nil      =>
    rw [if_neg (by rw [hlen, List.length_nil]; omega)]
    rfl
  | cons k r =>
    rw [if_pos (by rw [hlen, List.length_cons]; omega), Slots.getElem?_of_used hu rfl]
    simp

theorem not_mem_of_head {r : List Int32} (hs : r.Pairwise (· ≤ ·)) (hr : ∀ k ∈ r.head?, key ≤ k)
    (hk : r.head? ≠ some key) : key ∉ r := by
  cases r with
  | nil      => simp
  | cons k r =>
    have hlt : key < k := Int32.lt_of_le_of_ne (hr k rfl) fun he => hk <| he ▸ rfl
    intro hm
    rcases List.mem_cons.mp hm with rfl | hm
    case inl => exact Int32.lt_irrefl hlt
    case inr => exact Int32.lt_irrefl <| Int32.lt_of_lt_of_le hlt <| (List.pairwise_cons.mp hs).left key hm

-- A search that gets past slot 0 of every node is right.
theorem search_eq (h : s.Holds d t) (h₀ : ∀ x n, s.node x = some n → ∀ k ∈ n.keys[0]?, k < key)
    (hk : t.keys.length ≤ 2 * MAX_NODE_KEY - 1) (hd : d < fuel) :
    s.search key fuel (some t.root) = some none ∧ key ∉ t.content ∨
      ∃ x n, s.search key fuel (some t.root) = some (some x) ∧ s.node x = some n ∧ key ∈ Slots.used n.keys n.n ∧
        key ∈ t.content := by
  have hM : MAX_NODE_KEY = 2 := rfl
  induction d generalizing t fuel <;> obtain ⟨x, ks, cs⟩ := t <;> cases fuel
  case zero.succ fuel =>
    obtain ⟨rfl, n, hx, hn⟩ := h.rep
    have hs := h.sorted
    rw [keys_node] at hk
    obtain ⟨l, r, rfl, hl, hr, he⟩ := search_node fuel hx hn (h₀ x n hx) (by omega)
    rw [content_leaf] at hs ⊢
    rw [root_node, he]
    by_cases hkey : r.head? = some key
    case pos =>
      have hm := List.mem_append_right l <| List.mem_of_mem_head? hkey
      exact .inr ⟨x, n, if_pos hkey, hx, hn.keys ▸ hm, hm⟩
    case neg =>
      refine .inl ⟨by simp [hkey], fun hm => ?_⟩
      rcases List.mem_append.mp hm with hm | hm
      case inl => exact Int32.lt_irrefl (hl key hm)
      case inr => exact not_mem_of_head (List.pairwise_append.mp hs).right.left hr hkey hm
  case succ.succ d hi fuel =>
    obtain ⟨⟨n, hx, hn, hcs⟩, hc⟩ := h.rep
    rw [keys_node] at hk
    obtain ⟨l, r, rfl, hl, hr, he⟩ := search_node fuel hx hn (h₀ x n hx) (by omega)
    have hcl := h.formed.left
    rw [List.length_append] at hcl
    obtain ⟨cs₁, c, cs₂, rfl, hlen⟩ := exists_append_cons (by omega : l.length < cs.length)
    have hs := h.sorted
    rw [content_node hlen] at hs ⊢
    rw [root_node, he]
    by_cases hkey : r.head? = some key
    case pos =>
      have hm := List.mem_append_right l <| List.mem_of_mem_head? hkey
      refine .inr ⟨x, n, if_pos hkey, hx, hn.keys ▸ hm, List.mem_append_right _ ?_⟩
      rw [List.length_append, List.length_cons] at hcl
      exact mem_keysAfter (by rw [List.length_map]; omega) <| List.mem_of_mem_head? hkey
    case neg =>
      have hp := Slots.getElem?_of_used (hcs.trans List.map_append) (by rw [List.length_map, hlen] : _ = l.length + 1)
      obtain ⟨_, hhi, _⟩ := h.formed.right c (by simp)
      have hb : key ∉ keysBefore (cs₁.map content) l := by
        intro hm
        have hs := (List.pairwise_append.mp (List.pairwise_append.mp hs).left).left
        obtain ⟨k, hk, hle⟩ := exists_le_of_mem_keysBefore hs (by simpa using hlen) hm
        exact Int32.lt_irrefl <| Int32.lt_of_le_of_lt hle <| hl k <| List.mem_of_mem_getLast? hk
      have ha : key ∉ keysAfter r (cs₂.map content) := by
        intro hm
        obtain ⟨k, hk, hle⟩ := exists_le_of_mem_keysAfter (List.pairwise_append.mp hs).right.left hm
        exact hkey <| Int32.le_antisymm hle (hr k hk) ▸ hk
      have hi := hi (h.child (by rw [List.length_append]; omega)) hhi (Nat.lt_of_succ_lt_succ hd)
      rw [if_neg hkey, hp]
      simpa [hb, ha] using hi
  all_goals cases hd

theorem holds_create : (create malloc).Holds 0 (.node (create malloc).root [] []) ∧ Slot malloc (create malloc) := by
  obtain ⟨s, n, hs, hw, hn, h₀⟩ := exists_alloc malloc ⟨[], 0⟩
  have he : create malloc = { s with root := 0 } := by rw [create, hs]; rfl
  rw [he]
  refine ⟨⟨rfl, ⟨rfl, n, hw.node_self, hn⟩, by simp, by simp⟩, ?_⟩
  have hz : Slot malloc ⟨[], 0⟩ := by
    intro x n hx
    cases hx
  have hs := hz.writes hw h₀
  exact hs

theorem exists_inserts (malloc : Addr → BTreeNode) (keys : List Int32) : ∃ s d t, inserts malloc keys = some s ∧
    s.Holds d t ∧ t.root = s.root ∧ t.keys.length ≤ 2 * MAX_NODE_KEY - 1 ∧ (d ≠ 0 → t.keys ≠ []) ∧
      t.content.Perm keys ∧ Slot malloc s := by
  induction keys using List.reverseRecOn
  case nil =>
    refine ⟨_, 0, _, rfl, holds_create.left, rfl, by simp, by simp, by simp, holds_create.right⟩
  case append_singleton keys key hi =>
    obtain ⟨s, d, t, hs, h, hr, hk, h₀, hp, hz⟩ := hi
    obtain ⟨s', d', t', hs', h', hr', hk', h₀', hp', hz'⟩ := exists_insert malloc key h hr hk h₀
    refine ⟨s', d', t', ?_, h', hr', hk', h₀', ?_, hz' hz⟩
    case refine_1 =>
      rw [inserts] at hs ⊢
      simp [List.foldlM_append, hs, hs']
    case refine_2 => exact hp'.trans <| (hp.cons key).trans (List.perm_append_singleton key keys).symm

-- Every insertion is defined, whatever is in the memory that is allocated, and leaves a tree whose leaves are at one depth
-- and whose nodes have neither too few keys nor too many. The inserted keys are printed in order.
theorem inserts_balanced (malloc : Addr → BTreeNode) (keys : List Int32) : ∃ s d t, inserts malloc keys = some s ∧
    s.Rep d t ∧ t.root = s.root ∧ t.nodes.Nodup ∧ t.Formed (MAX_NODE_KEY - 1) (2 * MAX_NODE_KEY - 1) d ∧
      t.keys.length ≤ 2 * MAX_NODE_KEY - 1 ∧ (d ≠ 0 → t.keys ≠ []) ∧ s.print s.size s.root = some t.content ∧
        t.content.Pairwise (· ≤ ·) ∧ t.content.Perm keys := by
  obtain ⟨s, d, t, hs, h, hr, hk, h₀, hp, _⟩ := exists_inserts malloc keys
  exact ⟨s, d, t, hs, h.rep, hr, h.nodup, h.formed, hk, h₀, hr ▸ print_eq h.rep h.formed h.lt_size, h.sorted, hp⟩

-- The search begins in slot 0, which is never written. It is right as long as what is there is less than the key, and it
-- finds a key that is there in the root, whether the key has been inserted or not.
theorem inserts_search (malloc : Addr → BTreeNode) (keys : List Int32) (key : Int32) : ∃ s, inserts malloc keys = some s ∧
    ((∀ x < s.mem.length, ∀ k ∈ (malloc x).keys[0]?, k < key) →
      (key ∉ keys → s.search key s.size (some s.root) = some none) ∧
      (key ∈ keys → ∃ x n, s.search key s.size (some s.root) = some (some x) ∧ s.node x = some n ∧
        key ∈ Slots.used n.keys n.n)) ∧
    ((malloc s.root).keys[0]? = some key → s.search key s.size (some s.root) = some (some s.root)) := by
  obtain ⟨s, d, t, hs, h, hr, hk, _, hp, hz⟩ := exists_inserts malloc keys
  refine ⟨s, hs, fun hlt => ?_, fun h₀ => ?_⟩
  case refine_1 =>
    have h₀ x n (hx : s.node x = some n) k (hkx : k ∈ n.keys[0]?) : k < key :=
      hlt x (lt_of_node hx) k <| hz x n hx ▸ hkx
    have hm := hp.mem_iff (a := key)
    rw [← hr]
    rcases search_eq h h₀ hk h.lt_size with ⟨hs, hn⟩ | ⟨x, n, hs, hx, hk, hin⟩
    case inl => exact ⟨fun _ => hs, fun hin => absurd (hm.mpr hin) hn⟩
    case inr => exact ⟨fun hn => absurd (hm.mp hin) hn, fun _ => ⟨x, n, hs, hx, hk⟩⟩
  case refine_2 =>
    obtain ⟨n, hx, _⟩ := h.rep.node
    rw [hr] at hx
    have hn : n.keys[0]? = some key := (hz _ _ hx).trans h₀
    have hf : Slots.firstNotLess n.keys key 0 (n.n + 1) = some 0 := by
      rw [Slots.firstNotLess, hn]
      simp
    rw [size, search, hx]
    simp only [Option.bind_eq_bind, Option.bind_some, hf, Nat.zero_le, if_true, hn]
    simp

end Algorithm.BTree

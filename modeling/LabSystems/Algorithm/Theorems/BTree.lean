import LabSystems.Algorithm.Theorems.BTreeNodes
import LabSystems.Linked.Multiway

namespace Algorithm.BTree

open Linked Multiway

variable {malloc : Addr → BTreeNode} {s s' s'' : BTree} {t t' t'' c c' : Multiway Addr Int32} {x y : Addr} {key : Int32}
  {cs cs₁ cs₂ : List (Multiway Addr Int32)} {ks l r : List Int32} {d fuel : Nat}

-- A tree in memory. The pointers of a leaf have no meaning.
def Rep (s : BTree) : Nat → Multiway Addr Int32 → Prop
  | 0, .node x ks cs     => cs = [] ∧ ∃ n, s.node x = some n ∧ n.Has true ks
  | d + 1, .node x ks cs => (∃ n, s.node x = some n ∧ n.Has false ks ∧
      Slots.used n.childs (n.n + 1) = cs.map fun c => some c.root) ∧ ∀ c ∈ cs, Rep s d c

structure Holds (s : BTree) (d : Nat) (t : Multiway Addr Int32) : Prop where
  formed : t.Formed (MAX_NODE_KEY - 1) (2 * MAX_NODE_KEY - 1) d
  rep    : s.Rep d t
  nodup  : t.nodes.Nodup
  sorted : t.content.Pairwise (· ≤ ·)

-- A tree becomes another one, for which memory is allocated, and nothing else changes. What is in slot 0 of a node never
-- changes.
structure Extends (malloc : Addr → BTreeNode) (s s' : BTree) (t t' : Multiway Addr Int32) : Prop where
  root   : s'.root = s.root
  length : s.mem.length ≤ s'.mem.length
  nodes  : ∀ x ∈ t'.nodes, x ∈ t.nodes ∨ s.mem.length ≤ x
  node   : ∀ x ∉ t.nodes, x < s.mem.length → s'.node x = s.node x
  slot   : (∀ x n, s.node x = some n → n.keys[0]? = (malloc x).keys[0]?) →
    ∀ x n, s'.node x = some n → n.keys[0]? = (malloc x).keys[0]?

theorem Extends.trans (h : Extends malloc s s' t t') (h' : Extends malloc s' s'' t' t'') :
    Extends malloc s s'' t t'' where
  root   := h'.root.trans h.root
  length := Nat.le_trans h.length h'.length
  slot   := fun hs => h'.slot (h.slot hs)
  nodes  := by
    intro x hx
    rcases h'.nodes x hx with hx | hx
    case inl => exact h.nodes x hx
    case inr => exact .inr <| Nat.le_trans h.length hx
  node   := by
    intro x hx hlt
    have hx' : x ∉ t'.nodes := by
      intro hm
      rcases h.nodes x hm with hm | hm
      case inl => exact hx hm
      case inr => exact Nat.not_le.mpr hlt hm
    rw [h'.node x hx' <| Nat.lt_of_lt_of_le hlt h.length, h.node x hx hlt]

namespace Rep

theorem lt_length (h : s.Rep d t) (hx : x ∈ t.nodes) : x < s.mem.length := by
  induction d generalizing t <;> obtain ⟨y, ks, cs⟩ := t
  case zero =>
    obtain ⟨rfl, n, hn, _⟩ := h
    obtain rfl : x = y := by simpa [nodes] using hx
    exact lt_of_node hn
  case succ d hi =>
    obtain ⟨⟨n, hn, _⟩, hc⟩ := h
    simp only [nodes, List.mem_cons, List.mem_flatMap] at hx
    rcases hx with rfl | ⟨c, hm, hx⟩
    case inl => exact lt_of_node hn
    case inr => exact hi (hc c hm) hx

theorem congr (h : s.Rep d t) (hn : ∀ x ∈ t.nodes, s'.node x = s.node x) : s'.Rep d t := by
  induction d generalizing t <;> obtain ⟨y, ks, cs⟩ := t
  case zero =>
    obtain ⟨rfl, n, hy, hk⟩ := h
    exact ⟨rfl, n, (hn y <| by simp).trans hy, hk⟩
  case succ d hi =>
    obtain ⟨⟨n, hy, hk⟩, hc⟩ := h
    refine ⟨⟨n, (hn y <| by simp [nodes]).trans hy, hk⟩, fun c hm => hi (hc c hm) fun x hx => hn x ?_⟩
    simp only [nodes, List.mem_cons, List.mem_flatMap]
    exact .inr ⟨c, hm, hx⟩

end Rep

theorem rep_iff : s.Rep d (.node x ks cs) ↔ (∃ n, s.node x = some n ∧ n.Has (d == 0) ks ∧
    ((d == 0) = false → Slots.used n.childs (n.n + 1) = cs.map fun c => some c.root)) ∧ (d = 0 → cs = []) ∧
      ∀ c ∈ cs, s.Rep (d - 1) c := by
  cases d with
  | zero   =>
    simp only [Rep, BEq.rfl, Bool.true_eq_false, false_implies, and_true, true_implies]
    constructor
    case mp  =>
      rintro ⟨rfl, h⟩
      exact ⟨h, rfl, by simp⟩
    case mpr => exact fun h => ⟨h.right.left, h.left⟩
  | succ d => simp [Rep]

theorem Rep.node (h : s.Rep d t) : ∃ n, s.node t.root = some n ∧ n.Has (d == 0) t.keys := by
  obtain ⟨x, ks, cs⟩ := t
  obtain ⟨⟨n, hx, hn, _⟩, _⟩ := rep_iff.mp h
  exact ⟨n, hx, hn⟩

-- What `btree_insert_nonfull` does to a tree.
structure Inserts (malloc : Addr → BTreeNode) (s : BTree) (d : Nat) (t : Multiway Addr Int32) (key : Int32) (s' : BTree)
    (t' : Multiway Addr Int32) : Prop where
  holds   : s'.Holds d t'
  ext     : Extends malloc s s' t t'
  root    : t'.root = t.root
  content : t'.content.Perm (key :: t.content)
  le      : t.keys.length ≤ t'.keys.length
  le_succ : t'.keys.length ≤ t.keys.length + 1

theorem Holds.child (h : s.Holds (d + 1) (.node x ks (cs₁ ++ c :: cs₂))) (hl : cs₁.length ≤ ks.length) : s.Holds d c where
  formed := h.formed.child <| by simp
  rep    := h.rep.right c <| by simp
  nodup  := (List.nodup_append.mp <| nodes_node.nodup_iff.mp h.nodup).left
  sorted := by
    have hs := h.sorted
    rw [← List.take_append_drop cs₁.length ks, content_node (by rw [List.length_take, Nat.min_eq_left hl])] at hs
    exact (List.pairwise_append.mp (List.pairwise_append.mp hs).left).right.left

-- A child gets a key that belongs there.
theorem Holds.descend (h : s.Holds (d + 1) (.node x (l ++ r) (cs₁ ++ c :: cs₂))) (hl : cs₁.length = l.length)
    (hle : ∀ k ∈ l.getLast?, k ≤ key) (hge : ∀ k ∈ r.head?, key ≤ k) (hi : Inserts malloc s d c key s' c')
    (hlo : MAX_NODE_KEY - 1 ≤ c.keys.length) (hhi : c.keys.length < 2 * MAX_NODE_KEY - 1) :
    Inserts malloc s (d + 1) (.node x (l ++ r) (cs₁ ++ c :: cs₂)) key s' (.node x (l ++ r) (cs₁ ++ c' :: cs₂)) := by
  obtain ⟨h', he, hr, hp, hle₁, hle₂⟩ := hi
  have hn := List.nodup_append.mp <| nodes_node.nodup_iff.mp h.nodup
  have hs := h.sorted
  rw [content_node hl] at hs
  have hsA := (List.pairwise_append.mp (List.pairwise_append.mp hs).left).left
  have hsB := (List.pairwise_append.mp hs).right.left
  obtain ⟨⟨n, hx, hk, hcs⟩, hrep⟩ := h.rep
  have hlt {y} (hy : y ∈ x :: (cs₁ ++ cs₂).flatMap nodes) : y < s.mem.length := by
    refine h.rep.lt_length <| nodes_node.mem_iff.mpr <| List.mem_append_right _ hy
  have hframe {y} (hy : y ∈ x :: (cs₁ ++ cs₂).flatMap nodes) : s'.node y = s.node y :=
    he.node y (fun hm => hn.right.right y hm y hy rfl) (hlt hy)
  refine ⟨⟨h.formed.replace (Nat.le_trans hlo hle₁) (Nat.le_trans hle₂ hhi) h'.formed, ⟨⟨n, ?_, hk, ?_⟩, fun e hm => ?_⟩,
    ?_, ?_⟩, ⟨he.root, he.length, fun y hy => ?_, fun y hy hlt => ?_, he.slot⟩, rfl, ?_, Nat.le_refl _, Nat.le_succ _⟩
  case refine_1 => exact (hframe List.mem_cons_self).trans hx
  case refine_2 => rw [hcs, List.map_append, List.map_append, List.map_cons, List.map_cons, hr]
  case refine_3 =>
    have hsib (hm : e ∈ cs₁ ++ cs₂) : s'.Rep d e := by
      refine (hrep e ?_).congr fun y hy => hframe <| List.mem_cons_of_mem _ <| List.mem_flatMap.mpr ⟨e, hm, hy⟩
      simp only [List.mem_append, List.mem_cons] at hm ⊢
      tauto
    rcases List.mem_append.mp hm with hm | hm
    case inl => exact hsib <| List.mem_append_left _ hm
    case inr =>
      rcases List.mem_cons.mp hm with rfl | hm
      case inl => exact h'.rep
      case inr => exact hsib <| List.mem_append_right _ hm
  case refine_4 =>
    refine nodes_node.nodup_iff.mpr <| List.nodup_append.mpr ⟨h'.nodup, hn.right.left, fun y hy z hz heq => ?_⟩
    subst heq
    rcases he.nodes y hy with hy | hy
    case inl => exact hn.right.right y hy y hz rfl
    case inr => exact Nat.not_le.mpr (hlt hz) hy
  case refine_5 =>
    rw [content_node hl]
    refine pairwise_insert hs h'.sorted hp (fun a ha => ?_) fun b hb => ?_
    case refine_1 =>
      obtain ⟨k, hk, hak⟩ := exists_le_of_mem_keysBefore hsA (by simpa using hl) ha
      exact Int32.le_trans hak <| hle k hk
    case refine_2 =>
      obtain ⟨k, hk, hkb⟩ := exists_le_of_mem_keysAfter hsB hb
      exact Int32.le_trans (hge k hk) hkb
  case refine_6 =>
    rcases List.mem_append.mp <| nodes_node.mem_iff.mp hy with hy | hy
    case inl => exact (he.nodes y hy).imp_left fun hy => nodes_node.mem_iff.mpr <| List.mem_append_left _ hy
    case inr => exact .inl <| nodes_node.mem_iff.mpr <| List.mem_append_right _ hy
  case refine_7 => exact he.node y (fun hm => hy <| nodes_node.mem_iff.mpr <| List.mem_append_left _ hm) hlt
  case refine_8 =>
    rw [content_node hl, content_node hl]
    exact perm_insert hp

theorem Rep.mk (hx : s.node x = some n) (hk : n.Has (d == 0) ks)
    (hc : (d == 0) = false → Slots.used n.childs (ks.length + 1) = cs.map fun c => some c.root) (hd : d = 0 → cs = [])
    (hcs : ∀ c ∈ cs, s.Rep (d - 1) c) : s.Rep d (.node x ks cs) :=
  rep_iff.mpr ⟨⟨n, hx, hk, fun h => hk.len ▸ hc h⟩, hd, hcs⟩

section Split

variable {y z : Addr} {n nx ny nx' ny' nz : BTreeNode} {ky : List Int32} {cy : List (Multiway Addr Int32)}

-- An inner node that is full has two halves of children.
theorem exists_halves (hf : (Multiway.node y ky cy).Formed (MAX_NODE_KEY - 1) (2 * MAX_NODE_KEY - 1) d)
    (hlen : ky.length = 2 * MAX_NODE_KEY - 1)
    (hcy : (d == 0) = false → Slots.used n.childs (n.n + 1) = cy.map fun c => some c.root) (hd : (d == 0) = false) :
    Slots.used n.childs (n.n + 1) = (cy.take MAX_NODE_KEY).map (fun c => some c.root) ++
      (cy.drop MAX_NODE_KEY).map (fun c => some c.root) ∧
        ((cy.take MAX_NODE_KEY).map fun c => some c.root).length = MAX_NODE_KEY ∧
          ((cy.drop MAX_NODE_KEY).map fun c => some c.root).length = MAX_NODE_KEY := by
  have hM : MAX_NODE_KEY = 2 := rfl
  cases d with
  | zero   => cases hd
  | succ d =>
    have hl := hf.left
    refine ⟨by rw [hcy hd, ← List.map_append, List.take_append_drop], ?_, ?_⟩
    case refine_1 =>
      rw [List.length_map, List.length_take]
      omega
    case refine_2 =>
      rw [List.length_map, List.length_drop]
      omega

-- The siblings of the child and its own children are not changed.
theorem Splits.frame (h : s.Splits malloc x y nx ny nx' ny' nz s')
    (hr : s.Rep (d + 1) (.node x ks (cs₁ ++ .node y ky cy :: cs₂))) (hn : (Multiway.node x ks (cs₁ ++ .node y ky cy :: cs₂)).nodes.Nodup)
    (hw : w ∈ (cs₁ ++ cs₂).flatMap nodes ∨ w ∈ cy.flatMap nodes) : s'.node w = s.node w := by
  obtain ⟨hny, hnx, hdisj⟩ := List.nodup_append.mp <| nodes_node.nodup_iff.mp hn
  rw [nodes] at hny hdisj
  have hm : w ∈ (Multiway.node x ks (cs₁ ++ .node y ky cy :: cs₂)).nodes := by
    rw [nodes_node.mem_iff, nodes]
    simp only [List.mem_append, List.mem_cons]
    tauto
  refine h.node w ?_ ?_ <| Nat.ne_of_lt <| hr.lt_length hm
  case refine_1 =>
    rintro rfl
    rcases hw with hw | hw
    case inl => exact (List.nodup_cons.mp hnx).left hw
    case inr => exact hdisj w (List.mem_cons_of_mem _ hw) w List.mem_cons_self rfl
  case refine_2 =>
    rintro rfl
    rcases hw with hw | hw
    case inl => exact hdisj w List.mem_cons_self w (List.mem_cons_of_mem _ hw) rfl
    case inr => exact (List.nodup_cons.mp hny).left hw

-- Besides the two nodes, nothing changes but the new node.
theorem Splits.extends (h : s.Splits malloc x y nx ny nx' ny' nz s') (hx : s.node x = some nx) (hy : s.node y = some ny)
    {kl kr : List Int32} {m : Nat} :
    Extends malloc s s' (.node x (kl ++ kr) (cs₁ ++ .node y ky cy :: cs₂)) (.node x (kl ++ k :: kr)
      (cs₁ ++ (Multiway.node y ky cy).left m :: (Multiway.node y ky cy).right s.mem.length m :: cs₂)) where
  root       := h.root
  length     := by rw [h.length]; omega
  nodes w hw := by
    rcases List.mem_cons.mp <| nodes_split.mem_iff.mp hw with rfl | hw
    case inl => exact .inr <| Nat.le_refl _
    case inr => exact .inl hw
  node w hw hlt := by
    refine h.node w (fun he => hw ?_) (fun he => hw ?_) <| Nat.ne_of_lt hlt
    case refine_1 => exact he ▸ root_mem
    case refine_2 => exact he ▸ nodes_node.mem_iff.mpr (List.mem_append_left _ root_mem)
  slot hs _ _ := h.slot hx hy hs

end Split

-- A full child is split.
theorem Holds.split (malloc : Addr → BTreeNode) {kl kr : List Int32}
    (h : s.Holds (d + 1) (.node x (kl ++ kr) (cs₁ ++ c :: cs₂)))
    (hl : cs₁.length = kl.length) (hx : (kl ++ kr).length < 2 * MAX_NODE_KEY - 1)
    (hc : c.keys.length = 2 * MAX_NODE_KEY - 1) : ∃ s' k yl yr, s.splitChild malloc x (cs₁.length + 1) = some s' ∧
      c.keys = yl ++ k :: yr ∧ yl.length = MAX_NODE_KEY - 1 ∧ yr.length = MAX_NODE_KEY - 1 ∧
        s'.Holds (d + 1) (.node x (kl ++ k :: kr) (cs₁ ++ c.left yl.length :: c.right s.mem.length yl.length :: cs₂)) ∧
          Extends malloc s s' (.node x (kl ++ kr) (cs₁ ++ c :: cs₂))
            (.node x (kl ++ k :: kr) (cs₁ ++ c.left yl.length :: c.right s.mem.length yl.length :: cs₂)) ∧
              (Multiway.node x (kl ++ k :: kr)
                (cs₁ ++ c.left yl.length :: c.right s.mem.length yl.length :: cs₂)).content =
                  (Multiway.node x (kl ++ kr) (cs₁ ++ c :: cs₂)).content := by
  have hM : MAX_NODE_KEY = 2 := rfl
  obtain ⟨y, ky, cy⟩ := c
  obtain ⟨yl, k, yr, rfl, hyl⟩ := exists_append_cons (by rw [keys] at hc; omega : MAX_NODE_KEY - 1 < ky.length)
  have hyr : yr.length = MAX_NODE_KEY - 1 := by
    rw [keys, List.length_append, List.length_cons] at hc
    omega
  obtain ⟨⟨nx, hnx, hkx, hcx⟩, hrep⟩ := h.rep
  have hfy := h.formed.child (c := .node y (yl ++ k :: yr) cy) (by simp)
  obtain ⟨⟨ny, hny, hky, hcy⟩, hd, hch⟩ := rep_iff.mp <| hrep (.node y (yl ++ k :: yr) cy) (by simp)
  rw [List.map_append, List.map_cons] at hcx
  have hxy : x ≠ y := by
    rintro rfl
    have hp := nodes_node.nodup_iff.mp h.nodup
    rw [nodes] at hp
    exact (List.nodup_cons.mp hp).left <| by simp
  obtain ⟨s', nx', ny', nz, hs, hw, hkx', hcx', hky', hkz', hcy'⟩ := exists_splitChild malloc hnx hkx hcx (hkx.len ▸ hx)
    (by rw [List.length_map, hl]) rfl hny hxy hky hyl hyr (exists_halves hfy hc hcy)
  have hlt {w} (hw : w ∈ (Multiway.node x (kl ++ kr) (cs₁ ++ .node y (yl ++ k :: yr) cy :: cs₂)).nodes) :
      w < s.mem.length := h.rep.lt_length hw
  have hframe {w} := hw.frame (w := w) h.rep h.nodup
  refine ⟨s', k, yl, yr, by rwa [List.length_map] at hs, rfl, hyl, hyr,
    ⟨h.formed.split rfl (by omega) (by omega), ⟨⟨nx', hw.node_x, hkx', ?_⟩, ?_⟩, ?_, ?_⟩, hw.extends hnx hny,
      content_split hfy hl rfl⟩
  case refine_1 => simpa [left, right, Multiway.root] using hcx'
  case refine_2 =>
    have hlen : yl.length + 1 = MAX_NODE_KEY := by omega
    have hsib {e} (he : e ∈ cs₁ ++ cs₂) : s'.Rep d e := by
      refine (hrep e ?_).congr fun w hw' => hframe <| .inl <| List.mem_flatMap.mpr ⟨e, he, hw'⟩
      simp only [List.mem_append, List.mem_cons] at he ⊢
      tauto
    have hcy {e} (he : e ∈ cy) : s'.Rep (d - 1) e :=
      (hch e he).congr fun w hw' => hframe <| .inr <| List.mem_flatMap.mpr ⟨e, he, hw'⟩
    intro e he
    simp only [List.mem_append, List.mem_cons] at he
    rcases he with he | rfl | rfl | he
    case inl         => exact hsib <| List.mem_append_left _ he
    case inr.inr.inr => exact hsib <| List.mem_append_right _ he
    case inr.inl     =>
      rw [left, List.take_left, hlen]
      exact .mk hw.node_y hky' (fun hd => hlen ▸ (hcy' hd).left) (fun hd' => by rw [hd hd', List.take_nil])
        fun e he => hcy <| List.mem_of_mem_take he
    case inr.inr.inl =>
      have hdrop : (yl ++ k :: yr).drop (yl.length + 1) = yr := by simp
      rw [right, hdrop, hlen]
      refine .mk hw.node_z hkz' (fun hd => ?_) (fun hd' => by rw [hd hd', List.drop_nil])
        fun e he => hcy <| List.mem_of_mem_drop he
      exact (hyr.trans hyl.symm ▸ hlen : yr.length + 1 = MAX_NODE_KEY) ▸ (hcy' hd).right
  case refine_3 =>
    exact nodes_split.nodup_iff.mpr <| List.nodup_cons.mpr ⟨fun hm => Nat.lt_irrefl _ <| hlt hm, h.nodup⟩
  case refine_4 =>
    rw [content_split hfy hl rfl]
    exact h.sorted

end Algorithm.BTree

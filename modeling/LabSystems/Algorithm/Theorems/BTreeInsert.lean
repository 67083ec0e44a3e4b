import LabSystems.Algorithm.Theorems.BTree

namespace Algorithm.BTree

open Linked Multiway

variable {malloc : Addr → BTreeNode} {s s' : BTree} {t t' c : Multiway Addr Int32} {x : Addr} {key : Int32}
  {cs cs₁ cs₂ : List (Multiway Addr Int32)} {ks l r : List Int32} {d fuel : Nat}

theorem Holds.insertLeaf (h : s.Holds 0 (.node x ks cs)) (hk : ks.length < 2 * MAX_NODE_KEY - 1) :
    ∃ s' t', insertNonfull malloc key (fuel + 1) s x = some s' ∧ Inserts malloc s 0 (.node x ks cs) key s' t' := by
  obtain ⟨rfl, n, hx, hn⟩ := h.rep
  obtain ⟨s', n', l, r, hs, hw, hn', rfl, hle, hr, hslot⟩ := exists_insertLeaf malloc key fuel hx hn hk
  have hsorted := h.sorted
  rw [content_leaf] at hsorted
  have hl {a} (ha : a ∈ l) : a ≤ key := by
    obtain ⟨k, hk, hak⟩ := exists_le_getLast (List.pairwise_append.mp hsorted).left ha
    exact Int32.le_trans hak <| hle k hk
  refine ⟨s', .node x (l ++ key :: r) [], hs, ⟨rfl, ⟨rfl, n', hw.node_self, hn'⟩, by simp, ?_⟩,
    ⟨hw.root, Nat.le_of_eq hw.length.symm, fun y hy => ?_, fun y hy _ => ?_, fun hslot' y m hm => ?_⟩, rfl, ?_, ?_, ?_⟩
  case refine_1 =>
    have hs : (l ++ [] ++ r).Pairwise (· ≤ ·) := by simpa using hsorted
    have hi := pairwise_insert hs (List.pairwise_singleton _ key) (List.Perm.refl [key]) (fun a ha => hl ha) fun b hb =>
      Int32.le_of_lt <| hr b hb
    simpa using hi
  case refine_2 => exact .inl <| by simpa using hy
  case refine_3 => exact hw.node_ne <| by simpa using hy
  case refine_4 =>
    by_cases hyx : y = x
    case pos =>
      subst hyx
      cases hw.node_self.symm.trans hm
      exact hslot.trans <| hslot' y n hx
    case neg => exact hslot' y m <| (hw.node_ne hyx).symm.trans hm
  case refine_5 => simp
  case refine_6 => simp [keys]
  case refine_7 =>
    simp only [keys, List.length_append, List.length_cons]
    omega

theorem exists_insertNonfull (malloc : Addr → BTreeNode) (key : Int32) (h : s.Holds d t)
    (hk : t.keys.length < 2 * MAX_NODE_KEY - 1) (hd : d < fuel) :
    ∃ s' t', insertNonfull malloc key fuel s t.root = some s' ∧ Inserts malloc s d t key s' t' := by
  induction d generalizing s t fuel <;> obtain ⟨x, ks, cs⟩ := t <;> cases fuel
  case zero.succ => exact h.insertLeaf hk
  case succ.succ d hi fuel =>
    have hM : MAX_NODE_KEY = 2 := rfl
    have hd := Nat.lt_of_succ_lt_succ hd
    rw [keys] at hk
    obtain ⟨⟨n, hx, hn, hcs⟩, hrep⟩ := h.rep
    have hnk := hn.len
    obtain ⟨i, l, r, hi', hu, rfl, hle, hr⟩ := Slots.exists_lastNotGreater key (a := n.keys) (n := n.n) (by omega)
    obtain rfl : ks = l ++ r := hn.keys.symm.trans hu
    have hcl := h.formed.left
    rw [List.length_append] at hcl
    obtain ⟨cs₁, c, cs₂, rfl, hl⟩ := exists_append_cons (by omega : l.length < cs.length)
    obtain ⟨hlo, hhi, _⟩ := h.formed.right c (by simp)
    obtain ⟨nc, hnc, hkc⟩ := (hrep c (by simp)).node
    have hci := Slots.getElem?_of_used (hcs.trans List.map_append) (by rw [List.length_map, hl] : _ = l.length + 1)
    have hr {k} (hk : k ∈ r) : key ≤ k := Int32.le_of_lt <| hr k hk
    by_cases hfull : nc.n = 2 * MAX_NODE_KEY - 1
    case neg =>
      have hlt : c.keys.length < 2 * MAX_NODE_KEY - 1 := Nat.lt_of_le_of_ne hhi fun he => hfull <| hkc.len.trans he
      have hcl := h.child (by rw [List.length_append]; omega)
      obtain ⟨s', c', hs, hi⟩ := hi hcl hlt hd
      refine ⟨s', _, ?_, h.descend hl hle (fun k hk => hr <| List.mem_of_mem_head? hk) hi hlo hlt⟩
      simp [insertNonfull, hx, hn.leaf, hi', hci, hnc, hfull, hs]
    case pos =>
      obtain ⟨s₁, k, yl, yr, hs₁, hck, hyl, hyr, h₁, he₁, hct⟩ := h.split malloc hl hk (hkc.len.symm.trans hfull)
      obtain ⟨⟨n₁, hx₁, hn₁, hcs₁⟩, _⟩ := h₁.rep
      obtain ⟨hkl, hkr⟩ : (c.left yl.length).keys = yl ∧ (c.right s.mem.length yl.length).keys = yr := keys_halves hck
      have hk₁ := Slots.getElem?_of_used hn₁.keys rfl
      rw [hl] at hs₁
      -- The key goes to one of the halves.
      have hhalf {l' r' cs₁' cs₂' e} (hkk : l ++ k :: r = l' ++ r') (hcc : cs₁ ++ c.left yl.length ::
          c.right s.mem.length yl.length :: cs₂ = cs₁' ++ e :: cs₂') (hl' : cs₁'.length = l'.length)
          (hle' : ∀ k ∈ l'.getLast?, k ≤ key) (hge' : ∀ k ∈ r'.head?, key ≤ k) (he : e.keys.length = MAX_NODE_KEY - 1)
          (hix : (if k < key then l.length + 1 + 1 else l.length + 1) = l'.length + 1) :
          ∃ s' t', insertNonfull malloc key (fuel + 1) s x = some s' ∧
            Inserts malloc s (d + 1) (.node x (l ++ r) (cs₁ ++ c :: cs₂)) key s' t' := by
        have hlt : e.keys.length < 2 * MAX_NODE_KEY - 1 := by omega
        rw [hcc] at hcs₁
        rw [hkk, hcc] at h₁ he₁ hct
        have hce := Slots.getElem?_of_used (hcs₁.trans List.map_append) (by rw [List.length_map, hl'] : _ = l'.length + 1)
        have hch := h₁.child (by rw [List.length_append, hl']; omega)
        obtain ⟨s', e', hs, hi⟩ := hi hch hlt hd
        have hd := h₁.descend hl' hle' hge' hi (Nat.le_of_eq he.symm) hlt
        refine ⟨s', _, ?_, hd.holds, he₁.trans hd.ext, rfl, hct ▸ hd.content, ?_, ?_⟩
        case refine_1 => simp [insertNonfull, hx, hn.leaf, hi', hci, hnc, hfull, hs₁, hx₁, hk₁, hix, hce, hs]
        case refine_2 => rw [keys_node, keys_node, ← hkk, List.length_append, List.length_append, List.length_cons]; omega
        case refine_3 => rw [keys_node, keys_node, ← hkk, List.length_append, List.length_append, List.length_cons]; omega
      by_cases hkk : k < key
      case pos =>
        refine hhalf (List.append_cons l k r) (List.append_cons cs₁ _ _) (by simp [hl]) ?_ ?_ (by rw [hkr, hyr]) (by simp [hkk])
        case refine_1 => simpa using Int32.le_of_lt hkk
        case refine_2 => exact fun k hk => hr <| List.mem_of_mem_head? hk
      case neg => exact hhalf rfl rfl hl hle (by simpa using Int32.not_lt.mp hkk) (by rw [hkl, hyl]) (by simp [hkk])
  all_goals cases hd

theorem Holds.lt_size (h : s.Holds d t) : d < s.size := by
  have hsub : t.nodes ⊆ List.range s.mem.length := fun x hx => List.mem_range.mpr <| h.rep.lt_length hx
  have hlen := (List.subperm_of_subset h.nodup hsub).length_le
  have hd := h.formed.lt_length
  rw [List.length_range] at hlen
  rw [size]
  omega

-- What is in slot 0 of a node is what was there in the memory.
def Slot (malloc : Addr → BTreeNode) (s : BTree) : Prop :=
  ∀ x n, s.node x = some n → n.keys[0]? = (malloc x).keys[0]?

theorem Slot.writes (h : Slot malloc s) (hw : s.Writes m (Function.update s.node x (some n)) s')
    (hx : n.keys[0]? = (malloc x).keys[0]?) : Slot malloc s' := by
  intro y n' hy
  by_cases he : y = x
  case pos =>
    subst he
    cases hw.node_self.symm.trans hy
    exact hx
  case neg => exact h y n' <| (hw.node_ne he).symm.trans hy

-- The root is copied, and the copy is the child of a new root.
theorem Holds.copyRoot (malloc : Addr → BTreeNode) (h : s.Holds d (.node x ks cs)) (hk : ks.length ≤ 2 * MAX_NODE_KEY - 1) :
    ∃ s', s.copyNode malloc x = some (s', s.mem.length) ∧ s'.Holds d (.node s.mem.length ks cs) ∧
      (Slot malloc s → Slot malloc s') := by
  obtain ⟨⟨n, hx, hn, hcs⟩, hd, hc⟩ := rep_iff.mp h.rep
  obtain ⟨s', n', hs, hw, hl, hn', hks, hcs', h₀⟩ := exists_copyNode malloc hx (hn.len ▸ hk)
  have hnd := h.nodup
  have hlt {y} (hy : y ∈ cs.flatMap nodes) : y < s.mem.length := by
    refine h.rep.lt_length ?_
    rw [nodes]
    exact List.mem_cons_of_mem _ hy
  rw [nodes, List.nodup_cons] at hnd
  refine ⟨s', hs, ⟨?_, rep_iff.mpr ⟨⟨n', hw.node_self, ⟨hl.trans hn.leaf, hn'.trans hn.len, ?_⟩, fun hd => ?_⟩, hd,
    fun c hm => ?_⟩, ?_, ?_⟩, fun hs => hs.writes hw h₀⟩
  case refine_1 =>
    have hf := h.formed
    cases d <;> exact hf
  case refine_2 => rw [hn', hks, hn.keys]
  case refine_3 => rw [hn', hcs', hcs hd]
  case refine_4 =>
    exact (hc c hm).congr fun y hy => hw.node_ne <| Nat.ne_of_lt <| hlt <| List.mem_flatMap.mpr ⟨c, hm, hy⟩
  case refine_5 =>
    rw [nodes]
    exact List.nodup_cons.mpr ⟨fun hm => Nat.lt_irrefl _ <| hlt hm, hnd.right⟩
  case refine_6 =>
    have hs := h.sorted
    rw [content] at hs ⊢
    exact hs

theorem Holds.newRoot (malloc : Addr → BTreeNode) (h : s.Holds d t) (hlo : MAX_NODE_KEY - 1 ≤ t.keys.length)
    (hhi : t.keys.length ≤ 2 * MAX_NODE_KEY - 1) : ∃ s₁ s₂, s.allocNode malloc = (s₁, s.mem.length) ∧
      (s₁.update s.mem.length fun n => do
        return { n with leaf := false, n := 0, childs := ← Slots.write n.childs 1 (some t.root) }) = some s₂ ∧
      { s₂ with root := s.mem.length }.Holds (d + 1) (.node s.mem.length [] [t]) ∧ (Slot malloc s → Slot malloc s₂) := by
  obtain ⟨s₁, n, ha, hw₁, _, h₀⟩ := exists_alloc malloc s
  obtain ⟨cs, hcs, hc⟩ := Slots.exists_write (a := n.childs) (i := 1) (v := some t.root) (by decide)
  obtain ⟨s₂, hs₂, hw₂⟩ := exists_update (f := fun n => do
    return { n with leaf := false, n := 0, childs := ← Slots.write n.childs 1 (some t.root) }) hw₁.node_self
      ⟨false, 0, n.keys, cs⟩ (by simp [hcs])
  refine ⟨s₁, s₂, ha, hs₂, ⟨⟨rfl, fun c hm => ?_⟩, ⟨⟨_, hw₂.node_self, ⟨rfl, rfl, rfl⟩, ?_⟩, fun c hm => ?_⟩, ?_, ?_⟩,
    fun hs => (hs.writes hw₁ h₀).writes hw₂ h₀⟩
  case refine_1 =>
    obtain rfl := List.mem_singleton.mp hm
    exact ⟨hlo, hhi, h.formed⟩
  case refine_2 => exact Slots.used_succ <| by rw [hc, if_pos rfl]
  case refine_3 =>
    obtain rfl := List.mem_singleton.mp hm
    refine h.rep.congr fun y hy => ?_
    have hy := Nat.ne_of_lt <| h.rep.lt_length hy
    exact (hw₂.node_ne hy).trans <| hw₁.node_ne hy
  case refine_4 =>
    rw [nodes, List.flatMap_singleton]
    exact List.nodup_cons.mpr ⟨fun hm => Nat.lt_irrefl _ <| h.rep.lt_length hm, h.nodup⟩
  case refine_5 =>
    rw [content_singleton]
    exact h.sorted

theorem exists_insert (malloc : Addr → BTreeNode) (key : Int32) (h : s.Holds d t) (hr : t.root = s.root)
    (hk : t.keys.length ≤ 2 * MAX_NODE_KEY - 1) (h₀ : d ≠ 0 → t.keys ≠ []) :
    ∃ s' d' t', s.insert malloc key = some s' ∧ s'.Holds d' t' ∧ t'.root = s'.root ∧
      t'.keys.length ≤ 2 * MAX_NODE_KEY - 1 ∧ (d' ≠ 0 → t'.keys ≠ []) ∧ t'.content.Perm (key :: t.content) ∧
        (Slot malloc s → Slot malloc s') := by
  have hM : MAX_NODE_KEY = 2 := rfl
  obtain ⟨n, hx, hn⟩ := h.rep.node
  rw [hr] at hx
  by_cases hfull : n.n = 2 * MAX_NODE_KEY - 1
  case neg =>
    have hlt := Nat.lt_of_le_of_ne hk fun he => hfull <| hn.len.trans he
    obtain ⟨s', t', hs, hi⟩ := exists_insertNonfull malloc key h hlt h.lt_size
    refine ⟨s', d, t', ?_, hi.holds, ?_, Nat.le_trans hi.le_succ hlt, fun hd ht => h₀ hd ?_, hi.content, hi.ext.slot⟩
    case refine_1 => simpa [insert, hx, hfull, hr] using hs
    case refine_2 => rw [hi.root, hr, hi.ext.root]
    case refine_3 =>
      have hle := hi.le
      rw [ht] at hle
      exact List.length_eq_zero_iff.mp <| Nat.le_zero.mp hle
  case pos =>
    have hfull' := hn.len.symm.trans hfull
    obtain ⟨x, ks, cs⟩ := t
    obtain rfl : x = s.root := hr
    obtain ⟨s₁, hs₁, h₁, hz₁⟩ := h.copyRoot malloc hk
    obtain ⟨s₂, s₃, hs₂, hs₃, h₃, hz₃⟩ := h₁.newRoot malloc (by rw [keys_node] at hfull' ⊢; omega) hk
    have h₃' : { s₃ with root := s₁.mem.length }.Holds (d + 1) (.node s₁.mem.length ([] ++ [])
      ([] ++ Multiway.node s.mem.length ks cs :: [])) := h₃
    obtain ⟨s₄, k, yl, yr, hs₄, _, _, _, h₄, he₄, hc₄⟩ := h₃'.split malloc rfl (by decide) hfull'
    obtain ⟨s', t', hs, hi⟩ := exists_insertNonfull malloc key h₄ (by decide : 1 < 2 * MAX_NODE_KEY - 1) h₄.lt_size
    refine ⟨s', _, t', ?_, hi.holds, ?_, Nat.le_trans hi.le_succ (by decide : 1 + 1 ≤ 2 * MAX_NODE_KEY - 1), fun _ ht => ?_, ?_,
      fun hz => hi.ext.slot <| he₄.slot <| hz₃ <| hz₁ hz⟩
    case refine_1 =>
      simp only [root_node, Option.bind_eq_bind] at hs₃ hs
      simp only [List.length_nil, Nat.zero_add] at hs₄
      simp only [insert, hx, hfull, if_true, hs₁, hs₂, hs₃, hs₄, hs, Option.bind_eq_bind, Option.bind_some]
    case refine_2 => rw [hi.root, hi.ext.root, he₄.root, root_node]
    case refine_3 =>
      have hle := hi.le
      rw [ht] at hle
      cases hle
    case refine_4 =>
      have hc := hi.content
      rw [hc₄, List.nil_append, List.nil_append, content_singleton] at hc
      rwa [content] at hc ⊢

end Algorithm.BTree

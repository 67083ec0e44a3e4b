import Mathlib.Logic.Function.Basic
import LabSystems.Algorithm.Theorems.SearchTree

namespace Algorithm.SearchTree

open Linked Frame

variable {s s' : SearchTree} {t l r : BinaryTree Addr} {p q : Option Addr} {x y u : Addr} {key : Int32}
  {f : Frame Addr} {fs : List (Frame Addr)}

-- What a write does to the tree: the keys stay as they are.
structure Writes (s : SearchTree) (x : Addr) (g : Links Addr → Links Addr) (s' : SearchTree) : Prop where
  root  : s'.root = s.root
  links : s'.links = Function.update s.links x ((s.links x).map g)
  keyOf : s'.keyOf = s.keyOf

theorem node_insert {n : TreeNode} : node { s with mem := s.mem.insert x n } = Function.update s.node x (some n) := by
  funext y
  by_cases he : y = x
  case pos =>
    subst he
    simp [node]
  case neg => simp [node, AList.lookup_insert_ne he, he]

theorem links_insert {n : TreeNode} :
    links { s with mem := s.mem.insert x n } = Function.update s.links x (some (TreeNode.links n)) := by
  funext y
  rw [links, node_insert]
  by_cases he : y = x
  case pos => simp [he]
  case neg => simp [he, links]

theorem keyOf_insert {n : TreeNode} : keyOf { s with mem := s.mem.insert x n } = Function.update s.keyOf x n.key := by
  funext y
  rw [keyOf, node_insert]
  by_cases he : y = x
  case pos => simp [he]
  case neg => simp [he, keyOf]

theorem exists_update {n : TreeNode} {h : TreeNode → TreeNode} (hn : s.node x = some n)
    (hk : (h n).key = n.key) (hg : TreeNode.links (h n) = g (TreeNode.links n)) :
    ∃ s', s.update x h = some s' ∧ s.Writes x g s' := by
  refine ⟨{ s with mem := s.mem.insert x (h n) }, by simp [update, hn], rfl, ?_, ?_⟩
  case refine_1 => rw [links_insert, hg, links, hn, Option.map_some, Option.map_some]
  case refine_2 => rw [keyOf_insert, hk, ← keyOf_eq hn, Function.update_eq_self]

namespace Writes

theorem links_self (h : s.Writes x g s') (hx : s.links x = some n) : s'.links x = some (g n) := by
  simp [h.links, hx]

theorem links_ne (h : s.Writes x g s') (hy : y ≠ x) : s'.links y = s.links y := by
  simp [h.links, hy]

end Writes

theorem exists_links (h : s.links x = some n) :
    s.node x = some ⟨s.keyOf x, n.left, n.right, n.parent⟩ := by
  obtain ⟨k, hk⟩ := links_eq_some.mp (h : s.links x = some ⟨n.left, n.right, n.parent⟩)
  rw [keyOf_eq hk, hk]

-- A node's subtree gives its place to another one, or its place at the root.
structure Transplants (s : SearchTree) (fs : List (Frame Addr)) (v : Option Addr) (q : Option Addr)
    (s' : SearchTree) : Prop where
  keyOf  : s'.keyOf = s.keyOf
  links  : ∀ x ∉ before fs ++ after fs, v ≠ some x → s'.links x = s.links x
  parent : ∀ x n, v = some x → s.links x = some n → s'.links x = some { n with parent := q }

theorem transplant_root (hu : s.links u = some n) (hp : n.parent = none) (hv : ∀ x ∈ v, ∃ n, s.links x = some n)
    (huv : v ≠ some u) : ∃ s', s.transplant u v = some s' ∧ s'.root = v ∧ s.Transplants [] v none s' := by
  have hn := exists_links hu
  have hr : links { s with root := v } = s.links := rfl
  have hk : keyOf { s with root := v } = s.keyOf := rfl
  cases v with
  | none =>
    refine ⟨{ s with root := none }, ?_, rfl, hk, fun x _ _ => by rw [hr], fun x n hx => by cases hx⟩
    simp [transplant, hn, hp]
  | some v =>
    obtain ⟨m, hm⟩ := hv v rfl
    have hm' : links { s with root := some v } v = some m := hm
    obtain ⟨s', hs, hw⟩ := exists_update (g := ({ · with parent := none })) (h := ({ · with parent := none }))
      (exists_links hm') rfl rfl
    refine ⟨s', ?_, hw.root, hw.keyOf.trans hk, fun x _ hx => ?_, fun x k hx hl => ?_⟩
    case refine_1 =>
      have hn' : node { s with root := some v } u = s.node u := rfl
      simp [transplant, hn, hp, hn', hs]
    case refine_2 =>
      rw [hw.links_ne (fun he => hx <| he ▸ rfl), hr]
    case refine_3 =>
      cases hx
      exact hw.links_self hl

theorem transplant_child {root parent : Option Addr} (h : Way s.links root parent (f :: fs) (some u) q)
    (hu : s.links u = some n) (hp : n.parent = q) (hn : (u :: (before (f :: fs) ++ after (f :: fs))).Nodup)
    (hv : ∀ x ∈ v, x ∉ before (f :: fs) ++ after (f :: fs) ∧ ∃ n, s.links x = some n) (huv : v ≠ some u) :
    ∃ s', s.transplant u v = some s' ∧ s'.root = s.root ∧ s.Transplants (f :: fs) v q s' ∧
      Way s'.links root parent (f :: fs) v q := by
  have hu' := exists_links hu
  have hf := h.parent_eq
  obtain ⟨hfn, hx⟩ := nodup_frame hn
  have hmem : f.node ∈ before (f :: fs) ++ after (f :: fs) := perm.mem_iff.mpr List.mem_cons_self
  have huf : u ≠ f.node := fun he => (List.nodup_cons.mp hn).left (he ▸ hmem)
  -- The pointer is written to the side that the node is on.
  have hs : ∃ m s₁, s.node f.node = some m ∧ s.Writes f.node (f.setChild v) s₁ ∧
      (m.left = some u ∧ s.update f.node ({ · with left := v }) = some s₁ ∨
        m.left ≠ some u ∧ s.update f.node ({ · with right := v }) = some s₁) := by
    cases f <;> obtain ⟨_, a, q', hy, ha, _⟩ := h
    case left y r =>
      obtain ⟨s₁, hs, hw⟩ := exists_update (g := ({ · with left := v })) (h := ({ · with left := v }))
        (exists_links hy) rfl rfl
      exact ⟨_, s₁, exists_links hy, hw, .inl ⟨rfl, hs⟩⟩
    case right y l =>
      have hau : a ≠ some u := by
        rintro rfl
        exact hx ha.mem_root
      obtain ⟨s₁, hs, hw⟩ := exists_update (g := ({ · with right := v })) (h := ({ · with right := v }))
        (exists_links hy) rfl rfl
      exact ⟨_, s₁, exists_links hy, hw, .inr ⟨hau, hs⟩⟩
  obtain ⟨m, s₁, hm, hw₁, hs₁⟩ := hs
  obtain rfl := hf
  have hn₁ := (List.nodup_cons.mp hn).right
  have hway : Way s₁.links root parent (f :: fs) v (some f.node) :=
    h.setChild hn₁ (fun _ => hw₁.links_self) fun x _ hx => hw₁.links_ne hx
  cases v with
  | none =>
    refine ⟨s₁, ?_, hw₁.root, ⟨hw₁.keyOf, fun x hx _ => hw₁.links_ne ?_, fun x n hx => by cases hx⟩, hway⟩
    case refine_1 => rcases hs₁ with ⟨hl, hs₁⟩ | ⟨hl, hs₁⟩ <;> simp [transplant, hu', hp, hm, hl, hs₁]
    case refine_2 =>
      rintro rfl
      exact hx hmem
  | some v =>
    obtain ⟨hvf, m', hm'⟩ := hv v rfl
    have hvn : v ≠ f.node := fun he => hvf (he ▸ hmem)
    have hv₁ := (hw₁.links_ne hvn).trans hm'
    have hu₁ := exists_links <| (hw₁.links_ne huf).trans hu
    obtain ⟨s', hs', hw'⟩ := exists_update (g := ({ · with parent := some f.node }))
      (h := ({ · with parent := some f.node })) (exists_links hv₁) rfl rfl
    refine ⟨s', ?_, hw'.root.trans hw₁.root, ⟨hw'.keyOf.trans hw₁.keyOf, fun x hx hxv => ?_, fun x k hx hk => ?_⟩, ?_⟩
    case refine_1 => rcases hs₁ with ⟨hl, hs₁⟩ | ⟨hl, hs₁⟩ <;> simp [transplant, hu', hp, hm, hl, hs₁, hu₁, hs']
    case refine_2 =>
      rw [hw'.links_ne (fun he => hxv <| he ▸ rfl), hw₁.links_ne]
      rintro rfl
      exact hx hmem
    case refine_3 =>
      cases hx
      rw [hw'.links_self <| (hw₁.links_ne hvn).trans hk]
    case refine_4 => exact hway.congr fun x hx => hw'.links_ne fun he => hvf <| he ▸ hx

theorem exists_transplant (h : Way s.links s.root none fs (some u) q) (hu : s.links u = some n) (hp : n.parent = q)
    (hn : (u :: (before fs ++ after fs)).Nodup) (hv : ∀ x ∈ v, x ∉ before fs ++ after fs ∧ ∃ n, s.links x = some n)
    (huv : v ≠ some u) :
    ∃ s', s.transplant u v = some s' ∧ s.Transplants fs v q s' ∧ Way s'.links s'.root none fs v q := by
  cases fs with
  | nil =>
    obtain rfl := h.right
    obtain ⟨s', hs, hr, ht⟩ := transplant_root hu hp (fun x hx => (hv x hx).right) huv
    exact ⟨s', hs, ht, ⟨hr.symm, rfl⟩⟩
  | cons f fs =>
    obtain ⟨s', hs, hr, ht, hw⟩ := transplant_child h hu hp hn hv huv
    exact ⟨s', hs, ht, hr ▸ hw⟩

theorem Transplants.rep (ht : s.Transplants fs v q s') (h : Rep s.links v q' t) (hn : (inorder t).Nodup)
    (hd : ∀ x ∈ inorder t, x ∉ before fs ++ after fs) : Rep s'.links v q t :=
  h.setParent hn (fun x hx n hl => ht.parent x n hx hl) fun x hx hv => ht.links x (hd x hx) hv

theorem Holds.of_sublist (h : s.Holds t) (hr : Rep s'.links s'.root none t') (hk : s'.keyOf = s.keyOf)
    (hs : (inorder t').Sublist (inorder t)) : s'.Holds t' where
  rep    := hr
  nodup  := h.nodup.sublist hs
  sorted := hk ▸ h.sorted.sublist hs

-- The minimum of the right subtree gets the rest of it.
theorem exists_detach {p z : Addr} {gs : List (Frame Addr)} (hp : s.links p = some ⟨a, some z, q⟩)
    (hr : Rep s.links (some z) (some p) (plug gs (.node y .nil r))) (hn : (p :: inorder (plug gs (.node y .nil r))).Nodup) :
    ∃ s' n, s.detach p y = some s' ∧ s'.keyOf = s.keyOf ∧ s'.root = s.root ∧
      (∀ x ∉ inorder (plug gs (.node y .nil r)), s'.links x = s.links x) ∧ s'.links y = some n ∧
        Rep s'.links n.right (some y) (plug gs r) := by
  obtain ⟨hpn, hn⟩ := List.nodup_cons.mp hn
  obtain ⟨_, qy, hw, rfl, _, b, hy, rfl, hb⟩ := Rep.plug_iff.mp hr
  have hny := exists_links hy
  cases gs with
  | nil =>
    obtain ⟨hz, rfl⟩ := hw
    exact ⟨s, _, by simp [detach, hny], rfl, rfl, fun _ _ => rfl, hy, hb⟩
  | cons g gs =>
    obtain rfl := hw.parent_eq
    have hm {x} : x ∈ inorder (plug (g :: gs) (.node y .nil r)) ↔
        x = y ∨ x ∈ inorder r ∨ x ∈ before (g :: gs) ++ after (g :: gs) := by
      simp only [perm_plug.mem_iff, inorder, List.nil_append, List.mem_append, List.mem_cons, or_assoc]
    have hm' {x} : x ∈ inorder (plug (g :: gs) r) ↔ x ∈ inorder r ∨ x ∈ before (g :: gs) ++ after (g :: gs) := by
      rw [perm_plug.mem_iff, List.mem_append]
    have hn := perm_plug.nodup_iff.mp hn
    rw [inorder, inorder, List.nil_append, List.cons_append, List.nodup_cons, List.nodup_append] at hn
    obtain ⟨hyn, hrn, hfn, hd⟩ := hn
    have hyr : y ∉ inorder r := fun h => hyn <| List.mem_append_left _ h
    have hyf : y ∉ before (g :: gs) ++ after (g :: gs) := fun h => hyn <| List.mem_append_right _ h
    have hgf : g.node ∈ before (g :: gs) ++ after (g :: gs) := perm.mem_iff.mpr List.mem_cons_self
    have hpy : p ≠ y := fun h => hpn <| hm.mpr <| .inl h
    have hgp : g.node ≠ p := by
      rintro rfl
      exact hpn <| hm.mpr <| .inr <| .inr hgf
    have hby : b ≠ some y := by
      rintro rfl
      exact hyr hb.mem_root
    obtain ⟨s₁, hs₁, hr₁, ht, hw₁⟩ := transplant_child hw hy rfl (List.nodup_cons.mpr ⟨hyf, hfn⟩)
      (fun x hx => ⟨fun hxf => hd x (hx ▸ hb).mem_root x hxf rfl, (hx ▸ hb).mem (hx ▸ hb).mem_root⟩) hby
    have hb₁ := ht.rep hb hrn fun x hx hxf => hd x hx x hxf rfl
    have hr₁' : Rep s₁.links (some z) (some p) (plug (g :: gs) r) := Rep.plug_iff.mpr ⟨b, _, hw₁, hb₁⟩
    have hy₁ := (ht.links y hyf hby).trans hy
    have hp₁ : s₁.links p = _ := (ht.links p (fun h => hpn <| hm.mpr <| .inr <| .inr h)
      fun h => hpn <| hm.mpr <| .inr <| .inl (h ▸ hb).mem_root).trans hp
    -- The node takes the right child, which is not itself.
    obtain ⟨s₂, hs₂, hw₂⟩ := exists_update (g := ({ · with right := some z })) (h := ({ · with right := some z }))
      (exists_links hy₁) rfl rfl
    have hyr' : y ∉ inorder (plug (g :: gs) r) := fun h => hyn <| List.mem_append.mpr <| hm'.mp h
    have hz := hr₁'.mem_root
    have hzy : z ≠ y := fun he => hyr' <| he ▸ hz
    obtain ⟨m, hz₁⟩ := hr₁'.mem hz
    have hz₂ := (hw₂.links_ne hzy).trans hz₁
    have hy₂ := hw₂.links_self hy₁
    obtain ⟨s₃, hs₃, hw₃⟩ := exists_update (g := ({ · with parent := some y })) (h := ({ · with parent := some y }))
      (exists_links hz₂) rfl rfl
    have hnr : (inorder (plug (g :: gs) r)).Nodup :=
      perm_plug.nodup_iff.mpr <| List.nodup_append.mpr ⟨hrn, hfn, hd⟩
    refine ⟨s₃, _, ?_, hw₃.keyOf.trans <| hw₂.keyOf.trans ht.keyOf, hw₃.root.trans <| hw₂.root.trans hr₁, fun x hx => ?_,
      (hw₃.links_ne hzy.symm).trans hy₂, ?_⟩
    case refine_1 =>
      simp [detach, hny, hgp, hs₁, exists_links hp₁, hs₂, exists_links hy₂, hs₃]
    case refine_2 =>
      have hxz : x ≠ z := by
        rintro rfl
        exact hx hr.mem_root
      have hxy : x ≠ y := fun he => hx <| hm.mpr <| .inl he
      rw [hw₃.links_ne hxz, hw₂.links_ne hxy]
      refine ht.links x (fun h => hx <| hm.mpr <| .inr <| .inr h) fun h => hx <| hm.mpr <| .inr <| .inl ?_
      exact (h ▸ hb).mem_root
    case refine_3 =>
      refine (hr₁'.congr fun x hx => hw₂.links_ne fun he => hyr' <| he ▸ hx).setParent hnr (fun x hx n hl => ?_)
        fun x _ hx => hw₃.links_ne fun he => hx <| he ▸ rfl
      cases hx
      exact hw₃.links_self hl

end Algorithm.SearchTree

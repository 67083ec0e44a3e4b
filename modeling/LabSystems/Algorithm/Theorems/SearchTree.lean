import LabSystems.Algorithm.SearchTree
import LabSystems.Linked.Tree

namespace Algorithm.SearchTree

open Linked Frame

variable {s s' : SearchTree} {t l r : BinaryTree Addr} {p q : Option Addr} {x : Addr} {key : Int32}
  {fs : List (Frame Addr)}

def TreeNode.links (n : TreeNode) : Links Addr :=
  ⟨n.left, n.right, n.parent⟩

def links (s : SearchTree) (x : Addr) : Option (Links Addr) :=
  s.node x |>.map TreeNode.links

def keyOf (s : SearchTree) (x : Addr) : Int32 :=
  s.node x |>.elim 0 (·.key)

-- The tree, of which no node occurs twice and whose keys do not decrease.
structure Holds (s : SearchTree) (t : BinaryTree Addr) : Prop where
  rep    : Rep s.links s.root none t
  nodup  : (inorder t).Nodup
  sorted : (inorder t).Pairwise (s.keyOf · ≤ s.keyOf ·)

theorem links_eq_some : s.links x = some ⟨a, b, q⟩ ↔ ∃ k, s.node x = some ⟨k, a, b, q⟩ := by
  simp only [links, TreeNode.links, Option.map_eq_some_iff]
  constructor
  case mp =>
    rintro ⟨n, hn, he⟩
    cases he
    exact ⟨n.key, hn⟩
  case mpr =>
    rintro ⟨k, hn⟩
    exact ⟨_, hn, rfl⟩

theorem keyOf_eq (h : s.node x = some n) : s.keyOf x = n.key := by
  simp [keyOf, h]

-- The nodes of a tree are in memory.
theorem length_lt_size (h : Rep s.links p q t) (hn : (inorder t).Nodup) : (inorder t).length < s.size := by
  refine Nat.lt_succ_of_le <| (List.subperm_of_subset hn fun x hx => ?_).length_le
  obtain ⟨n, hl⟩ := h.mem hx
  obtain ⟨k, hl⟩ := links_eq_some.mp hl
  rw [← AList.mem_keys, ← AList.lookup_isSome]
  exact Option.isSome_of_mem hl

theorem treeInorderWalk_eq (h : Rep s.links p q t) (hf : (inorder t).length < fuel) :
    s.treeInorderWalk fuel p = some ((inorder t).map fun x => (x, s.keyOf x)) := by
  induction t generalizing p q fuel <;> cases fuel
  case nil.succ =>
    cases h
    rfl
  case node.succ x l r hil hir fuel =>
    obtain ⟨rfl, a, b, hx, ha, hb⟩ := h
    obtain ⟨k, hn⟩ := links_eq_some.mp hx
    rw [inorder, List.length_append, List.length_cons] at hf
    have hfl : (inorder l).length < fuel := by omega
    have hfr : (inorder r).length < fuel := by omega
    simp [treeInorderWalk, hn, hil ha hfl, hir hb hfr, inorder, keyOf_eq hn]
  all_goals cases hf

theorem treeSearch_eq (key : Int32) (h : Rep s.links p q t) (hs : (inorder t).Pairwise (s.keyOf · ≤ s.keyOf ·))
    (hf : (inorder t).length < fuel) :
    s.treeSearch key fuel p = some none ∧ (∀ x ∈ inorder t, s.keyOf x ≠ key) ∨
      ∃ x ∈ inorder t, s.keyOf x = key ∧ s.treeSearch key fuel p = some (some x) := by
  induction t generalizing p q fuel <;> cases fuel
  case nil.succ =>
    cases h
    exact .inl ⟨rfl, by simp [inorder]⟩
  case node.succ x l r hil hir fuel =>
    obtain ⟨rfl, a, b, hx, ha, hb⟩ := h
    obtain ⟨k, hn⟩ := links_eq_some.mp hx
    have hk : s.keyOf x = k := keyOf_eq hn
    rw [inorder, List.length_append, List.length_cons] at hf
    rw [inorder, List.pairwise_append, List.pairwise_cons] at hs
    obtain ⟨hl, ⟨hxr, hr⟩, hlx⟩ := hs
    have hm {y} (h : y ∈ inorder l ∨ y = x ∨ y ∈ inorder r) : y ∈ inorder (.node x l r) := by
      simpa [inorder] using h
    by_cases he : k = key
    case pos => exact .inr ⟨x, hm <| .inr <| .inl rfl, hk.trans he, by simp [treeSearch, hn, he]⟩
    case neg =>
      by_cases hlt : key < k
      case pos =>
        simp only [treeSearch, hn, Option.bind_eq_bind, Option.bind_some, if_neg he, if_pos hlt]
        rcases hil ha hl (by omega : (inorder l).length < fuel) with ⟨hs, hne⟩ | ⟨y, hy, hky, hs⟩
        case inr => exact .inr ⟨y, hm <| .inl hy, hky, hs⟩
        case inl =>
          refine .inl ⟨hs, fun y hy => ?_⟩
          simp only [inorder, List.mem_append, List.mem_cons] at hy
          rcases hy with hy | rfl | hy
          case inl     => exact hne y hy
          case inr.inl => exact hk ▸ he
          case inr.inr => exact (Int32.ne_of_lt <| Int32.lt_of_lt_of_le hlt <| hk ▸ hxr y hy).symm
      case neg =>
        simp only [treeSearch, hn, Option.bind_eq_bind, Option.bind_some, if_neg he, if_neg hlt]
        rcases hir hb hr (by omega : (inorder r).length < fuel) with ⟨hs, hne⟩ | ⟨y, hy, hky, hs⟩
        case inr => exact .inr ⟨y, hm <| .inr <| .inr hy, hky, hs⟩
        case inl =>
          refine .inl ⟨hs, fun y hy => ?_⟩
          simp only [inorder, List.mem_append, List.mem_cons] at hy
          rcases hy with hy | rfl | hy
          case inl     =>
            have hx : k < key := Int32.lt_of_le_of_ne (Int32.not_lt.mp hlt) he
            exact Int32.ne_of_lt <| Int32.lt_of_le_of_lt (hlx y hy x List.mem_cons_self) <| hk ▸ hx
          case inr.inl => exact hk ▸ he
          case inr.inr => exact hne y hy
  all_goals cases hf

theorem extremum_left (h : Rep s.links p q (.node x l r)) (hf : (inorder (.node x l r)).length < fuel) :
    ∃ gs y r', .node x l r = plug gs (.node y .nil r') ∧ before gs = [] ∧
      s.extremum (·.left) fuel p = some (some y) := by
  induction l generalizing p q x r fuel <;> cases fuel
  case nil.succ =>
    obtain ⟨rfl, a, b, hx, rfl, _⟩ := h
    obtain ⟨k, hn⟩ := links_eq_some.mp hx
    exact ⟨[], x, r, rfl, rfl, by simp [extremum, hn]⟩
  case node.succ z l' r' hi _ fuel =>
    obtain ⟨rfl, a, b, hx, ha, _⟩ := h
    obtain ⟨k, hn⟩ := links_eq_some.mp hx
    rw [inorder, List.length_append, List.length_cons] at hf
    obtain ⟨gs, y, yr, he, hb, hs⟩ := hi ha (by omega : (inorder (.node z l' r')).length < fuel)
    obtain rfl := ha.left
    refine ⟨gs ++ [.left x r], y, yr, ?_, ?_, ?_⟩
    case refine_1 => rw [plug_append, ← he, plug, plug]
    case refine_2 => simp [before_append, hb, before]
    case refine_3 => simpa [extremum, hn] using hs
  all_goals cases hf

theorem extremum_right (h : Rep s.links p q (.node x l r)) (hf : (inorder (.node x l r)).length < fuel) :
    s.extremum (·.right) fuel p = some (inorder (.node x l r)).getLast? := by
  induction r generalizing p q x l fuel <;> cases fuel
  case nil.succ =>
    obtain ⟨rfl, a, b, hx, _, rfl⟩ := h
    obtain ⟨k, hn⟩ := links_eq_some.mp hx
    simp [extremum, hn, inorder]
  case node.succ z l' r' _ hi fuel =>
    obtain ⟨rfl, a, b, hx, _, hb⟩ := h
    obtain ⟨k, hn⟩ := links_eq_some.mp hx
    rw [inorder, List.length_append, List.length_cons] at hf
    have hs := hi hb (by omega : (inorder (.node z l' r')).length < fuel)
    obtain rfl := hb.left
    have hl : (inorder (.node x l (.node z l' r'))).getLast? = (inorder (.node z l' r')).getLast? := by
      rw [inorder, inorder, List.append_cons, List.getLast?_append_of_ne_nil _ (by simp)]
    rw [hl, ← hs]
    simp [extremum, hn]
  all_goals cases hf

theorem nodup_frame {f : Frame Addr} (h : (x :: (before (f :: fs) ++ after (f :: fs))).Nodup) :
    (f.node :: (before fs ++ after fs)).Nodup ∧ x ∉ inorder f.other := by
  obtain ⟨hx, hn⟩ := List.nodup_cons.mp h
  rw [perm.mem_iff, List.mem_cons, List.mem_append] at hx
  obtain ⟨hf, hn⟩ := List.nodup_cons.mp <| perm.nodup_iff.mp hn
  refine ⟨List.nodup_cons.mpr ⟨fun hm => hf <| List.mem_append_right _ hm, hn.of_append_right⟩, fun hm => ?_⟩
  exact hx <| .inr <| .inl hm

theorem ascend_right (h : Way s.links s.root none fs (some x) q) (hn : (x :: (before fs ++ after fs)).Nodup)
    (hf : fs.length < fuel) : s.ascend (·.right) fuel x q = some (after fs).head? := by
  induction fs generalizing x q fuel <;> cases fuel
  case nil.succ =>
    cases h.right
    rfl
  case cons.succ f fs hi fuel =>
    obtain ⟨hn, hx⟩ := nodup_frame hn
    cases f <;> obtain ⟨rfl, b, q', hy, hb, hw⟩ := h <;> obtain ⟨k, hy⟩ := links_eq_some.mp hy
    case left y r =>
      have hr : b ≠ some x := by
        rintro rfl
        exact hx hb.mem_root
      simp [ascend, hy, hr, after]
    case right y l => simpa [ascend, hy, after] using hi hw hn <| Nat.lt_of_succ_lt_succ hf
  all_goals cases hf

theorem ascend_left (h : Way s.links s.root none fs (some x) q) (hn : (x :: (before fs ++ after fs)).Nodup)
    (hf : fs.length < fuel) : s.ascend (·.left) fuel x q = some (before fs).getLast? := by
  induction fs generalizing x q fuel <;> cases fuel
  case nil.succ =>
    cases h.right
    rfl
  case cons.succ f fs hi fuel =>
    obtain ⟨hn, hx⟩ := nodup_frame hn
    cases f <;> obtain ⟨rfl, b, q', hy, hb, hw⟩ := h <;> obtain ⟨k, hy⟩ := links_eq_some.mp hy
    case left y r => simpa [ascend, hy, before] using hi hw hn <| Nat.lt_of_succ_lt_succ hf
    case right y l =>
      have hr : b ≠ some x := by
        rintro rfl
        exact hx hb.mem_root
      simp [ascend, hy, hr, before, ← List.append_assoc]
  all_goals cases hf

-- A node of the tree and what the walk visits before and after it.
theorem Holds.split (h : s.Holds t) (ht : inorder t = xs ++ x :: ys) : ∃ fs l r q, t = plug fs (.node x l r) ∧
    Way s.links s.root none fs (some x) q ∧ Rep s.links (some x) q (.node x l r) ∧
      xs = before fs ++ inorder l ∧ ys = inorder r ++ after fs := by
  obtain ⟨fs, l, r, he⟩ := exists_plug (t := t) (x := x) (by simp [ht])
  obtain ⟨p, q, hw, hr⟩ := Rep.plug_iff.mp (he ▸ h.rep)
  obtain rfl := hr.left
  have hi : xs ++ x :: ys = (before fs ++ inorder l) ++ x :: (inorder r ++ after fs) := by
    rw [← ht, he, inorder_plug, inorder]
    simp
  have hn := List.nodup_middle.mp <| ht ▸ h.nodup
  have hm := (List.nodup_cons.mp hn).left
  obtain ⟨hl, _, hr'⟩ := List.append_cons_inj_of_notMem (fun hx => hm <| List.mem_append_left _ hx)
    (fun hx => hm <| List.mem_append_right _ hx) |>.mp hi
  exact ⟨fs, l, r, q, he, hw, hr, hl, hr'⟩

theorem Holds.nodup_frames (h : s.Holds (plug fs (.node x l r))) : (x :: (before fs ++ after fs)).Nodup := by
  have hn := List.nodup_append.mp <| perm_plug.nodup_iff.mp h.nodup
  exact List.nodup_cons.mpr ⟨fun hm => hn.right.right x (by simp [inorder]) x hm rfl, hn.right.left⟩

theorem length_frames (fs : List (Frame Addr)) : fs.length ≤ (before fs ++ after fs).length := by
  induction fs
  case nil => simp
  case cons f fs hi =>
    have hl : (before (f :: fs) ++ after (f :: fs)).length = _ := perm.length_eq
    rw [List.length_cons, hl]
    simp only [List.length_cons, List.length_append] at hi ⊢
    omega

theorem treeSuccessor_eq (h : s.Holds t) (ht : inorder t = xs ++ x :: ys) : s.treeSuccessor x = some ys.head? := by
  obtain ⟨fs, l, r, q, rfl, hw, hr, rfl, rfl⟩ := h.split ht
  obtain ⟨_, a, b, hx, _, hb⟩ := hr
  obtain ⟨k, hn⟩ := links_eq_some.mp hx
  have hlen := length_lt_size h.rep h.nodup
  rw [ht, List.length_append, List.length_cons, List.length_append] at hlen
  simp only [treeSuccessor, hn, Option.bind_eq_bind, Option.bind_some, treeMinimum]
  cases r with
  | nil =>
    obtain rfl := hb
    have hf := length_frames fs
    simp only [ne_eq, not_true_eq_false, if_false, inorder, List.nil_append]
    refine ascend_right hw h.nodup_frames ?_
    simp only [List.length_append] at hf hlen
    omega
  | node z rl rr =>
    obtain rfl := hb.left
    rw [List.length_append] at hlen
    have hf : (inorder (.node z rl rr)).length < s.size := by omega
    obtain ⟨gs, y, r', he, hgs, hs⟩ := extremum_left hb hf
    have hi : inorder (.node z rl rr) = y :: (inorder r' ++ after gs) := by
      rw [he, inorder_plug, hgs]
      simp [inorder]
    rw [if_pos (by simp), hs, hi]
    rfl

theorem treePrecursor_eq (h : s.Holds t) (ht : inorder t = xs ++ x :: ys) : s.treePrecursor x = some xs.getLast? := by
  obtain ⟨fs, l, r, q, rfl, hw, hr, rfl, rfl⟩ := h.split ht
  obtain ⟨_, a, b, hx, ha, _⟩ := hr
  obtain ⟨k, hn⟩ := links_eq_some.mp hx
  have hlen := length_lt_size h.rep h.nodup
  rw [ht, List.length_append, List.length_cons, List.length_append] at hlen
  simp only [treePrecursor, hn, Option.bind_eq_bind, Option.bind_some, treeMaximum]
  cases l with
  | nil =>
    obtain rfl := ha
    have hf := length_frames fs
    simp only [ne_eq, not_true_eq_false, if_false, inorder, List.append_nil]
    refine ascend_left hw h.nodup_frames ?_
    simp only [List.length_append] at hf hlen
    omega
  | node z ll lr =>
    obtain rfl := ha.left
    have hf : (inorder (.node z ll lr)).length < s.size := by omega
    rw [if_pos (by simp), extremum_right ha hf]
    rw [List.getLast?_append_of_ne_nil _ (by simp [inorder])]

end Algorithm.SearchTree

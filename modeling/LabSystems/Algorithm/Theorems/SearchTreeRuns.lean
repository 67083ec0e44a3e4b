import Mathlib.Data.Multiset.AddSub
import LabSystems.Algorithm.Theorems.SearchTreeSet

namespace Algorithm.SearchTree

open Linked Frame

variable {s s' : SearchTree} {t l r : BinaryTree Addr} {p q : Option Addr} {x y : Addr} {key : Int32}
  {ts : List searchTree.Transition}

namespace Action

-- The keys after a call, when there is memory for a new node or not.
def apply (keys : Multiset Int32) : Action → Multiset Int32
  | insert key (some _) => key ::ₘ keys
  | insert _ none       => keys
  | delete key          => keys.erase key

def code (keys : Multiset Int32) : Action → Int
  | insert _ (some _) => 0
  | insert _ none     => -1
  | delete key        => if key ∈ keys then 0 else -1

-- Whether the memory that `malloc` returns is not in use.
def Fresh (s : SearchTree) : Action → Prop
  | insert _ x => ∀ p ∈ x, p ∉ s.mem
  | delete _   => True

end Action

def content (as : List Action) : Multiset Int32 :=
  as.foldl Action.apply 0

theorem content_snoc {as : List Action} : content (as ++ [a]) = a.apply (content as) := by
  simp [content]

def keys (s : SearchTree) (t : BinaryTree Addr) : Multiset Int32 :=
  (inorder t).map s.keyOf

theorem mem_keys : key ∈ s.keys t ↔ ∃ x ∈ inorder t, s.keyOf x = key := by
  simp [keys]

namespace Holds

-- The search decides which branch `tree_delete` takes.
theorem search (h : s.Holds t) (key : Int32) :
    s.treeSearch key s.size s.root = some none ∧ key ∉ s.keys t ∨
      ∃ x xs ys, inorder t = xs ++ x :: ys ∧ s.keyOf x = key ∧ s.treeSearch key s.size s.root = some (some x) := by
  rcases treeSearch_eq key h.rep h.sorted (length_lt_size h.rep h.nodup) with ⟨hs, hn⟩ | ⟨x, hx, hk, hs⟩
  case inl =>
    refine .inl ⟨hs, fun hm => ?_⟩
    obtain ⟨x, hx, hk⟩ := mem_keys.mp hm
    exact hn x hx hk
  case inr =>
    obtain ⟨xs, ys, ht⟩ := List.append_of_mem hx
    exact .inr ⟨x, xs, ys, ht, hk, hs⟩

theorem delete (h : s.Holds t) (key : Int32) : ∃ s' t', s.treeDelete key = some (s', (Action.delete key).code (s.keys t)) ∧
    s'.Holds t' ∧ s'.keys t' = (s.keys t).erase key ∧ (key ∉ s.keys t → s' = s) := by
  rcases h.search key with ⟨hs, hn⟩ | ⟨x, xs, ys, ht, hk, hs⟩
  case inl =>
    refine ⟨s, t, ?_, h, (Multiset.erase_of_notMem hn).symm, fun _ => rfl⟩
    simp [treeDelete, hs, Action.code, hn]
  case inr =>
    obtain ⟨s', t', hd, h', hk', ht'⟩ := exists_delete h ht hs
    have hm : key ∈ s.keys t := mem_keys.mpr ⟨x, by simp [ht], hk⟩
    refine ⟨s', t', by rw [hd, Action.code, if_pos hm], h', ?_, absurd hm⟩
    rw [keys, keys, hk', ht', ht, ← hk, Multiset.coe_erase, List.map_append, List.map_append, List.map_cons]
    refine Multiset.coe_eq_coe.mpr <| .symm <| (List.perm_middle.erase _).trans ?_
    rw [List.erase_cons_head]

theorem step (h : s.Holds t) (a : Action) (hf : a.Fresh s) : ∃ s' t', s.step a = some (s', a.code (s.keys t)) ∧
    s'.Holds t' ∧ s'.keys t' = a.apply (s.keys t) := by
  cases a with
  | delete key =>
    obtain ⟨s', t', hd, h', hk, _⟩ := h.delete key
    exact ⟨s', t', hd, h', hk⟩
  | insert key x =>
    cases x with
    | none   => exact ⟨s, t, by simp [SearchTree.step, insert, Action.code], h, rfl⟩
    | some x =>
      have hx := hf x rfl
      obtain ⟨s', t', xs, ys, hi, h', hk, ht, ht'⟩ := exists_insert key h hx
      refine ⟨s', t', by simp [SearchTree.step, hx, hi, Action.code], h', ?_⟩
      have hn := List.nodup_cons.mp <| List.nodup_middle.mp <| ht' ▸ h'.nodup
      have hu {zs : List Addr} (hz : ∀ z ∈ zs, z ∈ xs ++ ys) :
          zs.map (Function.update s.keyOf x key) = zs.map s.keyOf := by
        refine List.map_congr_left fun z hm => Function.update_of_ne (fun he => hn.left ?_) _ _
        exact he ▸ hz z hm
      rw [keys, keys, hk, ht', ht, List.map_append, List.map_cons, Function.update_self, hu (by simp; tauto),
        hu (by simp; tauto), List.map_append]
      exact Multiset.coe_eq_coe.mpr List.perm_middle

end Holds

theorem Action.fresh_of_step {a : Action} {r : SearchTree × Int} (h : s.step a = some r) : a.Fresh s := by
  cases a with
  | delete => trivial
  | insert key x =>
    intro p hp hm
    simp [SearchTree.step.eq_def] at h
    exact h.left p hp hm

-- What the calls return, by the keys alone.
def codes (keys : Multiset Int32) : List Action → List Int
  | []      => []
  | a :: as => a.code keys :: codes (a.apply keys) as

theorem codes_snoc {m : Multiset Int32} {as : List Action} :
    codes m (as ++ [a]) = codes m as ++ [a.code (as.foldl Action.apply m)] := by
  induction as generalizing m
  case nil          => rfl
  case cons b as hi => simp [codes, hi]

theorem holds_init : (⟨∅, none⟩ : SearchTree).Holds .nil where
  rep    := rfl
  nodup  := .nil
  sorted := .nil

theorem run_holds (h : searchTree.Run ts s) : (∃ t, s.Holds t ∧ s.keys t = content (ts.map (·.act))) ∧
    Machine.events ts = codes 0 (ts.map (·.act)) := by
  refine h.history_invariant (I := fun ts s => (∃ t, s.Holds t ∧ s.keys t = content (ts.map (·.act))) ∧
    Machine.events ts = codes 0 (ts.map (·.act))) ⟨⟨.nil, holds_init, rfl⟩, rfl⟩ ?_
  rintro ts u ⟨⟨t, ht, hk⟩, he⟩
  have hs := u.valid
  simp only [searchTree, Option.map_eq_some_iff, Prod.mk.injEq] at hs
  obtain ⟨⟨s', n⟩, hs, rfl, hn⟩ := hs
  obtain ⟨s'', t', hs', h', hk'⟩ := ht.step u.act (Action.fresh_of_step hs)
  cases hs.symm.trans hs'
  refine ⟨⟨t', h', by rw [hk', hk, List.map_append, List.map_singleton, content_snoc]⟩, ?_⟩
  rw [Machine.events_append, Machine.events_singleton, he, ← hn, hk, List.map_append, List.map_singleton, codes_snoc]
  rfl

-- A node's parent is the node that has it as a child.
structure Parents (s : SearchTree) (xs : List Addr) : Prop where
  root  : ∀ x ∈ xs, ∀ n, s.node x = some n → (n.parent = none ↔ s.root = some x)
  child : ∀ x ∈ xs, ∀ n, s.node x = some n → ∀ y, n.parent = some y ↔
    y ∈ xs ∧ ∃ m, s.node y = some m ∧ (m.left = some x ∨ m.right = some x)

theorem Holds.parents (h : s.Holds t) : s.Parents (inorder t) := by
  have split {x : Addr} {n : TreeNode} (hx : x ∈ inorder t) (hn : s.node x = some n) : ∃ fs l r,
      t = plug fs (.node x l r) ∧ Way s.links s.root none fs (some x) n.parent ∧
        Rep s.links n.left (some x) l ∧ Rep s.links n.right (some x) r := by
    obtain ⟨xs, ys, ht⟩ := List.append_of_mem hx
    obtain ⟨fs, l, r, q, he, hw, ⟨_, a, b, hl, ha, hb⟩, _, _⟩ := h.split ht
    obtain ⟨k, hk⟩ := links_eq_some.mp hl
    cases hn.symm.trans hk
    exact ⟨fs, l, r, he, hw, ha, hb⟩
  constructor
  case root =>
    intro x hx n hn
    obtain ⟨fs, l, r, rfl, hw, _⟩ := split hx hn
    constructor
    case mp =>
      intro hp
      rw [hp] at hw
      cases fs with
      | nil      => exact hw.left.symm
      | cons f _ => cases hw.parent_eq
    case mpr =>
      intro hr
      have hrep := h.rep
      rw [hr] at hrep
      obtain ⟨l', r', he⟩ := hrep.eq_node
      rw [he] at hrep
      obtain ⟨_, a, b, hl, _⟩ := hrep
      obtain ⟨k, hk⟩ := links_eq_some.mp hl
      cases hn.symm.trans hk
      rfl
  case child =>
    intro x hx n hn y
    constructor
    case mp =>
      intro hp
      obtain ⟨fs, l, r, rfl, hw, _⟩ := split hx hn
      rw [hp] at hw
      cases fs with
      | nil      => cases hw.right
      | cons f fs =>
        obtain rfl := Option.some.inj hw.parent_eq
        have hm : f.node ∈ inorder (plug (f :: fs) (.node x l r)) :=
          perm_plug.mem_iff.mpr <| List.mem_append_right _ <| perm.mem_iff.mpr List.mem_cons_self
        cases f <;> obtain ⟨_, b, q', hl, _⟩ := hw <;> obtain ⟨k, hk⟩ := links_eq_some.mp hl
        case left  => exact ⟨hm, _, hk, .inl rfl⟩
        case right => exact ⟨hm, _, hk, .inr rfl⟩
    case mpr =>
      rintro ⟨hy, m, hm, hc⟩
      obtain ⟨fs, l, r, rfl, hw, hl, hr⟩ := split hy hm
      have hp {t} (ht : Rep s.links (some x) (some y) t) : n.parent = some y := by
        obtain ⟨l', r', rfl⟩ := ht.eq_node
        obtain ⟨_, a, b, hl, _⟩ := ht
        obtain ⟨k, hk⟩ := links_eq_some.mp hl
        cases hn.symm.trans hk
        rfl
      rcases hc with hc | hc
      case inl => exact hp (hc ▸ hl)
      case inr => exact hp (hc ▸ hr)

-- A call with memory from `malloc` that is not in use is always defined.
theorem run_step (h : searchTree.Run ts s) {a : Action} (hf : a.Fresh s) :
    ∃ s', searchTree.step s a = some (s', [a.code <| content <| ts.map (·.act)]) := by
  obtain ⟨⟨t, ht, hk⟩, _⟩ := run_holds h
  obtain ⟨s', _, hs, _⟩ := ht.step a hf
  exact ⟨s', by simp [searchTree, hs, hk]⟩

-- The walk prints what has been inserted and not been deleted, in order, the calls are defined and return what they
-- should, and the parents are right.
theorem run_walk (h : searchTree.Run ts s) : Machine.events ts = codes 0 (ts.map (·.act)) ∧
    (∀ a : Action, a.Fresh s → ∃ s', searchTree.step s a = some (s', [a.code <| content <| ts.map (·.act)])) ∧
    ∃ xs, s.treeInorderWalk s.size s.root = some xs ∧ (xs.map (·.snd)).Pairwise (· ≤ ·) ∧
      ((xs.map (·.snd) : List Int32) : Multiset Int32) = content (ts.map (·.act)) ∧ (xs.map (·.fst)).Nodup ∧
        s.Parents (xs.map (·.fst)) := by
  obtain ⟨⟨t, ht, hk⟩, he⟩ := run_holds h
  have hf (xs : List Addr) : (xs.map fun x => (x, s.keyOf x)).map (·.fst) = xs := by simp [Function.comp_def]
  have hs (xs : List Addr) : (xs.map fun x => (x, s.keyOf x)).map (·.snd) = xs.map s.keyOf := by simp [Function.comp_def]
  refine ⟨he, fun _ => run_step h, _, treeInorderWalk_eq ht.rep (length_lt_size ht.rep ht.nodup), ?_, ?_, ?_, ?_⟩
  case refine_1 =>
    rw [hs, List.pairwise_map]
    exact ht.sorted
  case refine_2 => rw [hs, ← hk, keys]
  case refine_3 => exact (hf _).symm ▸ ht.nodup
  case refine_4 => exact (hf _).symm ▸ ht.parents

-- Three keys, of which the one at the root is deleted and which a leaf then replaces.
def grown : List searchTree.Transition × SearchTree :=
  searchTree.trace searchTree.init [.insert 2 (some 1), .insert 1 (some 2), .insert 3 (some 3), .insert 3 none, .delete 2]

theorem walk_grown : (∃ xs, grown.2.treeInorderWalk grown.2.size grown.2.root = some xs ∧
    (xs.map (·.snd) : Multiset Int32) = content (grown.1.map (·.act))) ∧
      ∃ s', searchTree.step grown.2 (.insert 2 (some 4)) = some (s', [0]) := by
  obtain ⟨_, hs, xs, hw, _, hc, _⟩ := run_walk <| searchTree.path_trace ..
  have hf : ∀ p ∈ some (4 : Addr), p ∉ grown.2.mem := by decide
  exact ⟨⟨xs, hw, hc⟩, hs (.insert 2 (some 4)) hf⟩

-- A key that is there is found and deleted, and any other one changes nothing.
theorem run_delete (h : searchTree.Run ts s) (key : Int32) :
    (key ∈ content (ts.map (·.act)) → (∃ p n, s.treeSearch key s.size s.root = some (some p) ∧ s.node p = some n ∧
      n.key = key) ∧ ∃ s', s.treeDelete key = some (s', 0)) ∧
    (key ∉ content (ts.map (·.act)) → s.treeSearch key s.size s.root = some none ∧ s.treeDelete key = some (s, -1)) := by
  obtain ⟨⟨t, ht, hk⟩, _⟩ := run_holds h
  obtain ⟨s', t', hd, _, _, hn⟩ := ht.delete key
  rw [← hk]
  constructor
  case left =>
    intro hm
    refine ⟨?_, s', by rw [hd, Action.code, if_pos hm]⟩
    rcases ht.search key with ⟨_, hne⟩ | ⟨x, xs, ys, hx, hkx, hs⟩
    case inl => exact absurd hm hne
    case inr =>
      obtain ⟨n, hl⟩ := ht.rep.mem (x := x) (by simp [hx])
      exact ⟨x, _, hs, exists_links hl, hkx⟩
  case right =>
    intro hm
    refine ⟨?_, by rw [hd, hn hm, Action.code, if_neg hm]⟩
    rcases ht.search key with ⟨hs, _⟩ | ⟨x, xs, ys, hx, hkx, _⟩
    case inl => exact hs
    case inr => exact absurd (mem_keys.mpr ⟨x, by simp [hx], hkx⟩) hm

theorem delete_grown : ∃ s', grown.2.treeDelete 3 = some (s', 0) :=
  ((run_delete (searchTree.path_trace ..) 3).left <| by decide).right

-- The neighbours of a node in the walk.
theorem run_neighbours {xs ys : List (Addr × Int32)} (h : searchTree.Run ts s)
    (hw : s.treeInorderWalk s.size s.root = some (xs ++ (x, key) :: ys)) :
    s.treeSuccessor x = some (ys.head?.map (·.fst)) ∧ s.treePrecursor x = some (xs.getLast?.map (·.fst)) := by
  obtain ⟨⟨t, ht, _⟩, _⟩ := run_holds h
  have he := Option.some.inj <| (treeInorderWalk_eq ht.rep (length_lt_size ht.rep ht.nodup)).symm.trans hw
  have hi : inorder t = xs.map (·.fst) ++ x :: ys.map (·.fst) := by
    have hm := congrArg (List.map Prod.fst) he
    simpa [Function.comp_def] using hm
  rw [treeSuccessor_eq ht hi, treePrecursor_eq ht hi, List.head?_map, List.getLast?_map]
  exact ⟨rfl, rfl⟩

theorem mem_iff_node : x ∈ s.mem ↔ ∃ n, s.node x = some n := by
  rw [← AList.lookup_isSome, Option.isSome_iff_exists]
  rfl

theorem neighbours_grown : grown.2.treeSuccessor 2 = some (some 3) ∧ grown.2.treePrecursor 2 = some none :=
  have hw : grown.2.treeInorderWalk grown.2.size grown.2.root = some ([] ++ (2, 1) :: [(3, 3)]) := by decide
  run_neighbours (searchTree.path_trace ..) hw

-- The nodes of a tree are freed, each of them once.
theorem treeFree_eq (h : Rep s.links p q t) (hn : (inorder t).Nodup) (hf : (inorder t).length < fuel) :
    ∃ s', treeFree fuel p s = some s' ∧ (∀ x, s'.node x = if x ∈ inorder t then none else s.node x) ∧
      s'.mem.keys.length + (inorder t).length = s.mem.keys.length := by
  induction t generalizing s p q fuel <;> cases fuel
  case nil.succ =>
    obtain rfl := h
    exact ⟨s, rfl, by simp [inorder], rfl⟩
  case node.succ x l r hil hir fuel =>
    obtain ⟨rfl, a, b, hx, hl, hr⟩ := h
    have hxn := exists_links hx
    rw [inorder, List.length_append, List.length_cons] at hf
    rw [inorder, List.nodup_middle, List.nodup_cons, List.mem_append, not_or, List.nodup_append] at hn
    obtain ⟨⟨hxl, hxr⟩, hln, hrn, hd⟩ := hn
    obtain ⟨s₁, hs₁, hn₁, hlen₁⟩ := hil hl hln (by omega : (inorder l).length < fuel)
    have hr₁ : Rep s₁.links b (some x) r := by
      refine hr.congr fun y hy => ?_
      rw [links, hn₁, if_neg fun h => hd y h y hy rfl, links]
    obtain ⟨s₂, hs₂, hn₂, hlen₂⟩ := hir hr₁ hrn (by omega : (inorder r).length < fuel)
    have hx₁ : s₁.node x = s.node x := by rw [hn₁, if_neg hxl]
    have hx₂ : s₂.node x = s.node x := by rw [hn₂, if_neg hxr, hx₁]
    refine ⟨{ s₂ with mem := s₂.mem.erase x }, ?_, fun y => ?_, ?_⟩
    case refine_1 => simp [treeFree, hxn, hs₁, hx₁.trans hxn, hs₂, hx₂.trans hxn]
    case refine_2 =>
      by_cases he : y = x
      case pos =>
        subst he
        simp [node, inorder]
      case neg =>
        have hne : node { s₂ with mem := s₂.mem.erase x } y = s₂.node y := AList.lookup_erase_ne he
        rw [hne, hn₂, hn₁]
        by_cases hyl : y ∈ inorder l <;> by_cases hyr : y ∈ inorder r <;> simp [inorder, he, hyl, hyr]
    case refine_3 =>
      have hm : x ∈ s₂.mem.keys := AList.mem_keys.mpr <| mem_iff_node.mpr ⟨_, hx₂.trans hxn⟩
      have hpos := List.length_pos_of_mem hm
      rw [AList.keys_erase, List.length_erase_of_mem hm, inorder, List.length_append, List.length_cons]
      omega
  all_goals cases hf

-- A write to a node, a new place for a node and a deletion leave the nodes that are in memory there.
theorem update_keys {g : TreeNode → TreeNode} (h : s.update x g = some s') : s'.mem.keys.Perm s.mem.keys := by
  simp only [update, Option.bind_eq_bind, Option.bind_eq_some_iff] at h
  obtain ⟨n, hn, he⟩ := h
  cases he
  have hm : x ∈ s.mem.keys := AList.mem_keys.mpr <| mem_iff_node.mpr ⟨n, hn⟩
  rw [AList.keys_insert]
  exact (List.perm_cons_erase hm).symm

theorem transplant_keys (h : s.transplant x p = some s') : s'.mem.keys.Perm s.mem.keys := by
  simp only [transplant, Option.bind_eq_bind, Option.bind_eq_some_iff] at h
  obtain ⟨n, _, h⟩ := h
  cases p with
  | none =>
    split at h
    case h_1 => cases h; rfl
    case h_2 =>
      obtain ⟨m, _, h⟩ := Option.bind_eq_some_iff.mp h
      split at h
      all_goals
        obtain ⟨s₁, h₁, h⟩ := Option.bind_eq_some_iff.mp h
        cases h
        exact update_keys h₁
  | some v =>
    split at h
    case h_1 =>
      rw [Option.bind_some] at h
      obtain ⟨m, _, h⟩ := Option.bind_eq_some_iff.mp h
      exact (update_keys h :)
    case h_2 =>
      obtain ⟨m, _, h⟩ := Option.bind_eq_some_iff.mp h
      split at h
      all_goals
        obtain ⟨s₁, h₁, h⟩ := Option.bind_eq_some_iff.mp h
        obtain ⟨m', _, h⟩ := Option.bind_eq_some_iff.mp h
        exact (update_keys h).trans <| update_keys h₁

theorem detach_keys (h : s.detach x y = some s') : s'.mem.keys.Perm s.mem.keys := by
  simp only [detach, Option.bind_eq_bind, Option.bind_eq_some_iff] at h
  obtain ⟨n, _, h⟩ := h
  split at h
  case isTrue => cases h; rfl
  case isFalse =>
    simp only [Option.bind_eq_some_iff] at h
    obtain ⟨_, _, s₁, h₁, _, _, s₂, h₂, _, _, _, _, h⟩ := h
    exact (update_keys h).trans <| (update_keys h₂).trans <| transplant_keys h₁

theorem treeDelete_keys (h : s.treeDelete key = some (s', n)) : s'.mem.keys.Perm s.mem.keys := by
  simp only [treeDelete, Option.bind_eq_bind, Option.bind_eq_some_iff] at h
  obtain ⟨p, _, h⟩ := h
  cases p with
  | none   => cases h; rfl
  | some p =>
    obtain ⟨m, _, h⟩ := Option.bind_eq_some_iff.mp h
    split at h
    case isTrue =>
      obtain ⟨s₁, h₁, he⟩ := Option.bind_eq_some_iff.mp h
      cases he
      exact transplant_keys h₁
    case isFalse =>
      split at h
      case isTrue =>
        obtain ⟨s₁, h₁, he⟩ := Option.bind_eq_some_iff.mp h
        cases he
        exact transplant_keys h₁
      case isFalse =>
        simp only [Option.bind_eq_some_iff] at h
        obtain ⟨_, _, y, _, s₁, h₁, s₂, h₂, _, _, s₃, h₃, _, _, _, _, s₄, h₄, he⟩ := h
        cases he
        exact (update_keys h₄).trans <| (update_keys h₃).trans <| (transplant_keys h₂).trans <| detach_keys h₁

theorem insert_keys (h : s.insert key (some x) = some (s', n)) (hx : x ∉ s.mem) :
    s'.mem.keys.Perm (x :: s.mem.keys) := by
  have h₀ : (s.newNode x key).mem.keys = x :: s.mem.keys := by
    rw [newNode, AList.keys_insert, List.erase_of_not_mem hx]
  simp only [insert, Option.bind_eq_bind, Option.bind_eq_some_iff] at h
  obtain ⟨y, _, h⟩ := h
  rw [← h₀]
  cases y with
  | none   => cases h; rfl
  | some y =>
    obtain ⟨m, _, h⟩ := Option.bind_eq_some_iff.mp h
    split at h
    all_goals
      simp only [Option.bind_eq_some_iff] at h
      obtain ⟨s₁, h₁, s₂, h₂, he⟩ := h
      cases he
      exact (update_keys h₂).trans <| update_keys h₁

-- Whether a call has taken a node out of the tree.
def Action.removes : Action → List Int → Bool
  | delete _, n   => n = [0]
  | insert _ _, _ => false

theorem Holds.step_length (h : s.Holds t) {a : Action} (hs : s.step a = some (s', n)) :
    s'.mem.keys.length + (s.keys t).card = s.mem.keys.length + (a.apply (s.keys t)).card + (a.removes [n]).toNat := by
  have hf := Action.fresh_of_step hs
  cases a with
  | insert key x =>
    cases x with
    | none   =>
      simp [SearchTree.step.eq_def, insert] at hs
      simp [Action.apply, Action.removes, hs.left]
    | some x =>
      simp [SearchTree.step.eq_def, hf x rfl] at hs
      simp [Action.apply, Action.removes, (insert_keys hs (hf x rfl)).length_eq]
      omega
  | delete key =>
    obtain ⟨s'', t', hd, _⟩ := h.delete key
    obtain ⟨rfl, rfl⟩ := Prod.mk.inj <| Option.some.inj <| hs.symm.trans hd
    simp only [(treeDelete_keys hs).length_eq, Action.apply, Action.code, Action.removes, List.cons.injEq, and_true]
    by_cases hm : key ∈ s.keys t
    case pos =>
      have hc := Multiset.card_erase_add_one hm
      simp [hm]
      omega
    case neg => simp [hm]

theorem run_length (h : searchTree.Run ts s) :
    s.mem.keys.length = (content (ts.map (·.act))).card + ts.countP fun t => t.act.removes t.events := by
  refine (h.history_invariant (I := fun ts s => searchTree.Run ts s ∧
    s.mem.keys.length = (content (ts.map (·.act))).card + ts.countP fun t => t.act.removes t.events) ⟨.nil, rfl⟩ ?_).right
  rintro ts u ⟨hr, hl⟩
  refine ⟨hr.snoc u, ?_⟩
  obtain ⟨⟨t, ht, hk⟩, _⟩ := run_holds hr
  have hs := u.valid
  simp only [searchTree, Option.map_eq_some_iff, Prod.mk.injEq] at hs
  obtain ⟨⟨s', n⟩, hs, rfl, hn⟩ := hs
  have hlen := ht.step_length hs
  rw [hk] at hlen
  rw [List.map_append, List.map_singleton, content_snoc, List.countP_append, List.countP_singleton, ← hn]
  cases hu : u.act.removes [n] <;> simp [hu] at hlen ⊢ <;> omega

-- A tree that is freed leaves the nodes in memory which are not in the walk. These are the nodes that have been taken
-- out of it.
theorem run_free (h : searchTree.Run ts s) : ∃ s' xs, treeFree s.size s.root s = some s' ∧
    s.treeInorderWalk s.size s.root = some xs ∧ (∀ x, x ∈ s'.mem ↔ x ∈ s.mem ∧ x ∉ xs.map (·.fst)) ∧
      s'.mem.keys.length = ts.countP fun t => t.act.removes t.events := by
  obtain ⟨⟨t, ht, hk⟩, _⟩ := run_holds h
  have hlt := length_lt_size ht.rep ht.nodup
  obtain ⟨s', hs, hn, hlen⟩ := treeFree_eq ht.rep ht.nodup hlt
  refine ⟨s', _, hs, treeInorderWalk_eq ht.rep hlt, fun x => ?_, ?_⟩
  case refine_1 =>
    have hf : ((inorder t).map fun x => (x, s.keyOf x)).map (·.fst) = inorder t := by simp [Function.comp_def]
    rw [hf, mem_iff_node, mem_iff_node, hn]
    by_cases hx : x ∈ inorder t <;> simp [hx]
  case refine_2 =>
    rw [run_length h, ← hk, keys, Multiset.coe_card, List.length_map] at hlen
    omega

theorem free_grown : ∃ s' xs, treeFree grown.2.size grown.2.root grown.2 = some s' ∧
    grown.2.treeInorderWalk grown.2.size grown.2.root = some xs ∧
      (∀ x, x ∈ s'.mem ↔ x ∈ grown.2.mem ∧ x ∉ xs.map (·.fst)) ∧
        s'.mem.keys.length = grown.1.countP fun t => t.act.removes t.events :=
  run_free <| searchTree.path_trace ..

end Algorithm.SearchTree

import LabSystems.RbTree.Theorems.Contents

namespace RbTree.Head

open Algorithm (Addr)
open Linked Frame

variable {E L : Type} [LinearOrder L] {cmp : E → E → Int} {rank : E → L} {s s' : Head E} {t l r : BinaryTree Addr}
  {p q v : Option Addr} {x y : Addr} {es : List (Addr × E)} {fs : List (Frame Addr)}

theorem minMaxFrom_left (h : Rep s.links p q t) (hf : (inorder t).length < fuel) :
    s.minMaxFrom .left fuel v p = some ((inorder t).head?.or v) := by
  induction t generalizing p q fuel v <;> cases fuel
  case nil.succ =>
    obtain rfl := h
    rfl
  case node.succ x l r hi _ fuel =>
    obtain ⟨rfl, a, b, hx, ha, _⟩ := h
    obtain ⟨e, he⟩ := exists_element hx
    rw [inorder, List.length_append, List.length_cons] at hf
    simp [minMaxFrom, he, Element.child, hi ha (by omega : (inorder l).length < fuel), inorder]
  all_goals cases hf

theorem minMaxFrom_right (h : Rep s.links p q t) (hf : (inorder t).length < fuel) :
    s.minMaxFrom .right fuel v p = some ((inorder t).getLast?.or v) := by
  induction t generalizing p q fuel v <;> cases fuel
  case nil.succ =>
    obtain rfl := h
    rfl
  case node.succ x l r _ hi fuel =>
    obtain ⟨rfl, a, b, hx, _, hb⟩ := h
    obtain ⟨e, he⟩ := exists_element hx
    rw [inorder, List.length_append, List.length_cons] at hf
    simp only [minMaxFrom, he, Element.child, Option.bind_eq_bind, Option.bind_some,
      hi hb (by omega : (inorder r).length < fuel), inorder, List.getLast?_append, List.getLast?_cons]
    cases (inorder r).getLast? <;> simp
  all_goals cases hf

theorem ascend_eq (h : Way s.links s.root none fs (some x) q) (hn : (x :: (before fs ++ after fs)).Nodup)
    (hf : fs.length < fuel) : s.ascend fuel x q = some (after fs).head? := by
  induction fs generalizing x q fuel <;> cases fuel
  case nil.succ =>
    cases h.right
    rfl
  case cons.succ f fs hi fuel =>
    obtain ⟨_, hxf, hx⟩ := nodup_frame hn
    have hn' := List.nodup_cons.mp <| perm.nodup_iff.mp (List.nodup_cons.mp hn).right
    have hn'' : (f.node :: (before fs ++ after fs)).Nodup :=
      List.nodup_cons.mpr ⟨fun hm => hn'.left <| List.mem_append_right _ hm, hn'.right.of_append_right⟩
    cases f <;> obtain ⟨rfl, b, q', hy, hb, hw⟩ := h <;> obtain ⟨e, he⟩ := exists_element hy
    case left y r =>
      have hr : b ≠ some x := by
        rintro rfl
        exact hx hb.mem_root
      simp [ascend, he, hr, after]
    case right y l => simpa [ascend, he, after] using hi hw hn'' <| Nat.lt_of_succ_lt_succ hf
  all_goals cases hf

-- `RB_NEXT` looks at the parent first, and the loop would stop there too.
theorem next_of_right (h : Way s.links s.root none fs (some x) n.parent) (hn : (x :: (before fs ++ after fs)).Nodup)
    (hf : fs.length < s.size) (hx : s.links x = some n) (hr : n.right = none) : s.next x = some (after fs).head? := by
  obtain ⟨e, he⟩ := exists_element hx
  cases fs with
  | nil =>
    have hp : n.parent = none := h.right
    simp [Head.next, he, hr, hp, after]
  | cons f fs =>
    have ha := ascend_eq h hn hf
    obtain ⟨_, _, hxo⟩ := nodup_frame hn
    cases f <;> obtain ⟨hp, b, q', hy, hb, _⟩ := h <;> obtain ⟨ey, hey⟩ := exists_element hy
    case left y r => simp [Head.next, he, hr, hp, hey, after]
    case right y l =>
      have hbx : b ≠ some x := by
        rintro rfl
        exact hxo hb.mem_root
      rw [hp] at ha
      simpa [Head.next, he, hr, hp, hey, hbx] using ha

namespace Holds

theorem min (h : s.Holds rank es t) : s.min = some (es.head?.map Prod.fst) := by
  have hm := minMaxFrom_left (v := none) h.represents.rep h.represents.length_lt_size
  rw [h.keys, List.head?_map, Option.or_none] at hm
  exact hm

theorem max (h : s.Holds rank es t) : s.max = some (es.getLast?.map Prod.fst) := by
  have hm := minMaxFrom_right (v := none) h.represents.rep h.represents.length_lt_size
  rw [h.keys, List.getLast?_map, Option.or_none] at hm
  exact hm

theorem next (h : s.Holds rank es t) {xs ys : List (Addr × E)} {e : Addr × E} (he : es = xs ++ e :: ys) :
    s.next e.fst = some (ys.head?.map Prod.fst) := by
  obtain ⟨fs, l, r, rfl, _, hys⟩ := h.split he
  have hj : s.Represents (plug fs (join .left e.fst l r)) := h.represents
  obtain ⟨hn, hfn, hd⟩ := nodup_plug hj.nodup
  obtain ⟨n, hx, hw, hl, hr⟩ := hj.at_node
  obtain ⟨d, hel⟩ := exists_element hx
  have hnf : (e.fst :: (before fs ++ after fs)).Nodup := List.nodup_cons.mpr ⟨hd e.fst (by simp), hfn⟩
  have hlen := hj.length_lt_size
  rw [perm_plug.length_eq, List.length_append, perm_join.length_eq, List.length_cons, List.length_append] at hlen
  have hr : Rep s.links n.right (some e.fst) r := hr
  rw [← List.head?_map, hys]
  cases r with
  | nil =>
    have hfs := length_frames fs
    rw [inorder, List.nil_append]
    exact next_of_right hw hnf (by omega) hx hr
  | node z rl rr =>
    have hrz : n.right = some z := hr.left
    obtain ⟨gs, y, r', heq, hgs, hs⟩ := leftmost_eq hr (by omega : _ ≤ s.size)
    rw [heq, inorder_minimum hgs]
    simp [Head.next, hel, hrz, hs]

theorem visit (h : s.Holds rank es t) {xs ys : List (Addr × E)} (he : es = xs ++ ys) (hf : ys.length < fuel) :
    s.visit fuel (ys.head?.map Prod.fst) = some (ys.map Prod.fst) := by
  induction ys generalizing xs fuel <;> cases fuel
  case nil.succ => rfl
  case cons.succ e ys hi fuel =>
    have he' : es = (xs ++ [e]) ++ ys := by simp [he]
    have hv := hi he' <| Nat.lt_of_succ_lt_succ hf
    simp [Head.visit, h.next he, hv]
  all_goals cases hf

theorem foreach (h : s.Holds rank es t) : s.foreach = some (es.map Prod.fst) := by
  have hlen := h.represents.length_lt_size
  rw [h.keys, List.length_map] at hlen
  have hv := h.visit (List.nil_append es).symm hlen
  simp [Head.foreach, h.min, hv]

end Holds

end RbTree.Head

import LabSystems.Algorithm.Theorems.SearchTreeUpdates

namespace Algorithm.SearchTree

open Linked Frame

variable {s s' : SearchTree} {t l r : BinaryTree Addr} {p q : Option Addr} {x y : Addr} {key : Int32}
  {f : Frame Addr} {fs : List (Frame Addr)}

-- What is on the way to a node is not in the subtree of the node, and the node is in neither.
theorem nodup_plug (h : (inorder (plug fs (.node x l r))).Nodup) :
    (x :: (before fs ++ after fs)).Nodup ∧ (x :: inorder l).Nodup ∧ (x :: inorder r).Nodup ∧
      (∀ y ∈ inorder l, y ∉ inorder r) ∧ ∀ y, y ∈ inorder l ∨ y ∈ inorder r → y ∉ before fs ++ after fs := by
  have hn := perm_plug.nodup_iff.mp h
  rw [inorder, List.nodup_append, List.nodup_append, List.nodup_cons] at hn
  grind

-- The only child of a node takes its place.
theorem Holds.transplant_child (h : s.Holds (plug fs (.node x l r))) (hw : Way s.links s.root none fs (some x) q)
    (hx : s.links x = some n) (hp : n.parent = q) (ht : t = l ∨ t = r) (hv : Rep s.links v (some x) t) :
    ∃ s', s.transplant x v = some s' ∧ s'.Holds (plug fs t) ∧ s'.keyOf = s.keyOf := by
  obtain ⟨hf, hl, hr, _, hd⟩ := nodup_plug h.nodup
  have htn : (x :: inorder t).Nodup := by rcases ht with rfl | rfl <;> assumption
  obtain ⟨hxt, htn⟩ := List.nodup_cons.mp htn
  have hd {y} (hy : y ∈ inorder t) : y ∉ before fs ++ after fs := by
    refine hd y ?_
    rcases ht with rfl | rfl
    case inl => exact .inl hy
    case inr => exact .inr hy
  obtain ⟨s', hs, htr, hw'⟩ := exists_transplant (v := v) hw hx hp hf
    (fun y hy => ⟨hd (hy ▸ hv).mem_root, hv.mem (hy ▸ hv).mem_root⟩) fun he => hxt (he ▸ hv).mem_root
  refine ⟨s', hs, h.of_sublist (Rep.plug_iff.mpr ⟨v, q, hw', htr.rep hv htn fun y hy => hd hy⟩) htr.keyOf ?_, htr.keyOf⟩
  rw [inorder_plug, inorder_plug, inorder]
  refine List.Sublist.append_right (List.Sublist.append_left ?_ _) _
  rcases ht with rfl | rfl
  case inl => exact List.sublist_append_left _ _
  case inr => exact (List.sublist_cons_self _ _).trans (List.sublist_append_right _ _)

theorem inorder_minimum (h : before fs = []) : inorder (plug fs (.node y .nil r)) = y :: inorder (plug fs r) := by
  simp [inorder_plug, h, inorder]

-- A node with two children is replaced by the minimum of the right one.
theorem Holds.replace {a z : Addr} {gs : List (Frame Addr)} (h : s.Holds (plug fs (.node x l (plug gs (.node y .nil r)))))
    (hg : before gs = []) (hw : Way s.links s.root none fs (some x) q) (hx : s.links x = some ⟨some a, some z, q⟩)
    (hl : Rep s.links (some a) (some x) l) (hr : Rep s.links (some z) (some x) (plug gs (.node y .nil r))) :
    ∃ s₁ s₂ s₃ s₄ b, s.detach x y = some s₁ ∧ s₁.transplant x (some y) = some s₂ ∧
      s₂.links x = some ⟨some a, some z, q⟩ ∧ s₂.update y ({ · with left := some a }) = some s₃ ∧
      s₃.links y = some ⟨some a, b, q⟩ ∧ s₃.update a ({ · with parent := some y }) = some s₄ ∧
      s₄.Holds (plug fs (.node y l (plug gs r))) ∧ s₄.keyOf = s.keyOf := by
  obtain ⟨hf, hln, hrn, hlr, hd⟩ := nodup_plug h.nodup
  have hm {w} : w ∈ inorder (plug gs (.node y .nil r)) ↔ w = y ∨ w ∈ inorder (plug gs r) := by
    simp only [perm_plug.mem_iff, inorder, List.nil_append, List.mem_append, List.mem_cons, or_assoc]
  have hy : y ∈ inorder (plug gs (.node y .nil r)) := hm.mpr <| .inl rfl
  obtain ⟨hxr, hrn'⟩ := List.nodup_cons.mp hrn
  have hn' : (y :: inorder (plug gs r)).Nodup := by
    have hp := perm_plug.nodup_iff.mp hrn'
    rw [inorder, inorder, List.nil_append, List.cons_append, List.nodup_cons] at hp
    exact List.nodup_cons.mpr ⟨perm_plug.mem_iff.not.mpr hp.left, perm_plug.nodup_iff.mpr hp.right⟩
  have hxy : x ≠ y := fun he => hxr <| he ▸ hy
  obtain ⟨s₁, n, hs₁, hk₁, hr₁, hl₁, hy₁, hb₁⟩ := exists_detach hx hr hrn
  have hf₁ {w} (hw : w ∈ before fs ++ after fs) : s₁.links w = s.links w := hl₁ w fun h => hd w (.inr h) hw
  have hw₁ : Way s₁.links s₁.root none fs (some x) q := hr₁ ▸ hw.congr fun w hw => hf₁ hw
  have hx₁ := (hl₁ x hxr).trans hx
  obtain ⟨s₂, hs₂, ht, hw₂⟩ := exists_transplant (v := some y) hw₁ hx₁ rfl hf
    (fun w hw => by cases hw; exact ⟨hd y (.inr hy), _, hy₁⟩) fun he => hxy (Option.some.inj he).symm
  have hx₂ := (ht.links x (List.nodup_cons.mp hf).left fun he => hxy (Option.some.inj he).symm).trans hx₁
  have hy₂ := ht.parent y n rfl hy₁
  obtain ⟨s₃, hs₃, hw₃⟩ := exists_update (g := ({ · with left := some a })) (h := ({ · with left := some a }))
    (exists_links hy₂) rfl rfl
  have hy₃ := hw₃.links_self hy₂
  have ha := hl.mem_root
  have hay : a ≠ y := fun he => hlr a ha <| he ▸ hy
  have h₃ {w} (hw : w ∉ before fs ++ after fs) (hwy : w ≠ y) : s₃.links w = s₁.links w := by
    rw [hw₃.links_ne hwy, ht.links w hw fun he => hwy (Option.some.inj he).symm]
  have hl₃ {w} (hw : w ∈ inorder l) : s₃.links w = s.links w := by
    rw [h₃ (hd w <| .inl hw) fun he => hlr w hw <| he ▸ hy, hl₁ w <| hlr w hw]
  obtain ⟨m, hm'⟩ := hl.mem ha
  obtain ⟨s₄, hs₄, hw₄⟩ := exists_update (g := ({ · with parent := some y })) (h := ({ · with parent := some y }))
    (exists_links <| (hl₃ ha).trans hm') rfl rfl
  have hk₄ : s₄.keyOf = s.keyOf := hw₄.keyOf.trans <| hw₃.keyOf.trans <| ht.keyOf.trans hk₁
  refine ⟨s₁, s₂, s₃, s₄, n.right, hs₁, hs₂, hx₂, hs₃, hy₃, hs₄, h.of_sublist (Rep.plug_iff.mpr ⟨some y, q, ?_, ?_⟩) hk₄ ?_, hk₄⟩
  case refine_1 =>
    rw [hw₄.root, hw₃.root]
    refine hw₂.congr fun w hw => ?_
    rw [hw₄.links_ne, hw₃.links_ne]
    all_goals
      rintro rfl
      exact hd w (by simp [ha, hy]) hw
  case refine_2 =>
    refine ⟨rfl, some a, n.right, ?_, ?_, ?_⟩
    case refine_1 => exact (hw₄.links_ne hay.symm).trans hy₃
    case refine_2 =>
      refine (hl.congr fun w hw => hl₃ hw).setParent (List.nodup_cons.mp hln).right (fun w hw n hn => ?_) fun w _ hwa => ?_
      case refine_1 =>
        cases hw
        exact hw₄.links_self hn
      case refine_2 => exact hw₄.links_ne fun he => hwa <| he ▸ rfl
    case refine_3 =>
      refine hb₁.congr fun w hw => ?_
      have hwr := hm.mpr <| .inr hw
      rw [hw₄.links_ne fun he => hlr a ha <| he ▸ hwr, h₃ (hd w <| .inr hwr)]
      rintro rfl
      exact (List.nodup_cons.mp hn').left hw
  case refine_3 =>
    rw [inorder_plug, inorder_plug, inorder, inorder]
    refine List.Sublist.append_right (List.Sublist.append_left (List.Sublist.append_left ?_ _) _) _
    rw [inorder_minimum hg]
    exact List.sublist_cons_self x _


theorem exists_delete (h : s.Holds t) (ht : inorder t = xs ++ x :: ys)
    (hs : s.treeSearch key s.size s.root = some (some x)) :
    ∃ s' t', s.treeDelete key = some (s', 0) ∧ s'.Holds t' ∧ s'.keyOf = s.keyOf ∧ inorder t' = xs ++ ys := by
  obtain ⟨fs, l, r, q, rfl, hw, ⟨_, a, b, hx, hl, hr⟩, rfl, rfl⟩ := h.split ht
  have hn := exists_links hx
  cases l with
  | nil =>
    obtain rfl := hl
    obtain ⟨s', hs', h', hk⟩ := h.transplant_child hw hx rfl (.inr rfl) hr
    refine ⟨s', _, ?_, h', hk, by simp [inorder_plug, inorder]⟩
    simp [treeDelete, hs, hn, hs']
  | node a ll lr =>
    obtain rfl := hl.left
    cases r with
    | nil =>
      obtain rfl := hr
      obtain ⟨s', hs', h', hk⟩ := h.transplant_child hw hx rfl (.inl rfl) hl
      refine ⟨s', _, ?_, h', hk, by simp [inorder_plug, inorder]⟩
      simp [treeDelete, hs, hn, hs']
    | node z rl rr =>
      obtain rfl := hr.left
      have hlen := length_lt_size h.rep h.nodup
      rw [ht, List.length_append, List.length_cons, List.length_append, List.length_append] at hlen
      have hf : (inorder (.node z rl rr)).length < s.size := by omega
      obtain ⟨gs, y, r', he, hg, hmin⟩ := extremum_left hr hf
      rw [he] at h hr ⊢
      obtain ⟨s₁, s₂, s₃, s₄, b, h₁, h₂, hx₂, h₃, hy₃, h₄, h', hk⟩ := h.replace hg hw hx hl hr
      refine ⟨s₄, _, ?_, h', hk, ?_⟩
      case refine_1 =>
        simp [treeDelete, hs, hn, treeMinimum, hmin, h₁, h₂, exists_links hx₂, h₃, exists_links hy₃, h₄]
      case refine_2 =>
        rw [inorder_minimum hg, inorder_plug, inorder]
        simp

-- The loop goes between the nodes with keys up to the new one and those with greater keys.
theorem descend_eq (key : Int32) (hw : Way s.links s.root none fs p q) (h : Rep s.links p q t)
    (hs : (inorder t).Pairwise (s.keyOf · ≤ s.keyOf ·)) (hf : (inorder t).length < fuel)
    (hb : ∀ x ∈ before fs, s.keyOf x ≤ key) (ha : ∀ x ∈ after fs, key < s.keyOf x) :
    ∃ fs' q', s.descend key fuel q p = some q' ∧ plug fs t = plug fs' .nil ∧ Way s.links s.root none fs' none q' ∧
      (∀ x ∈ before fs', s.keyOf x ≤ key) ∧ ∀ x ∈ after fs', key < s.keyOf x := by
  induction t generalizing p q fuel fs <;> cases fuel
  case nil.succ =>
    obtain rfl := h
    exact ⟨fs, q, rfl, rfl, hw, hb, ha⟩
  case node.succ x l r hil hir fuel =>
    obtain ⟨rfl, a, b, hx, hl, hr⟩ := h
    have hn := exists_links hx
    rw [inorder, List.length_append, List.length_cons] at hf
    rw [inorder, List.pairwise_append, List.pairwise_cons] at hs
    obtain ⟨hsl, ⟨hxr, hsr⟩, hlx⟩ := hs
    by_cases hlt : key < s.keyOf x
    case pos =>
      have ha' : ∀ y ∈ after (.left x r :: fs), key < s.keyOf y := by
        intro y hy
        simp only [after, List.cons_append, List.mem_cons, List.mem_append] at hy
        rcases hy with rfl | hy | hy
        case inl     => exact hlt
        case inr.inl => exact Int32.lt_of_lt_of_le hlt <| hxr y hy
        case inr.inr => exact ha y hy
      have hw' : Way s.links s.root none (.left x r :: fs) a (some x) := ⟨rfl, b, q, hx, hr, hw⟩
      obtain ⟨fs', q', hd, he, hi⟩ := hil hw' hl hsl (by omega : (inorder l).length < fuel) hb ha'
      exact ⟨fs', q', by simpa [descend, hn, hlt] using hd, he, hi⟩
    case neg =>
      have hle := Int32.not_lt.mp hlt
      have hb' : ∀ y ∈ before (.right x l :: fs), s.keyOf y ≤ key := by
        intro y hy
        simp only [before, List.mem_append, List.mem_singleton] at hy
        rcases hy with hy | hy | rfl
        case inl     => exact hb y hy
        case inr.inl => exact Int32.le_trans (hlx y hy x List.mem_cons_self) hle
        case inr.inr => exact hle
      have hw' : Way s.links s.root none (.right x l :: fs) b (some x) := ⟨rfl, a, q, hx, hl, hw⟩
      obtain ⟨fs', q', hd, he, hi⟩ := hir hw' hr hsr (by omega : (inorder r).length < fuel) hb' ha
      exact ⟨fs', q', by simpa [descend, hn, hlt] using hd, he, hi⟩
  all_goals cases hf

theorem Holds.newNode (key : Int32) (h : s.Holds t) (hx : x ∉ s.mem) : (s.newNode x key).Holds t ∧ x ∉ inorder t ∧
    (s.newNode x key).links x = some ⟨none, none, none⟩ ∧ (s.newNode x key).keyOf = Function.update s.keyOf x key := by
  have hxt : x ∉ inorder t := by
    intro hm
    obtain ⟨n, hn⟩ := h.rep.mem hm
    exact hx <| AList.lookup_isSome.mp <| Option.isSome_of_mem <| exists_links hn
  have hk : (s.newNode x key).keyOf = Function.update s.keyOf x key := keyOf_insert
  have hl : (s.newNode x key).links = Function.update s.links x (some ⟨none, none, none⟩) := links_insert
  have hne {y} (hy : y ∈ inorder t) : y ≠ x := fun he => hxt <| he ▸ hy
  refine ⟨⟨h.rep.congr fun y hy => ?_, h.nodup, ?_⟩, hxt, by rw [hl, Function.update_self], hk⟩
  case refine_1 => rw [hl, Function.update_of_ne <| hne hy]
  case refine_2 =>
    rw [hk]
    refine h.sorted.imp_of_mem fun {y z} hy hz hle => ?_
    rwa [Function.update_of_ne <| hne hy, Function.update_of_ne <| hne hz]

-- A new leaf between smaller keys and greater ones.
theorem Holds.leaf (h : s.Holds (plug fs .nil)) (hr : Rep s'.links s'.root none (plug fs (.node x .nil .nil)))
    (hk : s'.keyOf = s.keyOf) (hx : x ∉ inorder (plug fs .nil)) (hb : ∀ y ∈ before fs, s.keyOf y ≤ s.keyOf x)
    (ha : ∀ y ∈ after fs, s.keyOf x < s.keyOf y) : s'.Holds (plug fs (.node x .nil .nil)) := by
  have hi : inorder (plug fs (.node x .nil .nil)) = before fs ++ x :: after fs := by simp [inorder_plug, inorder]
  have hi' : inorder (plug fs .nil) = before fs ++ after fs := by simp [inorder_plug, inorder]
  have hs := h.sorted
  have hn := h.nodup
  rw [hi', List.pairwise_append] at hs
  rw [hi'] at hx hn
  refine ⟨hr, ?_, ?_⟩
  case refine_1 =>
    rw [hi, List.nodup_middle]
    exact List.nodup_cons.mpr ⟨hx, hn⟩
  case refine_2 =>
    rw [hi, hk, List.pairwise_append, List.pairwise_cons]
    refine ⟨hs.left, ⟨fun y hy => Int32.le_of_lt <| ha y hy, hs.right.left⟩, fun y hy z hz => ?_⟩
    rcases List.mem_cons.mp hz with rfl | hz
    case inl => exact hb y hy
    case inr => exact hs.right.right y hy z hz

theorem exists_insert (key : Int32) (h : s.Holds t) (hx : x ∉ s.mem) : ∃ s' t' xs ys, s.insert key (some x) = some (s', 0) ∧
    s'.Holds t' ∧ s'.keyOf = Function.update s.keyOf x key ∧ inorder t = xs ++ ys ∧ inorder t' = xs ++ x :: ys := by
  obtain ⟨h₀, hxt, hx₀, hk₀⟩ := h.newNode key hx
  have hw₀ : Way (s.newNode x key).links (s.newNode x key).root none [] (s.newNode x key).root none := ⟨rfl, rfl⟩
  obtain ⟨fs, q, hd, rfl, hw, hb, ha⟩ := descend_eq key hw₀ h₀.rep h₀.sorted (length_lt_size h₀.rep h₀.nodup)
    (by simp [before]) (by simp [after])
  have hkx : (s.newNode x key).keyOf x = key := by rw [hk₀, Function.update_self]
  suffices hs : ∃ s', s.insert key (some x) = some (s', 0) ∧ Rep s'.links s'.root none (plug fs (.node x .nil .nil)) ∧
      s'.keyOf = (s.newNode x key).keyOf by
    obtain ⟨s', hs, hr, hk⟩ := hs
    refine ⟨s', _, before fs, after fs, hs, h₀.leaf hr hk hxt ?_ ?_, hk.trans hk₀, by simp [inorder_plug, inorder],
      by simp [inorder_plug, inorder]⟩
    case refine_1 => rwa [hkx]
    case refine_2 => rwa [hkx]
  cases fs with
  | nil =>
    obtain rfl := hw.right
    refine ⟨{ s.newNode x key with root := some x }, ?_, ⟨rfl, none, none, hx₀, rfl, rfl⟩, rfl⟩
    simp only [insert, Option.bind_eq_bind, hd, Option.bind_some]
    rfl
  | cons f fs =>
    obtain rfl := hw.parent_eq
    have hm : f.node ∈ before (f :: fs) ++ after (f :: fs) := perm.mem_iff.mpr List.mem_cons_self
    have hi : inorder (plug (f :: fs) .nil) = before (f :: fs) ++ after (f :: fs) := by simp [inorder_plug, inorder]
    rw [hi] at hxt
    have hxf : x ≠ f.node := fun he => hxt <| he ▸ hm
    obtain ⟨n, hn⟩ := h₀.rep.mem (hi ▸ hm)
    have hn' := exists_links hn
    have hs : ∃ s₁, (s.newNode x key).Writes f.node (f.setChild (some x)) s₁ ∧
        (key < (s.newNode x key).keyOf f.node ∧ (s.newNode x key).update f.node ({ · with left := some x }) = some s₁ ∨
          ¬key < (s.newNode x key).keyOf f.node ∧
            (s.newNode x key).update f.node ({ · with right := some x }) = some s₁) := by
      cases f with
      | left y r  =>
        obtain ⟨s₁, hs, hw⟩ := exists_update (g := ({ · with left := some x })) (h := ({ · with left := some x })) hn'
          rfl rfl
        exact ⟨s₁, hw, .inl ⟨ha y (by simp [after]), hs⟩⟩
      | right y l =>
        obtain ⟨s₁, hs, hw⟩ := exists_update (g := ({ · with right := some x })) (h := ({ · with right := some x })) hn'
          rfl rfl
        exact ⟨s₁, hw, .inr ⟨Int32.not_lt.mpr <| hb y (by simp [before]), hs⟩⟩
    obtain ⟨s₁, hw₁, hs₁⟩ := hs
    have hway := hw.setChild (hi ▸ h₀.nodup) (fun _ => hw₁.links_self) fun y _ hy => hw₁.links_ne hy
    have hx₁ := (hw₁.links_ne hxf).trans hx₀
    obtain ⟨s₂, hs₂, hw₂⟩ := exists_update (g := ({ · with parent := some f.node }))
      (h := ({ · with parent := some f.node })) (exists_links hx₁) rfl rfl
    refine ⟨s₂, ?_, Rep.plug_iff.mpr ⟨some x, some f.node, ?_, rfl, none, none, hw₂.links_self hx₁, rfl, rfl⟩,
      hw₂.keyOf.trans hw₁.keyOf⟩
    case refine_1 =>
      simp only [insert, Option.bind_eq_bind, hd, Option.bind_some, hn']
      rcases hs₁ with ⟨hlt, hs₁⟩ | ⟨hlt, hs₁⟩
      case inl => simp [hlt, hs₁, hs₂]
      case inr => simp [hlt, hs₁, hs₂]
    case refine_2 =>
      rw [hw₂.root, hw₁.root]
      exact hway.congr fun y hy => hw₂.links_ne fun he => hxt <| he ▸ hy

end Algorithm.SearchTree

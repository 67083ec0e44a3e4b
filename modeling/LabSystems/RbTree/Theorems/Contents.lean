import LabSystems.RbTree.Theorems.Deletion

namespace RbTree

-- The comparison is that of ranks in a linear order.
structure Compares [LinearOrder L] (cmp : E → E → Int) (rank : E → L) : Prop where
  neg : ∀ a b, cmp a b < 0 ↔ rank a < rank b
  pos : ∀ a b, cmp a b > 0 ↔ rank b < rank a

theorem Compares.zero [LinearOrder L] {cmp : E → E → Int} {rank : E → L} (h : Compares cmp rank) (a b : E) :
    cmp a b = 0 ↔ rank a = rank b := by
  have hn := h.neg a b
  have hp := h.pos a b
  constructor
  case mp =>
    intro he
    exact le_antisymm (not_lt.mp <| by simp [← hp, he]) (not_lt.mp <| by simp [← hn, he])
  case mpr =>
    intro he
    simp only [he, lt_irrefl, iff_false] at hn hp
    omega

namespace Head

open Algorithm (Addr)
open Linked Frame

variable {E L : Type} [LinearOrder L] {cmp : E → E → Int} {rank : E → L} {s s' : Head E} {t l r : BinaryTree Addr}
  {p q parent : Option Addr} {x y : Addr} {xs ys : List Addr} {es : List (Addr × E)} {fs gs : List (Frame Addr)}
  {elm : E}

theorem exists_data (h : s.links x = some n) : ∃ e, s.dataOf x = some e ∧
    s.element x = some ⟨e, n.left, n.right, n.parent, s.colorOf x⟩ := by
  obtain ⟨e, he⟩ := exists_element h
  exact ⟨e, by simp [dataOf, he], he⟩

-- An element whose rank is less than `v`, or greater.
def Under (s : Head E) (rank : E → L) (v : L) (x : Addr) : Prop :=
  ∃ a, s.dataOf x = some a ∧ rank a < v

def Over (s : Head E) (rank : E → L) (v : L) (x : Addr) : Prop :=
  ∃ a, s.dataOf x = some a ∧ v < rank a

def Less (s : Head E) (rank : E → L) (x y : Addr) : Prop :=
  ∃ a, s.dataOf x = some a ∧ s.Over rank (rank a) y

theorem over_left (hx : s.dataOf x = some e) (he : rank elm < rank e) (hr : ∀ y ∈ inorder r, s.Less rank x y)
    (ha : ∀ y ∈ after fs, s.Over rank (rank elm) y) : ∀ y ∈ after (.left x r :: fs), s.Over rank (rank elm) y := by
  intro y hy
  simp only [after, List.cons_append, List.mem_cons, List.mem_append] at hy
  rcases hy with rfl | hy | hy
  case inl     => exact ⟨e, hx, he⟩
  case inr.inl =>
    obtain ⟨a, hxa, b, hyb, hab⟩ := hr y hy
    obtain rfl := Option.some.inj <| hx.symm.trans hxa
    exact ⟨b, hyb, he.trans hab⟩
  case inr.inr => exact ha y hy

theorem under_right (hx : s.dataOf x = some e) (he : rank e < rank elm) (hl : ∀ y ∈ inorder l, s.Less rank y x)
    (hb : ∀ y ∈ before fs, s.Under rank (rank elm) y) : ∀ y ∈ before (.right x l :: fs), s.Under rank (rank elm) y := by
  intro y hy
  simp only [before, List.mem_append, List.mem_singleton] at hy
  rcases hy with hy | hy | rfl
  case inl     => exact hb y hy
  case inr.inl =>
    obtain ⟨a, hya, b, hxb, hab⟩ := hl y hy
    obtain rfl := Option.some.inj <| hx.symm.trans hxb
    exact ⟨a, hya, hab.trans he⟩
  case inr.inr => exact ⟨e, hx, he⟩

-- The loop ends at an equal element, or between the smaller ones and the greater ones.
theorem search_eq (hc : Compares cmp rank) (elm : E) (hw : Way s.links s.root none fs p q) (h : Rep s.links p q t)
    (hs : (inorder t).Pairwise (s.Less rank)) (hf : t.height < fuel)
    (hb : ∀ x ∈ before fs, s.Under rank (rank elm) x) (ha : ∀ x ∈ after fs, s.Over rank (rank elm) x)
    (hside : ∀ f ∈ fs.head?, (if k < 0 then Side.left else .right) = f.side) :
    (∃ x ∈ inorder t, ∃ a c, s.dataOf x = some a ∧ rank a = rank elm ∧
      s.search cmp elm fuel q k p = some (some x, c, some x)) ∨
    ∃ fs' c, s.search cmp elm fuel q k p = some (fs'.head?.map Frame.node, c, none) ∧ plug fs t = plug fs' .nil ∧
      (∀ x ∈ before fs', s.Under rank (rank elm) x) ∧ (∀ x ∈ after fs', s.Over rank (rank elm) x) ∧
        ∀ f ∈ fs'.head?, (if c < 0 then Side.left else .right) = f.side := by
  induction t generalizing p q fs fuel k <;> cases fuel
  case nil.succ =>
    obtain rfl := h
    refine .inr ⟨fs, k, ?_, rfl, hb, ha, hside⟩
    rw [search, hw.parent_eq_head]
  case node.succ x l r hil hir fuel =>
    obtain ⟨rfl, pl, pr, hx, hl, hr⟩ := h
    obtain ⟨e, hd, he⟩ := exists_data hx
    rw [inorder, List.pairwise_append, List.pairwise_cons] at hs
    obtain ⟨hsl, ⟨hxr, hsr⟩, hlx⟩ := hs
    rw [BinaryTree.height] at hf
    rcases lt_trichotomy (rank elm) (rank e) with hlt | heq | hgt
    case inl =>
      have hn := (hc.neg elm e).mpr hlt
      have hw' : Way s.links s.root none (.left x r :: fs) pl (some x) := ⟨rfl, pr, q, hx, hr, hw⟩
      have ha' := over_left hd hlt hxr ha
      have hs' := hil (k := cmp elm e) hw' hl hsl (by omega : l.height < fuel) hb ha' (by simp [hn, Frame.side])
      have hstep : s.search cmp elm (fuel + 1) q k (some x) = s.search cmp elm fuel (some x) (cmp elm e) pl := by
        simp [search, he, hn]
      rw [hstep]
      rcases hs' with ⟨y, hy, hs'⟩ | ⟨fs', c, hs', heq, hs''⟩
      case inl => exact .inl ⟨y, by simp [inorder, hy], hs'⟩
      case inr => exact .inr ⟨fs', c, hs', heq, hs''⟩
    case inr.inl =>
      have hz := (hc.zero elm e).mpr heq
      exact .inl ⟨x, by simp [inorder], e, 0, hd, heq.symm, by simp [search, he, hz]⟩
    case inr.inr =>
      have hp := (hc.pos elm e).mpr hgt
      have hn : ¬cmp elm e < 0 := by omega
      have hw' : Way s.links s.root none (.right x l :: fs) pr (some x) := ⟨rfl, pl, q, hx, hl, hw⟩
      have hb' := under_right hd hgt (fun y hy => hlx y hy x List.mem_cons_self) hb
      have hs' := hir (k := cmp elm e) hw' hr hsr (by omega : r.height < fuel) hb' ha (by simp [hn, Frame.side])
      have hstep : s.search cmp elm (fuel + 1) q k (some x) = s.search cmp elm fuel (some x) (cmp elm e) pr := by
        simp [search, he, hn, hp]
      rw [hstep]
      rcases hs' with ⟨y, hy, hs'⟩ | ⟨fs', c, hs', heq, hs''⟩
      case inl => exact .inl ⟨y, by simp [inorder, hy], hs'⟩
      case inr => exact .inr ⟨fs', c, hs', heq, hs''⟩
  all_goals cases hf

-- The elements with their data, in the order of their ranks.
structure Holds (rank : E → L) (s : Head E) (es : List (Addr × E)) (t : BinaryTree Addr) : Prop where
  represents : s.Represents t
  balanced   : ∃ n, Balanced s.colorOf t .black n
  keys       : inorder t = es.map Prod.fst
  data       : ∀ e ∈ es, s.dataOf e.fst = some e.snd
  sorted     : es.Pairwise fun a b => rank a.snd < rank b.snd

theorem height_le_length (t : BinaryTree Addr) : t.height ≤ (inorder t).length := by
  induction t
  case nil => simp
  case node x l r hl hr =>
    rw [BinaryTree.height, inorder, List.length_append, List.length_cons]
    omega

namespace Holds

theorem less (h : s.Holds rank es t) : (inorder t).Pairwise (s.Less rank) := by
  rw [h.keys, List.pairwise_map]
  exact h.sorted.imp_of_mem fun ha hb hlt => ⟨_, h.data _ ha, _, h.data _ hb, hlt⟩

theorem height_lt_size (h : s.Holds rank es t) : t.height < s.size :=
  (height_le_length t).trans_lt h.represents.length_lt_size

theorem search (h : s.Holds rank es t) (hc : Compares cmp rank) (elm : E) (hf : t.height < fuel) :
    (∃ xs e ys c, es = xs ++ e :: ys ∧ rank e.snd = rank elm ∧
      s.search cmp elm fuel none 0 s.root = some (some e.fst, c, some e.fst)) ∨
    ∃ fs c xs ys, s.search cmp elm fuel none 0 s.root = some (fs.head?.map Frame.node, c, none) ∧
      t = plug fs .nil ∧ es = xs ++ ys ∧ before fs = xs.map Prod.fst ∧ after fs = ys.map Prod.fst ∧
        (∀ e ∈ xs, rank e.snd < rank elm) ∧ (∀ e ∈ ys, rank elm < rank e.snd) ∧
          ∀ f ∈ fs.head?, (if c < 0 then Side.left else .right) = f.side := by
  have hw : Way s.links s.root none [] s.root none := ⟨rfl, rfl⟩
  rcases search_eq (k := 0) hc elm hw h.represents.rep h.less hf (by simp [before]) (by simp [after]) (by simp) with
    ⟨x, hx, a, c, hd, hr, hs⟩ | ⟨fs, c, hs, rfl, hb, ha, hside⟩
  case inl =>
    rw [h.keys, List.mem_map] at hx
    obtain ⟨e, he, rfl⟩ := hx
    obtain ⟨xs, ys, rfl⟩ := List.append_of_mem he
    obtain rfl := Option.some.inj <| hd.symm.trans <| h.data e he
    exact .inl ⟨xs, e, ys, c, rfl, hr, hs⟩
  case inr =>
    have hk := h.keys
    rw [inorder_plug, inorder, List.append_nil] at hk
    obtain ⟨xs, ys, rfl, hxs, hys⟩ := List.map_eq_append_iff.mp hk.symm
    refine .inr ⟨fs, c, xs, ys, hs, rfl, rfl, hxs.symm, hys.symm, fun e he => ?_, fun e he => ?_, hside⟩
    case refine_1 =>
      obtain ⟨a, hd, hlt⟩ := hb e.fst (hxs ▸ List.mem_map_of_mem he)
      rwa [Option.some.inj <| (h.data e <| List.mem_append_left _ he).symm.trans hd]
    case refine_2 =>
      obtain ⟨a, hd, hlt⟩ := ha e.fst (hys ▸ List.mem_map_of_mem he)
      rwa [Option.some.inj <| (h.data e <| List.mem_append_right _ he).symm.trans hd]

end Holds

theorem insertSorted_between (hc : Compares cmp rank) {e : Addr × E} {xs ys : List (Addr × E)}
    (hx : ∀ a ∈ xs, rank a.snd < rank e.snd) (hy : ∀ a ∈ ys, rank e.snd < rank a.snd) :
    insertSorted cmp e (xs ++ ys) = xs ++ e :: ys := by
  induction xs
  case nil =>
    cases ys
    case nil       => rfl
    case cons a ys => simp [insertSorted, (hc.neg e.snd a.snd).mpr <| hy a List.mem_cons_self]
  case cons a xs hi =>
    have hp := (hc.pos e.snd a.snd).mpr <| hx a List.mem_cons_self
    have hn : ¬cmp e.snd a.snd < 0 := by omega
    rw [List.cons_append, insertSorted, if_neg hn, if_pos hp, hi fun a ha => hx a <| List.mem_cons_of_mem _ ha,
      List.cons_append]

theorem insertSorted_equal (hc : Compares cmp rank) {e a : Addr × E} {xs ys : List (Addr × E)}
    (hx : ∀ b ∈ xs, rank b.snd < rank e.snd) (he : rank a.snd = rank e.snd) :
    insertSorted cmp e (xs ++ a :: ys) = xs ++ a :: ys := by
  induction xs
  case nil =>
    have hz := (hc.zero e.snd a.snd).mpr he.symm
    simp [insertSorted, hz]
  case cons b xs hi =>
    have hp := (hc.pos e.snd b.snd).mpr <| hx b List.mem_cons_self
    have hn : ¬cmp e.snd b.snd < 0 := by omega
    rw [List.cons_append, insertSorted, if_neg hn, if_pos hp, hi fun a ha => hx a <| List.mem_cons_of_mem _ ha]

theorem findEqual_none (hc : Compares cmp rank) (h : ∀ a ∈ es, rank a.snd ≠ rank elm) :
    findEqual cmp elm es = none := by
  simp only [findEqual, Option.map_eq_none_iff, List.find?_eq_none, decide_eq_true_eq]
  exact fun a ha hz => h a ha ((hc.zero elm a.snd).mp hz).symm

theorem findEqual_some (hc : Compares cmp rank) {a : Addr × E} {xs ys : List (Addr × E)}
    (hx : ∀ b ∈ xs, rank b.snd ≠ rank elm) (he : rank a.snd = rank elm) :
    findEqual cmp elm (xs ++ a :: ys) = some a.fst := by
  have hz := (hc.zero elm a.snd).mpr he.symm
  have hn : xs.find? (cmp elm ·.snd = 0) = none := by
    simp only [List.find?_eq_none, decide_eq_true_eq]
    exact fun b hb hz => hx b hb ((hc.zero elm b.snd).mp hz).symm
  simp [findEqual, List.find?_append, hn, hz]

namespace Holds

theorem find (h : s.Holds rank es t) (hc : Compares cmp rank) (elm : E) :
    s.find cmp elm = some (findEqual cmp elm es) := by
  rcases h.search hc elm h.height_lt_size with
    ⟨xs, e, ys, c, rfl, hr, hs⟩ | ⟨fs, c, xs, ys, hs, -, rfl, -, -, hx, hy, -⟩
  case inl =>
    have hsorted := List.pairwise_append.mp h.sorted
    rw [findEqual_some hc (fun b hb => ?_) hr]
    case _ => simp [Head.find, hs]
    case _ => exact (hr ▸ hsorted.right.right b hb e List.mem_cons_self).ne
  case inr =>
    rw [findEqual_none hc fun a ha => ?_]
    case _ => simp [Head.find, hs]
    case _ =>
      rcases List.mem_append.mp ha with ha | ha
      case inl => exact (hx a ha).ne
      case inr => exact (hy a ha).ne'

-- What a program writes before it inserts an element does not concern the tree.
theorem write (h : s.Holds rank es t) (hx : x ∉ es.map Prod.fst) (n : Element E) :
    Holds rank { s with mem := s.mem.insert x n } es t ∧
      element { s with mem := s.mem.insert x n } = Function.update s.element x (some n) := by
  have he : element { s with mem := s.mem.insert x n } = Function.update s.element x (some n) := element_insert
  have hne {y} (hy : y ∈ inorder t) : y ≠ x := by
    rintro rfl
    exact hx (h.keys ▸ hy)
  obtain ⟨m, hb⟩ := h.balanced
  refine ⟨⟨⟨h.represents.rep.congr fun y hy => ?_, h.represents.nodup⟩, ⟨m, hb.congr fun y hy => ?_⟩, h.keys,
    fun a ha => ?_, h.sorted⟩, he⟩
  case refine_1 => rw [links, he, Function.update_of_ne (hne hy), links]
  case refine_2 => rw [colorOf, he, Function.update_of_ne (hne hy), colorOf]
  case refine_3 =>
    have ha' : a.fst ∈ inorder t := h.keys ▸ List.mem_map_of_mem ha
    rw [dataOf, he, Function.update_of_ne (hne ha'), ← h.data a ha, dataOf]

-- The new element is a leaf before the colours are repaired.
theorem exists_leaf {c : Int} (h : s.Holds rank es (plug fs .nil)) (hx : x ∉ es.map Prod.fst)
    (hn : s.element x = some n)
    (hside : ∀ f ∈ fs.head?, (if c < 0 then Side.left else .right) = f.side) :
    ∃ s₁ s₂, s.update x (fun n => ⟨n.data, none, none, fs.head?.map Frame.node, .red⟩) = some s₁ ∧
      s₁.attach (fs.head?.map Frame.node) c x = some s₂ ∧ s₂.Represents (plug fs (join .left x .nil .nil)) ∧
        s₂.colorOf = Function.update s.colorOf x .red ∧ s₂.dataOf = s.dataOf := by
  have hxt : x ∉ inorder (plug fs .nil) := h.keys ▸ hx
  have hxf : x ∉ before fs ++ after fs := fun hm => hxt (perm_plug.mem_iff.mpr <| List.mem_append_right _ hm)
  have hxl : s.links x = some (Element.links n) := by rw [links, hn, Option.map_some]
  obtain ⟨_, hnf, _⟩ := nodup_plug h.represents.nodup
  have hnodup : (inorder (plug fs (join .left x .nil .nil))).Nodup := by
    rw [inorder_plug, join, inorder, inorder, List.nil_append, List.append_assoc]
    exact List.nodup_middle.mpr <| List.nodup_cons.mpr ⟨hxf, hnf⟩
  obtain ⟨hw, _⟩ := h.represents.way
  obtain ⟨s₁, hs₁, hr₁, hl₁, hx₁, hc₁, hd₁⟩ := exists_overwrite (s := s) (x := x)
    (g := ⟨none, none, fs.head?.map Frame.node⟩) (c := .red)
    (f := fun n => ⟨n.data, none, none, fs.head?.map Frame.node, .red⟩) hxl (fun _ => rfl) (fun _ => rfl) fun _ => rfl
  have hw₁ : Way s₁.links s₁.root none fs none (fs.head?.map Frame.node) := by
    rw [hr₁]
    refine hw.congr fun y hy => hl₁ y ?_
    rintro rfl
    exact hxf hy
  cases fs with
  | nil =>
    exact ⟨s₁, { s₁ with root := some x }, hs₁, rfl, ⟨⟨rfl, none, none, hx₁, rfl, rfl⟩, hnodup⟩, hc₁, hd₁⟩
  | cons f fs =>
    obtain ⟨_, nf, hf, hp, hb, hw'⟩ := Way.cons_iff.mp hw₁
    obtain ⟨s₂, hs₂, hr₂, ha₂, hl₂⟩ := exists_setChild (d := f.side) (p := some x) hf
    have hfx : x ≠ f.node := by
      rintro rfl
      exact hxf (perm.mem_iff.mpr List.mem_cons_self)
    have hw₂ : Way s₂.links s₂.root none (f :: fs) (some x) (some f.node) := by
      rw [hr₂]
      refine hw₁.setChild hnf (fun m hm => ?_) fun y _ hy => ha₂.links y (by simpa using hy)
      obtain rfl := Option.some.inj <| hf.symm.trans hm
      rw [hl₂, setChild_eq]
    refine ⟨s₁, s₂, hs₁, ?_, ⟨Rep.plug_iff.mpr ⟨_, _, hw₂, ?_⟩, hnodup⟩, ?_, ?_⟩
    case refine_1 => simp [attach, hside f rfl, hs₂]
    case refine_2 => exact ⟨rfl, none, none, (ha₂.links x (by simpa using hfx)).trans hx₁, rfl, rfl⟩
    case refine_3 => rw [ha₂.colorOf, hc₁]
    case refine_4 => rw [ha₂.dataOf, hd₁]

theorem insert (h : s.Holds rank es t) (hc : Compares cmp rank) (hx : x ∉ es.map Prod.fst) (n : Element E) :
    ∃ s' t', Head.insert cmp { s with mem := s.mem.insert x n } x = some (s', findEqual cmp n.data es) ∧
      s'.Holds rank (insertSorted cmp (x, n.data) es) t' := by
  obtain ⟨h, he⟩ := h.write hx n
  generalize ({ s with mem := s.mem.insert x n } : Head E) = s₀ at h he ⊢
  have hn : s₀.element x = some n := by rw [he, Function.update_self]
  rcases h.search hc n.data h.height_lt_size with
    ⟨xs, a, ys, c, rfl, hr, hs⟩ | ⟨fs, c, xs, ys, hs, rfl, rfl, hxs, hys, hlt, hgt, hside⟩
  case inl =>
    have hlt b (hb : b ∈ xs) : rank b.snd < rank n.data :=
      hr ▸ (List.pairwise_append.mp h.sorted).right.right b hb a List.mem_cons_self
    refine ⟨s₀, t, ?_, ?_⟩
    case refine_1 => simp [Head.insert, hn, hs, findEqual_some hc (fun b hb => (hlt b hb).ne) hr]
    case refine_2 =>
      rw [insertSorted_equal hc hlt hr]
      exact h
  case inr =>
    have hfind : findEqual cmp n.data (xs ++ ys) = none := by
      refine findEqual_none hc fun a ha => ?_
      rcases List.mem_append.mp ha with ha | ha
      case inl => exact (hlt a ha).ne
      case inr => exact (hgt a ha).ne'
    obtain ⟨s₁, s₂, hs₁, hs₂, h₂, hc₂, hd₂⟩ := h.exists_leaf hx hn hside
    obtain ⟨k, hb⟩ := h.balanced
    obtain ⟨c', m, hf, hbn⟩ := Fits.of_plug hb
    cases hbn
    have hxf : x ∉ before fs ++ after fs := by
      rw [hxs, hys, ← List.map_append]
      exact hx
    have hf₂ : Fits s₂.colorOf fs .black 0 := by
      refine hf.congr fun y hy => ?_
      rw [hc₂, Function.update_of_ne]
      rintro rfl
      exact hxf hy
    have hlen := h₂.length_lt_size
    have hfs := length_frames fs
    rw [perm_plug.length_eq, List.length_append, perm_join.length_eq, List.length_cons] at hlen
    obtain ⟨s', t', m, hs', h', hi', hd', hb'⟩ := exists_insertColor h₂ (by rw [hc₂, Function.update_self]) .nil .nil
      hf₂ (by omega : fs.length < s₂.size)
    refine ⟨s', t', ?_, h', ⟨m, hb'⟩, ?_, fun a ha => ?_, ?_⟩
    case refine_1 =>
      rw [hfind]
      simp [Head.insert, hn, hs, hs₁, hs₂, hs']
    case refine_2 =>
      rw [hi', insertSorted_between hc hlt hgt, inorder_plug, hxs, hys]
      simp [join, inorder]
    case refine_3 =>
      rw [hd', hd₂]
      rw [insertSorted_between hc hlt hgt, List.mem_append, List.mem_cons] at ha
      rcases ha with ha | rfl | ha
      case inl     => exact h.data a <| List.mem_append_left _ ha
      case inr.inl => rw [dataOf, hn, Option.map_some]
      case inr.inr => exact h.data a <| List.mem_append_right _ ha
    case refine_4 =>
      obtain ⟨hsx, hsy, hxy⟩ := List.pairwise_append.mp h.sorted
      rw [insertSorted_between hc hlt hgt]
      refine List.pairwise_append.mpr ⟨hsx, List.pairwise_cons.mpr ⟨hgt, hsy⟩, fun a ha b hb => ?_⟩
      rcases List.mem_cons.mp hb with rfl | hb
      case inl => exact hlt a ha
      case inr => exact hxy a ha b hb

-- An element of the tree, and what is around it.
theorem split (h : s.Holds rank es t) {xs ys : List (Addr × E)} {e : Addr × E} (he : es = xs ++ e :: ys) :
    ∃ fs l r, t = plug fs (.node e.fst l r) ∧ xs.map Prod.fst = before fs ++ inorder l ∧
      ys.map Prod.fst = inorder r ++ after fs := by
  have hk : inorder t = xs.map Prod.fst ++ e.fst :: ys.map Prod.fst := by simp [h.keys, he]
  obtain ⟨fs, l, r, rfl⟩ := exists_plug (t := t) (x := e.fst) (by simp [hk])
  have hi : xs.map Prod.fst ++ e.fst :: ys.map Prod.fst =
      (before fs ++ inorder l) ++ e.fst :: (inorder r ++ after fs) := by
    rw [← hk, inorder_plug, inorder]
    simp
  have hm := (List.nodup_cons.mp <| List.nodup_middle.mp <| hk ▸ h.represents.nodup).left
  obtain ⟨hl, _, hr⟩ := List.append_cons_inj_of_notMem (fun hx => hm <| List.mem_append_left _ hx)
    (fun hx => hm <| List.mem_append_right _ hx) |>.mp hi
  exact ⟨fs, l, r, rfl, hl, hr⟩

theorem remove (h : s.Holds rank es t) {e : Addr × E} (he : e ∈ es) :
    ∃ s' t', s.remove e.fst = some s' ∧ s'.Holds rank (es.filter (·.fst ≠ e.fst)) t' := by
  obtain ⟨xs, ys, rfl⟩ := List.append_of_mem he
  obtain ⟨fs, l, r, rfl, hxs, hys⟩ := h.split rfl
  obtain ⟨n, hb⟩ := h.balanced
  obtain ⟨s', t', m, hs, h', hi, hd, hb'⟩ := exists_remove h.represents hb
  have hn := h.represents.nodup
  rw [h.keys, List.map_append, List.map_cons, List.nodup_middle, List.nodup_cons, List.mem_append, not_or] at hn
  have hf : (xs ++ e :: ys).filter (·.fst ≠ e.fst) = xs ++ ys := by
    have hx : xs.filter (·.fst ≠ e.fst) = xs := by
      refine List.filter_eq_self.mpr fun a ha => decide_eq_true fun heq => hn.left.left ?_
      exact heq ▸ List.mem_map_of_mem ha
    have hy : ys.filter (·.fst ≠ e.fst) = ys := by
      refine List.filter_eq_self.mpr fun a ha => decide_eq_true fun heq => hn.left.right ?_
      exact heq ▸ List.mem_map_of_mem ha
    rw [List.filter_append, hx, List.filter_cons_of_neg (by simp), hy]
  rw [hf]
  refine ⟨s', t', hs, h', ⟨m, hb'⟩, ?_, fun a ha => ?_, h.sorted.sublist ?_⟩
  case refine_1 => rw [hi, List.map_append, hxs, hys]; simp
  case refine_2 =>
    rw [hd]
    refine h.data a ?_
    rcases List.mem_append.mp ha with ha | ha
    case inl => exact List.mem_append_left _ ha
    case inr => exact List.mem_append_right _ <| List.mem_cons_of_mem _ ha
  case refine_3 => exact List.Sublist.append_left (List.sublist_cons_self _ _) _

end Holds

end Head

end RbTree

import Mathlib.Logic.Equiv.Basic
import Mathlib.Order.Lattice
import Mathlib.Order.Nat

-- Binary heaps are sequences that do not decrease from a parent to its children. Here a sequence is
-- a function of the index, of which the values below a size matter, and entries are moved by swapping.
namespace Heap

def parent (k : Nat) : Nat :=
  (k - 1) / 2

theorem parent_lt (h : 0 < k) : parent k < k := by
  unfold parent
  omega

theorem parent_ne_iff : parent k ≠ k ↔ 0 < k := by
  unfold parent
  omega

variable {β : Type} [LinearOrder β]

def up (f : Nat → β) (j : Nat) : Nat → β :=
  if parent j = j ∨ f (parent j) ≤ f j then
    f
  else
    up (f ∘ Equiv.swap (parent j) j) (parent j)
termination_by j
decreasing_by exact parent_lt <| parent_ne_iff.mp <| not_or.mp ‹_› |>.left

-- The smaller child, which is the right one if they are equal.
def child (f : Nat → β) (i n : Nat) : Nat :=
  if 2 * i + 2 < n ∧ f (2 * i + 2) ≤ f (2 * i + 1) then 2 * i + 2 else 2 * i + 1

section

variable (f : Nat → β) (i n : Nat)

theorem parent_child : parent (child f i n) = i := by
  unfold child parent
  split <;> omega

theorem lt_child : i < child f i n := by
  unfold child
  split <;> omega

variable {f i n}

theorem child_lt (h : 2 * i + 1 < n) : child f i n < n := by
  unfold child
  split <;> omega

theorem child_le (hk : k < n) (h₀ : 0 < k) (h : parent k = i) : f (child f i n) ≤ f k := by
  have hk : k = 2 * i + 1 ∨ k = 2 * i + 2 := by
    unfold parent at h
    omega
  unfold child
  rcases hk with rfl | rfl
  case inl =>
    split
    case isTrue hr => exact hr.right
    case isFalse   => exact le_refl _
  case inr =>
    split
    case isTrue    => exact le_refl _
    case isFalse hr => exact le_of_not_ge fun hle => hr ⟨hk, hle⟩

end

def down (f : Nat → β) (i n : Nat) : Nat → β :=
  if n ≤ 2 * i + 1 ∨ f i ≤ f (child f i n) then
    f
  else
    down (f ∘ Equiv.swap i (child f i n)) (child f i n) n
termination_by n - i
decreasing_by
  have hl := lt_child f i n
  omega

def Ordered (f : Nat → β) (n : Nat) : Prop :=
  ∀ k < n, 0 < k → f (parent k) ≤ f k

-- The value at an index may be anything, and could be replaced by those of the children.
structure Hole (f : Nat → β) (n i : Nat) : Prop where
  around  : ∀ k < n, 0 < k → k ≠ i → parent k ≠ i → f (parent k) ≤ f k
  through : ∀ k < n, 0 < k → parent k = i → 0 < i → f (parent i) ≤ f k

-- The value at an index is at most those of its children, and may be too small.
structure UpReady (f : Nat → β) (n j : Nat) : Prop extends Hole f n j where
  below : ∀ k < n, 0 < k → parent k = j → f j ≤ f k

-- The value at an index is at least that of its parent, and may be too large.
structure DownReady (f : Nat → β) (n i : Nat) : Prop extends Hole f n i where
  above : 0 < i → f (parent i) ≤ f i

variable {f g : Nat → β}

namespace Ordered

theorem root_le (h : Ordered f n) (hk : k < n) : f 0 ≤ f k := by
  induction k using Nat.strongRecOn
  case _ k hi =>
    rcases Nat.eq_zero_or_pos k with rfl | h₀
    case inl => exact le_refl _
    case inr =>
      have hp := parent_lt h₀
      exact (hi _ hp <| hp.trans hk).trans <| h k hk h₀

theorem congr (h : Ordered f n) (hf : ∀ k < n, g k = f k) : Ordered g n := by
  intro k hk h₀
  rw [hf k hk, hf _ <| (parent_lt h₀).trans hk]
  exact h k hk h₀

theorem hole (h : Ordered f n) (hi : i < n) : Hole f n i where
  around k hk h₀ _ _      := h k hk h₀
  through k hk h₀ hp hi₀ := (h i hi hi₀).trans <| hp ▸ h k hk h₀

theorem empty : Ordered f 0 :=
  nofun

-- Any value may be put at the end.
theorem snoc (h : Ordered f n) (hf : ∀ k < n, g k = f k) : UpReady g (n + 1) n where
  around k hk h₀ hne _ := h.congr hf k (by omega) h₀
  through k hk h₀ hp _ := by
    have hl := parent_lt h₀
    omega
  below k hk h₀ hp     := by
    have hl := parent_lt h₀
    omega

theorem upReady (h : Ordered f n) (hi : i < n) : UpReady f n i where
  toHole           := h.hole hi
  below k hk h₀ hp := hp ▸ h k hk h₀

end Ordered

namespace Hole

theorem mono (h : Hole f n i) (hm : m ≤ n) : Hole f m i where
  around k hk  := h.around k <| hk.trans_le hm
  through k hk := h.through k <| hk.trans_le hm

theorem congr (h : Hole f n i) (hf : ∀ k < n, k ≠ i → g k = f k) : Hole g n i where
  around k hk h₀ hne hp := by
    rw [hf k hk hne, hf _ ((parent_lt h₀).trans hk) hp]
    exact h.around k hk h₀ hne hp
  through k hk h₀ hp hi₀ := by
    have hik : i < k := hp ▸ parent_lt h₀
    rw [hf k hk (Nat.ne_of_gt hik), hf _ ((parent_lt hi₀).trans <| hik.trans hk) <| parent_ne_iff.mpr hi₀]
    exact h.through k hk h₀ hp hi₀

-- The smaller child takes the place of its parent.
theorem swap (h : Hole f n i) (hc : child f i n < n) (hlt : f (child f i n) < f i) :
    DownReady (f ∘ Equiv.swap i (child f i n)) n (child f i n) := by
  have hp := parent_child f i n
  have hl := lt_child f i n
  have hle {k} (hk : k < n) (h₀ : 0 < k) (hp : parent k = i) := child_le (f := f) hk h₀ hp
  generalize child f i n = c at *
  have at_i : (f ∘ Equiv.swap i c) i = f c := by simp
  have at_c : (f ∘ Equiv.swap i c) c = f i := by simp
  have at_k {k} (hi : k ≠ i) (hc : k ≠ c) : (f ∘ Equiv.swap i c) k = f k := by
    simp [Equiv.swap_apply_of_ne_of_ne hi hc]
  constructor
  case toHole =>
    constructor
    case around =>
      intro k hk h₀ hkc hpc
      by_cases hki : k = i
      case pos =>
        subst hki
        rw [at_i, at_k (parent_ne_iff.mpr h₀) hpc]
        exact h.through c hc (by omega) hp h₀
      case neg =>
        rw [at_k hki hkc]
        by_cases hpi : parent k = i
        case pos => rw [hpi, at_i]; exact hle hk h₀ hpi
        case neg => rw [at_k hpi hpc]; exact h.around k hk h₀ hki hpi
    case through =>
      intro k hk h₀ hpk _
      have hkl : c < k := hpk ▸ parent_lt h₀
      rw [hp, at_i, at_k (by omega) (by omega), ← hpk]
      exact h.around k hk h₀ (by omega) (by omega)
  case above =>
    intro _
    rw [hp, at_i, at_c]
    exact le_of_lt hlt

end Hole

theorem UpReady.ordered (h : UpReady f n j) (hp : 0 < j → f (parent j) ≤ f j) : Ordered f n := by
  intro k hk h₀
  by_cases hkj : k = j
  case pos => exact hkj ▸ hp (hkj ▸ h₀)
  case neg =>
    by_cases hpj : parent k = j
    case pos => exact hpj ▸ h.below k hk h₀ hpj
    case neg => exact h.around k hk h₀ hkj hpj

-- A value that is smaller than that of its parent takes its place.
theorem UpReady.swap (h : UpReady f n j) (hj : j < n) (h₀ : 0 < j) (hlt : f j < f (parent j)) :
    UpReady (f ∘ Equiv.swap (parent j) j) n (parent j) := by
  have hp := parent_lt h₀
  generalize hpj : parent j = p at *
  have at_p : (f ∘ Equiv.swap p j) p = f j := by simp
  have at_j : (f ∘ Equiv.swap p j) j = f p := by simp
  have at_k {k} (hi : k ≠ p) (hj : k ≠ j) : (f ∘ Equiv.swap p j) k = f k := by
    simp [Equiv.swap_apply_of_ne_of_ne hi hj]
  have above (hp₀ : 0 < p) : f (parent p) ≤ f p :=
    h.around p (hp.trans hj) hp₀ (by omega) (by have hpp := parent_lt hp₀; omega)
  have sibling {k} (hk : k < n) (hk₀ : 0 < k) (hkj : k ≠ j) (hkp : parent k = p) : f p ≤ f k :=
    hkp ▸ h.around k hk hk₀ hkj (by omega)
  constructor
  case toHole =>
    constructor
    case around =>
      intro k hk hk₀ hkp hpp
      by_cases hkj : k = j
      case pos => exact absurd (hkj ▸ hpj) hpp
      case neg =>
        rw [at_k hkp hkj]
        by_cases hkj' : parent k = j
        case pos => rw [hkj', at_j]; exact hpj ▸ h.through k hk hk₀ hkj' h₀
        case neg => rw [at_k hpp hkj']; exact h.around k hk hk₀ hkj hkj'
    case through =>
      intro k hk hk₀ hkp hp₀
      have hpp := parent_lt hp₀
      rw [at_k (by omega) (by omega)]
      by_cases hkj : k = j
      case pos => rw [hkj, at_j]; exact above hp₀
      case neg =>
        have hlk : p < k := hkp ▸ parent_lt hk₀
        rw [at_k (by omega) hkj]
        exact (above hp₀).trans <| sibling hk hk₀ hkj hkp
  case below =>
    intro k hk hk₀ hkp
    rw [at_p]
    by_cases hkj : k = j
    case pos => rw [hkj, at_j]; exact le_of_lt hlt
    case neg =>
      have hlk : p < k := hkp ▸ parent_lt hk₀
      rw [at_k (by omega) hkj]
      exact (le_of_lt hlt).trans <| sibling hk hk₀ hkj hkp

theorem UpReady.up (h : UpReady f n j) (hj : j < n) : Ordered (up f j) n := by
  fun_induction Heap.up f j
  case case1 hs    => exact h.ordered fun h₀ => hs.resolve_left <| parent_ne_iff.mpr h₀
  case case2 hs hi =>
    have ⟨hne, hlt⟩ := not_or.mp hs
    have h₀ := parent_ne_iff.mp hne
    exact hi (h.swap hj h₀ <| not_le.mp hlt) <| (parent_lt h₀).trans hj

theorem Hole.of_stop (h : Hole f n i) (hs : n ≤ 2 * i + 1 ∨ f i ≤ f (child f i n)) : UpReady f n i where
  toHole           := h
  below k hk h₀ hp := by
    have hk' : 2 * i + 1 ≤ k := by
      unfold parent at hp
      omega
    exact (hs.resolve_left <| by omega).trans <| child_le hk h₀ hp

theorem DownReady.down (h : DownReady f n i) : Ordered (down f i n) n := by
  fun_induction Heap.down f i n
  case case1 hs    => exact (h.of_stop hs).ordered h.above
  case case2 hs hi =>
    have ⟨hn, hlt⟩ := not_or.mp hs
    exact hi <| h.swap (child_lt <| not_le.mp hn) <| not_le.mp hlt

-- A value that has been put into a heap is moved down or up.
theorem Hole.down (h : Hole f n i) (hi : i < n) : UpReady (down f i n) n i := by
  rw [Heap.down]
  split
  case isTrue hs  => exact h.of_stop hs
  case isFalse hs =>
    have ⟨hn, hlt⟩ := not_or.mp hs
    exact (h.swap (child_lt <| not_le.mp hn) <| not_le.mp hlt).down.upReady hi

end Heap

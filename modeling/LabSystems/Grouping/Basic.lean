import Mathlib.Data.List.AList
import Mathlib.Data.List.Sort

-- Lists of records which are grouped by a key: the values of a key, tables that are filled record by
-- record, and keys in increasing order.
namespace Grouping

section Order

variable {κ ρ : Type} [LinearOrder ρ] {rank : κ → ρ} {ks : List κ} {k : κ}

def sortBy (rank : κ → ρ) (ks : List κ) : List κ :=
  ks.insertionSort (rank · ≤ rank ·)

theorem perm_sortBy : (sortBy rank ks).Perm ks :=
  ks.perm_insertionSort _

theorem mem_sortBy : k ∈ sortBy rank ks ↔ k ∈ ks :=
  perm_sortBy.mem_iff

theorem pairwise_sortBy (hr : rank.Injective) (hn : ks.Nodup) : (sortBy rank ks).Pairwise (rank · < rank ·) := by
  have : Std.Total (α := κ) (rank · ≤ rank ·) := ⟨fun _ _ => le_total ..⟩
  have : IsTrans κ (rank · ≤ rank ·) := ⟨fun _ _ _ => le_trans⟩
  have hs : (sortBy rank ks).Pairwise (rank · ≤ rank ·) := ks.pairwise_insertionSort _
  have hd : (sortBy rank ks).Pairwise (· ≠ ·) := perm_sortBy.nodup_iff.mpr hn
  exact (hs.and hd).imp fun ⟨hl, hn⟩ => lt_of_le_of_ne hl <| hr.ne hn

-- The sorted list depends only on which keys there are.
theorem sortBy_congr {ks' : List κ} (hr : rank.Injective) (hn : ks.Nodup) (hn' : ks'.Nodup) (h : ∀ k, k ∈ ks ↔ k ∈ ks') :
    sortBy rank ks = sortBy rank ks' := by
  have hp : (sortBy rank ks).Perm (sortBy rank ks') :=
    perm_sortBy.trans <| ((List.perm_ext_iff_of_nodup hn hn').mpr h).trans perm_sortBy.symm
  exact hp.eq_of_pairwise (fun _ _ _ _ h h' => absurd h h'.asymm) (pairwise_sortBy hr hn) (pairwise_sortBy hr hn')

end Order

variable {α κ υ : Type} [DecidableEq κ] {key : α → κ} {value : α → υ} {l l' : List α} {k : κ}

def values (key : α → κ) (value : α → υ) (k : κ) (l : List α) : List υ :=
  l.filter (key · = k) |>.map value

theorem values_cons : values key value k (a :: l) = (if key a = k then [value a] else []) ++ values key value k l := by
  by_cases h : key a = k
  case pos => simp [values, h]
  case neg => simp [values, h]

-- Only records with other keys are left out.
theorem values_filter {p : α → Bool} (h : ∀ a, key a = k → p a) : values key value k (l.filter p) = values key value k l := by
  simp only [values, List.filter_filter]
  congr 1
  refine List.filter_congr fun a _ => ?_
  by_cases ha : key a = k
  case pos => simp [ha, h a ha]
  case neg => simp [ha]

-- Filling a table with the lists of values.
theorem lookup_foldl_push {m : AList fun _ : κ => List υ} :
    ((l.foldl (fun m a => m.insert (key a) <| (m.lookup (key a)).getD [] ++ [value a]) m).lookup k).getD [] =
    (m.lookup k).getD [] ++ values key value k l := by
  induction l generalizing m
  case nil => simp [values]
  case cons a l hi =>
    rw [List.foldl_cons, hi, values_cons]
    by_cases h : key a = k
    case neg => simp [h, AList.lookup_insert_ne (Ne.symm h)]
    case pos =>
      subst h
      simp

theorem mem_foldl_insert {β : κ → Type} {f : AList β → (a : α) → β (key a)} {m : AList β} :
    k ∈ l.foldl (fun m a => m.insert (key a) (f m a)) m ↔ k ∈ m ∨ k ∈ l.map key := by
  induction l generalizing m
  case nil => simp
  case cons a l hi => rw [List.foldl_cons, hi, AList.mem_insert, List.map_cons, List.mem_cons]; tauto

-- Filling a table with values that depend on the keys only.
theorem lookup_foldl_insert {f : κ → υ} {m : AList fun _ : κ => υ} (hl : ∀ a ∈ l, value a = f (key a))
    (h : k ∈ m → m.lookup k = some (f k)) (hk : k ∈ m ∨ k ∈ l.map key) :
    (l.foldl (fun m a => m.insert (key a) (value a)) m).lookup k = some (f k) := by
  induction l generalizing m
  case nil => exact h <| by simpa using hk
  case cons a l hi =>
    have ⟨ha, hl⟩ := List.forall_mem_cons.mp hl
    rw [List.map_cons, List.mem_cons] at hk
    refine hi hl (fun hm => ?_) ?_
    · by_cases hka : k = key a
      case pos => rw [hka, AList.lookup_insert, ha]
      case neg =>
        rw [AList.mem_insert] at hm
        rw [AList.lookup_insert_ne hka]
        exact h <| hm.resolve_left hka
    · rw [AList.mem_insert]
      tauto

end Grouping

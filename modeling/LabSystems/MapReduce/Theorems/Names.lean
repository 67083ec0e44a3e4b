import LabSystems.Decimal.Order
import LabSystems.MapReduce.Jobs

-- The files of different jobs have different names.
namespace MapReduce

variable {f : String} {i i' r r' : Nat}

theorem toList_toString : (toString i).toList = Nat.toDigits 10 i :=
  String.toList_ofList

theorem toString_inj (h : (toString i).toList = (toString i').toList) : i = i' := by
  rw [toList_toString, toList_toString] at h
  have := congrArg (Decimal.value · 0) h
  simpa using this

theorem toString_digits {c : Char} (h : c ∈ (toString i).toList) : c.isDigit :=
  Decimal.isDigit_of_mem <| toList_toString ▸ h

theorem dash_not_mem : '-' ∉ (toString i).toList :=
  fun h => absurd (toString_digits h) <| by decide

theorem toList_mapName : (mapName f i).toList = "mrtmp.".toList ++ f.toList ++ '-' :: (toString i).toList := by
  simp [mapName, String.toList_append]

theorem toList_reduceName : (reduceName f i r).toList =
    "mrtmp.".toList ++ f.toList ++ '-' :: ((toString i).toList ++ '-' :: (toString r).toList) := by
  simp [reduceName, toList_mapName, String.toList_append]

theorem toList_mergeName : (mergeName f r).toList =
    "mrtmp.".toList ++ f.toList ++ '-' :: ("res".toList ++ '-' :: (toString r).toList) := by
  simp [mergeName, String.toList_append]

theorem reduceName_inj (h : reduceName f i r = reduceName f i' r') : i = i' ∧ r = r' := by
  have h := congrArg String.toList h
  rw [toList_reduceName, toList_reduceName, List.append_cancel_left_eq] at h
  have ⟨hi, hr⟩ := List.eq_of_append_cons dash_not_mem dash_not_mem (List.cons.inj h).right
  exact ⟨toString_inj hi, toString_inj hr⟩

theorem mergeName_inj (h : mergeName f r = mergeName f r') : r = r' := by
  have h := congrArg String.toList h
  rw [toList_mergeName, toList_mergeName, List.append_cancel_left_eq] at h
  exact toString_inj (List.eq_of_append_cons (by decide) (by decide) (List.cons.inj h).right).right

theorem mapName_ne_reduceName : mapName f i ≠ reduceName f i' r := by
  intro h
  have h := congrArg String.toList h
  rw [toList_mapName, toList_reduceName, List.append_cancel_left_eq] at h
  have hm : '-' ∈ (toString i).toList := by
    rw [(List.cons.inj h).right]
    exact List.mem_append_right _ List.mem_cons_self
  exact dash_not_mem hm

theorem mergeName_ne_reduceName : mergeName f r ≠ reduceName f i r' := by
  intro h
  have h := congrArg String.toList h
  rw [toList_mergeName, toList_reduceName, List.append_cancel_left_eq] at h
  have ⟨he, _⟩ := List.eq_of_append_cons (by decide) dash_not_mem (List.cons.inj h).right
  have hr := toString_digits (i := i) (he ▸ List.mem_cons_self : 'r' ∈ (toString i).toList)
  cases hr

end MapReduce

import LabSystems.RdsParser.Command
import LabSystems.RdsParser.Theorems.Phases

namespace RdsParser

open Ragel

-- A payload that is read up to some character.
def buffer (size : Nat) (w : Bytes) : List (Option UInt8) :=
  w.map some ++ List.replicate (size - w.length) none

theorem buffer_nil : buffer size [] = malloc size := by
  simp [buffer, malloc]

theorem length_buffer (h : w.length ≤ size) : (buffer size w).length = size := by
  simp only [buffer, List.length_append, List.length_map, List.length_replicate]
  omega

theorem set_buffer (h : w.length < size) : (buffer size w).set w.length (some c) = buffer size (w ++ [c]) := by
  have hs : size - w.length = size - (w ++ [c]).length + 1 := by
    simp only [List.length_append, List.length_singleton]
    omega
  rw [buffer, buffer, hs, List.set_append_right _ _ (by simp)]
  simp [List.replicate_succ]

-- The phase in which the machine has read a part of a payload that there was room for.
def Phase.ofPayload (w : Bytes) : Phase :=
  w.foldl add .opened

namespace Phase

@[simp]
theorem ofPayload_nil : ofPayload [] = .opened :=
  rfl

@[simp]
theorem ofPayload_snoc : ofPayload (w ++ [c]) = (ofPayload w).add c := by
  simp [ofPayload]

theorem add_ne_opened {φ : Phase} : φ.add c ≠ .opened := by
  cases φ <;> grind [add]

theorem add_eq_textCr {φ : Phase} (h : φ.add c = .textCr) : c = 13 ∧ φ ≠ .opened := by
  cases φ <;> grind [add]

theorem add_eq_textEnd {φ : Phase} (h : φ.add c = .textEnd) : φ = .textCr ∧ c = 10 := by
  cases φ <;> grind [add]

theorem add_eq_textDollar {φ : Phase} (h : φ.add c = .textDollar) : φ = .textEnd ∧ c = 36 := by
  cases φ <;> grind [add]

theorem ofPayload_eq_opened : ofPayload w = .opened ↔ w = [] := by
  rcases List.eq_nil_or_concat' w with rfl | ⟨w, c, rfl⟩
  case inl => simp
  case inr => simp [add_ne_opened]

theorem add_cr {φ : Phase} (h : φ ≠ .opened) : φ.add 13 = .textCr := by
  cases φ
  case opened => exact absurd rfl h
  all_goals rfl

theorem ofPayload_cr (h : u ≠ []) : ofPayload (u ++ [13]) = .textCr := by
  rw [ofPayload_snoc, add_cr <| ofPayload_eq_opened.not.mpr h]

theorem ofPayload_eol (h : u ≠ []) : ofPayload (u ++ eol) = .textEnd := by
  rw [eol, List.append_cons, ofPayload_snoc, ofPayload_cr h]
  rfl

theorem ofPayload_dollar (h : u ≠ []) : ofPayload (u ++ eol ++ [36]) = .textDollar := by
  rw [ofPayload_snoc, ofPayload_eol h]
  rfl

theorem ofPayload_eq_textCr (h : ofPayload w = .textCr) : ∃ u, u ≠ [] ∧ w = u ++ [13] := by
  rcases List.eq_nil_or_concat' w with rfl | ⟨u, c, rfl⟩
  case inl => cases h
  case inr =>
    obtain ⟨rfl, hu⟩ := add_eq_textCr <| ofPayload_snoc ▸ h
    exact ⟨u, ofPayload_eq_opened.not.mp hu, rfl⟩

theorem ofPayload_eq_textEnd (h : ofPayload w = .textEnd) : ∃ u, u ≠ [] ∧ w = u ++ eol := by
  rcases List.eq_nil_or_concat' w with rfl | ⟨u, c, rfl⟩
  case inl => cases h
  case inr =>
    obtain ⟨hu, rfl⟩ := add_eq_textEnd <| ofPayload_snoc ▸ h
    obtain ⟨v, hv, rfl⟩ := ofPayload_eq_textCr hu
    exact ⟨v, hv, by simp [eol]⟩

theorem ofPayload_eq_textDollar (h : ofPayload w = .textDollar) : ∃ u, u ≠ [] ∧ w = u ++ eol ++ [36] := by
  rcases List.eq_nil_or_concat' w with rfl | ⟨u, c, rfl⟩
  case inl => cases h
  case inr =>
    obtain ⟨hu, rfl⟩ := add_eq_textDollar <| ofPayload_snoc ▸ h
    obtain ⟨v, hv, rfl⟩ := ofPayload_eq_textEnd hu
    exact ⟨v, hv, rfl⟩

theorem ofPayload_cases (w : Bytes) : ofPayload w = .opened ∨ ofPayload w = .text ∨ ofPayload w = .textCr ∨
    ofPayload w = .textEnd ∨ ofPayload w = .textDollar := by
  rcases List.eq_nil_or_concat' w with rfl | ⟨u, c, rfl⟩
  case inl => simp
  case inr =>
    rw [ofPayload_snoc]
    cases ofPayload u <;> grind [add]

theorem next_ofPayload (h : ofPayload w ≠ .textDollar) : (ofPayload w).next true d =
    (if ofPayload (w ++ [d]) = .textDollar then [.argSizeReset, .argAddChar] else [.argAddChar], ofPayload (w ++ [d])) := by
  rw [ofPayload_snoc]
  rcases ofPayload_cases w with hw | hw | hw | hw | hw <;> rw [hw] at h ⊢
  case inr.inr.inr.inr => exact absurd rfl h
  all_goals grind [next, add]

end Phase

theorem Unbroken.nil : Unbroken [] := by
  intro u v h
  simp [eol] at h

-- A payload is broken only by what follows a dollar sign.
theorem Unbroken.snoc (h : Unbroken w) (hw : Phase.ofPayload w ≠ .textDollar) : Unbroken (w ++ [c]) := by
  intro u v he
  rcases List.eq_nil_or_concat' v with rfl | ⟨v, d, rfl⟩
  case inl => exact .inr rfl
  case inr =>
    have he : w = u ++ eol ++ 36 :: v := by
      rw [← List.cons_append, ← List.append_assoc] at he
      exact List.append_inj_left' he rfl
    rcases h u v he with hu | rfl
    case inl => exact .inl hu
    case inr =>
      refine .inl <| not_not.mp fun hu => hw ?_
      rw [he]
      exact Phase.ofPayload_dollar hu

theorem Unbroken.prefix_ne (h : Unbroken (w ++ c :: v)) : Phase.ofPayload w ≠ .textDollar := by
  intro hw
  obtain ⟨u, hu, rfl⟩ := Phase.ofPayload_eq_textDollar hw
  rcases h u (c :: v) (by simp) with h | h
  case inl => exact hu h
  case inr => cases h

theorem Unbroken.left (h : Unbroken (w ++ v)) : Unbroken w := by
  rintro u t rfl
  rcases h u (t ++ v) (by simp) with hu | ht
  case inl => exact .inl hu
  case inr => exact .inr (List.append_eq_nil_iff.mp ht).left

end RdsParser

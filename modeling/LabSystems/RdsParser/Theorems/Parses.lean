import LabSystems.RdsParser.Theorems.Commands

namespace RdsParser

open Ragel

variable {c c' : Command} {sc sc' : Parser} {φ : Phase}

theorem Number.takeWhile (n : Number) : (n.digits ++ eol ++ x).takeWhile Bytes.isDigit = n.digits := by
  rw [List.append_assoc, List.takeWhile_append_of_pos n.isDigit]
  exact List.append_nil _

theorem Number.eq_of_append {n m : Number} (h : n.digits ++ eol ++ x = m.digits ++ eol ++ y) : n = m ∧ x = y := by
  have hd : n.digits = m.digits := by rw [← n.takeWhile (x := x), h, m.takeWhile]
  rw [hd, List.append_right_inj] at h
  cases n
  cases m
  cases hd
  exact ⟨rfl, h⟩

theorem buffer_eq_map (h : buffer size w = p.map some) : w = p ∧ size ≤ w.length := by
  have hn : size - w.length = 0 := by
    by_contra hn
    have hm : none ∈ buffer size w := List.mem_append_right _ <| List.mem_replicate.mpr ⟨hn, rfl⟩
    rw [h] at hm
    simp at hm
  rw [buffer, hn, List.replicate_zero, List.append_nil] at h
  exact ⟨List.map_injective_iff.mpr (Option.some_injective _) h, by omega⟩

-- After the end of an argument comes a dollar sign and then a digit.
theorem text_args (as : List Arg) : as.flatMap Arg.text = [] ∨
    ∃ d rest, Bytes.isDigit d ∧ as.flatMap Arg.text = 36 :: d :: rest := by
  cases as with
  | nil       => exact .inl rfl
  | cons a as =>
    cases hd : a.size.digits with
    | nil       => exact absurd hd a.size.ne_nil
    | cons d ds =>
      refine .inr ⟨d, ds ++ eol ++ a.payload ++ eol ++ as.flatMap Arg.text, ?_, ?_⟩
      case refine_1 => exact a.size.isDigit d <| hd ▸ List.mem_cons_self
      case refine_2 => simp [Arg.text, Number.argHead, hd]

-- What is stored of a payload that has ended is no other payload.
theorem payload_unique {as as' : List Arg} (hp : p <+: p') (hw : p' <+: p ++ eol ++ [36])
    (h : p ++ eol ++ as.flatMap Arg.text = p' ++ eol ++ as'.flatMap Arg.text) :
    p = p' ∧ as.flatMap Arg.text = as'.flatMap Arg.text := by
  obtain ⟨t, rfl⟩ := hp
  rw [List.append_assoc, List.prefix_append_right_inj] at hw
  simp only [List.append_assoc, List.append_cancel_left_eq] at h
  simp only [eol, List.cons_append, List.nil_append, List.prefix_cons_iff, List.prefix_nil] at hw
  rcases hw with rfl | ⟨_, rfl, rfl | ⟨_, rfl, rfl | ⟨_, rfl, rfl⟩⟩⟩
  case inl => exact ⟨by simp, by simpa using h⟩
  case inr.inl => simp [eol] at h
  case inr.inr.inl => rcases text_args as with he | ⟨d, rest, _, he⟩ <;> simp [he, eol] at h
  case inr.inr.inr =>
    rcases text_args as with he | ⟨d, rest, hd, he⟩
    case inl => simp [he, eol] at h
    case inr =>
      simp only [he, eol, List.cons_append, List.nil_append, List.cons.injEq, true_and] at h
      exact absurd h.left <| Phase.ne_cr hd

-- Each argument is stored in a buffer of its size.
def Buffered (a : Arg) (p : Bytes) : Prop :=
  ∃ w, a.payload <+: w ∧ w <+: a.payload ++ eol ++ [36] ∧ buffer a.size.value w = p.map some

theorem args_unique {as as' : List Arg} (hb : List.Forall₂ (fun a a' => Buffered a a'.payload) as as')
    (h : as.flatMap Arg.text = as'.flatMap Arg.text) : as = as' := by
  induction hb
  case nil => rfl
  case cons a a' as as' hb _ hi =>
    obtain ⟨w, hp, hw, hb⟩ := hb
    obtain ⟨rfl, _⟩ := buffer_eq_map hb
    simp only [List.flatMap_cons, Arg.text, Number.argHead, List.append_assoc, List.cons_append, List.cons.injEq,
      true_and] at h
    have hk := Number.eq_of_append (n := a.size) (m := a'.size) (by rw [List.append_assoc, List.append_assoc]; exact h)
    obtain ⟨hp, ht⟩ := payload_unique hp hw (by rw [List.append_assoc, List.append_assoc]; exact hk.right)
    rw [hi ht]
    cases a
    cases a'
    cases hk.left
    cases hp
    rfl

-- A command that the arrays hold is the one that they have been filled with.
theorem Header.unique (h : Header c sc) (hh : sc.Holds c') (ht : c.text = c'.text) : c = c' := by
  have hn : c.num.value = c'.args.length := h.stored.argNum.symm.trans hh.argNum
  have hl : c.args.length = c'.args.length := by
    refine hn ▸ h.stored.le.antisymm <| not_lt.mp fun hlt => ?_
    have hr := h.stored.rest c.args.length (by rw [h.curArg]; omega) <| hlt.trans_eq hn.symm
    rw [hh.argSizes, List.getElem?_map] at hr
    cases hi : c'.args[c.args.length]? <;> simp [hi] at hr
  obtain ⟨hd, ht⟩ := Number.eq_of_append (n := c.num) (m := c'.num) (List.cons.inj ht).right
  have ha : c.args = c'.args := by
    refine args_unique (List.forall₂_iff_get.mpr ⟨hl, fun i hi hi' => ?_⟩) ht
    obtain ⟨w, hp, hw, _, he⟩ := h.stored.arg i _ (List.getElem?_eq_getElem hi)
    refine ⟨w, hp, hw, ?_⟩
    rw [hh.args, List.getElem?_map, List.getElem?_eq_getElem hi'] at he
    simpa using he.symm
  cases c
  cases c'
  cases hd
  cases ha
  rfl

theorem Boundary.finish (h : Boundary c φ sc) (hc : c.args ≠ []) : rdsParserFinish (φ.exprs, sc) = 1 := by
  cases h with
  | header _ hn => exact absurd hn hc
  | done        => rfl
  | text        => rfl

-- The arguments are stored as they are when their payloads have their sizes.
theorem Header.holds (h : Header c sc) (hc : c.Complete) : sc.Holds c where
  argNum   := h.stored.argNum.trans hc.num.symm
  args     := by
    refine List.ext_getElem? fun i => ?_
    rw [List.getElem?_map]
    cases hi : c.args[i]? with
    | none   =>
      refine List.getElem?_eq_none ?_
      rw [h.stored.args_length, ← hc.num]
      exact List.getElem?_eq_none_iff.mp hi
    | some a =>
      obtain ⟨w, hp, _, hle, he⟩ := h.stored.arg i a hi
      have hl := hc.payload a (List.mem_of_getElem? hi) |>.right
      obtain rfl := hp.eq_of_length_le (hl ▸ hle)
      simp [he, buffer, hl]
  argSizes := by
    refine List.ext_getElem? fun i => ?_
    rw [List.getElem?_map]
    cases hi : c.args[i]? with
    | none   =>
      refine List.getElem?_eq_none ?_
      rw [h.stored.sizes_length, ← hc.num]
      exact List.getElem?_eq_none_iff.mp hi
    | some a => rw [h.stored.size i a hi, ← (hc.payload a (List.mem_of_getElem? hi)).right, Option.map_some]

-- The machine ends in a final state after commands whose payloads may be shorter than their sizes.
theorem Reading.loose (h : Reading s φ sc) (hf : rdsParserFinish (φ.exprs, sc) = 1) :
    ∃ c : Command, c.Loose ∧ c.text = s ∧ Boundary c φ sc := by
  have hφ : φ = .done ∨ φ = .textEnd := by
    cases φ
    case done    => exact .inl rfl
    case textEnd => exact .inr rfl
    all_goals cases hf
  cases h with
  | boundary hc h hn =>
    cases h with
    | header => cases hf
    | done h he => exact ⟨_, ⟨he, hc⟩, rfl, .done h he⟩
    | text => exact absurd rfl hn
  | @payload c k w _ hc h =>
    have hw : Phase.ofPayload w = .textEnd := by
      rcases Phase.ofPayload_cases w with hp | hp | hp | hp | hp <;> rw [hp] at hφ <;> simp [hp] at hφ ⊢
    obtain ⟨u, hu, rfl⟩ := Phase.ofPayload_eq_textEnd hw
    rw [hw]
    exact ⟨c.snoc k u, ⟨by simp [Command.snoc], loose_snoc hc h hu⟩, by simp [text_snoc], .text h hu rfl⟩
  | size _ _ h => cases h <;> simp at hφ
  | _ => simp at hφ

theorem Command.Loose.finish (h : c.Loose) (he : machine.exec (rdsParserInit sc) c.text = some x) :
    rdsParserFinish x = 1 ∧ Header c x.snd := by
  rcases c.exec h.args sc with hn | ⟨φ, sc', hs, hb⟩
  case inl => cases hn.symm.trans he
  case inr =>
    cases hs.symm.trans he
    exact ⟨hb.finish h.ne_nil, hb.toHeader⟩

theorem exec_eq_some : rdsParserExec (rdsParserInit sc) s = some (x, ret) ↔
    machine.exec (rdsParserInit sc) s = some x ∧ rdsParserFinish x = ret := by
  simp only [rdsParserExec, Option.map_eq_some_iff, Prod.mk.injEq]
  constructor
  case mp =>
    rintro ⟨_, he, rfl, hr⟩
    exact ⟨he, hr⟩
  case mpr => exact fun h => ⟨x, h.left, rfl, h.right⟩

-- The program never stores outside an array other than for an argument that is one too many.
theorem overruns_iff : rdsParserExec (rdsParserInit sc) s = none ↔ Overruns s := by
  rw [rdsParserExec, Option.map_eq_none_iff]
  constructor
  case mpr => exact fun h => h.exec sc
  case mp  =>
    intro hn
    rcases Reading.exec sc s with ⟨_, _, hs, _⟩ | ⟨_, ho⟩
    case inl => cases hs.symm.trans hn
    case inr => exact ho

theorem accepts_iff : (∃ x, rdsParserExec (rdsParserInit sc) s = some (x, 1)) ↔
    ¬Overruns s ∧ ∃ c : Command, c.Loose ∧ c.text = s := by
  constructor
  case mp =>
    rintro ⟨x, h⟩
    obtain ⟨he, hf⟩ := exec_eq_some.mp h
    rcases Reading.exec sc s with ⟨φ, sc', hs, hr⟩ | ⟨hn, _⟩
    case inr => cases hn.symm.trans he
    case inl =>
      cases hs.symm.trans he
      obtain ⟨c, hl, hc, _⟩ := hr.loose hf
      refine ⟨fun ho => ?_, c, hl, hc⟩
      cases (ho.exec sc).symm.trans he
  case mpr =>
    rintro ⟨ho, c, hl, rfl⟩
    rcases Reading.exec sc c.text with ⟨φ, sc', hs, _⟩ | ⟨_, hn⟩
    case inr => exact absurd hn ho
    case inl => exact ⟨_, exec_eq_some.mpr ⟨hs, hl.finish hs |>.left⟩⟩

-- The parser takes the complete commands, and nothing else, exactly when no argument and no number is too much for it
-- and it makes no difference whether payloads may be shorter than their sizes and whether they may be broken.
theorem parses_iff : (∃ x ret, Parses sc s x ret) ↔
    ¬Overruns s ∧ ∀ c : Command, c.text = s → (c.Complete ↔ c.Loose) := by
  constructor
  case mp =>
    rintro ⟨x, ret, h⟩
    obtain ⟨he, rfl⟩ := exec_eq_some.mp h.exec
    refine ⟨fun ho => ?_, fun c hc => ⟨fun hcom => ?_, fun hl => ?_⟩⟩
    case refine_1 => cases (ho.exec sc).symm.trans he
    case refine_2 =>
      have hf := (h.success.mpr ⟨c, hcom, hc⟩).right
      rcases Reading.exec sc s with ⟨φ, sc', hs, hr⟩ | ⟨hn, _⟩
      case inr => cases hn.symm.trans he
      case inl =>
        cases hs.symm.trans he
        obtain ⟨c', hl, hc', hb⟩ := hr.loose hf
        exact hb.toHeader.unique (h.holds hf c hcom hc) (hc'.trans hc.symm) ▸ hl
    case refine_3 =>
      obtain ⟨hf, hh⟩ := hl.finish (hc ▸ he)
      obtain ⟨c', hcom, hc'⟩ := h.success.mp ⟨hf, hf⟩
      exact hh.unique (h.holds hf c' hcom hc') (hc.trans hc'.symm) ▸ hcom
  case mpr =>
    rintro ⟨ho, hc⟩
    rcases Reading.exec sc s with ⟨φ, sc', hs, hr⟩ | ⟨_, hn⟩
    case inr => exact absurd hn ho
    case inl =>
      refine ⟨_, _, exec_eq_some.mpr ⟨hs, rfl⟩, ?_, ?_⟩
      case refine_1 =>
        constructor
        case mp =>
          rintro ⟨hf, _⟩
          obtain ⟨c, hl, ht, _⟩ := hr.loose hf
          exact ⟨c, (hc c ht).mpr hl, ht⟩
        case mpr =>
          rintro ⟨c, hcom, rfl⟩
          have hf := ((hc c rfl).mp hcom).finish hs |>.left
          exact ⟨hf, hf⟩
      case refine_2 =>
        rintro _ c hcom rfl
        exact ((hc c rfl).mp hcom).finish hs |>.right.holds hcom

end RdsParser

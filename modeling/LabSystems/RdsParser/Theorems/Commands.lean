import LabSystems.RdsParser.Theorems.Runs

namespace RdsParser

open Ragel

variable {c : Command} {k : Number} {sc sc' : Parser} {φ : Phase}

theorem Size.exec (h : Size c ds φ sc) (hd : ∀ d ∈ ds', Bytes.isDigit d) (hn : ds' ≠ []) :
    machine.exec (φ.exprs, sc) ds' = none ∨ ∃ sc', machine.exec (φ.exprs, sc) ds' = some (Phase.size.exprs, sc') ∧
      Size c (ds ++ ds') .size sc' ∧ Bytes.ofDigits (ds ++ ds') < 2 ^ 31 := by
  induction ds' generalizing ds φ sc
  case nil => exact absurd rfl hn
  case cons d ds' hi =>
    rw [Machine.exec_cons]
    rcases h.step_digit (hd d List.mem_cons_self) with ⟨hs, _⟩ | ⟨sc', hs, h', hlt⟩ <;> rw [hs]
    case inl => exact .inl rfl
    case inr =>
      by_cases he : ds' = []
      case pos =>
        subst he
        exact .inr ⟨sc', rfl, h', hlt⟩
      case neg =>
        rw [List.append_cons]
        exact hi h' (fun d hm => hd d <| List.mem_cons_of_mem _ hm) he

theorem exec_num (n : Number) : machine.exec (rdsParserInit sc) (42 :: n.digits) = none ∨ ∃ sc',
    machine.exec (rdsParserInit sc) (42 :: n.digits) = some (Phase.num.exprs, sc') ∧ sc'.argNum = n.value ∧
      n.value < 2 ^ 31 := by
  suffices h : ∀ ds' ds φ (sc : Parser), (φ = .star ∨ φ = .num) → sc.argNum = Bytes.ofDigits ds →
      (∀ d ∈ ds', Bytes.isDigit d) → ds' ≠ [] → machine.exec (Phase.exprs φ, sc) ds' = none ∨ ∃ sc',
        machine.exec (Phase.exprs φ, sc) ds' = some (Phase.num.exprs, sc') ∧
          sc'.argNum = Bytes.ofDigits (ds ++ ds') ∧ Bytes.ofDigits (ds ++ ds') < 2 ^ 31 from
    h n.digits [] .star { sc with argNum := 0, argSize := 0 } (.inl rfl) rfl n.isDigit n.ne_nil
  intro ds'
  induction ds'
  case nil => exact fun _ _ _ _ _ _ hn => absurd rfl hn
  case cons d ds' hi =>
    intro ds φ sc hφ h hd _
    rw [Machine.exec_cons]
    rcases step_numDigit hφ h (hd d List.mem_cons_self) with ⟨hs, _⟩ | ⟨hs, hlt⟩ <;> rw [hs]
    case inl => exact .inl rfl
    case inr =>
      by_cases he : ds' = []
      case pos =>
        subst he
        exact .inr ⟨_, rfl, rfl, hlt⟩
      case neg =>
        rw [List.append_cons ds d ds']
        exact hi _ .num { sc with argNum := Bytes.ofDigits (ds ++ [d]) } (.inr rfl) rfl
          (fun d hm => hd d <| List.mem_cons_of_mem _ hm) he

namespace Payload

theorem exec (h : Payload c k w sc) (hv : Unbroken (w ++ v)) (hle : (w ++ v).length ≤ k.value) :
    ∃ sc', machine.exec ((Phase.ofPayload w).exprs, sc) v = some ((Phase.ofPayload (w ++ v)).exprs, sc') ∧
      Payload c k (w ++ v) sc' := by
  induction v generalizing w sc
  case nil => exact ⟨sc, by simp, by simpa⟩
  case cons d v hi =>
    have hlt : w.length < k.value := by
      rw [List.length_append, List.length_cons] at hle
      omega
    obtain ⟨sc', hs, h'⟩ := h.step hlt hv.prefix_ne
    rw [Machine.exec_cons, hs, List.append_cons w d v]
    rw [List.append_cons] at hv hle
    exact hi h' hv hle

theorem exec_eol (h : Payload c k u sc) (hu : u ≠ []) : ∃ φ sc',
    machine.exec ((Phase.ofPayload u).exprs, sc) eol = some (Phase.exprs φ, sc') ∧ Boundary (c.snoc k u) φ sc' := by
  rw [eol, Machine.exec_cons]
  by_cases ht : Condition.testArgLen.test sc = true
  case neg =>
    rw [Payload.step_cr hu (Bool.eq_false_iff.mpr ht), Option.bind_some, Machine.exec_cons, RdsParser.step_cr]
    exact ⟨.done, sc, rfl, h.done (List.prefix_refl _) (by simp)⟩
  case pos =>
    obtain ⟨hlt, hd⟩ := h.test.mp ht
    obtain ⟨sc', hs, h'⟩ := h.step (d := 13) hlt hd
    rw [hs, Option.bind_some, Machine.exec_cons, Phase.ofPayload_cr hu]
    by_cases ht' : Condition.testArgLen.test sc' = true
    case neg =>
      rw [step_textCr (Bool.eq_false_iff.mpr ht')]
      exact ⟨.done, sc', rfl, h'.done (List.prefix_append _ _) (by simp [eol])⟩
    case pos =>
      obtain ⟨hlt, hd⟩ := h'.test.mp ht'
      obtain ⟨sc'', hs, h''⟩ := h'.step (d := 10) hlt hd
      have he : u ++ [13] ++ [10] = u ++ eol := by simp [eol]
      rw [he] at hs h''
      rw [Phase.ofPayload_cr hu, Phase.ofPayload_eol hu] at hs
      rw [hs]
      exact ⟨.textEnd, sc'', rfl, .text h'' hu rfl⟩

end Payload

theorem Size.exec_eol (h : Size c k.digits .size sc) :
    machine.exec (Phase.size.exprs, sc) eol = none ∧ c.num.value ≤ c.args.length ∨
      ∃ sc', machine.exec (Phase.size.exprs, sc) eol = some (Phase.opened.exprs, sc') ∧ Payload c k [] sc' := by
  rw [eol, Machine.exec_cons, Size.step_cr, Option.bind_some, Machine.exec_cons]
  rcases h.step_lf with ⟨hs, hn⟩ | ⟨sc', hs, h'⟩ <;> rw [hs]
  case inl => exact .inl ⟨rfl, hn⟩
  case inr => exact .inr ⟨sc', rfl, h'⟩

namespace Boundary

theorem exec_size (h : Boundary c φ sc) (k : Number) : machine.exec (φ.exprs, sc) (36 :: k.digits) = none ∨ ∃ sc',
    machine.exec (φ.exprs, sc) (36 :: k.digits) = some (Phase.size.exprs, sc') ∧ Size c k.digits .size sc' ∧
      k.value < 2 ^ 31 := by
  obtain ⟨φ', sc', hs, h'⟩ := h.step
  rw [Machine.exec_cons, hs]
  exact h'.exec k.isDigit k.ne_nil

theorem exec_argHead (h : Boundary c φ sc) (k : Number) : machine.exec (φ.exprs, sc) k.argHead = none ∨ ∃ sc',
    machine.exec (φ.exprs, sc) k.argHead = some (Phase.opened.exprs, sc') ∧ Payload c k [] sc' := by
  rw [Number.argHead, Machine.exec_append]
  rcases h.exec_size k with hs | ⟨sc', hs, h', _⟩ <;> rw [hs]
  case inl => exact .inl rfl
  case inr =>
    rcases h'.exec_eol with ⟨hs, _⟩ | ⟨sc'', hs, h''⟩
    case inl => exact .inl hs
    case inr => exact .inr ⟨sc'', hs, h''⟩

-- An argument that may be shorter than its size takes the machine from one boundary to the next.
theorem exec_arg (h : Boundary c φ sc) (ha : Arg.Loose ⟨k, u⟩) :
    machine.exec (φ.exprs, sc) (Arg.text ⟨k, u⟩) = none ∨ ∃ φ' sc',
      machine.exec (φ.exprs, sc) (Arg.text ⟨k, u⟩) = some (Phase.exprs φ', sc') ∧ Boundary (c.snoc k u) φ' sc' := by
  rw [Arg.text, List.append_assoc, Machine.exec_append]
  rcases h.exec_argHead k with hs | ⟨sc', hs, h'⟩ <;> rw [hs]
  case inl => exact .inl rfl
  case inr =>
    obtain ⟨sc'', hs, h''⟩ := h'.exec (v := u) ha.unbroken ha.le
    rw [Option.bind_some, Machine.exec_append]
    rw [Phase.ofPayload_nil] at hs
    rw [hs]
    exact .inr <| h''.exec_eol ha.ne_nil

theorem exec_args {as : List Arg} (h : Boundary c φ sc) (ha : ∀ a ∈ as, a.Loose) :
    machine.exec (φ.exprs, sc) (as.flatMap Arg.text) = none ∨ ∃ φ' sc',
      machine.exec (φ.exprs, sc) (as.flatMap Arg.text) = some (Phase.exprs φ', sc') ∧
        Boundary { c with args := c.args ++ as } φ' sc' := by
  induction as generalizing c φ sc
  case nil => exact .inr ⟨φ, sc, rfl, by simpa⟩
  case cons a as hi =>
    rw [List.flatMap_cons, Machine.exec_append]
    rcases h.exec_arg (ha a List.mem_cons_self) with hs | ⟨φ', sc', hs, h'⟩ <;> rw [hs]
    case inl => exact .inl rfl
    case inr => simpa [Command.snoc] using hi h' fun a hm => ha a <| List.mem_cons_of_mem _ hm

end Boundary

namespace Command

theorem exec_header (n : Number) : machine.exec (rdsParserInit sc) (42 :: n.digits ++ eol) = none ∨ ∃ sc',
    machine.exec (rdsParserInit sc) (42 :: n.digits ++ eol) = some (Phase.header.exprs, sc') ∧
      Boundary ⟨n, []⟩ .header sc' := by
  rw [Machine.exec_append]
  rcases exec_num n with hs | ⟨sc', hs, h, _⟩ <;> rw [hs]
  case inl => exact .inl rfl
  case inr =>
    have hc : machine.step (Phase.num.exprs, sc') 13 = some (Phase.numCr.exprs, sc') := step_exprs (φ := .num) (by simp)
    have hl : machine.step (Phase.numCr.exprs, sc') 10 = some (Phase.header.exprs, _) := step_exprs (φ := .numCr) (by simp)
    rw [eol, Option.bind_some, Machine.exec_cons, hc, Option.bind_some, Machine.exec_cons, hl]
    exact .inr ⟨_, rfl, .header ⟨Stored.init h, rfl⟩ rfl⟩

theorem exec (c : Command) (hc : ∀ a ∈ c.args, a.Loose) (sc : Parser) : machine.exec (rdsParserInit sc) c.text = none ∨
    ∃ φ sc', machine.exec (rdsParserInit sc) c.text = some (Phase.exprs φ, sc') ∧ Boundary c φ sc' := by
  rw [text, Machine.exec_append]
  rcases exec_header c.num with hs | ⟨sc', hs, h⟩ <;> rw [hs]
  case inl => exact .inl rfl
  case inr => exact h.exec_args hc

end Command

theorem Overruns.exec (h : Overruns s) (sc : Parser) : machine.exec (rdsParserInit sc) s = none := by
  cases h with
  | num n rest hs h =>
    rw [hs, Machine.exec_append]
    rcases exec_num n with hs | ⟨sc', _, _, hlt⟩
    case inl => rw [hs, Option.bind_none]
    case inr => exact absurd hlt <| not_lt.mpr h
  | size c k rest hc hs h =>
    rw [hs, List.append_assoc, Machine.exec_append]
    rcases c.exec hc sc with hs | ⟨φ, sc', hs, hb⟩ <;> rw [hs]
    case inl => rfl
    case inr =>
      rw [Option.bind_some, Machine.exec_append]
      rcases hb.exec_size k with hs | ⟨sc', _, _, hlt⟩
      case inl => rw [hs, Option.bind_none]
      case inr => exact absurd hlt <| not_lt.mpr h
  | args c k rest hc hs h =>
    rw [hs, List.append_assoc, Machine.exec_append]
    rcases c.exec hc sc with hs | ⟨φ, sc', hs, hb⟩ <;> rw [hs]
    case inl => rfl
    case inr =>
      rw [Option.bind_some, Machine.exec_append]
      rcases hb.exec_argHead k with hs | ⟨sc', _, hp⟩
      case inl => rw [hs, Option.bind_none]
      case inr => exact absurd hp.lt <| not_lt.mpr h

end RdsParser

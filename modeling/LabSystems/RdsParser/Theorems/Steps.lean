import LabSystems.RdsParser.Theorems.Payload

namespace RdsParser

open Ragel

-- The arguments that have been read are in the arrays, and what was read of a payload before its end was known to be
-- one may follow it there.
structure Stored (c : Command) (sc : Parser) : Prop where
  argNum                   : sc.argNum = c.num.value
  args_length              : sc.args.length = c.num.value
  sizes_length             : sc.argSizes.length = c.num.value
  le                       : c.args.length ≤ c.num.value
  size (i : Nat) (a : Arg) : c.args[i]? = some a → sc.argSizes[i]? = some (some a.size.value)
  arg (i : Nat) (a : Arg)  : c.args[i]? = some a → ∃ w, a.payload <+: w ∧ w <+: a.payload ++ eol ++ [36] ∧
                               w.length ≤ a.size.value ∧ sc.args[i]? = some (some <| buffer a.size.value w)
  rest (i : Nat)           : sc.curArg < i → i < c.num.value → sc.argSizes[i]? = some none

structure Header (c : Command) (sc : Parser) : Prop where
  stored : Stored c sc
  curArg : sc.curArg = c.args.length - 1

structure Payload (c : Command) (k : Number) (w : Bytes) (sc : Parser) : Prop where
  stored   : Stored c sc
  curArg   : sc.curArg = c.args.length
  lt       : c.args.length < c.num.value
  size     : sc.argSizes[c.args.length]? = some (some k.value)
  arg      : sc.args[c.args.length]? = some (some <| buffer k.value w)
  char     : sc.curArgChar = w.length
  le       : w.length ≤ k.value
  unbroken : Unbroken w
  argSize  : sc.argSize = if Phase.ofPayload w = .textDollar then 0 else k.value

-- The machine is after an argument, or after the head of the command.
inductive Boundary (c : Command) : Phase → Parser → Prop
  | header (h : Header c sc) (hc : c.args = [])         : Boundary c .header sc
  | done (h : Header c sc) (hc : c.args ≠ [])           : Boundary c .done sc
  | text (h : Payload c' k (u ++ eol) sc) (hu : u ≠ []) (hc : c = c'.snoc k u) : Boundary c .textEnd sc

-- It is in the size of the next argument.
inductive Size (c : Command) : Bytes → Phase → Parser → Prop
  | dollar (h : Header c sc) (hs : sc.argSize = 0)      : Size c [] .dollar sc
  | text (h : Payload c' k (u ++ eol ++ [36]) sc) (hu : u ≠ []) (hc : c = c'.snoc k u) : Size c [] .textDollar sc
  | size (h : Header c sc) (hs : sc.argSize = Bytes.ofDigits ds) (hd : ds ≠ []) : Size c ds .size sc

variable {c : Command} {k : Number} {sc sc' : Parser} {φ : Phase}

namespace Stored

theorem init {n : Number} (h : sc.argNum = n.value) : Stored ⟨n, []⟩ { sc with
    curArg   := -1
    args     := malloc sc.argNum
    argSizes := malloc sc.argNum } where
  argNum       := h
  args_length  := by simp [malloc, h]
  sizes_length := by simp [malloc, h]
  le           := Nat.zero_le _
  size i a hi  := by simp at hi
  arg i a hi   := by simp at hi
  rest i _ hn  := by simp [malloc, h, hn]

theorem of_eq (h : Stored c sc) (hn : sc'.argNum = sc.argNum) (ha : sc'.args = sc.args)
    (hs : sc'.argSizes = sc.argSizes) (hc : sc'.curArg = sc.curArg) : Stored c sc' where
  argNum       := hn.trans h.argNum
  args_length  := ha ▸ h.args_length
  sizes_length := hs ▸ h.sizes_length
  le           := h.le
  size i a hi  := hs ▸ h.size i a hi
  arg i a hi   := ha ▸ h.arg i a hi
  rest i hi    := hs ▸ h.rest i (hc ▸ hi)

end Stored

namespace Payload

-- Once it has ended, the payload is one more argument.
theorem header (h : Payload c k w sc) (hp : u <+: w) (hw : w <+: u ++ eol ++ [36]) : Header (c.snoc k u) sc := by
  have hi {i : Nat} {a : Arg} (ha : (c.snoc k u).args[i]? = some a) :
      c.args[i]? = some a ∨ i = c.args.length ∧ a = ⟨k, u⟩ := by
    simp only [Command.snoc] at ha
    grind
  constructor
  case curArg => simp [Command.snoc, h.curArg]
  case stored =>
    constructor
    case argNum => exact h.stored.argNum
    case args_length => exact h.stored.args_length
    case sizes_length => exact h.stored.sizes_length
    case le =>
      have := h.lt
      simp only [Command.snoc, List.length_append, List.length_singleton]
      omega
    case size =>
      intro i a ha
      rcases hi ha with ha | ⟨rfl, rfl⟩
      case inl => exact h.stored.size i a ha
      case inr => exact h.size
    case arg =>
      intro i a ha
      rcases hi ha with ha | ⟨rfl, rfl⟩
      case inl => exact h.stored.arg i a ha
      case inr => exact ⟨w, hp, hw, h.le, h.arg⟩
    case rest => exact h.stored.rest

theorem test (h : Payload c k w sc) : Condition.testArgLen.test sc = true ↔
    w.length < k.value ∧ Phase.ofPayload w ≠ .textDollar := by
  simp only [Condition.test, h.char, h.argSize, decide_eq_true_eq]
  split_ifs with hd <;> simp [hd]

theorem run_argAddChar (h : Payload c k w sc) (hlt : w.length < k.value) (n : Nat) :
    Action.argAddChar.run d { sc with argSize := n } = some { sc with
      argSize    := n
      args       := sc.args.set c.args.length (some <| buffer k.value (w ++ [d]))
      curArgChar := (w ++ [d]).length } := by
  have hl : load sc.args sc.curArg = some (buffer k.value w) := by simp [load, h.curArg, h.arg]
  have hb : store (buffer k.value w) sc.curArgChar (some d) = some (buffer k.value (w ++ [d])) := by
    simp [store, h.char, length_buffer h.le, hlt, set_buffer hlt]
  have ha (x : Option (List (Option UInt8))) : store sc.args sc.curArg x = some (sc.args.set c.args.length x) := by
    simp [store, h.curArg, h.stored.args_length, h.lt]
  rw [h.char] at hb
  simp [Action.run, hl, hb, ha, h.char]

theorem snoc (h : Payload c k w sc) (hlt : w.length < k.value) (hd : Phase.ofPayload w ≠ .textDollar)
    (hs : n = if Phase.ofPayload (w ++ [d]) = .textDollar then 0 else k.value) : Payload c k (w ++ [d]) { sc with
      argSize    := n
      args       := sc.args.set c.args.length (some <| buffer k.value (w ++ [d]))
      curArgChar := (w ++ [d]).length } where
  stored   := {
    argNum := h.stored.argNum
    args_length := by simp [h.stored.args_length]
    sizes_length := h.stored.sizes_length
    le := h.stored.le
    size := h.stored.size
    arg i a ha := by
      have hi : c.args.length ≠ i := (List.getElem?_eq_some_iff.mp ha).choose.ne'
      rw [List.getElem?_set_ne hi]
      exact h.stored.arg i a ha
    rest := h.stored.rest }
  curArg   := h.curArg
  lt       := h.lt
  size     := h.size
  arg      := List.getElem?_set_self <| h.stored.args_length ▸ h.lt
  char     := rfl
  le       := by simpa [Nat.succ_le_iff] using hlt
  unbroken := h.unbroken.snoc hd
  argSize  := hs

-- While there is room, and the payload does not seem to have ended, it takes every character.
theorem step (h : Payload c k w sc) (hlt : w.length < k.value) (hd : Phase.ofPayload w ≠ .textDollar) :
    ∃ sc', machine.step ((Phase.ofPayload w).exprs, sc) d = some ((Phase.ofPayload (w ++ [d])).exprs, sc') ∧
      Payload c k (w ++ [d]) sc' := by
  have hs := h.argSize
  rw [if_neg hd] at hs
  refine ⟨_, ?_, h.snoc hlt hd rfl⟩
  rw [step_exprs (absurd · hd), h.test.mpr ⟨hlt, hd⟩, Phase.next_ofPayload hd]
  by_cases ht : Phase.ofPayload (w ++ [d]) = .textDollar
  case pos =>
    have hr : Action.argSizeReset.run d sc = some { sc with argSize := 0 } := rfl
    simp only [if_pos ht, List.foldlM_cons, List.foldlM_nil, hr, Option.bind_eq_bind, Option.bind_some,
      h.run_argAddChar hlt 0]
    rfl
  case neg =>
    have hr := h.run_argAddChar (d := d) hlt sc.argSize
    simp only [if_neg ht, List.foldlM_cons, List.foldlM_nil]
    rw [show Action.argAddChar.run d sc = _ from hr, hs]
    rfl

end Payload

theorem Boundary.toHeader (h : Boundary c φ sc) : Header c sc := by
  cases h with
  | header h _ => exact h
  | done h _   => exact h
  | text h _ hc => exact hc ▸ h.header (List.prefix_append _ _) (List.prefix_append _ _)

theorem Size.toHeader (h : Size c ds φ sc) : Header c sc := by
  cases h with
  | dollar h _  => exact h
  | size h _ _  => exact h
  | text h _ hc =>
    rw [hc]
    exact h.header (by simp) (List.prefix_refl _)

theorem Header.of_eq (h : Header c sc) (hn : sc'.argNum = sc.argNum) (ha : sc'.args = sc.args)
    (hs : sc'.argSizes = sc.argSizes) (hc : sc'.curArg = sc.curArg) : Header c sc' where
  stored := h.stored.of_eq hn ha hs hc
  curArg := hc.trans h.curArg

theorem Header.dollar (h : Header c sc) : Size c [] .dollar { sc with argSize := 0 } :=
  .dollar (h.of_eq rfl rfl rfl rfl) rfl

theorem Payload.test_eq_false (h : Payload c k w sc) (hn : ¬w.length < k.value) :
    Condition.testArgLen.test sc = false :=
  Bool.eq_false_iff.mpr fun ht => hn (h.test.mp ht).left

theorem step_dollar (h : Condition.testArgLen.test sc = false) :
    machine.step (Phase.textEnd.exprs, sc) 36 = some (Phase.dollar.exprs, { sc with argSize := 0 }) := by
  rw [step_exprs (φ := .textEnd) (by simp), h]
  rfl

-- A dollar sign begins the next argument, even where it is also read as a part of the payload before it.
theorem Boundary.step (h : Boundary c φ sc) :
    ∃ φ' sc', machine.step (φ.exprs, sc) 36 = some (φ'.exprs, sc') ∧ Size c [] φ' sc' := by
  have hh := h.toHeader.dollar
  cases h with
  | header => exact ⟨.dollar, _, step_exprs (φ := .header) (by simp), hh⟩
  | done   => exact ⟨.dollar, _, step_exprs (φ := .done) (by simp), hh⟩
  | @text c' k u _ h hu hc =>
    have hp := Phase.ofPayload_eol hu
    by_cases hlt : (u ++ eol).length < k.value
    case pos =>
      obtain ⟨sc', hs, hp'⟩ := h.step (d := 36) hlt (by simp [hp])
      rw [hp, Phase.ofPayload_dollar hu] at hs
      exact ⟨.textDollar, sc', hs, .text hp' hu hc⟩
    case neg => exact ⟨.dollar, _, step_dollar <| h.test_eq_false hlt, hh⟩

theorem ofDigits_snoc : Bytes.ofDigits (ds ++ [d]) = 10 * Bytes.ofDigits ds + (d.toNat - 48) := by
  simp [Bytes.ofDigits]

theorem addDigit_ofDigits : addDigit (Bytes.ofDigits ds) d =
    if Bytes.ofDigits (ds ++ [d]) < 2 ^ 31 then some (Bytes.ofDigits (ds ++ [d])) else none := by
  rw [ofDigits_snoc, addDigit]

theorem step_numDigit (hφ : φ = .star ∨ φ = .num) (h : sc.argNum = Bytes.ofDigits ds) (hd : Bytes.isDigit d) :
    machine.step (φ.exprs, sc) d = none ∧ 2 ^ 31 ≤ Bytes.ofDigits (ds ++ [d]) ∨
      machine.step (φ.exprs, sc) d = some (Phase.num.exprs, { sc with argNum := Bytes.ofDigits (ds ++ [d]) }) ∧
        Bytes.ofDigits (ds ++ [d]) < 2 ^ 31 := by
  have hs : machine.step (φ.exprs, sc) d =
      (addDigit (Bytes.ofDigits ds) d).map fun n => (Phase.num.exprs, { sc with argNum := n }) := by
    rw [step_exprs (by rcases hφ with rfl | rfl <;> simp), ← h]
    rcases hφ with rfl | rfl <;> simp only [Phase.next, if_pos hd]
    all_goals cases hx : addDigit sc.argNum d <;> simp [Action.run, hx]
  rw [hs, addDigit_ofDigits]
  split
  case isTrue hn  => exact .inr ⟨rfl, hn⟩
  case isFalse hn => exact .inl ⟨rfl, not_lt.mp hn⟩

namespace Size

theorem argSize (h : Size c ds φ sc) : sc.argSize = Bytes.ofDigits ds := by
  cases h with
  | dollar _ h  => exact h
  | size _ h _  => exact h
  | text h hu _ => exact h.argSize.trans <| if_pos <| Phase.ofPayload_dollar hu

theorem next (h : Size c ds φ sc) (hd : Bytes.isDigit d) :
    φ.next (Condition.testArgLen.test sc) d = ([.argSizeAddDigit], .size) := by
  cases h <;> simp [Phase.next, hd]

theorem test (h : Size c ds φ sc) (hφ : φ = .textDollar) : Condition.testArgLen.test sc = false := by
  cases h with
  | dollar      => cases hφ
  | size        => cases hφ
  | text h hu _ => exact Bool.eq_false_iff.mpr fun ht => (h.test.mp ht).right <| Phase.ofPayload_dollar hu

theorem step_digit (h : Size c ds φ sc) (hd : Bytes.isDigit d) :
    machine.step (φ.exprs, sc) d = none ∧ 2 ^ 31 ≤ Bytes.ofDigits (ds ++ [d]) ∨
      ∃ sc', machine.step (φ.exprs, sc) d = some (Phase.size.exprs, sc') ∧ Size c (ds ++ [d]) .size sc' ∧
        Bytes.ofDigits (ds ++ [d]) < 2 ^ 31 := by
  have hs : machine.step (φ.exprs, sc) d =
      (addDigit (Bytes.ofDigits ds) d).map fun n => (Phase.size.exprs, { sc with argSize := n }) := by
    rw [step_exprs h.test, h.next hd, ← h.argSize]
    cases hx : addDigit sc.argSize d <;> simp [Action.run, hx]
  rw [hs, addDigit_ofDigits]
  split
  case isFalse hn => exact .inl ⟨rfl, not_lt.mp hn⟩
  case isTrue hn  => exact .inr ⟨_, rfl, .size (h.toHeader.of_eq rfl rfl rfl rfl) rfl (by simp), hn⟩

theorem step_cr : machine.step (Phase.size.exprs, sc) 13 = some (Phase.sizeCr.exprs, sc) :=
  step_exprs (φ := .size) (by simp)

-- There is a place for the argument when it is not one too many.
theorem step_lf (h : Size c k.digits .size sc) :
    machine.step (Phase.sizeCr.exprs, sc) 10 = none ∧ c.num.value ≤ c.args.length ∨
      ∃ sc', machine.step (Phase.sizeCr.exprs, sc) 10 = some (Phase.opened.exprs, sc') ∧ Payload c k [] sc' := by
  have hh := h.toHeader
  have hc : sc.curArg + 1 = c.args.length := by
    rw [hh.curArg]
    omega
  have hk : sc.argSize = k.value := h.argSize
  have store {τ : Type} {xs : List τ} {x : τ} (hl : xs.length = c.num.value) : store xs (sc.curArg + 1) x =
      if c.args.length < c.num.value then some (xs.set c.args.length x) else none := by
    simp [store, hc, hl]
  have hr : machine.step (Phase.sizeCr.exprs, sc) 10 = (Action.argInit.run 10 sc).map (Phase.opened.exprs, ·) := by
    rw [step_exprs (φ := .sizeCr) (by simp)]
    cases hx : Action.argInit.run 10 sc <;> simp [Phase.next, hx]
  rw [hr]
  simp only [Action.run, store hh.stored.args_length, store hh.stored.sizes_length]
  by_cases hlt : c.args.length < c.num.value
  case neg => exact .inl ⟨by simp [hlt], not_lt.mp hlt⟩
  case pos =>
    refine .inr ⟨_, by simp only [if_pos hlt]; rfl, ?_⟩
    have hi {i : Nat} {a : Arg} (ha : c.args[i]? = some a) : c.args.length ≠ i :=
      (List.getElem?_eq_some_iff.mp ha).choose.ne'
    constructor
    case stored => 
      constructor
      case argNum => exact hh.stored.argNum
      case args_length => simpa using hh.stored.args_length
      case sizes_length => simpa using hh.stored.sizes_length
      case le => exact hh.stored.le
      case size =>
        intro i a ha
        rw [List.getElem?_set_ne (hi ha)]
        exact hh.stored.size i a ha
      case arg =>
        intro i a ha
        rw [List.getElem?_set_ne (hi ha)]
        exact hh.stored.arg i a ha
      case rest =>
        intro i hlt hn
        dsimp only at hlt
        rw [List.getElem?_set_ne (by omega)]
        exact hh.stored.rest i (by omega) hn
    case curArg => exact hc
    case lt => exact hlt
    case size => rw [← hk]; exact List.getElem?_set_self <| hh.stored.sizes_length ▸ hlt
    case arg => rw [buffer_nil, ← hk]; exact List.getElem?_set_self <| hh.stored.args_length ▸ hlt
    case char => rfl
    case le => exact Nat.zero_le _
    case unbroken => exact .nil
    case argSize => exact hk

end Size

namespace Payload

-- Without room for it, or after what seems to be the end of the argument and the next one, a carriage return is not
-- a part of the payload.
theorem step_cr (hw : w ≠ []) (hn : Condition.testArgLen.test sc = false) :
    machine.step ((Phase.ofPayload w).exprs, sc) 13 = some (Phase.cr.exprs, sc) := by
  rw [step_exprs fun _ => hn, hn]
  rcases Phase.ofPayload_cases w with hp | hp | hp | hp | hp <;> rw [hp]
  case inl => exact absurd (Phase.ofPayload_eq_opened.mp hp) hw
  all_goals rfl

theorem done (h : Payload c k w sc) (hp : u <+: w) (hw : w <+: u ++ eol ++ [36]) : Boundary (c.snoc k u) .done sc :=
  .done (h.header hp hw) (by simp [Command.snoc])

end Payload

theorem step_textCr (h : Condition.testArgLen.test sc = false) :
    machine.step (Phase.textCr.exprs, sc) 10 = some (Phase.done.exprs, sc) := by
  rw [step_exprs (φ := .textCr) (by simp), h]
  rfl

theorem step_cr : machine.step (Phase.cr.exprs, sc) 10 = some (Phase.done.exprs, sc) :=
  step_exprs (φ := .cr) (by simp)

end RdsParser

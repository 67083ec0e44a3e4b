import LabSystems.RdsParser.Theorems.Steps

namespace RdsParser

open Ragel

-- What the machine has read up to some character.
inductive Reading : Bytes → Phase → Parser → Prop
  | start (h : sc.argNum = 0) : Reading [] .start sc
  | star (h : sc.argNum = 0) : Reading [42] .star sc
  | num (n : Number) (h : sc.argNum = n.value) : Reading (42 :: n.digits) .num sc
  | numCr (n : Number) (h : sc.argNum = n.value) : Reading (42 :: n.digits ++ [13]) .numCr sc
  | boundary (hc : ∀ a ∈ c.args, Arg.Loose a) (h : Boundary c φ sc) (hφ : φ ≠ .textEnd) : Reading c.text φ sc
  | size (hc : ∀ a ∈ c.args, Arg.Loose a) (hd : ∀ d ∈ ds, Bytes.isDigit d) (h : Size c ds φ sc)
    (hφ : φ ≠ .textDollar) : Reading (c.text ++ 36 :: ds) φ sc
  | sizeCr {k : Number} (hc : ∀ a ∈ c.args, Arg.Loose a) (h : Size c k.digits .size sc) :
    Reading (c.text ++ 36 :: k.digits ++ [13]) .sizeCr sc
  | payload (hc : ∀ a ∈ c.args, Arg.Loose a) (h : Payload c k w sc) :
    Reading (c.text ++ k.argHead ++ w) (.ofPayload w) sc
  | cr (hc : ∀ a ∈ c.args, Arg.Loose a) (h : Payload c k w sc) (hw : w ≠ []) :
    Reading (c.text ++ k.argHead ++ w ++ [13]) .cr sc
  | error : Reading s .error sc

-- The next character is read, or what it asks for is not defined.
def Reads (s : Bytes) (φ : Phase) (sc : Parser) (d : UInt8) : Prop :=
  (∃ φ' sc', machine.step (φ.exprs, sc) d = some (φ'.exprs, sc') ∧ Reading (s ++ [d]) φ' sc') ∨
    machine.step (φ.exprs, sc) d = none ∧ ∀ rest, Overruns (s ++ d :: rest)

namespace Reading

theorem reads_error {φ : Phase} (h : φ = .textDollar → Condition.testArgLen.test sc = false)
    (he : φ.next (Condition.testArgLen.test sc) d = ([], .error)) : Reads s φ sc d := by
  refine .inl ⟨.error, sc, ?_, .error⟩
  rw [step_exprs h, he]
  rfl

theorem text_snoc {c : Command} : (c.snoc k u).text = c.text ++ k.argHead ++ u ++ eol := by
  simp [Command.text, Command.snoc, Arg.text]

theorem loose_snoc {c : Command} (hc : ∀ a ∈ c.args, a.Loose) (h : Payload c k (u ++ v) sc) (hu : u ≠ []) :
    ∀ a ∈ (c.snoc k u).args, a.Loose := by
  intro a ha
  rcases List.mem_append.mp ha with ha | ha
  case inl => exact hc a ha
  case inr =>
    rw [List.mem_singleton.mp ha]
    have hle := h.le
    rw [List.length_append] at hle
    exact ⟨hu, by dsimp only; omega, h.unbroken.left⟩

theorem reads_start (h : sc.argNum = 0) : Reads [] .start sc d := by
  by_cases hd : d = 42
  case pos =>
    subst hd
    exact .inl ⟨.star, sc, step_exprs (φ := .start) (by simp), .star h⟩
  case neg => exact reads_error (by simp) (by simp [Phase.next, hd])

theorem reads_digit {φ : Phase} {ds : Bytes} (hφ : φ = .star ∨ φ = .num) (h : sc.argNum = Bytes.ofDigits ds)
    (hds : ∀ d ∈ ds, Bytes.isDigit d) (hd : Bytes.isDigit d) : Reads (42 :: ds) φ sc d := by
  let n : Number := ⟨ds ++ [d], by simp, by grind⟩
  rcases step_numDigit hφ h hd with ⟨hs, hn⟩ | ⟨hs, _⟩
  case inl => exact .inr ⟨hs, fun rest => .num n rest (by simp [n]) hn⟩
  case inr => exact .inl ⟨.num, _, hs, .num n rfl⟩

theorem reads_star (h : sc.argNum = 0) : Reads [42] .star sc d := by
  by_cases hd : Bytes.isDigit d
  case pos => exact reads_digit (.inl rfl) h (by simp) hd
  case neg => exact reads_error (by simp) (by simp [Phase.next, hd])

theorem reads_num {n : Number} (h : sc.argNum = n.value) : Reads (42 :: n.digits) .num sc d := by
  by_cases hd : Bytes.isDigit d
  case pos => exact reads_digit (.inr rfl) h n.isDigit hd
  case neg =>
    by_cases hc : d = 13
    case pos =>
      subst hc
      exact .inl ⟨.numCr, sc, step_exprs (φ := .num) (by simp), .numCr n h⟩
    case neg => exact reads_error (by simp) (by simp [Phase.next, hd, hc])

theorem reads_numCr {n : Number} (h : sc.argNum = n.value) : Reads (42 :: n.digits ++ [13]) .numCr sc d := by
  by_cases hd : d = 10
  case pos =>
    subst hd
    refine .inl ⟨.header, _, step_exprs (φ := .numCr) (by simp), ?_⟩
    have ht : (⟨n, []⟩ : Command).text = 42 :: n.digits ++ [13] ++ [10] := by simp [Command.text, eol]
    rw [← ht]
    exact .boundary (by simp) (.header ⟨Stored.init h, rfl⟩ rfl) (by simp)
  case neg => exact reads_error (by simp) (by simp [Phase.next, hd])

theorem reads_boundary {c : Command} {φ : Phase} (hc : ∀ a ∈ c.args, a.Loose) (h : Boundary c φ sc)
    (hφ : φ ≠ .textEnd) : Reads c.text φ sc d := by
  have hh := h.toHeader.dollar
  by_cases hd : d = 36
  case pos =>
    subst hd
    refine .inl ⟨.dollar, _, ?_, .size hc (by simp) hh (by simp)⟩
    cases h with
    | header => exact step_exprs (φ := .header) (by simp)
    | done   => exact step_exprs (φ := .done) (by simp)
    | text   => exact absurd rfl hφ
  case neg =>
    cases h with
    | header => exact reads_error (by simp) (by simp [Phase.next, hd])
    | done   => exact reads_error (by simp) (by simp [Phase.next, hd])
    | text   => exact absurd rfl hφ

theorem reads_sizeDigit {c : Command} {φ : Phase} (hc : ∀ a ∈ c.args, a.Loose) (hds : ∀ d ∈ ds, Bytes.isDigit d)
    (h : Size c ds φ sc) (hd : Bytes.isDigit d) : Reads (c.text ++ 36 :: ds) φ sc d := by
  rcases h.step_digit hd with ⟨hs, hn⟩ | ⟨sc', hs, h', _⟩
  case inl => exact .inr ⟨hs, fun rest => .size c ⟨ds ++ [d], by simp, by grind⟩ rest hc (by simp) hn⟩
  case inr =>
    refine .inl ⟨_, _, hs, ?_⟩
    rw [List.append_assoc, List.cons_append]
    exact .size hc (by grind) h' (by simp)

theorem reads_size {c : Command} {φ : Phase} (hc : ∀ a ∈ c.args, a.Loose) (hds : ∀ d ∈ ds, Bytes.isDigit d)
    (h : Size c ds φ sc) (hφ : φ ≠ .textDollar) : Reads (c.text ++ 36 :: ds) φ sc d := by
  by_cases hd : Bytes.isDigit d
  case pos => exact reads_sizeDigit hc hds h hd
  case neg =>
    cases h with
    | dollar       => exact reads_error (by simp) (by simp [Phase.next, hd])
    | text         => exact absurd rfl hφ
    | size h hs hn =>
      by_cases hr : d = 13
      case pos =>
        subst hr
        let k : Number := ⟨ds, hn, hds⟩
        have h : Size c k.digits .size sc := .size h hs hn
        exact .inl ⟨.sizeCr, sc, Size.step_cr, .sizeCr hc h⟩
      case neg => exact reads_error (by simp) (by simp [Phase.next, hd, hr])

theorem reads_sizeCr {c : Command} {k : Number} (hc : ∀ a ∈ c.args, a.Loose) (h : Size c k.digits .size sc) :
    Reads (c.text ++ 36 :: k.digits ++ [13]) .sizeCr sc d := by
  by_cases hd : d = 10
  case pos =>
    subst hd
    rcases h.step_lf with ⟨hs, hn⟩ | ⟨sc', hs, h'⟩
    case inl => exact .inr ⟨hs, fun rest => .args c k rest hc (by simp [Number.argHead, eol]) hn⟩
    case inr =>
      have ht : c.text ++ 36 :: k.digits ++ [13] ++ [10] = c.text ++ k.argHead ++ [] := by simp [Number.argHead, eol]
      exact .inl ⟨.opened, sc', hs, ht ▸ .payload hc h'⟩
  case neg => exact reads_error (by simp) (by simp [Phase.next, hd])

-- What may follow the part of a payload that there was room for, when it is neither a part of the payload nor a
-- carriage return.
theorem reads_end {c : Command} (hc : ∀ a ∈ c.args, a.Loose) (h : Payload c k w sc) (hw : w ≠ [])
    (ht : Condition.testArgLen.test sc = false) (hr : d ≠ 13) :
    Reads (c.text ++ k.argHead ++ w) (.ofPayload w) sc d := by
  rcases Phase.ofPayload_cases w with hp | hp | hp | hp | hp
  case inl        => exact absurd (Phase.ofPayload_eq_opened.mp hp) hw
  case inr.inl    => exact reads_error (by simp [hp]) (by simp [hp, Phase.next, ht, hr])
  case inr.inr.inl =>
    by_cases hd : d = 10
    case neg => exact reads_error (by simp [hp]) (by simp [hp, Phase.next, ht, hr, hd])
    case pos =>
      subst hd
      obtain ⟨u, hu, rfl⟩ := Phase.ofPayload_eq_textCr hp
      have he : c.text ++ k.argHead ++ (u ++ [13]) ++ [10] = (c.snoc k u).text := by simp [text_snoc, eol]
      have hb : Boundary (c.snoc k u) .done sc := h.done (List.prefix_append _ _) (by simp [eol])
      rw [hp]
      exact .inl ⟨.done, sc, step_textCr ht, he ▸ .boundary (loose_snoc hc h hu) hb (by simp)⟩
  case inr.inr.inr.inl =>
    by_cases hd : d = 36
    case neg => exact reads_error (by simp [hp]) (by simp [hp, Phase.next, ht, hr, hd])
    case pos =>
      subst hd
      obtain ⟨u, hu, rfl⟩ := Phase.ofPayload_eq_textEnd hp
      have hb : Boundary (c.snoc k u) .textEnd sc := .text h hu rfl
      have he : c.text ++ k.argHead ++ (u ++ eol) ++ [36] = (c.snoc k u).text ++ [36] := by simp [text_snoc]
      rw [hp]
      exact .inl ⟨.dollar, _, step_dollar ht,
        he ▸ .size (loose_snoc hc h hu) (by simp) hb.toHeader.dollar (by simp)⟩
  case inr.inr.inr.inr =>
    by_cases hd : Bytes.isDigit d
    case neg => exact reads_error (fun _ => ht) (by simp [hp, Phase.next, hr, hd])
    case pos =>
      obtain ⟨u, hu, rfl⟩ := Phase.ofPayload_eq_textDollar hp
      have hs : Size (c.snoc k u) [] .textDollar sc := .text h hu rfl
      have he : c.text ++ k.argHead ++ (u ++ eol ++ [36]) = (c.snoc k u).text ++ [36] := by simp [text_snoc]
      have hl := loose_snoc (v := eol ++ [36]) hc (by rwa [← List.append_assoc]) hu
      rw [hp, he]
      exact reads_sizeDigit hl (by simp) hs hd

theorem reads_payload {c : Command} (hc : ∀ a ∈ c.args, a.Loose) (h : Payload c k w sc) :
    Reads (c.text ++ k.argHead ++ w) (.ofPayload w) sc d := by
  by_cases ht : Condition.testArgLen.test sc = true
  case pos =>
    obtain ⟨hlt, hd⟩ := h.test.mp ht
    obtain ⟨sc', hs, h'⟩ := h.step (d := d) hlt hd
    exact .inl ⟨_, sc', hs, by simpa using Reading.payload hc h'⟩
  case neg =>
    have ht := Bool.eq_false_iff.mpr ht
    by_cases hw : w = []
    case pos =>
      subst hw
      exact reads_error (by simp) (by simp [Phase.next, ht])
    case neg =>
      by_cases hr : d = 13
      case pos =>
        subst hr
        exact .inl ⟨.cr, sc, Payload.step_cr hw ht, .cr hc h hw⟩
      case neg => exact reads_end hc h hw ht hr

theorem reads_cr {c : Command} (hc : ∀ a ∈ c.args, a.Loose) (h : Payload c k w sc) (hw : w ≠ []) :
    Reads (c.text ++ k.argHead ++ w ++ [13]) .cr sc d := by
  by_cases hd : d = 10
  case pos =>
    subst hd
    have ht : c.text ++ k.argHead ++ w ++ [13] ++ [10] = (c.snoc k w).text := by simp [text_snoc, eol]
    have hl := loose_snoc (v := []) hc (by rwa [List.append_nil]) hw
    exact .inl ⟨.done, sc, step_cr, ht ▸ .boundary hl (h.done (List.prefix_refl _) (by simp)) (by simp)⟩
  case neg => exact reads_error (by simp) (by simp [Phase.next, hd])

theorem reads (h : Reading s φ sc) : Reads s φ sc d := by
  cases h with
  | start h           => exact reads_start h
  | star h            => exact reads_star h
  | num n h           => exact reads_num h
  | numCr n h         => exact reads_numCr h
  | boundary hc h hφ  => exact reads_boundary hc h hφ
  | size hc hds h hφ  => exact reads_size hc hds h hφ
  | sizeCr hc h       => exact reads_sizeCr hc h
  | payload hc h      => exact reads_payload hc h
  | cr hc h hw        => exact reads_cr hc h hw
  | error             => exact .inl ⟨.error, sc, step_exprs (φ := .error) (by simp), .error⟩

-- Unless something in it is not defined, the whole of a string is read.
theorem exec (sc : Parser) (s : Bytes) :
    (∃ φ sc', machine.exec (rdsParserInit sc) s = some (Phase.exprs φ, sc') ∧ Reading s φ sc') ∨
      machine.exec (rdsParserInit sc) s = none ∧ Overruns s := by
  suffices h : ∀ s, (∃ φ sc', machine.exec (rdsParserInit sc) s = some (Phase.exprs φ, sc') ∧ Reading s φ sc') ∨
      machine.exec (rdsParserInit sc) s = none ∧ ∀ rest, Overruns (s ++ rest) by
    have h := h s
    rcases h with h | ⟨hn, h⟩
    case inl => exact .inl h
    case inr => exact .inr ⟨hn, by simpa using h []⟩
  intro s
  induction s using List.reverseRecOn
  case nil => exact .inl ⟨.start, _, rfl, .start rfl⟩
  case append_singleton s d hi =>
    rw [Machine.exec_snoc]
    rcases hi with ⟨φ, sc', hs, h⟩ | ⟨hs, ho⟩ <;> rw [hs]
    case inl =>
      rcases h.reads (d := d) with ⟨φ', sc'', hd, h'⟩ | ⟨hd, h'⟩
      case inl => exact .inl ⟨φ', sc'', hd, h'⟩
      case inr => exact .inr ⟨hd, fun rest => by simpa using h' rest⟩
    case inr => exact .inr ⟨rfl, fun rest => by simpa using ho (d :: rest)⟩

end Reading

end RdsParser

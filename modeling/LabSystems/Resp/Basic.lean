import LabSystems.Bytes.Decimal

-- Replies of the Redis protocol, in which every reply says where it ends.
namespace Resp

def crlf : Bytes :=
  [13, 10]

-- A line of text ends with the first end of line.
def OneLine (s : Bytes) : Prop :=
  13 ∉ s ∧ 10 ∉ s

instance (s : Bytes) : Decidable (OneLine s) :=
  inferInstanceAs <| Decidable (_ ∧ _)

-- One complete reply. The first byte is its type: `+`, `-`, `:`, `$` or `*`.
inductive Reply : Bytes → Prop
  | status (h : OneLine s) : Reply (43 :: (s ++ crlf))
  | error (h : OneLine s) : Reply (45 :: (s ++ crlf))
  | int (n : Int) : Reply (58 :: (Bytes.signed n ++ crlf))
  | nil : Reply (36 :: (Bytes.signed (-1) ++ crlf))
  | bulk (s : Bytes) : Reply (36 :: (Bytes.signed s.length ++ crlf ++ (s ++ crlf)))
  | nilArray : Reply (42 :: (Bytes.signed (-1) ++ crlf))
  | array {rs : List Bytes} (h : ∀ r ∈ rs, Reply r) : Reply (42 :: (Bytes.signed rs.length ++ crlf ++ rs.flatten))

theorem OneLine.append (h : OneLine s) (h' : OneLine t) : OneLine (s ++ t) := by
  simp only [OneLine, List.mem_append] at h h' ⊢
  tauto

-- An error is a line of text.
theorem reply_error_iff : Reply (45 :: out) ↔ ∃ s, OneLine s ∧ out = s ++ crlf := by
  constructor
  case mp =>
    intro h
    generalize he : 45 :: out = r at h
    cases h <;> try exact absurd (List.cons.inj he).left (by decide)
    case error s hs => exact ⟨s, hs, (List.cons.inj he).right⟩
  case mpr =>
    rintro ⟨s, hs, rfl⟩
    exact .error hs

theorem oneLine_signed : OneLine (.signed n) := by
  have hd {b} (h : b ∈ Bytes.decimal n.natAbs) : b ≠ 13 ∧ b ≠ 10 := by
    have := Bytes.isDigit_of_mem_decimal h
    constructor <;> rintro rfl <;> cases this
  have hs : OneLine (Bytes.decimal n.natAbs) := ⟨fun h => (hd h).left rfl, fun h => (hd h).right rfl⟩
  unfold Bytes.signed
  split
  case isFalse => exact hs
  case isTrue  => exact OneLine.append (s := [45]) (by decide) hs

-- The first end of line determines a line of text.
theorem OneLine.append_crlf_inj (h : OneLine s) (h' : OneLine t) (he : s ++ crlf ++ x = t ++ crlf ++ y) :
    s = t ∧ x = y := by
  rw [List.append_assoc, List.append_assoc] at he
  have ⟨hs, hx⟩ := List.eq_of_append_cons h.left h'.left he
  exact ⟨hs, (List.cons.inj hx).right⟩

-- A string is preceded by its length.
theorem reply_bulk_iff (h : 0 ≤ n) :
    Reply (36 :: (Bytes.signed n ++ crlf ++ out)) ↔ ∃ s : Bytes, s.length = n ∧ out = s ++ crlf := by
  constructor
  case mp =>
    intro hr
    generalize he : 36 :: (Bytes.signed n ++ crlf ++ out) = r at hr
    cases hr
    case status | error | int | nilArray | array => exact absurd (List.cons.inj he).left (by decide)
    case nil =>
      have he := (List.cons.inj he).right
      rw [← List.append_nil (Bytes.signed (-1) ++ crlf)] at he
      have hs := (oneLine_signed.append_crlf_inj oneLine_signed he).left
      have := Bytes.signed_inj hs
      omega
    case bulk s =>
      have ⟨hs, ho⟩ := oneLine_signed.append_crlf_inj oneLine_signed (List.cons.inj he).right
      exact ⟨s, (Bytes.signed_inj hs).symm, ho⟩
  case mpr =>
    rintro ⟨s, rfl, rfl⟩
    exact .bulk s

end Resp

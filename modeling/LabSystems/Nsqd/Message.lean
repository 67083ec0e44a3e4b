import LabSystems.Bytes.Basic

namespace Nsqd

def msgIDLength : Nat := 16

-- The fields before the body are the timestamp, the attempts and the ID.
def minValidMsgLength : Nat := msgIDLength + 8 + 2

structure MessageID where
  bytes  : Bytes
  length : bytes.length = msgIDLength
  deriving DecidableEq

-- The value `deferred` is kept in memory only.
structure Message where
  id        : MessageID
  body      : Bytes
  timestamp : Int64
  attempts  : UInt16 := 0
  deferred  : Int64  := 0
  deriving DecidableEq

namespace Message

-- What a message is for its readers, who change the attempts.
def content (m : Message) : MessageID × Int64 × Bytes :=
  (m.id, m.timestamp, m.body)

def writeTo (m : Message) : Bytes :=
  (Bytes.ofNat 8 m.timestamp.toUInt64.toNat).reverse ++ (Bytes.ofNat 2 m.attempts.toNat).reverse ++
  m.id.bytes ++ m.body

end Message

theorem length_id {b : Bytes} (h : minValidMsgLength ≤ b.length) :
    ((b.drop 10).take msgIDLength).length = msgIDLength := by
  simp only [minValidMsgLength, msgIDLength] at h
  simp only [List.length_take, List.length_drop, msgIDLength]
  omega

def decodeMessage (b : Bytes) : Except String Message :=
  if h : b.length < minValidMsgLength then
    .error s!"invalid message buffer size ({b.length})"
  else
    .ok {
      id        := ⟨(b.drop 10).take msgIDLength, length_id <| Nat.le_of_not_lt h⟩
      body      := b.drop (10 + msgIDLength)
      timestamp := (Bytes.toNat (b.take 8).reverse).toUInt64.toInt64
      attempts  := (Bytes.toNat ((b.drop 8).take 2).reverse).toUInt16
    }

namespace Message

variable {m : Message}

theorem length_writeTo : m.writeTo.length = minValidMsgLength + m.body.length := by
  simp only [writeTo, List.length_append, List.length_reverse, Bytes.length_ofNat, m.id.length, minValidMsgLength,
    msgIDLength]

theorem decode_writeTo : decodeMessage m.writeTo = .ok { m with deferred := 0 } := by
  have hl : ¬m.writeTo.length < minValidMsgLength := by
    rw [length_writeTo]
    omega
  obtain ⟨ts, hts⟩ : ∃ ts, ts = Bytes.ofNat 8 m.timestamp.toUInt64.toNat := ⟨_, rfl⟩
  obtain ⟨as, has⟩ : ∃ as, as = Bytes.ofNat 2 m.attempts.toNat := ⟨_, rfl⟩
  have ht : (Bytes.toNat ts).toUInt64.toInt64 = m.timestamp := by
    rw [hts, Bytes.toNat_ofNat, Nat.mod_eq_of_lt (by simpa using m.timestamp.toUInt64.toNat_lt)]
    simp
  have ha : (Bytes.toNat as).toUInt16 = m.attempts := by
    rw [has, Bytes.toNat_ofNat, Nat.mod_eq_of_lt (by simpa using m.attempts.toNat_lt)]
    simp
  have hw : m.writeTo = ts.reverse ++ (as.reverse ++ (m.id.bytes ++ m.body)) := by
    simp only [writeTo, hts, has, List.append_assoc]
  have h₈ : ts.reverse.length = 8 := by rw [hts, List.length_reverse, Bytes.length_ofNat]
  have h₂ : as.reverse.length = 2 := by rw [has, List.length_reverse, Bytes.length_ofNat]
  have d₈ : m.writeTo.drop 8 = as.reverse ++ (m.id.bytes ++ m.body) := by rw [hw, List.drop_left' h₈]
  have d₁₀ : m.writeTo.drop 10 = m.id.bytes ++ m.body := by
    rw [show 10 = 8 + 2 from rfl, ← List.drop_drop, d₈, List.drop_left' h₂]
  have d₂₆ : m.writeTo.drop (10 + msgIDLength) = m.body := by
    rw [← List.drop_drop, d₁₀, List.drop_left' m.id.length]
  have t₈ : m.writeTo.take 8 = ts.reverse := by rw [hw, List.take_left' h₈]
  rw [decodeMessage, dif_neg hl]
  simp only [d₈, d₁₀, d₂₆, t₈, List.take_left' h₂, List.take_left' m.id.length, List.reverse_reverse, ht, ha]

end Message

end Nsqd

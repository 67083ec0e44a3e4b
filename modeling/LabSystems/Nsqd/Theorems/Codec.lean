import LabSystems.Nsqd.BackendQueue

namespace Nsqd

namespace Message

variable {m : Message} {b : Bytes}

theorem reverse_ofNat_toNat (h : b.length = w) : (Bytes.ofNat w (Bytes.toNat b.reverse)).reverse = b := by
  rw [← h, ← List.length_reverse, Bytes.ofNat_toNat, List.reverse_reverse]

theorem toNat_reverse_lt (h : b.length = w) : Bytes.toNat b.reverse < 256 ^ w := by
  have hl := Bytes.toNat_lt b.reverse
  rwa [List.length_reverse, h] at hl

theorem writeTo_decode (h : decodeMessage b = .ok m) : m.writeTo = b := by
  unfold decodeMessage at h
  split at h
  case isTrue => cases h
  case isFalse hl =>
    simp only [minValidMsgLength, msgIDLength] at hl
    have h₈ : (b.take 8).length = 8 := by
      rw [List.length_take]
      omega
    have h₂ : ((b.drop 8).take 2).length = 2 := by
      rw [List.length_take, List.length_drop]
      omega
    have ht : (Bytes.toNat (b.take 8).reverse).toUInt64.toInt64.toUInt64.toNat = Bytes.toNat (b.take 8).reverse := by
      rw [UInt64.toUInt64_toInt64, Nat.toUInt64_eq, UInt64.toNat_ofNat']
      exact Nat.mod_eq_of_lt <| toNat_reverse_lt h₈
    have ha : (Bytes.toNat ((b.drop 8).take 2).reverse).toUInt16.toNat = Bytes.toNat ((b.drop 8).take 2).reverse := by
      rw [Nat.toUInt16_eq, UInt16.toNat_ofNat']
      exact Nat.mod_eq_of_lt <| toNat_reverse_lt h₂
    cases h
    simp only [writeTo, ht, ha, reverse_ofNat_toNat h₈, reverse_ofNat_toNat h₂]
    calc
      b.take 8 ++ (b.drop 8).take 2 ++ (b.drop 10).take msgIDLength ++ b.drop (10 + msgIDLength)
      _ = b.take 8 ++ ((b.drop 8).take 2 ++ ((b.drop 10).take msgIDLength ++ (b.drop 10).drop msgIDLength)) := by
        rw [List.drop_drop, List.append_assoc, List.append_assoc]
      _ = b.take 8 ++ ((b.drop 8).take 2 ++ (b.drop 8).drop 2) := by
        rw [List.take_append_drop, List.drop_drop]
      _ = b := by
        rw [List.take_append_drop, List.take_append_drop]

theorem decode_error_iff : (∃ e, decodeMessage b = .error e) ↔ b.length < minValidMsgLength := by
  unfold decodeMessage
  split
  case isTrue h  => exact iff_of_true ⟨_, rfl⟩ h
  case isFalse h =>
    refine iff_of_false ?_ h
    rintro ⟨_, he⟩
    cases he

-- The fields that are written.
def encoded (m : Message) : Int64 × UInt16 × MessageID × Bytes :=
  (m.timestamp, m.attempts, m.id, m.body)

end Message

namespace MessageQueue

variable {dq : BackendQueue} {q q' : MessageQueue dq} {m : Message}

-- A message is kept as it is, or as a string from which it is decoded.
theorem put_eq (h : q.put m = .ok q') :
    q'.memoryMsgChan = q.memoryMsgChan ++ [m] ∧ dq.contents q'.backend = dq.contents q.backend ∨
    q'.memoryMsgChan = q.memoryMsgChan ∧ ∃ b m', dq.contents q'.backend = dq.contents q.backend ++ [b] ∧
      decodeMessage b = .ok m' ∧ m'.encoded = m.encoded := by
  unfold put at h
  split at h
  case isTrue =>
    cases h
    exact .inl ⟨rfl, rfl⟩
  case isFalse =>
    split at h <;> cases h
    case h_1 hp => exact .inr ⟨rfl, _, _, dq.put_ok hp, Message.decode_writeTo, rfl⟩

end MessageQueue

-- Messages and the strings that are long enough are in a one-to-one correspondence, up to what is
-- not written, and it does not matter for what is written which way a message takes.
theorem codec :
    (∀ m : Message, ∃ m', decodeMessage m.writeTo = .ok m' ∧ m'.encoded = m.encoded) ∧
    (∀ b, minValidMsgLength ≤ b.length → ∃ m, decodeMessage b = .ok m ∧ m.writeTo = b) ∧
    (∀ b, (∃ e, decodeMessage b = .error e) ↔ b.length < minValidMsgLength) ∧
    ∀ (dq : BackendQueue) (q q' : MessageQueue dq) (m : Message), q.put m = .ok q' →
      ∃ m', m'.encoded = m.encoded ∧ q'.messages.Perm (m' :: q.messages) := by
  refine ⟨fun m => ⟨_, Message.decode_writeTo, rfl⟩, fun b hb => ?_, fun _ => Message.decode_error_iff, ?_⟩
  case refine_1 =>
    cases hd : decodeMessage b
    case error e => exact absurd (Message.decode_error_iff.mp ⟨e, hd⟩) <| Nat.not_lt_of_le hb
    case ok m    => exact ⟨m, rfl, Message.writeTo_decode hd⟩
  case refine_2 =>
    intro dq q q' m h
    rcases MessageQueue.put_eq h with ⟨hm, hb⟩ | ⟨hm, b, m', hb, hd, he⟩
    case inl =>
      refine ⟨m, rfl, ?_⟩
      simp only [MessageQueue.messages, hm, hb, List.append_assoc, List.singleton_append]
      exact List.perm_middle
    case inr =>
      refine ⟨m', he, ?_⟩
      simp only [MessageQueue.messages, hm, hb, List.filterMap_append, List.filterMap_cons, hd, Except.toOption,
        List.filterMap_nil, ← List.append_assoc]
      exact List.perm_append_singleton ..

end Nsqd

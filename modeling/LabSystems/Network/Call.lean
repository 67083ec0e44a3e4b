import LabSystems.Machine.Table

-- Remote procedure calls over a network that delays and loses messages. A call is identified by its
-- position in the list of all calls ever made. Its request is in flight until the callee handles it,
-- which happens at most once. From then on its reply is in flight. Messages that are never handled
-- or received are lost.
structure Call (ρ σ : Type) where
  request : ρ
  reply   : Option σ

abbrev Calls (ρ σ : Type) :=
  List (Call ρ σ)

namespace Calls

variable {ρ σ : Type} {cs : Calls ρ σ} {call : Call ρ σ} {P : Nat → Call ρ σ → Prop} {c i : Nat}

def send (cs : Calls ρ σ) (r : ρ) : Calls ρ σ :=
  cs ++ [⟨r, none⟩]

def answer (cs : Calls ρ σ) (c : Nat) (rep : σ) : Calls ρ σ :=
  cs.modify c ({ · with reply := some rep })

-- The request of a call that has not been handled yet.
def pending (cs : Calls ρ σ) (c : Nat) : Option ρ :=
  match cs[c]? with
  | some ⟨r, none⟩ => some r
  | _              => none

def reply (cs : Calls ρ σ) (c : Nat) : Option σ :=
  cs[c]?.bind (·.reply)

theorem pending_eq_some : cs.pending c = some r ↔ cs[c]? = some ⟨r, none⟩ := by
  unfold pending
  split
  case h_1 r' h => simp [h]
  case h_2 h    =>
    simp only [reduceCtorEq, false_iff]
    exact h r

theorem reply_eq_some : cs.reply c = some rep ↔ ∃ r, cs[c]? = some ⟨r, some rep⟩ := by
  cases h : cs[c]?
  case none => simp [reply, h]
  case some call =>
    have ⟨r, rep'⟩ := call
    simp [reply, h]

theorem send_getElem? (h : cs[i]? = some call) : (cs.send r)[i]? = some call :=
  List.getElem?_concat_of_getElem? h

theorem send_self : (cs.send r)[cs.length]? = some ⟨r, none⟩ := by
  simp [send]

theorem pending_send_length : (cs.send r).pending cs.length = some r :=
  pending_eq_some.mpr send_self

theorem answer_getElem?_ne (h : i ≠ c) : (cs.answer c rep)[i]? = cs[i]? := by
  simp [answer, h.symm]

theorem answer_self (h : cs[c]? = some ⟨r, old⟩) :
    (cs.answer c rep)[c]? = some ⟨r, some rep⟩ := by
  simp [answer, h]

theorem reply_send (h : cs.reply c = some rep) : (cs.send r).reply c = some rep :=
  have ⟨r, h⟩ := reply_eq_some.mp h
  reply_eq_some.mpr ⟨r, send_getElem? h⟩

theorem reply_answer_ne (hn : c ≠ i) (h : cs.reply c = some rep) :
    (cs.answer i rep').reply c = some rep :=
  have ⟨r, h⟩ := reply_eq_some.mp h
  reply_eq_some.mpr ⟨r, answer_getElem?_ne hn |>.trans h⟩

theorem reply_answer_self (h : cs[c]? = some ⟨r, old⟩) : (cs.answer c rep).reply c = some rep :=
  reply_eq_some.mpr ⟨r, answer_self h⟩

theorem reply_of_send (h : (cs.send r).reply c = some rep) : cs.reply c = some rep := by
  have ⟨r', h⟩ := reply_eq_some.mp h
  by_cases hc : c < cs.length
  case pos =>
    refine reply_eq_some.mpr ⟨r', ?_⟩
    rwa [send, List.getElem?_append_left hc] at h
  case neg =>
    rw [send, List.getElem?_append_right <| Nat.le_of_not_lt hc, List.getElem?_singleton] at h
    split at h <;> cases h

theorem reply_length : cs.reply cs.length = none := by
  simp [reply]

theorem reply_of_answer (h : (cs.answer i rep').reply c = some rep) :
    cs.reply c = some rep ∨ (c = i ∧ rep = rep') := by
  have ⟨r, h⟩ := reply_eq_some.mp h
  by_cases hc : c = i
  case neg => exact .inl <| reply_eq_some.mpr ⟨r, (answer_getElem?_ne hc).symm.trans h⟩
  case pos =>
    subst hc
    simp only [answer, List.getElem?_modify_eq, Option.map_eq_map, Option.map_eq_some_iff,
      Call.mk.injEq, Option.some.injEq] at h
    have ⟨_, _, _, he⟩ := h
    exact .inr ⟨rfl, he.symm⟩

-- The request of a call never changes.
def Carries (cs : Calls ρ σ) (c : Nat) (r : ρ) : Prop :=
  ∃ rep, cs[c]? = some ⟨r, rep⟩

theorem Carries.lt (h : cs.Carries c r) : c < cs.length :=
  have ⟨_, h⟩ := h
  List.getElem?_eq_some_iff.mp h |>.choose

theorem Carries.send (h : cs.Carries c r) : (cs.send r').Carries c r :=
  have ⟨rep, h⟩ := h
  ⟨rep, send_getElem? h⟩

theorem Carries.answer (h : cs.Carries i r) : (cs.answer c rep).Carries i r := by
  have ⟨_, h⟩ := h
  by_cases he : i = c
  case pos =>
    subst he
    exact ⟨_, answer_self h⟩
  case neg => exact ⟨_, answer_getElem?_ne he ▸ h⟩

theorem carries_self : (cs.send r).Carries cs.length r :=
  ⟨_, send_self⟩

theorem forall_send (hp : ∀ i call, cs[i]? = some call → P i call) (hn : P cs.length ⟨r, none⟩) :
    ∀ i call, (cs.send r)[i]? = some call → P i call :=
  List.forall_concat hp hn

-- A property of all calls survives an answer to a call which then has the property.
theorem forall_answer (hp : ∀ i call, cs[i]? = some call → P i call)
    (hc : ∀ r old, cs[c]? = some ⟨r, old⟩ → P c ⟨r, some rep⟩) :
    ∀ i call, (cs.answer c rep)[i]? = some call → P i call := by
  intro i call hi
  by_cases he : i = c
  case neg => exact hp i call <| answer_getElem?_ne he ▸ hi
  case pos =>
    subst he
    cases h : cs[i]?
    case none => simp [answer, h] at hi
    case some old =>
      have ⟨r, rep'⟩ := old
      exact Option.some.inj ((answer_self h).symm.trans hi) ▸ hc r rep' h

end Calls

import Mathlib.Algebra.Order.Ring.Nat
import LabSystems.Bytes.Decimal

-- Numbers with a fixed number of digits, of which the most significant one comes first.
namespace Radix

def digits (b : Nat) : Nat → Nat → List Nat
  | 0, _     => []
  | w + 1, n => n / b ^ w % b :: digits b w n

def value (b : Nat) (ds : List Nat) : Nat :=
  ds.foldl (fun n d => n * b + d) 0

variable {b w n m k d : Nat} {ds ds' : List Nat}

@[simp]
theorem length_digits : (digits b w n).length = w := by
  induction w
  case zero      => rfl
  case succ w hi => rw [digits, List.length_cons, hi]

theorem lt_of_mem_digits (hb : 0 < b) (h : d ∈ digits b w n) : d < b := by
  induction w
  case zero => simp [digits] at h
  case succ w hi =>
    rw [digits, List.mem_cons] at h
    exact h.elim (fun h => h ▸ Nat.mod_lt _ hb) hi

theorem take_digits : (digits b (m + k) n).take m = digits b m (n / b ^ k) := by
  induction m
  case zero => rfl
  case succ m hi =>
    rw [Nat.add_right_comm, digits, List.take_succ_cons, hi, digits, Nat.div_div_eq_div_mul, ← pow_add, Nat.add_comm k]

theorem value_append : value b (ds ++ ds') = value b ds * b ^ ds'.length + value b ds' := by
  induction ds' using List.reverseRecOn
  case nil => simp [value]
  case append_singleton ds' d hi =>
    have hs ds : value b (ds ++ [d]) = value b ds * b + d := by simp [value]
    rw [← List.append_assoc, hs, hs, hi, List.length_append, List.length_singleton, pow_succ, Nat.add_mul,
      Nat.mul_assoc, Nat.add_assoc]

theorem value_cons : value b (d :: ds) = d * b ^ ds.length + value b ds := by
  rw [← List.singleton_append, value_append]
  simp [value]

theorem value_append_zeros : value b (ds ++ List.replicate k 0) = value b ds * b ^ k := by
  have hz : value b (List.replicate k 0) = 0 := by
    induction k
    case zero      => rfl
    case succ k hi => rw [List.replicate_succ, value_cons, hi, Nat.zero_mul]
  rw [value_append, hz, List.length_replicate, Nat.add_zero]

theorem value_lt (h : ∀ d ∈ ds, d < b) : value b ds < b ^ ds.length := by
  induction ds
  case nil => simp [value]
  case cons d ds hi =>
    have hd := h d List.mem_cons_self
    have hv := hi fun d hm => h d <| List.mem_cons_of_mem _ hm
    rw [value_cons, List.length_cons, pow_succ']
    calc d * b ^ ds.length + value b ds
      _ < d * b ^ ds.length + b ^ ds.length := Nat.add_lt_add_left hv _
      _ = (d + 1) * b ^ ds.length           := (Nat.succ_mul _ _).symm
      _ ≤ b * b ^ ds.length                 := Nat.mul_le_mul_right _ hd

theorem value_digits : value b (digits b w n) = n % b ^ w := by
  induction w
  case zero => simp [digits, value, Nat.mod_one]
  case succ w hi =>
    rw [digits, value_cons, hi, length_digits, Nat.mod_pow_succ, Nat.add_comm, Nat.mul_comm]

theorem digits_value (h : ∀ d ∈ ds, d < b) : digits b ds.length (value b ds) = ds := by
  suffices h : ∀ m, digits b ds.length (m * b ^ ds.length + value b ds) = ds by simpa using h 0
  induction ds
  case nil => exact fun _ => rfl
  case cons d ds hi =>
    intro m
    have hd := h d List.mem_cons_self
    have ht d (hm : d ∈ ds) : d < b := h d <| List.mem_cons_of_mem _ hm
    have hm : m * b ^ (ds.length + 1) + value b (d :: ds) = (m * b + d) * b ^ ds.length + value b ds := by
      rw [value_cons, pow_succ', Nat.add_mul, Nat.mul_assoc, Nat.add_assoc]
    rw [List.length_cons, hm, digits, hi ht, Nat.add_comm, Nat.add_mul_div_right _ _ <| Nat.pow_pos (by omega),
      Nat.div_eq_of_lt <| value_lt ht, Nat.zero_add, Nat.mul_add_mod_of_lt hd]

end Radix

-- Five bytes are eight symbols. Fewer bytes at the end are fewer symbols, and then come equals signs.
namespace Base32

def alphabet : Bytes :=
  .ofString "ABCDEFGHIJKLMNOPQRSTUVWXYZ234567"

def pad : UInt8 :=
  61

def symbol (d : Nat) : UInt8 :=
  alphabet.getD d pad

def symbols (n : Nat) : Nat :=
  (8 * n + 4) / 5

def quantum (bs : Bytes) : Bytes :=
  let n := Radix.value 256 <| bs.map UInt8.toNat ++ List.replicate (5 - bs.length) 0
  ((Radix.digits 32 8 n).take (symbols bs.length)).map symbol ++ List.replicate (8 - symbols bs.length) pad

def encodeToString : Bytes → Bytes
  | b₁ :: b₂ :: b₃ :: b₄ :: b₅ :: bs => quantum [b₁, b₂, b₃, b₄, b₅] ++ encodeToString bs
  | []                               => []
  | bs                               => quantum bs

-- The bytes of one quantum without its padding.
def decodeSymbols (cs : Bytes) : Option Bytes := do
  let ds ← cs.mapM fun c => alphabet.idxOf? c
  let n := Radix.value 32 <| ds ++ List.replicate (8 - ds.length) 0
  return (Radix.digits 256 5 n).take (5 * ds.length / 8) |>.map Nat.toUInt8

def decodeLast (q : Bytes) : Option Bytes :=
  let cs := q.takeWhile (· ≠ pad)
  if (q.drop cs.length).all (· = pad) ∧ cs.length ∈ [2, 4, 5, 7, 8] then decodeSymbols cs else none

def decodeQuanta : Bytes → Option Bytes
  | []                                                      => some []
  | c₁ :: c₂ :: c₃ :: c₄ :: c₅ :: c₆ :: c₇ :: c₈ :: cs =>
    if cs = [] then
      decodeLast [c₁, c₂, c₃, c₄, c₅, c₆, c₇, c₈]
    else do
      return (← decodeSymbols [c₁, c₂, c₃, c₄, c₅, c₆, c₇, c₈]) ++ (← decodeQuanta cs)
  | _                                                       => none

-- Line ends are ignored.
def decodeString (s : Bytes) : Option Bytes :=
  decodeQuanta <| s.filter fun c => c ≠ 13 ∧ c ≠ 10

variable {bs cs : Bytes} {b c : UInt8} {d : Nat}

theorem idxOf_symbol (h : d < 32) : alphabet.idxOf? (symbol d) = some d := by
  have h (d : Fin 32) : alphabet.idxOf? (symbol d) = some d.val := by
    revert d
    decide
  exact h ⟨d, by assumption⟩

theorem symbol_mem (h : d < 32) : symbol d ∈ alphabet := by
  have h (d : Fin 32) : symbol d ∈ alphabet := by
    revert d
    decide
  exact h ⟨d, by assumption⟩

theorem mapM_symbol {ds : List Nat} (h : ∀ d ∈ ds, d < 32) :
    (ds.map symbol).mapM (fun c => alphabet.idxOf? c) = some ds := by
  induction ds
  case nil => rfl
  case cons d ds hi =>
    simp [idxOf_symbol <| h d List.mem_cons_self, hi fun d hm => h d <| List.mem_cons_of_mem _ hm]

-- A quantum's symbols are as many as are needed for its bytes.
theorem symbols_fit (h₁ : 1 ≤ n) (h₅ : n ≤ 5) : symbols n ≤ 8 ∧ symbols n ∈ [2, 4, 5, 7, 8] ∧ 5 * symbols n / 8 = n ∧
    32 ^ (8 - symbols n) ∣ 256 ^ (5 - n) := by
  have h : ∀ n ∈ [1, 2, 3, 4, 5], symbols n ≤ 8 ∧ symbols n ∈ [2, 4, 5, 7, 8] ∧ 5 * symbols n / 8 = n ∧
      32 ^ (8 - symbols n) ∣ 256 ^ (5 - n) := by
    decide
  refine h n ?_
  simp only [List.mem_cons, List.not_mem_nil]
  omega

-- The symbols of a quantum.
def digitsOf (bs : Bytes) : List Nat :=
  Radix.digits 32 (symbols bs.length) (Radix.value 256 (bs.map UInt8.toNat) * 256 ^ (5 - bs.length) /
    32 ^ (8 - symbols bs.length))

theorem quantum_eq (h₁ : 1 ≤ bs.length) (h₅ : bs.length ≤ 5) :
    quantum bs = (digitsOf bs).map symbol ++ List.replicate (8 - symbols bs.length) pad := by
  have hs := symbols_fit h₁ h₅ |>.left
  rw [quantum, Radix.value_append_zeros, ← Nat.add_sub_of_le hs, Radix.take_digits, Nat.add_sub_of_le hs, digitsOf]

theorem decodeSymbols_digitsOf (h₁ : 1 ≤ bs.length) (h₅ : bs.length ≤ 5) :
    decodeSymbols ((digitsOf bs).map symbol) = some bs := by
  obtain ⟨hs, _, hn, hd⟩ := symbols_fit h₁ h₅
  have hb d (hm : d ∈ bs.map UInt8.toNat) : d < 256 := by
    obtain ⟨b, _, rfl⟩ := List.mem_map.mp hm
    exact b.toNat_lt
  have hv := Radix.value_lt hb
  rw [List.length_map] at hv
  have hlt : Radix.value 256 (bs.map UInt8.toNat) * 256 ^ (5 - bs.length) / 32 ^ (8 - symbols bs.length) <
      32 ^ symbols bs.length := by
    refine Nat.div_lt_of_lt_mul ?_
    rw [← pow_add, Nat.sub_add_cancel hs]
    calc Radix.value 256 (bs.map UInt8.toNat) * 256 ^ (5 - bs.length)
      _ < 256 ^ bs.length * 256 ^ (5 - bs.length) := Nat.mul_lt_mul_of_pos_right hv <| Nat.pow_pos (by omega)
      _ = 32 ^ 8                                  := by rw [← pow_add, Nat.add_sub_of_le h₅]; rfl
  have hl : (digitsOf bs).length = symbols bs.length := Radix.length_digits
  have hm : (bs.map UInt8.toNat).map Nat.toUInt8 = bs := by
    rw [List.map_map, List.map_congr_left (g := id), List.map_id]
    intro b _
    simp
  have he := Radix.digits_value hb
  rw [List.length_map] at he
  have hds d (hm : d ∈ digitsOf bs) : d < 32 := Radix.lt_of_mem_digits (by omega) hm
  rw [decodeSymbols, mapM_symbol hds]
  simp only [Option.bind_eq_bind, Option.bind_some, Option.pure_def, hl, Radix.value_append_zeros, hn, Option.some.injEq]
  rw [digitsOf, Radix.value_digits, Nat.mod_eq_of_lt hlt, Nat.div_mul_cancel <| hd.mul_left _]
  have ht := Radix.take_digits (b := 256) (m := bs.length) (k := 5 - bs.length)
    (n := Radix.value 256 (bs.map UInt8.toNat) * 256 ^ (5 - bs.length))
  rw [Nat.add_sub_of_le h₅] at ht
  rw [ht, Nat.mul_div_cancel _ <| Nat.pow_pos (by omega), he, hm]

theorem length_quantum (h₁ : 1 ≤ bs.length) (h₅ : bs.length ≤ 5) : (quantum bs).length = 8 := by
  have hs := symbols_fit h₁ h₅ |>.left
  simp [quantum_eq h₁ h₅, digitsOf, Nat.add_sub_of_le hs]

theorem mem_quantum (h₁ : 1 ≤ bs.length) (h₅ : bs.length ≤ 5) (h : c ∈ quantum bs) : c ∈ alphabet ∨ c = pad := by
  rw [quantum_eq h₁ h₅, List.mem_append] at h
  rcases h with h | h
  case inl =>
    obtain ⟨d, hd, rfl⟩ := List.mem_map.mp h
    exact .inl <| symbol_mem <| Radix.lt_of_mem_digits (by omega) hd
  case inr => exact .inr <| List.eq_of_mem_replicate h

theorem decodeLast_quantum (h₁ : 1 ≤ bs.length) (h₅ : bs.length ≤ 5) : decodeLast (quantum bs) = some bs := by
  have hp : pad ∉ alphabet := by decide
  have hl : (digitsOf bs).length = symbols bs.length := Radix.length_digits
  have ht : (quantum bs).takeWhile (· ≠ pad) = (digitsOf bs).map symbol := by
    have hne c (hc : c ∈ (digitsOf bs).map symbol) : decide (c ≠ pad) = true := by
      obtain ⟨d, hd, rfl⟩ := List.mem_map.mp hc
      have hm := symbol_mem <| Radix.lt_of_mem_digits (by omega) hd
      simpa using ne_of_mem_of_not_mem hm hp
    rw [quantum_eq h₁ h₅, List.takeWhile_append_of_pos hne]
    simp
  have hd : (quantum bs).drop (symbols bs.length) = List.replicate (8 - symbols bs.length) pad := by
    rw [quantum_eq h₁ h₅, List.drop_left' <| by rw [List.length_map, hl]]
  simp only [decodeLast, ht, List.length_map, hl, hd]
  rw [if_pos, decodeSymbols_digitsOf h₁ h₅]
  exact ⟨by simp, symbols_fit h₁ h₅ |>.right.left⟩

theorem decodeQuanta_append {q : Bytes} (h : q.length = 8) : decodeQuanta (q ++ cs) =
    if cs = [] then decodeLast q else do return (← decodeSymbols q) ++ (← decodeQuanta cs) := by
  rcases q with _ | ⟨_, _ | ⟨_, _ | ⟨_, _ | ⟨_, _ | ⟨_, _ | ⟨_, _ | ⟨_, _ | ⟨_, _ | _⟩⟩⟩⟩⟩⟩⟩⟩
  all_goals first | rfl | cases h

theorem length_le_of_short (h : ∀ b₁ b₂ b₃ b₄ b₅ bs', bs ≠ b₁ :: b₂ :: b₃ :: b₄ :: b₅ :: bs') : bs.length ≤ 5 := by
  rcases bs with _ | ⟨_, _ | ⟨_, _ | ⟨_, _ | ⟨_, _ | ⟨_, _⟩⟩⟩⟩⟩
  case cons.cons.cons.cons.cons => exact (h _ _ _ _ _ _ rfl).elim
  all_goals simp

theorem encodeToString_eq_nil (h : encodeToString bs = []) : bs = [] := by
  fun_cases encodeToString bs
  case case1 => simpa [encodeToString, length_quantum] using congrArg List.length h
  case case2 => rfl
  case case3 hs hn =>
    have h₁ := List.length_pos_iff.mpr hn
    have hl := congrArg List.length h
    rw [encodeToString, length_quantum h₁ (length_le_of_short hs)] at hl
    case x_1 => exact hs
    case x_2 => exact hn
    cases hl

theorem decodeQuanta_encodeToString : decodeQuanta (encodeToString bs) = some bs := by
  fun_induction encodeToString bs
  case case1 b₁ b₂ b₃ b₄ b₅ bs hi =>
    have hq : [b₁, b₂, b₃, b₄, b₅].length = 5 := rfl
    rw [decodeQuanta_append <| length_quantum (by omega) (by omega)]
    by_cases hn : encodeToString bs = []
    case pos => rw [if_pos hn, decodeLast_quantum (by omega) (by omega), encodeToString_eq_nil hn]
    case neg =>
      have hd : decodeSymbols (quantum [b₁, b₂, b₃, b₄, b₅]) = some [b₁, b₂, b₃, b₄, b₅] := by
        rw [quantum_eq (by omega) (by omega), hq, show 8 - symbols 5 = 0 from rfl, List.replicate_zero, List.append_nil,
          decodeSymbols_digitsOf (by omega) (by omega)]
      rw [if_neg hn, hd, hi]
      rfl
  case case2 => rfl
  case case3 bs hs hn =>
    have h₁ := List.length_pos_iff.mpr hn
    have h₅ := length_le_of_short hs
    have ha : decodeQuanta (quantum bs ++ []) = _ := decodeQuanta_append <| length_quantum h₁ h₅
    rwa [List.append_nil, if_pos rfl, decodeLast_quantum h₁ h₅] at ha

theorem mem_encodeToString (h : c ∈ encodeToString bs) : c ∈ alphabet ∨ c = pad := by
  fun_induction encodeToString bs
  case case1 bs hi =>
    rw [List.mem_append] at h
    exact h.elim (mem_quantum (by simp) (by simp)) hi
  case case2          => cases h
  case case3 bs hs hn => exact mem_quantum (List.length_pos_iff.mpr hn) (length_le_of_short hs) h

-- What is decoded is what has been encoded.
theorem decodeString_encodeToString : decodeString (encodeToString bs) = some bs := by
  have hf : (encodeToString bs).filter (fun c => c ≠ 13 ∧ c ≠ 10) = encodeToString bs := by
    refine List.filter_eq_self.mpr fun c hc => ?_
    have h : (pad :: alphabet).all fun c => c ≠ 13 ∧ c ≠ 10 := rfl
    exact List.all_eq_true.mp h c <| List.mem_cons.mpr <| (mem_encodeToString hc).symm
  rw [decodeString, hf, decodeQuanta_encodeToString]

theorem encodeToString_inj {bs' : Bytes} (h : encodeToString bs = encodeToString bs') : bs = bs' :=
  Option.some.inj <| decodeString_encodeToString.symm.trans <| h ▸ decodeString_encodeToString

theorem slash_not_mem_encodeToString : 47 ∉ encodeToString bs := by
  intro h
  have hn : ¬((47 : UInt8) ∈ alphabet ∨ (47 : UInt8) = pad) := by decide
  exact hn <| mem_encodeToString h

example : encodeToString (.ofString "foobar") = .ofString "MZXW6YTBOI======" := by
  decide

end Base32

import LabSystems.Bytes.Decimal

namespace Ssdb

-- Signed integers of 32 bits wrap around.
def int (n : Int) : Int :=
  (n + 2 ^ 31) % 2 ^ 32 - 2 ^ 31

theorem int_eq {n : Int} (h : -2 ^ 31 ≤ n) (h' : n < 2 ^ 31) : int n = n := by
  unfold int
  omega

theorem int_lt {n : Int} : int n < 2 ^ 31 := by
  unfold int
  omega

theorem int_sub_lt {n k : Int} (h : 1 ≤ k) (hk : k ≤ n) : int (n - k) < n := by
  unfold int
  omega

-- A pointer into a buffer, counted from the start of the data, and a number of bytes.
structure View where
  data : Int
  size : Int
  deriving DecidableEq, Repr

-- The memory of a buffer: what has been consumed, the data, and the space. Its size is a signed integer.
@[ext]
structure Buffer where
  before : Bytes
  data   : Bytes
  after  : Bytes
  bound  : before.length + data.length + after.length < 2 ^ 31
  deriving DecidableEq

namespace Buffer

def total (b : Buffer) : Nat :=
  b.before.length + b.data.length + b.after.length

def size (b : Buffer) : Nat :=
  b.data.length

def space (b : Buffer) : Nat :=
  b.after.length

-- The memory from the start of the data to the end of the buffer.
def memory (b : Buffer) : Bytes :=
  b.data ++ b.after

def byte (b : Buffer) (i : Int) : UInt8 :=
  b.memory.getD i.toNat 0

def view (b : Buffer) (v : View) : Bytes :=
  b.memory.drop v.data.toNat |>.take v.size.toNat

def memchr (b : Buffer) (c : UInt8) (head size : Int) : Option Int :=
  b.view ⟨head, size⟩ |>.findIdx? (· = c) |>.map fun (i : Nat) => head + i

theorem memchr_lt {b : Buffer} {head n : Int} (h : b.memchr c head n = some lf) : head ≤ lf ∧ lf < head + n := by
  have ⟨i, hi, he⟩ := Option.map_eq_some_iff.mp h
  have ⟨hl, _⟩ := List.findIdx?_eq_some_iff_getElem.mp hi
  simp only [view, List.length_take] at hl
  omega

-- A parser has come to a place in the data.
structure At (b : Buffer) (head rest parsed : Int) : Prop where
  parsed_eq   : parsed = head
  head_nonneg : 0 ≤ head
  rest_nonneg : 0 ≤ rest
  size_eq     : head + rest = b.size

theorem size_lt (b : Buffer) : b.size < 2 ^ 31 := by
  have hb := b.bound
  unfold size
  omega

theorem At.skip {b : Buffer} {head rest parsed k : Int} (h : b.At head rest parsed) (h₀ : 0 ≤ k) (hk : k ≤ rest) :
    b.At (head + k) (int (rest - k)) (int (parsed + k)) ∧ int (parsed + k) = parsed + k := by
  have ⟨hp, hh, hr, hs⟩ := h
  have hl := b.size_lt
  rw [int_eq (by omega) (by omega), int_eq (by omega) (by omega)]
  refine ⟨?_, rfl⟩
  constructor <;> omega

theorem At.parsed_le {b : Buffer} {head rest parsed : Int} (h : b.At head rest parsed) : parsed ≤ b.size := by
  have ⟨hp, _, hr, hs⟩ := h
  omega

theorem At.line {b : Buffer} {head rest parsed : Int} (h : b.At head rest parsed) (hlf : b.memchr c head rest = some lf) :
    b.At (lf + 1) (int (rest - (lf + 1 - head))) (int (parsed + (lf + 1 - head))) ∧
      parsed < int (parsed + (lf + 1 - head)) := by
  have hl := memchr_lt hlf
  have ⟨hs, hp⟩ := h.skip (k := lf + 1 - head) (by omega) (by omega)
  rw [add_sub_cancel] at hs
  exact ⟨hs, by omega⟩

-- What is in the memory when it is allocated is given by `heap`.
section

variable (heap : Nat → UInt8)

def new (total : Nat) (h : total < 2 ^ 31) : Buffer where
  before := []
  data   := []
  after  := List.range total |>.map heap
  bound  := by simpa using h

def decr (b : Buffer) (num : Int) : Buffer where
  before := b.before ++ b.data.take num.toNat
  data   := b.data.drop num.toNat
  after  := b.after
  bound  := by
    have hb := b.bound
    simp only [List.length_append, List.length_take, List.length_drop]
    omega

def nice (b : Buffer) : Buffer :=
  if b.size = 0 ∨ b.before.length > b.total / 2 then
    { before := []
      data   := b.data
      after  := b.before ++ b.data ++ b.after |>.drop b.size
      bound  := by
        have hb := b.bound
        simp only [List.length_append, List.length_drop, List.length_nil, size]
        omega }
  else
    b

def newTotal (total : Nat) : Nat :=
  if total < 8 * 1024 then 8 * 1024 else if total < 512 * 1024 then 8 * total else 2 * total

theorem lt_newTotal {n : Nat} : n < newTotal n := by
  unfold newTotal
  split_ifs <;> omega

-- A size that is not representable becomes negative, and there is no such memory.
def grow (b : Buffer) : Option Buffer :=
  if h : newTotal b.total < 2 ^ 31 then
    some { b with
      after := b.after ++ (List.range' b.total (newTotal b.total - b.total)).map heap
      bound := by
        have hl : b.total < newTotal b.total := lt_newTotal
        have ht : b.total = b.before.length + b.data.length + b.after.length := rfl
        simp only [List.length_append, List.length_map, List.length_range']
        omega }
  else
    none

-- Both parsers do this when there is no whole request. The second component is -1 if there is no memory.
def reserve (b : Buffer) : Buffer × Int :=
  if b.space = 0 then
    let b := b.nice
    if b.space = 0 then
      match b.grow heap with
      | none   => (b, -1)
      | some b => (b, b.total)
    else
      (b, 0)
  else
    (b, 0)

variable {heap}

theorem grow_eq_some {b b' : Buffer} (h : b.grow heap = some b') : b'.total = newTotal b.total ∧
    b'.before = b.before ∧ b'.data = b.data := by
  unfold grow at h
  have hl : b.total < newTotal b.total := lt_newTotal
  split at h
  case isFalse => cases h
  case isTrue =>
    rw [← Option.some.inj h]
    have ht : b.total = b.before.length + b.data.length + b.after.length := rfl
    refine ⟨?_, rfl, rfl⟩
    simp only [total, List.length_append, List.length_map, List.length_range'] at hl ⊢
    omega

theorem total_lt_of_grow {b b' : Buffer} (h : b.grow heap = some b') : b.total < b'.total :=
  (grow_eq_some h).left ▸ lt_newTotal

theorem total_lt (b : Buffer) : b.total < 2 ^ 31 :=
  b.bound

variable (heap)

def append (b : Buffer) (p : Bytes) : Buffer × Int :=
  if h : p.length > b.space then
    match hg : b.grow heap with
    | none    => (b, -1)
    | some b' => b'.append p
  else
    ({ b with
      data  := b.data ++ p
      after := b.after.drop p.length
      bound := by
        have hb := b.bound
        simp only [List.length_append, List.length_drop, space] at h ⊢
        omega }, p.length)
termination_by 2 ^ 31 - b.total
decreasing_by
  have hl := total_lt_of_grow hg
  have hb := b'.total_lt
  omega

-- The size of a string is cut to a signed integer. A negative one is an enormous one for `memcpy`, and what it does
-- is not defined.
def appendString (b : Buffer) (s : Bytes) : Option (Buffer × Int) :=
  if int s.length < 0 then none else b.append heap <| s.take (int s.length).toNat

-- Strings that are appended without looking at what the calls return.
def appendStrings (b : Buffer) (ss : List Bytes) : Option Buffer :=
  ss.foldlM (fun b s => (b.appendString heap s).map Prod.fst) b

-- A string is preceded by its length.
def record (s : Bytes) : Bytes :=
  .decimal s.length ++ '\n'.toUInt8 :: s ++ ['\n'.toUInt8]

theorem length_le_record : s.length ≤ (record s).length := by
  simp only [record, List.length_append, List.length_cons]
  omega

def appendRecord (b : Buffer) (s : Bytes) : Buffer × Int :=
  if 16 + s.length + 1 > b.space then
    match hg : b.grow heap with
    | none    => (b, -1)
    | some b' => b'.appendRecord s
  else
    b.append heap (record s)
termination_by 2 ^ 31 - b.total
decreasing_by
  have hl := total_lt_of_grow hg
  have hb := b'.total_lt
  omega

end

end Buffer

end Ssdb

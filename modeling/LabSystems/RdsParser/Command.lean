import LabSystems.RdsParser.Basic

-- What a command is, and what the parser takes for one.

namespace RdsParser

structure Number where
  digits  : Bytes
  ne_nil  : digits ≠ []
  isDigit : ∀ d ∈ digits, Bytes.isDigit d

structure Arg where
  size    : Number
  payload : Bytes

structure Command where
  num  : Number
  args : List Arg

def eol : Bytes :=
  [13, 10]

def Number.value (n : Number) : Nat :=
  Bytes.ofDigits n.digits

def Number.argHead (k : Number) : Bytes :=
  36 :: k.digits ++ eol

def Arg.text (a : Arg) : Bytes :=
  a.size.argHead ++ a.payload ++ eol

namespace Command

def text (c : Command) : Bytes :=
  42 :: c.num.digits ++ eol ++ c.args.flatMap Arg.text

def snoc (c : Command) (k : Number) (payload : Bytes) : Command :=
  { c with args := c.args ++ [⟨k, payload⟩] }

structure Complete (c : Command) : Prop where
  ne_nil  : c.args ≠ []
  num     : c.args.length = c.num.value
  payload : ∀ a ∈ c.args, a.payload ≠ [] ∧ a.payload.length = a.size.value

end Command

-- The end of an argument and the first character of the next one do not occur in the payload, other than at its very
-- end or before its first character is read.
def Unbroken (payload : Bytes) : Prop :=
  ∀ u v, payload = u ++ eol ++ 36 :: v → u = [] ∨ v = []

-- A payload may be shorter than its size.
structure Arg.Loose (a : Arg) : Prop where
  ne_nil   : a.payload ≠ []
  le       : a.payload.length ≤ a.size.value
  unbroken : Unbroken a.payload

-- There may be any number of arguments.
structure Command.Loose (c : Command) : Prop where
  ne_nil : c.args ≠ []
  args   : ∀ a ∈ c.args, a.Loose

-- A number does not fit into an int, or an argument does not fit into the arrays.
inductive Overruns (s : Bytes) : Prop
  | num (n : Number) (rest : Bytes) (hs : s = 42 :: n.digits ++ rest) (h : 2 ^ 31 ≤ n.value)
  | size (c : Command) (k : Number) (rest : Bytes) (hc : ∀ a ∈ c.args, a.Loose)
    (hs : s = c.text ++ 36 :: k.digits ++ rest) (h : 2 ^ 31 ≤ k.value)
  | args (c : Command) (k : Number) (rest : Bytes) (hc : ∀ a ∈ c.args, a.Loose)
    (hs : s = c.text ++ k.argHead ++ rest) (h : c.num.value ≤ c.args.length)

structure Parser.Holds (sc : Parser) (c : Command) : Prop where
  argNum   : sc.argNum = c.args.length
  args     : sc.args = c.args.map fun a => some <| a.payload.map some
  argSizes : sc.argSizes = c.args.map fun a => some a.payload.length

-- The parser succeeds on the complete commands and nothing else, it then holds the arguments, and it never stores
-- outside its arrays.
structure Parses (sc : Parser) (s : Bytes) (x : Run) (ret : Int) : Prop where
  exec    : rdsParserExec (rdsParserInit sc) s = some (x, ret)
  success : ret = 1 ∧ rdsParserFinish x = 1 ↔ ∃ c : Command, c.Complete ∧ c.text = s
  holds   : rdsParserFinish x = 1 → ∀ c : Command, c.Complete → c.text = s → x.snd.Holds c

end RdsParser

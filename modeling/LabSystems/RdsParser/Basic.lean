import LabSystems.Bytes.Decimal
import LabSystems.Ragel.Basic

-- The parser of Redis commands, src/ragel/rdsparser.rl. What the program does is not defined once it stores outside
-- an array or a number does not fit into an int. Memory that is allocated holds nothing until it is written. The
-- program does not look at the result of `malloc`, which is assumed to succeed for any size.

namespace RdsParser

open Ragel

structure Parser where
  argNum     : Nat
  argSize    : Nat
  curArg     : Int
  curArgChar : Nat
  args       : List (Option (List (Option UInt8)))
  argSizes   : List (Option Nat)

def store (xs : List τ) (i : Int) (x : τ) : Option (List τ) :=
  if 0 ≤ i ∧ i < xs.length then some <| xs.set i.toNat x else none

-- An element of an array of pointers, when it points to something.
def load (xs : List (Option τ)) (i : Int) : Option τ :=
  if 0 ≤ i then xs[i.toNat]?.join else none

-- `malloc` when it succeeds, as it always does here.
def malloc (size : Nat) : List (Option τ) :=
  List.replicate size none

def addDigit (n : Nat) (c : UInt8) : Option Nat :=
  if 10 * n + (c.toNat - 48) < 2 ^ 31 then some <| 10 * n + (c.toNat - 48) else none

inductive Action
  | argsInit
  | argInit
  | argAddChar
  | argNumAddDigit
  | argSizeReset
  | argSizeAddDigit
  deriving DecidableEq

inductive Condition
  | testArgLen

inductive Chars
  | any
  | digit
  | lit (c : UInt8)

def Chars.has : Chars → UInt8 → Bool
  | any,   _ => true
  | digit, c => Bytes.isDigit c
  | lit l, c => c = l

def Condition.test : Condition → Parser → Bool
  | testArgLen, sc => sc.curArgChar < sc.argSize

-- All calls of `malloc` succeed.
def Action.run : Action → UInt8 → Parser → Option Parser
  | argsInit, _, sc => some { sc with
      curArg   := -1
      args     := malloc sc.argNum
      argSizes := malloc sc.argNum }
  | argInit, _, sc => do
      let curArg := sc.curArg + 1
      let argSizes ← store sc.argSizes curArg (some sc.argSize)
      let args ← store sc.args curArg (some <| malloc sc.argSize)
      return { sc with curArg, curArgChar := 0, argSizes, args }
  | argAddChar, c, sc => do
      let arg ← load sc.args sc.curArg
      let arg ← store arg sc.curArgChar (some c)
      let args ← store sc.args sc.curArg (some arg)
      return { sc with args, curArgChar := sc.curArgChar + 1 }
  | argNumAddDigit, c, sc => do
      return { sc with argNum := ← addDigit sc.argNum c }
  | argSizeReset, _, sc => some { sc with argSize := 0 }
  | argSizeAddDigit, c, sc => do
      return { sc with argSize := ← addDigit sc.argSize c }

abbrev Regex :=
  Expr Chars Action Condition

def crlf : Regex :=
  .cat (.chars <| .lit 13) (.chars <| .lit 10)

def rdsArgNum : Regex :=
  .cat (.chars <| .lit 42) <| .cat (.plus <| .finish (.chars .digit) .argNumAddDigit) crlf

def rdsArgSize : Regex :=
  .cat (.finish (.chars <| .lit 36) .argSizeReset) <|
    .cat (.plus <| .finish (.chars .digit) .argSizeAddDigit) crlf

def rdsArg : Regex :=
  .cat (.plus <| .finish (.when (.chars .any) .testArgLen) .argAddChar) crlf

def rdsCmd : Regex :=
  .cat (.finish rdsArgNum .argsInit) <| .plus <| .cat (.finish rdsArgSize .argInit) rdsArg

def machine : Machine Chars Action Condition UInt8 Parser where
  main := rdsCmd
  has  := Chars.has
  test := Condition.test
  act  := Action.run

-- The states that the machine may be in, with the parser.
abbrev Run :=
  List Regex × Parser

def rdsParserInit (sc : Parser) : Run :=
  ([rdsCmd], { sc with argNum := 0, argSize := 0 })

def rdsParserFinish (x : Run) : Int :=
  if x.fst = [] then -1 else if Machine.isFinal x.fst then 1 else 0

def rdsParserExec (x : Run) (data : Bytes) : Option (Run × Int) :=
  machine.exec x data |>.map fun x => (x, rdsParserFinish x)

end RdsParser

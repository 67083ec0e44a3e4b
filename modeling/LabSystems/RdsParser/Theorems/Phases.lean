import Mathlib.Tactic.SplitIfs
import LabSystems.RdsParser.Basic

namespace RdsParser

open Ragel

-- The sets of states that the machine comes to, by what it has read last. In a payload, `text`, a carriage return may
-- begin the end of the argument, and the end of the argument may be followed by the next one.
inductive Phase
  | start
  | star
  | num
  | numCr
  | header
  | dollar
  | size
  | sizeCr
  | opened
  | text
  | textCr
  | textEnd
  | textDollar
  | cr
  | done
  | error
  deriving DecidableEq

namespace Phase

def digits (act : Action) : Regex :=
  .cat (.finish .eps act) <| .star <| .finish (.chars .digit) act

def lf : Regex :=
  .cat .eps <| .chars <| .lit 10

def arg : Regex :=
  .cat (.finish rdsArgSize .argInit) rdsArg

def readingNum (e : Regex) : Regex :=
  .cat (.finish e .argsInit) <| .plus arg

def readingSize (e : Regex) : Regex :=
  .cat (.cat (.finish e .argInit) rdsArg) <| .star arg

def payload : Regex :=
  .cat (.cat (.cat (.finish (.when .eps .testArgLen) .argAddChar)
    (.star <| .finish (.when (.chars .any) .testArgLen) .argAddChar)) crlf) <| .star arg

def afterDollar : Regex :=
  readingSize <| .cat (.finish .eps .argSizeReset) <| .cat (.plus <| .finish (.chars .digit) .argSizeAddDigit) crlf

def exprs : Phase → List Regex
  | start      => [rdsCmd]
  | star       => [readingNum <| .cat .eps <| .cat (.plus <| .finish (.chars .digit) .argNumAddDigit) crlf]
  | num        => [readingNum <| .cat (digits .argNumAddDigit) crlf]
  | numCr      => [readingNum lf]
  | header     => [readingNum .eps]
  | dollar     => [afterDollar]
  | size       => [readingSize <| .cat (digits .argSizeAddDigit) crlf]
  | sizeCr     => [readingSize lf]
  | opened     => [readingSize .eps]
  | text       => [payload]
  | textCr     => [payload, .cat lf <| .star arg]
  | textEnd    => [payload, .cat .eps <| .star arg]
  | textDollar => [payload, afterDollar]
  | cr         => [.cat lf <| .star arg]
  | done       => [.cat .eps <| .star arg]
  | error      => []

-- The next character of a payload, while there is room for it.
def add : Phase → UInt8 → Phase
  | opened, _  => text
  | textCr, c  => if c = 10 then textEnd else if c = 13 then textCr else text
  | textEnd, c => if c = 36 then textDollar else if c = 13 then textCr else text
  | _, c       => if c = 13 then textCr else text

def next (b : Bool) (c : UInt8) : Phase → List Action × Phase
  | start      => if c = 42 then ([], star) else ([], error)
  | star       => if Bytes.isDigit c then ([.argNumAddDigit], num) else ([], error)
  | num        => if Bytes.isDigit c then ([.argNumAddDigit], num) else if c = 13 then ([], numCr) else ([], error)
  | numCr      => if c = 10 then ([.argsInit], header) else ([], error)
  | header     => if c = 36 then ([.argSizeReset], dollar) else ([], error)
  | dollar     => if Bytes.isDigit c then ([.argSizeAddDigit], size) else ([], error)
  | size       => if Bytes.isDigit c then ([.argSizeAddDigit], size) else if c = 13 then ([], sizeCr) else ([], error)
  | sizeCr     => if c = 10 then ([.argInit], opened) else ([], error)
  | opened     => if b then ([.argAddChar], text) else ([], error)
  | text       => if b then ([.argAddChar], text.add c) else if c = 13 then ([], cr) else ([], error)
  | textCr     => if b then ([.argAddChar], textCr.add c) else if c = 10 then ([], done) else
                    if c = 13 then ([], cr) else ([], error)
  | textEnd    => if b then (if c = 36 then [.argSizeReset, .argAddChar] else [.argAddChar], textEnd.add c) else
                    if c = 36 then ([.argSizeReset], dollar) else if c = 13 then ([], cr) else ([], error)
  | textDollar => if Bytes.isDigit c then ([.argSizeAddDigit], size) else if c = 13 then ([], cr) else ([], error)
  | cr         => if c = 10 then ([], done) else ([], error)
  | done       => if c = 36 then ([.argSizeReset], dollar) else ([], error)
  | error      => ([], error)

section Arcs

variable {c : UInt8}

def arcs (e : Regex) (c : UInt8) : List (Arc Chars Action Condition) :=
  e.arcs (machine.has · c)

attribute [local simp] arcs Expr.arcs Expr.nullable Chars.has machine

theorem not_isDigit_cr : Bytes.isDigit 13 = false :=
  rfl

theorem ne_cr (h : Bytes.isDigit c) : c ≠ 13 := by
  rintro rfl
  cases h

theorem arcs_start : arcs rdsCmd c = if c = 42 then
    [⟨[], [], readingNum <| .cat .eps <| .cat (.plus <| .finish (.chars .digit) .argNumAddDigit) crlf⟩] else [] := by
  split <;> simp [rdsCmd, rdsArgNum, readingNum, arg, *]

theorem arcs_star :
    arcs (readingNum <| .cat .eps <| .cat (.plus <| .finish (.chars .digit) .argNumAddDigit) crlf) c =
      if Bytes.isDigit c then [⟨[], [.argNumAddDigit], readingNum <| .cat (digits .argNumAddDigit) crlf⟩] else [] := by
  split <;> simp [readingNum, digits, arg, crlf, *]

theorem arcs_num : arcs (readingNum <| .cat (digits .argNumAddDigit) crlf) c =
    if Bytes.isDigit c then [⟨[], [.argNumAddDigit], readingNum <| .cat (digits .argNumAddDigit) crlf⟩] else
      if c = 13 then [⟨[], [], readingNum lf⟩] else [] := by
  split_ifs with hd
  case pos => simp [readingNum, digits, crlf, hd, ne_cr hd]
  all_goals simp [readingNum, digits, crlf, lf, not_isDigit_cr, *]

theorem arcs_numCr : arcs (readingNum lf) c = if c = 10 then [⟨[], [.argsInit], readingNum .eps⟩] else [] := by
  split <;> simp [readingNum, lf, *]

theorem arcs_header : arcs (readingNum .eps) c = if c = 36 then [⟨[], [.argSizeReset], afterDollar⟩] else [] := by
  split <;> simp [readingNum, arg, rdsArgSize, afterDollar, readingSize, *]

theorem arcs_dollar : arcs afterDollar c = if Bytes.isDigit c then
    [⟨[], [.argSizeAddDigit], readingSize <| .cat (digits .argSizeAddDigit) crlf⟩] else [] := by
  split <;> simp [afterDollar, readingSize, digits, crlf, *]

theorem arcs_size : arcs (readingSize <| .cat (digits .argSizeAddDigit) crlf) c =
    if Bytes.isDigit c then [⟨[], [.argSizeAddDigit], readingSize <| .cat (digits .argSizeAddDigit) crlf⟩] else
      if c = 13 then [⟨[], [], readingSize lf⟩] else [] := by
  split_ifs with hd
  case pos => simp [readingSize, digits, crlf, hd, ne_cr hd]
  all_goals simp [readingSize, digits, crlf, lf, not_isDigit_cr, *]

theorem arcs_sizeCr : arcs (readingSize lf) c = if c = 10 then [⟨[], [.argInit], readingSize .eps⟩] else [] := by
  split <;> simp [readingSize, lf, *]

theorem arcs_opened : arcs (readingSize .eps) c = [⟨[.testArgLen], [.argAddChar], payload⟩] := by
  simp [readingSize, rdsArg, payload]

theorem arcs_payload : arcs payload c = ⟨[.testArgLen], [.argAddChar], payload⟩ ::
    if c = 13 then [⟨[], [], .cat lf <| .star arg⟩] else [] := by
  split <;> simp [payload, lf, crlf, *]

theorem arcs_cr : arcs (.cat lf <| .star arg) c = if c = 10 then [⟨[], [], .cat .eps <| .star arg⟩] else [] := by
  split <;> simp [lf, *]

theorem arcs_done : arcs (.cat .eps <| .star arg) c = if c = 36 then [⟨[], [.argSizeReset], afterDollar⟩] else [] := by
  split <;> simp [arg, rdsArgSize, afterDollar, readingSize, *]

end Arcs
end Phase

theorem acts_main : machine.main.acts =
    [.argNumAddDigit, .argsInit, .argSizeReset, .argSizeAddDigit, .argInit, .argAddChar] :=
  rfl

theorem step_eq : machine.step (es, sc) c =
    let ts := es.flatMap (Phase.arcs · c) |>.filter (·.conds.all (machine.test · sc))
    machine.main.acts.filter (fun a => ts.any (a ∈ ·.acts)) |>.foldlM (fun sc a => Action.run a c sc) sc
      |>.map (ts.map (·.target), ·) :=
  rfl

theorem step_exprs {φ : Phase} (h : φ = .textDollar → Condition.testArgLen.test sc = false) :
    machine.step (φ.exprs, sc) c =
      ((φ.next (Condition.testArgLen.test sc) c).fst.foldlM (fun sc a => Action.run a c sc) sc).map
        ((φ.next (Condition.testArgLen.test sc) c).snd.exprs, ·) := by
  have ht : machine.test .testArgLen sc = Condition.testArgLen.test sc := rfl
  simp only [step_eq, acts_main]
  generalize Condition.testArgLen.test sc = b at h ht
  cases φ <;> simp only [Phase.exprs, Phase.next, List.flatMap_cons, List.flatMap_nil, List.append_nil]
  case start  => rw [Phase.arcs_start]; split <;> rfl
  case star   => rw [Phase.arcs_star]; split <;> rfl
  case num    => rw [Phase.arcs_num]; split_ifs <;> rfl
  case numCr  => rw [Phase.arcs_numCr]; split <;> rfl
  case header => rw [Phase.arcs_header]; split <;> rfl
  case dollar => rw [Phase.arcs_dollar]; split <;> rfl
  case size   => rw [Phase.arcs_size]; split_ifs <;> rfl
  case sizeCr => rw [Phase.arcs_sizeCr]; split <;> rfl
  case cr     => rw [Phase.arcs_cr]; split <;> rfl
  case done   => rw [Phase.arcs_done]; split <;> rfl
  case error  => rfl
  case opened =>
    rw [Phase.arcs_opened]
    cases b <;> simp [ht]
  case text =>
    rw [Phase.arcs_payload]
    by_cases hc : c = 13 <;> cases b <;> simp [List.filter_cons, ht, Phase.add, hc]
  case textCr =>
    rw [Phase.arcs_payload, Phase.arcs_cr]
    by_cases hl : c = 10
    case pos =>
      subst hl
      cases b <;> simp [List.filter_cons, ht, Phase.add]
    case neg => by_cases hc : c = 13 <;> cases b <;> simp [List.filter_cons, ht, Phase.add, hc, hl]
  case textEnd =>
    rw [Phase.arcs_payload, Phase.arcs_done]
    by_cases hl : c = 36
    case pos =>
      subst hl
      cases b <;> simp [List.filter_cons, ht, Phase.add]
    case neg => by_cases hc : c = 13 <;> cases b <;> simp [List.filter_cons, ht, Phase.add, hc, hl]
  case textDollar =>
    rw [Phase.arcs_payload, Phase.arcs_dollar]
    cases h rfl
    by_cases hd : Bytes.isDigit c
    case pos => simp [List.filter_cons, ht, hd, Phase.ne_cr hd]
    case neg => by_cases hc : c = 13 <;> simp [List.filter_cons, ht, hd, hc, Phase.not_isDigit_cr]

end RdsParser

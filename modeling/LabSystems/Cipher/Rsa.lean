import LabSystems.Words.Basic

namespace Cipher

open Words

-- The loops run as long as there is fuel.
def euclid : Nat → Int64 → Int64 → Int64 → Int64 → Words Int64
  | 0, _, _, _, _ => failure
  | fuel + 1, u1, v1, u3, v3 =>
    if v3 ≤ 0 then
      return u1
    else do
      let q ← quo u3 v3
      euclid fuel v1 (u1 - (← mul v1 q)) v3 (u3 - (← mul v3 q))

def makePositive : Nat → Int64 → Int64 → Words Int64
  | 0, _, _ => failure
  | fuel + 1, u1, v => if u1 < 0 then makePositive fuel (u1 + v) v else return u1

def inverse (fuel : Nat) (u v : Int64) : Words Int64 := do
  makePositive fuel (← euclid fuel 1 0 u v) v

-- The binary digits of a number, the lowest one first.
def sequence : Nat → Int64 → Words (List Int64)
  | 0, _ => failure
  | fuel + 1, c =>
    if c ≤ 0 then
      return []
    else do
      let bit := if c &&& 1 ≠ 0 then 1 else 0
      return bit :: (← sequence fuel (c / 2))

def round (x n : Int64) (z bit : Int64) : Words Int64 := do
  let z ← rem (← mul z z) n
  if bit = 1 then rem (← mul z x) n else return z

def squareAndMultipy (fuel : Nat) (x c n : Int64) : Words Int64 := do
  let seq ← sequence fuel c
  seq.reverse.foldlM (round x n) 1

end Cipher

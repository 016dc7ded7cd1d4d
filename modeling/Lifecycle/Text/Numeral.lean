import Lifecycle.Text

/-!
# Whole numbers and truth values in arguments

A number may have a sign, a base (`0x`, `0o`, `0b` or just `0`) and underscores between its digits.
It has to fit into 64 bits.
-/

namespace Lifecycle

inductive NumeralError where
  | malformed
  | outOfRange
deriving DecidableEq

def NumeralError.text : NumeralError → Text
  | .malformed => "invalid syntax"
  | .outOfRange => "value out of range"

namespace Numeral

def digit? (c : Char) : Option Nat :=
  if c.isDigit then some (c.toNat - 48)
  else if c.isAlpha then some (c.toLower.toNat - 87)
  else none

def base : List Char → Nat × List Char
  | '0' :: x :: c :: cs =>
    if x.toLower = 'x' then (16, c :: cs)
    else if x.toLower = 'o' then (8, c :: cs)
    else if x.toLower = 'b' then (2, c :: cs)
    else (8, x :: c :: cs)
  | '0' :: cs => (8, cs)
  | cs => (10, cs)

def value (base : Nat) : Nat → List Char → Except NumeralError Nat
  | n, [] => .ok n
  | n, c :: cs =>
    if c = '_' then value base n cs
    else
      match digit? c with
      | none => .error .malformed
      | some d =>
        if base ≤ d then .error .malformed
        else if UInt64.size ≤ base * n + d then .error .outOfRange
        else value base (base * n + d) cs

def underscoresOk (cs : List Char) : Bool :=
  match cs with
  | '0' :: x :: rest =>
    if ['b', 'o', 'x'].contains x.toLower then go true (x.toLower = 'x') rest else go false false cs
  | _ => go false false cs
where
  go : Bool → Bool → List Char → Bool
    | _, _, [] => true
    | digit, hex, c :: cs =>
      if c = '_' then
        digit && match cs with
          | [] => false
          | d :: _ => isDigit hex d && go false hex cs
      else go (isDigit hex c) hex cs
  isDigit (hex : Bool) (c : Char) : Bool :=
    c.isDigit || hex && 'a' ≤ c.toLower && c.toLower ≤ 'f'

def parse (t : Text) : Except NumeralError Int64 := do
  let all := t.toList.map fun b => Char.ofNat b.toNat
  let (negative, cs) : Bool × List Char := match all with
    | '-' :: cs => (true, cs)
    | '+' :: cs => (false, cs)
    | cs => (false, cs)
  if cs.isEmpty then throw .malformed
  let (b, digits) := base cs
  let n ← value b 0 digits
  if cs.contains '_' && !underscoresOk cs then throw .malformed
  let n : Int := if negative then -n else n
  if n < Int64.minValue.toInt || Int64.maxValue.toInt < n then throw .outOfRange
  return .ofInt n

def truth? (t : Text) : Option Bool :=
  let yes : List Text := ["1", "t", "T", "TRUE", "true", "True"]
  let no : List Text := ["0", "f", "F", "FALSE", "false", "False"]
  if yes.contains t then some true else if no.contains t then some false else none

end Numeral

end Lifecycle

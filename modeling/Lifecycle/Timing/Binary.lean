import Lifecycle.Text

/-!
# Binary numbers of 53 bits

A `Binary` is a natural number times a power of two. A quotient is rounded to the nearest one with
53 significant bits, and a number is written with a fixed count of decimal places; both ties go to
the even neighbour.
-/

namespace Lifecycle

/-- The nearest natural number to `num / den`, of two the even one. -/
def roundQuotient (num den : Nat) : Nat :=
  let q := num / den
  let r := num % den
  if 2 * r < den || (2 * r = den && q % 2 = 0) then q else q + 1

structure Binary where
  mantissa : Nat := 0
  exponent : Int := 0
deriving DecidableEq

namespace Binary

def bits : Nat := 53

def num (b : Binary) : Nat := b.mantissa * Nat.pow 2 b.exponent.toNat

def den (b : Binary) : Nat := Nat.pow 2 (-b.exponent).toNat

def scaled (num den : Nat) (e : Int) : Nat :=
  roundQuotient (num * Nat.pow 2 (-e).toNat) (den * Nat.pow 2 e.toNat)

def ofQuotient (num den : Nat) : Binary :=
  if num = 0 then {}
  else
    let e : Int := (num.log2 : Int) - den.log2 - (bits - 1)
    let top := e + (bits - 1)
    let enough := den * Nat.pow 2 top.toNat ≤ num * Nat.pow 2 (-top).toNat
    let e := if enough then e else e - 1
    ⟨scaled num den e, e⟩

def lt (a b : Binary) : Bool := a.num * b.den < b.num * a.den

def fixed (places : Nat) (b : Binary) : Text :=
  let n := roundQuotient (b.num * Nat.pow 10 places) b.den
  let digits := Text.ofNat (n % Nat.pow 10 places)
  Text.ofNat (n / Nat.pow 10 places) ++ "." ++ Text.fill (places - digits.size) 48 ++ digits

end Binary

end Lifecycle

import Lifecycle.Text

/-!
# Durations in arguments

A duration is a sequence of numbers with units, such as `1h30m` or `1.5s`. It is counted in
nanoseconds and has to fit into 64 bits.
-/

namespace Lifecycle

inductive DurationError where
  | malformed
  | missingUnit
  | unknownUnit (unit : Text)
deriving DecidableEq

namespace Duration

def shown (t : Text) : Text :=
  "\"" ++ Text.concat (t.toList.map fun b =>
    if b < 0x20 || 0x80 ≤ b then "\\x" ++ Text.hexOf 2 b.toNat
    else if b = 0x22 || b = 0x5C then Text.ofList [0x5C, b]
    else Text.ofList [b]) ++ "\""

def errorText (t : Text) : DurationError → Text
  | .malformed => "time: invalid duration " ++ shown t
  | .missingUnit => "time: missing unit in duration " ++ shown t
  | .unknownUnit u => "time: unknown unit " ++ shown u ++ " in duration " ++ shown t

def units : List (Text × Nat) :=
  [("ns", 1), ("us", 1000), ("µs", 1000), ("μs", 1000), ("ms", 1000000), ("s", 1000000000),
    ("m", 60000000000), ("h", 3600000000000)]

/-- The longest duration, one nanosecond longer to the past than to the future. -/
def longest : Nat := 9223372036854775808

def isDigit (b : UInt8) : Bool := 48 ≤ b && b ≤ 57

def digitsValue (bs : List UInt8) : Nat := bs.foldl (fun n b => 10 * n + (b.toNat - 48)) 0

/-- The length of a sequence of numbers with units, added to what came before. Every round takes at
least one byte. -/
def total : Nat → Nat → List UInt8 → Except DurationError Nat
  | _, sum, [] => .ok sum
  | 0, _, _ => .error .malformed
  | fuel + 1, sum, bs => do
    let whole := bs.takeWhile isDigit
    let rest := bs.drop whole.length
    let point : Bool := rest.head? = some 46
    let fraction := if point then (rest.drop 1).takeWhile isDigit else []
    let rest := if point then rest.drop (1 + fraction.length) else rest
    let unit := rest.takeWhile fun b => b ≠ 46 && !isDigit b
    if whole.isEmpty && fraction.isEmpty || longest < digitsValue whole then throw .malformed
    if unit.isEmpty then throw .missingUnit
    match units.lookup (Text.ofList unit) with
    | none => throw (.unknownUnit (.ofList unit))
    | some n =>
      let v := digitsValue whole * n + digitsValue fraction * n / Nat.pow 10 fraction.length
      if longest < sum + v then throw .malformed
      total fuel (sum + v) (rest.drop unit.length)

def parse (t : Text) : Except DurationError Int := do
  let (negative, bs) : Bool × List UInt8 := match t.toList with
    | 45 :: bs => (true, bs)
    | 43 :: bs => (false, bs)
    | bs => (false, bs)
  if bs = [48] then return 0
  if bs.isEmpty then throw .malformed
  let d ← total bs.length 0 bs
  if negative then return -d
  else if longest ≤ d then throw .malformed
  else return d

end Duration

end Lifecycle

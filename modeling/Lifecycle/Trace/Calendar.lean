import Lifecycle.Text

/-!
# Points in time

An instant is a number of seconds before or after the start of 1970 and a fraction. It is written
as a date and a time of day in UTC with six places of the second.
-/

namespace Lifecycle

structure Instant where
  seconds : Int := -62135596800
  nanos : Nat := 0
deriving DecidableEq

namespace Instant

def of (seconds nanos : Int) : Instant :=
  ⟨seconds + nanos.fdiv 1000000000, (nanos.fmod 1000000000).toNat⟩

/-- Year, month and day of a number of days since the start of 1970. The year is taken to begin in
March, so that the leap day comes last. -/
def civil (days : Int) : Int × Nat × Nat :=
  let z := days + 719468
  let era := z.fdiv 146097
  let doe := (z - era * 146097).toNat
  let yoe := (doe - doe / 1460 + doe / 36524 - doe / 146096) / 365
  let doy := doe - (365 * yoe + yoe / 4 - yoe / 100)
  let mp := (5 * doy + 2) / 153
  let day := doy - (153 * mp + 2) / 5 + 1
  let month := if mp < 10 then mp + 3 else mp - 9
  let year := (yoe : Int) + era * 400 + if month ≤ 2 then 1 else 0
  (year, month, day)

def digits (width n : Nat) : Text :=
  let t := Text.ofNat n
  Text.fill (width - t.size) 48 ++ t

/-- How long before 1970 the first second is that can be written: the start of March of the year
-292277022400. -/
def reach : Int := 9223372028741760000

def wrapped (seconds : Int) : Int := (seconds + reach).fmod 18446744073709551616 - reach

def text (i : Instant) : Text :=
  let seconds := wrapped i.seconds
  let (year, month, day) := civil (seconds.fdiv 86400)
  let secs := (seconds.fmod 86400).toNat
  let year := if year < 0 then "-" ++ digits 4 year.natAbs else digits 4 year.natAbs
  year ++ "-" ++ digits 2 month ++ "-" ++ digits 2 day ++ "T" ++ digits 2 (secs / 3600) ++ ":" ++
    digits 2 (secs / 60 % 60) ++ ":" ++ digits 2 (secs % 60) ++ "." ++ digits 6 (i.nanos / 1000) ++
    "Z"

end Instant

end Lifecycle

import Lifecycle.Text

/-!
# Classes of characters on a screen

Which characters of a name take two columns and which take none.
-/

namespace Lifecycle

namespace Text

def wideRanges : List (Nat × Nat) :=
  runs <|
    "4352 96 4538 2 13 2 190 4 3 1 2 1 521 2 21 2 50 12 43 1 19 1 13 1 8 2 17 2 5 2 8 1 5 1 21 " ++
    "1 7 2 1 1 4 1 2 1 7 1 4 2 28 1 35 1 1 1 4 3 1 1 61 3 24 1 14 1 859 2 51 1 4 1 810 26 1 89 " ++
    "12 214 26 79 2 86 2 103 5 43 1 94 1 84 11 48 1 40 8 7024 64 22157 3 55 1177 29 643 11172 " ++
    "8540 512 784 10 22 35 1 19 1 4 149 96 127 7 28665 5 11 2 14 6136 8 1238 42 9 8935 4 1 7 1 " ++
    "2 1 291 15 1 29 3 2 1 14 4 8 396 15624 1 202 1 190 1 2 10 101 3 13 44 4 9 7 2 14 6 154 33 " ++
    "12 9 1 70 1 22 12 43 4 5 12 17 3 1 3 71 1 1 1 187 2 63 13 4 1 24 18 1 26 2 13 1 86 85 48 " ++
    "70 6 1 3 3 2 3 4 4 11 2 7 9 227 12 4 1 283 47 1 10 1 185 112 13 3 9 7 46 1 7 8 14 4 9 7 9 " ++
    "1287 65534 2 65534"

def combiningRanges : List (Nat × Nat) :=
  runs <|
    "768 112 275 5 0 2 865 9 1036 1 3 1 238 1 12 2 1627 3 1823 1 48 14 0 1 0 16 156 9 588 64 " ++
    "720 13 0 4 0 1 0 3 0 12 3070 3 238 32 665 2 30164 1 0 3 1 10 32 2 80 2 494 18 21806 16 973 " ++
    "1 376 5 2864 2 153 11 49 4 890 2 57 2 41 7 3 5 22395 5 25611 46 2 23 542 2 0 3 3 6 8 8 2 7 " ++
    "30 4 148 3 3515 7 1 17 2 7 1 2 1 5 100 1 2112 7"

end Text

end Lifecycle

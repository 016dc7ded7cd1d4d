import Lifecycle.Text
import Lifecycle.Text.Decomposition

/-!
# Canonical equivalence

Two texts are canonically equal when they show the same characters, whether accents are composed
with their letters or not. They are compared by their full decompositions, in which marks that do
not interact stand in the order of their classes.
-/

namespace Lifecycle

namespace Text

def syllableParts (n : Nat) : List Nat :=
  let s := n - 0xAC00
  let lead := 0x1100 + s / 588
  let vowel := 0x1161 + s % 588 / 28
  if s % 28 = 0 then [lead, vowel] else [lead, vowel, 0x11A7 + s % 28]

/-- The full decomposition of a character. No chain of decompositions is longer than four. -/
def decomposeWithin : Nat → Nat → List Nat
  | 0, n => [n]
  | k + 1, n =>
    if n < 0xC0 then [n]
    else if 0xAC00 ≤ n && n ≤ 0xD7A3 then syllableParts n
    else
      match Decomposition.parts.find? (·.1 = n) with
      | some (_, a, b) =>
        if b = 0 then decomposeWithin k a else decomposeWithin k a ++ decomposeWithin k b
      | none => [n]

def combiningClass (n : Nat) : Nat :=
  if n < 0x300 then 0
  else
    match Decomposition.classes.find? fun r => r.1 ≤ n && n ≤ r.2.1 with
    | some (_, _, c) => c
    | none => 0

structure Mark where
  glyph : Glyph
  cls : Nat
deriving DecidableEq

def marksOf : Glyph → List Mark
  | .stray b => [⟨.stray b, 0⟩]
  | .char c =>
    (decomposeWithin 5 c.toNat).map fun n => ⟨.char (Char.ofNat n), combiningClass n⟩

def orderMarks : List Mark → List Mark → List Mark
  | run, [] => run.mergeSort fun a b => a.cls ≤ b.cls
  | run, m :: ms =>
    if m.cls = 0 then (run.mergeSort fun a b => a.cls ≤ b.cls) ++ m :: orderMarks [] ms
    else orderMarks (run ++ [m]) ms

/-! ## Rows of marks -/

def longestRow : Nat := 30

def divider : Glyph := .char '\u034f'

def isMark (n : Nat) : Bool := 0 < combiningClass n || inRanges Decomposition.joining n

def markCounts (n : Nat) : Nat × Nat :=
  if 0xAC00 ≤ n && n ≤ 0xD7A3 then (0, (syllableParts n).length - 1)
  else
    match Decomposition.counts.find? fun r => r.1 ≤ n && n ≤ r.2.1 with
    | some (_, _, lead, trail) => (lead, trail)
    | none =>
      let parts := decomposeWithin 5 n
      ((parts.takeWhile isMark).length, (parts.reverse.takeWhile isMark).length)

namespace Glyph

def markCounts : Glyph → Nat × Nat
  | .char c => Text.markCounts c.toNat
  | .stray _ => (0, 0)

def leadClass (g : Glyph) : Nat := ((marksOf g).head?.map (·.cls)).getD 0

def isAscii : Glyph → Bool
  | .char c => c.toNat < 0x80
  | .stray _ => false

def isSettled : Glyph → Bool
  | .char c =>
    !inRanges Decomposition.unwritten c.toNat && !inRanges Decomposition.joining c.toNat
  | .stray _ => true

end Glyph

inductive RowStep where
  | starts
  | continues
  | overflows

def rowStep (count : Nat) (g : Glyph) : Nat × RowStep :=
  let (lead, trail) := g.markCounts
  if longestRow < count + lead then (0, .overflows)
  else if lead = 0 then (trail, .starts)
  else (count + lead, .continues)

/-- How many characters from the front are in composed form, up to the start of the last character
with its marks that need not be; all of them if none is in doubt. -/
def calm (gs : List Glyph) : Nat := go 0 0 0 0 gs
where
  go (place start count cls : Nat) : List Glyph → Nat
    | [] => place
    | g :: gs =>
      if g.isAscii then go (place + 1) place 0 0 gs
      else
        match rowStep count g with
        | (count, .starts) =>
          if g.isSettled then go (place + 1) place count g.leadClass gs else place
        | (_, .overflows) => start
        | (count, .continues) =>
          if g.isSettled && cls ≤ g.leadClass then go (place + 1) start count g.leadClass gs
          else start

/-- The marks that still belong to a character, what follows them, their count, and whether they are
cut off because there are too many. -/
def marksAfter (count : Nat) : List Glyph → List Glyph × List Glyph × Nat × Bool
  | [] => ([], [], count, false)
  | g :: gs =>
    match rowStep count g with
    | (count, .starts) => ([], g :: gs, count, false)
    | (count, .overflows) => ([], g :: gs, count, true)
    | (count, .continues) =>
      let (marks, rest, count, cut) := marksAfter count gs
      (g :: marks, rest, count, cut)

/-- Divides rows of marks that are too long. A step takes a character or divides a row, and what was
divided goes on with a character. -/
def divide : Nat → Nat → List Glyph → List Glyph
  | 0, _, gs => gs
  | _ + 1, _, [] => []
  | k + 1, count, g :: gs =>
    let (taken, rest, count, cut) :=
      match rowStep count g with
      | (count, .overflows) => ([], g :: gs, count, true)
      | (count, _) =>
        let (marks, rest, count, cut) := marksAfter count gs
        (g :: marks, rest, count, cut)
    let n := calm rest
    taken ++ (if cut then [divider] else []) ++ rest.take n ++ divide k count (rest.drop n)

def divided (gs : List Glyph) : List Glyph :=
  let n := calm gs
  gs.take n ++ divide (2 * gs.length) 0 (gs.drop n)

def canonical (t : Text) : List Mark := orderMarks [] ((divided t.glyphs).flatMap marksOf)

def sameName (a b : Text) : Bool := a = b || a.canonical = b.canonical

end Text

end Lifecycle

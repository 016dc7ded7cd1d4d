import Lifecycle.Text.Cluster

/-!
# Width of a line on a terminal

A terminal reads a line byte by byte. What is in control sequences takes no room, an ASCII character
takes one column, and a character beyond ASCII takes the columns of its whole cluster.
-/

namespace Lifecycle

namespace Cluster

def roleWidth (n : Nat) (r : ClusterRole) : Nat :=
  match r with
  | .control | .carriageReturn | .lineFeed | .extend | .joiner => 0
  | .flagHalf => 2
  | .picture => if Text.inRanges colourRanges n then 2 else 1
  | _ =>
    if n = 0x2E3A then 3
    else if n = 0x2E3B then 4
    else if Text.inRanges broadRanges n then 2
    else 1

/-- The columns a terminal gives to a cluster. Selectors make a picture small or large; what joins
a flag or a syllable takes no further room. -/
def terminalWidth : Cluster → Nat
  | [] => 0
  | g :: gs =>
    let first := role g.code
    gs.foldl (wider first) (roleWidth g.code first)
where
  wider (first : ClusterRole) (width : Nat) (g : Text.Glyph) : Nat :=
    match first with
    | .picture => if g.code = 0xFE0E then 1 else if g.code = 0xFE0F then 2 else width
    | .flagHalf | .lead => width
    | _ => width + roleWidth g.code (role g.code)

end Cluster

/-- Where in a control sequence a terminal is. A command and a device string have a start, values
and marks, and a device string then has a text. -/
inductive TerminalState where
  | shown
  | escape
  | escapeMarks
  | command
  | commandValues
  | commandMarks
  | device
  | deviceValues
  | deviceMarks
  | deviceText
  | systemText
  | privateText
deriving DecidableEq

namespace TerminalState

def anywhere? (b : UInt8) : Option TerminalState :=
  if b = 0x18 || b = 0x1A then some .shown
  else if b = 0x1B then some .escape
  else if b = 0x90 then some .device
  else if b = 0x98 || b = 0x9E || b = 0x9F then some .privateText
  else if b = 0x9B then some .command
  else if b = 0x9D then some .systemText
  else if 0x80 ≤ b then some .shown
  else none

def ascii (s : TerminalState) (b : UInt8) : TerminalState :=
  if s = .shown || s = .privateText then s
  else if s = .device && 0x08 ≤ b && b ≤ 0x0D then .deviceText
  else if b < 0x20 || b = 0x7F then s
  else if b < 0x30 then
    match s with
    | .escape => .escapeMarks
    | .command | .commandValues => .commandMarks
    | .device | .deviceValues => .deviceMarks
    | s => s
  else
    match s with
    | .escape =>
      if b = 0x50 then .device
      else if b = 0x58 || b = 0x5E || b = 0x5F then .privateText
      else if b = 0x5B then .command
      else if b = 0x5D then .systemText
      else .shown
    | .command | .commandValues => if b < 0x40 then .commandValues else .shown
    | .device | .deviceValues => if b < 0x40 then .deviceValues else .deviceText
    | .deviceMarks => .deviceText
    | _ => .shown

def next (s : TerminalState) (b : UInt8) : TerminalState :=
  match s with
  | .deviceText => ends b |>.getD s
  | .systemText => if b = 0x07 then .shown else ends b |>.getD s
  | .device => if b = 0x1B then .deviceText else (anywhere? b).getD (s.ascii b)
  | _ => (anywhere? b).getD (s.ascii b)
where
  ends (b : UInt8) : Option TerminalState :=
    if b = 0x1B then some .escape
    else if b = 0x18 || b = 0x1A || b = 0x9C then some .shown
    else none

def shows (s : TerminalState) : Bool := s ≠ .deviceText && s ≠ .systemText

end TerminalState

namespace Text

def Glyph.opens : Glyph → Bool
  | .char c => 0x7F < c.toNat
  | .stray b => 0xC2 ≤ b && b ≤ 0xF4

def Glyph.isInked : Glyph → Bool
  | .char c => 0x20 ≤ c.toNat && c.toNat < 0x80
  | .stray _ => false

def terminalColumns (s : TerminalState) : List Glyph → Nat
  | [] => 0
  | g :: gs =>
    if s.shows && g.opens then
      let c := Cluster.first g gs
      c.terminalWidth + terminalColumns .shown (gs.drop (c.length - 1))
    else
      (if s = .shown && g.isInked then 1 else 0) +
        terminalColumns ((ofGlyph g).toList.foldl .next s) gs
termination_by gs => gs.length
decreasing_by all_goals simp only [List.length_cons, List.length_drop]; omega

def terminalWidth (line : Text) : Nat := terminalColumns .shown line.glyphs

end Text

end Lifecycle

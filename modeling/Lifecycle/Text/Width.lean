import Lifecycle.Text.Cluster
import Lifecycle.Text.WidthTable

/-!
# Width of names

Characters take no, one or two columns. A cluster is never cut apart and takes the columns of its
first visible character.
-/

namespace Lifecycle

namespace Text

def invisibleRanges : List (Nat × Nat) :=
  [(0x70F, 0x70F), (0x180B, 0x180E), (0x200B, 0x200F), (0x2028, 0x202E), (0x206A, 0x206F),
    (0xFEFF, 0xFEFF), (0xFFF9, 0xFFFB), (0xFFFE, 0xFFFF)]

def isControl (n : Nat) : Bool :=
  n < 0x20 || (0x7F ≤ n && n ≤ 0x9F) || n = 0xAD

def Glyph.columns (g : Glyph) : Nat :=
  let n := g.code
  if isControl n then 0
  else if n < 0x300 then 1
  else if inRanges invisibleRanges n || inRanges combiningRanges n then 0
  else if inRanges wideRanges n then 2
  else 1

def clusterColumns (c : Cluster) : Nat := ((c.map (·.columns)).find? (0 < ·)).getD 0

def columns (t : Text) : Nat := (((Cluster.all t.glyphs).map clusterColumns).foldl (· + ·) 0)

def fitting (room : Nat) : List Cluster → List Cluster
  | [] => []
  | c :: cs => if room < clusterColumns c then [] else c :: fitting (room - clusterColumns c) cs

def shorten (t : Text) (width : Nat) (mark : Text) : Text :=
  if t.columns ≤ width then t
  else ofGlyphs (fitting (width - mark.columns) (Cluster.all t.glyphs)).flatten ++ mark

end Text

end Lifecycle

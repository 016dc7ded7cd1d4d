import Lifecycle.Text
import Lifecycle.Text.ClusterTable

/-!
# Characters that are seen as one

Marks, joined pictures, flags and syllables that are written in parts belong to the character they
start with. A `Cluster` is such a run of characters; a text is cut into clusters from the left, and
a cluster goes on as long as its characters join (`Cluster.joins`).
-/

namespace Lifecycle

namespace Text

def Glyph.code : Glyph → Nat
  | .char c => c.toNat
  | .stray _ => 0xFFFD

end Text

inductive ClusterRole where
  | plain
  | carriageReturn
  | lineFeed
  | control
  | extend
  | joiner
  | spacing
  | prepend
  | lead
  | vowel
  | tail
  | bare
  | full
  | picture
  | flagHalf
deriving DecidableEq

abbrev Cluster := List Text.Glyph

namespace Cluster

open Text (inRanges)

def role (n : Nat) : ClusterRole :=
  if n = 0x0D then .carriageReturn
  else if n = 0x0A then .lineFeed
  else if inRanges controlRanges n then .control
  else if n < 0x7F then .plain
  else if n = 0x200D then .joiner
  else if inRanges extendRanges n then .extend
  else if inRanges spacingRanges n then .spacing
  else if inRanges prependRanges n then .prepend
  else if inRanges [(0x1100, 0x115F), (0xA960, 0xA97C)] n then .lead
  else if inRanges [(0x1160, 0x11A7), (0xD7B0, 0xD7C6)] n then .vowel
  else if inRanges [(0x11A8, 0x11FF), (0xD7CB, 0xD7FB)] n then .tail
  else if inRanges [(0xAC00, 0xD7A3)] n then if (n - 0xAC00) % 28 = 0 then .bare else .full
  else if inRanges [(0x1F1E6, 0x1F1FF)] n then .flagHalf
  else if inRanges pictureRanges n then .picture
  else .plain

def sameSyllable : ClusterRole → ClusterRole → Bool
  | .lead, b => b = .lead || b = .vowel || b = .bare || b = .full
  | .vowel, b | .bare, b => b = .vowel || b = .tail
  | .tail, b | .full, b => b = .tail
  | _, _ => false

/-- Whether a character goes on with a cluster, whose characters stand in reverse. Controls go with
nothing but a line feed with its carriage return. A joiner links the picture before it, with its
marks, to the one behind it; letters of flags go in pairs. -/
def joins (before : List ClusterRole) (c : ClusterRole) : Bool :=
  match before with
  | [] => true
  | last :: rest =>
    if last = .carriageReturn && c = .lineFeed then true
    else if alone last || alone c then false
    else c = .extend || c = .joiner || c = .spacing || last = .prepend || sameSyllable last c ||
      (c = .picture && last = .joiner &&
        (rest.dropWhile (· = .extend)).head? = some .picture) ||
      (c = .flagHalf && (before.takeWhile (· = .flagHalf)).length % 2 = 1)
where
  alone (c : ClusterRole) : Bool := c = .control || c = .carriageReturn || c = .lineFeed

def more (before : List ClusterRole) : List Text.Glyph → List Text.Glyph
  | [] => []
  | g :: gs =>
    let c := role g.code
    if joins before c then g :: more (c :: before) gs else []

def first (g : Text.Glyph) (gs : List Text.Glyph) : Cluster := g :: more [role g.code] gs

def all : List Text.Glyph → List Cluster
  | [] => []
  | g :: gs => first g gs :: all (gs.drop ((first g gs).length - 1))
termination_by gs => gs.length
decreasing_by simp only [List.length_cons, List.length_drop]; omega

end Cluster

end Lifecycle

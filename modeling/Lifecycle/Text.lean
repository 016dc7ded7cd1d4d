/-!
# Text

Names, literals and paths come out of files that nobody checked for valid UTF-8, so a `Text` is a
string of bytes. What can be read as a character is; any other byte stands alone as a stray one
(`Text.glyphs`).
-/

namespace Lifecycle

structure Text where
  bytes : ByteArray

instance : DecidableEq Text := fun a b =>
  match ByteArray.instDecidableEq a.bytes b.bytes with
  | .isTrue h => .isTrue (congrArg Text.mk h)
  | .isFalse h => .isFalse fun e => h (congrArg Text.bytes e)

namespace Text

def empty : Text := ⟨ByteArray.empty⟩

def ofString (s : String) : Text := ⟨s.toUTF8⟩

instance : Coe String Text := ⟨ofString⟩

instance : Append Text := ⟨fun a b => ⟨a.bytes ++ b.bytes⟩⟩

def ofList (bs : List UInt8) : Text := ⟨bs.toByteArray⟩

def toList (t : Text) : List UInt8 := t.bytes.data.toList

def size (t : Text) : Nat := t.bytes.size

def isEmpty (t : Text) : Bool := t.bytes.size == 0

def ofNat (n : Nat) : Text := ofString (toString n)

def ofInt : Int → Text
  | .ofNat n => ofNat n
  | .negSucc n => ofString "-" ++ ofNat (n + 1)

def concat (ts : List Text) : Text := ts.foldl (· ++ ·) empty

def join (sep : Text) : List Text → Text
  | [] => empty
  | t :: ts => ts.foldl (fun acc u => acc ++ sep ++ u) t

def fill (n : Nat) (b : UInt8) : Text := ofList (List.replicate n b)

def blanks (n : Nat) : Text := fill n 32

def pieces (sep : UInt8) : List UInt8 → List (List UInt8)
  | [] => [[]]
  | b :: bs =>
    match pieces sep bs with
    | [] => [[b]]
    | p :: ps => if b = sep then [] :: p :: ps else (b :: p) :: ps

def split (sep : UInt8) (t : Text) : List Text := (pieces sep t.toList).map ofList

def newline : UInt8 := 10

def trimNewlines (t : Text) : Text :=
  ofList (t.toList.reverse.dropWhile (· = newline)).reverse

/-- The lines of a text. One newline at the end closes the last line; the empty text has none. -/
def lines (t : Text) : List Text :=
  if t.isEmpty then []
  else
    match t.toList.getLast? with
    | some 10 => split newline (ofList t.toList.dropLast)
    | _ => split newline t

def startsWith (t p : Text) : Bool := p.toList.isPrefixOf t.toList

def endsWith (t p : Text) : Bool := p.toList.isSuffixOf t.toList

def lt (a b : Text) : Bool := go a.toList b.toList
where
  go : List UInt8 → List UInt8 → Bool
    | _, [] => false
    | [], _ :: _ => true
    | a :: as, b :: bs => a < b || (a == b && go as bs)

inductive Glyph where
  | char (c : Char)
  | stray (b : UInt8)
deriving DecidableEq

def continues (b : UInt8) : Bool := 0x80 ≤ b && b ≤ 0xBF

/-- The character that starts here and the number of bytes it takes. Overlong forms, surrogates
and values past the last plane are no characters. -/
def firstChar? : List UInt8 → Option (Char × Nat)
  | b0 :: rest =>
    if b0 < 0x80 then some (Char.ofNat b0.toNat, 1)
    else
      match rest with
      | b1 :: rest =>
        if 0xC2 ≤ b0 && b0 ≤ 0xDF && continues b1 then
          some (Char.ofNat ((b0.toNat - 0xC0) * 64 + (b1.toNat - 0x80)), 2)
        else
          match rest with
          | b2 :: rest =>
            let low : UInt8 := if b0 = 0xE0 then 0xA0 else 0x80
            let high : UInt8 := if b0 = 0xED then 0x9F else 0xBF
            if 0xE0 ≤ b0 && b0 ≤ 0xEF && low ≤ b1 && b1 ≤ high && continues b2 then
              some (Char.ofNat ((b0.toNat - 0xE0) * 4096 + (b1.toNat - 0x80) * 64 +
                (b2.toNat - 0x80)), 3)
            else
              match rest with
              | b3 :: _ =>
                let low : UInt8 := if b0 = 0xF0 then 0x90 else 0x80
                let high : UInt8 := if b0 = 0xF4 then 0x8F else 0xBF
                if 0xF0 ≤ b0 && b0 ≤ 0xF4 && low ≤ b1 && b1 ≤ high && continues b2 &&
                    continues b3 then
                  some (Char.ofNat ((b0.toNat - 0xF0) * 262144 + (b1.toNat - 0x80) * 4096 +
                    (b2.toNat - 0x80) * 64 + (b3.toNat - 0x80)), 4)
                else none
              | [] => none
          | [] => none
      | [] => none
  | [] => none

def glyphsOf : List UInt8 → List Glyph
  | [] => []
  | b :: bs =>
    match firstChar? (b :: bs) with
    | some (c, n) => .char c :: glyphsOf (bs.drop (n - 1))
    | none => .stray b :: glyphsOf bs
termination_by bs => bs.length
decreasing_by all_goals simp; try omega

def glyphs (t : Text) : List Glyph := glyphsOf t.toList

def toStringLossy (t : Text) : String :=
  String.ofList (t.glyphs.map fun
    | .char c => c
    | .stray _ => '�')

def ofChar (c : Char) : Text := ofString c.toString

def ofGlyph : Glyph → Text
  | .char c => ofChar c
  | .stray b => ofList [b]

def ofGlyphs (gs : List Glyph) : Text := concat (gs.map ofGlyph)

def isSpace (c : Char) : Bool :=
  let n := c.toNat
  (9 ≤ n && n ≤ 13) || n == 0x20 || n == 0x85 || n == 0xA0 || n == 0x1680 ||
    (0x2000 ≤ n && n ≤ 0x200A) || n == 0x2028 || n == 0x2029 || n == 0x202F || n == 0x205F ||
    n == 0x3000

def Glyph.isBlank : Glyph → Bool
  | .char c => isSpace c
  | .stray _ => false

def trim (t : Text) : Text :=
  ofGlyphs ((t.glyphs.dropWhile Glyph.isBlank).reverse.dropWhile Glyph.isBlank).reverse

def words (t : Text) : List Text :=
  ((t.glyphs.splitBy fun a b => a.isBlank == b.isBlank).filter fun w => !w.all Glyph.isBlank).map
    ofGlyphs

/-- The ASCII letter a character is the capital of, if it is one: `A` to `Z`, and the two capitals
beyond ASCII whose small letter is ASCII, dotted I and the Kelvin sign. -/
def small (c : Char) : Char :=
  let n := c.toNat
  if 65 ≤ n ∧ n ≤ 90 then Char.ofNat (n + 32)
  else if n = 0x130 then 'i'
  else if n = 0x212A then 'k'
  else c

def lower (t : Text) : Text :=
  ofGlyphs (t.glyphs.map fun
    | .char c => .char (small c)
    | .stray b => .stray b)

def padLeft (width : Nat) (t : Text) : Text := blanks (width - t.glyphs.length) ++ t

def padRight (width : Nat) (t : Text) : Text := t ++ blanks (width - t.glyphs.length)

def inRanges (rs : List (Nat × Nat)) (n : Nat) : Bool := rs.any fun r => r.1 ≤ n && n ≤ r.2

def numerals (s : String) : List Nat := (s.splitOn " ").filterMap String.toNat?

def runs (s : String) : List (Nat × Nat) := go 0 (numerals s)
where
  go (start : Nat) : List Nat → List (Nat × Nat)
    | skip :: take :: rest =>
      (start + skip, start + skip + take - 1) :: go (start + skip + take) rest
    | _ => []

def hexDigit (n : Nat) : UInt8 :=
  if n < 10 then UInt8.ofNat (48 + n) else UInt8.ofNat (87 + n)

def hexOf (width n : Nat) : Text :=
  ofList ((List.range width).reverse.map fun i => hexDigit (n / Nat.pow 16 i % 16))

end Text

end Lifecycle

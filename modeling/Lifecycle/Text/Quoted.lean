import Lifecycle.Text.Printable
import Lifecycle.Text

/-!
# Quoted text

A text between double quotes, with an escape for everything that would not show: quotes and
backslashes, control characters, characters without a visible form, and stray bytes.
-/

namespace Lifecycle

namespace Text

def shortEscape? (n : Nat) : Option Text :=
  match n with
  | 7 => some "\\a"
  | 8 => some "\\b"
  | 12 => some "\\f"
  | 10 => some "\\n"
  | 13 => some "\\r"
  | 9 => some "\\t"
  | 11 => some "\\v"
  | _ => none

def quoteGlyph : Glyph → Text
  | .stray b => "\\x" ++ hexOf 2 b.toNat
  | .char c =>
    let n := c.toNat
    if c = '"' ∨ c = '\\' then "\\" ++ ofChar c
    else if isPrintable c then ofChar c
    else
      match shortEscape? n with
      | some e => e
      | none =>
        if n < 32 ∨ n = 127 then "\\x" ++ hexOf 2 n
        else if n < 0x10000 then "\\u" ++ hexOf 4 n
        else "\\U" ++ hexOf 8 n

def quoted (t : Text) : Text := "\"" ++ concat (t.glyphs.map quoteGlyph) ++ "\""

end Text

end Lifecycle

import Lifecycle.Text.Quoted

/-!
# Values of settings files

A file gives values to keys: texts, numbers, truth values, times, lists and tables. Numbers with a
fraction and times are only checked, since no setting takes them.
-/

namespace Lifecycle

inductive TomlValue where
  | str (t : Text)
  | int (n : Int64)
  | float
  | bool (b : Bool)
  | time
  | arr (items : List TomlValue)
  | table (fields : List (Text × TomlValue))
  | tables (all : List (List (Text × TomlValue)))

abbrev TomlTable := List (Text × TomlValue)

namespace TomlValue

def kindText : TomlValue → Text
  | .str _ => "string"
  | .int _ => "int64"
  | .float => "float64"
  | .bool _ => "bool"
  | .time => "time.Time"
  | .arr _ => "[]interface \x7b\x7d"
  | .table _ => "map[string]interface \x7b\x7d"
  | .tables _ => "[]map[string]interface \x7b\x7d"

end TomlValue

abbrev TomlKey := List Text

namespace TomlKey

def isBare (c : Char) : Bool := c.isAlphanum || c = '_' || c = '-'

def escape : Text.Glyph → Text
  | .stray b => .ofList [b]
  | .char c =>
    let n := c.toNat
    match n with
    | 0x22 => "\\\""
    | 0x5C => "\\\\"
    | 0x08 => "\\b"
    | 0x09 => "\\t"
    | 0x0A => "\\n"
    | 0x0C => "\\f"
    | 0x0D => "\\r"
    | _ => if n < 0x20 || n = 0x7F then "\\u" ++ Text.hexOf 4 n else Text.ofChar c

def part (t : Text) : Text :=
  let bare : Text.Glyph → Bool
    | .char c => isBare c
    | .stray _ => false
  if !t.isEmpty && t.glyphs.all bare then t
  else "\"" ++ Text.concat (t.glyphs.map escape) ++ "\""

def text (k : TomlKey) : Text := Text.join "." (k.map part)

end TomlKey

end Lifecycle

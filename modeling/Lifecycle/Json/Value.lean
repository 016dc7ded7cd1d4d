import Lifecycle.Text

/-!
# JSON text

The JSON that reports and traces are written in. Strings escape what HTML would take for markup and
the two line separators beyond ASCII; a stray byte becomes the replacement character.
-/

namespace Lifecycle

inductive JsonValue where
  | str (t : Text)
  | num (n : Nat)
  | arr (items : List JsonValue)
  | obj (fields : List (Text × JsonValue))

namespace JsonValue

def escapeGlyph : Text.Glyph → Text
  | .stray _ => "\\ufffd"
  | .char c =>
    let n := c.toNat
    match n with
    | 0x22 => "\\\""
    | 0x5C => "\\\\"
    | 0x08 => "\\b"
    | 0x0C => "\\f"
    | 0x0A => "\\n"
    | 0x0D => "\\r"
    | 0x09 => "\\t"
    | _ =>
      if n < 0x20 || n = 0x3C || n = 0x3E || n = 0x26 || n = 0x2028 || n = 0x2029 then
        "\\u" ++ Text.hexOf 4 n
      else Text.ofChar c

def quote (t : Text) : Text := "\"" ++ Text.concat (t.glyphs.map escapeGlyph) ++ "\""

mutual

def compact : JsonValue → Text
  | .str t => quote t
  | .num n => Text.ofNat n
  | .arr items => "[" ++ compactItems items ++ "]"
  | .obj fields => "\x7b" ++ compactFields fields ++ "\x7d"

def compactItems : List JsonValue → Text
  | [] => ""
  | [v] => v.compact
  | v :: vs => v.compact ++ "," ++ compactItems vs

def compactFields : List (Text × JsonValue) → Text
  | [] => ""
  | [(k, v)] => quote k ++ ":" ++ v.compact
  | (k, v) :: fs => quote k ++ ":" ++ v.compact ++ "," ++ compactFields fs

end

def indent (level : Nat) : Text := "\n" ++ Text.blanks (2 * level)

mutual

def pretty (level : Nat) : JsonValue → Text
  | .str t => quote t
  | .num n => Text.ofNat n
  | .arr [] => "[]"
  | .arr items => "[" ++ prettyItems (level + 1) items ++ indent level ++ "]"
  | .obj [] => "\x7b\x7d"
  | .obj fields => "\x7b" ++ prettyFields (level + 1) fields ++ indent level ++ "\x7d"

def prettyItems (level : Nat) : List JsonValue → Text
  | [] => ""
  | [v] => indent level ++ v.pretty level
  | v :: vs => indent level ++ v.pretty level ++ "," ++ prettyItems level vs

def prettyFields (level : Nat) : List (Text × JsonValue) → Text
  | [] => ""
  | [(k, v)] => indent level ++ quote k ++ ": " ++ v.pretty level
  | (k, v) :: fs =>
    indent level ++ quote k ++ ": " ++ v.pretty level ++ "," ++ prettyFields level fs

end

def document (v : JsonValue) : Text := v.pretty 0 ++ "\n"

end JsonValue

end Lifecycle

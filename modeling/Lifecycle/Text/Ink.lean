import Lifecycle.Text

/-!
# Coloured text

Terminals switch a colour or a weight on and off with escape sequences around the text.
-/

namespace Lifecycle

inductive Ink where
  | bold
  | faint
  | red
  | green
  | yellow
  | blue
  | cyan
deriving DecidableEq

namespace Ink

def on : Ink → Nat
  | .bold => 1
  | .faint => 2
  | .red => 31
  | .green => 32
  | .yellow => 33
  | .blue => 34
  | .cyan => 36

def off : Ink → Nat
  | .bold | .faint => 22
  | _ => 0

def escape (codes : List Nat) : Text := "\x1b[" ++ Text.join ";" (codes.map Text.ofNat) ++ "m"

def paint (colored : Bool) (inks : List Ink) (t : Text) : Text :=
  if colored then escape (inks.map on) ++ t ++ escape (inks.map off) else t

end Ink

end Lifecycle

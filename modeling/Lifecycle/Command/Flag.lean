import Lifecycle.Text.Numeral
import Lifecycle.Text.Quoted
import Lifecycle.Timing.Duration

/-!
# Flags

A flag has a long name and perhaps a letter, and a value of a fixed kind. `FlagReading.readAll`
takes arguments apart into flags with values and plain arguments.
-/

namespace Lifecycle

inductive FlagValue where
  | text (t : Text)
  | truth (b : Bool)
  | number (n : Int64)
  | duration (nanos : Int)
deriving DecidableEq

structure Flag where
  name : Text
  letter : Option Char := none
  usual : FlagValue
  about : Text

inductive UsageError where
  | unknownFlag (name : Text)
  | unknownLetter (letter : Char) (group : Text)
  | missingValue (name : Text)
  | missingLetterValue (letter : Char) (group : Text)
  | badFlag (argument : Text)
  | badValue (flag : Flag) (value why : Text)
  | unknownCommand (name : Text) (close : List Text)
  | strayWord (word command : Text)
  | wrongCount (wanted given : Nat)
  | tooFew (least given : Nat)

namespace Flag

def isSwitch (f : Flag) : Bool :=
  match f.usual with
  | .truth _ => true
  | _ => false

def quotedLetter (c : Char) : Text :=
  if c = Char.ofNat 39 then "'\\''"
  else if c = '"' then "'\"'"
  else "'" ++ Text.quoteGlyph (.char c) ++ "'"

def longText (f : Flag) : Text :=
  match f.letter with
  | some c => "-" ++ Text.ofChar c ++ ", --" ++ f.name
  | none => "--" ++ f.name

def parse (f : Flag) (t : Text) : Except Text FlagValue :=
  match f.usual with
  | .text _ => .ok (.text t)
  | .truth _ =>
    match Numeral.truth? t with
    | some b => .ok (.truth b)
    | none => .error ("strconv.ParseBool: parsing " ++ t.quoted ++ ": invalid syntax")
  | .number _ =>
    match Numeral.parse t with
    | .ok n => .ok (.number n)
    | .error e => .error ("strconv.ParseInt: parsing " ++ t.quoted ++ ": " ++ e.text)
  | .duration _ =>
    match Duration.parse t with
    | .ok d => .ok (.duration d)
    | .error e => .error (Duration.errorText t e)

end Flag

namespace UsageError

def message (tool : Text) : UsageError → Text
  | .unknownFlag name => "unknown flag: --" ++ name
  | .unknownLetter c group =>
    "unknown shorthand flag: " ++ Flag.quotedLetter c ++ " in -" ++ group
  | .missingValue name => "flag needs an argument: --" ++ name
  | .missingLetterValue c group =>
    "flag needs an argument: " ++ Flag.quotedLetter c ++ " in -" ++ group
  | .badFlag argument => "bad flag syntax: " ++ argument
  | .badValue f value why =>
    "invalid argument " ++ value.quoted ++ " for " ++ f.longText.quoted ++ " flag: " ++ why
  | .unknownCommand name close =>
    "unknown command " ++ name.quoted ++ " for " ++ tool.quoted ++
      if close.isEmpty then Text.empty
      else "\n\nDid you mean this?\n" ++ Text.concat (close.map fun c => "\t" ++ c ++ "\n")
  | .strayWord word command => "unknown command " ++ word.quoted ++ " for " ++ command.quoted
  | .wrongCount wanted given =>
    "accepts " ++ Text.ofNat wanted ++ " arg(s), received " ++ Text.ofNat given
  | .tooFew least given =>
    "requires at least " ++ Text.ofNat least ++ " arg(s), only received " ++ Text.ofNat given

end UsageError

inductive Expected where
  | anything
  | value (flag : Flag) (missing : UsageError)
  | plain

structure FlagReading where
  given : List (Text × FlagValue) := []
  args : List Text := []
  expected : Expected := .anything

namespace FlagReading

def put (r : FlagReading) (f : Flag) (t : Text) : Except UsageError FlagReading :=
  match f.parse t with
  | .ok v => .ok { r with given := (f.name, v) :: r.given, expected := .anything }
  | .error why => .error (.badValue f t why)

def long (flags : List Flag) (r : FlagReading) (argument : Text) :
    Except UsageError FlagReading := do
  let bs := argument.toList.drop 2
  if bs.isEmpty || bs.head? = some 45 || bs.head? = some 61 then throw (.badFlag argument)
  let name := Text.ofList (bs.takeWhile (· ≠ 61))
  match flags.find? (·.name = name) with
  | none => throw (.unknownFlag name)
  | some f =>
    if bs.contains 61 then r.put f (.ofList (bs.drop (name.size + 1)))
    else if f.isSwitch then r.put f "true"
    else return { r with expected := .value f (.missingValue name) }

/-- How the flags of a test run begin, which are left to whoever runs the test. -/
def testMark : List UInt8 := [116, 101, 115, 116, 46]

/-- The letters of an argument with one dash. The rest behind a letter that needs a value is that
value; the flags of a test run are passed over. -/
def letters (flags : List Flag) (r : FlagReading) : List UInt8 → Except UsageError FlagReading
  | [] => .ok r
  | b :: rest => do
    if testMark.isPrefixOf (b :: rest) then return r
    let c := Char.ofNat b.toNat
    let group := Text.ofList (b :: rest)
    match flags.find? (·.letter = some c) with
    | none => throw (.unknownLetter c group)
    | some f =>
      if rest.head? = some 61 && 2 ≤ rest.length then r.put f (.ofList (rest.drop 1))
      else if f.isSwitch then (← r.put f "true").letters flags rest
      else if !rest.isEmpty then r.put f (.ofList rest)
      else return { r with expected := .value f (.missingLetterValue c group) }

def read (flags : List Flag) (r : FlagReading) (argument : Text) : Except UsageError FlagReading :=
  match r.expected with
  | .plain => .ok { r with args := argument :: r.args }
  | .value f _ => r.put f argument
  | .anything =>
    match argument.toList with
    | [45, 45] => .ok { r with expected := .plain }
    | 45 :: 45 :: _ => r.long flags argument
    | 45 :: b :: rest => r.letters flags (b :: rest)
    | _ => .ok { r with args := argument :: r.args }

def readAll (flags : List Flag) (arguments : List Text) : Except UsageError FlagReading := do
  let r ← arguments.foldlM (read flags) {}
  match r.expected with
  | .value _ missing => throw missing
  | _ => return { r with args := r.args.reverse }

end FlagReading

end Lifecycle

import Lifecycle.Command.Help

/-!
# Suggestions

A shell asks what a word that is being typed may become. Flags are suggested behind a dash, else the
commands below the one that the words before it name.
-/

namespace Lifecycle

structure Suggestions where
  items : List (Text × Text) := []
  files : Bool := true

namespace Suggestions

def code (s : Suggestions) : Text := if s.files then ":0" else ":4"

def remark (s : Suggestions) : Text :=
  "Completion ended with directive: " ++
    if s.files then "ShellCompDirectiveDefault" else "ShellCompDirectiveNoFileComp"

def beginning (word : Text) (items : List (Text × Text)) : List (Text × Text) :=
  items.filter (·.1.startsWith word)

end Suggestions

structure Unfinished where
  flag : Option Flag := none
  args : List Text
  word : Text
  unknown : Bool := false

namespace Unfinished

def flagName (argument : Text) : List UInt8 :=
  match argument.toList with
  | 45 :: 45 :: c :: rest => if (c :: rest).contains 61 then [] else c :: rest
  | 45 :: c :: rest =>
    if c = 45 || (c :: rest).contains 61 then [] else (c :: rest).drop rest.length
  | _ => []

def inlineName (bs : List UInt8) : List UInt8 :=
  let head := bs.takeWhile (· ≠ 61)
  if head.take 2 = [45, 45] then head.drop 2 else head.drop (head.length - 1)

def find? (flags : List Flag) (name : List UInt8) : Option Flag :=
  match name with
  | [b] => flags.find? (·.letter = some (Char.ofNat b.toNat))
  | _ => flags.find? (·.name = Text.ofList name)

def of (flags : List Flag) (args : List Text) (word : Text) : Unfinished :=
  let bs := word.toList
  let dashed : Bool := bs.head? = some 45
  if dashed && !bs.contains 61 then { args, word }
  else
    let value := if dashed then Text.ofList ((bs.dropWhile (· ≠ 61)).drop 1) else word
    let inside := if dashed then inlineName bs else []
    let before := (args.getLast?.map flagName).getD []
    let name := if inside.isEmpty then before else inside
    let done := if inside.isEmpty && !before.isEmpty then args.dropLast else args
    if name.isEmpty then { args := done, word := value }
    else
      match find? flags name with
      | none => { args, word, unknown := true }
      | some f =>
        if !dashed && f.isSwitch then { args, word := value }
        else { flag := some f, args := done, word := value }

end Unfinished

namespace CommandLine

def flagItems (verb : Option Verb) (given : List (Text × FlagValue)) : List (Text × Text) :=
  let groups := match verb with
    | none => [flags none]
    | some _ => [sharedFlags, localFlags verb]
  (groups.flatMap Flag.sorted).flatMap fun f =>
    if (given.lookup f.name).isSome then []
    else ("--" ++ f.name, f.about) ::
      (f.letter.map fun c => ("-" ++ Text.ofChar c, f.about)).toList

def following (verb : Option Verb) (args : List Text) (word : Text) (s : Suggestions) :
    Suggestions :=
  match verb with
  | some .help =>
    match choose args with
    | .ok (topic, _) =>
      { items := s.items ++ Suggestions.beginning word (below topic), files := false }
    | .error _ => { s with files := false }
  | some .completion | some (.script _) => { s with files := false }
  | _ => s

/-- The suggestions for a word behind other words. The words of a request for suggestions are not
read as flags. -/
def suggestions (words : List Text) (word : Text) : Suggestions :=
  match choose words with
  | .error _ => {}
  | .ok (verb, rest) =>
    let raw : Bool := match verb with
      | some (.suggest _) => true
      | _ => false
    let u : Unfinished := if raw then { args := rest, word } else .of (flags verb) rest word
    match if raw then .ok { args := rest } else FlagReading.readAll (flags verb) u.args with
    | .error _ => {}
    | .ok r =>
      let flagsEnded : Bool := match r.expected with
        | .plain => true
        | _ => false
      let dashed : Bool := u.word.toList.head? = some 45 && !u.word.toList.contains 61
      let given (name : Text) : Bool := (r.given.lookup name).isSome
      if u.unknown && !flagsEnded then {}
      else if given "help" || given "version" then { files := false }
      else if u.flag.isSome then
        if flagsEnded then following verb r.args u.word {} else {}
      else if dashed && !flagsEnded then
        { items := Suggestions.beginning u.word (flagItems verb r.given), files := false }
      else
        let commands := if r.args.isEmpty then below verb else []
        following verb r.args u.word
          { items := Suggestions.beginning u.word commands, files := commands.isEmpty }

variable {m : Type → Type} [Monad m] [World m]

def suggest (described : Bool) (arguments : List Text) : CommandM m Unit := do
  match arguments.getLast? with
  | none => CommandM.fail (.usage (.tooFew 1 0))
  | some word =>
    let s := suggestions arguments.dropLast word
    for (name, about) in s.items do
      CommandM.mention .out (name ++ (if described then "\t" ++ about else Text.empty) ++ "\n")
    CommandM.mention .out (s.code ++ "\n")
    CommandM.mention .err (s.remark ++ "\n")

end CommandLine

end Lifecycle

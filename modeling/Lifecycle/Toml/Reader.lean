import Lifecycle.Dict
import Lifecycle.Toml.Value

/-!
# Reading a settings file

The reader goes through the characters and builds the tables as it goes, so that a key that is given
twice is found where it is.
-/

namespace Lifecycle

structure TomlError where
  line : Option Int
  key : Text
  message : Text

def TomlError.text (e : TomlError) : Text :=
  let line := e.line.toList.map fun n => "line " ++ Text.ofInt n
  let key := if e.key.isEmpty then [] else ["(last key " ++ e.key.quoted ++ ")"]
  "toml: " ++ Text.join " " (line ++ key) ++ ": " ++ e.message

structure TomlKeyInfo where
  isList : Bool
  line : Nat

structure TomlState where
  rest : List Text.Glyph
  line : Nat := 1
  atEnd : Bool := false
  context : TomlKey := []
  current : Text := Text.empty
  keyLine : Nat := 0
  keys : List TomlKey := []
  info : Dict TomlKey TomlKeyInfo := {}
  /-- Tables that exist only because something inside them was named. -/
  implied : List TomlKey := []
  root : TomlTable := []

abbrev TomlM := EStateM TomlError TomlState

namespace TomlM

def lastKey (s : TomlState) : Text :=
  if s.current.isEmpty then s.context.text
  else if s.context.isEmpty then s.current
  else s.context.text ++ "." ++ s.current

def failAt {α : Type} (line : Int) (message : Text) : TomlM α := do
  throw { line := some line, key := lastKey (← get), message }

def failBefore {α : Type} (message : Text) : TomlM α := do failAt ((← get).line - 1) message

/-- An error here; what is missing at the end of the file is missing on the line before. -/
def fail {α : Type} (message : Text) : TomlM α := do
  let s ← get
  if s.atEnd then failBefore message else failAt s.line message

def failKey {α : Type} (message : Text) : TomlM α := do failAt (← get).keyLine message

/-! ## Characters -/

def isControl (c : Char) : Bool :=
  (c.toNat < 0x20 && c ≠ '\t' && c ≠ '\r' && c ≠ '\n') || c.toNat = 0x7F

/-- The next character, which stays where it is. Control characters are refused, and so are a
carriage return that ends no line and the mark that stands for a lost character. -/
def peek : TomlM (Option Char) := do
  match (← get).rest with
  | [] => return none
  | .stray b :: _ => fail ("invalid UTF-8 byte: 0x" ++ Text.hexOf 2 b.toNat)
  | .char '\ufffd' :: _ => fail "invalid UTF-8 byte: 0xef"
  | .char c :: rest =>
    let lone : Bool := c = '\r' && match rest with
      | .char '\n' :: _ => false
      | _ => true
    if isControl c || lone then
      fail ("TOML files cannot contain control characters: '0x" ++ Text.hexOf 2 c.toNat ++ "'")
    else return some c

def skip : TomlM Unit :=
  modify fun s =>
    match s.rest with
    | [] => s
    | g :: rest =>
      let newline : Bool := match g with
        | .char '\n' => true
        | _ => false
      { s with rest, line := if newline then s.line + 1 else s.line }

def next : TomlM (Option Char) := do
  let c ← peek
  modify fun s => { s with atEnd := c.isNone }
  skip
  return c

def giveBack (cs : List Char) : TomlM Unit :=
  modify fun s => { s with rest := cs.map .char ++ s.rest }

def accept (c : Char) : TomlM Bool := do
  if (← peek) = some c then
    skip
    return true
  else return false

def takeWhile (p : Char → Bool) : TomlM (List Char) := do
  go ((← get).rest.length)
where
  go : Nat → TomlM (List Char)
    | 0 => return []
    | n + 1 => do
      match ← peek with
      | some c =>
        if p c then
          skip
          return c :: (← go n)
        else return []
      | none => return []

def isBlank (c : Char) : Bool := c = ' ' || c = '\t'

def isNewline (c : Char) : Bool := c = '\n' || c = '\r'

def isGap (c : Char) : Bool := isBlank c || isNewline c

def skipBlanks : TomlM Unit := do
  let _ ← takeWhile isBlank

def textOf (cs : List Char) : Text := Text.ofString (String.ofList cs)

def shown (c : Option Char) : Text :=
  match c with
  | none => "'\\x00'"
  | some '\'' => "'\\''"
  | some '"' => "'\"'"
  | some c => "'" ++ Text.quoteGlyph (.char c) ++ "'"

def shownPlain : Option Char → Text
  | none => "end of file"
  | some c => "'" ++ Text.ofChar c ++ "'"

def comment : TomlM Unit := do
  let _ ← takeWhile fun c => !isNewline c

def lineEnd : TomlM Unit := do
  skipBlanks
  match ← next with
  | none => return
  | some '#' => comment
  | some c =>
    if isNewline c then return
    fail ("expected a top-level item to end with a newline, comment, or EOF, but got " ++
      shown (some c) ++ " instead")

/-! ## Texts -/

def isHex (c : Char) : Bool := c.isDigit || ('a' ≤ c && c ≤ 'f') || ('A' ≤ c && c ≤ 'F')

def hexValue (cs : List Char) : Nat :=
  cs.foldl (fun n c =>
    16 * n + if c.isDigit then c.toNat - 48 else if c.isLower then c.toNat - 87 else c.toNat - 55) 0

/-- The digits of a character that is given by its number. What has been read of the text is kept
with the last character first. -/
def digits (mark : Char) (word : Text) : Nat → List Char → TomlM (List Char)
  | 0, raw => return raw
  | n + 1, raw => do
    let c ← next
    let raw := c.toList ++ raw
    if c.any isHex then digits mark word n raw
    else
      fail ("expected " ++ word ++ " hexadecimal digits after '\\" ++ Text.ofChar mark ++
        "', but got " ++ (textOf raw.reverse).quoted ++ " instead")

/-- Steps over what follows a backslash. It is only checked; `unescape` gives it its meaning once
the whole text is read. -/
def escape (raw : List Char) : TomlM (List Char) := do
  match ← next with
  | some 'u' => digits 'u' "four" 4 ('u' :: raw)
  | some 'U' => digits 'U' "eight" 8 ('U' :: raw)
  | some c =>
    if ['b', 't', 'n', 'f', 'r', '"', '\\', ' ', '\t'].contains c then return c :: raw
    else fail ("invalid escape in string '\\" ++ Text.ofChar c ++ "'")
  | none => fail "invalid escape in string '\\\x00'"

def numbered (ds : List Char) : Except Text Char :=
  let n := hexValue ds
  if n < 0xD800 || (0xDFFF < n && n < 0x110000) then .ok (Char.ofNat n)
  else .error ("Escaped character '\\u" ++ textOf ds ++ "' is not valid UTF-8.")

def simpleEscape (c : Char) : Except Text Char :=
  match c with
  | 'b' => .ok '\x08'
  | 't' => .ok '\t'
  | 'n' => .ok '\n'
  | 'f' => .ok '\x0c'
  | 'r' => .ok '\r'
  | c => if isBlank c then .error ("invalid escape: '\\" ++ Text.ofChar c ++ "'") else .ok c

def unescape : List Char → Except Text (List Char)
  | [] => .ok []
  | '\\' :: 'u' :: a :: b :: c :: d :: rest => do
    let x ← numbered [a, b, c, d]
    return x :: (← unescape rest)
  | '\\' :: 'U' :: a :: b :: c :: d :: e :: f :: g :: h :: rest => do
    let x ← numbered [a, b, c, d, e, f, g, h]
    return x :: (← unescape rest)
  | '\\' :: c :: rest => do
    let x ← simpleEscape c
    return x :: (← unescape rest)
  | c :: rest => do return c :: (← unescape rest)

def unescaped (raw : List Char) : TomlM Text :=
  match unescape raw with
  | .ok cs => return textOf cs
  | .error message => fail message

def quotedText : TomlM Text := do
  unescaped (← go ((← get).rest.length + 1) []).reverse
where
  go : Nat → List Char → TomlM (List Char)
    | 0, raw => return raw
    | n + 1, raw => do
      match ← next with
      | none => fail "unexpected EOF; expected '\"'"
      | some '"' => return raw
      | some '\\' => do go n (← escape ('\\' :: raw))
      | some c =>
        if isNewline c then failBefore "strings cannot contain newlines" else go n (c :: raw)

def rawText : TomlM Text := do
  return textOf (← go ((← get).rest.length + 1) []).reverse
where
  go : Nat → List Char → TomlM (List Char)
    | 0, raw => return raw
    | n + 1, raw => do
      match ← next with
      | none => fail "unexpected EOF; expected \"'\""
      | some '\'' => return raw
      | some c =>
        if isNewline c then failBefore "strings cannot contain newlines" else go n (c :: raw)

def dropFirstNewline : List Char → List Char
  | '\n' :: cs => cs
  | '\r' :: '\n' :: cs => cs
  | cs => cs

def joinLines : List Char → List Char
  | [] => []
  | '\\' :: '\\' :: cs => '\\' :: '\\' :: joinLines cs
  | '\\' :: cs =>
    if (cs.takeWhile isGap).contains '\n' then joinLines (cs.dropWhile isGap)
    else '\\' :: joinLines cs
  | c :: cs => c :: joinLines cs
termination_by cs => cs.length
decreasing_by
  all_goals try have := (List.dropWhile_suffix isGap (l := cs)).length_le
  all_goals simp_all <;> omega

def endsInFive (quote : Char) (escapes : Bool) (raw : List Char) : Bool :=
  raw.take 5 = List.replicate 5 quote && !(escapes && (raw.drop 5).head? = some '\\')

/-- The rest of a text over several lines. Up to two of its own quotes may stand before the closing
three. -/
def longText (quote : Char) (escapes : Bool) : TomlM Text := do
  let raw := dropFirstNewline (← go ((← get).rest.length + 1) []).reverse
  if escapes then unescaped (joinLines raw) else return textOf raw
where
  go : Nat → List Char → TomlM (List Char)
    | 0, raw => return raw
    | n + 1, raw => do
      match ← next with
      | none =>
        let mark : Text := if escapes then "'\"\"\"'" else "\"'''\""
        fail ("unexpected EOF; expected " ++ mark)
      | some c =>
        if c = quote then
          if !(← accept quote) then go n (quote :: raw)
          else if !(← accept quote) then go n (quote :: quote :: raw)
          else if (← peek) = some quote then
            if endsInFive quote escapes (quote :: quote :: quote :: raw) then
              fail (if escapes then "unexpected '\"\"\"\"\"\"'" else "unexpected \"''''''\"")
            giveBack [quote, quote]
            go n (quote :: raw)
          else return raw
        else if c = '\\' && escapes then
          if ((← peek).map isNewline).getD false then
            let d ← next
            go n (d.toList ++ c :: raw)
          else go n (← escape (c :: raw))
        else go n (c :: raw)

/-! ## Tables -/

def field? (t : TomlTable) (name : Text) : Option TomlValue := t.lookup name

def setField (t : TomlTable) (name : Text) (v : TomlValue) : TomlTable :=
  if (t.lookup name).isSome then t.map fun (k, w) => if k = name then (k, v) else (k, w)
  else t ++ [(name, v)]

/-- Changes the table at a place: for tables that were added one by one, the last one. None when
something else is in the way; then the names up to it. -/
def updateAt (f : TomlTable → TomlTable) (done : TomlKey) : TomlKey → TomlTable →
    Except TomlKey TomlTable
  | [], t => .ok (f t)
  | k :: ks, t =>
    match field? t k with
    | some (.table inner) => do
      return setField t k (.table (← updateAt f (done ++ [k]) ks inner))
    | some (.tables all) => do
      let inner ← updateAt f (done ++ [k]) ks (all.getLast?.getD [])
      return setField t k (.tables (all.dropLast ++ [inner]))
    | _ => .error (done ++ [k])

def tableAt (done : TomlKey) : TomlKey → TomlTable → Except TomlKey TomlTable
  | [], t => .ok t
  | k :: ks, t =>
    match field? t k with
    | some (.table inner) => tableAt (done ++ [k]) ks inner
    | some (.tables all) => tableAt (done ++ [k]) ks (all.getLast?.getD [])
    | _ => .error (done ++ [k])

def defined (k : TomlKey) : Text := "Key '" ++ k.text ++ "' has already been defined."

def isList (k : TomlKey) : TomlM Bool := do
  return match (← get).info.get? k with
    | some i => i.isList
    | none => false

def setInfo (name : Text) (isList : Bool) (line : Nat) : TomlM Unit :=
  modify fun s =>
    let k := if name.isEmpty then s.context else s.context ++ [name]
    { s with info := s.info.insert (if k.isEmpty then [Text.empty] else k) ⟨isList, line⟩ }

def imply (k : TomlKey) : TomlM Unit :=
  modify fun s => if s.implied.contains k then s else { s with implied := k :: s.implied }

def store (place : TomlKey) (name : Text) (v : TomlValue) : TomlM Unit := do
  let s ← get
  match updateAt (setField · name v) [] place s.root with
  | .ok root => set { s with root }
  | .error k => failKey (defined k)

/-- Gives a value to a name in the table that is being filled. A name that was given a list takes
another value; one that was only implied keeps the table that it has. -/
def setValue (name : Text) (v : TomlValue) : TomlM Unit := do
  let s ← get
  let k := s.context ++ [name]
  match tableAt [] s.context s.root with
  | .error k => failKey (defined k)
  | .ok t =>
    if (field? t name).isNone then store s.context name v
    else if ← isList k then
      set { s with implied := s.implied.erase k }
      store s.context name v
    else if s.implied.contains k then set { s with implied := s.implied.erase k }
    else failKey (defined k)

def enter (done : TomlKey) : TomlKey → TomlM Unit
  | [] => return
  | k :: ks => do
    let here := done ++ [k]
    if (field? ((tableAt [] done (← get).root).toOption.getD []) k).isNone then
      imply here
      store done k (.table [])
    match field? ((tableAt [] done (← get).root).toOption.getD []) k with
    | some (.table _) | some (.tables _) => enter here ks
    | _ => failKey ("Key '" ++ here.text ++ "' was already created as a hash.")

def open_ (key : TomlKey) (oneOfMany : Bool) : TomlM Unit := do
  let outer := key.dropLast
  let name := key.getLast?.getD Text.empty
  enter [] outer
  modify fun s => { s with context := outer }
  if oneOfMany then
    let t := (tableAt [] outer (← get).root).toOption.getD []
    match field? t name with
    | none => store outer name (.tables [[]])
    | some (.tables all) => store outer name (.tables (all ++ [[]]))
    | some _ =>
      failKey ("Key '" ++ key.text ++ "' was already created and cannot be used as an array.")
  else setValue name (.table [])
  modify fun s => { s with context := key }

def addKey (k : TomlKey) : TomlM Unit := modify fun s => { s with keys := k :: s.keys }

end TomlM

end Lifecycle

import Lifecycle.Text.Letter
import Lifecycle.Toml.Reader

/-!
# Settings files

`Toml.parse` reads a whole file: keys with values, and headers of tables. It returns the tables, all
keys in order, and the lines that they stand on.
-/

namespace Lifecycle

namespace TomlM

/-! ## Numbers and times -/

def underscoresOk (cs : List Char) : Bool :=
  let named : List Text := ["nan", "+nan", "-nan", "inf", "-inf", "+inf"]
  named.contains (textOf cs) || go false cs
where
  go : Bool → List Char → Bool
    | ok, [] => ok
    | ok, c :: cs => if c = '_' && !ok then false else go (isHex c) cs

def hasLeadingZero : List Char → Bool
  | '0' :: c :: _ => !(['b', 'o', 'x'].contains c)
  | s :: '0' :: _ :: _ => s = '-' || s = '+'
  | _ => false

def digitsValue (base : Nat) (cs : List Char) : Nat :=
  cs.foldl (fun n c => if c = '_' then n else base * n + hexValue [c]) 0

def integer (cs : List Char) : TomlM TomlValue := do
  let t := textOf cs
  if !underscoresOk cs then
    fail ("Invalid integer " ++ t.quoted ++ ": underscores must be surrounded by digits")
  if hasLeadingZero cs then
    fail ("Invalid integer " ++ t.quoted ++ ": cannot have leading zeroes")
  let n : Int := match cs with
    | '0' :: 'x' :: ds => digitsValue 16 ds
    | '0' :: 'o' :: ds => digitsValue 8 ds
    | '0' :: 'b' :: ds => digitsValue 2 ds
    | '-' :: ds => -digitsValue 10 ds
    | '+' :: ds => digitsValue 10 ds
    | ds => digitsValue 10 ds
  if n < Int64.minValue.toInt || Int64.maxValue.toInt < n then
    fail (t ++ " is out of range for int64")
  return .int (.ofInt n)

def isMantissa (cs : List Char) : Bool :=
  let whole := cs.takeWhile Char.isDigit
  match cs.dropWhile Char.isDigit with
  | [] => !whole.isEmpty
  | '.' :: ds => (!whole.isEmpty || !ds.isEmpty) && ds.all Char.isDigit
  | _ => false

def unsigned : List Char → List Char
  | '-' :: cs | '+' :: cs => cs
  | cs => cs

def isExponentMark (c : Char) : Bool := c = 'e' || c = 'E'

def isFloat (cs : List Char) : Bool :=
  let cs := unsigned cs
  [("inf" : Text), "nan"].contains (textOf cs) ||
    isMantissa (cs.takeWhile (!isExponentMark ·)) &&
      match cs.dropWhile (!isExponentMark ·) with
      | [] => true
      | _ :: e => !(unsigned e).isEmpty && (unsigned e).all Char.isDigit

/-- Exponents of five digits are out of all bounds; further digits do not count. -/
def exponentValue (cs : List Char) : Nat :=
  cs.foldl (fun n c => if n < 10000 then 10 * n + hexValue [c] else n) 0

/-- From here on a number is rounded to one that is too large: the middle between the largest number
and the power of two that would follow it. -/
def hugeFrom : Nat := Nat.pow 2 1024 - Nat.pow 2 970

/-- Whether a number in positional or exponent form is too large. Numbers with far fewer or far more
than 309 places before the point are told apart by their places. -/
def isHuge (cs : List Char) : Bool :=
  let cs := unsigned cs
  let mantissa := cs.takeWhile (!isExponentMark ·)
  let e := (cs.dropWhile (!isExponentMark ·)).drop 1
  let exponent : Int :=
    if e.head? = some '-' then -exponentValue (unsigned e) else exponentValue (unsigned e)
  let ds := (mantissa.filter (· ≠ '.')).dropWhile (· = '0')
  let scale : Int := exponent - ((mantissa.dropWhile (· ≠ '.')).drop 1).length
  let places : Int := ds.length + scale
  if ds.isEmpty || places < 300 then false
  else if 320 < places then true
  else hugeFrom * Nat.pow 10 (-scale).toNat ≤ digitsValue 10 ds * Nat.pow 10 scale.toNat

def periodsOk (cs : List Char) : Bool :=
  go false cs
where
  go : Bool → List Char → Bool
    | period, [] => !period
    | period, c :: cs => if period && !c.isDigit then false else go (c = '.') cs

def float (cs : List Char) : TomlM TomlValue := do
  let t := textOf cs
  let parts := (cs.splitBy fun a b =>
    (a = '.' || isExponentMark a) == (b = '.' || isExponentMark b)).filter
      fun p => !p.all fun c => c = '.' || isExponentMark c
  if !parts.all underscoresOk then
    fail ("Invalid float " ++ t.quoted ++ ": underscores must be surrounded by digits")
  if hasLeadingZero (parts.head?.getD []) then
    fail ("Invalid float " ++ t.quoted ++ ": cannot have leading zeroes")
  if !periodsOk cs then
    fail ("Invalid float " ++ t.quoted ++ ": '.' must be followed by one or more digits")
  let plain := cs.filter (· ≠ '_')
  if !isFloat plain then fail ("Invalid float value: " ++ t.quoted)
  if isHuge plain then fail (t ++ " is out of range for float64")
  return .float

def daysIn (year month : Nat) : Nat :=
  if month = 2 then
    if year % 4 = 0 && (year % 100 ≠ 0 || year % 400 = 0) then 29 else 28
  else if [4, 6, 9, 11].contains month then 30
  else 31

def number? (width : Nat) (cs : List Char) : Option (Nat × List Char) :=
  if (cs.take width).length = width && (cs.take width).all Char.isDigit then
    some (digitsValue 10 (cs.take width), cs.drop width)
  else none

def mark? (c : Char) : List Char → Option (List Char)
  | d :: cs => if d = c then some cs else none
  | [] => none

def date? (cs : List Char) : Option (List Char) := do
  let (y, cs) ← number? 4 cs
  let (m, cs) ← number? 2 (← mark? '-' cs)
  let (d, cs) ← number? 2 (← mark? '-' cs)
  if 1 ≤ m && m ≤ 12 && 1 ≤ d && d ≤ daysIn y m then some cs else none

def clock? (cs : List Char) : Option (List Char) := do
  let (h, cs) ← number? 2 cs <|> number? 1 cs
  let (m, cs) ← number? 2 (← mark? ':' cs)
  let (s, cs) ← number? 2 (← mark? ':' cs)
  if 24 ≤ h || 60 ≤ m || 60 ≤ s then none
  else
    match cs with
    | '.' :: d :: ds => some (if d.isDigit then ds.dropWhile Char.isDigit else cs)
    | _ => some cs

def zone? (cs : List Char) : Option (List Char) :=
  match cs with
  | 'Z' :: cs => some cs
  | s :: cs => do
    let (h, cs) ← number? 2 cs
    let (m, cs) ← number? 2 (← mark? ':' cs)
    if (s = '+' || s = '-') && h ≤ 24 && m ≤ 60 then some cs else none
  | [] => none

def isTime (cs : List Char) : Bool :=
  let moment? := (date? cs >>= mark? 'T') >>= clock?
  [moment? >>= zone?, moment?, date? cs, clock? cs].any (· == some [])

def time (cs : List Char) : TomlM TomlValue := do
  let cs := (textOf cs).trim.toStringLossy.toList.map fun c =>
    if c = 'z' then 'Z' else if c = 't' || c = ' ' then 'T' else c
  if isTime cs then return .time
  fail ("Invalid TOML Datetime: " ++ (textOf cs).quoted ++ ".")

def floatFrom (cs : List Char) : TomlM TomlValue := do
  float (cs ++ (← takeWhile fun c => c.isDigit || ['_', '.', '-', '+', 'e', 'E'].contains c))

def decimalFrom (cs : List Char) : TomlM TomlValue := do
  let cs := cs ++ (← takeWhile fun c => c.isDigit || c = '_')
  match ← peek with
  | some c => if c = '.' || isExponentMark c then floatFrom cs else integer cs
  | none => integer cs

def basedFrom (mark : Char) (name : Text) (isDigit : Char → Bool) : TomlM TomlValue := do
  skip
  let c ← peek
  let digit : Bool := match c with
    | some c => isDigit c
    | none => false
  if !digit then
    fail ("not " ++ name ++ " number: '0" ++ Text.ofChar mark ++
      Text.ofChar (c.getD (Char.ofNat 0)) ++ "'")
  integer (['0', mark] ++ (← takeWhile fun c => isDigit c || c = '_'))

def numberOrTime : TomlM TomlValue := do
  let cs ← takeWhile Char.isDigit
  let zero : Bool := cs = ['0']
  match ← peek with
  | some c =>
    if zero && c = 'b' then basedFrom 'b' "a binary" fun c => c = '0' || c = '1'
    else if zero && c = 'o' then basedFrom 'o' "an octal" fun c => '0' ≤ c && c ≤ '7'
    else if zero && c = 'x' then basedFrom 'x' "a hexidecimal" isHex
    else if !zero && (c = '-' || c = ':') then
      time (cs ++ (← takeWhile fun c =>
        c.isDigit || ['-', ':', 'T', 't', ' ', '.', 'Z', 'z', '+'].contains c))
    else decimalFrom cs
  | none => integer cs

def acceptAll : List Char → TomlM (List Char)
  | [] => return []
  | c :: cs => do
    if ← accept c then return c :: (← acceptAll cs)
    return []

def signedNumber (sign : Char) : TomlM TomlValue := do
  let named (first : Char) (more : List Char) : TomlM TomlValue := do
    let cs ← acceptAll more
    if cs = more then float (sign :: first :: cs)
    else fail ("invalid float: '" ++ textOf (sign :: first :: cs) ++ "'")
  match ← next with
  | some 'i' => named 'i' ['n', 'f']
  | some 'n' => named 'n' ['a', 'n']
  | some '.' => fail "floats must start with a digit, not '.'"
  | some '0' => do
    let d := (← peek).getD ' '
    if ['b', 'o', 'x'].contains d then
      fail ("cannot use sign with non-decimal numbers: '" ++ textOf [sign, '0', d] ++ "'")
    decimalFrom [sign, '0']
  | some c =>
    if c.isDigit then decimalFrom [sign, c]
    else fail ("expected a digit but got " ++ shown (some c))
  | none => fail ("expected a digit but got " ++ shown none)

def word (cs : List Char) : TomlM TomlValue := do
  let t := textOf cs
  if t = "true" then return .bool true
  else if t = "false" then return .bool false
  else fail ("expected value but found " ++ t.quoted ++ " instead")

/-- A value that starts with a letter of `inf` or `nan`. Whatever ends as one of them does is taken
for a number; of anything else the last letter that was taken begins a word. -/
def namedNumber (first : Char) : TomlM TomlValue := do
  let n ← accept 'n'
  let start := if n then [first, 'n'] else [first]
  if ← (if n then accept 'f' else return false) then return ← float (start ++ ['f'])
  let a ← accept 'a'
  let start := if a then start ++ ['a'] else start
  if ← (if a then accept 'n' else return false) then return ← float (start ++ ['n'])
  word (start.drop (start.length - 1) ++ (← takeWhile isLetter))

/-! ## Keys -/

def name : TomlM Text := do
  match ← peek with
  | some '"' => do
    skip
    quotedText
  | some '\'' => do
    skip
    rawText
  | _ => return textOf (← takeWhile TomlKey.isBare)

def firstName : TomlM Text := do
  let n ← name
  modify fun s => { s with keyLine := s.line }
  return n

def keyNames : Nat → TomlM TomlKey
  | 0 => return []
  | n + 1 => do
    skipBlanks
    match ← next with
    | none => fail "unexpected EOF; expected key separator '='"
    | some '=' => return []
    | some '.' => do
      skipBlanks
      match ← peek with
      | none | some '=' => fail "unexpected '='"
      | some '.' => fail "unexpected '.'"
      | _ => do
        let part ← name
        return part :: (← keyNames n)
    | some c => fail ("expected '.' or '=', but got " ++ shown (some c) ++ " instead")

def key : TomlM TomlKey := do
  skipBlanks
  match ← peek with
  | none | some '=' => fail "unexpected '=': key name appears blank"
  | some '.' => fail "unexpected '.': keys cannot start with a '.'"
  | _ => do
    let first ← firstName
    return first :: (← keyNames ((← get).rest.length + 1))

def tableNames : Nat → Bool → TomlM TomlKey
  | 0, _ => return []
  | n + 1, first => do
    skipBlanks
    match ← peek with
    | none | some ']' => fail "unexpected end of table name (table names cannot be empty)"
    | some '.' => fail "unexpected table separator (table names cannot be empty)"
    | _ => do
      let part ← if first then firstName else name
      skipBlanks
      match ← next with
      | some '.' => return part :: (← tableNames n false)
      | some ']' => return [part]
      | c => fail ("expected '.' or ']' to end table name, but got " ++ shown c ++ " instead")

def intoKey (k : TomlKey) : TomlM Unit := do
  modify fun s => { s with current := k.getLast?.getD Text.empty }
  for part in k.dropLast do
    let inner := (← get).context ++ [part]
    imply inner
    open_ inner false
  let s ← get
  addKey (s.context ++ [s.current])

/-! ## Values -/

def textValue (quote : Char) (escapes : Bool) : TomlM TomlValue := do
  if !(← accept quote) then return .str (← if escapes then quotedText else rawText)
  else if !(← accept quote) then return .str Text.empty
  else return .str (← longText quote escapes)

mutual

def value : Nat → Bool → TomlM TomlValue
  | 0, _ => fail "unexpected EOF; expected value"
  | n + 1, inList => do
    skipBlanks
    match ← peek with
    | some c =>
      if c.isDigit then numberOrTime
      else
        skip
        match c with
        | '[' => do
          let s ← get
          setInfo s.current true s.line
          return .arr (← items n)
        | '\x7b' => inlineTable n inList
        | '"' => textValue '"' true
        | '\'' => textValue '\'' false
        | '.' => fail "floats must start with a digit, not '.'"
        | '-' | '+' => signedNumber c
        | 'i' | 'n' => namedNumber c
        | c =>
          if isLetter c then word (c :: (← takeWhile isLetter))
          else fail ("expected value but found " ++ shown (some c) ++ " instead")
    | none => do
      let _ ← next
      fail "unexpected EOF; expected value"

def items : Nat → TomlM (List TomlValue)
  | 0 => return []
  | n + 1 => do
    let _ ← takeWhile isGap
    match ← peek with
    | some '#' => do
      comment
      items n
    | some ',' => do
      skip
      fail "unexpected comma"
    | some ']' => do
      skip
      return []
    | _ => do
      let v ← value n true
      return v :: (← afterItem n)

def afterItem : Nat → TomlM (List TomlValue)
  | 0 => return []
  | n + 1 => do
    let _ ← takeWhile isGap
    match ← next with
    | some '#' => do
      comment
      afterItem n
    | some ',' => items n
    | some ']' => return []
    | c =>
      fail ("expected a comma (',') or array terminator (']'), but got " ++ shownPlain c)

def inlineTable : Nat → Bool → TomlM TomlValue
  | 0, _ => return .table []
  | n + 1, inList => do
    let outer ← get
    let place := outer.context ++ [outer.current]
    modify fun s => { s with context := place, current := Text.empty }
    imply place
    open_ place inList
    let fields ← entries n place
    modify fun s => { s with context := outer.context, current := outer.current }
    return .table fields

def entries : Nat → TomlKey → TomlM TomlTable
  | 0, _ => return []
  | n + 1, place => do
    skipBlanks
    match ← peek with
    | some '#' => do
      comment
      entries n place
    | some ',' => do
      skip
      fail "unexpected comma"
    | some '\x7d' => do
      skip
      return []
    | c => do
      if c = some '\n' then
        skip
        failBefore "newlines not allowed within inline tables"
      if c = some '\r' then failBefore "newlines not allowed within inline tables"
      let line := (← get).line
      intoKey (← key)
      let name := (← get).current
      let v ← value n false
      setValue name v
      setInfo name (match v with | .arr _ => true | _ => false) line
      modify fun s => { s with context := place }
      let rest ← afterEntry n place
      return setField rest name v

def afterEntry : Nat → TomlKey → TomlM TomlTable
  | 0, _ => return []
  | n + 1, place => do
    skipBlanks
    match ← next with
    | some '#' => do
      comment
      afterEntry n place
    | some ',' => do
      skipBlanks
      if (← peek) = some '\x7d' then fail "trailing comma not allowed in inline tables"
      entries n place
    | some '\x7d' => return []
    | c =>
      if c = some '\n' || c = some '\r' then
        failBefore "newlines not allowed within inline tables"
      else
        fail ("expected a comma or an inline table terminator '\x7d', but got " ++ shownPlain c ++
          " instead")

end

/-! ## Lines -/

def entry : TomlM Unit := do
  let outer := (← get).context
  intoKey (← key)
  let s ← get
  let v ← value (s.rest.length + 1) false
  setValue s.current v
  let line := (← get).line
  setInfo s.current (match v with | .arr _ => true | _ => false)
    (match v with | .arr _ | .table _ => s.line | _ => line)
  modify fun s => { s with context := outer, current := Text.empty }
  lineEnd

def header : TomlM Unit := do
  let line := (← get).line
  let many : Bool := (← peek) = some '['
  if many then skip
  let k ← tableNames ((← get).rest.length + 1) true
  if many then
    let c ← next
    if c ≠ some ']' then
      fail ("expected end of table array name delimiter ']', but got " ++ shown c ++ " instead")
  open_ k many
  setInfo Text.empty false line
  addKey k
  lineEnd

def document : Nat → TomlM Unit
  | 0 => return
  | n + 1 => do
    let _ ← takeWhile isGap
    match ← peek with
    | none => return
    | some '#' => do
      comment
      document n
    | some '[' => do
      skip
      header
      document n
    | _ => do
      entry
      document n

end TomlM

structure TomlDocument where
  root : TomlTable
  keys : List TomlKey
  info : Dict TomlKey TomlKeyInfo

namespace TomlDocument

def withoutMark (bs : List UInt8) : List UInt8 :=
  match bs with
  | 0xFF :: 0xFE :: rest | 0xFE :: 0xFF :: rest => rest
  | 0xEF :: 0xBB :: 0xBF :: rest => rest
  | _ => bs

def parse (t : Text) : Except TomlError TomlDocument :=
  let bytes := withoutMark t.toList
  if (bytes.take 6).contains 0 then
    .error { line := some 1, key := Text.empty, message :=
      "files cannot contain NULL bytes; probably using UTF-16; TOML files must be UTF-8" }
  else
    let rest := Text.glyphsOf bytes
    match (TomlM.document (rest.length + 1)).run { rest } with
    | .ok _ s => .ok ⟨s.root, s.keys.reverse, s.info⟩
    | .error e _ => .error e

end TomlDocument

end Lifecycle

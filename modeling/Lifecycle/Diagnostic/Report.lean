import Lifecycle.Diagnostic.Basic
import Lifecycle.Json.Value
import Lifecycle.Source.FileSet
import Lifecycle.Text.Ink

/-!
# Reports of diagnostics

A bag is shown as lines for people, as JSON, or as one line of counts. File names are shortened or
completed as the reader asks.
-/

namespace Lifecycle

inductive PathStyle where
  | auto
  | absolute
  | relative
  | base
  | plain
deriving DecidableEq

namespace PathStyle

def ofCode : UInt8 → PathStyle
  | 0 => .auto
  | 1 => .absolute
  | 2 => .relative
  | 3 => .base
  | _ => .plain

end PathStyle

structure PathView where
  style : PathStyle := .auto
  workDir : Text := "/"
  baseDir : Text := ""

namespace PathView

def longName : Nat := 40

def text (v : PathView) (path : Text) : Text :=
  match v.style with
  | .absolute => Path.absolute v.workDir path
  | .relative =>
    let base := if v.baseDir.isEmpty then v.workDir else v.baseDir
    (Path.relative? base (Path.absolute v.workDir path)).getD path
  | .base => Path.base path
  | .auto => if longName ≤ path.size && Path.isAbsolute path then Path.base path else path
  | .plain => path

def location (v : PathView) (fs : FileSet) (s : Span) : Text :=
  let path := v.text (fs.path s.file)
  if s.isUnknown then path
  else path ++ ":" ++ Text.ofNat s.line.toNat ++ ":" ++ Text.ofNat s.col.toNat

end PathView

structure ReportStyle where
  colored : Bool := false
  paths : PathView := {}
  notes : Bool := false
  short : Bool := false

def Severity.inks : Severity → List Ink
  | .error => [.red, .bold]
  | .warning => [.yellow, .bold]
  | .hint => [.cyan]
  | .other _ _ => [.faint]

namespace Diagnostic

def lines (st : ReportStyle) (fs : FileSet) (d : Diagnostic) : List Text :=
  let paint := Ink.paint st.colored
  let location (s : Span) : Text := paint [.bold] (st.paths.location fs s)
  let head := location d.primary ++ ": " ++ paint d.severity.inks d.severity.text ++ " " ++
    paint [.faint] d.code.id ++ ": " ++ d.message ++ "\n"
  let note (n : DiagNote) : Text :=
    let place : Text := if n.span.isUnknown then "" else location n.span ++ ": "
    "  " ++ place ++ paint [.blue] "note" ++ ": " ++ n.message ++ "\n"
  if st.short then [head]
  else
    [head, "  " ++ paint [.faint] ("= " ++ d.code.title) ++ "\n"] ++
      if st.notes then d.notes.map note else []

def locationJson (v : PathView) (fs : FileSet) (s : Span) : JsonValue :=
  let number (k : Text) (n : UInt32) : List (Text × JsonValue) :=
    if n = 0 then [] else [(k, .num n.toNat)]
  let file : List (Text × JsonValue) := [("file", .str (v.text (fs.path s.file)))]
  .obj (file ++ number "line" s.line ++ number "col" s.col)

def noteJson (v : PathView) (fs : FileSet) (n : DiagNote) : JsonValue :=
  let place : List (Text × JsonValue) :=
    if n.span.isUnknown then [] else [("location", locationJson v fs n.span)]
  .obj (("message", .str n.message) :: place)

def json (v : PathView) (notes : Bool) (fs : FileSet) (d : Diagnostic) : JsonValue :=
  let fields : List (Text × JsonValue) := [("severity", .str d.severity.text),
    ("code", .str d.code.id), ("title", .str d.code.title), ("message", .str d.message),
    ("location", locationJson v fs d.primary)]
  let notes : List (Text × JsonValue) :=
    if notes && !d.notes.isEmpty then [("notes", .arr (d.notes.map (noteJson v fs)))] else []
  .obj (fields ++ notes)

end Diagnostic

namespace Bag

def lines (b : Bag) (st : ReportStyle) (fs : FileSet) : List Text :=
  b.items.flatMap (·.lines st fs)

def json (b : Bag) (v : PathView) (notes : Bool) (limit : Int) (fs : FileSet) : Text :=
  let items := if 0 < limit then b.items.take limit.toNat else b.items
  let fields : List (Text × JsonValue) :=
    [("diagnostics", .arr (items.map (·.json v notes fs))), ("count", .num items.length)]
  (JsonValue.obj fields).document

def counted (n : Nat) (word : Text) : Text :=
  if n = 1 then "1 " ++ word else Text.ofNat n ++ " " ++ word ++ "s"

/-- How many errors, warnings and hints there are; nothing for an empty bag. What is neither an
error nor a warning counts as a hint. -/
def summary? (b : Bag) (colored : Bool) : Option Text :=
  let errors := (b.items.filter (·.severity = .error)).length
  let warnings := (b.items.filter (·.severity = .warning)).length
  let part (s : Severity) (n : Nat) (word : Text) : Text :=
    Ink.paint colored s.inks (counted n word)
  if b.items.isEmpty then none
  else some (Text.join ", " [part .error errors "error", part .warning warnings "warning",
    part .hint (b.size - errors - warnings) "hint"] ++ "\n")

end Bag

/-! ## Where reports go -/

structure Reporter where
  seen : List Diagnostic := []

def Reporter.accept (r : Reporter) (d : Diagnostic) : Bool × Reporter :=
  if r.seen.any (·.sameReport d) then (false, r) else (true, ⟨d :: r.seen⟩)

end Lifecycle

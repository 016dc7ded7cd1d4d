import Lifecycle.Settings.Basic
import Lifecycle.Source.Path
import Lifecycle.Toml.Parse
import Lifecycle.World.Basic

/-!
# Reading settings

`Settings.load` reads a settings file over the usual values, and `Settings.discover` looks for one
in a directory and all directories around it. Keys that no setting has are refused, and so are
values that do not fit.
-/

namespace Lifecycle

/-- What a file is filled into: the keys that were used, or the key whose value does not fit and
why. -/
abbrev FillM := StateT (List TomlKey) (Except (TomlKey × Text))

structure TomlSlot (σ : Type) where
  name : Text
  fill : TomlKey → TomlValue → σ → FillM σ

namespace TomlSlot

variable {σ : Type}

/-- Letters in one case; the long s and the sign of Kelvin count as letters. -/
def folded (t : Text) : List Text.Glyph :=
  t.glyphs.map fun
    | .char c =>
      .char (if c.toNat = 0x17F then 's' else if c.toNat = 0x212A then 'k' else c.toLower)
    | g => g

def find? (slots : List (TomlSlot σ)) (name : Text) : Option (TomlSlot σ) :=
  slots.find? (·.name = name) <|> slots.find? fun s => folded s.name = folded name

def fillAll (slots : List (TomlSlot σ)) (place : TomlKey) (t : TomlTable) (s : σ) : FillM σ :=
  t.foldlM (fun s (name, v) => do
    match find? slots name with
    | none => return s
    | some slot =>
      let key := place ++ [name]
      modify (key :: ·)
      slot.fill key v s) s

def mismatch {α : Type} (key : TomlKey) (found : TomlValue) (wanted : Text) : FillM α :=
  throw (key, "incompatible types: TOML value has type " ++ found.kindText ++
    "; destination has type " ++ wanted)

def truth (name : Text) (put : σ → Bool → σ) : TomlSlot σ where
  name
  fill key v s := match v with
    | .bool b => return put s b
    | _ => mismatch key v "boolean"

def number (name : Text) (put : σ → Int64 → σ) : TomlSlot σ where
  name
  fill key v s := match v with
    | .int n => return put s n
    | _ => mismatch key v "integer"

def text (name : Text) (put : σ → Text → σ) : TomlSlot σ where
  name
  fill key v s := match v with
    | .str t => return put s t
    | _ => mismatch key v "string"

def texts (name : Text) (put : σ → List Text → σ) : TomlSlot σ where
  name
  fill key v s := do
    let items ← match v with
      | .arr items => pure items
      | .tables all => pure (all.map .table)
      | _ => mismatch key v "slice"
    return put s (← items.mapM fun
      | .str t => pure t
      | item => mismatch key item "string")

def group {τ : Type} (name kind : Text) (inner : List (TomlSlot τ)) (get : σ → τ)
    (put : σ → τ → σ) : TomlSlot σ where
  name
  fill key v s := do
    match v with
    | .table t => return put s (← fillAll inner key t (get s))
    | _ => throw (key, "type mismatch for " ++ kind ++ ": expected table but found " ++ v.kindText)

end TomlSlot

namespace Settings

def passSlots : List (TomlSlot PassSettings) :=
  [.truth "perf_hints" fun s b => { s with perfHints := b },
    .truth "cycle_warnings" fun s b => { s with cycleWarnings := b },
    .texts "expand" fun s ts => { s with expand := ts }]

def runSlots : List (TomlSlot RunSettings) :=
  [.number "workers" fun s n => { s with workers := n },
    .number "max_diagnostics" fun s n => { s with maxDiagnostics := n }]

def traceSlots : List (TomlSlot TraceSettings) :=
  [.text "level" fun s t => { s with level := t },
    .text "mode" fun s t => { s with mode := t },
    .text "format" fun s t => { s with format := t },
    .text "output" fun s t => { s with output := t },
    .number "ring_size" fun s n => { s with ringSize := n }]

def slots : List (TomlSlot Settings) :=
  [.group "pass" "config.PassConfig" passSlots (·.pass) fun s p => { s with pass := p },
    .group "driver" "config.DriverConfig" runSlots (·.run) fun s r => { s with run := r },
    .group "trace" "config.TraceConfig" traceSlots (·.trace) fun s t => { s with trace := t }]

inductive Unreadable where
  | file (e : FileError)
  | toml (e : TomlError)

def Unreadable.text : Unreadable → Text
  | .file e => e.text
  | .toml e => e.text

end Settings

inductive SettingsError where
  | unreadable (path : Text) (why : Settings.Unreadable)
  | unknownKeys (path : Text) (keys : List TomlKey)
  | invalid (path : Option Text) (problems : List SettingProblem)
  | unsearchable (path : Text) (fault : FileFault)

namespace SettingsError

def unreadableHead (path : Text) : Text := path ++ ": failed to parse TOML"

def message : SettingsError → Text
  | .unreadable path why => unreadableHead path ++ ": " ++ why.text
  | .unknownKeys path keys => path ++ ": unknown keys: " ++ Text.join ", " (keys.map (·.text))
  | .invalid path problems =>
    let path : Text := match path with
      | some p => p ++ ": "
      | none => ""
    path ++ Text.join "\n" (problems.map (·.message))
  | .unsearchable path fault =>
    "failed to stat " ++ path.quoted ++ ": " ++ (FileError.mk "stat" path fault).text

end SettingsError

namespace Settings

def fileName : Text := "dtorpass.toml"

def ofDocument (path : Text) (doc : TomlDocument) : Except SettingsError Settings :=
  match (TomlSlot.fillAll slots [] doc.root {}).run [] with
  | .error (key, message) =>
    let line := (doc.info.get? key).map fun i => (i.line : Int)
    .error (.unreadable path (.toml { line, key := key.text, message }))
  | .ok (s, used) =>
    let s := { s with path }
    let unknown := doc.keys.filter (!used.contains ·)
    if !unknown.isEmpty then .error (.unknownKeys path unknown)
    else if !s.problems.isEmpty then .error (.invalid (some path) s.problems)
    else .ok s

variable {m : Type → Type} [Monad m] [World m]

def load (path : Text) : m (Except SettingsError Settings) := do
  match ← World.read path with
  | .error e => return .error (.unreadable path (.file e))
  | .ok t =>
    match TomlDocument.parse t with
    | .error e => return .error (.unreadable path (.toml e))
    | .ok doc => return ofDocument path doc

def findIn : List Text → m (Except SettingsError (Option Text))
  | [] => return .ok none
  | dir :: dirs => do
    let path := Path.join dir fileName
    match ← World.look path with
    | .ok _ => return .ok (some path)
    | .error .missing => findIn dirs
    | .error fault => return .error (.unsearchable path fault)

def find (start : Text) : m (Except SettingsError (Option Text)) := do
  findIn (Path.outward (Path.absolute (← World.workDir) (if start.isEmpty then "." else start)))

def discover (start : Text) : m (Except SettingsError Settings) := do
  match ← find start with
  | .error e => return .error e
  | .ok none => return .ok {}
  | .ok (some path) => load path

end Settings

end Lifecycle

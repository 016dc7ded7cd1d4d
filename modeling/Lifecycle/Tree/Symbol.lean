import Lifecycle.Source.Span
import Lifecycle.Types.Table

/-!
# Symbols

A symbol is a named entity: a variable, a parameter, a temporary, a routine, a field or a label. The
symbols of a unit stand in one list and are referred to by their place in it, so two nodes denote
the same entity exactly when they hold the same reference.
-/

namespace Lifecycle

abbrev SymRef := Nat

inductive SymKind where
  | param
  | varLocal
  | letLocal
  | temp
  | result
  | global
  | proc
  | field
  | label
  | other (code : UInt8) (beyond : 9 ≤ code)
deriving DecidableEq

namespace SymKind

def named : List SymKind :=
  [.param, .varLocal, .letLocal, .temp, .result, .global, .proc, .field, .label]

def code : SymKind → UInt8
  | .param => 0
  | .varLocal => 1
  | .letLocal => 2
  | .temp => 3
  | .result => 4
  | .global => 5
  | .proc => 6
  | .field => 7
  | .label => 8
  | .other c _ => c

def ofCode (c : UInt8) : SymKind :=
  if h : 9 ≤ c then .other c h else (named[c.toNat]?).getD .param

def text : SymKind → Text
  | .param => "param"
  | .varLocal => "var"
  | .letLocal => "let"
  | .temp => "temp"
  | .result => "result"
  | .global => "global"
  | .proc => "proc"
  | .field => "field"
  | .label => "label"
  | .other _ _ => "?"

def isStorage : SymKind → Bool
  | .param | .varLocal | .letLocal | .temp | .result => true
  | _ => false

end SymKind

structure SymFlags where
  bits : UInt32 := 0
deriving DecidableEq

namespace SymFlags

/-- Does not own what it holds: never moved from, never destroyed. -/
def cursor : SymFlags := ⟨0x1⟩
def sink : SymFlags := ⟨0x2⟩
/-- A temporary that is written once and read once. -/
def singleUsedTemp : SymFlags := ⟨0x4⟩
/-- Storage that starts out uninitialized. -/
def noInit : SymFlags := ⟨0x8⟩
def discriminant : SymFlags := ⟨0x10⟩
def canRaise : SymFlags := ⟨0x20⟩
/-- Exists only before the program runs. -/
def compileTime : SymFlags := ⟨0x40⟩
def overridden : SymFlags := ⟨0x80⟩
/-- A routine that was made up, not declared. -/
def generated : SymFlags := ⟨0x100⟩
def genericOp : SymFlags := ⟨0x200⟩
def captured : SymFlags := ⟨0x800⟩
/-- Global storage of one thread, which nobody destroys. -/
def threadVar : SymFlags := ⟨0x1000⟩

def has (f g : SymFlags) : Bool := f.bits &&& g.bits != 0

def union (f g : SymFlags) : SymFlags := ⟨f.bits ||| g.bits⟩

end SymFlags

inductive Magic where
  | none
  | wasMoved
  | default
  | new
  | eq
  | not
  | and
  | or
  | other (code : UInt8) (beyond : 8 ≤ code)
deriving DecidableEq

namespace Magic

def named : List Magic := [.none, .wasMoved, .default, .new, .eq, .not, .and, .or]

def code : Magic → UInt8
  | .none => 0
  | .wasMoved => 1
  | .default => 2
  | .new => 3
  | .eq => 4
  | .not => 5
  | .and => 6
  | .or => 7
  | .other c _ => c

def ofCode (c : UInt8) : Magic :=
  if h : 8 ≤ c then .other c h else (named[c.toNat]?).getD .none

def text : Magic → Text
  | .wasMoved => "wasMoved"
  | .default => "default"
  | .new => "new"
  | .eq => "=="
  | .not => "not"
  | .and => "and"
  | .or => "or"
  | .none | .other _ _ => ""

end Magic

structure Symbol where
  id : UInt32 := 0
  name : Text := Text.empty
  kind : SymKind := .param
  owner : Option SymRef := none
  type : TypeId := 0
  flags : SymFlags := {}
  magic : Magic := .none
  position : Int64 := 0
  span : Span := {}
deriving DecidableEq

namespace Symbol

def has (s : Symbol) (f : SymFlags) : Bool := s.flags.has f

def isLocal (s : Symbol) (routine : Option SymRef) : Bool :=
  s.owner = routine && s.kind.isStorage

end Symbol

structure Symbols where
  all : Array Symbol := #[]
  lastId : UInt32 := 0

namespace Symbols

def get (ss : Symbols) (r : SymRef) : Symbol := (ss.all[r]?).getD {}

def has (ss : Symbols) (r : Option SymRef) (f : SymFlags) : Bool :=
  match r with
  | some r => (ss.get r).has f
  | none => false

def isLocal (ss : Symbols) (r routine : Option SymRef) : Bool :=
  match r with
  | some r => (ss.get r).isLocal routine
  | none => false

def add (ss : Symbols) (s : Symbol) : SymRef × Symbols :=
  (ss.all.size, { ss with all := ss.all.push s })

def modify (ss : Symbols) (r : SymRef) (f : Symbol → Symbol) : Symbols :=
  { ss with all := ss.all.modify r f }

def setFlags (ss : Symbols) (r : SymRef) (f : SymFlags) : Symbols :=
  ss.modify r fun s => { s with flags := s.flags.union f }

/-- Adds a symbol under the next number. Numbers are words: after the largest comes zero. -/
def fresh (ss : Symbols) (s : Symbol) : SymRef × Symbols :=
  let id := ss.lastId + 1
  { ss with lastId := id }.add { s with id }

end Symbols

end Lifecycle

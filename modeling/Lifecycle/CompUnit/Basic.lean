import Lifecycle.Operators.Table
import Lifecycle.Source.FileSet
import Lifecycle.Text.Canonical
import Lifecycle.Tree.Node

/-!
# Compilation units

A unit is a set of typed routines with the tables they share: files, types, symbols and lifecycle
operators. `sites` is the first site that no node of the unit has.
-/

namespace Lifecycle

structure CompUnit where
  name : Text := Text.empty
  files : FileSet := {}
  types : TypeTable := .initial
  ops : OpState := {}
  routines : List Routine := []
  sites : Nat := 1

namespace CompUnit

def symbols (u : CompUnit) : Symbols := u.ops.symbols

def addFresh (u : CompUnit) (r : Routine) : CompUnit :=
  let (body, sites) := r.body.relabel u.sites
  { u with routines := u.routines ++ [{ r with body }], sites }

def routine? (u : CompUnit) (name : Text) : Option Routine :=
  u.routines.find? fun r => (r.name u.symbols).sameName name

end CompUnit

end Lifecycle

import Lifecycle.Text

/-!
# Kinds of types

The closed list of type kinds, each with the number a unit file writes for it. A file can also hold
numbers past the list; such a kind is kept as `other` and has no rule of its own.
-/

namespace Lifecycle

inductive TypeKind where
  | invalid
  | void
  | bool
  | int
  | float
  | char
  | nil
  | string
  | seq
  | ref
  | ptr
  | var
  | openArray
  | object
  | array
  | tuple
  | proc
  | closure
  | distinct
  | genericInst
  | genericParam
  | other (code : UInt8) (beyond : 21 ≤ code)
deriving DecidableEq

namespace TypeKind

def named : List TypeKind :=
  [.invalid, .void, .bool, .int, .float, .char, .nil, .string, .seq, .ref, .ptr, .var, .openArray,
    .object, .array, .tuple, .proc, .closure, .distinct, .genericInst, .genericParam]

def code : TypeKind → UInt8
  | .invalid => 0
  | .void => 1
  | .bool => 2
  | .int => 3
  | .float => 4
  | .char => 5
  | .nil => 6
  | .string => 7
  | .seq => 8
  | .ref => 9
  | .ptr => 10
  | .var => 11
  | .openArray => 12
  | .object => 13
  | .array => 14
  | .tuple => 15
  | .proc => 16
  | .closure => 17
  | .distinct => 18
  | .genericInst => 19
  | .genericParam => 20
  | .other c _ => c

def ofCode (c : UInt8) : TypeKind :=
  if h : 21 ≤ c then .other c h else (named[c.toNat]?).getD .invalid

def text : TypeKind → Text
  | .invalid => "invalid"
  | .void => "void"
  | .bool => "bool"
  | .int => "int"
  | .float => "float"
  | .char => "char"
  | .nil => "nil"
  | .string => "string"
  | .seq => "seq"
  | .ref => "ref"
  | .ptr => "ptr"
  | .var => "var"
  | .openArray => "openArray"
  | .object => "object"
  | .array => "array"
  | .tuple => "tuple"
  | .proc => "proc"
  | .closure => "closure"
  | .distinct => "distinct"
  | .genericInst => "generic-inst"
  | .genericParam => "generic-param"
  | .other c _ => "Kind(" ++ Text.ofNat c.toNat ++ ")"

def hasElem : TypeKind → Bool
  | .seq | .ref | .ptr | .var | .openArray | .array | .closure | .distinct | .genericInst => true
  | _ => false

def isAbstract : TypeKind → Bool
  | .distinct | .genericInst => true
  | _ => false

def ownsHeap : TypeKind → Bool
  | .seq | .string | .ref | .closure => true
  | _ => false

end TypeKind

end Lifecycle

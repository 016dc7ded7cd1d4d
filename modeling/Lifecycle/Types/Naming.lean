import Lifecycle.Types.Table

/-!
# Names of types

How a type is written in messages and listings.
-/

namespace Lifecycle

namespace TypeTable

def nominalName (t : TypeTable) (id : TypeId) : Except Fault Text :=
  match t.lookup id with
  | none => .ok ""
  | some d =>
    match d.kind with
    | .object => return (← orAbsent t.objects[d.payload.toNat]?).name
    | .distinct | .genericParam => orAbsent t.names[d.payload.toNat]?
    | .genericInst => return (← orAbsent t.insts[d.payload.toNat]?).name
    | _ => .ok ""

def textStep (t : TypeTable) (part : TypeId → Except Fault Text) (id : TypeId) :
    Except Fault Text :=
  match t.lookup id with
  | none => .ok "<no type>"
  | some d =>
    match d.kind with
    | .seq => return "seq[" ++ (← part d.elem) ++ "]"
    | .ref => return "ref " ++ (← part d.elem)
    | .ptr => return "ptr " ++ (← part d.elem)
    | .var => return "var " ++ (← part d.elem)
    | .openArray => return "openArray[" ++ (← part d.elem) ++ "]"
    | .array => return "array[" ++ Text.ofNat d.count.toNat ++ ", " ++ (← part d.elem) ++ "]"
    | .tuple => do
      let elems := (← orAbsent t.tuples[d.payload.toNat]?).items
      return "(" ++ Text.join ", " (← elems.mapM part) ++ ")"
    | .proc => do
      let info ← orAbsent t.procs[d.payload.toNat]?
      let params ← info.params.items.mapM fun p => do
        let type ← part p.type
        return if p.sink then "sink " ++ type else type
      let head := "proc (" ++ Text.join ", " params ++ ")"
      if info.result = 0 then return head else return head ++ ": " ++ (← part info.result)
    | .closure => return (← part d.elem) ++ " \x7b.closure.\x7d"
    | .object | .distinct | .genericParam => t.nominalName id
    | .genericInst => do
      let info ← orAbsent t.insts[d.payload.toNat]?
      return info.name ++ "[" ++ Text.join ", " (← info.args.items.mapM part) ++ "]"
    | k => .ok k.text

def textWithin (t : TypeTable) : Nat → TypeId → Except Fault Text
  | 0, _ => .error .endless
  | n + 1, id => t.textStep (t.textWithin n) id

def text (t : TypeTable) (id : TypeId) : Except Fault Text := t.textWithin (t.size + 1) id

end TypeTable

end Lifecycle

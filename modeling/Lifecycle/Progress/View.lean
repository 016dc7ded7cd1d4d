import Lifecycle.CompUnit.Run
import Lifecycle.Text.Terminal
import Lifecycle.Text.Width

/-!
# Progress of a run

A `ProgressView` shows the routines of a unit with what is being done to each, under a title with a
spinner and over a bar. The bar stays empty until the run is over.
-/

namespace Lifecycle

structure ProgressView where
  title : Text
  items : List (Text × Text)
  label : Text := Text.empty
  width : Int := 80
  barWidth : Int := 76
  frame : Nat := 0
  done : Bool := false

namespace ProgressView

def new (title : Text) (names : List Text) : ProgressView :=
  { title, items := names.map fun n => (n, "queued") }

def stateText? (stage : Option Stage) (status : Option Status) : Option Text :=
  match status, stage with
  | some .queued, _ => some "queued"
  | some .done, _ => some "done"
  | some .error, _ => some "error"
  | some .working, some .inject => some "rewriting"
  | some .working, some .expand => some "expanding"
  | _, _ => none

def setState (name state : Text) (items : List (Text × Text)) : List (Text × Text) :=
  (go items.reverse).reverse
where
  go : List (Text × Text) → List (Text × Text)
    | [] => []
    | (n, s) :: rest => if n = name then (n, state) :: rest else (n, s) :: go rest

def event (v : ProgressView) (routine : Text) (stage : Option Stage) (status : Option Status) :
    ProgressView :=
  match stateText? stage status with
  | none => v
  | some s => if routine.isEmpty then { v with label := s }
    else { v with items := setState routine s v.items }

def resize (v : ProgressView) (width : Int) : ProgressView :=
  if 0 < width then { v with width, barWidth := width - 4 } else v

def tick (v : ProgressView) (n : Nat) : ProgressView :=
  if v.done then v else { v with frame := v.frame + n }

def close (v : ProgressView) : ProgressView := { v with done := true }

def frames : List Text := ["⣾ ", "⣽ ", "⣻ ", "⢿ ", "⡿ ", "⣟ ", "⣯ ", "⣷ "]

def header (v : ProgressView) : Text :=
  let title := if v.label.isEmpty then v.title else v.title ++ " (" ++ v.label ++ ")"
  if v.done then "done: " ++ title
  else (frames[v.frame % frames.length]?).getD Text.empty ++ " " ++ title

def blockText (t : Text) : Text :=
  let spaced := t.toList.flatMap fun b => if b = 9 then [32, 32, 32, 32] else [b]
  match Text.split Text.newline (.ofList spaced) with
  | [line] => line
  | lines =>
    let width := lines.foldl (fun w l => max w l.terminalWidth) 0
    Text.join "\n" (lines.map fun l => l ++ Text.blanks (width - l.terminalWidth))

def bar (v : ProgressView) : Text :=
  let percent : Text := if v.done then " 100%" else "   0%"
  let cell : Text := if v.done then "█" else "░"
  Text.concat (List.replicate (v.barWidth - percent.size).toNat cell) ++ percent

def stateWidth : Nat := 12

def nameWidth (v : ProgressView) : Nat := (max (v.width - stateWidth - 4) 20).toNat

def row (v : ProgressView) (item : Text × Text) : Text :=
  "  " ++ item.2.padLeft stateWidth ++ " " ++ item.1.shorten v.nameWidth "..." ++ "\n"

def text (v : ProgressView) : Text :=
  if v.items.isEmpty then Text.empty
  else blockText v.header ++ "\n\n" ++ Text.concat (v.items.map v.row) ++ "\n" ++ v.bar ++ "\n"

end ProgressView

end Lifecycle

import Lifecycle.Text

/-!
# Paths

Slash-separated file names, compared and printed in their cleaned form: no empty or `.` segment,
and `..` only where nothing is left to step out of.
-/

namespace Lifecycle

namespace Path

def slash : UInt8 := 47

def dot : List UInt8 := [46]

def dotdot : List UInt8 := [46, 46]

def isAbsolute (p : Text) : Bool := p.toList.head? = some slash

def segments (p : Text) : List (List UInt8) :=
  (Text.pieces slash p.toList).filter fun s => !s.isEmpty && s != dot

def step (rooted : Bool) (done : List (List UInt8)) (s : List UInt8) : List (List UInt8) :=
  if s = dotdot then
    match done with
    | top :: rest => if top = dotdot then s :: done else rest
    | [] => if rooted then [] else [s]
  else s :: done

def render (rooted : Bool) (ss : List (List UInt8)) : Text :=
  let body := Text.join "/" (ss.map Text.ofList)
  if rooted then "/" ++ body
  else if ss.isEmpty then "."
  else body

def cleanSegments (p : Text) : List (List UInt8) :=
  ((segments p).foldl (step (isAbsolute p)) []).reverse

def clean (p : Text) : Text := render (isAbsolute p) (cleanSegments p)

def join (dir p : Text) : Text :=
  if dir.isEmpty then (if p.isEmpty then "" else clean p)
  else if p.isEmpty then clean dir
  else clean (dir ++ "/" ++ p)

def absolute (cwd p : Text) : Text := if isAbsolute p then clean p else join cwd p

def base (p : Text) : Text :=
  if p.isEmpty then "."
  else
    match (Text.pieces slash p.toList).reverse.find? (fun s => !s.isEmpty) with
    | some s => Text.ofList s
    | none => "/"

def parent (p : Text) : Text :=
  let ps := Text.pieces slash p.toList
  clean (Text.join "/" (ps.dropLast.map Text.ofList) ++ if ps.length > 1 then "/" else "")

def outward (p : Text) : List Text :=
  let ss := cleanSegments p
  (List.range (ss.length + 1)).reverse.map fun n => render true (ss.take n)

def dropCommon : List (List UInt8) → List (List UInt8) → List (List UInt8) × List (List UInt8)
  | a :: as, b :: bs => if a = b then dropCommon as bs else (a :: as, b :: bs)
  | as, bs => (as, bs)

/-- How to name `target` from the directory `from_`; none when only one of them is absolute, or when
`from_` climbs to a place that its text does not name. -/
def relative? (from_ target : Text) : Option Text :=
  if isAbsolute from_ != isAbsolute target then none
  else
    let (b, t) := dropCommon (cleanSegments from_) (cleanSegments target)
    if b.head? = some dotdot then none
    else some (render false (b.map (fun _ => dotdot) ++ t))

end Path

end Lifecycle

import Lifecycle.CompUnit.Codec
import Lifecycle.Json.Value
import Lifecycle.Text.Ink

/-!
# Releases

The name, the version and the build of the program, as a line and as JSON.
-/

namespace Lifecycle

structure Release where
  version : Text := "0.1.0-dev"
  commit : Text := Text.empty
  date : Text := Text.empty

namespace Release

def tool : Text := "dtorpass"

def colored (r : Release) : Text :=
  let core := r.version.toList.takeWhile (· ≠ 45)
  let suffix := r.version.toList.drop (core.length + 1)
  match Text.split 46 (.ofList core) with
  | [major, minor, patch] =>
    Text.join "." [Ink.paint true [.yellow, .bold] major, Ink.paint true [.green, .bold] minor,
      Ink.paint true [.blue, .bold] patch] ++
      if suffix.isEmpty then Text.empty else "-" ++ Text.ofList suffix
  | _ => r.version

def line (r : Release) (colors : Bool) : Text :=
  let build := [r.commit, r.date].filter (!·.isEmpty)
  tool ++ " " ++ (if colors then r.colored else r.version) ++
    if build.isEmpty then Text.empty else " (" ++ Text.join ", " build ++ ")"

def json (r : Release) : Text :=
  let more (k v : Text) : List (Text × JsonValue) :=
    if v.trim.isEmpty then [] else [(k, .str v.trim)]
  let fields : List (Text × JsonValue) := [("tool", .str tool), ("version", .str r.version.trim),
    ("unit_schema", .num schemaVersion.toNat)]
  (JsonValue.obj (fields ++ more "git_commit" r.commit ++ more "build_date" r.date)).document

end Release

end Lifecycle

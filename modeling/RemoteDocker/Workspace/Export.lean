import RemoteDocker.Base.Hex
import RemoteDocker.Base.SharePath

/-!
# Export paths and paths within a share

`src/core/workspace/export.go` and `src/core/workspace/sharepath.go`. A share is exported under an
id of sixteen hexadecimal digits, and its volume is named after the same id.
-/

namespace RemoteDocker.Workspace

open Base

def exportMountPrefix : String := "/m/"

def volumeNamePrefix : String := "rd-"

def idLen : Nat := 16

/-- `strings.CutPrefix`. -/
def cut (start s : String) : Option String :=
  if start.toList.isPrefixOf s.toList then some (String.ofList (s.toList.drop start.length))
  else none

/-- The id of an export path or of a managed volume. -/
def parseID (s : String) : Option String := do
  let id ← cut exportMountPrefix s <|> cut volumeNamePrefix s
  if id.utf8ByteSize = idLen ∧ (Hex.decodeString id).isSome then some id else none

def validExport (exportPath : String) : Bool := (parseID exportPath).isSome

/-- `ValidSharePath`, of a path by what stands between its separators. -/
def validSharePath (p : SharePath) : Bool :=
  p.all fun part ↦
    !part.toList.contains '\\' && !part.toList.contains '\x00' && part != "" && part != "." &&
      part != ".."

end RemoteDocker.Workspace

import RemoteDocker.Base.Json
import RemoteDocker.Ports.Rule

/-!
# The published ports of a container-create

`rewritePorts` (`src/client/internal/rewrite/ports.go`) lets the daemon pick each published port
and keeps the numbers that were asked for, and `label` (`src/client/internal/rewrite/rewrite.go`)
writes them on the container beside the account and the machine. Both edit a table of JSON members
and leave what they cannot read for the daemon to report.
-/

namespace RemoteDocker.Rewrite

open Base Ports

/-- A table of members, where a missing one has none. -/
def member (m : Option Members) (key : String) : Option Json := m.bind (·.lookup key)

/-- The port a binding names by number (`ports.go:91-105`). -/
def remappable (b : Option Members) : Option Nat :=
  match (member b "HostPort").bind Json.toText with
  | none => none
  | some hostPort =>
    if (Record.trimSpace hostPort.toList).isEmpty then none
    else
      match Record.atoi hostPort.toList with
      | none => none
      | some port => if port < 1 ∨ port > Tunnels.maxPort then none else some port.toNat

/-- Every port asked for by number under one container port, and the first such binding. -/
def fixedPorts (list : List (Option Members)) : List Nat × Option Members :=
  (list.filterMap remappable, (list.find? fun b ↦ (remappable b).isSome).join)

/-- `HostConfig.PortBindings`. -/
abbrev Bindings := AList fun _ : String ↦ List (Option Members)

def decodeBindings : Json → Option Bindings
  | .null => some ∅
  | .obj members =>
    (members.mapM fun m : String × Json ↦ m.2.toTables.map fun list ↦ (m.1, list)).map tableOf
  | _ => none

def encodeBindings (bindings : Bindings) : Json :=
  .obj ((Json.sorted bindings).map fun e ↦ (e.1, Json.ofTables e.2))

def requestedOf (bindings : Bindings) : RequestedPorts :=
  bindings.entries.foldl (fun r e ↦
    (fixedPorts e.2).1.foldl (fun r port ↦ RequestedPorts.add r e.1 port) r) ∅

/-- One binding for any port, in place of those with a number. -/
def remap (list : List (Option Members)) : List (Option Members) :=
  let (fixed, keep) := fixedPorts list
  if fixed.isEmpty then list else [some ((keep.getD ∅).insert "HostPort" (.str ""))]

/-- What this machine cannot open, of the ports carried over TCP. -/
def portTaken (localPortFree : Option (Nat → Option String)) (bindings : Bindings) :
    Option String :=
  match localPortFree with
  | none => none
  | some localPortFree =>
    bindings.entries.findSome? fun e ↦
      if isTCP (protoOf e.1) then
        (fixedPorts e.2).1.findSome? fun port ↦ (localPortFree port).map fun err ↦
          s!"bind for 127.0.0.1:{port} failed: port is already allocated: {err}"
      else none

/-- The host config with the daemon to pick the ports, the numbers that were asked for, and whether
anything was changed (`ports.go:19-68`). -/
def rewritePorts (localPortFree : Option (Nat → Option String)) (hostConfig : Members) :
    Except String (Members × RequestedPorts × Bool) :=
  match hostConfig.lookup "PortBindings" with
  | none | some .null => .ok (hostConfig, ∅, false)
  | some raw =>
    match decodeBindings raw with
    | none => .ok (hostConfig, ∅, false)
    | some bindings =>
      match portTaken localPortFree bindings with
      | some err => .error err
      | none =>
        let requested := requestedOf bindings
        if requested.keys.isEmpty then .ok (hostConfig, ∅, false)
        else
          .ok (hostConfig.insert "PortBindings"
            (encodeBindings (mapTable (fun _ ↦ remap) bindings)),
            requested, true)

def ownerLabels (owner client : String) : AList fun _ : String ↦ String :=
  let labels : AList fun _ : String ↦ String :=
    if owner ≠ "" then (∅ : AList fun _ : String ↦ String).insert ownerLabel owner else ∅
  if client ≠ "" then labels.insert clientLabel client else labels

def wantLabels (owner client : String) (requested : RequestedPorts) :
    AList fun _ : String ↦ String :=
  if requested.string ≠ "" then (ownerLabels owner client).insert portsLabel requested.string
  else ownerLabels owner client

/-- The caller's labels with those of `want`. -/
def setLabels (labels want : AList fun _ : String ↦ String) : AList fun _ : String ↦ String :=
  want ∪ labels

/-- The payload with the labels, and whether anything was changed (`rewrite.go:309-347`). -/
def label (owner client : String) (payload : Members) (requested : RequestedPorts) :
    Members × Bool :=
  let want := wantLabels owner client requested
  if want.keys.isEmpty then (payload, false)
  else
    match ((payload.lookup "Labels").getD .null).toTextMap with
    -- Left alone; the daemon reports anything malformed.
    | none => (payload, false)
    | some labels =>
      if want.entries.any fun e ↦ (labels.lookup e.1).getD "" ≠ e.2 then
        (payload.insert "Labels" (Json.ofTextMap (setLabels labels want)), true)
      else (payload, false)

end RemoteDocker.Rewrite

import Mathlib.Data.String.Basic
import RemoteDocker.Tunnels.Allocator

/-!
# Published ports and what is opened for them

A container's published port is opened on this machine, under the number that was asked for. What
was asked for is written on the container as a label (`src/core/workspace/ports.go`), and `Rule`
(`src/client/internal/ports/rule.go`) reads it back: which containers are this session's, and on
which local numbers each of their published ports is opened.
-/

namespace RemoteDocker.Ports

open Base

/-- The numbers asked for, by container port. -/
abbrev RequestedPorts := AList fun _ : String ↦ List Nat

/-- `strings.ToLower`, of a protocol's letters. -/
def toLower (text : String) : String := String.ofList (text.toList.map Char.toLower)

def containerPort (port : Nat) (proto : String) : String :=
  String.ofList (Record.itoa port) ++ "/" ++ toLower (if proto = "" then "tcp" else proto)

/-- No letter but the ASCII ones folds to one of these three. -/
def isTCP (proto : String) : Bool := proto = "" || toLower proto = "tcp"

/-- What stands before the first `sep`, and after it if there is one. -/
def cut (sep : Char) (text : List Char) : List Char × Option (List Char) :=
  (text.takeWhile (· ≠ sep),
    match text.dropWhile (· ≠ sep) with
    | [] => none
    | _ :: after => some after)

def protoOf (containerPort : String) : String :=
  String.ofList ((cut '/' containerPort.toList).2.getD [])

def RequestedPorts.at (r : RequestedPorts) (containerPort : String) : List Nat :=
  (r.lookup containerPort).getD []

def RequestedPorts.add (r : RequestedPorts) (containerPort : String) (port : Nat) :
    RequestedPorts :=
  r.insert containerPort (r.at containerPort ++ [port])

def RequestedPorts.part (r : RequestedPorts) (containerPort : String) : String :=
  let numbers := ((r.at containerPort).insertionSort (· ≤ ·)).map fun port : Nat ↦
    String.ofList (Record.itoa port)
  containerPort ++ "=" ++ Record.joinFields ';' numbers

def RequestedPorts.string (r : RequestedPorts) : String :=
  if r.keys.isEmpty then ""
  else Record.joinFields ',' ((r.keys.insertionSort (· ≤ ·)).map r.part)

def maxRequestedPorts : Nat := 1024

/-- One number of a label, after `count` others. -/
def parseNumber (key : String) (out : RequestedPorts × Nat) (number : List Char) :
    RequestedPorts × Nat :=
  if out.2 ≥ maxRequestedPorts then out
  else
    match Record.atoi (Record.trimSpace number) with
    | none => out
    | some port =>
      if port < 1 ∨ port > Tunnels.maxPort then out
      else (out.1.add key port.toNat, out.2 + 1)

/-- One entry of a label. What cannot be read is skipped. -/
def parseEntry (out : RequestedPorts × Nat) (entry : List Char) : RequestedPorts × Nat :=
  match cut '=' (Record.trimSpace entry) with
  | (_, none) => out
  | (key, some value) =>
    (value.splitOn ';').foldl (parseNumber (String.ofList (Record.trimSpace key))) out

def parseRequestedPorts (label : String) : RequestedPorts :=
  ((label.toList.splitOn ',').foldl parseEntry (∅, 0)).1

/-- One published port; a `publicPort` of 0 is not published. -/
structure Published where
  publicPort : Nat
  privatePort : Nat
  type : String
  deriving DecidableEq, Repr

inductive Network where
  | tcp
  | udp
  deriving DecidableEq, Repr

def Network.string : Network → String
  | .tcp => "tcp"
  | .udp => "udp"

def Published.network (p : Published) : Network := if isTCP p.type then .tcp else .udp

structure Container where
  id : String
  name : String
  ports : List Published
  labels : AList fun _ : String ↦ String
  deriving DecidableEq

def Container.label (c : Container) (key : String) : String := (c.labels.lookup key).getD ""

/-- The first of the ports for each protocol and number. -/
def firsts (seen : List (Network × Nat)) : List Published → List Published
  | [] => []
  | p :: rest =>
    if p.publicPort = 0 then firsts seen rest
    else if (p.network, p.publicPort) ∈ seen then firsts seen rest
    else p :: firsts ((p.network, p.publicPort) :: seen) rest

/-- The order `published` lists ports in. -/
def Published.before (p q : Published) : Bool :=
  if p.publicPort ≠ q.publicPort then p.publicPort < q.publicPort
  else p.network.string ≤ q.network.string

/-- A container's published ports, once for each protocol and number. -/
def published (c : Container) : List Published :=
  (firsts [] c.ports).insertionSort fun p q ↦ p.before q

private theorem mem_of_mem_firsts {p : Published} {ps : List Published}
    {seen : List (Network × Nat)}
    (h : p ∈ firsts seen ps) : p ∈ ps ∧ p.publicPort ≠ 0 := by
  induction ps generalizing seen with
  | nil => cases h
  | cons q rest ih =>
    rw [firsts] at h
    split_ifs at h with hzero hseen
    · exact ⟨.tail _ (ih h).1, (ih h).2⟩
    · exact ⟨.tail _ (ih h).1, (ih h).2⟩
    · rcases List.mem_cons.mp h with rfl | hrest
      · exact ⟨(.head _), hzero⟩
      · exact ⟨.tail _ (ih hrest).1, (ih hrest).2⟩

theorem mem_ports_of_mem_published {c : Container} {p : Published} (h : p ∈ published c) :
    p ∈ c.ports ∧ p.publicPort ≠ 0 :=
  mem_of_mem_firsts ((List.mem_insertionSort _).mp h)

def ownerLabel : String := "com.github.lhns.remote-docker.owner"

def clientLabel : String := "com.github.lhns.remote-docker.client"

def portsLabel : String := "com.github.lhns.remote-docker.ports"

structure Rule where
  user : String
  clientID : String
  deriving DecidableEq, Repr

def Rule.owned (r : Rule) (c : Container) : Bool := c.label ownerLabel = r.user

def Rule.localPorts (r : Rule) (c : Container) (p : Published) : List Nat :=
  if c.label clientLabel ≠ r.clientID then []
  else (parseRequestedPorts (c.label portsLabel)).at (containerPort p.privatePort p.type)

/-- With no request a published port is its own. -/
def orPublished (asked : List Nat) (p : Published) : List Nat :=
  if asked.isEmpty then [p.publicPort] else asked

end RemoteDocker.Ports

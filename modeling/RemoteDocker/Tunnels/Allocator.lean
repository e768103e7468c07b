import Mathlib.Data.List.Sort
import RemoteDocker.Base.Machine
import RemoteDocker.Base.Record
import RemoteDocker.Base.Table

/-!
# Which port serves which machine

An account's uid decides its first port (`src/core/workspace/mapping.go`); further machines of
it, and the runs of an ephemeral account, are given one by the agent, which remembers it against
the client (`src/core-agent/accounts/ports.go`). A machine's port is on record, and a run's is
not: after a restart the agent knows the machines again and the runs no more.

A call asks what the client's volumes expect with no lock held, so `For` and `ForRun` are two
steps here, with anything in between. Every other call is one hold of the lock. The record is its
lines; a save that fails is not modelled.
-/

namespace RemoteDocker.Tunnels

open Base

def maxPort : Int := 65535

structure Mapping where
  uidBase : Int
  portBase : Int
  deriving DecidableEq, Repr

def Mapping.validate (m : Mapping) : Except String Unit :=
  if m.uidBase < 0 then
    .error ("workspace: uid base " ++ toString m.uidBase ++ " is negative")
  else if m.portBase < 1 ∨ m.portBase > maxPort then
    .error ("workspace: port base " ++ toString m.portBase ++ " is not a valid port")
  else .ok ()

def Mapping.portForUID (m : Mapping) (uid : Int) : Except String Int :=
  match m.validate with
  | .error e => .error e
  | .ok () =>
    if uid < m.uidBase then
      .error ("workspace: uid " ++ toString uid ++ " is below the workspace uid base " ++
        toString m.uidBase)
    else
      let port := m.portBase + uid - m.uidBase
      if port > maxPort then
        .error ("workspace: uid " ++ toString uid ++ " maps to port " ++ toString port ++
          ", above the maximum " ++ toString maxPort)
      else .ok port

def Mapping.uidForPort (m : Mapping) (port : Int) : Except String Int :=
  match m.validate with
  | .error e => .error e
  | .ok () =>
    if port < m.portBase ∨ port > maxPort then
      .error ("workspace: port " ++ toString port ++ " is outside the workspace range " ++
        toString m.portBase ++ "-" ++ toString maxPort)
    else .ok (m.uidBase + port - m.portBase)

/-- The characters of an account's name (`AccountName`) and of a client's id (`ClientID`). -/
def plain (c : Char) : Bool := ('a' ≤ c && c ≤ 'z') || c.isDigit || c == '_' || c == '-'

structure Name where
  text : String
  plain : text.toList.all plain = true
  deriving DecidableEq

structure Assignment where
  account : String
  client : String
  deriving DecidableEq, Repr

def assignmentOf (account client : Name) : Assignment := ⟨account.text, client.text⟩

/-- `entry`. A run's is ephemeral. -/
structure Entry where
  port : Int
  ephemeral : Bool := false
  token : Nat := 0
  deriving DecidableEq, Repr

abbrev Assigned := AList fun _ : Assignment ↦ Entry

/-- What `ReadRecord` hands on of a line: not a blank one, and not a comment. -/
def recordLine (line : String) : Option String :=
  match Record.trimSpace line.toList with
  | [] => none
  | '#' :: _ => none
  | text => some (String.ofList text)

def lineOf (k : Assignment) (port : Int) : String :=
  Record.joinFields ':' [k.account, k.client, String.ofList (Record.itoa port)]

/-- What `load` makes of a line. -/
def parseLine (line : String) : Option (Assignment × Entry) :=
  match Record.splitFields ':' line with
  | [account, client, port] =>
    match Record.atoi port.toList with
    | none => none
    | some port =>
      if port < 1 ∨ port > maxPort then none else some (⟨account, client⟩, { port })
  | _ => none

/-- The lines `save` writes, sorted. -/
def saveLines (assigned : Assigned) : List String :=
  (assigned.entries.filterMap fun e ↦
    if e.2.ephemeral then none else some (lineOf e.1 e.2.port)).insertionSort (· ≤ ·)

def readLines (record : List String) : Assigned :=
  tableOf (record.filterMap fun line ↦ (recordLine line).bind parseLine)

/-- `Ports`, and the record beside it. -/
structure Ports where
  loaded : Bool := false
  assigned : Assigned := ∅
  next : Nat := 0
  record : List String := []

/-- How a call of `For` or `ForRun` goes on: it fails, it was answered from what is assigned, or
it asks what the client's volumes expect, with the port the account derives, if any. -/
inductive Begun where
  | failed (msg : String)
  | known (e : Entry)
  | ask (base : Int)
  deriving DecidableEq, Repr

namespace Ports

variable (m : Mapping) (reserved : Int → Bool) (p : Ports)

/-- `load`. `unreadable` is the error of a read that fails, of which nothing is kept. -/
def load (unreadable : Option String) : Except String Ports :=
  if p.loaded then .ok p
  else
    match unreadable with
    | some e => .error ("accounts: reading clientports: " ++ e)
    | none => .ok { p with loaded := true, assigned := readLines p.record }

def save : Ports := { p with record := saveLines p.assigned }

def taken (port : Int) : Bool := p.assigned.entries.any fun e ↦ e.2.port == port

def derived (port : Int) : Bool :=
  match m.uidForPort port with
  | .error _ => false
  | .ok uid => reserved uid

/-- The port may be handed to somebody who does not derive it. -/
def free (port : Int) : Bool :=
  if port < m.portBase ∨ port > maxPort then false else !derived m reserved port

def allocateFrom (port : Int) : Nat → Int
  | 0 => 0
  | n + 1 =>
    if p.taken port || derived m reserved port then allocateFrom (port - 1) n else port

/-- `allocate`; 0 is that no port is left. -/
def allocate : Int := p.allocateFrom m reserved maxPort (maxPort + 1 - m.portBase).toNat

def choose (base want : Int) (ephemeral : Bool) : Int :=
  let port := if want ≠ 0 ∧ !p.taken want ∧ free m reserved want then want else 0
  let port := if port = 0 ∧ !ephemeral ∧ !p.taken base then base else port
  if port = 0 then p.allocate m reserved else port

def assign (k : Assignment) (port : Int) (ephemeral : Bool) : Ports × Entry :=
  let e : Entry := { port, ephemeral, token := p.next + 1 }
  ({ p with next := p.next + 1, assigned := p.assigned.insert k e }, e)

def decide (k : Assignment) (base want : Int) (ephemeral : Bool) (unreadable : Option String) :
    Ports × Except String Entry :=
  match p.load unreadable with
  | .error e => (p, .error e)
  | .ok p =>
    match p.assigned.lookup k with
    | some e => (p, .ok e)
    | none =>
      let port := p.choose m reserved base want ephemeral
      if port = 0 then
        (p, .error ("accounts: no free reverse-tunnel port left for " ++ k.account))
      else
        let (p, e) := p.assign k port ephemeral
        (if ephemeral then p else p.save, .ok e)

def entry (k : Assignment) (unreadable : Option String) : Ports × Except String (Option Entry) :=
  match p.load unreadable with
  | .error e => (p, .error e)
  | .ok p => (p, .ok (p.assigned.lookup k))

def begun (base : Int) : Except String (Option Entry) → Begun
  | .error e => .failed e
  | .ok (some e) => .known e
  | .ok none => .ask base

/-- `For`, up to what it asks. A client without a name is told the account's derived port. -/
def forBegin (account : Name) (uid : Int) (client : Name) (unreadable : Option String) :
    Ports × Begun :=
  match m.portForUID uid with
  | .error e => (p, .failed e)
  | .ok base =>
    if client.text = "" then (p, .known { port := base })
    else
      let (p, known) := p.entry (assignmentOf account client) unreadable
      (p, begun base known)

/-- `ForRun`, up to what it asks. -/
def forRunBegin (account client : Name) (unreadable : Option String) : Ports × Begun :=
  let (p, known) := p.entry (assignmentOf account client) unreadable
  (p, begun 0 known)

def callBegin (account : Name) (uid : Int) (client : Name) (run : Bool)
    (unreadable : Option String) : Ports × Begun :=
  if run then p.forRunBegin account client unreadable
  else p.forBegin m account uid client unreadable

def hold (k : Assignment) (port : Int) (unreadable : Option String) : Ports × Option Nat :=
  match p.load unreadable with
  | .error _ => (p, none)
  | .ok p =>
    match p.assigned.lookup k with
    | some e => (p, if e.ephemeral ∧ e.port = port then some e.token else none)
    | none =>
      if p.taken port ∨ !free m reserved port then (p, none)
      else
        let (p, e) := p.assign k port true
        (p, some e.token)

/-- `Free`. -/
def release (k : Assignment) (token : Nat) : Ports × Bool :=
  match p.assigned.lookup k with
  | some e =>
    if e.ephemeral ∧ token ≠ 0 ∧ e.token = token then
      ({ p with assigned := p.assigned.erase k }, true)
    else (p, false)
  | none => (p, false)

def knows (account : String) : Bool :=
  p.assigned.entries.any fun e ↦ e.1.account == account && !e.2.ephemeral

def forget (account : String) (unreadable : Option String) : Ports × Option String :=
  match p.load unreadable with
  | .error e => (p, some e)
  | .ok p =>
    if p.knows account then
      let kept : Assigned :=
        { entries := p.assigned.entries.filter fun e ↦ !(e.1.account == account && !e.2.ephemeral)
          nodupKeys := p.assigned.nodupKeys.sublist List.filter_sublist }
      ({ p with assigned := kept }.save, none)
    else (p, none)

def owns (account : String) (uid port : Int) (unreadable : Option String) : Bool :=
  match p.load unreadable with
  | .error _ => false
  | .ok p =>
    match p.assigned.entries.find? fun e ↦ e.2.port == port with
    | some e => e.1.account == account
    | none =>
      match m.portForUID uid with
      | .error _ => false
      | .ok base => port == base

def restart : Ports := { record := p.record }

end Ports

/-- A call of `For`, or of `ForRun`, that asks what the client's volumes expect. -/
structure Call where
  account : Name
  client : Name
  run : Bool
  base : Int
  deriving DecidableEq

structure Allocation where
  key : Assignment
  port : Int
  accounts : AList fun _ : String ↦ Int

structure State where
  ports : Ports := {}
  accounts : AList fun _ : String ↦ Int := ∅
  calls : AList fun _ : Nat ↦ Call := ∅
  allocations : List Allocation := []

/-- What can happen. An account comes to be under a uid of its own; `n` numbers a call. -/
inductive Event where
  | enrol (account : Name) (uid : Int)
  | begin (n : Nat) (account client : Name) (run : Bool) (unreadable : Option String)
  | answer (n : Nat) (want : Except String Int) (unreadable : Option String)
  | hold (account client : Name) (port : Int) (unreadable : Option String)
  | free (account client : Name) (token : Nat)
  | forget (account : Name) (unreadable : Option String)
  | restart

def Event.forgotten : Event → Option String
  | .forget account _ => some account.text
  | _ => none

/-- A port that `For` or `ForRun` returned, and to whom. -/
structure Told where
  account : Name
  uid : Int
  client : Name
  port : Int
  deriving DecidableEq

namespace State

variable (m : Mapping) (s : State)

def reserved (uid : Int) : Bool := s.accounts.entries.any fun a ↦ a.2 == uid

def withPorts (key : Assignment) (ports : Ports) (port : Int) : State :=
  { s with
    ports
    allocations :=
      if s.ports.next < ports.next then ⟨key, port, s.accounts⟩ :: s.allocations
      else s.allocations }

def begin (n : Nat) (account client : Name) (run : Bool) (unreadable : Option String) :
    Option (State × Option (Except String Told)) :=
  match s.accounts.lookup account.text with
  | none => none
  | some uid =>
    if n ∈ s.calls then none
    else
      match s.ports.callBegin m account uid client run unreadable with
      | (ports, .failed e) => some ({ s with ports }, some (.error e))
      | (ports, .known e) =>
        some ({ s with ports }, some (.ok ⟨account, uid, client, e.port⟩))
      | (ports, .ask base) =>
        some ({ s with ports, calls := s.calls.insert n ⟨account, client, run, base⟩ }, none)

def answer (n : Nat) (want : Except String Int) (unreadable : Option String) :
    Option (State × Option (Except String Told)) :=
  match s.calls.lookup n with
  | none => none
  | some c =>
    match s.accounts.lookup c.account.text with
    | none => none
    | some uid =>
      let s := { s with calls := s.calls.erase n }
      match want with
      | .error e =>
        some (s, some (.error
          ("accounts: cannot tell which port " ++ c.account.text ++ " needs: " ++ e)))
      | .ok want =>
        let key := assignmentOf c.account c.client
        match s.ports.decide m s.reserved key c.base want c.run unreadable with
        | (ports, .error e) => some ({ s with ports }, some (.error e))
        | (ports, .ok e) =>
          some (s.withPorts key ports e.port, some (.ok ⟨c.account, uid, c.client, e.port⟩))

def act : Event → Option (State × Option (Except String Told))
  | .enrol account uid =>
    if account.text ∈ s.accounts ∨ s.reserved uid then none
    else some ({ s with accounts := s.accounts.insert account.text uid }, none)
  | .begin n account client run unreadable => s.begin m n account client run unreadable
  | .answer n want unreadable => s.answer m n want unreadable
  | .hold account client port unreadable =>
    let key := assignmentOf account client
    some (s.withPorts key (s.ports.hold m s.reserved key port unreadable).1 port, none)
  | .free account client token =>
    some ({ s with ports := (s.ports.release (assignmentOf account client) token).1 }, none)
  | .forget account unreadable =>
    some ({ s with ports := (s.ports.forget account.text unreadable).1 }, none)
  | .restart => some ({ s with ports := s.ports.restart, calls := ∅ }, none)

end State

def machine (m : Mapping) : Machine State Event where
  step s e := (s.act m e).map (·.1)

end RemoteDocker.Tunnels

import Mathlib.Data.List.Sort
import RemoteDocker.Base.Machine
import RemoteDocker.Base.NameLocks
import RemoteDocker.Enrol.KeyFile

/-!
# The machine service

A service makes and keeps virtual machines for the users of one computer
(`src/machine/broker_server.go`, `broker_records.go`, `broker.go`). A request names a machine; whose
it is stands in a file, machine by machine, which survives the service. All that is done to one
machine, from the look at its owner to the change of its record, is under the lock of its name.

A request goes through the phases of `Phase`, one for each place where others may come in between:
every wait for a lock, use of the file and call of Hyper-V is a step, and a call lasts from the step
that enters its phase to the one that leaves it. How calls end is an input, with the service's own
assumptions: a look says whether the machine is there, a create makes the machine it was asked for
and no other, and a destroy that succeeds leaves no machine. A machine may go at any time. A crash
ends every request and forgets every lock.
-/

namespace RemoteDocker.Broker

open Base Enrol

inductive Code where
  | notAllowed
  | notYours
  | taken
  | invalid
  | failed
  deriving DecidableEq, Repr

/-- What a look finds, `machine.State`. -/
inductive Found where
  | absent
  | stopped
  | running
  deriving DecidableEq, Repr

def Found.text : Found → String
  | .absent => "absent"
  | .stopped => "stopped"
  | .running => "running"

/-- `BrokerNotes`. -/
structure Notes where
  generation : String
  key : String
  deriving DecidableEq, Repr

/-- `BrokerResponse`. -/
structure Response where
  ok : Bool := false
  code : Option Code := none
  error : String := ""
  state : String := ""
  notes : Option Notes := none
  address : String := ""
  purged : List String := []
  deriving DecidableEq, Repr

def refusal (code : Code) (msg : String) : Response := { code := some code, error := msg }

def failure (err : String) : Response := refusal .failed err

inductive Op where
  | available
  | look
  | create
  | start
  | stop
  | address
  | retract
  | destroy
  | purge
  | unknown (op : String)
  deriving DecidableEq, Repr

/-- `BrokerCreate`. -/
structure Settings where
  publicKey : String
  hostKey : String := ""
  account : String
  port : Int
  cpus : Int := 0
  memoryMB : Int := 0
  image : String
  proxy : String := ""
  deriving DecidableEq, Repr

/-- `BrokerRequest`. -/
structure Request where
  op : Op
  name : String := ""
  create : Option Settings := none
  deriving DecidableEq, Repr

/-- `brokerCaller`. -/
structure Caller where
  sid : String
  admin : Bool := false
  deriving DecidableEq, Repr

/-- What the model leaves open: Unicode folding of a character, the quoting of texts, and what
`ParseProxy` says against a proxy. -/
structure Config where
  fold : Char → Char
  quote : String → String
  parseProxy : String → Option String

def Config.equalFold (cfg : Config) (a b : String) : Bool :=
  a.toList.map cfg.fold == b.toList.map cfg.fold

def isLower (c : Char) : Bool := 'a' ≤ c && c ≤ 'z'

def isUpper (c : Char) : Bool := 'A' ≤ c && c ≤ 'Z'

def isDigit (c : Char) : Bool := '0' ≤ c && c ≤ '9'

def shaped (first rest : Char → Bool) (more : Nat) (text : String) : Bool :=
  match text.toList with
  | [] => false
  | c :: cs => first c && cs.all rest && cs.length ≤ more

/-- `brokerNameRE`. -/
def nameShaped : String → Bool :=
  shaped (fun c ↦ isLower c || isDigit c) (fun c ↦ isLower c || isDigit c || c == '-') 62

/-- `brokerAccountRE`. -/
def accountShaped : String → Bool :=
  shaped (fun c ↦ isLower c || c == '_')
    (fun c ↦ isLower c || isDigit c || c == '_' || c == '-') 29

/-- `brokerImageRE`. -/
def imageShaped : String → Bool :=
  shaped (fun c ↦ isUpper c || isLower c || isDigit c)
    (fun c ↦ isUpper c || isLower c || isDigit c || "._/:@-".toList.contains c) 254

def reservedDeviceName (name : String) : Bool :=
  name == "con" || name == "prn" || name == "aux" || name == "nul" ||
    match name.toList with
    | [a, b, c, d] => ([a, b, c] == "com".toList || [a, b, c] == "lpt".toList) && '1' ≤ d && d ≤ '9'
    | _ => false

/-- What `validBrokerName` says against a name. -/
def validBrokerName (cfg : Config) (name : String) : Option String :=
  if !nameShaped name || reservedDeviceName name then
    some (cfg.quote name ++ " is not a valid machine name: lower-case letters, digits and " ++
      "hyphens, starting with a letter or digit, at most 63 characters")
  else none

/-- What `BrokerCreate.validate` says against the settings. -/
def Settings.validate (cfg : Config) (c : Settings) : Option String :=
  let key := String.ofList (Record.trimSpace c.publicKey.toList)
  if !accountShaped c.account then some "account is not a valid unix account name"
  else if !imageShaped c.image then some "image is not a valid image reference"
  else if c.port < 1 ∨ c.port > 65535 then some "port is out of range"
  else if c.cpus < 0 ∨ c.cpus > 256 then some "cpus is out of range"
  else if c.memoryMB < 0 ∨ c.memoryMB > 1048576 then some "memory is out of range"
  else if key.utf8ByteSize > 4096 ∨
      key.toList.any (fun x ↦ x == '\r' || x == '\n' || x == Char.ofNat 0) ∨
      (Record.spaced key).length < 2 then
    some "public key is not a single authorized_keys line"
  else if c.hostKey ≠ "" ∧
      (c.hostKey.utf8ByteSize > 16384 ∨ !"-----BEGIN ".toList.isPrefixOf c.hostKey.toList) then
    some "host key is not a PEM private key"
  else if c.proxy ≠ "" then cfg.parseProxy c.proxy
  else none

/-- What `handle` and `create` refuse before they take the lock. -/
def Request.refused (cfg : Config) (req : Request) : Option Response :=
  match validBrokerName cfg req.name with
  | some msg => some (refusal .invalid msg)
  | none =>
    match req.op, req.create with
    | .create, none => some (refusal .invalid "create needs settings")
    | .create, some c => (c.validate cfg).map (refusal .invalid)
    | _, some _ => some (refusal .invalid "only create takes create settings")
    | _, none => none

def msgTakenByOther : String :=
  "the workspace name is taken by another user of this computer\n" ++
    "  fix: choose another workspace name"

def msgTakenUnmanaged : String :=
  "the workspace name is taken by a machine this service does not manage\n" ++
    "  fix: choose another workspace name"

/-- `brokerRecord`. -/
structure Record where
  owner : String
  created : String
  deriving DecidableEq, Repr

/-- machines.json. -/
abbrev Records := AList fun _ : String ↦ Record

/-- A machine in Hyper-V, with the SID the service built it for, if it did. -/
structure VM where
  builtFor : Option String
  deriving DecidableEq, Repr

def removeIf (cfg : Config) (records : Records) (name owner : String) : Records :=
  match records.lookup name with
  | some rec => if cfg.equalFold rec.owner owner then records.erase name else records
  | none => records

/-- `purgeAll` between two of its turns. -/
structure Purge where
  recs : Records
  todo : List String
  done : List String := []
  errs : List String := []

/-- Where a request is. In `performing` the call of Hyper-V its operation stands for is under way,
in `creating`, `clearing` and `purgeDestroying` the create and the destroys are. -/
inductive Phase where
  | checking
  | locking
  | reading
  | looking
  | performing
  | forgetting
  | recording
  | fetching
  | creating
  | clearing (buildErr : String)
  | unrecording (buildErr : String)
  | unlocking (reply : Response)
  | releasing (reply : Response)
  | done (reply : Response)
  | listing
  | purging (p : Purge)
  | purgeLocking (p : Purge) (name : String)
  | purgeDestroying (p : Purge) (name : String)
  | purgeRemoving (p : Purge) (name : String)
  | purgeUnlocking (p : Purge) (name : String)
  | purgeReleasing (p : Purge)

structure Task where
  caller : Caller
  req : Request
  phase : Phase

def Task.waits (q : Task) : Option String :=
  match q.phase with
  | .locking => some q.req.name
  | .purgeLocking _ name => some name
  | _ => none

def Task.held (q : Task) : Option String :=
  match q.phase with
  | .reading | .looking | .performing | .forgetting | .recording | .fetching | .creating
  | .clearing _ | .unrecording _ | .unlocking _ => some q.req.name
  | .purgeDestroying _ name | .purgeRemoving _ name | .purgeUnlocking _ name => some name
  | _ => none

structure State where
  records : Records
  machines : AList fun _ : String ↦ VM
  locks : NameLocks String := {}
  tasks : AList fun _ : Nat ↦ Task := ∅

inductive Event where
  | request (r : Nat) (caller : Caller) (req : Request)
  | take (r : Nat)
  | giveUp (r : Nat) (why : String)
  | load (r : Nat) (err : Option String)
  | look (r : Nat) (res : Except String (Found × Notes))
  | put (r : Nat) (created : String) (err : Option String)
  | fetch (r : Nat) (err : Option String)
  | appear (r : Nat)
  | vanish (name : String)
  | returned (r : Nat) (err : Option String) (addr : String)
  | remove (r : Nat) (err : Option String)
  | unlock (r : Nat)
  | release (r : Nat)
  | next (r : Nat)
  | crash

namespace State

variable (cfg : Config) (s : State)

def goto (r : Nat) (q : Task) (phase : Phase) : State :=
  { s with tasks := s.tasks.insert r { q with phase } }

/-- The first half of `nameLocks.lock`. -/
def lock (r : Nat) (q : Task) (name : String) (phase : Phase) : Option State :=
  (s.locks.enter r name).map fun locks ↦ { s.goto r q phase with locks }

/-- `handle`, up to the lock. -/
def request (r : Nat) (caller : Caller) (req : Request) : Option State :=
  if r ∈ s.tasks then none
  else
    let q : Task := { caller, req, phase := .checking }
    match req.op with
    | .available => some (s.goto r q .checking)
    | .purge =>
      if caller.admin then some (s.goto r q .listing)
      else some (s.goto r q (.done (refusal .notAllowed "purge needs an administrator")))
    | .unknown op =>
      some (s.goto r q (.done (refusal .invalid ("unknown operation " ++ cfg.quote op))))
    | _ =>
      match req.refused cfg with
      | some reply => some (s.goto r q (.done reply))
      | none => s.lock r q req.name .locking

def take (r : Nat) (q : Task) : Option State :=
  match q.phase with
  | .locking => (s.locks.take r).map fun locks ↦ { s.goto r q .reading with locks }
  | .purgeLocking p name =>
    (s.locks.take r).map fun locks ↦ { s.goto r q (.purgeDestroying p name) with locks }
  | _ => none

def giveUp (r : Nat) (q : Task) (why : String) : Option State :=
  let err (name : String) : String :=
    "another operation on " ++ cfg.quote name ++ " did not finish in time: " ++ why
  match q.phase with
  | .locking =>
    (s.locks.giveUp r).map fun locks ↦
      { s.goto r q (.releasing (failure (err q.req.name))) with locks }
  | .purgeLocking p name =>
    (s.locks.giveUp r).map fun locks ↦
      { s.goto r q (.purgeReleasing { p with errs := p.errs ++ [err name] }) with locks }
  | _ => none

/-- `access` and `create` once the records are read. -/
def owned (q : Task) : Phase :=
  match s.records.lookup q.req.name with
  | some rec =>
    if q.req.op = .create then
      if cfg.equalFold rec.owner q.caller.sid then
        .unlocking (refusal .taken ("the workspace name is already recorded for you\n" ++
          "  fix: `remote rm " ++ q.req.name ++ "` clears it"))
      else .unlocking (refusal .taken msgTakenByOther)
    else if cfg.equalFold rec.owner q.caller.sid then .performing
    else .unlocking (refusal .notYours msgTakenByOther)
  | none => .looking

/-- `loadRecords`. -/
def load (r : Nat) (q : Task) (err : Option String) : Option State :=
  match q.phase, err with
  | .reading, some e => some (s.goto r q (.unlocking (failure e)))
  | .reading, none => some (s.goto r q (s.owned cfg q))
  | .listing, some e => some (s.goto r q (.done (failure e)))
  | .listing, none =>
    some (s.goto r q
      (.purging { recs := s.records, todo := s.records.keys.insertionSort (· ≤ ·) }))
  | _, _ => none

/-- `access` and `create` once they have looked for a machine nobody is recorded for. -/
def unowned (q : Task) (found : Found) : Phase :=
  if q.req.op = .create then
    if found = .absent then .recording else .unlocking (refusal .taken msgTakenUnmanaged)
  else if found = .absent then
    match q.req.op with
    | .look => .unlocking { ok := true, state := Found.absent.text }
    | .destroy => .unlocking { ok := true }
    | _ => .unlocking (refusal .failed ("no such machine " ++ q.req.name))
  else .unlocking (refusal .notYours msgTakenUnmanaged)

/-- What a look finds is there. -/
def truthful (name : String) (found : Found) : Bool :=
  decide (found = .absent) == (s.machines.lookup name).isNone

def look (r : Nat) (q : Task) (res : Except String (Found × Notes)) : Option State :=
  match q.phase, res with
  | .looking, .error e => some (s.goto r q (.unlocking (failure e)))
  | .looking, .ok (found, _) =>
    if s.truthful q.req.name found then some (s.goto r q (unowned q found)) else none
  | .performing, .error e =>
    if q.req.op = .look then some (s.goto r q (.unlocking (failure e))) else none
  | .performing, .ok (found, notes) =>
    if q.req.op = .look ∧ s.truthful q.req.name found then
      some (s.goto r q (.unlocking { ok := true, state := found.text, notes := some notes }))
    else none
  | _, _ => none

/-- `putRecord`. -/
def put (r : Nat) (q : Task) (created : String) (err : Option String) : Option State :=
  match q.phase, err with
  | .recording, some e => some (s.goto r q (.unlocking (failure e)))
  | .recording, none =>
    some { s.goto r q .fetching with
      records := s.records.insert q.req.name ⟨q.caller.sid, created⟩ }
  | _, _ => none

/-- `fetchDisk`. -/
def fetch (r : Nat) (q : Task) (err : Option String) : Option State :=
  match q.phase, err with
  | .fetching, some e => some (s.goto r q (.clearing e))
  | .fetching, none => some (s.goto r q .creating)
  | _, _ => none

/-- `Create` makes the machine. -/
def appear (r : Nat) (q : Task) : Option State :=
  match q.phase with
  | .creating =>
    some { s.goto r q .creating with
      machines := s.machines.insert q.req.name ⟨some q.caller.sid⟩ }
  | _ => none

/-- A call for a machine that is recorded for the caller has returned. -/
def performed (q : Task) (err : Option String) (addr : String) : Option Phase :=
  match q.req.op, err with
  | .look, _ => none
  | _, some e => some (.unlocking (failure e))
  | .destroy, none =>
    if (s.machines.lookup q.req.name).isNone then some .forgetting else none
  | .address, none => some (.unlocking { ok := true, address := addr })
  | _, none => some (.unlocking { ok := true })

/-- A call of Hyper-V other than a look has returned. -/
def returned (r : Nat) (q : Task) (err : Option String) (addr : String) : Option State :=
  match q.phase, err with
  | .checking, some e => some (s.goto r q (.done (failure e)))
  | .checking, none => some (s.goto r q (.done { ok := true }))
  | .performing, err => (s.performed q err addr).map (s.goto r q)
  | .creating, some e => some (s.goto r q (.clearing e))
  | .creating, none => some (s.goto r q (.unlocking { ok := true }))
  | .clearing b, some e =>
    some (s.goto r q (.unlocking (failure (b ++ "; removing what it made also failed (" ++ e ++
      "), so the name stays recorded for you\n  fix: `remote rm " ++ q.req.name ++ "` retries"))))
  | .clearing b, none =>
    if (s.machines.lookup q.req.name).isNone then some (s.goto r q (.unrecording b)) else none
  | .purgeDestroying p name, some e =>
    some (s.goto r q (.purgeUnlocking { p with errs := p.errs ++ [name ++ ": " ++ e] } name))
  | .purgeDestroying p name, none =>
    if (s.machines.lookup name).isNone then some (s.goto r q (.purgeRemoving p name)) else none
  | _, _ => none

/-- `removeRecord`. -/
def remove (r : Nat) (q : Task) (err : Option String) : Option State :=
  match q.phase, err with
  | .forgetting, some e => some (s.goto r q (.unlocking (failure e)))
  | .forgetting, none =>
    some { s.goto r q (.unlocking { ok := true }) with
      records := removeIf cfg s.records q.req.name q.caller.sid }
  | .unrecording b, some e => some (s.goto r q (.unlocking (failure (b ++ "\n" ++ e))))
  | .unrecording b, none =>
    some { s.goto r q (.unlocking (failure b)) with
      records := removeIf cfg s.records q.req.name q.caller.sid }
  | .purgeRemoving p name, some e =>
    some (s.goto r q (.purgeUnlocking { p with errs := p.errs ++ [e] } name))
  | .purgeRemoving p name, none =>
    some { s.goto r q (.purgeUnlocking { p with done := p.done ++ [name] } name) with
      records := removeIf cfg s.records name (((p.recs.lookup name).map (·.owner)).getD "") }
  | _, _ => none

/-- The slot is emptied. -/
def unlock (r : Nat) (q : Task) : Option State :=
  match q.phase with
  | .unlocking reply =>
    (s.locks.unlock r).map fun locks ↦ { s.goto r q (.releasing reply) with locks }
  | .purgeUnlocking p _ =>
    (s.locks.unlock r).map fun locks ↦ { s.goto r q (.purgeReleasing p) with locks }
  | _ => none

/-- The lock is given back. -/
def release (r : Nat) (q : Task) : Option State :=
  match q.phase with
  | .releasing reply =>
    (s.locks.release r).map fun locks ↦ { s.goto r q (.done reply) with locks }
  | .purgeReleasing p =>
    (s.locks.release r).map fun locks ↦ { s.goto r q (.purging p) with locks }
  | _ => none

/-- `purgeAll` comes to the next name, or `purge` replies. -/
def next (r : Nat) (q : Task) : Option State :=
  match q.phase with
  | .purging p =>
    match p.todo with
    | [] =>
      if p.errs.isEmpty then some (s.goto r q (.done { ok := true, purged := p.done }))
      else
        some (s.goto r q
          (.done { failure ("\n".intercalate p.errs) with purged := p.done }))
    | name :: todo => s.lock r q name (.purgeLocking { p with todo } name)
  | _ => none

def act : Event → Option State
  | .request r caller req => s.request cfg r caller req
  | .take r => (s.tasks.lookup r).bind (s.take r)
  | .giveUp r why => (s.tasks.lookup r).bind fun q ↦ s.giveUp cfg r q why
  | .load r err => (s.tasks.lookup r).bind fun q ↦ s.load cfg r q err
  | .look r res => (s.tasks.lookup r).bind fun q ↦ s.look r q res
  | .put r created err => (s.tasks.lookup r).bind fun q ↦ s.put r q created err
  | .fetch r err => (s.tasks.lookup r).bind fun q ↦ s.fetch r q err
  | .appear r => (s.tasks.lookup r).bind (s.appear r)
  | .vanish name => some { s with machines := s.machines.erase name }
  | .returned r err addr => (s.tasks.lookup r).bind fun q ↦ s.returned r q err addr
  | .remove r err => (s.tasks.lookup r).bind fun q ↦ s.remove cfg r q err
  | .unlock r => (s.tasks.lookup r).bind (s.unlock r)
  | .release r => (s.tasks.lookup r).bind (s.release r)
  | .next r => (s.tasks.lookup r).bind (s.next r)
  | .crash => some { s with locks := {}, tasks := ∅ }

end State

def machine (cfg : Config) : Machine State Event where
  step := State.act cfg

def start (records : Records) (machines : AList fun _ : String ↦ VM) : State :=
  { records, machines }

end RemoteDocker.Broker

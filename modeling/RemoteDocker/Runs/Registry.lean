import RemoteDocker.Tunnels.Allocator

/-!
# The runs of ephemeral accounts

`src/agent/internal/ephemeral/registry.go`. A run is named by its account and client. Connections
attach to it, and the last one to end starts its grace; a sweep expires it after that, cleans up
what it left, frees its port and removes it. `Drop` forgets an account's runs and cleans nothing.

The registry's lock is held for one step at a time, and by `Drop` for as long as it takes. The
allocator is asked with the registry's lock released (`Port`), and so are `Cleanup` and the freeing
of a port in a sweep. The run a pointer names is told from a later one under the same key by its
number. The record of runs, its restoration and the counters are not modelled.
-/

namespace RemoteDocker.Runs

open Base Tunnels

def defaultMax : Int := 8

/-- `DefaultGrace`, in nanoseconds. -/
def defaultGrace : Int := 120000000000

/-- What a registry is set up with; a limit or a grace that is not positive is the default. -/
structure Config where
  maxRuns : Int := 0
  grace : Int := 0
  mapping : Mapping
  deriving DecidableEq, Repr

def Config.max (cfg : Config) : Int := if cfg.maxRuns > 0 then cfg.maxRuns else defaultMax

/-- `grace`. -/
def Config.graceTime (cfg : Config) : Int := if cfg.grace > 0 then cfg.grace else defaultGrace

/-- `State`. -/
inductive Life where
  | live
  | grace
  | cleaning
  deriving DecidableEq, Repr

/-- `run`, and its number. -/
structure Run where
  id : Nat
  state : Life := .live
  conns : Int := 0
  port : Int := 0
  token : Nat := 0
  lastSeen : Int := 0
  allocating : Int := 0
  deriving DecidableEq, Repr

abbrev Table := AList fun _ : Assignment ↦ Run

def count (runs : Table) (account : String) : Nat :=
  (runs.entries.filter fun e ↦ e.1.account == account).length

def attach (cfg : Config) (runs : Table) (k : Assignment) (id : Nat) (now : Int) :
    Except String Run :=
  match runs.lookup k with
  | none =>
    let n := count runs k.account
    if (n : Int) ≥ cfg.max then
      .error ("ephemeral: account " ++ k.account ++ " has " ++ toString n ++ " clients\n" ++
        "  fix: raise WORKSPACE_EPHEMERAL_MAX_CLIENTS or wait")
    else .ok { id, conns := 1, lastSeen := now }
  | some ru =>
    if ru.state = .cleaning then
      .error ("ephemeral: run " ++ k.client ++ " of account " ++ k.account ++
        " has expired and is being cleaned up\n" ++ "  fix: retry in a moment")
    else .ok { ru with state := .live, conns := ru.conns + 1, lastSeen := now }

def detach (runs : Table) (k : Assignment) (id : Nat) (now : Int) : Table :=
  match runs.lookup k with
  | none => runs
  | some ru =>
    if ru.id = id then
      let ru := { ru with conns := ru.conns - 1, lastSeen := now }
      if ru.conns > 0 then runs.insert k ru
      else if ru.port = 0 ∧ ru.allocating = 0 then runs.erase k
      else runs.insert k { ru with state := .grace }
    else runs

/-- How a call of `Port` goes on: it is refused, the run has its port, or it waits for one. -/
inductive Begun where
  | refused (msg : String)
  | known (port : Int)
  | waits (ru : Run)
  deriving DecidableEq, Repr

/-- `Port`, up to the allocator. -/
def portBegin (runs : Table) (k : Assignment) : Begun :=
  match runs.lookup k with
  | none =>
    .refused ("ephemeral: run " ++ k.client ++ " of account " ++ k.account ++ " is not attached")
  | some ru =>
    if ru.state = .live then
      if ru.port = 0 then .waits { ru with allocating := ru.allocating + 1 } else .known ru.port
    else
      .refused ("ephemeral: run " ++ k.client ++ " of account " ++ k.account ++ " is not attached")

/-- Where a call of `Port` ends whose run has gone or expired: what it was given is freed. -/
def portExpired (ports : Ports) (k : Assignment) (given : Except String Entry) :
    Ports × Except String Int :=
  (match given with
    | .ok e => (ports.release k e.token).1
    | .error _ => ports,
    .error ("ephemeral: run " ++ k.client ++ " of account " ++ k.account ++ " expired"))

/-- `Port`, from what the allocator gave. -/
def portEnd (runs : Table) (ports : Ports) (k : Assignment) (id : Nat)
    (given : Except String Entry) : Table × Ports × Except String Int :=
  match runs.lookup k with
  | none => (runs, portExpired ports k given)
  | some ru =>
    if ru.id = id then
      let ru := { ru with allocating := ru.allocating - 1 }
      if ru.state = .cleaning then (runs.insert k ru, portExpired ports k given)
      else
        match given with
        | .error e =>
          (if ru.conns = 0 ∧ ru.port = 0 ∧ ru.allocating = 0 then runs.erase k
            else runs.insert k ru, ports, .error e)
        | .ok e =>
          if ru.port = 0 then
            (runs.insert k { ru with port := e.port, token := e.token }, ports, .ok e.port)
          else (runs.insert k ru, ports, .ok ru.port)
    else (runs, portExpired ports k given)

structure Due where
  key : Assignment
  id : Nat
  port : Int
  token : Nat
  deriving DecidableEq, Repr

/-- What a sweep makes of a run: one whose grace has run out expires. -/
def expire (cfg : Config) (enrolled : String → Bool) (now : Int) (k : Assignment) (ru : Run) :
    Run :=
  if enrolled k.account ∧ ru.state = .grace ∧ now - ru.lastSeen ≥ cfg.graceTime then
    { ru with state := .cleaning }
  else ru

def collect (enrolled : String → Bool) (runs : Table) : List Due :=
  (runs.entries.filter fun e ↦ enrolled e.1.account && e.2.state = .cleaning).map fun e ↦
    ⟨e.1, e.2.id, e.2.port, e.2.token⟩

/-- Where a call of `Port` is in `ForRun`. -/
inductive Stage where
  | entering
  | asking
  | given (given : Except String Entry)
  deriving DecidableEq

structure PortCall where
  account : Name
  client : Name
  id : Nat
  stage : Stage := .entering
  deriving DecidableEq

def PortCall.key (c : PortCall) : Assignment := assignmentOf c.account c.client

/-- Where a sweep is: about to take the next run, or with one it cleans up, has cleaned up, or has
freed the port of. -/
inductive Progress where
  | next
  | cleaning (d : Due)
  | cleaned (d : Due)
  | freed (d : Due)
  deriving DecidableEq, Repr

/-- A sweep, and what it collected and has not begun to clean up. -/
structure Sweep where
  due : List Due
  progress : Progress := .next
  deriving DecidableEq, Repr

structure State where
  ports : Ports
  runs : Table := ∅
  /-- How many runs there have been. -/
  made : Nat := 0
  /-- The connections that have not ended, each with its run. -/
  conns : AList fun _ : Nat ↦ Assignment × Nat := ∅
  calls : AList fun _ : Nat ↦ PortCall := ∅
  sweep : Option Sweep := none
  /-- The account `Drop` holds the lock for. -/
  dropping : Option String := none
  /-- The runs whose `Cleanup` succeeded. -/
  cleaned : List Nat := []

/-- What can happen. A map is walked in any order, so a sweep may take any run it has collected
next, and `Drop` any run of its account. `forMachine` is `For` of a client that is no run. -/
inductive Event where
  | attach (conn : Nat) (account client : Name) (now : Int)
  | detach (conn : Nat) (now : Int)
  | portBegin (n : Nat) (account client : Name)
  | lookUp (n : Nat) (unreadable : Option String)
  | answer (n : Nat) (want : Except String Int) (reserved : Int → Bool)
      (unreadable : Option String)
  | portEnd (n : Nat)
  | sweepBegin (enrolled : String → Bool) (now : Int)
  | cleanBegin (d : Due)
  | cleanEnd (ok : Bool)
  | free
  | remove
  | sweepEnd
  | dropBegin (account : String)
  | dropRun (client : String)
  | dropEnd
  | forMachine (account client : Name) (uid want : Int) (reserved : Int → Bool)
      (unreadable : Option String)

namespace State

variable (cfg : Config) (s : State)

def attach (conn : Nat) (account client : Name) (now : Int) : Option State :=
  if s.dropping.isSome ∨ conn ∈ s.conns then none
  else
    let k := assignmentOf account client
    match Runs.attach cfg s.runs k s.made now with
    | .error _ => some s
    | .ok ru =>
      some { s with
        runs := s.runs.insert k ru
        made := s.made + 1
        conns := s.conns.insert conn (k, ru.id) }

def detach (conn : Nat) (now : Int) : Option State :=
  if s.dropping.isSome then none
  else
    match s.conns.lookup conn with
    | none => none
    | some (k, id) =>
      some { s with runs := Runs.detach s.runs k id now, conns := s.conns.erase conn }

def portBegin (n : Nat) (account client : Name) : Option State :=
  if s.dropping.isSome ∨ n ∈ s.calls then none
  else
    let k := assignmentOf account client
    match Runs.portBegin s.runs k with
    | .refused _ => some s
    | .known _ => some s
    | .waits ru =>
      some { s with
        runs := s.runs.insert k ru
        calls := s.calls.insert n { account, client, id := ru.id } }

def lookUp (n : Nat) (unreadable : Option String) : Option State :=
  match s.calls.lookup n with
  | none => none
  | some c =>
    if c.stage = .entering then
      let (ports, known) := s.ports.entry c.key unreadable
      let stage := match known with
        | .error e => Stage.given (.error e)
        | .ok (some e) => .given (.ok e)
        | .ok none => .asking
      some { s with ports, calls := s.calls.insert n { c with stage } }
    else none

/-- What the run's volumes expect is answered, and `ForRun` decides. -/
def answer (n : Nat) (want : Except String Int) (reserved : Int → Bool)
    (unreadable : Option String) : Option State :=
  match s.calls.lookup n with
  | none => none
  | some c =>
    if c.stage = .asking then
      match want with
      | .error e =>
        let given :=
          .error ("accounts: cannot tell which port " ++ c.account.text ++ " needs: " ++ e)
        some { s with calls := s.calls.insert n { c with stage := .given given } }
      | .ok want =>
        let (ports, given) := s.ports.decide cfg.mapping reserved c.key 0 want true unreadable
        some { s with ports, calls := s.calls.insert n { c with stage := .given given } }
    else none

def portEnd (n : Nat) : Option State :=
  if s.dropping.isSome then none
  else
    match s.calls.lookup n with
    | none => none
    | some c =>
      match c.stage with
      | .given given =>
        let (runs, ports, _) := Runs.portEnd s.runs s.ports c.key c.id given
        some { s with runs, ports, calls := s.calls.erase n }
      | _ => none

/-- `Sweep` collects. -/
def sweepBegin (enrolled : String → Bool) (now : Int) : Option State :=
  if s.dropping.isSome ∨ s.sweep.isSome then none
  else
    let runs := mapTable (expire cfg enrolled now) s.runs
    some { s with runs, sweep := some { due := collect enrolled runs } }

/-- `Cleanup` of a run begins. -/
def cleanBegin (d : Due) : Option State :=
  match s.sweep with
  | some ⟨due, .next⟩ =>
    if d ∈ due then some { s with sweep := some ⟨due.erase d, .cleaning d⟩ } else none
  | _ => none

/-- `Cleanup` of a run ends. One that failed keeps the run. -/
def cleanEnd (ok : Bool) : Option State :=
  match s.sweep with
  | some ⟨due, .cleaning d⟩ =>
    if ok then some { s with sweep := some ⟨due, .cleaned d⟩, cleaned := d.id :: s.cleaned }
    else some { s with sweep := some ⟨due, .next⟩ }
  | _ => none

def free : Option State :=
  match s.sweep with
  | some ⟨due, .cleaned d⟩ =>
    some { s with
      ports := if d.token = 0 then s.ports else (s.ports.release d.key d.token).1
      sweep := some ⟨due, .freed d⟩ }
  | _ => none

/-- The run is removed, if it is still the one collected. -/
def remove : Option State :=
  if s.dropping.isSome then none
  else
    match s.sweep with
    | some ⟨due, .freed d⟩ =>
      some { s with
        runs := match s.runs.lookup d.key with
          | some ru => if ru.id = d.id then s.runs.erase d.key else s.runs
          | none => s.runs
        sweep := some ⟨due, .next⟩ }
    | _ => none

def sweepEnd : Option State :=
  match s.sweep with
  | some ⟨[], .next⟩ => some { s with sweep := none }
  | _ => none

def dropBegin (account : String) : Option State :=
  if s.dropping.isSome then none else some { s with dropping := some account }

/-- `Drop` frees a run's port and forgets the run. -/
def dropRun (client : String) : Option State :=
  match s.dropping with
  | none => none
  | some account =>
    match s.runs.lookup ⟨account, client⟩ with
    | none => none
    | some ru =>
      some { s with
        ports := if ru.port = 0 then s.ports else (s.ports.release ⟨account, client⟩ ru.token).1
        runs := s.runs.erase ⟨account, client⟩ }

def dropEnd : Option State :=
  match s.dropping with
  | none => none
  | some account =>
    if s.runs.entries.all fun e ↦ e.1.account ≠ account then some { s with dropping := none }
    else none

def forMachine (account client : Name) (uid want : Int) (reserved : Int → Bool)
    (unreadable : Option String) : Option State :=
  match cfg.mapping.portForUID uid with
  | .error _ => none
  | .ok base =>
    some { s with
      ports := (s.ports.decide cfg.mapping reserved (assignmentOf account client) base want false
        unreadable).1 }

def act : Event → Option State
  | .attach conn account client now => s.attach cfg conn account client now
  | .detach conn now => s.detach conn now
  | .portBegin n account client => s.portBegin n account client
  | .lookUp n unreadable => s.lookUp n unreadable
  | .answer n want reserved unreadable => s.answer cfg n want reserved unreadable
  | .portEnd n => s.portEnd n
  | .sweepBegin enrolled now => s.sweepBegin cfg enrolled now
  | .cleanBegin d => s.cleanBegin d
  | .cleanEnd ok => s.cleanEnd ok
  | .free => s.free
  | .remove => s.remove
  | .sweepEnd => s.sweepEnd
  | .dropBegin account => s.dropBegin account
  | .dropRun client => s.dropRun client
  | .dropEnd => s.dropEnd
  | .forMachine account client uid want reserved unreadable =>
    s.forMachine cfg account client uid want reserved unreadable

end State

def machine (cfg : Config) : Machine State Event where
  step s e := s.act cfg e

/-- An agent that has just started: no runs, and a record that is not read yet. -/
def start (ports : Ports) : State := { ports := ports.restart }

end RemoteDocker.Runs

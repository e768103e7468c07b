import RemoteDocker.Tunnels.Allocator

/-!
# Reverse forwards and their reservations

A client asks the workspace to listen on its port (`src/core-agent/tunnelserver/forward.go`). The
policy reserves the port for the session that asks (`src/agent/internal/sshd/forward.go`,
`forward_tcpip.go`), and a local forward to a port another account has reserved is refused.

A forward is the work of four: the handler, which asks, binds and listens; the policy's own
goroutine, which releases the reservation when the connection ends; one that takes the listener down
when the connection ends; and the one that accepts, which takes it down and releases when it stops.
Each step of any of them is an event. Which ports an account has been given, the port of a run and
whether a host is the account's gateway are answers from elsewhere; no account is given port 0.
-/

namespace RemoteDocker.Forwards

open Base Tunnels

def isLoopback (host : String) : Bool := host == "127.0.0.1" || host == "::1" || host == "localhost"

def joinHostPort (host : String) (port : Nat) : String :=
  if host.toList.any fun c ↦ c == ':' || c == '%' then "[" ++ host ++ "]:" ++ toString port
  else host ++ ":" ++ toString port

/-- Every loopback name is one key. -/
def key (host : String) (port : Nat) : String :=
  joinHostPort (if isLoopback host then "loopback" else host) port

structure Reservation where
  account : String
  token : Nat
  deriving DecidableEq, Repr

/-- `ForwardPolicy`. -/
structure Policy where
  mapping : Mapping
  next : Nat := 0
  bound : AList fun _ : String ↦ Reservation := ∅

/-- `sessionAccount`: what a connection authenticated as. -/
structure Account where
  name : String
  uid : Int
  client : String
  ephemeral : Bool
  deriving DecidableEq, Repr

/-- What becomes of a request up to `Bind`: refused, a host forward, or a port to be bound. -/
inductive Asked where
  | refused
  | hostForward (port : Nat)
  | bind (port : Nat)
  deriving DecidableEq, Repr

namespace Policy

variable (p : Policy)

/-- `Allow`; `owned` is what the allocator answers. -/
def allow (account : Account) (host : String) (port : Nat) (owned : Bool) : Bool × String :=
  if isLoopback host then
    if owned then
      match p.bound.lookup (key host port) with
      | some res =>
        if res.account ≠ account.name then (false, "that port is held by another session")
        else (true, "")
      | none => (true, "")
    else
      match p.mapping.portForUID account.uid with
      | .error _ => (false, "this account has no reverse-tunnel port")
      | .ok want =>
        (false, "this account may only bind the port it was given, " ++ toString want)
  else (false, "only loopback addresses may be forwarded: the NFS export is unauthenticated")

def holder (host : String) (port : Nat) : Option String :=
  (p.bound.lookup (key host port)).map (·.account)

def allowDial (account : String) (host : String) (port : Nat) : Bool × String :=
  if isLoopback host then
    match p.holder host port with
    | some holder =>
      if holder ≠ account then (false, "that port is another account's file server")
      else (true, "")
    | none => (true, "")
  else (false, "only loopback addresses may be reached")

/-- The token, unless anybody holds the port. -/
def bind (account : String) (host : String) (port : Nat) : Policy × Option Nat :=
  match p.bound.lookup (key host port) with
  | some _ => (p, none)
  | none =>
    ({ p with
        next := p.next + 1
        bound := p.bound.insert (key host port) ⟨account, p.next + 1⟩ }, some (p.next + 1))

def release (token : Nat) (host : String) (port : Nat) : Policy :=
  match p.bound.lookup (key host port) with
  | some res => if res.token = token then { p with bound := p.bound.erase (key host port) } else p
  | none => p

/-- Whether the request is a host forward, and whether it may be. -/
def allowHostForward (gateway : Bool) (host : String) (port : Nat) : Option Bool :=
  if isLoopback host || !gateway then none
  else if port = 0 ∨ port > 65535 then some false
  else some true

/-- `runPort`; `run` is the port the registry has for the run. -/
def runPort (run : Option Nat) (asked : Nat) : Option Nat :=
  match run with
  | none => none
  | some port => if asked ≠ 0 ∧ asked ≠ port then none else some port

/-- `reversePolicy.Allow`, up to `Bind`. -/
def reverseAllow (account : Account) (host : String) (port : Nat) (gateway : Bool)
    (run : Option Nat) (owned : Bool) : Asked :=
  if account.client = "" then .refused
  else
    match allowHostForward gateway host port with
    | some true => .hostForward port
    | some false => .refused
    | none =>
      match if account.ephemeral then runPort run port else some port with
      | none => .refused
      | some port => if (p.allow account host port owned).1 then .bind port else .refused

end Policy

/-- Where the handler of a forward is, and the one that accepts after it: before `Bind`, before
`Listen` is answered, after a listen that failed, accepting, done accepting, with the listener taken
down, or done. -/
inductive Phase where
  | binding
  | listening
  | failed
  | serving
  | broken
  | dropped
  | done
  deriving DecidableEq, Repr

/-- A forward. `watched` is that the policy's goroutine waits for the connection to end, `guarded`
that the listener's does. -/
structure Forward where
  conn : Nat
  account : String
  host : String
  port : Nat
  token : Nat := 0
  phase : Phase
  opened : Bool := false
  watched : Bool := false
  guarded : Bool := false
  deriving DecidableEq, Repr

def Forward.addr (fw : Forward) : String := joinHostPort fw.host fw.port

structure State where
  policy : Policy
  /-- The connections, each with what it authenticated as and whether it has ended. -/
  conns : AList fun _ : Nat ↦ Account × Bool := ∅
  tasks : AList fun _ : Nat ↦ Forward := ∅
  /-- `Forwards.forwards`: the listener of a connection's address. -/
  forwards : AList fun _ : Nat × String ↦ Nat := ∅

inductive Event where
  | connect (conn : Nat) (account : Account)
  | request (f conn : Nat) (host : String) (port : Nat) (gateway : Bool) (run : Option Nat)
      (owned : Bool)
  | bind (f : Nat)
  | listen (f : Nat) (ok : Bool)
  | releaseFailed (f : Nat)
  | cancel (conn : Nat) (host : String) (port : Nat)
  | disconnect (conn : Nat)
  | releaseOnEnd (f : Nat)
  | dropOnEnd (f : Nat)
  | acceptFails (f : Nat)
  | serveDrop (f : Nat)
  | serveRelease (f : Nat)
  deriving DecidableEq, Repr

namespace State

variable (s : State)

def ended (conn : Nat) : Bool := (s.conns.lookup conn).any (·.2)

/-- A `tcpip-forward` request. -/
def request (f conn : Nat) (host : String) (port : Nat) (gateway : Bool) (run : Option Nat)
    (owned : Bool) : Option State :=
  match s.conns.lookup conn with
  | none => none
  | some (account, _) =>
    if f ∈ s.tasks then none
    else
      match s.policy.reverseAllow account host port gateway run owned with
      | .refused => some s
      | .hostForward port =>
        some { s with
          tasks :=
            s.tasks.insert f { conn, account := account.name, host, port, phase := .listening } }
      | .bind port =>
        if port = 0 then none
        else
          some { s with
            tasks :=
              s.tasks.insert f { conn, account := account.name, host, port, phase := .binding } }

def bind (f : Nat) (fw : Forward) : Option State :=
  if fw.phase = .binding then
    match s.policy.bind fw.account fw.host fw.port with
    | (_, none) => some { s with tasks := s.tasks.insert f { fw with phase := .done } }
    | (policy, some token) =>
      some { s with
        policy
        tasks := s.tasks.insert f { fw with token, phase := .listening, watched := true } }
  else none

/-- `Listen` is answered. -/
def listen (f : Nat) (fw : Forward) (ok : Bool) : Option State :=
  if fw.phase = .listening then
    if ok then
      some { s with
        tasks := s.tasks.insert f { fw with phase := .serving, opened := true, guarded := true }
        forwards := s.forwards.insert (fw.conn, fw.addr) f }
    else some { s with tasks := s.tasks.insert f { fw with phase := .failed } }
  else none

/-- The reservation goes with a listen that failed. -/
def releaseFailed (f : Nat) (fw : Forward) : Option State :=
  if fw.phase = .failed then
    some { s with
      policy := s.policy.release fw.token fw.host fw.port
      tasks := s.tasks.insert f { fw with phase := .done } }
  else none

/-- `close`: the listener of an address of this connection's is closed. -/
def cancel (conn : Nat) (host : String) (port : Nat) : Option State :=
  match s.forwards.lookup (conn, joinHostPort host port) with
  | none => some s
  | some f =>
    match s.tasks.lookup f with
    | none => none
    | some fw => some { s with tasks := s.tasks.insert f { fw with opened := false } }

/-- The policy's goroutine releases when the connection has ended. -/
def releaseOnEnd (f : Nat) (fw : Forward) : Option State :=
  if fw.watched ∧ s.ended fw.conn then
    some { s with
      policy := s.policy.release fw.token fw.host fw.port
      tasks := s.tasks.insert f { fw with watched := false } }
  else none

/-- The listener is taken out of the table, if it is still there, and closed. -/
def drop (f : Nat) (fw : Forward) : State :=
  { s with
    forwards :=
      if s.forwards.lookup (fw.conn, fw.addr) = some f then s.forwards.erase (fw.conn, fw.addr)
      else s.forwards
    tasks := s.tasks.insert f { fw with opened := false } }

/-- The listener's goroutine drops it when the connection has ended. -/
def dropOnEnd (f : Nat) (fw : Forward) : Option State :=
  if fw.guarded ∧ s.ended fw.conn then some (s.drop f { fw with guarded := false }) else none

/-- `serve` stops: the listener was closed, or its accept fails. -/
def acceptFails (f : Nat) (fw : Forward) : Option State :=
  if fw.phase = .serving then some { s with tasks := s.tasks.insert f { fw with phase := .broken } }
  else none

/-- `serve` drops its listener. -/
def serveDrop (f : Nat) (fw : Forward) : Option State :=
  if fw.phase = .broken then some (s.drop f { fw with phase := .dropped }) else none

def serveRelease (f : Nat) (fw : Forward) : Option State :=
  if fw.phase = .dropped then
    some { s with
      policy := s.policy.release fw.token fw.host fw.port
      tasks := s.tasks.insert f { fw with phase := .done } }
  else none

def act : Event → Option State
  | .connect conn account =>
    if conn ∈ s.conns then none else some { s with conns := s.conns.insert conn (account, false) }
  | .request f conn host port gateway run owned => s.request f conn host port gateway run owned
  | .bind f => (s.tasks.lookup f).bind (s.bind f)
  | .listen f ok => (s.tasks.lookup f).bind fun fw ↦ s.listen f fw ok
  | .releaseFailed f => (s.tasks.lookup f).bind (s.releaseFailed f)
  | .cancel conn host port => s.cancel conn host port
  | .disconnect conn =>
    match s.conns.lookup conn with
    | none => none
    | some (account, _) => some { s with conns := s.conns.insert conn (account, true) }
  | .releaseOnEnd f => (s.tasks.lookup f).bind (s.releaseOnEnd f)
  | .dropOnEnd f => (s.tasks.lookup f).bind (s.dropOnEnd f)
  | .acceptFails f => (s.tasks.lookup f).bind (s.acceptFails f)
  | .serveDrop f => (s.tasks.lookup f).bind (s.serveDrop f)
  | .serveRelease f => (s.tasks.lookup f).bind (s.serveRelease f)

end State

def machine : Machine State Event where
  step := State.act

def start (mapping : Mapping) : State := { policy := { mapping } }

end RemoteDocker.Forwards

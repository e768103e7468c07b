import RemoteDocker.Base.Machine
import RemoteDocker.Base.Table
import RemoteDocker.Enrol.KeyFile

/-!
# Connections and who they are

A connection authenticates once, at its handshake (`src/agent/internal/sshd/server.go`). The
registry of `src/agent/internal/sshd/revoke.go` keeps every live connection with the key it logged
in with, and every sync of the accounts (`src/core-agent/accounts/accounts.go`) that publishes new
ones then sweeps the registry, which closes the connections whose key is no longer enrolled. A
request that may revoke its own connection holds it open until it has replied.

The registry's lock `mu` is held over a whole sweep. A sweep asks for each connection's account on
its own, so each of its turns is a step, and another sync may publish between two of them. Every
other section under the lock looks at the accounts once at most and is one step, at that look:
nobody sees what it writes before it unlocks. Which accounts a sync publishes and which tokens are
live are inputs.
-/

namespace RemoteDocker.Sessions

open Base

variable {Key : Type} [DecidableEq Key]

structure Account (Key : Type) where
  name : String
  uid : Int
  keys : List Key
  deriving DecidableEq, Repr

abbrev Accounts (Key : Type) := AList fun _ : String ↦ Account Key

/-- The configuration of the server, and `ssh.FingerprintSHA256` and `workspace.ClientID` of a
key. -/
structure Config (Key : Type) where
  names : Enrol.Config
  ephemeral : String → Bool
  fingerprint : Key → String
  clientID : Key → String

structure SessionAccount (Key : Type) where
  name : String
  uid : Int
  fingerprint : String
  client : String := ""
  ephemeral : Bool := false
  key : Option Key := none
  deriving DecidableEq, Repr

structure Redeemer (Key : Type) where
  id : String
  key : Key
  deriving DecidableEq, Repr

/-- What authentication leaves in a connection's context. -/
structure Values (Key : Type) where
  session : Option (SessionAccount Key) := none
  redeemer : Option (Redeemer Key) := none
  deriving DecidableEq, Repr

def Account.authorized (cfg : Config Key) (a : Account Key) (key : Key) : Bool :=
  a.keys.any fun k ↦ cfg.fingerprint k == cfg.fingerprint key

def stillAuthorized (cfg : Config Key) (accounts : Accounts Key) (account : String) (key : Key) :
    Bool :=
  match accounts.lookup account with
  | some a => a.authorized cfg key
  | none => false

/-- `enrol.LoginPrefix`. -/
def tokenLogin : String := "+token:"

/-- `authenticateToken`; `live` is what the store answers. -/
def authenticateToken (id : String) (live : Bool) (key : Key) : Except String (Values Key) :=
  if live then .ok { redeemer := some ⟨id, key⟩ }
  else .error "refused a token login: no such live token"

/-- What an accepted key leaves in the context, or what is logged. -/
def authenticate (cfg : Config Key) (accounts : Accounts Key) (user : String) (live : Bool)
    (key : Key) : Except String (Values Key) :=
  match tokenLogin.toList.isPrefixOf? user.toList with
  | some id => authenticateToken (String.ofList id) live key
  | none =>
    match cfg.names.accountName user with
    | .error _ => .error "refused a connection: no such account"
    | .ok name =>
      match accounts.lookup name with
      | none => .error "refused a connection: no such account"
      | some account =>
        if account.authorized cfg key then
          let session : SessionAccount Key :=
            { name := account.name, uid := account.uid, fingerprint := cfg.fingerprint key }
          if cfg.ephemeral account.name then
            .ok { session := some { session with ephemeral := true, key := some key } }
          else .ok { session := some { session with client := cfg.clientID key } }
        else .error "refused a connection: the key is not enrolled"

/-- Who a key that signed logs in as, before the record is made. -/
inductive Who where
  | token
  | account (name : String)
  deriving DecidableEq, Repr

/-- `loggedIn` up to the record. -/
def signed (cfg : Config Key) (values : Values Key) (key : Key) : Except String Who :=
  match values.redeemer with
  | some r =>
    if r.key = key then .ok .token
    else .error "sshd: a token login signed with a key it did not offer"
  | none =>
    match values.session with
    | some account =>
      if account.fingerprint = cfg.fingerprint key then .ok (.account account.name)
      else .error "sshd: a login signed with a key it did not offer"
    | none => .error "sshd: a login signed with a key it did not offer"

/-- `liveConn`; `key` is `none` until a login is recorded. -/
structure LiveConn (Key : Type) where
  account : String := ""
  key : Option Key := none
  held : Nat := 0
  revoked : Bool := false
  deriving DecidableEq, Repr

inductive Login (Key : Type) where
  | handshake
  | refused (why : String)
  | recording (account : String) (key : Key)
  | loggedIn (account : String) (key : Key)
  | token
  deriving DecidableEq, Repr

/-- The handshake goes on: no key has logged in, and none is being recorded. -/
def Login.handshaking : Login Key → Bool
  | .handshake => true
  | .refused _ => true
  | _ => false

def Login.inProgress : Login Key → Bool
  | .recording _ _ => true
  | _ => false

/-- A connection: its context, its entry of the registry, whether the registry still has it, whether
it has been closed, and how many timers will close it. The entry outlives its place in the registry
while a hold has it. -/
structure Conn (Key : Type) where
  values : Values Key := {}
  login : Login Key := .handshake
  lc : LiveConn Key := {}
  live : Bool := true
  closed : Bool := false
  scheduled : Nat := 0
  deriving DecidableEq, Repr

/-- A `hold`: taken, of the entry the registry had, or released with the close still to schedule. -/
inductive Hold where
  | taken (lc : Option Nat)
  | closing (conn : Nat)
  deriving DecidableEq, Repr

/-- A sync from its publication on: its sweep is to start, is under way, or has the connections it
found left to close. -/
inductive Sync where
  | published
  | sweeping (todo revoked : List Nat)
  | closing (revoked : List Nat)
  deriving DecidableEq, Repr

structure State (Key : Type) where
  accounts : Accounts Key
  conns : AList fun _ : Nat ↦ Conn Key := ∅
  mu : Option Nat := none
  holds : AList fun _ : Nat ↦ Hold := ∅
  syncs : AList fun _ : Nat ↦ Sync := ∅

inductive Event (Key : Type) where
  | track (ctx : Nat)
  | offer (ctx : Nat) (user : String) (tokenLive : Bool) (key : Key)
  | sign (ctx : Nat) (key : Key)
  | record (ctx : Nat)
  | done (ctx : Nat)
  | hold (h ctx : Nat)
  | release (h : Nat)
  | schedule (h : Nat)
  | expire (ctx : Nat)
  | publish (sync : Nat) (accounts : Accounts Key)
  | sweep (sync : Nat)
  | visit (sync ctx : Nat)
  | unlock (sync : Nat)
  | close (sync : Nat)

namespace State

variable (cfg : Config Key) (s : State Key)

/-- The keys of `conns.live`. -/
def live : List Nat := (s.conns.entries.filter fun e ↦ e.2.live).map (·.1)

/-- No login, sweep or hold is in progress. A sync has its sweep to do from its publication on. -/
def quiet : Bool :=
  (s.conns.entries.all fun e ↦ !e.2.login.inProgress) && s.holds.entries.isEmpty &&
    s.syncs.entries.isEmpty

/-- A key is offered; one that is refused leaves the context as it was. -/
def offer (ctx : Nat) (c : Conn Key) (user : String) (tokenLive : Bool) (key : Key) :
    Option (State Key) :=
  if c.login.handshaking then
    match authenticate cfg s.accounts user tokenLive key with
    | .ok values => some { s with conns := s.conns.insert ctx { c with values } }
    | .error _ => some s
  else none

def sign (ctx : Nat) (c : Conn Key) (key : Key) : Option (State Key) :=
  if c.login.handshaking then
    match signed cfg c.values key with
    | .ok .token => some { s with conns := s.conns.insert ctx { c with login := .token } }
    | .ok (.account name) =>
      some { s with conns := s.conns.insert ctx { c with login := .recording name key } }
    | .error why => some { s with conns := s.conns.insert ctx { c with login := .refused why } }
  else none

/-- `authenticated`: the entry of a connection the registry still has. -/
def recorded (c : Conn Key) (account : String) (key : Key) : LiveConn Key :=
  if c.live then { c.lc with account, key := some key } else c.lc

/-- `authenticated`, and what `loggedIn` makes of it. -/
def record (ctx : Nat) (c : Conn Key) : Option (State Key) :=
  match c.login with
  | .recording account key =>
    if s.mu = none then
      let lc := recorded c account key
      if stillAuthorized cfg s.accounts account key then
        some { s with conns := s.conns.insert ctx { c with lc, login := .loggedIn account key } }
      else
        some { s with
          conns := s.conns.insert ctx
            { c with lc, login := .refused "sshd: the key was revoked during the handshake" } }
    else none
  | _ => none

/-- `hold`, of whatever entry the registry has for the connection. -/
def hold (h ctx : Nat) : Option (State Key) :=
  if s.mu = none ∧ h ∉ s.holds then
    match s.conns.lookup ctx with
    | some c =>
      if c.live then
        some { s with
          conns := s.conns.insert ctx { c with lc := { c.lc with held := c.lc.held + 1 } }
          holds := s.holds.insert h (.taken (some ctx)) }
      else some { s with holds := s.holds.insert h (.taken none) }
    | none => some { s with holds := s.holds.insert h (.taken none) }
  else none

def release (h : Nat) : Option (State Key) :=
  match s.holds.lookup h with
  | some (.taken none) => some { s with holds := s.holds.erase h }
  | some (.taken (some ctx)) =>
    if s.mu = none then
      match s.conns.lookup ctx with
      | some c =>
        let lc := { c.lc with held := c.lc.held - 1 }
        let closing := lc.held = 0 ∧ lc.revoked
        some { s with
          conns := s.conns.insert ctx { c with lc }
          holds := if closing then s.holds.insert h (.closing ctx) else s.holds.erase h }
      | none => none
    else none
  | _ => none

/-- The release's `AfterFunc`. -/
def schedule (h : Nat) : Option (State Key) :=
  match s.holds.lookup h with
  | some (.closing ctx) =>
    match s.conns.lookup ctx with
    | some c =>
      some { s with
        conns := s.conns.insert ctx { c with scheduled := c.scheduled + 1 }
        holds := s.holds.erase h }
    | none => none
  | _ => none

/-- One turn of a sweep's loop: the connection's entry afterwards, and whether to close it. -/
def turn (c : Conn Key) : Conn Key × Bool :=
  match c.lc.key with
  | some key =>
    if stillAuthorized cfg s.accounts c.lc.account key then (c, false)
    else if c.lc.held > 0 then ({ c with lc := { c.lc with revoked := true } }, false)
    else (c, true)
  | none => (c, false)

/-- `sweep` takes the lock. -/
def sweep (i : Nat) : Option (State Key) :=
  match s.syncs.lookup i with
  | some .published =>
    if s.mu = none then
      some { s with mu := some i, syncs := s.syncs.insert i (.sweeping s.live []) }
    else none
  | _ => none

/-- `sweep` comes to a connection. -/
def visit (i ctx : Nat) : Option (State Key) :=
  match s.syncs.lookup i, s.conns.lookup ctx with
  | some (.sweeping todo revoked), some c =>
    if ctx ∈ todo then
      some { s with
        conns := s.conns.insert ctx (s.turn cfg c).1
        syncs := s.syncs.insert i
          (.sweeping (todo.erase ctx) (if (s.turn cfg c).2 then revoked ++ [ctx] else revoked)) }
    else none
  | _, _ => none

/-- `sweep` unlocks, when it has been to every connection. -/
def unlock (i : Nat) : Option (State Key) :=
  match s.syncs.lookup i with
  | some (.sweeping [] revoked) =>
    some { s with mu := none, syncs := s.syncs.insert i (.closing revoked) }
  | _ => none

/-- `sweep` closes the next connection it found, or is done. -/
def close (i : Nat) : Option (State Key) :=
  match s.syncs.lookup i with
  | some (.closing (ctx :: revoked)) =>
    match s.conns.lookup ctx with
    | some c =>
      some { s with
        conns := s.conns.insert ctx { c with closed := true }
        syncs := s.syncs.insert i (.closing revoked) }
    | none => none
  | some (.closing []) => some { s with syncs := s.syncs.erase i }
  | _ => none

def act : Event Key → Option (State Key)
  | .track ctx =>
    if s.mu = none ∧ ctx ∉ s.conns then some { s with conns := s.conns.insert ctx {} } else none
  | .offer ctx user tokenLive key =>
    (s.conns.lookup ctx).bind fun c ↦ s.offer cfg ctx c user tokenLive key
  | .sign ctx key => (s.conns.lookup ctx).bind fun c ↦ s.sign cfg ctx c key
  | .record ctx => (s.conns.lookup ctx).bind fun c ↦ s.record cfg ctx c
  | .done ctx =>
    match s.conns.lookup ctx with
    | some c =>
      if s.mu = none then some { s with conns := s.conns.insert ctx { c with live := false } }
      else none
    | none => none
  | .hold h ctx => s.hold h ctx
  | .release h => s.release h
  | .schedule h => s.schedule h
  | .expire ctx =>
    match s.conns.lookup ctx with
    | some c =>
      if 0 < c.scheduled then
        some { s with
          conns := s.conns.insert ctx { c with scheduled := c.scheduled - 1, closed := true } }
      else none
    | none => none
  | .publish i accounts =>
    if i ∈ s.syncs then none
    else some { s with accounts, syncs := s.syncs.insert i .published }
  | .sweep i => s.sweep i
  | .visit i ctx => s.visit cfg i ctx
  | .unlock i => s.unlock i
  | .close i => s.close i

end State

def machine (cfg : Config Key) : Machine (State Key) (Event Key) where
  step := State.act cfg

def start (accounts : Accounts Key) : State Key := { accounts }

end RemoteDocker.Sessions

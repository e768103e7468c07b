import Mathlib.Data.Finset.Card
import RemoteDocker.Base.Machine
import RemoteDocker.Base.Table

/-!
# The unions of one machine

`Manager` of `src/agent/internal/unions/unions.go` as seen by one machine of an account:
its cache sessions (`:667-694`), the Prepare calls of its shares with their mounts
(`:272-440`), and its Release calls (`:704-781`). A call is a program of its own, cut where
the source takes or gives up the lock, asks another process or waits, so that an
interleaving of calls is a list of events. Calls are never removed: one that returned stays
at its last phase.

A Prepare starts here once its spec is built; what fails before that touches no union.
Another machine is seen only by the number its Prepares are given. Mountpoints are those of
the daemon's namespace the union is in; a machine's share names the path there. How often a
child exited is left out, since a wait for one may end at any time anyway.
-/

namespace RemoteDocker.Unions

open Base

/-- Where a union is mounted: a path of its share in the namespace of a daemon. -/
structure Mountpoint where
  pid : Nat
  share : String
  deriving DecidableEq

/-- `union.Spec`, as far as a mountpoint and its owner depend on it. -/
structure Spec where
  share : String
  pid : Nat := 0
  uid : UInt32 := 0
  gid : UInt32 := 0
  deriving DecidableEq

def Spec.mountpoint (spec : Spec) : Mountpoint := ⟨spec.pid, spec.share⟩

structure Live where
  spec : Spec
  host : String
  cache : String
  cancelled : Bool := false
  prepared : Nat := 0
  deriving DecidableEq

/-- Where a Prepare is. A union is known by its place among those started. -/
inductive PreparePhase where
  | look
  | probe (existing : Nat)
  | enter (existing : Option Nat)
  | stampExisting (existing : Nat)
  | wait (channel : Nat)
  | mount
  | discardDead (dead : Nat)
  | start
  | waitReady (l : Nat)
  | chownUpper (l : Nat)
  | stamp (l : Nat)
  | discard (l : Nat)
  | unpend (merged : Option Mountpoint)
  | close (merged : Option Mountpoint)
  | answer (merged : Option Mountpoint)
  | answered
  deriving DecidableEq

structure PrepareCall where
  session : Nat
  spec : Spec
  host : String
  cache : String
  phase : PreparePhase := .look
  deriving DecidableEq

/-- Where a Release is: its first critical section, the question which unions containers
hold, the second critical section, and the unmounts. -/
inductive ReleaseCall where
  | first
  | collect (asked : Nat)
  | asking (asked : Nat) (hosts : List String) (shares held : Finset String)
  | second (asked : Nat) (held : Finset String)
  | unmounting (specs : List Spec)
  deriving DecidableEq

/-- The manager, what is mounted, and the calls made. `opened` are the sessions that
`sessions` counts, and `answers` the mountpoints those were answered with. -/
structure State where
  sessions : Nat := 0
  prepares : Nat := 0
  shares : AList (fun _ : String ↦ Nat) := ∅
  pending : AList (fun _ : String ↦ Nat) := ∅
  closed : Finset Nat := ∅
  unions : List Live := []
  mounted : Finset Mountpoint := ∅
  opened : Finset Nat := ∅
  answers : List (Nat × Mountpoint) := []
  preparing : List PrepareCall := []
  releasing : List ReleaseCall := []

namespace State

def remove (s : State) (k : String) (l : Nat) : State :=
  { s with shares := s.shares.erase k
           unions := s.unions.modify l fun u ↦ { u with cancelled := true } }

def discard (s : State) (k : String) (l : Nat) : State :=
  if s.shares.lookup k = some l then s.remove k l else s

/-- `start`, and the registration its caller makes under the same lock. -/
def start (s : State) (c : PrepareCall) : State :=
  { s with shares := s.shares.insert c.spec.share s.unions.length
           unions := s.unions ++ [{ spec := c.spec, host := c.host, cache := c.cache }] }

def stamp (s : State) (l : Nat) : State :=
  { s with prepares := s.prepares + 1
           unions := s.unions.modify l fun u ↦ { u with prepared := s.prepares + 1 } }

def alive (s : State) (mp : Mountpoint) (answers : Bool) : Bool := answers && mp ∈ s.mounted

def registered (s : State) : List Live := s.shares.entries.filterMap fun e ↦ s.unions[e.2]?

/-- The shares the second critical section of a Release takes: not prepared since it asked,
and held by no container. -/
def unused (s : State) (asked : Nat) (held : Finset String) : List (String × Nat × Spec) :=
  s.shares.entries.filterMap fun e ↦
    match s.unions[e.2]? with
    | some u =>
      if asked < u.prepared ∨ u.spec.share ∈ held then none else some (e.1, e.2, u.spec)
    | none => none

def setPrepare (s : State) (i : Nat) (c : PrepareCall) (phase : PreparePhase) : State :=
  { s with preparing := s.preparing.set i { c with phase := phase } }

def setRelease (s : State) (i : Nat) (r : ReleaseCall) : State :=
  { s with releasing := s.releasing.set i r }

end State

/-- What can happen to a Prepare: it goes on, hears an answer, or gives up waiting. -/
inductive PrepareEvent where
  | go
  | hear (ok : Bool)
  | giveUp
  deriving DecidableEq

def stepPrepare (s : State) (i : Nat) (c : PrepareCall) : PreparePhase → PrepareEvent → Option State
  | .look, .go =>
    match s.shares.lookup c.spec.share with
    | some l => some (s.setPrepare i c (.probe l))
    | none => some (s.setPrepare i c (.enter none))
  | .probe l, .hear ok =>
    match s.unions[l]? with
    | none => none
    | some u =>
      if s.alive u.spec.mountpoint ok then
        -- Another owner is refused: the mount is in use.
        if u.spec.uid ≠ c.spec.uid ∨ u.spec.gid ≠ c.spec.gid then
          some (s.setPrepare i c (.answer none))
        else some (s.setPrepare i c (.stampExisting l))
      else some (s.setPrepare i c (.enter (some l)))
  | .stampExisting l, .go =>
    match s.unions[l]? with
    | none => none
    | some u => some ((s.stamp l).setPrepare i c (.answer (some u.spec.mountpoint)))
  | .enter existing, .go =>
    match s.pending.lookup c.spec.share with
    | some channel => some (s.setPrepare i c (.wait channel))
    | none =>
      -- Another Prepare mounted the share and finished since it was looked at.
      if s.shares.lookup c.spec.share ≠ existing then some (s.setPrepare i c .look)
      else some ({ s with pending := s.pending.insert c.spec.share i }.setPrepare i c .mount)
  | .wait channel, .go => if channel ∈ s.closed then some (s.setPrepare i c .look) else none
  | .wait _, .giveUp => some (s.setPrepare i c (.answer none))
  | .mount, .go =>
    match s.shares.lookup c.spec.share with
    | some dead => some (s.setPrepare i c (.discardDead dead))
    | none => some (s.setPrepare i c .start)
  | .discardDead dead, .go => some ((s.discard c.spec.share dead).setPrepare i c .start)
  | .start, .go => some ((s.start c).setPrepare i c (.waitReady s.unions.length))
  | .waitReady l, .hear ok =>
    if s.alive c.spec.mountpoint ok then some (s.setPrepare i c (.chownUpper l)) else some s
  | .waitReady l, .giveUp => some (s.setPrepare i c (.discard l))
  | .chownUpper l, .hear ok => some (s.setPrepare i c (if ok then .stamp l else .discard l))
  | .stamp l, .go => some ((s.stamp l).setPrepare i c (.unpend (some c.spec.mountpoint)))
  | .discard l, .go => some ((s.discard c.spec.share l).setPrepare i c (.unpend none))
  | .unpend merged, .go =>
    some ({ s with pending := s.pending.erase c.spec.share }.setPrepare i c (.close merged))
  | .close merged, .go =>
    some ({ s with closed := insert i s.closed }.setPrepare i c (.answer merged))
  | .answer (some mp), .go =>
    -- An answer to a session that ended reaches nobody.
    some ({ s with answers := if c.session ∈ s.opened then (c.session, mp) :: s.answers
                              else s.answers }.setPrepare i c .answered)
  | .answer none, .go => some (s.setPrepare i c .answered)
  | _, _ => none

/-- What can happen to a Release: it takes the lock, hears from a daemon which paths its
containers have bound (or nothing), or unmounts one of the unions it took. -/
inductive ReleaseEvent where
  | go
  | hear (sources : Option (Finset String))
  | unmount (j : Nat) (ok : Bool)
  deriving DecidableEq

def stepRelease (s : State) (i : Nat) : ReleaseCall → ReleaseEvent → Option State
  | .first, .go =>
    some (s.setRelease i (if 0 < s.sessions then .unmounting [] else .collect s.prepares))
  | .collect asked, .go =>
    some (s.setRelease i (.asking asked (s.registered.map (·.host)).dedup
      (s.registered.map (·.spec.share)).toFinset ∅))
  | .asking asked (_ :: hosts) shares held, .hear (some sources) =>
    some (s.setRelease i (.asking asked hosts shares (held ∪ (sources ∩ shares))))
  -- On any doubt every union is held.
  | .asking asked (_ :: _) shares _, .hear none => some (s.setRelease i (.second asked shares))
  | .asking asked [] _ held, .go => some (s.setRelease i (.second asked held))
  | .second asked held, .go =>
    if 0 < s.sessions then some (s.setRelease i (.unmounting []))
    else
      let taken := s.unused asked held
      some ((taken.foldl (fun t e ↦ t.remove e.1 e.2.1) s).setRelease i
        (.unmounting (taken.map (·.2.2))))
  | .unmounting specs, .unmount j ok =>
    match specs[j]? with
    | none => none
    | some spec =>
      some ({ s with
          mounted := if ok then s.mounted.erase spec.mountpoint else s.mounted }.setRelease
        i (.unmounting (specs.eraseIdx j)))
  | _, _ => none

/-- What can happen. The child of any union started may come up, also of one cancelled since,
and what is mounted may go at any time. -/
inductive Event where
  | openSession (session : Nat)
  | endSession (session : Nat)
  | release
  | prepare (session : Nat) (spec : Spec) (host cache : String)
  | elsewhere
  | serve (l : Nat)
  | exit (mp : Mountpoint)
  | prepareStep (i : Nat) (e : PrepareEvent)
  | releaseStep (i : Nat) (e : ReleaseEvent)
  deriving DecidableEq

def step (s : State) : Event → Option State
  | .openSession session =>
    if session ∈ s.opened then none
    else some { s with sessions := s.sessions + 1, opened := insert session s.opened }
  | .endSession session =>
    -- The end of a session is also a Release.
    if session ∈ s.opened then
      some { s with sessions := s.sessions - 1
                    opened := s.opened.erase session
                    answers := s.answers.filter fun a ↦ a.1 ≠ session
                    releasing := s.releasing ++ [.first] }
    else none
  | .release => some { s with releasing := s.releasing ++ [.first] }
  | .prepare session spec host cache =>
    if session ∈ s.opened then
      some { s with preparing := s.preparing ++ [{ session, spec, host, cache }] }
    else none
  | .elsewhere => some { s with prepares := s.prepares + 1 }
  | .serve l =>
    match s.unions[l]? with
    | none => none
    | some u => some { s with mounted := insert u.spec.mountpoint s.mounted }
  | .exit mp => some { s with mounted := s.mounted.erase mp }
  | .prepareStep i e =>
    match s.preparing[i]? with
    | none => none
    | some c => stepPrepare s i c c.phase e
  | .releaseStep i e =>
    match s.releasing[i]? with
    | none => none
    | some r => stepRelease s i r e

def machine : Machine State Event := ⟨step⟩

/-- An agent that just started, with what an earlier one left mounted. -/
def State.fresh (mounted : Finset Mountpoint) : State := { mounted := mounted }

end RemoteDocker.Unions

import RemoteDocker.NfsServe.OneFile

/-!
# The cache of open files

`src/core-client/nfsserve/fdcache.go`. A file that is only read or written is opened once for its
name and shared by the requests that come close together. The map of names is under one lock, and
everything else is done outside it: opening, closing, the filesystem's own remove and rename. So a
call is a sequence of steps, each of them one locked region or one operation outside the lock, and
the calls' steps come in any order. A timer that is stopped may have fired already.

A file handed to one request is closed by that request alone, so that looking at its `closed` and
setting it is one step. Of a descriptor opened past the cache nothing is kept.
-/

namespace RemoteDocker.NfsServe.Descriptors

open Base Base.FilePath

/-- A descriptor the map has or had. -/
structure CachedFD where
  path : Path
  refs : Int
  timer : Option Nat := none
  deriving DecidableEq

/-- How far a request has come with a file it was handed. -/
inductive Use where
  | unclosed
  /-- `Close` has set `closed`, and is about to take the lock. -/
  | closed
  | released
  deriving DecidableEq

structure SharedFile where
  fd : Nat
  use : Use
  name : Path
  /-- The last change of the name that had taken effect when its `OpenFile` started. -/
  since : Nat
  deriving DecidableEq

inductive Work where
  /-- `evictTree`. -/
  | tree (name : Path)
  /-- `evict`. -/
  | evict (name : Path)
  /-- `evictEntry`. -/
  | entry (fd : Nat)
  /-- `cachedFD.close`. -/
  | shut (fd : Nat)
  deriving DecidableEq

inductive Call where
  /-- `OpenFile`, before it looks into the map. -/
  | look (name : Path) (since : Nat)
  /-- It has found nothing, and opens the file. -/
  | resolve (name : Path) (since : Nat)
  /-- It has opened the file, and looks again. -/
  | insert (name : Path) (since fd : Nat)
  /-- Something is evicted; then `Remove` or `Rename` changes these names. A call that has returned
  has nothing left to do. -/
  | evicting (work : List Work) (change : Option (List Path))
  deriving DecidableEq

def Call.returned : Call := .evicting [] none

/-- `fdCacheFS`, the descriptors and the calls. -/
structure State where
  /-- For each descriptor that was ever opened, how many changes had taken effect. -/
  opened : List Nat := []
  fds : AList fun _ : Nat ↦ CachedFD := ∅
  /-- `fdCacheFS.open`. -/
  names : AList fun _ : Path ↦ Nat := ∅
  /-- The timers that have neither fired nor been stopped. -/
  timers : AList fun _ : Nat ↦ Nat := ∅
  nextTimer : Nat := 0
  calls : AList fun _ : Nat ↦ Call := ∅
  /-- The file each call of `OpenFile` was answered with. -/
  files : AList fun _ : Nat ↦ SharedFile := ∅
  closed : List Nat := []
  /-- The changes that took effect, the last one first. -/
  changes : List (List Path) := []

/-- A change of these names changes what `name` means. -/
def covers (names : List Path) (name : Path) : Bool :=
  names.any fun n ↦ name = n || OneFile.Served.under n name

/-- The number of the last change that `name` was covered by. -/
def lastChange : List (List Path) → Path → Nat
  | [], _ => 0
  | names :: earlier, name =>
    if covers names name then earlier.length + 1 else lastChange earlier name

/-- `Timer.Stop`. -/
def stopped (timers : AList fun _ : Nat ↦ Nat) : Option Nat → AList fun _ : Nat ↦ Nat
  | none => timers
  | some timer => timers.erase timer

namespace State

variable (s : State)

def goes (call : Nat) (c : Call) : State := { s with calls := s.calls.insert call c }

/-- A descriptor that is in the map is handed out. Only the first look stops its timer. -/
def hit (fd : Nat) (e : CachedFD) (call : Nat) (name : Path) (since : Nat) (stop : Bool) : State :=
  { s with
    fds := s.fds.insert fd
      { e with refs := e.refs + 1, timer := if stop then none else e.timer }
    timers := if stop then stopped s.timers e.timer else s.timers
    files := s.files.insert call ⟨fd, .unclosed, name, since⟩ }

/-- A new descriptor is put into the map and handed out. -/
def store (fd : Nat) (call : Nat) (name : Path) (since : Nat) : State :=
  { s with
    fds := s.fds.insert fd { path := name, refs := 1 }
    names := s.names.insert name fd
    files := s.files.insert call ⟨fd, .unclosed, name, since⟩ }

/-- The locked region of `evictEntry` (`fdcache.go:194-209`). -/
def evictEntry (fd : Nat) (e : CachedFD) : State :=
  { s with
    names := if s.names.lookup e.path = some fd then s.names.erase e.path else s.names
    fds := s.fds.insert fd { e with timer := none }
    timers := stopped s.timers e.timer }

/-- A request is done with its file, whatever becomes of the descriptor. -/
def gaveBack (file : Nat) (f : SharedFile) : State :=
  { s with files := s.files.insert file { f with use := .released } }

def dropRef (fd : Nat) (e : CachedFD) : State :=
  { s with fds := s.fds.insert fd { e with refs := e.refs - 1 } }

/-- The idle timer of a descriptor. -/
def arm (fd : Nat) (e : CachedFD) : State :=
  { s with
    fds := s.fds.insert fd { e with timer := some s.nextTimer }
    timers := (stopped s.timers e.timer).insert s.nextTimer fd
    nextTimer := s.nextTimer + 1 }

/-- The locked region of `release`; a descriptor that is to be closed is closed by `call`. -/
def release (fd : Nat) (e : CachedFD) (call : Nat) : State :=
  if e.refs - 1 > 0 then s.dropRef fd e
  else if s.names.lookup e.path ≠ some fd then
    (s.dropRef fd e).goes call (.evicting [.shut fd] none)
  else (s.dropRef fd e).arm fd { e with refs := e.refs - 1 }

/-- The next step of a call. `ok` is whether the filesystem does what it is asked. -/
def take (max : Nat) (call : Nat) (ok : Bool) : Call → State
  | .look name since =>
    match s.names.lookup name with
    | some fd =>
      match s.fds.lookup fd with
      | none => s
      | some e => (s.goes call .returned).hit fd e call name since true
    | none =>
      if max ≤ s.names.keys.length then s.goes call .returned
      else s.goes call (.resolve name since)
  | .resolve name since =>
    if ok then
      { s with opened := s.opened ++ [s.changes.length] }.goes call
        (.insert name since s.opened.length)
    else s.goes call .returned
  | .insert name since fd =>
    match s.names.lookup name with
    | some other =>
      match s.fds.lookup other with
      | none => s
      | some e => (s.goes call (.evicting [.shut fd] none)).hit other e call name since false
    | none => (s.goes call .returned).store fd call name since
  | .evicting [] none => s
  | .evicting [] (some names) =>
    if ok then { s with changes := names :: s.changes }.goes call .returned
    else s.goes call .returned
  | .evicting (.tree name :: work) change =>
    let held := s.names.keys.filter fun path ↦ path = name || OneFile.Served.under name path
    s.goes call (.evicting (held.map .evict ++ work) change)
  | .evicting (.evict name :: work) change =>
    match s.names.lookup name with
    | none => s.goes call (.evicting work change)
    | some fd => s.goes call (.evicting (.entry fd :: work) change)
  | .evicting (.entry fd :: work) change =>
    match s.fds.lookup fd with
    | none => s
    | some e =>
      if e.refs > 0 then (s.evictEntry fd e).goes call (.evicting work change)
      else (s.evictEntry fd e).goes call (.evicting (.shut fd :: work) change)
  | .evicting (.shut fd :: work) change =>
    { s with closed := fd :: s.closed }.goes call (.evicting work change)

end State

inductive Request where
  | openFile (name : Path) (flags : OneFile.Flags)
  | remove (name : Path)
  | rename (source dest : Path)

/-- Where a call starts. What is created, truncated or appended to is evicted, and then opened past
the cache. -/
def Request.call (changes : List (List Path)) : Request → Call
  | .openFile name flags =>
    if flags.cacheable then .look name (lastChange changes name) else .evicting [.evict name] none
  | .remove name => .evicting [.tree name] (some [name])
  | .rename source dest => .evicting [.tree source, .tree dest] (some [source, dest])

/-- The flags of a file that is only read or written. -/
def plainFlags : OneFile.Flags := ⟨false, false, false, false⟩

inductive Event where
  | start (call : Nat) (req : Request)
  | take (call : Nat) (ok : Bool)
  /-- `sharedFile.Close`, before the lock. -/
  | close (file : Nat)
  /-- And its `release`. -/
  | release (file call : Nat)
  /-- A timer fires, and its `evictEntry` is a call of its own. -/
  | fire (timer call : Nat)

def step (max : Nat) (s : State) : Event → Option State
  | .start call req =>
    if call ∈ s.calls ∨ call ∈ s.files then none else some (s.goes call (req.call s.changes))
  | .take call ok => (s.calls.lookup call).map (s.take max call ok)
  | .close file =>
    (s.files.lookup file).map fun f ↦
      if f.use = .unclosed then { s with files := s.files.insert file { f with use := .closed } }
      else s
  | .release file call =>
    match s.files.lookup file with
    | none => none
    | some f =>
      if f.use = .closed ∧ call ∉ s.calls then
        (s.fds.lookup f.fd).map fun e ↦ (s.gaveBack file f).release f.fd e call
      else none
  | .fire timer call =>
    match s.timers.lookup timer with
    | none => none
    | some fd =>
      if call ∈ s.calls then none
      else some ({ s with timers := s.timers.erase timer }.goes call (.evicting [.entry fd] none))

def machine (max : Nat) : Machine State Event := ⟨step max⟩

/-- The descriptor an `OpenFile` has opened and the map does not know yet. -/
def Call.pends : Call → Option Nat
  | .insert _ _ fd => some fd
  | _ => none

def Call.shuts : Call → List Nat
  | .evicting work _ => work.filterMap fun | .shut fd => some fd | _ => none
  | _ => []

def Call.enters : Call → List Nat
  | .evicting work _ => work.filterMap fun | .entry fd => some fd | _ => none
  | _ => []

/-- An `OpenFile` that has not been answered. -/
def Call.opening : Call → Bool
  | .evicting _ _ => false
  | _ => true

/-- Some `OpenFile` has opened the descriptor and not yet looked again. -/
def State.Pending (s : State) (fd : Nat) : Prop :=
  ∃ call c, s.calls.lookup call = some c ∧ c.pends = some fd

def State.Shutting (s : State) (fd : Nat) : Prop :=
  ∃ call c, s.calls.lookup call = some c ∧ fd ∈ c.shuts

def SharedFile.holds (fd : Nat) (f : SharedFile) : Bool := f.fd = fd && f.use ≠ .released

/-- How many requests have not given a descriptor back. -/
def State.holders (s : State) (fd : Nat) : Nat := countTable (SharedFile.holds fd) s.files

end RemoteDocker.NfsServe.Descriptors

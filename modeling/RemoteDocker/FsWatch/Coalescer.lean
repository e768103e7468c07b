import RemoteDocker.Base.LeastFirst
import RemoteDocker.FsWatch.Watcher

/-!
# The coalescer

`src/core-client/fswatch/coalesce.go`. Events are merged for each path of an export and held until
the path is quiet; past the capacity only a count and a directory are kept for each export. A flush
takes out what is due, in the order it arrived, and a notice for each export that lost something.
-/

namespace RemoteDocker.FsWatch

open Base

structure PendingKey where
  exportPath : String
  path : SharePath
  deriving DecidableEq, Repr

structure PendingEvent where
  op : Op
  dir : Bool
  seq : Nat
  first : Int
  last : Int
  deriving DecidableEq, Repr

/-- How much of an export, and a directory above all of it. -/
structure Lost where
  count : Nat
  dir : SharePath
  deriving DecidableEq, Repr

inductive Reason where
  | overflow
  | disconnected
  deriving DecidableEq, Repr

structure Notice where
  exportPath : String
  path : SharePath
  dropped : Nat
  reason : Reason
  deriving DecidableEq, Repr

/-- `coalescer`, by whatever clock. -/
structure Coalescer where
  debounce : Int := 40000000
  maxDelay : Int := 250000000
  cap : Nat := 8192
  pending : AList fun _ : PendingKey ↦ PendingEvent := ∅
  lost : AList fun _ : String ↦ Lost := ∅
  seq : Nat := 0

/-- A removal and a creation do not add up, the later one stands. -/
def mergeOps (held add : Op) : Op :=
  if add.remove || add.rename then
    { create := add.create
      write := add.write
      remove := held.remove || add.remove
      rename := held.rename || add.rename
      attrib := held.attrib || add.attrib }
  else if add.create || add.write then
    { create := held.create || add.create
      write := held.write || add.write
      remove := add.remove
      rename := add.rename
      attrib := held.attrib || add.attrib }
  else { held with attrib := held.attrib || add.attrib }

/-- The deepest directory above both. -/
def commonDir : SharePath → SharePath → SharePath
  | a :: as, b :: bs => if a = b then a :: commonDir as bs else []
  | _, _ => []

namespace Coalescer

variable (c : Coalescer)

/-- `overflow`: `n` more events of an export, all under `dir`, were lost. -/
def overflow (exportPath : String) (dir : SharePath) (n : Nat) : Coalescer :=
  match c.lost.lookup exportPath with
  | none => { c with lost := c.lost.insert exportPath ⟨n, dir⟩ }
  | some l => { c with lost := c.lost.insert exportPath ⟨l.count + n, commonDir l.dir dir⟩ }

def drop (exportPath : String) (p : SharePath) : Coalescer := c.overflow exportPath p.dropLast 1

/-- Merges one event into the pending ones. -/
def add (now : Int) (e : Event) : Coalescer :=
  let key : PendingKey := ⟨e.exportPath, e.path⟩
  match c.pending.lookup key with
  | some p =>
    { c with pending := c.pending.insert key
              { p with op := mergeOps p.op e.op, dir := p.dir || e.dir, last := now } }
  | none =>
    if c.cap ≤ c.pending.entries.length then c.drop e.exportPath e.path
    else
      { c with seq := c.seq + 1
               pending := c.pending.insert key ⟨e.op, e.dir, c.seq + 1, now, now⟩ }

def due (now : Int) (p : PendingEvent) : Bool :=
  c.debounce ≤ now - p.last || c.maxDelay ≤ now - p.first

def reported (k : PendingKey) (p : PendingEvent) : Event := ⟨k.exportPath, k.path, p.op, p.dir⟩

/-- The entries that are due, in the order they arrived. -/
def ready (now : Int) : List (Sigma fun _ : PendingKey ↦ PendingEvent) :=
  leastFirst (·.2.seq) (c.pending.entries.filter fun r ↦ c.due now r.2)

def notices : List Notice :=
  (c.lost.keys.insertionSort (· ≤ ·)).filterMap fun x ↦
    (c.lost.lookup x).map fun l ↦ ⟨x, l.dir, l.count, .overflow⟩

def flush (now : Int) : Coalescer × List Event × List Notice :=
  ({ c with pending := (c.ready now).foldl (fun m r ↦ m.erase r.1) c.pending
            lost := ∅ },
    (c.ready now).map fun r ↦ reported r.1 r.2,
    c.notices)

end Coalescer

end RemoteDocker.FsWatch

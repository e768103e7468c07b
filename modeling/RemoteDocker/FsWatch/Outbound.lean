import RemoteDocker.FsWatch.Coalescer
import RemoteDocker.Workspace.Export

/-!
# From the coalescer to the sink

`process`, `emit`, `queue`, `send` and `takeDisconnected`
(`src/core-client/fswatch/watch.go:305-554`), with `notifySink.Send`
(`src/client/internal/session/notify.go`). One goroutine flushes and queues, another takes frames
from the queue and sends them; a sink is attached and detached at any time. What was taken out of
the coalescer and what became of each frame is kept beside the state.

When the timer fires is left open, and so is which order the tally is gone through in. The length
of a frame's JSON is any function of it.
-/

namespace RemoteDocker.FsWatch

open Base Workspace

/-- `notify.Frame`, as the watcher sends it. -/
inductive Frame where
  | events (es : List Event)
  | notice (n : Notice)
  deriving DecidableEq, Repr

def Frame.changes : Frame → List Event
  | .events es => es
  | .notice _ => []

/-- `Event.Validate`. -/
def Event.valid (e : Event) : Bool :=
  validExport e.exportPath && validSharePath e.path && e.op != {}

inductive Cause where
  /-- `emit` found its events malformed. -/
  | invalid
  | queueFull
  /-- There was no sink. -/
  | disconnected
  | sendFailed
  deriving DecidableEq, Repr

inductive Entry where
  | sent (frame : Frame)
  | discarded (frame : Frame) (cause : Cause)
  deriving DecidableEq, Repr

structure Outbound.Config where
  queueLen : Nat := 256
  /-- The length of a frame's JSON. -/
  size : Frame → Nat

def maxFrame : Nat := 1048576

/-- `send` on its way through one frame: the sink it read, and what it announces first. -/
structure Sending where
  sink : Nat
  pending : List Notice
  frame : Frame
  deriving DecidableEq, Repr

structure Outbound where
  coalescer : Coalescer := {}
  /-- What `emit` has yet to queue. -/
  emitting : Option (List Notice × List Event) := none
  queue : List Frame := []
  sink : Option Nat := none
  sending : Option Sending := none
  disconnected : AList fun _ : String ↦ Nat := ∅
  closing : Bool := false
  /-- `process` has returned. -/
  processEnded : Bool := false
  /-- `send` has returned. -/
  sendEnded : Bool := false
  /-- What was taken out of the coalescer. -/
  taken : List Event := []
  /-- What became of the frames, newest first. -/
  history : List Entry := []

namespace Outbound

variable (cfg : Config) (s : Outbound)

def note (entry : Entry) : Outbound := { s with history := entry :: s.history }

/-- `queue`: a frame the queue has no room for is dropped. -/
def enqueue (frame : Frame) : Outbound :=
  if s.queue.length < cfg.queueLen then { s with queue := s.queue ++ [frame] }
  else s.note (.discarded frame .queueFull)

/-- The timer fires: the coalescer is flushed, and `emit` begins. -/
def tick (now : Int) : Outbound :=
  let (c, events, notices) := s.coalescer.flush now
  { s with coalescer := c
           emitting := some (notices, events)
           taken := s.taken ++ events }

/-- `emit` leaves out the events that are malformed. -/
def leaveOut (events : List Event) : Outbound :=
  if events = [] then s else s.note (.discarded (.events events) .invalid)

/-- `emit` queues the next notice, or the events that are well formed. -/
def emit : List Notice × List Event → Outbound
  | (n :: notices, events) =>
    { s with emitting := some (notices, events) }.enqueue cfg (.notice n)
  | ([], events) =>
    let s' := { s with emitting := none }.leaveOut (events.filter (!·.valid))
    let kept := events.filter (·.valid)
    if kept = [] then s' else s'.enqueue cfg (.events kept)

def tally (m : AList fun _ : String ↦ Nat) (events : List Event) : AList fun _ : String ↦ Nat :=
  events.foldl (fun m e ↦ m.insert e.exportPath ((m.lookup e.exportPath).getD 0 + 1)) m

def takeDisconnected : List Notice :=
  s.disconnected.entries.map fun e ↦ ⟨e.1, [], e.2, .disconnected⟩

/-- `send` takes a frame from the queue. Without a sink its events are tallied; with one, what was
tallied is to be announced first, in some order. -/
def receive (order : List Notice) : Option Outbound :=
  match s.queue with
  | [] => none
  | frame :: rest =>
    match s.sink with
    | none =>
      some ({ s with queue := rest, disconnected := tally s.disconnected frame.changes }.note
        (.discarded frame .disconnected))
    | some sink =>
      if order.isPerm s.takeDisconnected then
        some { s with queue := rest, disconnected := ∅, sending := some ⟨sink, order, frame⟩ }
      else none

/-- `notifySink.Send`: a frame too long for the agent is not sent. -/
def attempt (frame : Frame) (ok : Bool) : Entry :=
  if cfg.size frame + 1 ≤ maxFrame ∧ ok = true then .sent frame else .discarded frame .sendFailed

/-- `send` sends the next notice, or the frame. -/
def deliver (ok : Bool) : Option Outbound :=
  match s.sending with
  | none => none
  | some ⟨sink, n :: pending, frame⟩ =>
    some ({ s with sending := some ⟨sink, pending, frame⟩ }.note (attempt cfg (.notice n) ok))
  | some ⟨_, [], frame⟩ => some ({ s with sending := none }.note (attempt cfg frame ok))

inductive Event where
  /-- An event of a share gets to the coalescer. -/
  | add (now : Int) (e : FsWatch.Event)
  /-- Events were lost before any share could be named, of whichever of these exports. -/
  | missed (exports : List String)
  | tick (now : Int)
  | emit
  | setSink (sink : Option Nat)
  | receive (order : List Notice)
  /-- The sink takes a frame or not. -/
  | deliver (ok : Bool)
  | close
  | endProcess
  | endSend

def step : Event → Option Outbound
  | .add now e =>
    if s.processEnded ∨ s.emitting.isSome then none
    else some { s with coalescer := s.coalescer.add now e }
  | .missed exports =>
    if s.processEnded ∨ s.emitting.isSome then none
    else some { s with coalescer := exports.foldl (fun c x ↦ c.overflow x [] 0) s.coalescer }
  | .tick now => if s.processEnded ∨ s.emitting.isSome then none else some (s.tick now)
  | .emit => s.emitting.map (s.emit cfg)
  | .setSink sink => some { s with sink }
  | .receive order => if s.sendEnded ∨ s.sending.isSome then none else s.receive order
  | .deliver ok => s.deliver cfg ok
  | .close => some { s with closing := true }
  | .endProcess =>
    if s.closing = true ∧ s.emitting = none then some { s with processEnded := true } else none
  | .endSend =>
    if s.closing = true ∧ s.sending = none then some { s with sendEnded := true } else none

def machine : Machine Outbound Event := ⟨step cfg⟩

end Outbound

end RemoteDocker.FsWatch

import RemoteDocker.Base.Frames
import RemoteDocker.Base.Machine

/-!
# The cache channel

The client's `do` and `exchange` (`src/client/internal/session/cache.go:238-328`) and the agent's
`serveCache` and `applyCache` (`src/agent/internal/sshd/cache.go:78-216`), over one stream in each
direction. Requests and replies are lines, some of them with a payload after them, and nothing on
the stream says which is which.

One exchange has the turn at a time. The client writes and then reads, the agent reads and then
writes, each no further than what has come allows; so an exchange is what the agent makes of all
that was written, and what the client reads of all that was answered. What a request or a reply
holds besides its op, its error and the length of its payload decides nothing here and is left open,
and so is whether its JSON is read back as it was.
-/

namespace RemoteDocker.Channel

open Base Base.Frames

inductive Op where
  | prepare
  | apply
  | drop
  | changes
  | pull
  | present
  | mounted
  deriving DecidableEq, Repr

/-- `cache.Request` (`src/core/cache/cache.go:132-189`). -/
structure Request (F : Type) where
  op : Op
  bytes : Nat := 0
  fields : F
  deriving DecidableEq

/-- `cache.Reply`, without the payload, and with no error where `Err` is empty. -/
structure Reply (E G : Type) where
  err : Option E := none
  bytes : Nat := 0
  fields : G
  deriving DecidableEq

variable {F E G : Type}

/-- What follows the line of a request: only an apply has a payload. -/
def Request.size (r : Request F) : Nat := if r.op = .apply then r.bytes else 0

def Reply.size (r : Reply E G) : Nat := r.bytes

/-- A request with its body, as `do` is called. -/
abbrev Call (F : Type) := Message (H := Request F) Request.size

abbrev Answer (E G : Type) := Message (H := Reply E G) Reply.size

/-- The JSON of requests and replies, each of them a line. -/
structure Codec (F E G : Type) where
  requests : Lines (Request F)
  replies : Lines (Reply E G)
  /-- What a line that is no request is answered with. -/
  malformed : E
  /-- A reply's other fields where none is set. -/
  bare : G

def maxFrame : Nat := 1048576

inductive Outcome (E G : Type) where
  | refused (err : E) (fields : G)
  | answered (fields : G)
  /-- A pull, with what it read. -/
  | pulled (fields : G) (payload : List UInt8)
  deriving DecidableEq

def Outcome.answer : Outcome E G → Answer E G
  | .refused err fields => ⟨{ err := some err, fields }, [], rfl⟩
  | .answered fields => ⟨{ fields }, [], rfl⟩
  | .pulled fields payload => ⟨{ bytes := payload.length, fields }, payload, rfl⟩

/-- What becomes of a request on the agent: whether `Validate` refuses it or its op does, and how
much of a payload `Apply` reads itself before it returns or its decoder ends. -/
structure Work (E G : Type) where
  read : Nat := 0
  outcome : Outcome E G

/-- What the agent decoded, if it did, and its answer. -/
abbrev Served (F E G : Type) := Option (Request F) × Answer E G

section

variable (c : Codec F E G) (work : Request F → Work E G)

/-- `applyCache`: the payload of an apply is read whatever the outcome, and what `Apply` leaves of
it is discarded. -/
def applyCache (req : Request F) (body : List UInt8) : Answer E G × List UInt8 :=
  let w := work req
  (w.outcome.answer,
    if req.op = .apply then (body.drop (min w.read req.bytes)).drop (req.bytes - w.read) else body)

/-- One turn of the loop of `serveCache`, if there is a line. -/
def serveOne (up : List UInt8) : Option (Served F E G × List UInt8) :=
  match line up with
  | none => none
  | some (text, rest) =>
    match c.requests.decode text with
    | none => some ((none, (Outcome.refused c.malformed c.bare).answer), rest)
    | some req =>
      let answered := applyCache work req rest
      some ((some req, answered.1), answered.2)

/-- `serveCache` on what has come, for so many turns at most. -/
def serveCache : Nat → List UInt8 → List (Served F E G) × List UInt8
  | 0, up => ([], up)
  | turns + 1, up =>
    match serveOne c work up with
    | none => ([], up)
    | some (served, rest) =>
      let more := serveCache turns rest
      (served :: more.1, more.2)

/-- What `exchange` reads of an answer: all of it, a line that is none, or not enough. -/
inductive Heard (E G : Type) where
  | got (answer : Answer E G) (rest : List UInt8)
  | garbled (rest : List UInt8)
  | short

def hear (down : List UInt8) : Heard E G :=
  match line down with
  | none => .short
  | some (text, rest) =>
    match c.replies.decode text with
    | none => .garbled rest
    | some reply =>
      if h : reply.size ≤ rest.length then
        .got ⟨reply, rest.take reply.size, List.length_take_of_le h⟩ (rest.drop reply.size)
      else .short

end

structure State (F E G : Type) where
  /-- The requests that were sent, or some of them. -/
  begun : List (Call F) := []
  /-- What the exchanges that came to an answer read. -/
  results : List (Call F × Answer E G) := []
  dead : Bool := false
  closed : Bool := false
  /-- What was sent and not read yet, to the agent and to the client. -/
  up : List UInt8 := []
  down : List UInt8 := []
  /-- The requests the agent decoded. -/
  decoded : List (Request F) := []
  /-- The agent read a line that is no request. -/
  garbled : Bool := false
  /-- The agent's answers. -/
  answered : List (Answer E G) := []

namespace State

variable (c : Codec F E G) (s : State F E G) (call : Call F) (work : Request F → Work E G)

/-- The agent gets so many bytes more. A line is a byte at least, so it does not stop before it has
to. -/
def serve (bytes : List UInt8) : State F E G :=
  let served := serveCache c work (s.up ++ bytes).length (s.up ++ bytes)
  { s with
    up := served.2
    decoded := s.decoded ++ served.1.filterMap (·.1)
    garbled := s.garbled || served.1.any (·.1.isNone)
    answered := s.answered ++ served.1.map (·.2)
    down := s.down ++ served.1.flatMap fun a ↦ c.replies.frame a.2 }

/-- `exchange` on an open stream. Where `lost` says so, so much of the request arrives, the stream
breaks or the exchange takes too long, and no whole answer comes. -/
def send (lost : Option Nat) : State F E G :=
  let begun := s.begun ++ [call]
  match lost with
  | some n =>
    { ({ s with begun }).serve c work ((c.requests.frame call).take n) with
      dead := true, closed := true }
  | none =>
    let s := ({ s with begun }).serve c work (c.requests.frame call)
    match hear c s.down with
    | .got answer down => { s with results := s.results ++ [(call, answer)], down }
    | .garbled down => { s with dead := true, down }
    | .short => { s with dead := true, closed := true }

/-- `do` has the turn. It does not look at `dead`: its caller did, before it waited
(`src/client/internal/session/conn.go:278`). A request too long to send is not sent. -/
def take (lost : Option Nat) : State F E G :=
  if (c.requests.encode call.header).length + 1 > maxFrame ∨ s.closed then { s with dead := true }
  else s.send c call work lost

end State

inductive Event (F E G : Type) where
  /-- A call of `do` gets the turn. -/
  | take (call : Call F) (work : Request F → Work E G) (lost : Option Nat)
  /-- The channel is closed from elsewhere. -/
  | close
  /-- The stream breaks. -/
  | cut

def step (c : Codec F E G) (s : State F E G) : Event F E G → Option (State F E G)
  | .take call work lost => some (s.take c call work lost)
  | .close => some { s with dead := true, closed := true }
  | .cut => some { s with closed := true }

/-- A request fits a line, and it and its answer are read as they were written. -/
def careful (c : Codec F E G) (_ : State F E G) : Event F E G → Prop
  | .take call work _ =>
    (c.requests.encode call.header).length + 1 ≤ maxFrame ∧ c.requests.Whole call.header ∧
      c.replies.Whole (work call.header).outcome.answer.header
  | .close | .cut => True

instance [DecidableEq F] [DecidableEq E] [DecidableEq G] (c : Codec F E G) (s : State F E G)
    (e : Event F E G) : Decidable (careful c s e) :=
  match e with
  | .take .. => inferInstanceAs (Decidable (_ ∧ _))
  | .close | .cut => isTrue True.intro

def machine (c : Codec F E G) : Machine (State F E G) (Event F E G) := ⟨step c⟩

end RemoteDocker.Channel

import RemoteDocker.Base.Machine
import RemoteDocker.DirCache.Sending
import RemoteDocker.DirCache.Shares

/-!
# One path between this machine and the union

Everything that reads or writes one path of a share the consumer never changes: the file
here, the watcher's queue and flushes (`src/dircache/invalidate.go:70-222`), fill batches
and reconciles (`src/dircache/cache.go:292-388`), write-back rounds
(`src/dircache/writeback.go:219-336`) and the union's layer
(`src/agent/internal/unions/write.go:30-77,292-332`). A call to the union takes effect at
any time after it was issued, also when its caller is gone: each call is a task with one
event for each thing that happens to it, and the interleavings are the lists of events.

What a share does about its other paths never reads this one: their changes are handed to
a round with its own (`Elsewhere`), and their records move by one event. A path set aside
is left in the changes a round decides on, which only decides more. Directories above the
path stay where they are.
-/

namespace RemoteDocker.DirCache.OnePath

open Base

/-- The path, the workspace's clock less this machine's, and the share's execute bits. -/
structure Setting where
  p : SharePath
  off : Int
  exec : UInt32

/-- The path in the union's cache layer. What the consumer never changed is clear, or what
this machine applied or dropped, or a file an Apply left without noting it as applied. -/
inductive Layer where
  | clear
  | ours (read : Read)
  | whiteout (since : Int)
  | unnoted (size modTime since : Int)
  deriving DecidableEq

/-- A call to the union that its caller no longer waits for. -/
inductive Request where
  | drop
  | apply (read : Read)
  deriving DecidableEq

/-- What an Apply leaves of a file (`src/agent/internal/unions/write.go:139-269`): it lands, is not
written at all, is made and taken out again through the merged mount, which is a whiteout, or is
left half written or without its record; the last of these is not `skipped` in the answer. -/
inductive Left where
  | whole
  | nothing
  | removed
  | unnoted (size modTime : Int) (skipped : Bool)
  deriving DecidableEq

/-- A drop or a send of the path, by how far it has come. -/
inductive Task where
  | dropLooked
  | dropIssued
  | dropEffective
  | sendAsking (fill : Bool)
  | sendAsked (fill : Bool) (answer : Except String (List Change))
  | sendRecorded
  | sendIssued (read : Option Read)
  | sendEffective (applied : Applied)
  | sendNoted

/-- Changes, or deletions they imply, of other paths. -/
def Elsewhere (p : SharePath) := { changes : List Change // ∀ ch ∈ changes, ch.path ≠ p }

/-- A round by how far it has come. `layer` is the path as the union had it when the round asked. -/
inductive Round (p : SharePath) where
  | idle
  | begun (recorded : Finset SharePath)
  | told (recorded : Finset SharePath) (before after : Elsewhere p) (layer : Layer)
  | ready (recorded : Finset SharePath) (manifest : Manifest) (before after : Elsewhere p)
      (layer : Layer)
  | passing (actions : List Action)

/-- The path, the tasks on it and the share's bookkeeping. `saved` is the record on disk,
`events` what the watcher has yet to report (true for a removal), `late` the calls nobody
waits for, `emitted` and `carried` what rounds decided and passes did so far. -/
structure State (p : SharePath) where
  now : Int
  disk : Option Here
  layer : Layer := .clear
  share : Share := {}
  saved : Share := {}
  events : List Bool := []
  pending : Option Bool := none
  tasks : List Task := []
  late : List Request := []
  remembered : Option (List Change) := none
  round : Round p := .idle
  emitted : List Action := []
  carried : List Action := []

/-- The link as measured, and whether change times can be read here. -/
structure Measure where
  skew : Int
  margin : Int
  readable : Bool := true

inductive TaskEvent where
  | ask (cached failed : Bool)
  | filter (m : Measure)
  | issue
  | effect (left : Left)
  | answer
  | save
  | fail (late : Bool)

inductive RoundEvent (p : SharePath) where
  | begin
  | ask (before after : Elsewhere p)
  | snapshot
  | decide (m : Measure) (localAt : SharePath → Option FileInfo)
      (ctimeAt : SharePath → Option Int) (implied : Elsewhere p)
  | carry (a : Action) (info : FileInfo)
  | finish

/-- What can happen. The index is of the task, or of the late call, it happens to. -/
inductive Event (p : SharePath) where
  | tick (d : Nat)
  | put (info : FileInfo)
  | delete
  | observe
  | flush
  | reconcile
  | fill
  | task (i : Nat) (e : TaskEvent)
  | lateEffect (i : Nat) (left : Left)
  | restart
  | elsewhere (share saved : Share)
  | round (e : RoundEvent p)

/-- What `Changes` lists of the path. A file noted as applied is not listed (`isApplied`). -/
def listed (p : SharePath) : Layer → List Change
  | .clear | .ours _ => []
  | .whiteout since => [{ path := p, deleted := true, changed := since }]
  | .unnoted size modTime since => [{ path := p, size, modTime, changed := since }]

namespace Layer

/-- The time of the whiteout, where there is one. -/
def gone : Layer → Option Int
  | whiteout t => some t
  | _ => none

def isUnnoted : Layer → Bool
  | unnoted .. => true
  | _ => false

end Layer

variable (c : Setting)

/-- What a decision about the path reads; `localAt` and `ctimeAt` answer for the others. -/
def deciding (s : State c.p) (recorded : Finset SharePath) (manifest : Manifest) (m : Measure)
    (localAt : SharePath → Option FileInfo) (ctimeAt : SharePath → Option Int) : Deciding where
  manifest := manifest
  recorded := recorded
  localAt := fun q ↦ if q = c.p then s.disk.map (·.info) else localAt q
  ctimeAt := fun q ↦
    if q = c.p then (if m.readable then s.disk.map (·.ctime) else none) else ctimeAt q
  skew := m.skew
  margin := m.margin
  exec := c.exec

/-- Whether a send whose answer came back goes on: the fill's filter, or an invalidation's. -/
def sendable (s : State c.p) (m : Measure) (fill : Bool) (answer : Except String (List Change)) :
    Bool :=
  let d := deciding c s s.share.recorded s.share.manifest m (fun _ ↦ none) (fun _ ↦ none)
  let entry : Entry := { path := c.p, size := (s.disk.map (·.info.size)).getD 0 }
  if fill then
    match d.withoutConsumerChanges false answer [entry] with
    | .error _ => false
    | .ok sent => entry ∈ sent
  else entry ∈ d.withoutLaterConsumerChanges false answer [entry]

/-- `Cache.editRecord` saves an edited record when it changed. -/
def savedAfter (s : State c.p) (share : Share) : Share :=
  if share.recorded = s.share.recorded then s.saved else share

/-- `Cache.editRecord` of the path (`cache.go:531-537`). -/
def editRecord (s : State c.p) (add : Bool) : State c.p :=
  let share := s.share.editRecord {c.p} add
  { s with share := share, saved := savedAfter c s share }

/-- The file as a Store reads it; one it cannot open is left out. -/
def readHere (s : State c.p) : Option Read :=
  match s.disk with
  | some f =>
    if f.info.isDir then none
    else some { path := c.p, size := f.info.size, modTime := f.info.modTime }
  | none => none

def takeEffect (s : State c.p) : Request → Left → State c.p
  | .drop, _ | .apply _, .removed => { s with layer := .whiteout (s.now + c.off) }
  | .apply read, .whole => { s with layer := .ours read }
  | .apply _, .nothing => s
  | .apply _, .unnoted size modTime _ => { s with layer := .unnoted size modTime (s.now + c.off) }

/-- What the union answers to an Apply. -/
def Left.answer (read : Read) : Left → Applied
  | .whole | .unnoted _ _ false => { read := [read] }
  | .nothing | .removed | .unnoted _ _ true => { read := [read], skipped := [c.p] }

/-- What a task that ends early leaves behind: its call, if it had issued one. -/
def Task.request : Task → Option Request
  | dropIssued => some .drop
  | sendIssued (some read) => some (.apply read)
  | _ => none

def stepTask (s : State c.p) (i : Nat) (t : Task) : TaskEvent → Option (State c.p)
  | .ask cached failed =>
    match t with
    | .sendAsking fill =>
      -- An answer less than two seconds old is used again by the fill, never by an
      -- invalidation.
      match if fill && cached then s.remembered else none with
      | some changes => some { s with tasks := s.tasks.set i (.sendAsked fill (.ok changes)) }
      | none =>
        if failed then some { s with tasks := s.tasks.set i (.sendAsked fill (.error "")) }
        else
          let changes := listed c.p s.layer
          some { s with tasks := s.tasks.set i (.sendAsked fill (.ok changes))
                        remembered := some changes }
    | _ => none
  | .filter m =>
    match t with
    | .sendAsked fill answer =>
      if sendable c s m fill answer then
        some { editRecord c s true with tasks := s.tasks.set i .sendRecorded }
      else some { s with tasks := s.tasks.eraseIdx i }
    | _ => none
  | .issue =>
    match t with
    | .dropLooked => some { s with tasks := s.tasks.set i .dropIssued }
    | .sendRecorded => some { s with tasks := s.tasks.set i (.sendIssued (readHere c s)) }
    | _ => none
  | .effect left =>
    match t with
    | .dropIssued => some { takeEffect c s .drop left with tasks := s.tasks.set i .dropEffective }
    | .sendIssued none => some { s with tasks := s.tasks.set i (.sendEffective {}) }
    | .sendIssued (some read) =>
      some { takeEffect c s (.apply read) left with
             tasks := s.tasks.set i (.sendEffective (left.answer c read)) }
    | _ => none
  | .answer =>
    match t with
    | .dropEffective => some { editRecord c s false with tasks := s.tasks.eraseIdx i }
    | .sendEffective applied =>
      -- What is not ours is taken out of the record, and that saved, before the rest is noted.
      let unrecorded := s.share.editRecord (applied.skipped ++ applied.kept).toFinset false
      some { s with share := s.share.noteApplied applied
                    saved := savedAfter c s unrecorded
                    tasks := s.tasks.set i .sendNoted }
    | _ => none
  | .save =>
    match t with
    | .sendNoted => some { s with saved := s.share, tasks := s.tasks.eraseIdx i }
    | _ => none
  | .fail late =>
    some { s with tasks := s.tasks.eraseIdx i
                  late := s.late ++ if late then t.request.toList else [] }

def stepRound (s : State c.p) : RoundEvent c.p → Option (State c.p)
  | .begin =>
    match s.round with
    | .idle => some { s with round := .begun s.share.recorded }
    | _ => none
  | .ask before after =>
    match s.round with
    | .begun recorded =>
      some { s with round := .told recorded before after s.layer
                    remembered := some (listed c.p s.layer) }
    | _ => none
  | .snapshot =>
    match s.round with
    | .told recorded before after layer =>
      some { s with round := .ready recorded s.share.manifest before after layer }
    | _ => none
  | .decide m localAt ctimeAt implied =>
    match s.round with
    | .ready recorded manifest before after layer =>
      let d := deciding c s recorded manifest m localAt ctimeAt
      let actions := d.decide (before.1 ++ listed c.p layer ++ after.1 ++ implied.1)
      some { s with round := .passing actions, emitted := s.emitted ++ actions }
    | _ => none
  | .carry a info =>
    match s.round with
    | .passing actions =>
      if a ∈ actions ∧ a.path = c.p ∧ a.takes = true ∧
          stillAsSeen a.seen s.disk.isSome (s.disk.map (·.info)) (s.disk.map (·.ctime)) then
        some { s with disk := if a.kind = .delete then none else some ⟨info, s.now⟩
                      carried := s.carried ++ [a] }
      else none
    | _ => none
  | .finish => some { s with round := .idle }

def step (s : State c.p) (e : Event c.p) : Option (State c.p) :=
  match e with
  | .tick d => some { s with now := s.now + d }
  | .put info => some { s with disk := some ⟨info, s.now⟩, events := s.events ++ [false] }
  | .delete =>
    if s.disk.isSome then some { s with disk := none, events := s.events ++ [true] } else none
  | .observe =>
    match s.events with
    | [] => none
    | gone :: events => some { s with events := events, pending := some gone }
  | .flush =>
    match s.pending with
    | none => none
    | some true => some { s with pending := none, tasks := s.tasks ++ [.dropLooked] }
    | some false => some { s with pending := none, tasks := s.tasks ++ [.sendAsking false] }
  | .reconcile =>
    if c.p ∈ s.share.recorded ∧ s.disk = none then
      some { s with tasks := s.tasks ++ [.dropLooked] }
    else none
  | .fill => some { s with tasks := s.tasks ++ [.sendAsking true] }
  | .lateEffect i left =>
    match s.late[i]? with
    | none => none
    | some r => some { takeEffect c s r left with late := s.late.eraseIdx i }
  | .restart =>
    some { s with share := s.saved.reload, events := [], pending := none, tasks := []
                  late := s.late ++ s.tasks.filterMap Task.request
                  remembered := none, round := .idle }
  | .elsewhere share saved =>
    if share.manifest.lookup c.p = s.share.manifest.lookup c.p ∧
        (c.p ∈ share.recorded ↔ c.p ∈ s.share.recorded) ∧
        saved.manifest.lookup c.p = s.saved.manifest.lookup c.p ∧
        (c.p ∈ saved.recorded ↔ c.p ∈ s.saved.recorded) then
      some { s with share := share, saved := saved }
    else none
  | .task i e =>
    match s.tasks[i]? with
    | none => none
    | some t => stepTask c s i t e
  | .round e => stepRound c s e

def machine : Machine (State c.p) (Event c.p) := ⟨step c⟩

end RemoteDocker.DirCache.OnePath

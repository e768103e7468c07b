import Mathlib.Data.List.AList
import Mathlib.Data.Finset.Basic
import RemoteDocker.Base.Clock
import RemoteDocker.Base.SharePath

/-!
# The vocabulary of the directory cache

What the consumer did (`src/dircache/types.go`), what the fill sent, what this machine
has at a path and what is decided about it (`src/dircache/decide.go:35-211`,
`src/dircache/replace.go:70-93`). Optional results carry the presence the source keeps
in a second boolean: `none` is a path that is not there, or a time that is not known.
-/

namespace RemoteDocker.DirCache

open Base

/-- What this machine reads about a path: `fs.FileInfo` as the cache uses it. -/
structure FileInfo where
  size : Int
  modTime : Int
  mode : UInt32 := 0o644
  isDir : Bool := false
  deriving DecidableEq, Repr

/-- A file as this machine has it: what a stat reads, and its change time, which moves with
every change and no tool sets back. -/
structure Here where
  info : FileInfo
  ctime : Int
  deriving DecidableEq, Repr

/-- One thing the consumer did to its copy of a share, `Change`. `modTime` and `changed`
are on the consumer's clock, and a zero `changed` is not known. -/
structure Change where
  path : SharePath
  size : Int := 0
  modTime : Int := 0
  deleted : Bool := false
  isOpaque : Bool := false
  link : String := ""
  changed : Int := 0
  dir : Bool := false
  mode : UInt32 := 0
  deriving DecidableEq, Repr

/-- One file a prefetch may send, `Entry`. -/
structure Entry where
  path : SharePath
  size : Int := 0
  deriving DecidableEq, Repr

/-- What the fill sent for one path: the size and modification time it had on this machine.
`consumer` is the consumer's modification time of a version carried back from it, zero for what the
fill sent. -/
structure Baseline where
  size : Int
  modTime : Int
  consumer : Int := 0
  deriving DecidableEq, Repr

/-- `shares.manifests` of one share. -/
abbrev Manifest := AList fun _ : SharePath ↦ Baseline

inductive Kind where
  | write
  | delete
  | conflict
  | link
  | mkdir
  | chmod
  | adopt
  deriving DecidableEq, Repr

/-- What this machine had at a path when it was decided. The source's zero `Ctime`, for a decision
that read none, is `none`. -/
structure SeenState where
  here : Bool := false
  size : Int := 0
  mod : Int := zeroTime
  ctime : Option Int := none
  deriving DecidableEq, Repr

/-- What this machine has at a path, not following a link. -/
structure LinkState where
  present : Bool := false
  isLink : Bool := false
  target : String := ""
  modTime : Int := zeroTime
  deriving DecidableEq, Repr

/-- One decision. `exec` is the execute bit to leave a file with: 1 set, -1 clear, 0 as it is.
`wins` is only set on a conflict. -/
structure Action where
  path : SharePath
  kind : Kind
  wins : Bool := false
  why : String := ""
  link : String := ""
  consumer : Int := 0
  exec : Int := 0
  dir : Bool := false
  seen : SeenState := {}
  linkSeen : LinkState := {}
  deriving DecidableEq, Repr

/-- The action fetches the consumer's version over the path, `writes`. -/
def Action.fetches (a : Action) : Bool :=
  a.kind == .write || (a.kind == .conflict && a.wins)

/-- The action carries the consumer's change here: a write, a deletion, or a conflict
the consumer wins. -/
def Action.carries (a : Action) : Bool := a.fetches || a.kind == .delete

/-- The action changes the file here: it carries the change, or its execute bit. -/
def Action.takes (a : Action) : Bool := a.carries || a.kind == .chmod

theorem Action.takes_eq_false {a : Action} :
    a.takes = false ↔ a.kind ≠ .write ∧ a.kind ≠ .delete ∧ a.kind ≠ .chmod ∧
      ¬ (a.kind = .conflict ∧ a.wins = true) := by
  simp only [takes, carries, fetches, Bool.or_eq_false_iff, beq_eq_false_iff_ne]
  constructor
  · rintro ⟨⟨⟨hwrite, hconflict⟩, hdelete⟩, hchmod⟩
    refine ⟨hwrite, hdelete, hchmod, ?_⟩
    rintro ⟨hk, hw⟩
    simp [hk, hw] at hconflict
  · rintro ⟨hwrite, hdelete, hchmod, hconflict⟩
    refine ⟨⟨⟨hwrite, ?_⟩, hdelete⟩, hchmod⟩
    simpa using hconflict

def seenOf : Option FileInfo → SeenState
  | none => {}
  | some info => { here := true, size := info.size, mod := info.modTime }

/-- What a stat through links and the change time read of a name. A dangling link has neither. -/
structure Looked where
  stat : Option FileInfo := none
  ctime : Option Int := none
  deriving DecidableEq

/-- A name on this machine: whether it is itself a directory, and what following it reads. -/
structure Node extends Looked where
  dir : Bool := false
  deriving DecidableEq

/-- What a decision reads of this machine: `localAtRoot` and `ctimeAtRoot`
(`src/dircache/writeback.go:503-540`). Every model of the disk gives one. -/
structure Sight where
  localAt : SharePath → Option FileInfo
  ctimeAt : SharePath → Option Int

/-- A change time is compared when the decision read one. -/
def SeenState.same (s now : SeenState) : Bool :=
  s.here == now.here && s.size == now.size && s.mod == now.mod &&
    (s.ctime.isNone || s.ctime == now.ctime)

/-- `writePass.stillAsSeen` for a path that is not a link: what a look at it finds now is
what the decision saw. `there` is whether `Lstat` finds anything, a dangling link included,
and `stat` and `ctime` are what `Stat` and `ChangeTime` read. -/
def stillAsSeen (seen : SeenState) (there : Bool) (stat : Option FileInfo)
    (ctime : Option Int) : Bool :=
  if !seen.here then !there
  else
    seen.same { seenOf stat with ctime := if seen.ctime.isSome && stat.isSome then ctime else none }

def Baseline.sameFile (b o : Baseline) : Bool :=
  b.size == o.size && b.modTime == o.modTime

def whyYouLater : String :=
  "you changed it here after the container did; your version is kept"

def whyYouLaterDeleted : String :=
  "you changed it here after the container deleted it; your file is kept"

def whyNoChangeTime : String :=
  "when it last changed here cannot be read; your version is kept"

def whyOldWorkspace : String :=
  "the container deleted it, and this workspace is too old to say when; update the workspace"

def whyDirHere : String :=
  "the container has a file where you have a directory; your directory is kept"

def whyFileHere : String :=
  "the container made a directory where you have a file; your file is kept"

def conflictReason (containerWins : Bool) : String :=
  if containerWins then "both changed it; the container wrote last, so its version is kept"
  else "both changed it; you wrote last, so your version is kept"

end RemoteDocker.DirCache

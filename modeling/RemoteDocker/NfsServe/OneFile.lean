import RemoteDocker.Base.FilePath
import RemoteDocker.Base.Machine
import RemoteDocker.Base.Table

/-!
# A share of one file

`src/core-client/nfsserve/onefile.go` over the layers `Registry.shareFS` puts under it: the cache of
descriptors, `noFollowFS` and the bound filesystem, and `singleFileChange` over `attrChange`. A
request comes with the names it was made of, as go-nfs joins them. What an operation comes to is the
paths below the directory it touches, the directory itself being the empty one.

The bound filesystem and `SecureJoin` are of other modules, and parameters here: for the links there
are, each answers a name with a path below the directory or refuses it. What the disk may answer
beyond its links is left out: an operation that fails does less.
-/

namespace RemoteDocker.NfsServe

open Base Base.FilePath

/-- The symbolic links of the directory at one moment, and their targets. -/
abbrev Links := Path → Option (List Char)

inductive Refused where
  | notExist
  | permission
  | invalid
  | outside
  | notEntry
  | leaves
  | notSupported
  | tooManyLinks
  deriving DecidableEq, Repr

/-- `singleFileFS` (`onefile.go:25-30`), and the directory that holds the file. -/
structure OneFile where
  os : Platform
  /-- `checkNewName`: what the host can spell. -/
  checkNewName : Part → Bool
  /-- The drive of the directory; none where there are none. -/
  volume : Part
  /-- The directory, from the root. -/
  root : Path
  name : Part
  name_ne : name ≠ []
  name_slash : '/' ∉ name
  /-- `securejoin.SecureJoin` at the directory. -/
  secureJoin : Links → Path → Except Refused Path
  /-- What the bound filesystem opens, creates and stats for a name. -/
  bound : Links → Path → Except Refused Path
  /-- The path that the bound filesystem's `Readlink` reads for a name. -/
  readlink : Links → Path → Except Refused Path

inductive Act where
  | opened
  | created
  | statted
  | lstatted
  | linkRead
  | removed
  | renamed
  | chmodded
  deriving DecidableEq, Repr

structure Touch where
  act : Act
  path : Path
  /-- The links there were when the path was found. -/
  links : Links

namespace OneFile

variable (f : OneFile)

/-- Both separators are read as one (`onefile.go:33`). -/
def slashed (p : Path) : List Char :=
  '/' :: ['/'].intercalate (elements ([] :: p.flatMap (·.splitOn '\\')))

/-- `onefile.go:38`. -/
def isRootPath (p : Path) : Bool := slashed p = ['/']

/-- `onefile.go:41-43`. -/
def visible (p : Path) : Bool := (slashed p).drop 1 = f.name

def readable (p : Path) : Bool := isRootPath p || f.visible p

/-- An absolute path without its volume, where that is the share's. -/
def afterVolume (p : Path) : Option Path :=
  if f.os.windows then
    match p with
    | [] => none
    | v :: rest => if v ≠ [] ∧ v = f.volume then some ([] :: rest) else none
  else some p

/-- `nofollow.go:176-185`. -/
def shareRelative (p : Path) : Path :=
  if f.os.isAbs p then ((f.afterVolume p).bind (relBelow f.root)).getD p else p

def shareBase (p : Path) : Option Part := base (f.shareRelative p)

/-- The last element is one the host can spell, or has none of its own. -/
def spellable (p : Path) : Bool :=
  match f.shareBase p with
  | none => true
  | some b => b = ['.'] || b = ['.', '.'] || f.checkNewName b

/-- The last element is one that may be made. -/
def newName (p : Path) : Bool :=
  match f.shareBase p with
  | none => true
  | some b => f.checkNewName b

section

variable (links : Links)

/-- `nofollow.go:200-219`: the directory part is resolved, the last element is not. -/
def secureLeaf (p : Path) : Except Refused Path :=
  let p := f.shareRelative p
  if f.os.isAbs p then .error .outside
  else
    match base p with
    | none => .error .notEntry
    | some b =>
      if b = ['.'] ∨ b = ['.', '.'] then .error .notEntry
      else
        match f.secureJoin links (dir p) with
        | .error e => .error e
        | .ok d => .ok (d ++ [b])

/-- `nofollow.go:71-80`. -/
def lstatPath (p : Path) : Except Refused Path :=
  let rel := clean (f.shareRelative p)
  if rel = [['.']] ∨ rel = [[], []] then .ok [] else f.secureLeaf links rel

def stat (p : Path) : Except Refused Path :=
  if f.spellable p then f.bound links p else .error .notExist

def lstat (p : Path) : Except Refused Path :=
  if f.spellable p then f.lstatPath links p else .error .notExist

/-- `noFollowFS.Create`, and `OpenFile` of a file that is created. -/
def create (p : Path) : Except Refused Path :=
  if f.newName p then f.bound links p else .error .invalid

/-- Where from and where to. -/
def rename (source dest : Path) : Except Refused (Path × Path) :=
  if f.newName dest then do
    let a ← f.secureLeaf links source
    let b ← f.secureLeaf links dest
    .ok (a, b)
  else .error .invalid

/-- `attrChange.resolve` (`attrs.go:359-381`). -/
def resolve (p : Path) : Except Refused Path :=
  let rel := f.shareRelative p
  if f.os.isAbs rel ∨ (clean rel).head? = some ['.', '.'] then .error .leaves
  else if rel = [[]] ∨ rel = [['.']] ∨ rel = [[], []] then .ok []
  else f.secureLeaf links rel

/-- A link is looked at and not followed. -/
def chmod (p : Path) : Except Refused (Path × Bool) := do
  let target ← f.resolve links p
  .ok (target, target = [] || (links target).isNone)

end

structure Flags where
  creates : Bool
  truncates : Bool
  exclusive : Bool
  appends : Bool
  deriving DecidableEq, Repr

def Flags.cacheable (flags : Flags) : Bool :=
  !(flags.creates || flags.truncates || flags.exclusive || flags.appends)

abbrev Names := List (List Char)

inductive Request where
  | open (names : Names)
  | openFile (names : Names) (flags : Flags)
  | create (names : Names)
  | stat (names : Names)
  | lstat (names : Names)
  | readDir (names : Names)
  | rename (source dest : Names)
  | remove (names : Names)
  | readlink (names : Names)
  /-- `MkdirAll`, `Symlink`, `TempFile`, `Chroot` and `Link`. -/
  | refused (names : Names)
  | chmod (names : Names)
  /-- `Chown`, `Lchown` and `Chtimes`, which are taken and not applied. -/
  | ignored (names : Names)
  /-- `Mknod`, `Mkfifo` and `Socket`. -/
  | node (names : Names)

def Request.names : Request → List Names
  | .open n | .openFile n _ | .create n | .stat n | .lstat n | .readDir n | .remove n | .readlink n
  | .refused n | .chmod n | .ignored n | .node n => [n]
  | .rename source dest => [source, dest]

def fdCacheMax : Nat := 64

/-- The cache of descriptors: the file each name was opened as; and what was touched. -/
structure Served where
  held : AList fun _ : Path ↦ Path × Links := ∅
  touched : List Touch := []

namespace Served

variable (links : Links) (s : Served)

/-- An operation on a path, where it was not refused. -/
def touch (act : Act) (path : Except Refused Path) : Served :=
  match path with
  | .error _ => s
  | .ok path => { s with touched := ⟨act, path, links⟩ :: s.touched }

def under (dir p : Path) : Bool :=
  let dir := clean dir
  dir = [['.']] || dir = [[], []] || (dir.isPrefixOf (clean p) && dir.length < (clean p).length)

def evictTree (p : Path) : Served :=
  { s with held := restrict s.held fun q ↦ !(q = p || under p q) }

/-- A file that is only read or written is opened once for its name. -/
def openFile (p : Path) (flags : Flags) : Served :=
  if !flags.cacheable then
    let s := { s with held := s.held.erase p }
    if flags.creates then s.touch links .created (f.create links p)
    else s.touch links .opened (f.bound links p)
  else
    match s.held.lookup p with
    | some (path, old) => { s with touched := ⟨.opened, path, old⟩ :: s.touched }
    | none =>
      match f.bound links p with
      | .error _ => s
      | .ok path =>
        { s with
          held :=
            if s.held.entries.length < fdCacheMax then s.held.insert p (path, links) else s.held
          touched := ⟨.opened, path, links⟩ :: s.touched }

def request : Request → Served
  | .open n =>
    if f.visible (f.os.join n) then s.touch links .opened (f.bound links (f.os.join n)) else s
  | .openFile n flags =>
    if f.visible (f.os.join n) then s.openFile f links (f.os.join n) flags else s
  | .create n =>
    if f.visible (f.os.join n) then s.touch links .created (f.create links (f.os.join n)) else s
  | .stat n =>
    if f.readable (f.os.join n) then s.touch links .statted (f.stat links (f.os.join n)) else s
  | .lstat n =>
    if f.readable (f.os.join n) then s.touch links .lstatted (f.lstat links (f.os.join n)) else s
  | .readDir n =>
    if isRootPath (f.os.join n) then s.touch links .lstatted (f.lstat links [f.name]) else s
  | .rename source dest =>
    let source := f.os.join source
    let dest := f.os.join dest
    if f.visible source && f.visible dest then
      let s := (s.evictTree source).evictTree dest
      match f.rename links source dest with
      | .error _ => s
      | .ok (a, b) => (s.touch links .renamed (.ok a)).touch links .renamed (.ok b)
    else s
  | .remove n =>
    if f.visible (f.os.join n) then
      (s.evictTree (f.os.join n)).touch links .removed (f.secureLeaf links (f.os.join n))
    else s
  | .readlink n =>
    if f.visible (f.os.join n) then s.touch links .linkRead (f.readlink links (f.os.join n)) else s
  | .refused _ => s
  | .chmod n =>
    if f.visible (f.os.join n) then
      match f.chmod links (f.os.join n) with
      | .error _ => s
      | .ok (target, plain) =>
        let s := s.touch links .lstatted (.ok target)
        if plain then s.touch links .chmodded (.ok target) else s
    else s
  | .ignored _ => s
  | .node _ => s

end Served

/-- A request, with the links there are, or a descriptor that was idle long enough. -/
inductive Event where
  | request (links : Links) (r : Request)
  | idle (p : Path)

def Event.names : Event → List Names
  | .request _ r => r.names
  | .idle _ => []

def step (s : Served) : Event → Option Served
  | .request links r => some (s.request f links r)
  | .idle p => some { s with held := s.held.erase p }

def machine : Machine Served Event := ⟨f.step⟩

end OneFile

end RemoteDocker.NfsServe

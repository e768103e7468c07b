import RemoteDocker.Base.Tally
import RemoteDocker.DirCache.Prefetch

/-!
# The prefetch tree

Small files in walk order, cut into leaves under a tree whose nodes count what is below them, and
a node fetched whole once enough of it is in use (`src/dircache/tree.go`). The counters of bytes
are 64 bits and wrap; those of files count entries that are held in memory, and do not.

A node here has no pointer to its parent: the nodes above a file are its `chain`. Whether a node
has earned a fetch, and what one read may bring, are decided in floating point from the layout,
the link and the counters (`promote`, `cap`); here they may be decided in any way at all, but for
the test that a leaf has something left to bring. Paths are distinct, as a walk finds them, so a
path is one place in the tree.
-/

namespace RemoteDocker.DirCache.Fill

open Base

namespace Tree

/-- A sum as Go's `int64` holds it. -/
def int64 (x : Int) : Int := (Int64.ofInt x).toInt

/-- What the cache sits on the other side of. -/
structure Link where
  rtt : Int := 0
  bandwidth : Int := 0

/-- `Layout`, but for what only the decisions in floating point read. -/
structure Layout where
  link : Link := {}
  largeFile : Int := 0
  leafBytes : Int := 0
  windowLeaves : Int := 0
  branching : Int := 0

def Layout.withDefaults (l : Layout) : Except String Layout :=
  let branching := if l.branching = 0 then 2 else l.branching
  if branching < 2 then
    .error s!"dircache: tree branching must be at least 2: got {branching}"
  else
    .ok
      { l with
        branching
        largeFile := if l.largeFile ≤ 0 then 2 ^ 20 else l.largeFile
        leafBytes := if l.leafBytes ≤ 0 then 256 * 2 ^ 10 else l.leafBytes
        windowLeaves := if l.windowLeaves ≤ 0 then 32 else l.windowLeaves }

/-- An entry of a leaf and its `fileState`: sent into the cache, or how much of it the consumer
read over the network. -/
structure File where
  entry : Entry
  stored : Bool := false
  read : Int := 0
  deriving DecidableEq, Repr

def File.path (f : File) : SharePath := f.entry.path

@[ext] structure Counts where
  bytes : Int64 := 0
  files : Int := 0
  fetched : Int64 := 0
  fetchedFiles : Int := 0
  read : Int64 := 0
  deriving DecidableEq, Repr

namespace Counts

instance : Zero Counts := ⟨{}⟩

instance : Add Counts where
  add c d :=
    { bytes := c.bytes + d.bytes, files := c.files + d.files, fetched := c.fetched + d.fetched
      fetchedFiles := c.fetchedFiles + d.fetchedFiles, read := c.read + d.read }

@[simp] theorem bytes_zero : (0 : Counts).bytes = 0 := rfl
@[simp] theorem files_zero : (0 : Counts).files = 0 := rfl
@[simp] theorem fetched_zero : (0 : Counts).fetched = 0 := rfl
@[simp] theorem fetchedFiles_zero : (0 : Counts).fetchedFiles = 0 := rfl
@[simp] theorem read_zero : (0 : Counts).read = 0 := rfl

variable (c d : Counts)

@[simp] theorem bytes_add : (c + d).bytes = c.bytes + d.bytes := rfl
@[simp] theorem files_add : (c + d).files = c.files + d.files := rfl
@[simp] theorem fetched_add : (c + d).fetched = c.fetched + d.fetched := rfl
@[simp] theorem fetchedFiles_add : (c + d).fetchedFiles = c.fetchedFiles + d.fetchedFiles := rfl
@[simp] theorem read_add : (c + d).read = c.read + d.read := rfl

instance : AddCommMonoid Counts where
  add_assoc a b c := by
    ext1
    · exact Int64.add_assoc _ _ _
    · exact Int.add_assoc _ _ _
    · exact Int64.add_assoc _ _ _
    · exact Int.add_assoc _ _ _
    · exact Int64.add_assoc _ _ _
  zero_add a := by ext1 <;> simp
  add_zero a := by ext1 <;> simp
  add_comm a b := by
    ext1
    · exact Int64.add_comm _ _
    · exact Int.add_comm _ _
    · exact Int64.add_comm _ _
    · exact Int.add_comm _ _
    · exact Int64.add_comm _ _
  nsmul := nsmulRec

end Counts

/-- A leaf with its files, or a node over others. -/
abbrev Node := Tally File Counts

def unfetched (n : Node) : Int := (n.count.bytes - n.count.fetched).toInt

/-- A leaf still holds a file that is neither stored nor read whole (`tree.go:160-167`). -/
def unread (files : List File) : Bool :=
  files.any fun f ↦ !f.stored && decide (f.read < f.entry.size)

/-- The loop of `levelFor`, for so many steps. -/
def levelLoop (size : Int) : Nat → Int → Option Nat
  | 0, _ => none
  | steps + 1, span =>
    if span < size then (levelLoop size steps (int64 (span * 2))).map (· + 1) else some 0

/-- The smallest level whose node size holds a file. The span is gone after 64 doublings, so a loop
that has not ended by then never does (`tree.go:336-342`). -/
def levelFor (layout : Layout) (size : Int) : Option Nat := levelLoop size 65 layout.leafBytes

/-- A node to be, with the level it enters the build at: that of a loop that may not end. -/
structure Group where
  entries : List Entry
  level : Option Nat := some 0

/-- `emit` of the current leaf, if it has entries. -/
def emitLeaf (entries : List Entry) : List Group :=
  if entries.isEmpty then [] else [{ entries }]

/-- The loop of `cut`, with the current leaf and its size. -/
def cutFrom (layout : Layout) : List Entry → Int → List Entry → List Group
  | cur, _, [] => emitLeaf cur
  | cur, size, e :: rest =>
    if layout.leafBytes < e.size then
      emitLeaf cur ++ { entries := [e], level := levelFor layout e.size } ::
        cutFrom layout [] 0 rest
    else if layout.leafBytes < int64 (size + e.size) ∧ cur ≠ [] then
      emitLeaf cur ++ cutFrom layout [e] e.size rest
    else cutFrom layout (cur ++ [e]) (int64 (size + e.size)) rest

/-- Turns a sorted window into leaves of at most `leafBytes`, and single files at the level that
fits each (`tree.go:298-333`). -/
def cut (layout : Layout) (window : List Entry) : List Group := cutFrom layout [] 0 window

/-- `flush` of one window of `place`. -/
def flush (layout : Layout) (window : List Entry) : List Group :=
  cut layout (window.insertionSort Prefetch.Tree.bySizePath)

/-- The loop of `place`, with the current window and its size. -/
def placeFrom (layout : Layout) : List Entry → Int → List Entry → List Group
  | window, _, [] => flush layout window
  | window, acc, e :: rest =>
    if int64 (layout.leafBytes * layout.windowLeaves) ≤ int64 (acc + e.size) then
      flush layout (window ++ [e]) ++ placeFrom layout [] 0 rest
    else placeFrom layout (window ++ [e]) (int64 (acc + e.size)) rest

/-- Cuts the walk order into windows, sorts each by size and cuts it into leaves. -/
def place (layout : Layout) (entries : List Entry) : List Group := placeFrom layout [] 0 entries

/-- The state of an entry, carried over from the file that was there before. -/
def carried (prev : SharePath → Option File) (e : Entry) : File :=
  match prev e.path with
  | some old => { entry := e, stored := old.stored, read := old.read }
  | none => { entry := e }

/-- Adds one file's carried-over state to a fresh leaf's counters (`tree.go:248-255`). -/
def account (c : Counts) (f : File) : Counts :=
  if f.stored then c + { fetched := Int64.ofInt f.entry.size, fetchedFiles := 1 }
  else c + { read := Int64.ofInt (min f.read f.entry.size) }

/-- A fresh leaf, and the states `rebuild` carries over into it. -/
def emit (prev : SharePath → Option File) (entries : List Entry) : Node :=
  let fresh : Counts := entries.foldl (fun c e ↦ c + { bytes := Int64.ofInt e.size })
    { files := entries.length }
  .leaf
    (entries.foldl
      (fun c e ↦ if (prev e.path).isSome then account c (carried prev e) else c) fresh)
    (entries.map (carried prev))

/-- A node with the level it enters the build at. -/
structure Placed where
  node : Node
  level : Nat

/-- What `build` makes of consecutive items at or below a level: one that finds no partner moves
up a level on its own, and several get a parent that adds up their counters. -/
def joined (level : Nat) : List Placed → List Placed
  | [] => []
  | [p] => [{ node := p.node, level := level + 1 }]
  | ps =>
    [{ node := .inner ((ps.map (·.node)).map Tally.count).sum (ps.map (·.node))
       level := level + 1 }]

/-- One level of `build`, with the items that wait for a partner. -/
def pairUp (branching : Int) (level : Nat) : List Placed → List Placed → List Placed
  | cur, [] => joined level cur
  | cur, p :: rest =>
    if level < p.level then joined level cur ++ p :: pairUp branching level [] rest
    else if (cur.length : Int) < branching then pairUp branching level (cur ++ [p]) rest
    else joined level cur ++ pairUp branching level [p] rest

/-- The loop of `build`, for so many levels. -/
def buildFrom (branching : Int) : Nat → Nat → List Placed → Option Node
  | _, _, [] => some (.leaf 0 [])
  | _, _, [p] => some p.node
  | 0, _, _ => none
  | levels + 1, level, items =>
    buildFrom branching levels (level + 1) (pairUp branching level [] items)

/-- Pairs items level by level until one remains. No item is above level 64, and from there on every
level has fewer (`tree.go:351-388`). -/
def build (branching : Int) (items : List Placed) : Option Node :=
  buildFrom branching (items.length + 64) 0 items

end Tree

/-- One share's layout and what is in its cache. -/
structure Tree where
  layout : Tree.Layout
  entries : List Entry
  root : Tree.Node

namespace Tree

/-- The file at a path, where the tree has one: `where`, and the leaf it names. -/
def lookup (root : Node) (path : SharePath) : Option File :=
  root.items.find? fun f ↦ decide (f.path = path)

/-- Lays out entries from scratch, carrying state over by path. There is no tree where some
`levelFor` never returns (`tree.go:225-245`). -/
def rebuild (layout : Layout) (entries : List Entry) (prev : SharePath → Option File) :
    Option Tree :=
  let small := entries.filter fun e ↦ decide (e.size ≤ layout.largeFile)
  let groups := place layout small
  if groups.all (·.level.isSome) then
    (build layout.branching (groups.map fun g ↦
      { node := emit prev g.entries, level := g.level.getD 0 })).map fun root ↦
        { layout, entries, root }
  else none

/-- Arranges entries, with nothing fetched (`tree.go:197-205`). -/
def newTree (entries : List Entry) (layout : Layout) : Except String (Option Tree) := do
  let layout ← layout.withDefaults
  return rebuild layout entries fun _ ↦ none

def setLink (t : Tree) (link : Link) : Tree := { t with layout := { t.layout with link } }

/-- The files the walk has found since the tree was built (`tree.go:217-222`). -/
def add (t : Tree) (entries : List Entry) : Option Tree :=
  rebuild t.layout (t.entries ++ entries) (lookup t.root)

def File.store (f : File) : File := { f with stored := true, read := 0 }

/-- Marks a file stored, moving what was read of it to fetched (`tree.go:562-569`). -/
def markStored (root : Node) (f : File) : Node :=
  root.update File.path f.path File.store (· +
    { fetched := Int64.ofInt f.entry.size, fetchedFiles := 1
      read := -Int64.ofInt (min f.read f.entry.size) })

/-- Marks everything unstored under a node as stored and returns what has to be sent. -/
def fetch (root n : Node) : Node × List Entry :=
  let files := n.stackItems.filter (!·.stored)
  (files.foldl markStored root, files.map (·.entry))

/-- `promote`, with the decisions it takes in floating point (`tree.go:469-497`). -/
def promotes (promote : Node → Bool) : Node → Bool
  | .leaf c files => unread files && promote (.leaf c files)
  | .inner c kids => promote (.inner c kids)

/-- What a climb has come to: the tree, the batch so far, and the nodes `onFetch` was told of. -/
structure Climbed where
  root : Node
  out : List Entry := []
  promoted : List Node := []

/-- The climb of `Read` from a leaf, for so many nodes: the height of the next one, the bytes the
batch has so far, and what the climb has come to. -/
def climb (promote : Node → Bool) (limit : Int) (path : SharePath) :
    Nat → Nat → Int → Climbed → Climbed
  | 0, _, _, c => c
  | left + 1, height, total, c =>
    match (c.root.chain File.path path)[height]? with
    | none => c
    | some n =>
      if unfetched n = 0 then climb promote limit path left (height + 1) total c
      else if limit < int64 (total + unfetched n) then c
      else if !promotes promote n then climb promote limit path left (height + 1) total c
      else
        let sent := fetch c.root n
        climb promote limit path left (height + 1) (int64 (total + (sent.2.map (·.size)).sum))
          { root := sent.1, out := c.out ++ sent.2, promoted := c.promoted ++ [n] }

/-- What `Read` notes of a file: how much of it has been read, at most its size. -/
def File.note (n : Int) (f : File) : File :=
  { f with read := min (int64 (f.read + n)) f.entry.size }

/-- `addRead` in `Read`: what the file's own count has grown by (`tree.go:571-575`). -/
def noteRead (root : Node) (f : File) (n : Int) : Node :=
  let before := min f.read f.entry.size
  root.update File.path f.path (File.note n) (· +
    { read := if before < (f.note n).read then Int64.ofInt ((f.note n).read - before) else 0 })

/-- The climb of a read of a file that is not stored. -/
def readClimb (root : Node) (promote : Node → Bool) (limit : Int) (f : File) (n : Int) :
    Climbed :=
  let root := noteRead root f n
  climb promote limit f.path (root.chain File.path f.path).length 0 0 { root }

/-- The consumer read so many bytes of a path through the live mount. What that makes worth fetching
is marked stored and returned, with `limit` for `cap` (`tree.go:409-466`). -/
def read (t : Tree) (promote : Node → Bool) (limit : Int) (path : SharePath) (n : Int) :
    Tree × List Entry :=
  match lookup t.root path with
  | none => (t, [])
  | some f =>
    if f.stored then (t, [])
    else
      let got := readClimb t.root promote limit f n
      ({ t with root := got.root }, got.out)

/-- The nodes `Read` promotes: those it tells `onFetch` of. -/
def promoted (t : Tree) (promote : Node → Bool) (limit : Int) (path : SharePath) (n : Int) :
    List Node :=
  match lookup t.root path with
  | none => []
  | some f => if f.stored then [] else (readClimb t.root promote limit f n).promoted

/-- Marks a file stored without sending it (`tree.go:540-546`). -/
def markSent (t : Tree) (path : SharePath) : Tree :=
  match lookup t.root path with
  | none => t
  | some f => if f.stored then t else { t with root := markStored t.root f }

def File.unstore (f : File) : File := { f with stored := false }

/-- `Unstore` of one entry. -/
def unstoreOne (root : Node) (e : Entry) : Node :=
  match lookup root e.path with
  | none => root
  | some f =>
    if f.stored then
      root.update File.path e.path File.unstore
        (· + { fetched := -Int64.ofInt e.size, fetchedFiles := -1 })
    else root

/-- Puts entries back as not sent (`tree.go:550-559`). -/
def unstore (t : Tree) (entries : List Entry) : Tree :=
  { t with root := entries.foldl unstoreOne t.root }

/-- The loop of `Unstored` over the candidates, with the number and size of those taken. -/
def takeWithin (maxBytes maxFiles : Int) : Nat → Int → List File → List File
  | _, _, [] => []
  | taken, size, f :: rest =>
    if maxFiles ≤ taken ∨ 0 < taken ∧ maxBytes < int64 (size + f.entry.size) then []
    else f :: takeWithin maxBytes maxFiles (taken + 1) (int64 (size + f.entry.size)) rest

def candidates (root : Node) : List File :=
  (root.stackItems.filter (!·.stored)).insertionSort fun f g ↦
    Prefetch.Tree.bySizePath f.entry g.entry

/-- Takes the smallest unstored files up to the limits, marks them stored, and returns them for
sending (`tree.go:604-643`). -/
def unstored (t : Tree) (maxBytes maxFiles : Int) : Tree × List Entry :=
  if maxFiles ≤ 0 ∨ maxBytes ≤ 0 then (t, [])
  else
    let files := takeWithin maxBytes maxFiles 0 0 (candidates t.root)
    ({ t with root := files.foldl markStored t.root }, files.map (·.entry))

inductive Op where
  | add (entries : List Entry)
  | read (promote : Node → Bool) (limit : Int) (path : SharePath) (n : Int)
  | unstored (maxBytes maxFiles : Int)
  | markSent (path : SharePath)
  | unstore (entries : List Entry)
  | setLink (link : Link)

/-- One operation: the tree it leaves and what it returns, if it returns. -/
def apply (t : Tree) : Op → Option (Tree × List Entry)
  | .add entries => (t.add entries).map (·, [])
  | .read promote limit path n => some (t.read promote limit path n)
  | .unstored maxBytes maxFiles => some (t.unstored maxBytes maxFiles)
  | .markSent path => some (t.markSent path, [])
  | .unstore entries => some (t.unstore entries, [])
  | .setLink link => some (t.setLink link, [])

def machine : Machine Tree Op where
  step t op := (t.apply op).map (·.1)

end Tree

end RemoteDocker.DirCache.Fill

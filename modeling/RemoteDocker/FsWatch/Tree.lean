import RemoteDocker.Base.SharePath
import RemoteDocker.Base.Table

/-!
# Which directories are watched, and whose a path is

`src/core-client/fswatch/path.go` and `src/core-client/fswatch/tree.go`. A local path is
what lies between its separators, so `splitLocal` drops what names no component. Case
folding follows tables this development does not fix: what holds, holds for every table.
-/

namespace RemoteDocker.FsWatch

open Base

/-- A path on this machine by what stands between its separators. -/
abbrev LocalPath := List String

/-- The systems whose path rules differ. -/
inductive Goos where
  | linux
  | windows
  | darwin
  | other
  deriving DecidableEq, Repr

/-- The tables of Unicode case: `fold` names the orbit `strings.EqualFold` compares runes
by, `lower` is what `strings.ToLower` maps each to. -/
structure CaseTables where
  fold : Char → Char
  lower : Char → Char

def CaseTables.equalFold (u : CaseTables) (a b : String) : Bool :=
  a.toList.map u.fold == b.toList.map u.fold

def CaseTables.toLower (u : CaseTables) (s : String) : String :=
  String.ofList (s.toList.map u.lower)

def caseInsensitive (goos : Goos) : Bool := goos == .windows || goos == .darwin

/-- Two components are one name under the local filesystem's case rules. -/
def foldEqual (u : CaseTables) (goos : Goos) (a b : String) : Bool :=
  if caseInsensitive goos then u.equalFold a b else a == b

/-- The path without an extended-length start: two empty components and a question mark,
and before a network path the word for it. -/
def plainSpelling : LocalPath → LocalPath
  | "" :: "" :: "?" :: "UNC" :: first :: rest => first :: rest
  | "" :: "" :: "?" :: first :: rest => first :: rest
  | p => p

/-- The components of a path, in its own case. -/
def splitLocal (goos : Goos) (p : LocalPath) : List String :=
  (if goos = .windows then plainSpelling p else p).filter fun part ↦ part != "" && part != "."

/-- The path under a share's root, if it is under it, spelled as the event spells it. -/
def relativeTo (u : CaseTables) (goos : Goos) (rootParts : List String) (p : LocalPath) :
    Option SharePath :=
  let parts := splitLocal goos p
  if parts.length < rootParts.length then none
  else if (parts.zip rootParts).all fun (part, want) ↦ foldEqual u goos part want then
    some (parts.drop rootParts.length)
  else none

/-- How much of a share's changes is sent. -/
inductive Watch where
  | watchOff
  | watchPartial
  | watchCoarse
  deriving DecidableEq, Repr

def Watch.watching (w : Watch) : Bool := w != .watchOff

/-- One export's local directory. `only` is the base name of the one file a single-file share
exports, empty for a directory. -/
structure ShareRoot where
  exportPath : String
  localPath : LocalPath
  parts : List String
  mode : Watch
  only : String := ""
  deriving DecidableEq, Repr

/-- One export and the local path behind it. -/
structure Share where
  exportPath : String
  localPath : LocalPath
  mode : Watch
  file : String := ""
  deriving DecidableEq, Repr

/-- The roots, and each watched directory by its key with the spelling it was added under. -/
structure Tree where
  goos : Goos
  budget : Nat
  exclude : List String
  roots : List ShareRoot := []
  dirs : AList fun _ : List String ↦ LocalPath := ∅

/-- One entry of a directory, `fs.DirEntry`. -/
structure DirEntry where
  name : String
  isDir : Bool := false
  symlink : Bool := false
  deriving DecidableEq, Repr

/-- What the machine answers while one event or one share is worked on: whether the event's path is
a directory (`os.Lstat`), which directories the backend takes a watch on, and what the calls of
`os.ReadDir` list, in their order. A call past the end fails, as one on a directory that has gone
does. -/
structure Answers where
  isDir : Bool := false
  canAdd : LocalPath → Bool := fun _ ↦ true
  readDir : List (Option (List DirEntry)) := []

/-- A share an event belongs to and its path within that share. -/
structure RootMatch where
  root : ShareRoot
  rel : SharePath
  deriving DecidableEq, Repr

namespace Tree

variable (u : CaseTables) (t : Tree)

def dirKey (p : LocalPath) : List String :=
  let parts := splitLocal t.goos p
  if caseInsensitive t.goos then parts.map u.toLower else parts

/-- What makes `rootsFor` count a root: the path is under it and, for a single file, is that
file. -/
def matchRoot (p : LocalPath) (r : ShareRoot) : Option SharePath :=
  match relativeTo u t.goos r.parts p with
  | none => none
  | some rel => if r.only ≠ "" ∧ rel ≠ [r.only] then none else some rel

/-- One turn of `rootsFor`'s loop: the length of the deepest match so far, and the matches of
that length. -/
def takeRoot (p : LocalPath) (found : Nat × List RootMatch) (r : ShareRoot) :
    Nat × List RootMatch :=
  match t.matchRoot u p r with
  | none => found
  | some rel =>
    if found.1 < r.parts.length then (r.parts.length, [⟨r, rel⟩])
    else if r.parts.length = found.1 then (found.1, found.2 ++ [⟨r, rel⟩])
    else found

/-- The shares a path belongs to. Of nested shares the deepest wins; a directory mounted several
ways is several roots at one depth. -/
def rootsFor (p : LocalPath) : List RootMatch := (t.roots.foldl (t.takeRoot u p) (0, [])).2

def isExcluded (name : String) : Bool := t.exclude.contains (u.toLower name)

def watching (p : LocalPath) : Bool := (t.dirs.lookup (t.dirKey u p)).isSome

/-- `addOne` reports that the walk should descend: the directory is watched, or the budget
and the backend allow it. -/
def admits (ans : Answers) (dir : LocalPath) : Bool :=
  t.watching u dir || (t.dirs.entries.length < t.budget && ans.canAdd dir)

/-- Watches a single directory, honouring the budget. -/
def addOne (ans : Answers) (dir : LocalPath) : Tree :=
  if t.watching u dir || !t.admits u ans dir then t
  else { t with dirs := t.dirs.insert (t.dirKey u dir) dir }

/-- The walk's queue up to the first directory it descends into, and what is left of it. -/
def nextDir (ans : Answers) : Tree → List LocalPath → Tree × Option (LocalPath × List LocalPath)
  | t, [] => (t, none)
  | t, dir :: queue =>
    if t.admits u ans dir then (t.addOne u ans dir, some (dir, queue))
    else nextDir ans (t.addOne u ans dir) queue

/-- The directories of a listing that the walk goes on to: no link, and none excluded. -/
def subdirs (dir : LocalPath) (entries : List DirEntry) : List LocalPath :=
  (entries.filter fun e ↦ e.isDir && !e.symlink && !t.isExcluded u e.name).map (dir ++ [·.name])

/-- The loop of `addTree`, one call of `os.ReadDir` a turn, with everything it emits. -/
def addTreeLoop (ans : Answers) :
    List (Option (List DirEntry)) → Tree → List LocalPath → Tree × List (LocalPath × Bool)
  | [], t, queue => (queue.foldl (fun t dir ↦ t.addOne u ans dir) t, [])
  | listed :: later, t, queue =>
    match nextDir u ans t queue with
    | (t', none) => (t', [])
    | (t', some (dir, rest)) =>
      match listed with
      | none => addTreeLoop ans later t' rest
      | some entries =>
        let (t'', found) := addTreeLoop ans later t' (rest ++ t'.subdirs u dir entries)
        (t'', entries.map (fun e ↦ (dir ++ [e.name], e.isDir)) ++ found)

/-- Watches a directory and every directory below it, breadth first. With it comes everything the
walk found, which is what `emit` is called for. -/
def addTree (ans : Answers) (dir : LocalPath) : Tree × List (LocalPath × Bool) :=
  addTreeLoop u ans ans.readDir t [dir]

/-- Drops a directory and everything below it, for a rename. -/
def removeTree (dir : LocalPath) : Tree :=
  { t with dirs := restrict t.dirs fun key ↦ !(t.dirKey u dir).isPrefixOf key }

/-- Drops a single directory, for a delete. -/
def removeOne (dir : LocalPath) : Tree := { t with dirs := t.dirs.erase (t.dirKey u dir) }

/-- A directory root covers itself and everything below it, a single-file root its directory. -/
def covered (dir : LocalPath) : Bool :=
  t.roots.any fun r ↦
    (relativeTo u t.goos r.parts dir).isSome &&
      (r.only == "" || (splitLocal t.goos dir).length == r.parts.length)

def unwatchUncovered : Tree :=
  { t with dirs := restrict t.dirs fun key ↦ (t.dirs.lookup key).any (t.covered u) }

/-- A directory root at exactly these parts has been walked. -/
def walkedAt (parts : List String) : Bool := t.roots.any fun r ↦ r.only == "" && r.parts == parts

/-- The modes `sync` wants, by export: the last of several shares of one counts, and one
whose mode is off is wanted by nobody. -/
def wanted (shares : List Share) (exportPath : String) : Option Watch :=
  (shares.reverse.find? fun s ↦ s.exportPath == exportPath && s.mode.watching).map (·.mode)

/-- The roots that stay at a `sync`, each with the mode its share has now. -/
def keptRoots (shares : List Share) : List ShareRoot :=
  t.roots.filterMap fun r ↦ (wanted shares r.exportPath).map fun mode ↦ { r with mode := mode }

/-- One turn of `sync`'s second loop: a share that is wanted and has no root gets one. Its
watches are those of a directory root at the same path, if there is one. -/
def addShare (shares : List Share) (known : List String) (t : Tree) (asked : Share × Answers) :
    Tree :=
  let (s, ans) := asked
  if (wanted shares s.exportPath).isNone || known.contains s.exportPath then t
  else
    let dir := if s.file ≠ "" then s.localPath.dropLast else s.localPath
    let r : ShareRoot :=
      { exportPath := s.exportPath, localPath := dir, parts := splitLocal t.goos dir
        mode := s.mode, only := s.file }
    let shared := r.only == "" && t.walkedAt r.parts
    let t' := { t with roots := t.roots ++ [r] }
    if r.only ≠ "" then t'.addOne u ans dir
    else if shared then t'
    else (t'.addTree u ans dir).1

/-- The watched set against the shares that currently exist, each given with what the machine
answers while it is walked. -/
def sync (asked : List (Share × Answers)) : Tree :=
  let shares := asked.map Prod.fst
  let kept := t.keptRoots shares
  let t' := { t with roots := kept }
  let t'' := if kept.length < t.roots.length then t'.unwatchUncovered u else t'
  asked.foldl (addShare u shares (kept.map (·.exportPath))) t''

/-- The matches of a path among some roots that are as deep as any other. -/
def Deepest (p : LocalPath) (rs : List ShareRoot) (m : RootMatch) : Prop :=
  m.root ∈ rs ∧ t.matchRoot u p m.root = some m.rel ∧
    ∀ r ∈ rs, (t.matchRoot u p r).isSome → r.parts.length ≤ m.root.parts.length

variable {u t}

/-- What the loop has found in some roots: the greatest depth of a match, taken from one of them
unless it is zero, and exactly the matches of that depth. -/
structure Found (u : CaseTables) (t : Tree) (p : LocalPath) (rs : List ShareRoot)
    (found : Nat × List RootMatch) : Prop where
  deepest : ∀ r ∈ rs, (t.matchRoot u p r).isSome → r.parts.length ≤ found.1
  taken : 0 < found.1 → ∃ r ∈ rs, (t.matchRoot u p r).isSome ∧ r.parts.length = found.1
  mem : ∀ m, m ∈ found.2 ↔
    m.root ∈ rs ∧ t.matchRoot u p m.root = some m.rel ∧ m.root.parts.length = found.1

variable {p : LocalPath} {rs : List ShareRoot} {found : Nat × List RootMatch} {r : ShareRoot}

section

variable (h : Found u t p rs found)

include h

private theorem Found.pass
    (hr : (t.matchRoot u p r).isSome → r.parts.length < found.1) :
    Found u t p (rs ++ [r]) found where
  deepest := by
    intro r' hr' hsome
    rcases List.mem_append.mp hr' with hin | hin
    · exact h.deepest r' hin hsome
    · rw [List.mem_singleton.mp hin] at hsome ⊢
      exact (hr hsome).le
  taken := by
    intro hpos
    obtain ⟨r', hr', hrest⟩ := h.taken hpos
    exact ⟨r', List.mem_append_left _ hr', hrest⟩
  mem := by
    intro m
    rw [h.mem m, List.mem_append, List.mem_singleton]
    constructor
    · rintro ⟨hin, hrest⟩
      exact ⟨.inl hin, hrest⟩
    · rintro ⟨hin | hin, hrel, hlen⟩
      · exact ⟨hin, hrel, hlen⟩
      · rw [hin] at hrel hlen
        have hlt := hr (by rw [hrel]; rfl)
        omega

private theorem Found.join {rel : SharePath}
    (hrel : t.matchRoot u p r = some rel) (hlen : r.parts.length = found.1) :
    Found u t p (rs ++ [r]) (found.1, found.2 ++ [⟨r, rel⟩]) where
  deepest := by
    intro r' hr' hsome
    rcases List.mem_append.mp hr' with hin | hin
    · exact h.deepest r' hin hsome
    · rw [List.mem_singleton.mp hin]
      exact hlen.le
  taken := fun _ ↦ ⟨r, by simp, by rw [hrel]; rfl, hlen⟩
  mem := by
    intro m
    rw [List.mem_append, List.mem_singleton, h.mem m, List.mem_append, List.mem_singleton]
    constructor
    · rintro (⟨hin, hrest⟩ | rfl)
      · exact ⟨.inl hin, hrest⟩
      · exact ⟨.inr rfl, hrel, hlen⟩
    · rintro ⟨hin | hin, hrel', hlen'⟩
      · exact .inl ⟨hin, hrel', hlen'⟩
      · right
        rw [hin, hrel, Option.some.injEq] at hrel'
        obtain ⟨root, rel'⟩ := m
        rw [RootMatch.mk.injEq]
        exact ⟨hin, hrel'.symm⟩

private theorem Found.deeper {rel : SharePath}
    (hrel : t.matchRoot u p r = some rel) (hlt : found.1 < r.parts.length) :
    Found u t p (rs ++ [r]) (r.parts.length, [⟨r, rel⟩]) where
  deepest := by
    intro r' hr' hsome
    rcases List.mem_append.mp hr' with hin | hin
    · exact (h.deepest r' hin hsome).trans hlt.le
    · rw [List.mem_singleton.mp hin]
  taken := fun _ ↦ ⟨r, by simp, by rw [hrel]; rfl, rfl⟩
  mem := by
    intro m
    rw [List.mem_singleton, List.mem_append, List.mem_singleton]
    constructor
    · rintro rfl
      exact ⟨.inr rfl, hrel, rfl⟩
    · rintro ⟨hin | hin, hrel', hlen'⟩
      · have hle := h.deepest m.root hin (by rw [hrel']; rfl)
        omega
      · rw [hin, hrel, Option.some.injEq] at hrel'
        obtain ⟨root, rel'⟩ := m
        rw [RootMatch.mk.injEq]
        exact ⟨hin, hrel'.symm⟩

private theorem Found.takeRoot (r : ShareRoot) :
    Found u t p (rs ++ [r]) (t.takeRoot u p found r) := by
  unfold Tree.takeRoot
  cases hrel : t.matchRoot u p r with
  | none =>
    apply h.pass
    rw [hrel]
    intro hsome
    cases hsome
  | some rel =>
    dsimp only
    split
    · next hlt => exact h.deeper hrel hlt
    · next hlt =>
      split
      · next heq => exact h.join hrel heq
      · next hne =>
        apply h.pass
        intro _
        omega

end

private theorem found_foldl (u : CaseTables) (t : Tree) (p : LocalPath) (rs : List ShareRoot) :
    Found u t p rs (rs.foldl (t.takeRoot u p) (0, [])) := by
  induction rs using List.reverseRecOn with
  | nil => exact ⟨by simp, by simp, by simp⟩
  | append_singleton rs r ih =>
    rw [List.foldl_append, List.foldl_cons, List.foldl_nil]
    exact ih.takeRoot r

/-- A path belongs to the roots that match it and are as deep as any other that does. -/
theorem mem_rootsFor {m : RootMatch} : m ∈ t.rootsFor u p ↔ t.Deepest u p t.roots m := by
  have hfound := found_foldl u t p t.roots
  rw [rootsFor, hfound.mem m]
  constructor
  · rintro ⟨hin, hrel, hlen⟩
    refine ⟨hin, hrel, ?_⟩
    intro r hr hsome
    rw [hlen]
    exact hfound.deepest r hr hsome
  · rintro ⟨hin, hrel, hall⟩
    refine ⟨hin, hrel, le_antisymm (hfound.deepest m.root hin (by rw [hrel]; rfl)) ?_⟩
    -- The depth the loop ends with is zero or that of a match.
    by_contra hlt
    have hpos : 0 < (t.roots.foldl (t.takeRoot u p) (0, [])).1 := by omega
    obtain ⟨r, hr, hsome, hlen⟩ := hfound.taken hpos
    have := hall r hr hsome
    omega

variable (u t)

/-- A directory that appeared brings something: the walk descends into it, and its first
listing has an entry. -/
def brings (ans : Answers) (dir : LocalPath) : Bool :=
  t.admits u ans dir && ans.readDir.head?.any (·.any (!·.isEmpty))

variable {u t}

theorem addTree_found_eq_nil {ans : Answers} {dir : LocalPath} (h : t.brings u ans dir = false) :
    (t.addTree u ans dir).2 = [] := by
  rw [addTree]
  cases hread : ans.readDir with
  | nil => simp [addTreeLoop]
  | cons listed later =>
    have hdone : ∀ t', (addTreeLoop u ans later t' []).2 = [] := by
      intro t'
      cases later with
      | nil => simp [addTreeLoop]
      | cons next later => simp [addTreeLoop, nextDir]
    simp only [brings, hread, List.head?_cons, Option.any_some, Bool.and_eq_false_iff] at h
    by_cases hadm : t.admits u ans dir = true
    · have hempty : listed = none ∨ listed = some [] := by
        rcases h with h | h
        · rw [hadm] at h
          simp at h
        · cases listed with
          | none => exact .inl rfl
          | some entries =>
            have : entries = [] := by simpa using h
            exact .inr (by rw [this])
      rcases hempty with rfl | rfl
      · simp [addTreeLoop, nextDir, hadm, hdone]
      · simp [addTreeLoop, nextDir, hadm, hdone, subdirs]
    · simp [addTreeLoop, nextDir, hadm]

end Tree
end RemoteDocker.FsWatch

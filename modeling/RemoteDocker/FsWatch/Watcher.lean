import RemoteDocker.Base.Machine
import RemoteDocker.FsWatch.Tree

/-!
# Handling one backend event

`src/core-client/fswatch/watch.go:353-491`. Each event goes two ways: to the observer, which
is the cache, and into the coalescer, which is what the workspace is told. Both are kept here
as everything they were given; what the coalescer merges and when it flushes is its own.
-/

namespace RemoteDocker.FsWatch

open Base

/-- `notify.Op`, a set of operations. -/
structure Op where
  create : Bool := false
  write : Bool := false
  remove : Bool := false
  rename : Bool := false
  attrib : Bool := false
  deriving DecidableEq, Repr

structure Event where
  exportPath : String
  path : SharePath
  op : Op
  dir : Bool
  deriving DecidableEq, Repr

/-- `fsnotify.Event`. -/
structure BackendEvent where
  name : LocalPath
  create : Bool := false
  write : Bool := false
  remove : Bool := false
  rename : Bool := false
  chmod : Bool := false
  deriving DecidableEq, Repr

def opFor (e : BackendEvent) : Op where
  create := e.create
  write := e.write
  remove := e.remove
  rename := e.rename
  attrib := e.chmod

def base (p : LocalPath) : String := (p.filter (· != "")).getLast?.getD "."

/-- How the temporary a write-back lands a file through is named. -/
def writebackPrefix : String := ".rd-writeback-"

/-- The event is for the temporary of a write-back, which is never reported. -/
def BackendEvent.temporary (e : BackendEvent) : Bool :=
  writebackPrefix.toList.isPrefixOf (base e.name).toList

/-- What the mode of a root lets through: a partial watch does not misrepresent a deletion. -/
def Op.stripped (op : Op) (mode : Watch) : Op :=
  if mode = .watchPartial then { op with remove := false, rename := false } else op

/-- The watcher: its tree, what the observer was told, and what was added to the coalescer. -/
structure State where
  tree : Tree
  observed : List Event := []
  added : List Event := []

namespace State

variable (u : CaseTables)

/-- One event to one share. The observer is told before the mode strips anything. -/
def deliver (op : Op) (isDir : Bool) (s : State) (m : RootMatch) : State :=
  let s' := { s with observed := s.observed ++ [⟨m.root.exportPath, m.rel, op, isDir⟩] }
  let op' := op.stripped m.root.mode
  if op' = {} then s' else { s' with added := s'.added ++ [⟨m.root.exportPath, m.rel, op', isDir⟩] }

/-- What the walk of a directory that appeared adds for one thing it found: a creation under
each root the event was matched to. -/
def emitted (goos : Goos) (roots : List RootMatch) (found : LocalPath × Bool) : List Event :=
  roots.filterMap fun m ↦
    (relativeTo u goos m.root.parts found.1).map fun rel ↦
      ⟨m.root.exportPath, rel, { create := true }, found.2⟩

/-- The tree an event leaves, what its walk found, and whether the path is a directory. -/
def follow (t : Tree) (e : BackendEvent) (ans : Answers) : Tree × List (LocalPath × Bool) × Bool :=
  let isDir := t.watching u e.name
  if e.create then
    if ans.isDir then
      if t.isExcluded u (base e.name) then (t, [], true)
      else
        let (t', found) := t.addTree u ans e.name
        (t', found, true)
    else (t, [], isDir)
  else if e.rename then (if isDir then t.removeTree u e.name else t, [], isDir)
  else if e.remove then (if isDir then t.removeOne u e.name else t, [], isDir)
  else (t, [], isDir)

/-- Turns one backend event into pending work. -/
def handle (s : State) (e : BackendEvent) (ans : Answers) : State :=
  let roots := s.tree.rootsFor u e.name
  if e.temporary || roots.isEmpty then s
  else
    let (t, found, isDir) := follow u s.tree e ans
    let s' := { s with tree := t
                       added := s.added ++ found.flatMap (emitted u s.tree.goos roots) }
    let op := opFor e
    if op = {} then s' else roots.foldl (deliver op isDir) s'

/-- What the watcher works on: the shares that exist now, or a backend event. -/
inductive Input where
  | sync (asked : List (Share × Answers))
  | event (e : BackendEvent) (ans : Answers)

/-- One turn of `process`. -/
def step (s : State) : Input → Option State
  | .sync asked => some { s with tree := s.tree.sync u asked }
  | .event e ans => some (s.handle u e ans)

def machine : Machine State Input := ⟨step u⟩

def Told (s : State) (e : Event) : Prop :=
  ∃ o ∈ s.observed, o.exportPath = e.exportPath ∧ o.path = e.path

variable {u}

/-- Delivering to some roots tells the observer of each, and adds nothing the observer is not
told of. -/
theorem foldl_deliver (op : Op) (isDir : Bool) (ms : List RootMatch) (s : State) :
    let s' := ms.foldl (deliver op isDir) s
    s'.observed = s.observed ++ ms.map (fun m ↦ ⟨m.root.exportPath, m.rel, op, isDir⟩) ∧
      ∀ e ∈ s'.added, e ∈ s.added ∨ ∃ m ∈ ms, e.exportPath = m.root.exportPath ∧
        e.path = m.rel := by
  induction ms generalizing s with
  | nil =>
    refine ⟨by simp, ?_⟩
    intro e he
    exact .inl he
  | cons m ms ih =>
    obtain ⟨hobs, hadd⟩ := ih (deliver op isDir s m)
    rw [List.foldl_cons]
    have hone : (deliver op isDir s m).observed =
        s.observed ++ [⟨m.root.exportPath, m.rel, op, isDir⟩] := by
      simp only [deliver]
      split
      · rfl
      · rfl
    constructor
    · rw [hobs, hone, List.map_cons, List.append_assoc, List.singleton_append]
    · intro e he
      rcases hadd e he with h | ⟨m', hm', hrest⟩
      · simp only [deliver] at h
        split at h
        · exact .inl h
        · rcases List.mem_append.mp h with h | h
          · exact .inl h
          · rw [List.mem_singleton.mp h]
            exact .inr ⟨m, (.head _), rfl, rfl⟩
      · exact .inr ⟨m', .tail _ hm', hrest⟩

/-- An event that is reported at all is told to the observer once for every root its path
belongs to. -/
theorem observed_handle {s : State} {e : BackendEvent} {ans : Answers}
    (htemp : e.temporary = false) (hop : opFor e ≠ {}) :
    (s.handle u e ans).observed = s.observed ++ (s.tree.rootsFor u e.name).map
      (fun m ↦ ⟨m.root.exportPath, m.rel, opFor e, (follow u s.tree e ans).2.2⟩) := by
  rw [handle, htemp]
  by_cases hroots : s.tree.rootsFor u e.name = []
  · simp [hroots]
  · have hsome : (s.tree.rootsFor u e.name).isEmpty = false := by simpa using hroots
    simp only [hsome, Bool.or_self, Bool.false_eq_true, if_false, if_neg hop]
    apply (foldl_deliver _ _ _ _).1

variable (u)

/-- The walk of a directory that appeared finds nothing to report: the event is not one that
makes the watcher walk, or the directory brings nothing. -/
def careful (s : State) : Input → Bool
  | .sync _ => true
  | .event e ans =>
    e.temporary || (s.tree.rootsFor u e.name).isEmpty ||
      !(e.create && ans.isDir && !s.tree.isExcluded u (base e.name) && s.tree.brings u ans e.name)

variable {u}

private theorem follow_found_eq_nil {t : Tree} {e : BackendEvent} {ans : Answers}
    (h : (e.create && ans.isDir && !t.isExcluded u (base e.name) && t.brings u ans e.name) =
      false) : (follow u t e ans).2.1 = [] := by
  simp only [follow]
  split
  · next hcreate =>
    split
    · next hdir =>
      split
      · rfl
      · next hex =>
        have hnot : t.brings u ans e.name = false := by simpa [hcreate, hdir, hex] using h
        exact Tree.addTree_found_eq_nil hnot
    · rfl
  · split
    · rfl
    · split
      · rfl
      · rfl

/-- The observer has been told of everything the coalescer was given. -/
def AllTold (s : State) : Prop := ∀ e ∈ s.added, s.Told e

/-- Handling an event whose walk finds nothing leaves the observer told of everything. -/
theorem AllTold.handle {s : State} {e : BackendEvent} {ans : Answers} (hs : s.AllTold)
    (hc : s.careful u (.event e ans) = true) : (s.handle u e ans).AllTold := by
  by_cases hskip : (e.temporary || (s.tree.rootsFor u e.name).isEmpty) = true
  · rw [State.handle, if_pos hskip]
    exact hs
  · have hfound : (follow u s.tree e ans).2.1 = [] := by
      apply follow_found_eq_nil
      rw [careful, Bool.or_eq_true, Bool.not_eq_true'] at hc
      exact hc.resolve_left hskip
    simp only [State.handle, if_neg hskip, hfound, List.flatMap_nil, List.append_nil]
    split
    · exact hs
    · have hfold := foldl_deliver (opFor e) (follow u s.tree e ans).2.2
        (s.tree.rootsFor u e.name) { s with tree := (follow u s.tree e ans).1 }
      intro ev hev
      rw [Told, hfold.1]
      rcases hfold.2 ev hev with hold | ⟨m, hm, hexp, hpath⟩
      · obtain ⟨o, ho, hsame⟩ := hs ev hold
        exact ⟨o, List.mem_append_left _ ho, hsame⟩
      · refine ⟨_, List.mem_append_right _ (List.mem_map_of_mem hm), ?_⟩
        rw [hexp, hpath]
        exact ⟨rfl, rfl⟩

private theorem allTold_step {s s' : State} {i : Input} (hs : s.AllTold) (hc : s.careful u i = true)
    (h : s.step u i = some s') : s'.AllTold := by
  cases i with
  | sync asked =>
    rw [step, Option.some.injEq] at h
    rw [← h]
    exact hs
  | event e ans =>
    rw [step, Option.some.injEq] at h
    rw [← h]
    exact hs.handle hc

/-- The cache is told of everything the workspace is told of, in every run in which no
directory that appears brings anything with it. -/
theorem observer_told_of_added (u : CaseTables) (t : Tree) (inputs : List Input) (s : State)
    (hw : (machine u).Within (fun s i ↦ s.careful u i = true) { tree := t } inputs)
    (hr : (machine u).run { tree := t } inputs = some s) : ∀ e ∈ s.added, s.Told e := by
  have hinit : AllTold { tree := t } := by
    intro e he
    simp at he
  have hall : s.AllTold := (machine u).run_invariant (fun s i ↦ s.careful u i = true)
    (fun _ _ _ hs hc h ↦ allTold_step hs hc h) hinit hw hr
  exact hall

/-! The counterexample and the witness: a share of one directory, on a system that does not
fold case. -/

def exactCase : CaseTables := ⟨id, id⟩

def oneShare : Tree where
  goos := .linux
  budget := 4096
  exclude := [".git"]
  roots := [⟨"/m/1", ["", "p"], ["p"], .watchPartial, ""⟩]
  dirs := (∅ : AList fun _ : List String ↦ LocalPath).insert ["p"] ["", "p"]

/-- A directory that appears with a file in it: the file is added to the coalescer, and the
observer is told of the directory alone. -/
theorem new_directory_file_not_observed :
    (((machine exactCase).run { tree := oneShare }
        [.event { name := ["", "p", "new"], create := true }
          { isDir := true, readDir := [some [{ name := "f" }]] }]).map
      fun s ↦ (s.added.map (·.path), s.observed.map (·.path))) =
        some ([["new", "f"], ["new"]], [["new"]]) := by
  decide

/-- The condition is met by an empty directory that appears, and by the file made in it
after. -/
theorem observer_told_of_added_emptyDir :
    ∃ s, (machine exactCase).run { tree := oneShare }
        [.event { name := ["", "p", "new"], create := true }
            { isDir := true, readDir := [some []] },
          .event { name := ["", "p", "new", "f"], create := true } {}] = some s ∧
      s.added.map (·.path) = [["new"], ["new", "f"]] ∧ ∀ e ∈ s.added, s.Told e := by
  obtain ⟨s, hs, hadded⟩ : ∃ s, (machine exactCase).run { tree := oneShare }
      [.event { name := ["", "p", "new"], create := true } { isDir := true, readDir := [some []] },
        .event { name := ["", "p", "new", "f"], create := true } {}] = some s ∧
      s.added.map (·.path) = [["new"], ["new", "f"]] := by
    decide
  exact ⟨s, hs, hadded, observer_told_of_added _ _ _ s (by decide) hs⟩

/-- The share exports the path, as `rel`: the path is under its directory and, for a share of
one file, is that file under the local filesystem's case rules. -/
def Exports (u : CaseTables) (goos : Goos) (r : ShareRoot) (p : LocalPath) (rel : SharePath) :
    Prop :=
  relativeTo u goos r.parts p = some rel ∧
    (r.only = "" ∨ ∃ name, rel = [name] ∧ foldEqual u goos name r.only = true)

/-- The share exports the path under the spelling it was mounted with. -/
def ExportsAsNamed (u : CaseTables) (goos : Goos) (r : ShareRoot) (p : LocalPath)
    (rel : SharePath) : Prop :=
  relativeTo u goos r.parts p = some rel ∧ (r.only = "" ∨ rel = [r.only])

private theorem matchRoot_eq_some {t : Tree} {p : LocalPath} {r : ShareRoot} {rel : SharePath} :
    t.matchRoot u p r = some rel ↔ ExportsAsNamed u t.goos r p rel := by
  rw [Tree.matchRoot, ExportsAsNamed]
  cases hrel : relativeTo u t.goos r.parts p with
  | none => simp
  | some rel' =>
    dsimp only
    by_cases honly : r.only ≠ "" ∧ rel' ≠ [r.only]
    · rw [if_pos honly]
      constructor
      · intro h
        simp at h
      · rintro ⟨heq, hor⟩
        rw [Option.some.injEq] at heq
        rw [← heq] at hor
        exact absurd hor (not_or.mpr honly)
    · rw [if_neg honly, Option.some.injEq]
      have hor : r.only = "" ∨ rel' = [r.only] := by
        by_contra hno
        exact honly (not_or.mp hno)
      constructor
      · intro heq
        rw [← heq]
        exact ⟨rfl, hor⟩
      · exact fun h ↦ h.1

/-- Every event that is not of a write-back's temporary is told to the observer for each share
that exports its path, of those that do at the greatest depth, under the share's own export and
its own path. -/
theorem observer_sees_deepest (u : CaseTables) (s : State) (e : BackendEvent) (ans : Answers)
    (r : ShareRoot) (rel : SharePath) (htemp : e.temporary = false) (hop : opFor e ≠ {})
    (hr : r ∈ s.tree.roots) (hexp : ExportsAsNamed u s.tree.goos r e.name rel)
    (hdeep : ∀ r' ∈ s.tree.roots, ∀ rel', ExportsAsNamed u s.tree.goos r' e.name rel' →
      r'.parts.length ≤ r.parts.length) :
    ∃ told isDir, (s.handle u e ans).observed = s.observed ++ told ∧
      ⟨r.exportPath, rel, opFor e, isDir⟩ ∈ told := by
  have hmem : (⟨r, rel⟩ : RootMatch) ∈ s.tree.rootsFor u e.name := by
    rw [Tree.mem_rootsFor]
    refine ⟨hr, matchRoot_eq_some.mpr hexp, ?_⟩
    intro r' hr' hsome
    obtain ⟨rel', hrel'⟩ := Option.isSome_iff_exists.mp hsome
    exact hdeep r' hr' rel' (matchRoot_eq_some.mp hrel')
  refine ⟨_, (follow u s.tree e ans).2.2, observed_handle htemp hop, ?_⟩
  exact List.mem_map_of_mem hmem

def nestedShares : Tree where
  goos := .linux
  budget := 4096
  exclude := []
  roots := [⟨"/m/outer", ["", "p"], ["p"], .watchPartial, ""⟩,
    ⟨"/m/inner", ["", "p", "d"], ["p", "d"], .watchCoarse, ""⟩]

/-- An edit inside the nested share: the outer share exports the file too and the observer is
told of it for the inner one alone. The temporary of a write-back is told for neither. -/
theorem outer_share_not_told :
    (∃ r ∈ nestedShares.roots, r.exportPath = "/m/outer" ∧
        Exports exactCase .linux r ["", "p", "d", "f"] ["d", "f"]) ∧
      ((State.handle exactCase { tree := nestedShares }
        { name := ["", "p", "d", "f"], write := true }
          {}).observed = [⟨"/m/inner", ["f"], { write := true }, false⟩]) ∧
      (State.handle exactCase { tree := nestedShares }
        { name := ["", "p", "d", ".rd-writeback-1f"], write := true } {}).observed = [] := by
  refine ⟨?_, by decide, by decide⟩
  refine ⟨⟨"/m/outer", ["", "p"], ["p"], .watchPartial, ""⟩, ?_, rfl, ?_⟩
  · exact (.head _)
  · exact ⟨by decide, .inl rfl⟩

/-- A directory and a file in it mounted as a share of its own are at one depth: the file's
event is told for both. -/
theorem observer_sees_deepest_fileShare :
    ∃ told isDir, (State.handle exactCase
        { tree := { nestedShares with
          roots := [⟨"/m/dir", ["", "p"], ["p"], .watchPartial, ""⟩,
            ⟨"/m/file", ["", "p"], ["p"], .watchPartial, "c.conf"⟩] } }
        { name := ["", "p", "c.conf"], write := true } {}).observed = [] ++ told ∧
      ⟨"/m/dir", ["c.conf"], { write := true }, isDir⟩ ∈ told := by
  refine observer_sees_deepest exactCase
    { tree := { nestedShares with
      roots := [⟨"/m/dir", ["", "p"], ["p"], .watchPartial, ""⟩,
        ⟨"/m/file", ["", "p"], ["p"], .watchPartial, "c.conf"⟩] } }
    { name := ["", "p", "c.conf"], write := true } {}
    ⟨"/m/dir", ["", "p"], ["p"], .watchPartial, ""⟩ ["c.conf"] (by decide) (by decide)
    (.head _) ⟨by decide, .inl rfl⟩ ?_
  intro r' hr' rel' _
  simp only [List.mem_cons, List.not_mem_nil, or_false] at hr'
  rcases hr' with rfl | rfl
  · exact le_rfl
  · exact le_rfl

end State
end RemoteDocker.FsWatch

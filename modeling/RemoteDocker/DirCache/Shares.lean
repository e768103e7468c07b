import RemoteDocker.Base.Table
import RemoteDocker.DirCache.Types

/-!
# The record and the manifest of one share

`src/dircache/cache.go:56-81,369-388,531-561,656-956`. The record is every path a batch put
in the cache, the manifest the baseline of each path it holds. A loop over paths that
edits one entry a turn is written as what it leaves, which no order of the paths changes.
What each operation does to the two is said once here; every machine below moves a `Share`
by these operations only.
-/

namespace RemoteDocker.DirCache

open Base

structure Read where
  path : SharePath
  size : Int
  modTime : Int
  deriving DecidableEq, Repr

structure Applied where
  read : List Read := []
  skipped : List SharePath := []
  kept : List SharePath := []
  deriving DecidableEq, Repr

/-- `shares.recorded` and `shares.manifests` of one share. -/
structure Share where
  recorded : Finset SharePath := ∅
  manifest : Manifest := ∅
  deriving DecidableEq

namespace Share

/-- Adds paths to the record, or removes them. A recorded path taken out loses its baseline too. -/
def editRecord (s : Share) (paths : Finset SharePath) (add : Bool) : Share :=
  if add then { s with recorded := s.recorded ∪ paths }
  else
    { recorded := s.recorded \ paths
      manifest := restrict s.manifest fun p ↦ !(p ∈ paths && p ∈ s.recorded) }

/-- One turn of `noteSent`'s loop. A file carried back from the consumer and sent again
unchanged is still the consumer's. -/
def noteRead (m : Manifest) (r : Read) : Manifest :=
  let b : Baseline := { size := r.size, modTime := r.modTime }
  m.insert r.path <|
    match m.lookup r.path with
    | none => b
    | some old =>
      if old.consumer != 0 && old.sameFile b then { b with consumer := old.consumer } else b

/-- The baseline of each file a batch landed, as the Store read it. -/
def noteSent (s : Share) (read : List Read) : Share :=
  { s with manifest := read.foldl noteRead s.manifest }

/-- What a batch put in the cache. What the far end left out or kept is neither recorded nor
compared against. -/
def noteApplied (s : Share) (applied : Applied) : Share :=
  let notOurs := (applied.skipped ++ applied.kept).toFinset
  (s.editRecord notOurs false).noteSent (applied.read.filter (·.path ∉ notOurs))

/-- The paths given, and every recorded path under one of them. -/
def recordedUnder (s : Share) (paths : List SharePath) : Finset SharePath :=
  paths.toFinset ∪ s.recorded.filter fun p ↦ ∃ d ∈ paths, d.Above p

/-- A file as this machine has it. -/
def baselineOf (localAt : SharePath → Option FileInfo) (p : SharePath) : Option Baseline :=
  (localAt p).map fun info ↦ { size := info.size, modTime := info.modTime }

/-- Its target's length and its own modification time. -/
def linkBaseline (target : String) (mod : Int) : Baseline :=
  { size := target.utf8ByteSize, modTime := mod }

/-- One turn of `rebase`'s loop. `lstat` answers the modification time of what is at a
path, not following a link. -/
def rebaseAction (localAt : SharePath → Option FileInfo) (lstat : SharePath → Option Int)
    (m : Manifest) (a : Action) : Manifest :=
  if a.kind == .delete then m.erase a.path
  else if a.kind == .link then
    match lstat a.path with
    | some mod => m.insert a.path (linkBaseline a.link mod)
    | none => m.erase a.path
  else if a.kind == .write || a.kind == .adopt || (a.kind == .conflict && a.wins) then
    match baselineOf localAt a.path with
    | some b => m.insert a.path { b with consumer := a.consumer }
    | none => m.erase a.path
  else m

/-- What both sides now agree on, as the disk has it when it is called. -/
def rebase (s : Share) (localAt : SharePath → Option FileInfo) (lstat : SharePath → Option Int)
    (actions : List Action) : Share :=
  { s with manifest := actions.foldl (rebaseAction localAt lstat) s.manifest }

/-- What `set` makes at the next attach of a saved `snapshot`: every recorded path, and the
baselines of those that had one with a time. -/
def reload (s : Share) : Share where
  recorded := s.recorded
  manifest := restrict s.manifest fun p ↦
    p ∈ s.recorded && (s.manifest.lookup p).any (·.modTime != zeroTime)

@[simp] theorem recorded_editRecord_true (s : Share) (ps : Finset SharePath) :
    (s.editRecord ps true).recorded = s.recorded ∪ ps := rfl

@[simp] theorem recorded_editRecord_false (s : Share) (ps : Finset SharePath) :
    (s.editRecord ps false).recorded = s.recorded \ ps := rfl

@[simp] theorem recorded_noteApplied (s : Share) (applied : Applied) :
    (s.noteApplied applied).recorded =
      s.recorded \ (applied.skipped ++ applied.kept).toFinset := rfl

@[simp] theorem mem_recordedUnder {s : Share} {paths : List SharePath} {p : SharePath} :
    p ∈ s.recordedUnder paths ↔ p ∈ paths ∨ p ∈ s.recorded ∧ ∃ d ∈ paths, d.Above p := by
  simp [recordedUnder]

@[simp] theorem manifest_editRecord_true (s : Share) (ps : Finset SharePath) :
    (s.editRecord ps true).manifest = s.manifest := rfl

theorem lookup_editRecord_false (s : Share) (ps : Finset SharePath) (p : SharePath) :
    (s.editRecord ps false).manifest.lookup p =
      if p ∈ ps ∧ p ∈ s.recorded then none else s.manifest.lookup p := by
  simp only [editRecord, Bool.false_eq_true, if_false, lookup_restrict]
  by_cases h : p ∈ ps ∧ p ∈ s.recorded
  · simp [h]
  · simp [h]

variable {s : Share} {p : SharePath} {b : Baseline} {localAt : SharePath → Option FileInfo}
  {lstat : SharePath → Option Int}

theorem lookup_of_editRecord {ps : Finset SharePath} {add : Bool}
    (h : (s.editRecord ps add).manifest.lookup p = some b) :
    s.manifest.lookup p = some b := by
  cases add with
  | true => exact h
  | false =>
    rw [lookup_editRecord_false] at h
    split at h
    · simp at h
    · exact h

private theorem lookup_noteRead_ne {m : Manifest} {r : Read} (h : p ≠ r.path) :
    (noteRead m r).lookup p = m.lookup p :=
  AList.lookup_insert_ne h

private theorem lookup_noteRead_self (m : Manifest) (r : Read) :
    ∃ b, (noteRead m r).lookup r.path = some b ∧ b.size = r.size ∧ b.modTime = r.modTime := by
  refine ⟨_, AList.lookup_insert m, ?_⟩
  cases m.lookup r.path with
  | none => exact ⟨rfl, rfl⟩
  | some old =>
    dsimp only
    split
    · exact ⟨rfl, rfl⟩
    · exact ⟨rfl, rfl⟩

/-- A baseline after a send is an old one, or that of what was read. -/
theorem lookup_of_noteSent {read : List Read} (h : (s.noteSent read).manifest.lookup p = some b) :
    s.manifest.lookup p = some b ∨
      ∃ r ∈ read, r.path = p ∧ b.size = r.size ∧ b.modTime = r.modTime := by
  simp only [noteSent] at h
  generalize s.manifest = m at h ⊢
  induction read generalizing m with
  | nil => exact .inl h
  | cons r read ih =>
    rcases ih (noteRead m r) h with hm | ⟨r', hr', hread⟩
    · by_cases hp : p = r.path
      · obtain ⟨b', hb', hsize, hmod⟩ := lookup_noteRead_self m r
        rw [hp, hb', Option.some.injEq] at hm
        subst hm
        exact .inr ⟨r, (.head _), hp.symm, hsize, hmod⟩
      · rw [lookup_noteRead_ne hp] at hm
        exact .inl hm
    · exact .inr ⟨r', .tail _ hr', hread⟩

theorem lookup_rebase_of_ne {a : Action} (h : p ≠ a.path) :
    (s.rebase localAt lstat [a]).manifest.lookup p = s.manifest.lookup p := by
  simp only [rebase, List.foldl_cons, List.foldl_nil, rebaseAction]
  split
  · exact AList.lookup_erase_ne h
  · split
    · split
      · exact AList.lookup_insert_ne h
      · exact AList.lookup_erase_ne h
    · split
      · split
        · exact AList.lookup_insert_ne h
        · exact AList.lookup_erase_ne h
      · rfl

theorem lookup_rebase_of_fetches {a : Action} {info : FileInfo} (hf : a.fetches = true)
    (hi : localAt a.path = some info) : (s.rebase localAt lstat [a]).manifest.lookup a.path =
      some { size := info.size, modTime := info.modTime, consumer := a.consumer } := by
  have hkind : a.kind = .write ∨ a.kind = .conflict ∧ a.wins = true := by
    simpa [Action.fetches] using hf
  simp only [rebase, List.foldl_cons, List.foldl_nil, rebaseAction, baselineOf,
    hi, Option.map_some]
  rcases hkind with hk | ⟨hk, hw⟩
  · simp [hk]
  · simp [hk, hw]

theorem lookup_of_rebase {actions : List Action}
    (h : (s.rebase localAt lstat actions).manifest.lookup p = some b) :
    s.manifest.lookup p = some b ∨ ∃ a ∈ actions, a.path = p ∧ a.kind ≠ .delete := by
  induction actions generalizing s with
  | nil => exact .inl h
  | cons a actions ih =>
    have hstep : ((s.rebase localAt lstat [a]).rebase localAt lstat actions).manifest.lookup p =
        some b := h
    rcases ih hstep with hm | ⟨a', ha', hrest⟩
    · by_cases hp : p = a.path
      · refine .inr ⟨a, (.head _), hp.symm, ?_⟩
        intro hk
        rw [hp] at hm
        simp [rebase, rebaseAction, hk] at hm
      · rw [lookup_rebase_of_ne hp] at hm
        exact .inl hm
    · exact .inr ⟨a', .tail _ ha', hrest⟩

theorem lookup_of_reload (h : s.reload.manifest.lookup p = some b) :
    p ∈ s.recorded ∧ s.manifest.lookup p = some b := by
  rw [reload, lookup_restrict] at h
  split at h
  · next hk =>
    rw [Bool.and_eq_true, decide_eq_true_eq] at hk
    exact ⟨hk.1, h⟩
  · simp at h

end Share
end RemoteDocker.DirCache

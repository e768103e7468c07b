import RemoteDocker.DirCache.Types

/-!
# What a consumer's changes mean for the files here

`src/dircache/decide.go`. `Deciding` is everything a round decides against; one change
is decided on its own (`decideChange`), so a list of changes is decided change by change
and only the state seen at a path is joined afterwards.
-/

namespace RemoteDocker.DirCache

open Base

/-- The consumer's time is a copy of ours, either side perhaps rounded to the second. -/
def copiedTime (theirs : Int) (ours : Int) : Bool :=
  theirs == ours || theirs == round ours second || round theirs second == ours

/-- The change is the version this baseline stands for (`decide.go:58-66`). -/
def Baseline.carries (b : Baseline) (c : Change) : Bool :=
  if c.size != b.size then false
  else if b.consumer != 0 && c.modTime == b.consumer then true
  else copiedTime c.modTime b.modTime

/-- The change has the size and time of the file here (`decide.go:72-74`). -/
def sameContent (c : Change) (info : FileInfo) : Bool :=
  c.size == info.size && copiedTime c.modTime info.modTime

/-- The consumer's time, less the skew, is later than ours by more than `lead`. -/
def consumerLater (theirs : Int) (ours : Int) (skew lead : Int) : Bool :=
  ours + lead < theirs - skew

/-- The execute bit that would make the file here match the consumer's (`decide.go:460-473`). -/
def execFlip (c : Change) (info : Option FileInfo) (exec : UInt32) : Int :=
  match info with
  | none => 0
  | some i =>
    if exec == 0 || c.changed == 0 then 0
    else
      let theirs := c.mode &&& exec != 0
      let ours := i.mode &&& 0o111 != 0
      if theirs == ours then 0 else if theirs then 1 else -1

/-- `cmp.Or(change.Changed, change.ModTime)`: the change time, or from an older consumer
the modification time. -/
def Change.writtenAt (c : Change) : Int := if c.changed != 0 then c.changed else c.modTime

/-- What one call of `decide` is given beside the changes. A change time oracle that is
nil knows nothing. -/
structure Deciding extends Sight where
  manifest : Manifest
  recorded : Finset SharePath
  skew : Int
  margin : Int
  exec : UInt32

/-- What one change came to: the action, if any, and the change time the decision read. -/
structure Verdict where
  action : Option Action := none
  read : Option Int := none
  deriving DecidableEq

namespace Deciding

/-- The record has a path at `p` or under it. -/
def held (d : Deciding) (p : SharePath) : Bool :=
  p != [] && Decidable.decide (∃ r ∈ d.recorded, p.AtOrUnder r)

/-- Our change time and whether the consumer is later by more than `lead`, where both times are
known. -/
def lastWriter (d : Deciding) (p : SharePath) (theirs : Int) (lead : Int) :
    Option (Int × Bool) :=
  if theirs == 0 then none
  else (d.ctimeAt p).map fun ours ↦ (ours, consumerLater theirs ours d.skew lead)

/-- A conflict this machine wins. -/
def keep (p : SharePath) (why : String) : Action :=
  { path := p, kind := .conflict, why := why }

/-- Who wins a file both sides changed: by the change times where both are known, with
no margin, and otherwise by the modification times. -/
def heldWins (d : Deciding) (change : Change) (i : FileInfo) : Bool :=
  match d.lastWriter change.path change.changed 0 with
  | some (_, last) => last
  | none => i.modTime < change.modTime - d.skew

/-- The table for a file the cache holds, each side compared against the baseline the fill sent. -/
def decideHeld (d : Deciding) (change : Change) (base : Baseline) (info : Option FileInfo) :
    Verdict :=
  let p := change.path
  let youChanged := match info with
    | none => true
    | some i => i.size != base.size || i.modTime != base.modTime
  if change.deleted then
    if info.isNone then {}
    else if youChanged then
      { action := some (keep p "the container deleted it and you changed it; your file is kept") }
    else { action := some { path := p, kind := .delete } }
  else if !youChanged then
    { action := some { path := p, kind := .write, consumer := change.modTime,
                       exec := execFlip change info d.exec } }
  else
    match info with
    | none =>
      { action := some { path := p, kind := .conflict, wins := true, consumer := change.modTime,
                         why :=
                           "you deleted it and the container changed it; its version is kept" } }
    | some i =>
      -- Both sides changed, which is the only case a clock enters.
      let wins := d.heldWins change i
      { action := some { path := p, kind := .conflict, wins := wins, consumer := change.modTime,
                         why := conflictReason wins,
                         exec := if wins then execFlip change info d.exec else 0 }
        read := (d.lastWriter p change.changed 0).map Prod.fst }

/-- The consumer has an empty directory at the path. -/
def decideDir (d : Deciding) (p : SharePath) : Option FileInfo → Verdict
  | none => if d.held p then {} else { action := some { path := p, kind := .mkdir } }
  | some i => if i.isDir then {} else { action := some (keep p whyFileHere) }

/-- This machine has a directory where the consumer changed something. A removed one is
emptied first by the deletions its removal implies. -/
def decideDirHere (d : Deciding) (change : Change) : Verdict :=
  let p := change.path
  if !change.deleted then { action := some (keep p whyDirHere) }
  else
    match d.lastWriter p change.changed d.margin with
    | some (ours, true) =>
      { action := some { path := p, kind := .delete, dir := true }, read := some ours }
    | some (ours, false) => { read := some ours }
    | none => {}

/-- The change is a copy of the file here: nothing but its execute bit can be carried. -/
def decideCopy (d : Deciding) (change : Change) (info : Option FileInfo) : Verdict :=
  let p := change.path
  let flip := execFlip change info d.exec
  if flip != 0 then
    match d.lastWriter p change.changed d.margin with
    | none => { action := some (keep p whyNoChangeTime) }
    | some (ours, true) =>
      { action := some { path := p, kind := .chmod, exec := flip }, read := some ours }
    | some (ours, false) => { action := some (keep p whyYouLater), read := some ours }
  else if (d.manifest.lookup p).isNone then
    { action := some { path := p, kind := .adopt, consumer := change.modTime } }
  else {}

/-- A file the cache never held: the consumer's if it is new, or if the consumer changed
it last by the change times of both sides. -/
def decideUnheld (d : Deciding) (change : Change) (info : Option FileInfo) : Verdict :=
  let p := change.path
  if info.isNone then
    if !change.deleted && p ∉ d.recorded then
      { action := some { path := p, kind := .write, consumer := change.modTime } }
    else {}
  else if change.deleted then
    match d.lastWriter p change.changed d.margin with
    | none =>
      if change.changed == 0 then { action := some (keep p whyOldWorkspace) }
      else { action := some (keep p whyNoChangeTime) }
    | some (ours, true) => { action := some { path := p, kind := .delete }, read := some ours }
    | some (ours, false) => { action := some (keep p whyYouLaterDeleted), read := some ours }
  else
    match d.lastWriter p change.writtenAt d.margin with
    | none => { action := some (keep p whyNoChangeTime) }
    | some (ours, true) =>
      { action := some { path := p, kind := .write, consumer := change.modTime,
                         exec := execFlip change info d.exec }
        read := some ours }
    | some (ours, false) => { action := some (keep p whyYouLater), read := some ours }

/-- The table of `decide` for one change that is neither a link nor a replaced directory, its cases
in the source's order. -/
def decideFile (d : Deciding) (change : Change) : Verdict :=
  let info := d.localAt change.path
  let base := d.manifest.lookup change.path
  if change.dir then d.decideDir change.path info
  else if info.any (·.isDir) then d.decideDirHere change
  else if !change.deleted && info.any (sameContent change) then d.decideCopy change info
  else if !change.deleted && base.any (·.carries change) then {}
  else
    match base with
    | none => d.decideUnheld change info
    | some b => d.decideHeld change b info

/-- One turn of `decide`'s loop. A link is decided by `decideLinks`; a replaced directory
that this machine lacks is made, unless it is the skeleton of one removed here. -/
def decideChange (d : Deciding) (change : Change) : Option Action :=
  if change.link != "" then none
  else if change.isOpaque then
    if (d.localAt change.path).isNone && !d.held change.path then
      some { path := change.path, kind := .mkdir }
    else none
  else (d.decideFile change).action

/-- The entry `seen[p]` has once every change is decided: the state the last file change
of the path was decided on. -/
def seenAt (d : Deciding) (changes : List Change) (p : SharePath) : SeenState :=
  match changes.reverse.find? fun ch ↦ ch.link == "" && !ch.isOpaque && ch.path == p with
  | none => {}
  | some ch => { seenOf (d.localAt p) with ctime := (d.decideFile ch).read }

/-- What to do about everything the consumer changed (`decide.go:244-399`). -/
def decide (d : Deciding) (changes : List Change) : List Action :=
  (changes.filterMap d.decideChange).map fun a ↦ { a with seen := d.seenAt changes a.path }

/-- A share of one file the cache never held, changed here at `ours`, decided with no skew
and no execute bits. -/
def ofFile (p : SharePath) (i : FileInfo) (ours margin : Int) : Deciding where
  manifest := ∅
  recorded := ∅
  localAt := fun q ↦ if q = p then some i else none
  ctimeAt := fun q ↦ if q = p then some ours else none
  skew := 0
  margin := margin
  exec := 0

variable {d : Deciding} {ch : Change} {a : Action} {changes : List Change}

private theorem path_of_decideFile (h : (d.decideFile ch).action = some a) : a.path = ch.path := by
  cases hi : d.localAt ch.path with
  | none => grind [decideFile, decideDir, decideUnheld, decideHeld]
  | some i =>
    grind [decideFile, decideDir, decideDirHere, decideCopy, decideUnheld, decideHeld, keep]

/-- A decision is about the path of its change. -/
theorem path_of_decideChange (h : d.decideChange ch = some a) : a.path = ch.path := by
  unfold decideChange at h
  split at h
  · simp at h
  · split at h
    · split at h
      · simp only [Option.some.injEq] at h
        rw [← h]
      · simp at h
    · exact path_of_decideFile h

/-- Each action of a round is what one change came to, with what was seen. -/
theorem mem_decide : a ∈ d.decide changes ↔ ∃ ch ∈ changes, ∃ a₀, d.decideChange ch = some a₀ ∧
      { a₀ with seen := d.seenAt changes ch.path } = a := by
  simp only [decide, List.mem_map, List.mem_filterMap]
  constructor
  · rintro ⟨a₀, ⟨ch, hch, ha₀⟩, rfl⟩
    exact ⟨ch, hch, a₀, ha₀, by rw [path_of_decideChange ha₀]⟩
  · rintro ⟨ch, hch, a₀, ha₀, rfl⟩
    exact ⟨a₀, ⟨ch, hch, ha₀⟩, by rw [path_of_decideChange ha₀]⟩

theorem ctimeAt_of_lastWriter {p : SharePath} {theirs lead ours : Int} {last : Bool}
    (h : d.lastWriter p theirs lead = some (ours, last)) : d.ctimeAt p = some ours := by
  unfold lastWriter at h
  split at h
  · simp at h
  · obtain ⟨c, hc, heq⟩ := Option.map_eq_some_iff.mp h
    rw [Prod.mk.injEq] at heq
    rw [hc, heq.1]

private theorem ctimeAt_of_map_lastWriter {p : SharePath} {theirs lead ours : Int}
    (h : (d.lastWriter p theirs lead).map Prod.fst = some ours) : d.ctimeAt p = some ours := by
  obtain ⟨⟨c, last⟩, hlast, rfl⟩ := Option.map_eq_some_iff.mp h
  exact ctimeAt_of_lastWriter hlast

private theorem read_decideFile (d : Deciding) (ch : Change) (c : Int)
    (h : (d.decideFile ch).read = some c) : d.ctimeAt ch.path = some c := by
  cases hi : d.localAt ch.path with
  | none => grind [decideFile, decideDir, decideUnheld, decideHeld]
  | some i =>
    grind [decideFile, decideDir, decideDirHere, decideCopy, decideUnheld, decideHeld,
      ctimeAt_of_lastWriter, ctimeAt_of_map_lastWriter]

/-- An action that changes a file here saw what this machine had at its path, and the change
time there if it read one. -/
theorem seenAt_eq (hch : ch ∈ changes) (hlink : ch.link = "") (hop : ch.isOpaque = false) :
    ∃ c, d.seenAt changes ch.path = { seenOf (d.localAt ch.path) with ctime := c } ∧
      ∀ ours, c = some ours → d.ctimeAt ch.path = some ours := by
  unfold seenAt
  split
  · next hnone =>
    have hno := List.find?_eq_none.mp hnone ch (List.mem_reverse.mpr hch)
    simp [hlink, hop] at hno
  · next ch' hsome =>
    have hpath : ch'.path = ch.path := by
      have := List.find?_some hsome
      simp only [Bool.and_eq_true, beq_iff_eq] at this
      exact this.2
    refine ⟨_, rfl, ?_⟩
    intro ours hours
    rw [← hpath]
    exact read_decideFile d ch' ours hours

theorem seenAt_of_once (hch : ch ∈ changes)
    (honce : ∀ c ∈ changes, c.path = ch.path → c = ch) (hlink : ch.link = "")
    (hop : ch.isOpaque = false) : d.seenAt changes ch.path =
      { seenOf (d.localAt ch.path) with ctime := (d.decideFile ch).read } := by
  rw [seenAt]
  split
  · next hnone =>
    have hno := List.find?_eq_none.mp hnone ch (List.mem_reverse.mpr hch)
    simp [hlink, hop] at hno
  · next c hsome =>
    have hmem : c ∈ changes := List.mem_reverse.mp (List.mem_of_find?_eq_some hsome)
    have hpath : c.path = ch.path := by
      have hfound := List.find?_some hsome
      simp only [Bool.and_eq_true, beq_iff_eq] at hfound
      exact hfound.2
    rw [honce c hmem hpath]

end Deciding
end RemoteDocker.DirCache

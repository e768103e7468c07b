import RemoteDocker.Base.Chunks
import RemoteDocker.Base.Table
import RemoteDocker.DirCache.LastWriter

/-!
# The deletions a removed directory implies

The union records a removed or replaced directory once, for itself. What it held is found
here: in the manifest (`src/dircache/replace.go:36-68`) and, for files the cache never
held, by a walk made once for each removal (`src/dircache/writeback.go:338-432`,
`src/dircache/wbstate.go:360-382`), each path then confirmed with the consumer in chunks
(`src/dircache/writeback.go:183-217`) and decided like any other deletion
(`src/dircache/writeback.go:260-300`).

`Tree` is what this machine has of a share; what cannot be read is not in it. A share is
attached throughout, so `walked` always remembers.
-/

namespace RemoteDocker.DirCache

open Base

/-- What this machine has of a share. Whatever is there has directories above it. -/
structure Tree where
  nodes : AList fun _ : SharePath ↦ Node
  closed : ∀ p ∈ nodes.keys, ∀ d ∈ SharePath.dirsAbove p,
    (nodes.lookup d).any (fun n ↦ n.dir) = true

def Tree.sight (tree : Tree) : Sight where
  localAt := fun p ↦ (tree.nodes.lookup p).bind (·.stat)
  ctimeAt := fun p ↦ (tree.nodes.lookup p).bind (·.ctime)

def writebackPrefix : String := ".rd-writeback-"

/-- The path is named like one of write-back's own temporaries. -/
def isTemporary (p : SharePath) : Bool :=
  p.getLast?.any fun name ↦ writebackPrefix.toList.isPrefixOf name.toList

/-- Every path under a directory on this machine. -/
def walkLocal (tree : Tree) (dir : SharePath) : List SharePath :=
  if dir ≠ [] ∧ (tree.nodes.lookup dir).any (fun n ↦ n.dir) then
    tree.nodes.keys.filter fun p ↦ dir.Above p && !isTemporary p
  else []

/-- One listing of a directory, for the removal it was made for. -/
structure Listing where
  since : Int
  paths : List SharePath
  deriving DecidableEq

abbrev Walks := AList fun _ : SharePath ↦ Listing

/-- The listing of a directory made for the removal at `since`, or one made now. -/
def walked (walks : Walks) (tree : Tree) (dir : SharePath) (since : Int) : List SharePath :=
  match walks.lookup dir with
  | some l => if l.since = since then l.paths else walkLocal tree dir
  | none => walkLocal tree dir

/-- The change removes or replaces what is at its path. -/
def Change.hides (ch : Change) : Bool := ch.isOpaque || ch.deleted

/-- When the consumer removed or replaced a directory, the last report of it standing. -/
def hiddenAt (changes : List Change) (dir : SharePath) : Option Int :=
  (changes.reverse.find? fun ch ↦ ch.path == dir && ch.hides).map (·.changed)

/-- When a path went from the consumer's view. -/
def earliestHidden (p : SharePath) (hidden : SharePath → Option Int) : Int :=
  earliest (p.dirsAbove.map fun dir ↦ (hidden dir).getD 0)

/-- The path is itself listed, as anything but a replaced directory. -/
def listedAs (changes : List Change) (p : SharePath) : Bool :=
  changes.any fun ch ↦ ch.path == p && !ch.isOpaque

/-- What the fill sent under a removed or replaced directory. Never a file carried back from the
consumer. -/
def replacedDeletions (manifest : Manifest) (changes : List Change) : List SharePath :=
  (manifest.keys.filter fun p ↦
    !listedAs changes p && !(manifest.lookup p).any (·.consumer != 0) &&
      p.dirsAbove.any fun d ↦ (hiddenAt changes d).isSome).insertionSort
    fun a b ↦ a.render ≤ b.render

/-- The directories of `hiddenAt`, each once. -/
def hiddenDirs (changes : List Change) : List SharePath :=
  ((changes.filter (·.hides)).map (·.path)).dedup

/-- What this machine has under them that the cache never held. -/
def unheldUnder (walks : Walks) (tree : Tree) (manifest : Manifest) (changes : List Change) :
    List SharePath :=
  (hiddenDirs changes).flatMap fun dir ↦
    match hiddenAt changes dir with
    | some since =>
      if since = 0 then []
      else (walked walks tree dir since).filter fun p ↦
        (manifest.lookup p).isNone && !listedAs changes p && (tree.nodes.lookup p).isSome
    | none => []

def presentChunk : Nat := 1000

/-- The loop of `confirmedAbsent`: an error keeps its chunk and the ones after it. -/
def absentIn (present : Nat → List SharePath → Except String (List SharePath)) :
    Nat → List (List SharePath) → List SharePath
  | _, [] => []
  | n, chunk :: chunks =>
    match present n chunk with
    | .error _ => []
    | .ok here => chunk.filter (fun p ↦ !here.contains p) ++ absentIn present (n + 1) chunks

/-- The candidates the consumer no longer has, by its answers to one chunk after the other. A store
that cannot say keeps everything. -/
def confirmedAbsent (present : Option (Nat → List SharePath → Except String (List SharePath)))
    (candidates : List SharePath) : List SharePath :=
  match present with
  | none => []
  | some ask => absentIn ask 0 (candidates.toChunks presentChunk)

/-- What one round of a share reads. `aside` are the changes given up on and the union's own
markers, `clashes` those whose name differs only in case from one here, and `present`
answers the question of each chunk in turn. -/
structure RoundInput where
  manifest : Manifest := ∅
  recorded : Finset SharePath := ∅
  tree : Tree
  reported : List Change
  aside : Change → Bool := fun _ ↦ false
  clashes : Change → Bool := fun _ ↦ false
  present : Option (Nat → List SharePath → Except String (List SharePath))
  skew : Int := 0
  margin : Int := 0
  exec : UInt32 := 0

namespace RoundInput

/-- The candidates, sorted and each once. -/
def candidates (r : RoundInput) (walks : Walks) : List SharePath :=
  SharePath.sortCompact
    (replacedDeletions r.manifest r.reported ++ unheldUnder walks r.tree r.manifest r.reported)

def impliedDeletions (r : RoundInput) (walks : Walks) : List Change :=
  if hiddenDirs r.reported = [] then []
  else (confirmedAbsent r.present (r.candidates walks)).map fun p ↦
    { path := p, deleted := true, changed := earliestHidden p (hiddenAt r.reported) }

def deciding (r : RoundInput) : Deciding where
  toSight := r.tree.sight
  manifest := r.manifest
  recorded := r.recorded
  skew := r.skew
  margin := r.margin
  exec := r.exec

/-- The changes a round decides: what was reported and not set aside, and the deletions it
implies. A round with nothing left ends there. -/
def changes (r : RoundInput) (walks : Walks) : List Change :=
  let left := r.reported.filter fun ch ↦ !r.aside ch
  if left.isEmpty then [] else left.filter (fun ch ↦ !r.clashes ch) ++ r.impliedDeletions walks

def decision (r : RoundInput) (walks : Walks) : List Action := r.deciding.decide (r.changes walks)

/-- The listings after a round: the new ones of `walked`, less those of directories no longer
pending (`forget`). -/
def walksAfter (r : RoundInput) (walks : Walks) : Walks :=
  let made := if (r.reported.filter fun ch ↦ !r.aside ch).isEmpty then walks
    else (hiddenDirs r.reported).foldl (fun w dir ↦
      match hiddenAt r.reported dir with
      | some since => if since = 0 then w else w.insert dir ⟨since, walked walks r.tree dir since⟩
      | none => w) walks
  restrict made fun dir ↦ (r.reported ++ r.changes walks).any (·.path == dir)

end RoundInput

def walksOf (history : List RoundInput) : Walks :=
  history.foldl (fun walks r ↦ r.walksAfter walks) ∅

/-! ### Which directories are hidden -/

variable {dir p : SharePath} {tree : Tree} {walks : Walks}

private theorem exists_of_hiddenAt {changes : List Change} {t : Int}
    (h : hiddenAt changes dir = some t) :
    ∃ ch ∈ changes, ch.path = dir ∧ ch.hides = true ∧ ch.changed = t := by
  obtain ⟨ch, hch, rfl⟩ := Option.map_eq_some_iff.mp h
  have hp := List.find?_some hch
  rw [Bool.and_eq_true, beq_iff_eq] at hp
  exact ⟨ch, List.mem_reverse.mp (List.mem_of_find?_eq_some hch), hp.1, hp.2, rfl⟩

private theorem mem_hiddenDirs {changes : List Change} :
    dir ∈ hiddenDirs changes ↔ (hiddenAt changes dir).isSome = true := by
  simp only [hiddenDirs, List.mem_dedup, List.mem_map, List.mem_filter, hiddenAt,
    Option.isSome_map, List.find?_isSome, List.mem_reverse, Bool.and_eq_true, beq_iff_eq]
  constructor
  · rintro ⟨ch, ⟨hch, hh⟩, hp⟩
    exact ⟨ch, hch, hp, hh⟩
  · rintro ⟨ch, hch, hp, hh⟩
    exact ⟨ch, ⟨hch, hh⟩, hp⟩

private theorem listedAs_eq_false {changes : List Change} :
    listedAs changes p = false ↔ ∀ ch ∈ changes, ch.path = p → ch.isOpaque = true := by
  simp [listedAs]

/-- A path went at no known time if no removal above it has one, and else at the earliest. -/
theorem earliestHidden_cases (changes : List Change) (p : SharePath) :
    earliestHidden p (hiddenAt changes) = 0 ∧
        (∀ d : SharePath, d ≠ [] → d.Above p → ∀ t, hiddenAt changes d = some t → t = 0) ∨
      earliestHidden p (hiddenAt changes) ≠ 0 ∧
        (∃ d : SharePath, d ≠ [] ∧ d.Above p ∧
          hiddenAt changes d = some (earliestHidden p (hiddenAt changes))) ∧
        ∀ d : SharePath, d ≠ [] → d.Above p → ∀ t, hiddenAt changes d = some t → t ≠ 0 →
          earliestHidden p (hiddenAt changes) ≤ t := by
  have htime : ∀ d : SharePath, d ≠ [] → d.Above p → ∀ t, hiddenAt changes d = some t →
      t ∈ p.dirsAbove.map fun d ↦ (hiddenAt changes d).getD 0 := by
    intro d hne hd t ht
    exact List.mem_map.mpr ⟨d, SharePath.mem_dirsAbove.mpr ⟨hne, hd⟩, by rw [ht]; rfl⟩
  by_cases hzero : earliestHidden p (hiddenAt changes) = 0
  · refine .inl ⟨hzero, ?_⟩
    intro d hne hd t ht
    exact earliest_eq_zero.mp hzero t (htime d hne hd t ht)
  · refine .inr ⟨hzero, ?_, ?_⟩
    · obtain ⟨d, hd, heq⟩ := List.mem_map.mp (earliest_mem hzero)
      obtain ⟨hne, habove⟩ := SharePath.mem_dirsAbove.mp hd
      refine ⟨d, hne, habove, ?_⟩
      cases ht : hiddenAt changes d with
      | none =>
        rw [ht, Option.getD_none] at heq
        exact absurd heq.symm hzero
      | some t =>
        rw [ht, Option.getD_some] at heq
        rw [earliestHidden, ← heq]
    · intro d hne hd t ht hknown
      exact earliest_le (htime d hne hd t ht) hknown

/-- A path under a directory hidden since a known time went at a known time. -/
theorem earliestHidden_ne_zero {changes : List Change} {since : Int}
    (hdir : dir ≠ []) (habove : dir.Above p) (hhidden : hiddenAt changes dir = some since)
    (hknown : since ≠ 0) : earliestHidden p (hiddenAt changes) ≠ 0 := by
  rcases earliestHidden_cases changes p with ⟨-, hnone⟩ | ⟨hne, -⟩
  · exact absurd (hnone dir hdir habove since hhidden) hknown
  · exact hne

/-! ### Which paths are candidates -/

private theorem mem_walkLocal :
    p ∈ walkLocal tree dir ↔ (dir ≠ [] ∧ (tree.nodes.lookup dir).any (fun n ↦ n.dir) = true) ∧
      p ∈ tree.nodes.keys ∧ dir.Above p ∧ isTemporary p = false := by
  unfold walkLocal
  split
  · next h => simp [h]
  · next h => simp [h]

/-- What the fill sent is a candidate under a hidden directory, unless it is listed or was
carried back. -/
theorem mem_replacedDeletions {manifest : Manifest} {changes : List Change} :
    p ∈ replacedDeletions manifest changes ↔ p ∈ manifest.keys ∧ listedAs changes p = false ∧
      (∀ b, manifest.lookup p = some b → b.consumer = 0) ∧
      ∃ d : SharePath, d ≠ [] ∧ d.Above p ∧ d ∈ hiddenDirs changes := by
  simp only [replacedDeletions, List.mem_insertionSort, List.mem_filter, Bool.and_eq_true,
    Bool.not_eq_true', List.any_eq_true, SharePath.mem_dirsAbove, mem_hiddenDirs,
    Option.any_eq_false, bne_eq_false_iff_eq, and_assoc, ne_eq]

/-- What the cache never held is a candidate when a hidden directory's listing has it, and
it is still there. -/
theorem mem_unheldUnder {manifest : Manifest} {changes : List Change} :
    p ∈ unheldUnder walks tree manifest changes ↔ ∃ dir since, hiddenAt changes dir = some since ∧
      since ≠ 0 ∧ p ∈ walked walks tree dir since ∧ manifest.lookup p = none ∧
      listedAs changes p = false ∧ (tree.nodes.lookup p).isSome = true := by
  simp only [unheldUnder, List.mem_flatMap, mem_hiddenDirs]
  constructor
  · rintro ⟨dir, -, hp⟩
    split at hp
    · next since hsince =>
      split at hp
      · simp at hp
      · next hne =>
        simp only [List.mem_filter, Bool.and_eq_true, Option.isNone_iff_eq_none,
          Bool.not_eq_true'] at hp
        exact ⟨dir, since, hsince, hne, hp.1, hp.2.1.1, hp.2.1.2, hp.2.2⟩
    · simp at hp
  · rintro ⟨dir, since, hsince, hne, hp, hheld, hlisted, hthere⟩
    refine ⟨dir, by simp [hsince], ?_⟩
    simp [hsince, hne, hp, hheld, hlisted, hthere]

/-! ### What the consumer confirms -/

private theorem exists_chunk_of_mem_absentIn
    {present : Nat → List SharePath → Except String (List SharePath)}
    {n : Nat} {chunks : List (List SharePath)} (h : p ∈ absentIn present n chunks) :
    ∃ k chunk here, chunks[k]? = some chunk ∧ present (n + k) chunk = .ok here ∧ p ∈ chunk ∧
      p ∉ here := by
  induction chunks generalizing n with
  | nil => simp [absentIn] at h
  | cons chunk chunks ih =>
    simp only [absentIn] at h
    split at h
    · simp at h
    · next here hhere =>
      rcases List.mem_append.mp h with h | h
      · rw [List.mem_filter, Bool.not_eq_true', List.contains_eq_mem, decide_eq_false_iff_not] at h
        exact ⟨0, chunk, here, rfl, hhere, h.1, h.2⟩
      · obtain ⟨k, chunk', here', hk, hpresent, hp, hnot⟩ := ih h
        refine ⟨k + 1, chunk', here', by simpa using hk, ?_, hp, hnot⟩
        rw [show n + (k + 1) = n + 1 + k by omega]
        exact hpresent

private theorem mem_absentIn {present : Nat → List SharePath → Except String (List SharePath)}
    {n : Nat}
    {chunks : List (List SharePath)} (hanswered : ∀ k chunk, chunks[k]? = some chunk →
      ∃ here, present (n + k) chunk = .ok here ∧ p ∉ here)
    (hp : ∃ chunk ∈ chunks, p ∈ chunk) : p ∈ absentIn present n chunks := by
  induction chunks generalizing n with
  | nil => simp at hp
  | cons chunk chunks ih =>
    obtain ⟨here, hhere, hnot⟩ := hanswered 0 chunk rfl
    rw [Nat.add_zero] at hhere
    simp only [absentIn, hhere, List.mem_append, List.mem_filter, Bool.not_eq_true',
      List.contains_eq_mem, decide_eq_false_iff_not]
    obtain ⟨c, hc, hpc⟩ := hp
    rcases List.mem_cons.mp hc with rfl | hc
    · exact .inl ⟨hpc, hnot⟩
    · refine .inr (ih ?_ ⟨c, hc, hpc⟩)
      intro k chunk' hk
      obtain ⟨here', hhere', hnot'⟩ := hanswered (k + 1) chunk' (by simpa using hk)
      refine ⟨here', ?_, hnot'⟩
      rw [show n + 1 + k = n + (k + 1) by omega]
      exact hhere'

/-! ### Listings remembered from earlier rounds -/

def Rooted (walks : Walks) : Prop :=
  ∀ dir l, walks.lookup dir = some l → ∀ p ∈ l.paths, dir.Above p

/-- What a round uses as the listing of a directory is of paths under it. -/
theorem Rooted.walked (h : Rooted walks)
    {since : Int} (hp : p ∈ walked walks tree dir since) : dir.Above p := by
  unfold DirCache.walked at hp
  split at hp
  · next l hl =>
    split at hp
    · exact h dir l hl p hp
    · exact (mem_walkLocal.mp hp).2.2.1
  · exact (mem_walkLocal.mp hp).2.2.1

private theorem Rooted.insert (h : Rooted walks) {l : Listing}
    (hl : ∀ p ∈ l.paths, dir.Above p) : Rooted (walks.insert dir l) := by
  intro dir' l' hl' p hp
  by_cases hd : dir' = dir
  · subst hd
    rw [AList.lookup_insert, Option.some.injEq] at hl'
    exact hl p (hl' ▸ hp)
  · rw [AList.lookup_insert_ne hd] at hl'
    exact h dir' l' hl' p hp

private theorem Rooted.restrict (h : Rooted walks) (keep : SharePath → Bool) :
    Rooted (restrict walks keep) := by
  intro dir l hl
  rw [lookup_restrict] at hl
  split at hl
  · exact h dir l hl
  · simp at hl

private theorem Rooted.walksAfter (h : Rooted walks) (r : RoundInput) :
    Rooted (r.walksAfter walks) := by
  unfold RoundInput.walksAfter
  apply Rooted.restrict
  split
  · exact h
  · refine List.foldlRecOn _ _ h ?_
    intro w hw dir _
    split
    · next since _ =>
      split
      · exact hw
      · exact hw.insert fun p hp ↦ h.walked hp
    · exact hw

private theorem rooted_walksOf (history : List RoundInput) : Rooted (walksOf history) := by
  unfold walksOf
  refine List.foldlRecOn _ _ ?_ fun walks hw r _ ↦ hw.walksAfter r
  intro dir l hl
  simp at hl

/-! ### What a removed directory implies -/

namespace RoundInput

variable {r : RoundInput} {walks : Walks} {p dir : SharePath}

/-- A candidate is strictly under a hidden directory, and not itself listed. -/
theorem candidate_under_hidden (hw : Rooted walks) (hp : p ∈ r.candidates walks) :
    (∃ ch ∈ r.reported, ch.hides = true ∧ ch.path.Above p) ∧
      ∀ ch ∈ r.reported, ch.path = p → ch.isOpaque = true := by
  rw [candidates, SharePath.mem_sortCompact, List.mem_append] at hp
  rcases hp with hp | hp
  · obtain ⟨-, hlisted, -, d, -, habove, hd⟩ := mem_replacedDeletions.mp hp
    obtain ⟨t, ht⟩ := Option.isSome_iff_exists.mp (mem_hiddenDirs.mp hd)
    obtain ⟨ch, hch, rfl, hh, -⟩ := exists_of_hiddenAt ht
    exact ⟨⟨ch, hch, hh, habove⟩, listedAs_eq_false.mp hlisted⟩
  · obtain ⟨dir, since, hdir, -, hwalked, -, hlisted, -⟩ := mem_unheldUnder.mp hp
    obtain ⟨ch, hch, rfl, hh, -⟩ := exists_of_hiddenAt hdir
    exact ⟨⟨ch, hch, hh, hw.walked hwalked⟩, listedAs_eq_false.mp hlisted⟩

/-- Implied deletions are sound. Whatever was listed in earlier rounds and however `Present`
answers, each is of a path strictly under a directory reported removed or replaced, that is
not itself listed but as a replaced directory, and that an answered chunk asked about and
its answer lacks; it carries the earliest known time among the removals above it. -/
theorem implied_deletion_sound (history : List RoundInput) (r : RoundInput) (c : Change)
    (hc : c ∈ r.impliedDeletions (walksOf history)) :
    (∃ ch ∈ r.reported, (ch.isOpaque = true ∨ ch.deleted = true) ∧ ch.path.Above c.path) ∧
    (∀ ch ∈ r.reported, ch.path = c.path → ch.isOpaque = true) ∧
    (∃ ask n chunk here, r.present = some ask ∧
      ((r.candidates (walksOf history)).toChunks presentChunk)[n]? = some chunk ∧
      ask n chunk = .ok here ∧ c.path ∈ chunk ∧ c.path ∉ here) ∧
    c.deleted = true ∧
    (c.changed = 0 ∧
        (∀ d : SharePath, d ≠ [] → d.Above c.path → ∀ t, hiddenAt r.reported d = some t → t = 0) ∨
      c.changed ≠ 0 ∧
        (∃ d : SharePath, d ≠ [] ∧ d.Above c.path ∧ hiddenAt r.reported d = some c.changed) ∧
        ∀ d : SharePath, d ≠ [] → d.Above c.path → ∀ t, hiddenAt r.reported d = some t → t ≠ 0 →
          c.changed ≤ t) := by
  unfold impliedDeletions at hc
  split at hc
  · simp at hc
  · obtain ⟨p, hp, rfl⟩ := List.mem_map.mp hc
    cases hask : r.present with
    | none => simp [confirmedAbsent, hask] at hp
    | some ask =>
      simp only [confirmedAbsent, hask] at hp
      obtain ⟨n, chunk, here, hchunk, hanswer, hmem, hnot⟩ := exists_chunk_of_mem_absentIn hp
      rw [Nat.zero_add] at hanswer
      have hcandidate : p ∈ r.candidates (walksOf history) :=
        mem_iff_mem_toChunks.mpr ⟨chunk, List.mem_of_getElem? hchunk, hmem⟩
      obtain ⟨⟨ch, hch, hh, habove⟩, hlisted⟩ :=
        candidate_under_hidden (rooted_walksOf history) hcandidate
      rw [Change.hides, Bool.or_eq_true] at hh
      exact
        ⟨⟨ch, hch, hh, habove⟩, hlisted, ⟨ask, n, chunk, here, rfl, hchunk, hanswer, hmem, hnot⟩,
        rfl, earliestHidden_cases r.reported p⟩

/-- A directory with one file in it, both last changed at 1. -/
def oneFile : Tree where
  nodes := [⟨["d"], { dir := true, stat := some { size := 0, modTime := 1, isDir := true }
                      ctime := some 1 }⟩,
    ⟨["d", "f"], { stat := some { size := 1, modTime := 1 }, ctime := some 1 }⟩].toAList
  closed := by decide

/-- The file, which the cache never held, under what is reported, with a consumer that has
nothing. -/
def neverHeld (reported : List Change) : RoundInput where
  tree := oneFile
  reported := reported
  present := some fun _ _ ↦ .ok []

/-- Its directory reported replaced at 5 and removed at 7. -/
def reportedTwice : RoundInput :=
  neverHeld [{ path := ["d"], isOpaque := true, changed := 5 },
    { path := ["d"], deleted := true, changed := 7 }]

/-- Of two removals reported at one path the last counts, and not the earliest; and a removal
of the share's root does not count. -/
theorem reportedTwice_carries_last :
    reportedTwice.impliedDeletions ∅ = [{ path := ["d", "f"], deleted := true, changed := 7 }] ∧
      (∃ ch ∈ reportedTwice.reported, ch.hides = true ∧ ch.path.Above ["d", "f"] ∧
        ch.changed = 5) ∧
      (neverHeld [{ path := [], isOpaque := true, changed := 5 },
        { path := ["d"], deleted := true, changed := 7 }]).impliedDeletions ∅ =
        [{ path := ["d", "f"], deleted := true, changed := 7 }] := by
  decide

/-- Its implied deletion is of a path under the directory, which nothing lists. -/
theorem implied_deletion_sound_reportedTwice :
    ∃ c ∈ reportedTwice.impliedDeletions (walksOf []), c.deleted = true ∧
      (∃ ch ∈ reportedTwice.reported, (ch.isOpaque = true ∨ ch.deleted = true) ∧
        ch.path.Above c.path) ∧
      ∀ ch ∈ reportedTwice.reported, ch.path = c.path → ch.isOpaque = true := by
  have hmem : ({ path := ["d", "f"], deleted := true, changed := 7 } : Change) ∈
      reportedTwice.impliedDeletions (walksOf []) := by
    decide
  obtain ⟨hunder, hlisted, -, hdeleted, -⟩ :=
    implied_deletion_sound [] reportedTwice
      { path := ["d", "f"], deleted := true, changed := 7 } hmem
  exact ⟨_, hmem, hdeleted, hunder, hlisted⟩

/-! ### What a removed directory takes with it -/

/-- `tree₀` is the share when the removal of `dir` at `since` was first listed: in the round
its listing is remembered from, or now. -/
def FirstListed (walks : Walks) (tree tree₀ : Tree) (dir : SharePath) (since : Int) : Prop :=
  walks.lookup dir = some ⟨since, walkLocal tree₀ dir⟩ ∨
    (∀ l, walks.lookup dir = some l → l.since ≠ since) ∧ tree₀ = tree

private theorem mem_walked_of_firstListed {tree tree₀ : Tree}
    {since : Int} (hfirst : FirstListed walks tree tree₀ dir since) (hdir : dir ≠ [])
    (hp : p ∈ tree₀.nodes.keys) (habove : dir.Above p) (hname : isTemporary p = false) :
    p ∈ walked walks tree dir since := by
  have hwalk : p ∈ walkLocal tree₀ dir := by
    rw [mem_walkLocal]
    exact ⟨⟨hdir, tree₀.closed p hp dir (SharePath.mem_dirsAbove.mpr ⟨hdir, habove⟩)⟩, hp, habove,
      hname⟩
  unfold walked
  rcases hfirst with hl | ⟨hother, rfl⟩
  · simp [hl, hwalk]
  · cases hl : walks.lookup dir with
    | none => exact hwalk
    | some l =>
      dsimp only
      rw [if_neg (hother l hl)]
      exact hwalk

/-- What was there at the first listing of a removal is a candidate: sent by the fill, or
never held and no temporary. -/
theorem mem_candidates {tree₀ : Tree}
    {since : Int} (hdir : dir ≠ []) (hhidden : hiddenAt r.reported dir = some since)
    (hknown : since ≠ 0) (hfirst : FirstListed walks r.tree tree₀ dir since)
    (hthen : p ∈ tree₀.nodes.keys) (habove : dir.Above p)
    (hnow : (r.tree.nodes.lookup p).isSome = true)
    (hsent : ∀ b, r.manifest.lookup p = some b → b.consumer = 0)
    (hname : r.manifest.lookup p = none → isTemporary p = false)
    (hlisted : ∀ ch ∈ r.reported, ch.path ≠ p) : p ∈ r.candidates walks := by
  have hnot : listedAs r.reported p = false :=
    listedAs_eq_false.mpr fun ch hch hp ↦ absurd hp (hlisted ch hch)
  rw [candidates, SharePath.mem_sortCompact, List.mem_append]
  cases hm : r.manifest.lookup p with
  | some b =>
    have hkeys : p ∈ r.manifest.keys :=
      AList.mem_keys.mp (mem_of_lookup hm)
    have hdirs : dir ∈ hiddenDirs r.reported := mem_hiddenDirs.mpr (by rw [hhidden]; rfl)
    exact .inl (mem_replacedDeletions.mpr ⟨hkeys, hnot, hsent, dir, hdir, habove, hdirs⟩)
  | none =>
    have hwalked : p ∈ walked walks r.tree dir since :=
      mem_walked_of_firstListed hfirst hdir hthen habove (hname hm)
    exact .inr (mem_unheldUnder.mpr ⟨dir, since, hhidden, hknown, hwalked, hm, hnot, hnow⟩)

private theorem mem_impliedDeletions
    (hdirs : (hiddenAt r.reported dir).isSome = true) (hp : p ∈ r.candidates walks)
    (hpresent : ∃ ask, r.present = some ask ∧ ∀ n chunk,
      ((r.candidates walks).toChunks presentChunk)[n]? = some chunk →
      ∃ here, ask n chunk = .ok here ∧ p ∉ here) :
    { path := p, deleted := true, changed := earliestHidden p (hiddenAt r.reported) } ∈
      r.impliedDeletions walks := by
  obtain ⟨ask, hask, hanswered⟩ := hpresent
  have hne : hiddenDirs r.reported ≠ [] := List.ne_nil_of_mem (mem_hiddenDirs.mpr hdirs)
  rw [impliedDeletions, if_neg hne]
  apply List.mem_map_of_mem
  simp only [confirmedAbsent, hask]
  apply mem_absentIn ?_ (mem_iff_mem_toChunks.mp hp)
  intro k chunk hk
  rw [Nat.zero_add]
  exact hanswered k chunk hk

private theorem mem_changes_of_implied {c : Change}
    (hleft : ∃ ch ∈ r.reported, r.aside ch = false) (hc : c ∈ r.impliedDeletions walks) :
    c ∈ r.changes walks := by
  obtain ⟨ch, hch, haside⟩ := hleft
  have hne : (r.reported.filter fun ch ↦ !r.aside ch).isEmpty = false := by
    rw [List.isEmpty_eq_false_iff]
    exact List.ne_nil_of_mem (List.mem_filter.mpr ⟨hch, by simp [haside]⟩)
  simp only [changes, hne, Bool.false_eq_true, if_false]
  exact List.mem_append_right _ hc

/-- A removed directory takes with it every file the fill sent and nobody changed since, and
every file the cache never held that was there at the first listing of the removal. -/
theorem removed_directory_takes_files (r : RoundInput) (walks : Walks) (tree₀ : Tree)
    (dir p : SharePath) (since ours : Int) (i : FileInfo)
    -- The directory is hidden since a known time, and the file was under it when first listed.
    (hdir : dir ≠ []) (hhidden : hiddenAt r.reported dir = some since) (hknown : since ≠ 0)
    (hfirst : FirstListed walks r.tree tree₀ dir since) (hthen : p ∈ tree₀.nodes.keys)
    (habove : dir.Above p)
    -- It is a file here now, changed before the earliest removal above it.
    (hnow : (r.tree.nodes.lookup p).bind (·.stat) = some i) (hfile : i.isDir = false)
    (hours : (r.tree.nodes.lookup p).bind (·.ctime) = some ours)
    (hlate : ours + r.margin < earliestHidden p (hiddenAt r.reported) - r.skew)
    -- The fill sent the version here, or the cache never held it.
    (hbase : ∀ b, r.manifest.lookup p = some b →
      i.size = b.size ∧ i.modTime = b.modTime ∧ b.consumer = 0)
    (hname : r.manifest.lookup p = none → isTemporary p = false)
    -- Nothing reports it, and the consumer answers that it has it no more.
    (hlisted : ∀ ch ∈ r.reported, ch.path ≠ p)
    (hpresent : ∃ ask, r.present = some ask ∧ ∀ n chunk,
      ((r.candidates walks).toChunks presentChunk)[n]? = some chunk →
      ∃ here, ask n chunk = .ok here ∧ p ∉ here)
    (hleft : ∃ ch ∈ r.reported, r.aside ch = false) :
    ∃ a ∈ r.decision walks, a.path = p ∧ a.kind = .delete := by
  have hhere : (r.tree.nodes.lookup p).isSome = true := by
    cases hn : r.tree.nodes.lookup p with
    | none => simp [hn] at hnow
    | some n => rfl
  have hcandidate : p ∈ r.candidates walks :=
    mem_candidates hdir hhidden hknown hfirst hthen habove hhere (fun b hb ↦ (hbase b hb).2.2)
      hname hlisted
  have hchange := mem_changes_of_implied hleft
    (mem_impliedDeletions (by rw [hhidden]; rfl) hcandidate hpresent)
  have hzero := earliestHidden_ne_zero hdir habove hhidden hknown
  have htakes : Deciding.Takes r.deciding
      { path := p, deleted := true, changed := earliestHidden p (hiddenAt r.reported) }
      .delete := by
    cases hm : r.manifest.lookup p with
    | none => exact .unheldDeleted i hnow hfile hm rfl ⟨hzero, ours, hours, hlate⟩
    | some b =>
      obtain ⟨hsize, hmod, -⟩ := hbase b hm
      exact .heldDeleted i b hnow hfile hm rfl hsize hmod
  obtain ⟨a, ha, -, hk⟩ := Deciding.decideChange_of_takes rfl rfl rfl htakes
  exact ⟨_, Deciding.mem_decide.mpr ⟨_, hchange, a, ha, rfl⟩, Deciding.path_of_decideChange ha, hk⟩

/-- The directory removed at 100, and the file in it carried back from the consumer. -/
def carriedUnder : RoundInput :=
  { neverHeld [{ path := ["d"], deleted := true, changed := 100 }] with
    manifest := AList.singleton ["d", "f"] { size := 1, modTime := 1, consumer := 1 }
    recorded := {["d", "f"]} }

/-- A file named like one of write-back's temporaries. -/
def oneTemporary : Tree where
  nodes := [⟨["d"], { dir := true, stat := some { size := 0, modTime := 1, isDir := true }
                      ctime := some 1 }⟩,
    ⟨["d", ".rd-writeback-1"],
      { stat := some { size := 1, modTime := 1 }, ctime := some 1 }⟩].toAList
  closed := by decide

/-- What was carried back stays, and so does what is named like a temporary; nothing goes with
the share's root, by a removal that a later report of its path gives no time, or in a round
whose every change was set aside. -/
theorem carriedUnder_stays :
    (∀ a ∈ carriedUnder.decision ∅, a.path ≠ ["d", "f"]) ∧
    (∀ a ∈ { neverHeld [{ path := ["d"], deleted := true, changed := 100 }] with
        tree := oneTemporary }.decision ∅, a.path ≠ ["d", ".rd-writeback-1"]) ∧
    (∀ a ∈ (neverHeld [{ path := [], isOpaque := true, changed := 100 }]).decision ∅,
      a.path ≠ ["d", "f"]) ∧
    (∀ a ∈ (neverHeld [{ path := ["d"], deleted := true, changed := 100 },
        { path := ["d"], isOpaque := true }]).decision ∅, a.path ≠ ["d", "f"]) ∧
    ∀ a ∈ { neverHeld [{ path := ["d"], deleted := true, changed := 100 }] with
        aside := fun _ ↦ true }.decision ∅, a.path ≠ ["d", "f"] := by
  decide

def sentUnder : RoundInput :=
  { carriedUnder with manifest := AList.singleton ["d", "f"] { size := 1, modTime := 1 } }

/-- It goes with its directory. -/
theorem removed_directory_takes_files_sent :
    ∃ a ∈ sentUnder.decision ∅, a.path = ["d", "f"] ∧ a.kind = .delete := by
  refine removed_directory_takes_files sentUnder ∅ sentUnder.tree ["d"] ["d", "f"] 100 1
    { size := 1, modTime := 1 } (by decide) (by decide) (by decide) (.inr ⟨by simp, rfl⟩)
    (by decide) (by decide) (by decide) rfl (by decide) (by decide) ?_ (by decide) (by decide)
    ⟨_, rfl, fun _ _ _ ↦ ⟨[], rfl, by simp⟩⟩ (by decide)
  intro b hb
  have hb : b = { size := 1, modTime := 1 } :=
    (Option.some.inj ((show sentUnder.manifest.lookup ["d", "f"] = some { size := 1, modTime := 1 }
      by decide).symm.trans hb)).symm
  subst hb
  exact ⟨rfl, rfl, rfl⟩

end RoundInput
end RemoteDocker.DirCache

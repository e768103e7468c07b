import RemoteDocker.Base.Machine
import RemoteDocker.DirCache.Shares
import RemoteDocker.DirCache.Watching

/-!
# Invalidation over windows

Local changes are observed and taken by a flush, which drops what is gone from the store and
the record and sends the rest again (`src/dircache/invalidate.go:105-260`,
`src/dircache/cache.go:369-388,774-789`). Every call to the store succeeds here and the
consumer changes nothing, so nothing is held back: `withoutLaterConsumerChanges` leaves out
no entry and `droppableDirs` only what is here again. Where a batch ends depends on sizes
only, and may be anywhere.

A directory that is here again is not dropped, and nothing else takes its old files out:
one replaced within a window keeps them cached and recorded for good (`replaced_dir_stays`).
`careful` keeps to the runs where nothing is made in the place of a directory whose removal
no flush looked at yet, no directory is removed while a change of a file in it waits, and
one flush runs at a time.
-/

namespace RemoteDocker.DirCache.Invalidate

open Base

/-- A component the union reserves for itself. -/
def overlayMarker (p : SharePath) : Bool := p.any fun part ↦ ".wh.".toList.isPrefixOf part.toList

inductive Flush where
  | looking (dirs gone dropped changed : List SharePath)
  | drop (dropped changed : List SharePath)
  | unrecord (dropped changed : List SharePath)
  | sending (changed : List SharePath)
  | reading (left : List SharePath) (applied : Applied) (changed : List SharePath)
  | noting (applied : Applied) (changed : List SharePath)
  deriving DecidableEq

/-- A share here, what the watcher has yet to say and what was observed, the paths the store
holds from this machine, and the flushes in progress. -/
structure State where
  tree : Local := {}
  exclude : Finset String := ∅
  queue : List WatchEvent := []
  pending : Pending := ∅
  share : Share := {}
  store : Finset SharePath := ∅
  flushes : List Flush := []

/-- What can happen to a flush: it goes on, sends another batch, or reads a file of it. -/
inductive FlushEvent where
  | go
  | batch (n : Nat)
  | read (file : Option (Int × Int))
  deriving DecidableEq

inductive Event where
  | change (c : LocalChange)
  | observe
  | flush
  | flushStep (i : Nat) (e : FlushEvent)
  deriving DecidableEq

/-- The paths of what was observed whose last word passes a test. -/
def pathsOf (pending : Pending) (what : Pend → Bool) : List SharePath :=
  pending.keys.filter fun p ↦ (pending.lookup p).any what

/-- `invalidate` up to `droppableDirs`: the removals and the rest. -/
def begin (pending : Pending) : Flush :=
  .looking (pathsOf pending fun w ↦ w.gone && w.dir) [] (pathsOf pending fun w ↦ w.gone && !w.dir)
    ((pathsOf pending fun w ↦ !w.gone).filter fun p ↦ !overlayMarker p)

namespace State

def setFlush (s : State) (i : Nat) (f : Flush) : State := { s with flushes := s.flushes.set i f }

/-- What will have been observed once the watcher said everything. -/
def told (s : State) : Pending := s.queue.foldl (observe s.exclude) s.pending

end State

def stepFlush (s : State) (i : Nat) : Flush → FlushEvent → Option State
  | .looking (d :: dirs) gone dropped changed, .go =>
    some (s.setFlush i
      (.looking dirs (if d ∈ s.tree.here then gone else gone ++ [d]) dropped changed))
  | .looking [] gone dropped changed, .go => some (s.setFlush i (.drop (dropped ++ gone) changed))
  | .drop dropped changed, .go =>
    some ({ s with store := s.store.filter fun p ↦ ¬ ∃ d ∈ dropped, d.AtOrUnder p }.setFlush i
      (.unrecord dropped changed))
  | .unrecord dropped changed, .go =>
    some ({ s with share := s.share.editRecord (s.share.recordedUnder dropped) false }.setFlush i
      (.sending changed))
  | .sending (p :: changed), .batch n =>
    some ({ s with share := s.share.editRecord (p :: changed.take n).toFinset true }.setFlush i
      (.reading (p :: changed.take n) {} (changed.drop n)))
  | .reading (p :: left) applied changed, .read file =>
    match file with
    -- A file that cannot be opened is left out.
    | none => some (s.setFlush i (.reading left applied changed))
    | some (size, modTime) =>
      if p ∈ s.tree.files then
        some (s.setFlush i
          (.reading left { applied with read := applied.read ++ [⟨p, size, modTime⟩] } changed))
      else none
  | .reading [] applied changed, .go =>
    some ({ s with store := s.store ∪ (applied.read.map Read.path).toFinset }.setFlush i
      (.noting applied changed))
  | .noting applied changed, .go =>
    some ({ s with share := s.share.noteApplied applied }.setFlush i (.sending changed))
  | .sending [], .go => some { s with flushes := s.flushes.eraseIdx i }
  | _, _ => none

def step (s : State) : Event → Option State
  | .change c =>
    match s.tree.change c with
    | none => none
    | some (tree, evs) => some { s with tree := tree, queue := s.queue ++ evs }
  | .observe =>
    match s.queue with
    | [] => none
    | ev :: queue => some { s with queue := queue, pending := observe s.exclude s.pending ev }
  | .flush => some { s with pending := ∅, flushes := s.flushes ++ [begin s.pending] }
  | .flushStep i e =>
    match s.flushes[i]? with
    | none => none
    | some f => stepFlush s i f e

def machine : Machine State Event := ⟨step⟩

/-- Nothing changes any more and the flushes are done. -/
def State.Quiet (s : State) : Prop := s.queue = [] ∧ s.pending = ∅ ∧ s.flushes = []

instance (s : State) : Decidable s.Quiet :=
  decidable_of_iff (s.queue = [] ∧ s.pending.entries = [] ∧ s.flushes = [])
    (by rw [State.Quiet, AList.ext_iff, AList.empty_entries])

/-- An attached share: everything in the cache is here, and nothing is on its way. -/
structure State.Attached (s : State) : Prop where
  quiet : s.Quiet
  here : ∀ p ∈ s.store ∪ s.share.recorded, p ∈ s.tree.here
  covered : ∀ p ∈ s.store ∪ s.share.recorded, excludedPath s.exclude p = false

def Flush.looks : Flush → List SharePath
  | looking dirs _ _ _ => dirs
  | _ => []

/-- The removal of `d` as a directory is on its way to a flush, or not looked at by it yet. -/
def State.Unlooked (s : State) (d : SharePath) : Prop :=
  s.pending.lookup d = some ⟨true, true⟩ ∨ ⟨d, true, true⟩ ∈ s.queue ∨
    ∃ f ∈ s.flushes, d ∈ f.looks

instance (s : State) (d : SharePath) : Decidable (s.Unlooked d) :=
  inferInstanceAs (Decidable (_ ∨ _ ∨ _))

/-- Nothing is made in the place of a directory whose removal no flush looked at yet, no
directory goes while a change of a file in it waits for a flush, and a flush begins when
none is in progress. -/
def careful (s : State) : Event → Bool
  | .change c =>
    match s.tree.change c with
    | none => true
    | some (tree, evs) =>
      (∀ p ∈ tree.here \ s.tree.here, ¬ s.Unlooked p) ∧
        ∀ ev ∈ evs, ev.gone = true → ev.dir = true → ∀ p ∈ pathsOf s.told fun w ↦ !w.gone,
          ¬ ev.path.Above p
  | .flush => s.flushes = []
  | _ => true

/-! ### The invariant -/

namespace Flush

/-- The paths a flush has yet to send, or is sending. -/
def sends : Flush → List SharePath
  | looking _ _ _ changed | drop _ changed | unrecord _ changed | sending changed => changed
  | reading left applied changed => left ++ applied.read.map Read.path ++ changed
  | noting _ changed => changed

/-- The paths a flush has yet to drop, of those it may. -/
def drops : Flush → List SharePath
  | looking dirs gone dropped _ => dirs ++ gone ++ dropped
  | drop dropped _ => dropped
  | _ => []

/-- The paths a flush has yet to take out of the record. -/
def unrecords : Flush → List SharePath
  | looking dirs gone dropped _ => dirs ++ gone ++ dropped
  | drop dropped _ | unrecord dropped _ => dropped
  | _ => []

end Flush

/-- A cached path is here, or its removal was reported, or a flush has yet to act on it. -/
def State.Accounted (s : State) (acts : Flush → List SharePath) (p : SharePath) : Prop :=
  excludedPath s.exclude p = false ∧
    (p ∈ s.tree.here ∨ Covers s.told p ∨ ∃ f ∈ s.flushes, ∃ d ∈ acts f, d.AtOrUnder p)

/-- What careful runs keep. What waits to be sent is here, or its removal was reported since;
what is cached is accounted for. -/
structure Inv (s : State) : Prop where
  changed : ∀ p w, s.told.lookup p = some w → w.gone = false → p ∈ s.tree.files
  unlooked : ∀ d, s.Unlooked d → d ∉ s.tree.here
  covered : ∀ p w, s.told.lookup p = some w → excludedPath s.exclude p = false
  sent : ∀ f ∈ s.flushes, ∀ p ∈ f.sends,
    excludedPath s.exclude p = false ∧ (p ∈ s.tree.files ∨ Covers s.told p)
  stored : ∀ p ∈ s.store, s.Accounted Flush.drops p
  recorded : ∀ p ∈ s.share.recorded, s.Accounted Flush.unrecords p
  single : s.flushes.length ≤ 1

private theorem mem_pathsOf {pending : Pending} {what : Pend → Bool} {p : SharePath} :
    p ∈ pathsOf pending what ↔ ∃ w, pending.lookup p = some w ∧ what w = true := by
  simp only [pathsOf, List.mem_filter, Option.any_eq_true]
  constructor
  · rintro ⟨-, h⟩
    exact h
  · rintro ⟨w, hw, hwhat⟩
    refine ⟨AList.mem_keys.mp (AList.lookup_isSome.mp ?_), w, hw, hwhat⟩
    rw [hw]
    rfl

namespace Inv

variable {s : State}

private theorem attached (h : s.Attached) : Inv s := by
  obtain ⟨⟨hqueue, hpending, hflushes⟩, hhere, hcovered⟩ := h
  have htold : s.told = ∅ := by rw [State.told, hqueue, hpending]; rfl
  refine ⟨?_, ?_, ?_, ?_, ?_, ?_, ?_⟩
  · simp [htold]
  · simp [State.Unlooked, hqueue, hpending, hflushes]
  · simp [htold]
  · simp [hflushes]
  · intro p hp
    exact ⟨hcovered p (Finset.mem_union_left _ hp), .inl (hhere p (Finset.mem_union_left _ hp))⟩
  · intro p hp
    exact ⟨hcovered p (Finset.mem_union_right _ hp), .inl (hhere p (Finset.mem_union_right _ hp))⟩
  · simp [hflushes]

/-! #### A local change -/

section Change

variable {tree : Local} {evs : List WatchEvent} {p : SharePath}

private theorem covers_of_event (hr : Reported s.tree tree evs)
    (hp : excludedPath s.exclude p = false) {ev : WatchEvent} (hev : ev ∈ evs)
    (hgone : ev.gone = true) (hat : ev.path = p ∨ ev.dir = true ∧ ev.path.Above p) :
    Covers (evs.foldl (observe s.exclude) s.told) p := by
  have hunder : ev.path.AtOrUnder p := SharePath.atOrUnder_iff.mpr (hat.imp_right (·.2))
  have hcounts : ev.counts s.exclude = true :=
    counts_of_gone hgone (excludedPath_of_atOrUnder hunder hp)
  exact ⟨ev.path, _, lookup_foldl_observe_of_mem _ hr.once hev hcounts, hgone, hat⟩

/-- A word about a removed directory was not looked at by a flush. -/
theorem unlooked_of_told {q : SharePath} (hq : s.told.lookup q = some ⟨true, true⟩) :
    s.Unlooked q := by
  rcases of_lookup_foldl_observe hq with ⟨ev, hev, -, rfl, hw⟩ | hq
  · rw [eq_of_removedDir hw.symm] at hev
    exact .inr (.inl hev)
  · exact .inl hq

/-- What was covered still is, or is a file again. -/
theorem covers_after (h : Inv s) (hr : Reported s.tree tree evs)
    (hmade : ∀ p ∈ tree.here \ s.tree.here, ¬ s.Unlooked p)
    (hp : excludedPath s.exclude p = false) (hc : Covers s.told p) :
    p ∈ tree.files ∨ Covers (evs.foldl (observe s.exclude) s.told) p := by
  obtain ⟨q, w, hq, hgone, hat⟩ := hc
  by_cases hsilent : ∀ ev ∈ evs, ev.counts s.exclude = true → ev.path ≠ q
  · refine .inr ⟨q, w, ?_, hgone, hat⟩
    rw [lookup_foldl_observe_of_silent _ hsilent]
    exact hq
  · simp only [not_forall, not_not] at hsilent
    obtain ⟨ev, hev, hcounts, rfl⟩ := hsilent
    rcases hat with rfl | ⟨hdir, habove⟩
    · by_cases hev' : ev.gone = true
      · exact .inr (covers_of_event hr hp hev hev' (.inl rfl))
      · -- A new word about the path itself that is no removal: the file is here.
        have hnot : ev.gone = false := by simpa using hev'
        exact .inl (hr.changed ev hev hnot (dir_of_counts hcounts hnot))
    · -- Nothing is said about a removed directory before a flush looked at it.
      have hw : w = ⟨true, true⟩ := by
        obtain ⟨gone, dir⟩ := w
        exact congrArg₂ Pend.mk hgone hdir
      have hunlooked := unlooked_of_told (hw ▸ hq)
      have hnot := h.unlooked ev.path hunlooked
      rcases hr.touched ev hev with hmem | hmem
      · exact absurd hmem hnot
      · exact absurd hunlooked (hmade ev.path (Finset.mem_sdiff.mpr ⟨hmem, hnot⟩))

/-- The events of the change come after what was told before. -/
theorem told_change : ({ s with tree := tree, queue := s.queue ++ evs } : State).told =
    evs.foldl (observe s.exclude) s.told := List.foldl_append

private theorem accounted_change (h : Inv s) (hr : Reported s.tree tree evs)
    (hmade : ∀ p ∈ tree.here \ s.tree.here, ¬ s.Unlooked p) {acts : Flush → List SharePath}
    (hp : s.Accounted acts p) :
    State.Accounted { s with tree := tree, queue := s.queue ++ evs } acts p := by
  obtain ⟨hex, hc⟩ := hp
  refine ⟨hex, ?_⟩
  rw [told_change]
  rcases hc with hhere | hc | hflush
  · by_cases hp' : p ∈ tree.here
    · exact .inl hp'
    · obtain ⟨ev, hev, hgone, hat⟩ := hr.lost p hhere hp'
      exact .inr (.inl (covers_of_event hr hex hev hgone hat))
  · rcases h.covers_after hr hmade hex hc with hfile | hc
    · exact .inl (Local.mem_here.mpr (.inl hfile))
    · exact .inr (.inl hc)
  · exact .inr (.inr hflush)

/-- A file waiting to be sent is a file still, or is covered. -/
theorem file_or_covers_after (h : Inv s) (hr : Reported s.tree tree evs)
    (hmade : ∀ p ∈ tree.here \ s.tree.here, ¬ s.Unlooked p)
    (hp : excludedPath s.exclude p = false) (hc : p ∈ s.tree.files ∨ Covers s.told p) :
    p ∈ tree.files ∨ Covers (evs.foldl (observe s.exclude) s.told) p := by
  rcases hc with hfile | hc
  · by_cases hp' : p ∈ tree.files
    · exact .inl hp'
    · obtain ⟨ev, hev, hgone, hat⟩ := hr.lostFile p hfile hp'
      exact .inr (covers_of_event hr hp hev hgone hat)
  · exact h.covers_after hr hmade hp hc

/-- A file whose last word is a change is here after the next change too. -/
theorem changed_after (h : Inv s) (hr : Reported s.tree tree evs)
    (hkept : ∀ ev ∈ evs, ev.gone = true → ev.dir = true →
      ∀ p ∈ pathsOf s.told fun w ↦ !w.gone, ¬ ev.path.Above p) {w : Pend}
    (hw : (evs.foldl (observe s.exclude) s.told).lookup p = some w) (hgone : w.gone = false) :
    p ∈ tree.files := by
  rcases of_lookup_foldl_observe hw with ⟨ev, hev, hcounts, rfl, rfl⟩ | hold
  · exact hr.changed ev hev hgone (dir_of_counts hcounts hgone)
  · by_contra hnot
    obtain ⟨ev, hev, hev', hat⟩ := hr.lostFile p (h.changed p w hold hgone) hnot
    rcases hat with rfl | ⟨hdir, habove⟩
    · have hcounts := counts_of_gone hev' (h.covered _ w hold)
      rw [lookup_foldl_observe_of_mem _ hr.once hev hcounts, Option.some.injEq] at hw
      rw [← hw] at hgone
      rw [show ev.gone = false from hgone] at hev'
      cases hev'
    · exact hkept ev hev hev' hdir p (mem_pathsOf.mpr ⟨w, hold, by simp [hgone]⟩) habove

private theorem change (h : Inv s) (hr : Reported s.tree tree evs)
    (hmade : ∀ p ∈ tree.here \ s.tree.here, ¬ s.Unlooked p)
    (hkept : ∀ ev ∈ evs, ev.gone = true → ev.dir = true →
      ∀ p ∈ pathsOf s.told fun w ↦ !w.gone, ¬ ev.path.Above p) :
    Inv { s with tree := tree, queue := s.queue ++ evs } := by
  refine ⟨?_, ?_, ?_, ?_, ?_, ?_, h.single⟩
  · intro p w hw
    rw [told_change] at hw
    exact h.changed_after hr hkept hw
  · intro d hd hhere
    have hnot : ¬ s.Unlooked d := fun hun ↦
      hmade d (Finset.mem_sdiff.mpr ⟨hhere, h.unlooked d hun⟩) hun
    rcases hd with hd | hd | hd
    · exact hnot (.inl hd)
    · rcases List.mem_append.mp hd with hd | hd
      · exact hnot (.inr (.inl hd))
      · exact hr.removed _ hd rfl rfl hhere
    · exact hnot (.inr (.inr hd))
  · intro p w hw
    rw [told_change] at hw
    rcases of_lookup_foldl_observe hw with ⟨ev, -, hcounts, rfl, -⟩ | hold
    · exact excludedPath_of_counts hcounts
    · exact h.covered p w hold
  · intro f hf p hp
    rw [told_change]
    obtain ⟨hex, hc⟩ := h.sent f hf p hp
    exact ⟨hex, h.file_or_covers_after hr hmade hex hc⟩
  · exact fun p hp ↦ h.accounted_change hr hmade (h.stored p hp)
  · exact fun p hp ↦ h.accounted_change hr hmade (h.recorded p hp)

end Change

/-! #### Observing and flushing -/

private theorem observe (h : Inv s) {ev : WatchEvent} {queue : List WatchEvent}
    (hq : s.queue = ev :: queue) :
    Inv { s with queue := queue, pending := DirCache.observe s.exclude s.pending ev } := by
  have htold : ({ s with queue := queue, pending := DirCache.observe s.exclude s.pending ev } :
      State).told = s.told := by
    rw [State.told, State.told, hq, List.foldl_cons]
  refine ⟨?_, ?_, ?_, ?_, ?_, ?_, h.single⟩
  · rw [htold]
    exact h.changed
  · intro d hd
    apply h.unlooked
    rcases hd with hd | hd | hd
    · rw [lookup_observe] at hd
      split at hd
      · next hc =>
        rw [Option.some.injEq] at hd
        refine .inr (.inl ?_)
        rw [hq, ← hc.2, ← eq_of_removedDir hd]
        exact (.head _)
      · exact .inl hd
    · refine .inr (.inl ?_)
      rw [hq]
      exact .tail _ hd
    · exact .inr (.inr hd)
  · rw [htold]
    exact h.covered
  · rw [htold]
    exact h.sent
  · intro p hp
    rw [State.Accounted, htold]
    exact h.stored p hp
  · intro p hp
    rw [State.Accounted, htold]
    exact h.recorded p hp

variable {p : SharePath} {acts : Flush → List SharePath} {i : Nat} {f : Flush}
  {store : Finset SharePath} {share : Share}

/-- What was covered by a word the flush takes, the flush drops. -/
theorem covers_or_drops_of_begin (hc : Covers s.told p) :
    Covers (s.queue.foldl (DirCache.observe s.exclude) ∅) p ∨
      ∃ d ∈ (begin s.pending).drops, d.AtOrUnder p := by
  obtain ⟨q, w, hq, hgone, hat⟩ := hc
  rw [State.told, lookup_foldl_observe] at hq
  rcases Option.or_eq_some_iff.mp hq with hq | ⟨-, hq⟩
  · exact .inl ⟨q, w, hq, hgone, hat⟩
  · refine .inr ⟨q, ?_, SharePath.atOrUnder_iff.mpr (hat.imp_right (·.2))⟩
    simp only [begin, Flush.drops, List.append_nil, List.mem_append, mem_pathsOf]
    cases hdir : w.dir with
    | true => exact .inl ⟨w, hq, by simp [hgone, hdir]⟩
    | false => exact .inr ⟨w, hq, by simp [hgone, hdir]⟩

private theorem accounted_flush (hnone : s.flushes = [])
    (hacts : (begin s.pending).drops ⊆ acts (begin s.pending)) (hp : s.Accounted acts p) :
    State.Accounted { s with pending := ∅, flushes := s.flushes ++ [begin s.pending] } acts p := by
  obtain ⟨hex, hc⟩ := hp
  refine ⟨hex, ?_⟩
  rcases hc with hc | hc | ⟨f, hf, -⟩
  · exact .inl hc
  · refine .inr ((covers_or_drops_of_begin hc).imp_right ?_)
    rintro ⟨d, hd, hat⟩
    exact ⟨_, List.mem_append_right _ (List.mem_singleton_self _), d, hacts hd, hat⟩
  · rw [hnone] at hf
    cases hf

private theorem flush (h : Inv s) (hnone : s.flushes = []) :
    Inv { s with pending := ∅, flushes := s.flushes ++ [begin s.pending] } := by
  have hsub : ∀ p w, (s.queue.foldl (DirCache.observe s.exclude) ∅).lookup p = some w →
      s.told.lookup p = some w := by
    intro p w hw
    rw [State.told, lookup_foldl_observe, hw]
    rfl
  have hmem : ∀ f, f ∈ s.flushes ++ [begin s.pending] ↔ f = begin s.pending := by
    intro f
    rw [hnone, List.nil_append, List.mem_singleton]
  refine ⟨?_, ?_, ?_, ?_, ?_, ?_, ?_⟩
  · intro p w hw
    exact h.changed p w (hsub p w hw)
  · intro d hd
    apply h.unlooked
    rcases hd with hd | hd | ⟨f, hf, hd⟩
    · simp at hd
    · exact .inr (.inl hd)
    · rw [(hmem f).mp hf] at hd
      obtain ⟨w, hw, hwhat⟩ := mem_pathsOf.mp hd
      obtain ⟨gone, dir⟩ := w
      simp only [Bool.and_eq_true] at hwhat
      obtain ⟨rfl, rfl⟩ := hwhat
      exact .inl hw
  · intro p w hw
    exact h.covered p w (hsub p w hw)
  · intro f hf p hp
    rw [(hmem f).mp hf] at hp
    obtain ⟨w, hw, hgone⟩ := mem_pathsOf.mp (List.mem_of_mem_filter hp)
    -- What the queue says of the path since, if anything, is its last word.
    cases hlater : (s.queue.foldl (DirCache.observe s.exclude) ∅).lookup p with
    | none =>
      have htold : s.told.lookup p = some w := by
        rw [State.told, lookup_foldl_observe, hlater]
        exact hw
      exact ⟨h.covered p w htold, .inl (h.changed p w htold (by simpa using hgone))⟩
    | some w' =>
      refine ⟨h.covered p w' (hsub p w' hlater), ?_⟩
      cases hgone' : w'.gone with
      | true => exact .inr ⟨p, w', hlater, hgone', .inl rfl⟩
      | false => exact .inl (h.changed p w' (hsub p w' hlater) hgone')
  · exact fun p hp ↦ accounted_flush hnone (List.Subset.refl _) (h.stored p hp)
  · have hsame : (begin s.pending).drops ⊆ (begin s.pending).unrecords := List.Subset.refl _
    exact fun p hp ↦ accounted_flush hnone hsame (h.recorded p hp)
  · rw [hnone]
    exact Nat.le_refl 1

private theorem flushes_eq (h : Inv s) (hi : s.flushes[i]? = some f) : s.flushes = [f] ∧ i = 0 := by
  have hlen : i < s.flushes.length := (List.getElem?_eq_some_iff.mp hi).1
  have hone : s.flushes.length = 1 := by
    have := h.single
    omega
  obtain ⟨g, hg⟩ := List.length_eq_one_iff.mp hone
  have hzero : i = 0 := by omega
  rw [hg, hzero] at hi
  rw [hg, Option.some.inj hi]
  exact ⟨rfl, hzero⟩

/-- What is to be sent is accounted for whatever the flush has yet to do. -/
theorem accounted_of_sends (h : Inv s) (hf : f ∈ s.flushes)
    (hp : p ∈ f.sends) {flushes : List Flush} :
    State.Accounted { s with store := store, share := share, flushes := flushes } acts p := by
  obtain ⟨hex, hc⟩ := h.sent f hf p hp
  exact ⟨hex, hc.imp (fun hfile ↦ Local.mem_here.mpr (.inl hfile)) .inl⟩

/-- What was accounted for still is when the only flush goes on to act on it. -/
theorem accounted_setFlush (hf : s.flushes = [f]) {flushes : List Flush} (hp : s.Accounted acts p)
    (hacts : ∀ d ∈ acts f, d.AtOrUnder p → ∃ f' ∈ flushes, d ∈ acts f') :
    State.Accounted { s with store := store, share := share, flushes := flushes } acts p := by
  refine hp.imp_right (Or.imp_right (Or.imp_right ?_))
  rintro ⟨g, hg, d, hd, hat⟩
  rw [hf, List.mem_singleton] at hg
  subst hg
  obtain ⟨f', hf', hd'⟩ := hacts d hd hat
  exact ⟨f', hf', d, hd', hat⟩

/-- The flush goes on. What it sends was to be sent, and what it no longer drops nor takes out
of the record is not there any more. -/
theorem setFlush (h : Inv s) {f' : Flush} (hi : s.flushes[i]? = some f)
    (hlooks : f'.looks ⊆ f.looks)
    (hsends : f'.sends ⊆ f.sends) (hstore : ∀ p ∈ store, p ∈ f.sends ∨
      p ∈ s.store ∧ ∀ d ∈ f.drops, d.AtOrUnder p → d ∈ f'.drops)
    (hrecord : ∀ p ∈ share.recorded, p ∈ f.sends ∨
      p ∈ s.share.recorded ∧ ∀ d ∈ f.unrecords, d.AtOrUnder p → d ∈ f'.unrecords) :
    Inv ({ s with store := store, share := share }.setFlush i f') := by
  have hf : f ∈ s.flushes := List.mem_of_getElem? hi
  obtain ⟨hfl, rfl⟩ := h.flushes_eq hi
  have hset : s.flushes.set 0 f' = [f'] := by rw [hfl]; rfl
  rw [State.setFlush]
  dsimp only
  rw [hset]
  refine ⟨h.changed, ?_, h.covered, ?_, ?_, ?_, Nat.le_refl 1⟩
  · intro d hd
    apply h.unlooked
    refine hd.imp_right (Or.imp_right ?_)
    rintro ⟨g, hg, hd⟩
    rw [List.mem_singleton.mp hg] at hd
    exact ⟨f, hf, hlooks hd⟩
  · intro g hg p hp
    rw [List.mem_singleton.mp hg] at hp
    exact h.sent f hf p (hsends hp)
  · intro p hp
    rcases hstore p hp with hp | ⟨hp, hdrops⟩
    · exact h.accounted_of_sends hf hp
    · exact accounted_setFlush hfl (h.stored p hp) fun d hd hat ↦
        ⟨f', List.mem_singleton_self _, hdrops d hd hat⟩
  · intro p hp
    rcases hrecord p hp with hp | ⟨hp, hdrops⟩
    · exact h.accounted_of_sends hf hp
    · exact accounted_setFlush hfl (h.recorded p hp) fun d hd hat ↦
        ⟨f', List.mem_singleton_self _, hdrops d hd hat⟩

private theorem endFlush (h : Inv s) (hi : s.flushes[i]? = some (.sending [])) :
    Inv { s with flushes := s.flushes.eraseIdx i } := by
  obtain ⟨hfl, rfl⟩ := h.flushes_eq hi
  have herase : s.flushes.eraseIdx 0 = [] := by rw [hfl]; rfl
  rw [herase]
  refine ⟨h.changed, ?_, h.covered, ?_, ?_, ?_, Nat.zero_le 1⟩
  · intro d hd
    apply h.unlooked
    refine hd.imp_right (Or.imp_right ?_)
    rintro ⟨g, hg, -⟩
    cases hg
  · intro f hf
    cases hf
  · exact fun p hp ↦ accounted_setFlush hfl (h.stored p hp) fun d hd ↦ by cases hd
  · exact fun p hp ↦ accounted_setFlush hfl (h.recorded p hp) fun d hd ↦ by cases hd

private theorem stepFlush (h : Inv s) {s' : State} {e : FlushEvent}
    (hi : s.flushes[i]? = some f) (hs : stepFlush s i f e = some s') : Inv s' := by
  revert hs
  fun_cases Invalidate.stepFlush s i f e
  all_goals
    intro hs
    cases hs
  case case1 d dirs gone dropped changed =>
    -- The directory is not here: nothing was made in its place.
    have hd : d ∉ s.tree.here :=
      h.unlooked d (.inr (.inr ⟨_, List.mem_of_getElem? hi, (.head _)⟩))
    have hdrops : ∀ q ∈ d :: dirs ++ gone ++ dropped, q ∈ dirs ++ (gone ++ [d]) ++ dropped := by
      intro q
      simp only [List.mem_append, List.mem_cons]
      tauto
    rw [if_neg hd]
    exact h.setFlush hi (List.subset_cons_self _ _) (List.Subset.refl _)
      (fun p hp ↦ .inr ⟨hp, fun q hq _ ↦ hdrops q hq⟩)
      (fun p hp ↦ .inr ⟨hp, fun q hq _ ↦ hdrops q hq⟩)
  case case2 gone dropped changed =>
    have hdrops : ∀ q ∈ [] ++ gone ++ dropped, q ∈ dropped ++ gone := by
      intro q
      simp only [List.nil_append, List.mem_append]
      exact Or.symm
    exact h.setFlush hi (List.Subset.refl _) (List.Subset.refl _)
      (fun p hp ↦ .inr ⟨hp, fun q hq _ ↦ hdrops q hq⟩)
      (fun p hp ↦ .inr ⟨hp, fun q hq _ ↦ hdrops q hq⟩)
  case case3 dropped changed =>
    refine h.setFlush hi (List.Subset.refl _) (List.Subset.refl _) ?_
      (fun p hp ↦ .inr ⟨hp, fun q hq _ ↦ hq⟩)
    intro p hp
    obtain ⟨hp, hnot⟩ := Finset.mem_filter.mp hp
    exact .inr ⟨hp, fun d hd hat ↦ absurd ⟨d, hd, hat⟩ hnot⟩
  case case4 dropped changed =>
    refine h.setFlush hi (List.Subset.refl _) (List.Subset.refl _)
      (fun p hp ↦ .inr ⟨hp, fun q hq _ ↦ hq⟩) ?_
    intro p hp
    rw [Share.recorded_editRecord_false, Finset.mem_sdiff, Share.mem_recordedUnder] at hp
    obtain ⟨hp, hnot⟩ := hp
    refine .inr ⟨hp, fun d hd hat ↦ absurd ?_ hnot⟩
    rcases SharePath.atOrUnder_iff.mp hat with rfl | habove
    · exact .inl hd
    · exact .inr ⟨hp, d, hd, habove⟩
  case case5 p changed n =>
    have hsends : ∀ q ∈ p :: changed.take n ++ [] ++ changed.drop n, q ∈ p :: changed := by
      intro q hq
      rwa [List.append_nil, List.cons_append, List.take_append_drop] at hq
    refine h.setFlush hi (List.Subset.refl _) hsends (fun q hq ↦ .inr ⟨hq, fun d hd _ ↦ hd⟩) ?_
    intro q hq
    rw [Share.recorded_editRecord_true, Finset.mem_union, List.mem_toFinset] at hq
    rcases hq with hq | hq
    · exact .inr ⟨hq, fun d hd _ ↦ hd⟩
    · refine .inl (hsends q ?_)
      rw [List.append_nil]
      exact List.mem_append_left _ hq
  case case6 p left applied changed =>
    exact h.setFlush hi (List.Subset.refl _) (List.subset_cons_self _ _)
      (fun q hq ↦ .inr ⟨hq, fun d hd _ ↦ hd⟩) (fun q hq ↦ .inr ⟨hq, fun d hd _ ↦ hd⟩)
  case case7 p left applied changed size modTime hp =>
    refine h.setFlush hi (List.Subset.refl _) ?_
      (fun q hq ↦ .inr ⟨hq, fun d hd _ ↦ hd⟩) (fun q hq ↦ .inr ⟨hq, fun d hd _ ↦ hd⟩)
    intro q
    simp only [Flush.sends, List.map_append, List.map_cons, List.map_nil, List.mem_append,
      List.mem_cons, List.not_mem_nil, or_false]
    tauto
  case case9 applied changed =>
    refine h.setFlush hi (List.Subset.refl _) (List.subset_append_right _ _) ?_
      (fun q hq ↦ .inr ⟨hq, fun d hd _ ↦ hd⟩)
    intro q hq
    rw [Finset.mem_union, List.mem_toFinset] at hq
    rcases hq with hq | hq
    · exact .inr ⟨hq, fun d hd _ ↦ hd⟩
    · exact .inl (List.mem_append_left _ hq)
  case case10 applied changed =>
    refine h.setFlush hi (List.Subset.refl _) (List.Subset.refl _)
      (fun q hq ↦ .inr ⟨hq, fun d hd _ ↦ hd⟩) ?_
    intro q hq
    rw [Share.recorded_noteApplied, Finset.mem_sdiff] at hq
    exact .inr ⟨hq.1, fun d hd _ ↦ hd⟩
  case case11 => exact h.endFlush hi

end Inv

private theorem inv_step (s : State) (e : Event) (s' : State) (h : Inv s)
    (hcareful : careful s e = true)
    (hs : machine.step s e = some s') : Inv s' := by
  change step s e = some s' at hs
  cases e with
  | change c =>
    simp only [step] at hs
    split at hs
    · cases hs
    · next tree evs hchange =>
      cases hs
      simp only [careful, hchange] at hcareful
      obtain ⟨hmade, hkept⟩ := of_decide_eq_true hcareful
      exact h.change (Local.reported_change hchange) hmade hkept
  | observe =>
    simp only [step] at hs
    split at hs
    · cases hs
    · next ev queue hq =>
      cases hs
      exact h.observe hq
  | flush =>
    cases hs
    exact h.flush (of_decide_eq_true hcareful)
  | flushStep i e =>
    simp only [step] at hs
    split at hs
    · cases hs
    · next f hf => exact h.stepFlush hf hs

/-! ### Invalidation is complete -/

/-- Whatever is created, written, removed and renamed in an attached share, and however that
is observed and flushed: as long as every step is careful, once nothing changes any more and
the flushes are done, what is not here is neither recorded nor in the store. -/
theorem invalidation_complete {s₀ s : State} {es : List Event} (hattached : s₀.Attached)
    (hw : machine.Within (fun s e ↦ careful s e = true) s₀ es)
    (hrun : machine.run s₀ es = some s) (hquiet : s.Quiet) :
    ∀ p, p ∉ s.tree.here → p ∉ s.share.recorded ∧ p ∉ s.store := by
  have hinv : Inv s := machine.run_invariant (fun s e ↦ careful s e = true) inv_step
    (Inv.attached hattached) hw hrun
  obtain ⟨hqueue, hpending, hflushes⟩ := hquiet
  have htold : s.told = ∅ := by rw [State.told, hqueue, hpending]; rfl
  -- With nothing on its way, what is accounted for is here.
  have hhere : ∀ acts p, s.Accounted acts p → p ∈ s.tree.here := by
    rintro acts p ⟨-, hc | ⟨q, w, hq, -⟩ | ⟨f, hf, -⟩⟩
    · exact hc
    · simp [htold] at hq
    · rw [hflushes] at hf
      cases hf
  intro p hp
  constructor
  · intro hrec
    exact hp (hhere _ p (hinv.recorded p hrec))
  · intro hstore
    exact hp (hhere _ p (hinv.stored p hstore))

/-- A directory with one file in it, which the cache holds. -/
def cachedDir : State where
  tree := { files := {["d", "f"]}, dirs := {["d"]} }
  share := { recorded := {["d", "f"]} }
  store := {["d", "f"]}

private theorem attached_cachedDir : cachedDir.Attached where
  quiet := by decide
  here := by decide
  covered := by decide

/-- The steps of a flush that looks at one directory and sends nothing. -/
def dropSteps : List Event :=
  [.flushStep 0 .go, .flushStep 0 .go, .flushStep 0 .go, .flushStep 0 .go, .flushStep 0 .go]

/-- The directory is renamed away and made again, empty, within one window: the file that was
in it stays recorded and in the store. -/
theorem replaced_dir_stays :
    (machine.run cachedDir
      (([.change (.removeDir ["d"]), .change (.mkdir ["d"]), .observe, .observe,
      .flush] : List Event) ++ dropSteps)).map
      (fun s ↦ (decide s.Quiet, s.tree, s.share.recorded, s.store)) =
    some (true, { files := ∅, dirs := {["d"]} }, {["d", "f"]}, {["d", "f"]}) := by
  decide

/-- Made again after the flush, with another file in it, it loses the old one. -/
def remadeAfter : List Event :=
  ([.change (.removeDir ["d"]), .observe, .flush] : List Event) ++ dropSteps ++
    ([.change (.mkdir ["d"]), .change (.create ["d", "g"]), .observe, .observe, .flush,
      .flushStep 0 .go, .flushStep 0 .go, .flushStep 0 .go, .flushStep 0 (.batch 0),
      .flushStep 0 (.read (some (1, 1))), .flushStep 0 .go, .flushStep 0 .go,
      .flushStep 0 .go] : List Event)

/-- The store then holds the new file, and the old one is nowhere. -/
theorem invalidation_complete_remadeAfter :
    ∃ s, machine.run cachedDir remadeAfter = some s ∧ ["d", "g"] ∈ s.store ∧
      ["d", "f"] ∉ s.share.recorded ∧ ["d", "f"] ∉ s.store := by
  obtain ⟨s, hs, hquiet, hnot, hstore⟩ : ∃ s, machine.run cachedDir remadeAfter = some s ∧
      s.Quiet ∧ ["d", "f"] ∉ s.tree.here ∧ ["d", "g"] ∈ s.store := by
    decide
  exact ⟨s, hs, hstore, invalidation_complete attached_cachedDir (by decide) hs hquiet _ hnot⟩

end RemoteDocker.DirCache.Invalidate

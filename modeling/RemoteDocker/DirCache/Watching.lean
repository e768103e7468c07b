import Mathlib.Data.Finset.Image
import Mathlib.Data.List.AList
import RemoteDocker.Base.SharePath

/-!
# Local changes and what the watcher says of them

A share here is its files and its directories. Each local change is reported by path, with
whether the path is gone and whether it was a directory: a directory removed or renamed away
is one event, and so is one that was made. `Observe` of `src/dircache/invalidate.go:66-103`
keeps the last word about each path the cache may hold, until a flush takes them. `Reported`
says what a change and its events have to do with each other.
-/

namespace RemoteDocker.DirCache

open Base

structure Local where
  files : Finset SharePath := ∅
  dirs : Finset SharePath := ∅
  deriving DecidableEq

namespace Local

def here (l : Local) : Finset SharePath := l.files ∪ l.dirs

/-- The directory a path would be made in is here. -/
def HasParent (l : Local) (p : SharePath) : Prop :=
  p ≠ [] ∧ (p.dropLast = [] ∨ p.dropLast ∈ l.dirs)

instance (l : Local) (p : SharePath) : Decidable (l.HasParent p) :=
  inferInstanceAs (Decidable (_ ∧ _))

/-- A directory and what is in it are taken away. -/
def without (l : Local) (d : SharePath) : Local where
  files := l.files.filter fun p ↦ ¬ d.AtOrUnder p
  dirs := l.dirs.filter fun p ↦ ¬ d.AtOrUnder p

def movedTo (l : Local) (a b : SharePath) : Local where
  files := (l.files.filter fun p ↦ a.AtOrUnder p).image fun p ↦ b ++ p.drop a.length
  dirs := (l.dirs.filter fun p ↦ a.AtOrUnder p).image fun p ↦ b ++ p.drop a.length

end Local

structure WatchEvent where
  path : SharePath
  gone : Bool
  dir : Bool
  deriving DecidableEq

/-- A local change. A directory removed may have anything in it: it is also one renamed out
of the share. -/
inductive LocalChange where
  | create (p : SharePath)
  | write (p : SharePath)
  | mkdir (d : SharePath)
  | remove (p : SharePath)
  | removeDir (d : SharePath)
  | rename (a b : SharePath)
  | renameDir (a b : SharePath)
  deriving DecidableEq

/-- What a change makes of the share, and how it is reported. -/
def Local.change (l : Local) : LocalChange → Option (Local × List WatchEvent)
  | .create p =>
    if p ∉ l.here ∧ l.HasParent p then
      some ({ l with files := insert p l.files }, [⟨p, false, false⟩])
    else none
  | .write p => if p ∈ l.files then some (l, [⟨p, false, false⟩]) else none
  | .mkdir d =>
    if d ∉ l.here ∧ l.HasParent d then
      some ({ l with dirs := insert d l.dirs }, [⟨d, false, true⟩])
    else none
  | .remove p =>
    if p ∈ l.files then some ({ l with files := l.files.erase p }, [⟨p, true, false⟩]) else none
  | .removeDir d => if d ∈ l.dirs then some (l.without d, [⟨d, true, true⟩]) else none
  | .rename a b =>
    if a ∈ l.files ∧ a ≠ b ∧ b ∉ l.dirs ∧ l.HasParent b then
      some ({ l with files := insert b (l.files.erase a) }, [⟨a, true, false⟩, ⟨b, false, false⟩])
    else none
  | .renameDir a b =>
    -- Neither lies in the other, and nothing is in the way.
    if a ∈ l.dirs ∧ b ∉ l.here ∧ l.HasParent b ∧ ¬ a.AtOrUnder b ∧ ¬ b.AtOrUnder a then
      some (⟨(l.without a).files ∪ (l.movedTo a b).files,
        (l.without a).dirs ∪ (l.movedTo a b).dirs⟩,
        [⟨a, true, true⟩, ⟨b, false, true⟩])
    else none

/-- The last word about one path. -/
structure Pend where
  gone : Bool
  dir : Bool
  deriving DecidableEq

/-- The last words about the paths of one share. -/
abbrev Pending := AList fun _ : SharePath ↦ Pend

/-- A component is a directory the cache does not cover. -/
def excludedPath (exclude : Finset String) (p : SharePath) : Bool := p.any (· ∈ exclude)

/-- The event says something the cache may have to act on: not that a directory was made,
and nothing about what is excluded. -/
def WatchEvent.counts (exclude : Finset String) (ev : WatchEvent) : Bool :=
  !(ev.dir && !ev.gone) && !excludedPath exclude ev.path

def observe (exclude : Finset String) (pending : Pending) (ev : WatchEvent) : Pending :=
  if ev.counts exclude then pending.insert ev.path ⟨ev.gone, ev.dir⟩ else pending

/-- The paths a word says are gone: its own, and those under it if it was a directory. -/
def Covers (pending : Pending) (p : SharePath) : Prop :=
  ∃ q w, pending.lookup q = some w ∧ w.gone = true ∧ (q = p ∨ w.dir = true ∧ q.Above p)

section Words

variable {exclude : Finset String} {p : SharePath} {w : Pend}
  {ev : WatchEvent} {evs : List WatchEvent}

theorem excludedPath_of_counts (hc : ev.counts exclude = true) :
    excludedPath exclude ev.path = false := by
  simp only [WatchEvent.counts, Bool.and_eq_true, Bool.not_eq_true'] at hc
  exact hc.2

theorem dir_of_counts (hc : ev.counts exclude = true) (hgone : ev.gone = false) :
    ev.dir = false := by
  simp only [WatchEvent.counts, hgone, Bool.not_false, Bool.and_true, Bool.and_eq_true,
    Bool.not_eq_true'] at hc
  exact hc.1

theorem counts_of_gone (hgone : ev.gone = true)
    (hp : excludedPath exclude ev.path = false) : ev.counts exclude = true := by
  simp [WatchEvent.counts, hgone, hp]

theorem eq_of_removedDir (h : (⟨ev.gone, ev.dir⟩ : Pend) = ⟨true, true⟩) :
    ev = ⟨ev.path, true, true⟩ := by
  obtain ⟨path, gone, dir⟩ := ev
  injection h with hgone hdir
  subst hgone hdir
  rfl

theorem lookup_observe (m : Pending) (ev : WatchEvent) :
    (observe exclude m ev).lookup p =
      if ev.counts exclude = true ∧ ev.path = p then some ⟨ev.gone, ev.dir⟩ else m.lookup p := by
  unfold observe
  by_cases hc : ev.counts exclude = true
  · by_cases hp : ev.path = p
    · subst hp
      simp [hc]
    · simp [hc, hp, AList.lookup_insert_ne (Ne.symm hp)]
  · simp [hc]

/-- A later word stands, and an earlier one where nothing was said since. -/
theorem lookup_foldl_observe (evs : List WatchEvent) (m : Pending) :
    (evs.foldl (observe exclude) m).lookup p =
      ((evs.foldl (observe exclude) ∅).lookup p).or (m.lookup p) := by
  induction evs generalizing m with
  | nil => simp
  | cons ev evs ih =>
    rw [List.foldl_cons, List.foldl_cons, ih (observe exclude m ev), ih (observe exclude ∅ ev),
      lookup_observe, lookup_observe, Option.or_assoc]
    split
    · simp
    · simp

theorem of_lookup_foldl_observe {m : Pending}
    (h : (evs.foldl (observe exclude) m).lookup p = some w) :
    (∃ ev ∈ evs, ev.counts exclude = true ∧ ev.path = p ∧ w = ⟨ev.gone, ev.dir⟩) ∨
      m.lookup p = some w := by
  induction evs generalizing m with
  | nil => exact .inr h
  | cons ev evs ih =>
    rcases ih h with ⟨ev', hev', hrest⟩ | h
    · exact .inl ⟨ev', .tail _ hev', hrest⟩
    · rw [lookup_observe] at h
      split at h
      · next hc =>
        rw [Option.some.injEq] at h
        exact .inl ⟨ev, (.head _), hc.1, hc.2, h.symm⟩
      · exact .inr h

theorem lookup_foldl_observe_of_silent (m : Pending)
    (h : ∀ ev ∈ evs, ev.counts exclude = true → ev.path ≠ p) :
    (evs.foldl (observe exclude) m).lookup p = m.lookup p := by
  induction evs generalizing m with
  | nil => rfl
  | cons ev evs ih =>
    rw [List.foldl_cons, ih _ fun ev' hev' ↦ h ev' (.tail _ hev'), lookup_observe,
      if_neg]
    rintro ⟨hc, hp⟩
    exact h ev (.head _) hc hp

theorem lookup_foldl_observe_of_mem (m : Pending)
    (honce : evs.Pairwise fun a b ↦ a.path ≠ b.path) (hev : ev ∈ evs)
    (hc : ev.counts exclude = true) :
    (evs.foldl (observe exclude) m).lookup ev.path = some ⟨ev.gone, ev.dir⟩ := by
  induction evs generalizing m with
  | nil => cases hev
  | cons ev' evs ih =>
    obtain ⟨hne, honce⟩ := List.pairwise_cons.mp honce
    rw [List.foldl_cons]
    rcases List.mem_cons.mp hev with rfl | hev
    · rw [lookup_foldl_observe_of_silent _ fun ev' hev' _ ↦ (hne ev' hev').symm, lookup_observe]
      simp [hc]
    · exact ih _ honce hev

theorem excludedPath_of_atOrUnder {d : SharePath} (h : d.AtOrUnder p)
    (hp : excludedPath exclude p = false) : excludedPath exclude d = false := by
  unfold excludedPath at hp ⊢
  rw [List.any_eq_false] at hp ⊢
  intro name hname
  exact hp name (List.IsPrefix.subset h hname)

end Words

/-- What the events of a change say is so after it, and say all that went. -/
structure Reported (l l' : Local) (evs : List WatchEvent) : Prop where
  lost : ∀ p ∈ l.here, p ∉ l'.here →
    ∃ ev ∈ evs, ev.gone = true ∧ (ev.path = p ∨ ev.dir = true ∧ ev.path.Above p)
  lostFile : ∀ p ∈ l.files, p ∉ l'.files →
    ∃ ev ∈ evs, ev.gone = true ∧ (ev.path = p ∨ ev.dir = true ∧ ev.path.Above p)
  changed : ∀ ev ∈ evs, ev.gone = false → ev.dir = false → ev.path ∈ l'.files
  removed : ∀ ev ∈ evs, ev.gone = true → ev.dir = true → ev.path ∉ l'.here
  touched : ∀ ev ∈ evs, ev.path ∈ l.here ∨ ev.path ∈ l'.here
  once : evs.Pairwise fun a b ↦ a.path ≠ b.path

theorem Local.mem_here {l : Local} {p : SharePath} : p ∈ l.here ↔ p ∈ l.files ∨ p ∈ l.dirs :=
  Finset.mem_union

private theorem Reported.refl (l : Local) : Reported l l [] where
  lost := fun _ hp hp' ↦ absurd hp hp'
  lostFile := fun _ hp hp' ↦ absurd hp hp'
  changed := by simp
  removed := by simp
  touched := by simp
  once := List.Pairwise.nil

/-- More is here than is left of one change, and one more event says so. -/
theorem Reported.add {l l₁ l₂ : Local} {evs : List WatchEvent} (h : Reported l l₁ evs)
    (ev : WatchEvent) (hfiles : l₁.files ⊆ l₂.files) (hdirs : l₁.dirs ⊆ l₂.dirs)
    (hremoved : ∀ ev ∈ evs, ev.gone = true → ev.dir = true → ev.path ∉ l₂.here)
    (hgone : ev.gone = false) (hev : ev.path ∈ if ev.dir then l₂.dirs else l₂.files)
    (honce : ∀ ev' ∈ evs, ev'.path ≠ ev.path) : Reported l l₂ (evs ++ [ev]) where
  lost := by
    intro p hp hp'
    have hp₁ : p ∉ l₁.here := fun hmem ↦ hp' (Finset.union_subset_union hfiles hdirs hmem)
    obtain ⟨ev', hev', hrest⟩ := h.lost p hp hp₁
    exact ⟨ev', List.mem_append_left _ hev', hrest⟩
  lostFile := by
    intro p hp hp'
    obtain ⟨ev', hev', hrest⟩ := h.lostFile p hp fun hmem ↦ hp' (hfiles hmem)
    exact ⟨ev', List.mem_append_left _ hev', hrest⟩
  changed := by
    intro ev' hev' hgone' hdir
    rcases List.mem_append.mp hev' with hev' | hev'
    · exact hfiles (h.changed ev' hev' hgone' hdir)
    · rw [List.mem_singleton.mp hev'] at hdir ⊢
      simpa [hdir] using hev
  removed := by
    intro ev' hev' hgone' hdir
    rcases List.mem_append.mp hev' with hev' | hev'
    · exact hremoved ev' hev' hgone' hdir
    · rw [List.mem_singleton.mp hev', hgone] at hgone'
      cases hgone'
  touched := by
    intro ev' hev'
    rcases List.mem_append.mp hev' with hev' | hev'
    · exact (h.touched ev' hev').imp_right fun hmem ↦ Finset.union_subset_union hfiles hdirs hmem
    · rw [List.mem_singleton.mp hev', Local.mem_here, Local.mem_here]
      split at hev
      · exact .inr (.inr hev)
      · exact .inr (.inl hev)
  once := by
    refine List.pairwise_append.mpr ⟨h.once, List.pairwise_singleton _ _, ?_⟩
    intro a ha b hb
    rw [List.mem_singleton.mp hb]
    exact honce a ha

namespace Local

variable {l : Local} {p : SharePath}

private theorem mem_here_without {d : SharePath} :
    p ∈ (l.without d).here ↔ p ∈ l.here ∧ ¬ d.AtOrUnder p := by
  simp only [mem_here, without, Finset.mem_filter]
  tauto

private theorem reported_remove (hp : p ∈ l.files) :
    Reported l { l with files := l.files.erase p } [⟨p, true, false⟩] where
  lost := by
    intro q hq hq'
    rw [mem_here] at hq hq'
    by_cases he : p = q
    · exact ⟨_, List.mem_singleton_self _, rfl, .inl he⟩
    · exact absurd (hq.imp_left fun h ↦ Finset.mem_erase.mpr ⟨Ne.symm he, h⟩) hq'
  lostFile := by
    intro q hq hq'
    by_cases he : p = q
    · exact ⟨_, List.mem_singleton_self _, rfl, .inl he⟩
    · exact absurd (Finset.mem_erase.mpr ⟨Ne.symm he, hq⟩) hq'
  changed := by simp
  removed := by simp
  touched := by simp [mem_here, hp]
  once := List.pairwise_singleton _ _

private theorem reported_removeDir {d : SharePath} (hd : d ∈ l.dirs) :
    Reported l (l.without d) [⟨d, true, true⟩] where
  lost := by
    intro q hq hq'
    have hunder : d.AtOrUnder q := by
      by_contra hnot
      exact hq' (mem_here_without.mpr ⟨hq, hnot⟩)
    exact ⟨_, List.mem_singleton_self _, rfl,
      (SharePath.atOrUnder_iff.mp hunder).imp_right fun h ↦ ⟨rfl, h⟩⟩
  lostFile := by
    intro q hq hq'
    have hunder : d.AtOrUnder q := by
      by_contra hnot
      exact hq' (Finset.mem_filter.mpr ⟨hq, hnot⟩)
    exact ⟨_, List.mem_singleton_self _, rfl,
      (SharePath.atOrUnder_iff.mp hunder).imp_right fun h ↦ ⟨rfl, h⟩⟩
  changed := by simp
  removed := by
    intro ev hev _ _ hhere
    rw [List.mem_singleton.mp hev] at hhere
    exact (mem_here_without.mp hhere).2 (SharePath.AtOrUnder.refl d)
  touched := by simp [mem_here, hd]
  once := List.pairwise_singleton _ _

private theorem atOrUnder_of_mem_movedTo {a b q : SharePath} (h : q ∈ (l.movedTo a b).here) :
    b.AtOrUnder q := by
  rw [mem_here, movedTo] at h
  simp only [Finset.mem_image] at h
  rcases h with ⟨p, -, rfl⟩ | ⟨p, -, rfl⟩
  · exact List.prefix_append _ _
  · exact List.prefix_append _ _

theorem reported_change {l l' : Local} {c : LocalChange} {evs : List WatchEvent}
    (h : l.change c = some (l', evs)) : Reported l l' evs := by
  revert h
  fun_cases Local.change l c
  all_goals
    intro h
    cases h
  case case1 p hp =>
    exact (Reported.refl l).add _ (Finset.subset_insert _ _) subset_rfl (by simp) rfl
      (Finset.mem_insert_self _ _) (by simp)
  case case3 p hp => exact (Reported.refl l).add _ subset_rfl subset_rfl (by simp) rfl hp (by simp)
  case case5 d hd =>
    exact (Reported.refl l).add _ subset_rfl (Finset.subset_insert _ _) (by simp) rfl
      (Finset.mem_insert_self _ _) (by simp)
  case case7 p hp => exact reported_remove hp
  case case9 d hd => exact reported_removeDir hd
  case case11 a b hab =>
    obtain ⟨ha, hne, -, -⟩ := hab
    exact (reported_remove ha).add _ (Finset.subset_insert _ _) subset_rfl (by simp) rfl
      (Finset.mem_insert_self _ _) (by simpa using hne)
  case case13 a b hab =>
    obtain ⟨ha, -, -, hnot, hnot'⟩ := hab
    refine (reported_removeDir ha).add _ Finset.subset_union_left Finset.subset_union_left ?_ rfl
      ?_ ?_
    · intro ev hev _ _ hhere
      rw [List.mem_singleton.mp hev, mem_here, Finset.mem_union, Finset.mem_union, or_or_or_comm,
        ← mem_here, ← mem_here] at hhere
      rcases hhere with hhere | hhere
      · exact (mem_here_without.mp hhere).2 (SharePath.AtOrUnder.refl a)
      · exact hnot' (atOrUnder_of_mem_movedTo hhere)
    · refine Finset.mem_union_right _ (Finset.mem_image.mpr ⟨a, ?_, by simp⟩)
      exact Finset.mem_filter.mpr ⟨ha, SharePath.AtOrUnder.refl a⟩
    · intro ev hev heq
      rw [List.mem_singleton.mp hev] at heq
      dsimp only at heq
      rw [heq] at hnot
      exact hnot (SharePath.AtOrUnder.refl b)

end Local

end RemoteDocker.DirCache

import RemoteDocker.Base.Machine
import RemoteDocker.DirCache.Shares

/-!
# The record covers what this machine put in the cache

A send records its paths, has them applied and notes what was; a drop has paths taken out
of the store and then takes them out of the record; a pass moves both when it commits
(`src/dircache/cache.go:292-388`, `src/dircache/invalidate.go:201-221`,
`src/dircache/writepass.go:420-427`). Nothing orders a send and a drop of one path: the
drop's last step may forget a path the send put there after the drop took effect
(`drop_forgets_sent`). `careful` keeps to the runs where a path is taken out of the record
only while the store does not hold it and no send of it is in progress.

The store is known here by the paths it holds that came from this machine. A call whose
caller gave up goes on taking effect, and is in progress until it stops.
-/

namespace RemoteDocker.DirCache.Coverage

open Base

/-- What came of one entry of a batch. An entry the far end could not write stays as it
was there, and so does one it kept. -/
inductive Outcome where
  | unread
  | landed (size modTime : Int)
  | skipped (size modTime : Int)
  | kept (size modTime : Int)

/-- A send, a drop or a commit in progress. `left` is what has yet to take effect, `under`
says that a drop takes everything recorded under its paths out of the record, and a call
nobody waits for is not noted. -/
inductive Task where
  | send (entries left : List SharePath) (applied : Applied) (waited : Bool)
  | drop (paths left : List SharePath) (under waited : Bool)
  | commit (acts : List Action) (added removed : Finset SharePath)
  | rebased (added removed : Finset SharePath)

/-- One share, the paths the store holds from this machine, and what is in progress. -/
structure State where
  store : Finset SharePath := ∅
  share : Share := {}
  tasks : List Task := []

inductive TaskEvent where
  | apply (outcome : Outcome)
  | drop
  | answer
  | abandon
  | fail
  | rebase (localAt : SharePath → Option FileInfo) (lstat : SharePath → Option Int)

inductive Event where
  | send (entries : List SharePath)
  | drop (paths : List SharePath) (under : Bool)
  | commitRemoved (a : Action)
  | commitLanded (acts : List Action)
  | consumer (p : SharePath)
  | task (i : Nat) (e : TaskEvent)

/-- What an entry's outcome adds to the batch's answer. -/
def Outcome.note (applied : Applied) (p : SharePath) : Outcome → Applied
  | unread => applied
  | landed size modTime => { applied with read := applied.read ++ [⟨p, size, modTime⟩] }
  | skipped size modTime =>
    { applied with read := applied.read ++ [⟨p, size, modTime⟩], skipped := applied.skipped ++ [p] }
  | kept size modTime =>
    { applied with read := applied.read ++ [⟨p, size, modTime⟩], kept := applied.kept ++ [p] }

/-- The paths the store holds once an entry's outcome is known. -/
def Outcome.hold (store : Finset SharePath) (p : SharePath) : Outcome → Finset SharePath
  | landed _ _ => insert p store
  | _ => store

/-- The paths a task takes out of the record when it ends. -/
def Task.forgets (share : Share) : Task → Finset SharePath
  | send _ _ applied _ => (applied.skipped ++ applied.kept).toFinset
  | drop paths _ true _ => share.recordedUnder paths
  | drop paths _ false _ => paths.toFinset
  | commit _ _ _ => ∅
  | rebased _ removed => removed

def stepTask (s : State) (i : Nat) : Task → TaskEvent → Option State
  | .send entries (p :: left) applied waited, .apply outcome =>
    some { s with store := outcome.hold s.store p
                  tasks := s.tasks.set i (.send entries left (outcome.note applied p) waited) }
  | .send _ [] applied true, .answer =>
    some { s with share := s.share.noteApplied applied, tasks := s.tasks.eraseIdx i }
  | .send entries left applied _, .abandon =>
    some { s with tasks := s.tasks.set i (.send entries left applied false) }
  | .drop paths (p :: left) under waited, .drop =>
    some { s with store := s.store.filter fun q ↦ ¬ p.AtOrUnder q
                  tasks := s.tasks.set i (.drop paths left under waited) }
  | .drop paths [] under true, .answer =>
    some { s with
                  share :=
                    s.share.editRecord ((Task.drop paths [] under true).forgets s.share) false
                  tasks := s.tasks.eraseIdx i }
  | .drop paths left under _, .abandon =>
    some { s with tasks := s.tasks.set i (.drop paths left under false) }
  | .send .., .fail | .drop .., .fail => some { s with tasks := s.tasks.eraseIdx i }
  | .commit acts added removed, .rebase localAt lstat =>
    some { s with share := s.share.rebase localAt lstat acts
                  tasks := s.tasks.set i (.rebased added removed) }
  | .rebased added removed, .answer =>
    some { s with share := (s.share.editRecord added true).editRecord removed false
                  tasks := s.tasks.eraseIdx i }
  | _, _ => none

def step (s : State) : Event → Option State
  | .send entries =>
    some { s with share := s.share.editRecord entries.toFinset true
                  tasks := s.tasks ++ [.send entries entries {} true] }
  | .drop paths under => some { s with tasks := s.tasks ++ [.drop paths paths under true] }
  | .commitRemoved a =>
    if a.kind = .delete then some { s with tasks := s.tasks ++ [.commit [a] ∅ {a.path}] } else none
  | .commitLanded acts =>
    if ∀ a ∈ acts, a.kind ≠ .delete then
      some { s with tasks := s.tasks ++ [.commit acts (acts.map (·.path)).toFinset ∅] }
    else none
  | .consumer p => some { s with store := s.store.erase p }
  | .task i e =>
    match s.tasks[i]? with
    | none => none
    | some t => stepTask s i t e

def machine : Machine State Event := ⟨step⟩

def Task.sending : Task → List SharePath
  | send entries _ _ _ => entries
  | _ => []

/-- The paths a commit in progress has yet to record. -/
def Task.adding : Task → Finset SharePath
  | commit _ added _ => added
  | rebased added _ => added
  | _ => ∅

/-- A task takes a path out of the record only while the store does not hold it and no other
send of it is in progress. -/
def careful (s : State) : Event → Bool
  | .task i .answer =>
    match s.tasks[i]? with
    | none => true
    | some t => ∀ q ∈ t.forgets s.share ∩ s.share.recorded, q ∉ s.store ∧
        ∀ u ∈ s.tasks.eraseIdx i, q ∉ u.sending
  | _ => true

/-- A task's own lists belong together: what is left and what was read are of its entries,
what a commit rebases on it adds, or deletes, and nothing it adds does it take out. -/
def Task.WellFormed : Task → Prop
  | send entries left applied _ => left ⊆ entries ∧ ∀ r ∈ applied.read, r.path ∈ entries
  | drop .. => True
  | commit acts added removed =>
    (∀ a ∈ acts, a.kind ≠ .delete → a.path ∈ added) ∧ Disjoint added removed
  | rebased added removed => Disjoint added removed

structure Inv (s : State) : Prop where
  held : s.store ⊆ s.share.recorded
  sending : ∀ t ∈ s.tasks, ∀ p ∈ t.sending, p ∈ s.share.recorded
  baselines : ∀ p b, s.share.manifest.lookup p = some b →
    p ∈ s.share.recorded ∨ ∃ t ∈ s.tasks, p ∈ t.adding
  wellFormed : ∀ t ∈ s.tasks, t.WellFormed

variable {s : State} {i : Nat} {t : Task}

section

variable (h : Inv s)

include h

private theorem Inv.setTask {t' : Task} (hi : s.tasks[i]? = some t)
    (hsending : ∀ p ∈ t'.sending, p ∈ t.sending) (hadding : t.adding ⊆ t'.adding)
    (hwf : t'.WellFormed) : Inv { s with tasks := s.tasks.set i t' } where
  held := h.held
  sending := by
    intro u hu p hp
    rcases List.mem_or_eq_of_mem_set hu with hu | rfl
    · exact h.sending u hu p hp
    · exact h.sending t (List.mem_of_getElem? hi) p (hsending p hp)
  baselines := by
    intro p b hb
    refine (h.baselines p b hb).imp_right ?_
    rintro ⟨u, hu, hp⟩
    obtain ⟨j, hj⟩ := List.mem_iff_getElem?.mp hu
    by_cases hij : j = i
    · subst hij
      rw [hi, Option.some.injEq] at hj
      subst hj
      exact ⟨t', List.mem_set (List.getElem?_eq_some_iff.mp hi).1 t', hadding hp⟩
    · refine ⟨u, List.mem_of_getElem? (i := j) ?_, hp⟩
      rw [List.getElem?_set_ne (Ne.symm hij)]
      exact hj
  wellFormed := by
    intro u hu
    rcases List.mem_or_eq_of_mem_set hu with hu | rfl
    · exact h.wellFormed u hu
    · exact hwf

private theorem Inv.eraseTask (hi : s.tasks[i]? = some t)
    (hadding : t.adding ⊆ s.share.recorded) : Inv { s with tasks := s.tasks.eraseIdx i } where
  held := h.held
  sending := fun u hu ↦ h.sending u (List.mem_of_mem_eraseIdx hu)
  baselines := by
    intro p b hb
    rcases h.baselines p b hb with hp | ⟨u, hu, hp⟩
    · exact .inl hp
    · obtain ⟨j, hj⟩ := List.mem_iff_getElem?.mp hu
      by_cases hij : j = i
      · subst hij
        rw [hi, Option.some.injEq] at hj
        subst hj
        exact .inl (hadding hp)
      · exact .inr ⟨u, List.mem_eraseIdx_iff_getElem?.mpr ⟨j, hij, hj⟩, hp⟩
  wellFormed := fun u hu ↦ h.wellFormed u (List.mem_of_mem_eraseIdx hu)

private theorem Inv.addTask
    (hsending : ∀ p ∈ t.sending, p ∈ s.share.recorded) (hwf : t.WellFormed) :
    Inv { s with tasks := s.tasks ++ [t] } where
  held := h.held
  sending := by
    intro u hu
    rcases List.mem_append.mp hu with hu | hu
    · exact h.sending u hu
    · rw [List.mem_singleton.mp hu]
      exact hsending
  baselines := by
    intro p b hb
    refine (h.baselines p b hb).imp_right ?_
    rintro ⟨u, hu, hp⟩
    exact ⟨u, List.mem_append_left _ hu, hp⟩
  wellFormed := by
    intro u hu
    rcases List.mem_append.mp hu with hu | hu
    · exact h.wellFormed u hu
    · rw [List.mem_singleton.mp hu]
      exact hwf

private theorem Inv.store {store : Finset SharePath}
    (hstore : store ⊆ s.share.recorded) : Inv { s with store := store } where
  held := hstore
  sending := h.sending
  baselines := h.baselines
  wellFormed := h.wellFormed

private theorem Inv.record (ps : Finset SharePath) :
    Inv { s with share := s.share.editRecord ps true } where
  held := h.held.trans Finset.subset_union_left
  sending := fun t ht p hp ↦ Finset.mem_union_left _ (h.sending t ht p hp)
  baselines := fun p b hb ↦ (h.baselines p b hb).imp_left (Finset.mem_union_left _)
  wellFormed := h.wellFormed

/-- Paths are taken out of the record that the store does not hold and nobody sends. -/
theorem Inv.unrecord {ps : Finset SharePath}
    (hok : ∀ q ∈ ps ∩ s.share.recorded, q ∉ s.store ∧ ∀ u ∈ s.tasks, q ∉ u.sending) :
    Inv { s with share := s.share.editRecord ps false } where
  held := by
    intro q hq
    have hrec := h.held hq
    rw [Share.recorded_editRecord_false, Finset.mem_sdiff]
    refine ⟨hrec, ?_⟩
    intro hps
    exact (hok q (Finset.mem_inter.mpr ⟨hps, hrec⟩)).1 hq
  sending := by
    intro u hu q hq
    have hrec := h.sending u hu q hq
    rw [Share.recorded_editRecord_false, Finset.mem_sdiff]
    refine ⟨hrec, ?_⟩
    intro hps
    exact (hok q (Finset.mem_inter.mpr ⟨hps, hrec⟩)).2 u hu hq
  baselines := by
    intro p b hb
    refine (h.baselines p b (Share.lookup_of_editRecord hb)).imp_left ?_
    intro hrec
    rw [Share.lookup_editRecord_false] at hb
    rw [Share.recorded_editRecord_false, Finset.mem_sdiff]
    refine ⟨hrec, ?_⟩
    intro hps
    simp [hps, hrec] at hb
  wellFormed := h.wellFormed

private theorem Inv.noteSent {read : List Read}
    (hread : ∀ r ∈ read, r.path ∈ s.share.recorded) :
    Inv { s with share := s.share.noteSent read } where
  held := h.held
  sending := h.sending
  baselines := by
    intro p b hb
    rcases Share.lookup_of_noteSent hb with hb | ⟨r, hr, rfl, -⟩
    · exact h.baselines p b hb
    · exact .inl (hread r hr)
  wellFormed := h.wellFormed

/-- A commit rebases on paths it is about to record, or deletes their baselines. -/
theorem Inv.rebase {acts : List Action}
    (localAt : SharePath → Option FileInfo) (lstat : SharePath → Option Int)
    (hacts : ∀ a ∈ acts, a.kind ≠ .delete → ∃ t ∈ s.tasks, a.path ∈ t.adding) :
    Inv { s with share := s.share.rebase localAt lstat acts } where
  held := h.held
  sending := h.sending
  baselines := by
    intro p b hb
    rcases Share.lookup_of_rebase hb with hb | ⟨a, ha, rfl, hk⟩
    · exact h.baselines p b hb
    · exact .inr (hacts a ha hk)
  wellFormed := h.wellFormed

end

private theorem clear_of_careful (hi : s.tasks[i]? = some t)
    (hok : careful s (.task i .answer) = true) :
    ∀ q ∈ t.forgets s.share ∩ s.share.recorded, q ∉ s.store ∧
      ∀ u ∈ s.tasks.eraseIdx i, q ∉ u.sending := by
  simp only [careful, hi] at hok
  exact of_decide_eq_true hok

private theorem inv_stepTask {s' : State} {e : TaskEvent} (h : Inv s)
    (hi : s.tasks[i]? = some t) (hok : careful s (.task i e) = true)
    (hs : stepTask s i t e = some s') : Inv s' := by
  have hmem : t ∈ s.tasks := List.mem_of_getElem? hi
  have hwf := h.wellFormed t hmem
  unfold stepTask at hs
  split at hs
  · next entries p left applied waited outcome =>
    injection hs with hs
    subst hs
    have hp : p ∈ s.share.recorded :=
      h.sending _ hmem p (hwf.1 (.head _))
    have hhold : outcome.hold s.store p ⊆ s.share.recorded := by
      cases outcome with
      | landed => exact Finset.insert_subset hp h.held
      | _ => exact h.held
    refine (h.store hhold).setTask hi (fun _ hq ↦ hq) (Finset.Subset.refl _) ⟨?_, ?_⟩
    · exact fun q hq ↦ hwf.1 (.tail _ hq)
    · intro r hr
      have hmine : p ∈ entries := hwf.1 (.head _)
      cases outcome with
      | unread => exact hwf.2 r hr
      | _ =>
        simp only [Outcome.note, List.mem_append, List.mem_singleton] at hr
        rcases hr with hr | rfl
        · exact hwf.2 r hr
        · exact hmine
  · next entries applied =>
    injection hs with hs
    subst hs
    have herased := (h.eraseTask hi (by simp [Task.adding])).unrecord (clear_of_careful hi hok)
    refine herased.noteSent ?_
    intro r hr
    rw [List.mem_filter, decide_eq_true_eq] at hr
    rw [Share.recorded_editRecord_false, Finset.mem_sdiff]
    exact ⟨h.sending _ hmem _ (hwf.2 r hr.1), hr.2⟩
  · injection hs with hs
    exact hs ▸ h.setTask hi (fun _ hq ↦ hq) (Finset.Subset.refl _) hwf
  · injection hs with hs
    subst hs
    refine (h.store ?_).setTask hi (fun _ hq ↦ hq) (Finset.Subset.refl _) trivial
    exact (Finset.filter_subset _ _).trans h.held
  · injection hs with hs
    subst hs
    exact (h.eraseTask hi (by simp [Task.adding])).unrecord (clear_of_careful hi hok)
  · injection hs with hs
    exact hs ▸ h.setTask hi (fun _ hq ↦ hq) (Finset.Subset.refl _) trivial
  · injection hs with hs
    exact hs ▸ h.eraseTask hi (by simp [Task.adding])
  · injection hs with hs
    exact hs ▸ h.eraseTask hi (by simp [Task.adding])
  · next acts added removed localAt lstat =>
    injection hs with hs
    subst hs
    refine (h.rebase localAt lstat ?_).setTask hi (fun _ hq ↦ hq) (Finset.Subset.refl _) hwf.2
    exact fun a ha hk ↦ ⟨_, hmem, hwf.1 a ha hk⟩
  · next added removed =>
    injection hs with hs
    subst hs
    refine ((h.record added).eraseTask hi Finset.subset_union_right).unrecord ?_
    intro q hq
    rw [Finset.mem_inter, Share.recorded_editRecord_true, Finset.mem_union] at hq
    obtain ⟨hremoved, hrec | hadded⟩ := hq
    · exact clear_of_careful hi hok q (Finset.mem_inter.mpr ⟨hremoved, hrec⟩)
    · exact absurd hremoved (Finset.disjoint_left.mp hwf hadded)
  · simp at hs

private theorem inv_step {s' : State} {e : Event} (h : Inv s) (hok : careful s e = true)
    (hs : step s e = some s') : Inv s' := by
  cases e with
  | send entries =>
    simp only [step, Option.some.injEq] at hs
    subst hs
    refine (h.record entries.toFinset).addTask ?_ ⟨List.Subset.refl _, by simp⟩
    exact fun p hp ↦ Finset.mem_union_right _ (List.mem_toFinset.mpr hp)
  | drop paths under =>
    simp only [step, Option.some.injEq] at hs
    subst hs
    exact h.addTask (by simp [Task.sending]) trivial
  | commitRemoved a =>
    simp only [step] at hs
    split at hs
    · next hk =>
      injection hs with hs
      subst hs
      refine h.addTask (by simp [Task.sending]) ⟨?_, Finset.disjoint_empty_left _⟩
      intro b hb hne
      rw [List.mem_singleton.mp hb] at hne
      exact absurd hk hne
    · simp at hs
  | commitLanded acts =>
    simp only [step] at hs
    split at hs
    · injection hs with hs
      subst hs
      refine h.addTask (by simp [Task.sending]) ⟨?_, Finset.disjoint_empty_right _⟩
      exact fun a ha _ ↦ List.mem_toFinset.mpr (List.mem_map_of_mem ha)
    · simp at hs
  | consumer p =>
    simp only [step, Option.some.injEq] at hs
    subst hs
    exact h.store ((Finset.erase_subset _ _).trans h.held)
  | task i e =>
    simp only [step] at hs
    split at hs
    · simp at hs
    · next t hi => exact inv_stepTask h hi hok hs

/-- The record has every path the store holds from this machine, and every path with a
baseline. -/
structure Covered (s : State) : Prop where
  held : ∀ p ∈ s.store, p ∈ s.share.recorded
  baselines : ∀ p b, s.share.manifest.lookup p = some b → p ∈ s.share.recorded

/-- In every run of careful steps from a covered share, the record covers the store again
whenever nothing is in progress. -/
theorem recorded_covers_store (s₀ s : State) (es : List Event) (hcovered : Covered s₀)
    (hstart : s₀.tasks = [])
    (hcareful : machine.Within (fun s e ↦ careful s e = true) s₀ es)
    (hrun : machine.run s₀ es = some s) (hidle : s.tasks = []) : Covered s := by
  have hinit : Inv s₀ :=
    { held := hcovered.held
      sending := by simp [hstart]
      baselines := fun p b hb ↦ .inl (hcovered.baselines p b hb)
      wellFormed := by simp [hstart] }
  have hinv : Inv s := by
    apply machine.run_invariant (fun s e ↦ careful s e = true) ?_ hinit hcareful hrun
    intro s e t hi hok hs
    exact inv_step hi hok hs
  refine ⟨fun p hp ↦ hinv.held hp, ?_⟩
  intro p b hb
  rcases hinv.baselines p b hb with hp | ⟨t, ht, -⟩
  · exact hp
  · simp [hidle] at ht

/-- A file is dropped and made again: its send is over before the drop's last step, which
takes it out of the record while the store holds it. -/
theorem drop_forgets_sent :
    (machine.run {} [.send [["a"]], .task 0 (.apply (.landed 1 5)), .task 0 .answer,
        .drop [["a"]] true, .task 0 .drop, .send [["a"]], .task 1 (.apply (.landed 2 9)),
        .task 1 .answer, .task 0 .answer]).map
        (fun s ↦ (s.store, s.share.recorded, s.tasks.length)) =
      some ({["a"]}, ∅, 0) := by
  decide

def sentAfterDrop : List Event :=
  [.send [["a"]], .task 0 (.apply (.landed 1 5)), .task 0 .answer, .drop [["a"]] true,
    .task 0 .drop, .task 0 .answer, .send [["a"]], .task 0 (.apply (.landed 2 9)),
    .task 0 .answer]

/-- Then the record has it. -/
theorem recorded_covers_store_sent :
    ∃ s, machine.run {} sentAfterDrop = some s ∧ ["a"] ∈ s.store ∧ Covered s := by
  obtain ⟨s, hrun, hstore, htasks⟩ : ∃ s, machine.run {} sentAfterDrop = some s ∧
      ["a"] ∈ s.store ∧ s.tasks.length = 0 := by
    decide
  exact ⟨s, hrun, hstore, recorded_covers_store {} s sentAfterDrop ⟨by simp, by simp⟩ rfl
    (by decide) hrun (List.length_eq_zero_iff.mp htasks)⟩

end RemoteDocker.DirCache.Coverage

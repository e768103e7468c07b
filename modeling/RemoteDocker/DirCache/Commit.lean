import RemoteDocker.Base.Machine
import RemoteDocker.DirCache.LastWriter
import RemoteDocker.DirCache.Shares

/-!
# What a pass commits

`writePass` lands a chunk file by file and commits it when the pull is over
(`src/dircache/writepass.go:123-145,218-230,272-337,414-427`), while an editor goes on. The
commit stats each file again (`shares.rebase`, `src/dircache/cache.go:929-956`), so its
baseline is of whatever is there by then: an edit made in between becomes the version both
sides agree on, and the consumer's own version reads as a new change that is written over
it (`edit_before_commit_overwritten`). `noteSent`, the same step of the fill, takes the
version that was read.

Links are left out: none is landed by a pull.
-/

namespace RemoteDocker.DirCache.Commit

open Base

/-- A file a pass landed: as it was then, and the consumer's time of the version. -/
structure Landing where
  path : SharePath
  info : FileInfo
  consumer : Int
  deriving DecidableEq

/-- A pass by how far it has come: files landed and not committed yet, or a commit with the
actions it has yet to rebase on and the paths it adds to the record or takes out of it. -/
inductive Progress where
  | idle
  | pulling (actions : List Action) (wrote : List (Action × Landing))
  | committing (actions : List Action) (todo : List (Action × Option Landing))
      (added removed : Finset SharePath)

/-- The share and a pass over it. `committed` is the landing the last commit of a path was
for, if it was for one. -/
structure State where
  disk : SharePath → Option Here
  share : Share := {}
  pass : Progress := .idle
  committed : SharePath → Option Landing := fun _ ↦ none

inductive Event where
  | edit (p : SharePath) (file : Here)
  | delete (p : SharePath)
  | start (actions : List Action)
  | land (a : Action) (file : Here)
  | remove (a : Action)
  | adopt (acts : List Action)
  | commit
  | rebase
  | record
  | finish

/-- `stillAsSeen` for a path of the share. -/
def asSeen (s : State) (a : Action) : Bool :=
  stillAsSeen a.seen (s.disk a.path).isSome ((s.disk a.path).map (·.info))
    ((s.disk a.path).map (·.ctime))

def step (s : State) : Event → Option State
  | .edit p file => some { s with disk := Function.update s.disk p (some file) }
  | .delete p => some { s with disk := Function.update s.disk p none }
  | .start actions =>
    match s.pass with
    | .idle => some { s with pass := .pulling actions [] }
    | _ => none
  | .land a file =>
    match s.pass with
    | .pulling actions wrote =>
      if a ∈ actions ∧ a.fetches = true ∧ asSeen s a = true ∧ ∀ w ∈ wrote, w.1.path ≠ a.path then
        some { s with
          disk := Function.update s.disk a.path (some file)
          pass := .pulling actions (wrote ++ [(a, ⟨a.path, file.info, a.consumer⟩)]) }
      else none
    | _ => none
  | .remove a =>
    -- Deletions are carried out and committed one by one, before anything is fetched.
    match s.pass with
    | .pulling actions [] =>
      if a ∈ actions ∧ a.kind = .delete ∧ a.dir = false ∧ asSeen s a = true then
        some { s with
          disk := Function.update s.disk a.path none
          pass := .committing actions [(a, none)] ∅ {a.path}
          committed := Function.update s.committed a.path none }
      else none
    | _ => none
  | .adopt acts =>
    match s.pass with
    | .pulling actions [] =>
      let still := acts.filter fun a ↦ asSeen s a
      if ∀ a ∈ acts, a ∈ actions ∧ a.kind = .adopt then
        some { s with pass := .committing actions (still.map fun a ↦ (a, none))
                        (still.map (·.path)).toFinset ∅ }
      else none
    | _ => none
  | .commit =>
    match s.pass with
    | .pulling actions wrote =>
      some { s with pass := .committing actions (wrote.map fun w ↦ (w.1, some w.2))
                      (wrote.map (·.1.path)).toFinset ∅ }
    | _ => none
  | .rebase =>
    match s.pass with
    | .committing actions ((a, landing) :: todo) added removed =>
      some { s with
        share := s.share.rebase (fun p ↦ (s.disk p).map (·.info))
          (fun p ↦ (s.disk p).map (·.info.modTime)) [a]
        pass := .committing actions todo added removed
        committed := Function.update s.committed a.path landing }
    | _ => none
  | .record =>
    match s.pass with
    | .committing actions [] added removed =>
      some { s with share := (s.share.editRecord added true).editRecord removed false
                    pass := .pulling actions [] }
    | _ => none
  | .finish =>
    match s.pass with
    | .pulling _ [] => some { s with pass := .idle }
    | _ => none

def machine : Machine State Event := ⟨step⟩

/-- The files landed whose baseline is still to be taken. -/
def Progress.waiting : Progress → List Landing
  | idle => []
  | pulling _ wrote => wrote.map (·.2)
  | committing _ todo _ _ => todo.filterMap (·.2)

/-- No change here alters the size or the time of a file landed, or removes it, before its
baseline is taken. -/
def careful (s : State) : Event → Bool
  | .edit p file => s.pass.waiting.all fun l ↦
      l.path != p || (l.info.size == file.info.size && l.info.modTime == file.info.modTime)
  | .delete p => s.pass.waiting.all (·.path != p)
  | _ => true

/-- The actions and landings a pass has yet to commit belong together. -/
def Progress.Paired : Progress → Prop
  | idle => True
  | pulling _ wrote => ∀ w ∈ wrote, w.2.path = w.1.path ∧ w.1.fetches = true ∧
      w.2.consumer = w.1.consumer
  | committing _ todo _ _ => ∀ w ∈ todo, ∀ l, w.2 = some l →
      l.path = w.1.path ∧ w.1.fetches = true ∧ l.consumer = w.1.consumer

/-- The paths a commit is about to take out of the record. -/
def Progress.removed : Progress → Finset SharePath
  | committing _ _ _ removed => removed
  | _ => ∅

def Landing.baseline (l : Landing) : Baseline :=
  { size := l.info.size, modTime := l.info.modTime, consumer := l.consumer }

structure Inv (s : State) : Prop where
  /-- A file landed is still there as it landed when its baseline is taken. -/
  waiting : ∀ l ∈ s.pass.waiting, ∃ file, s.disk l.path = some file ∧
    file.info.size = l.info.size ∧ file.info.modTime = l.info.modTime
  paired : s.pass.Paired
  /-- The baseline of a path last committed for a landing is of what landed. -/
  committed : ∀ p l, s.committed p = some l → s.share.manifest.lookup p = some l.baseline
  /-- What is taken out of the record was committed as removed. -/
  removed : ∀ p ∈ s.pass.removed, s.committed p = none ∧ s.pass.waiting = []

variable {s : State} {actions : List Action}

section

variable (h : Inv s)

include h

/-- A change here to a path no landing waits for, or that keeps its size and time. -/
theorem Inv.edit {p : SharePath} {now : Option Here}
    (hok : ∀ l ∈ s.pass.waiting, l.path = p → ∃ file, now = some file ∧
      file.info.size = l.info.size ∧ file.info.modTime = l.info.modTime) :
    Inv { s with disk := Function.update s.disk p now } where
  waiting := by
    intro l hl
    by_cases hp : l.path = p
    · obtain ⟨file, rfl, hsize, hmod⟩ := hok l hl hp
      exact ⟨file, by simp [hp], hsize, hmod⟩
    · simpa [Function.update_of_ne hp] using h.waiting l hl
  paired := h.paired
  committed := h.committed
  removed := h.removed

private theorem Inv.progress {pass : Progress}
    (hwaiting : pass.waiting ⊆ s.pass.waiting) (hpaired : pass.Paired)
    (hremoved : pass.removed = ∅) : Inv { s with pass := pass } where
  waiting := fun l hl ↦ h.waiting l (hwaiting hl)
  paired := hpaired
  committed := h.committed
  removed := by simp [hremoved]

private theorem Inv.land {wrote : List (Action × Landing)}
    (hpass : s.pass = .pulling actions wrote) {a : Action} (hf : a.fetches = true)
    (hfresh : ∀ w ∈ wrote, w.1.path ≠ a.path) (file : Here) : Inv { s with
      disk := Function.update s.disk a.path (some file)
      pass := .pulling actions (wrote ++ [(a, ⟨a.path, file.info, a.consumer⟩)]) } where
  waiting := by
    intro l hl
    simp only [Progress.waiting, List.map_append, List.map_cons, List.map_nil, List.mem_append,
      List.mem_map, List.mem_singleton] at hl
    rcases hl with ⟨w, hw, rfl⟩ | rfl
    · have hpair : w.2.path = w.1.path := by
        have := h.paired
        rw [hpass] at this
        exact (this w hw).1
      have hne : w.2.path ≠ a.path := hpair ▸ hfresh w hw
      dsimp only
      rw [Function.update_of_ne hne]
      apply h.waiting
      rw [hpass]
      exact List.mem_map_of_mem hw
    · exact ⟨file, by simp, rfl, rfl⟩
  paired := by
    intro w hw
    rw [List.mem_append, List.mem_singleton] at hw
    rcases hw with hw | rfl
    · have := h.paired
      rw [hpass] at this
      exact this w hw
    · exact ⟨rfl, hf, rfl⟩
  committed := h.committed
  removed := by simp [Progress.removed]

private theorem Inv.remove (actions : List Action) (a : Action) : Inv { s with
      disk := Function.update s.disk a.path none
      pass := .committing actions [(a, none)] ∅ {a.path}
      committed := Function.update s.committed a.path none } where
  waiting := by simp [Progress.waiting]
  paired := by simp [Progress.Paired]
  committed := by
    intro p l hl
    dsimp only at hl
    by_cases hp : p = a.path
    · subst hp
      simp at hl
    · rw [Function.update_of_ne hp] at hl
      exact h.committed p l hl
  removed := by simp [Progress.removed, Progress.waiting]

private theorem Inv.rebase {a : Action}
    {landing : Option Landing} {todo : List (Action × Option Landing)}
    {added removed : Finset SharePath}
    (hpass : s.pass = .committing actions ((a, landing) :: todo) added removed) : Inv { s with
      share := s.share.rebase (fun p ↦ (s.disk p).map (·.info))
        (fun p ↦ (s.disk p).map (·.info.modTime)) [a]
      pass := .committing actions todo added removed
      committed := Function.update s.committed a.path landing } where
  waiting := by
    intro l hl
    apply h.waiting
    rw [hpass]
    simp only [Progress.waiting, List.mem_filterMap] at hl ⊢
    obtain ⟨w, hw, hwl⟩ := hl
    exact ⟨w, .tail _ hw, hwl⟩
  paired := by
    have := h.paired
    rw [hpass] at this
    exact fun w hw ↦ this w (.tail _ hw)
  committed := by
    intro p l hl
    dsimp only at hl ⊢
    by_cases hp : p = a.path
    · subst hp
      rw [Function.update_self] at hl
      subst hl
      have hpair := h.paired
      rw [hpass] at hpair
      obtain ⟨hpath, hf, hconsumer⟩ := hpair (a, some l) (.head _) l rfl
      obtain ⟨file, hfile, hsize, hmod⟩ := h.waiting l (by simp [hpass, Progress.waiting])
      rw [hpath] at hfile
      have hinfo : (fun p ↦ (s.disk p).map (·.info)) a.path = some file.info := by simp [hfile]
      rw [Share.lookup_rebase_of_fetches hf hinfo, Landing.baseline, hsize, hmod, hconsumer]
    · rw [Function.update_of_ne hp] at hl
      rw [Share.lookup_rebase_of_ne hp]
      exact h.committed p l hl
  removed := by
    intro p hp
    obtain ⟨hnone, hempty⟩ := h.removed p (by rw [hpass]; exact hp)
    simp only [hpass, Progress.waiting, List.filterMap_eq_nil_iff, List.mem_cons,
      forall_eq_or_imp] at hempty
    refine ⟨?_, List.filterMap_eq_nil_iff.mpr hempty.2⟩
    dsimp only
    rw [show landing = none from hempty.1]
    by_cases hpa : p = a.path
    · rw [hpa, Function.update_self]
    · rw [Function.update_of_ne hpa, hnone]

/-- The record follows: no path committed for a landing is taken out of it. -/
theorem Inv.record
    {added removed : Finset SharePath} (hpass : s.pass = .committing actions [] added removed) :
    Inv { s with
      share := (s.share.editRecord added true).editRecord removed false
      pass := .pulling actions [] } where
  waiting := by simp [Progress.waiting]
  paired := by simp [Progress.Paired]
  committed := by
    intro p l hl
    have hnot : p ∉ removed := by
      intro hp
      have := (h.removed p (by rw [hpass]; exact hp)).1
      simp [this] at hl
    dsimp only
    rw [Share.lookup_editRecord_false, if_neg (by simp [hnot]), Share.manifest_editRecord_true]
    exact h.committed p l hl
  removed := by simp [Progress.removed]

private theorem inv_step {s' : State} {e : Event} (hok : careful s e = true)
    (hs : step s e = some s') : Inv s' := by
  revert hs
  fun_cases step s e <;> rintro ⟨⟩
  · next p file =>
    apply h.edit
    intro l hl hp
    have hl := List.all_eq_true.mp hok l hl
    simp only [hp, bne_self_eq_false, Bool.false_or, Bool.and_eq_true, beq_iff_eq] at hl
    exact ⟨file, rfl, hl.1.symm, hl.2.symm⟩
  · apply h.edit
    intro l hl hp
    have hl := List.all_eq_true.mp hok l hl
    simp [hp] at hl
  · exact h.progress (by simp [Progress.waiting]) (by simp [Progress.Paired]) rfl
  · next a file actions wrote hpass hc => exact h.land hpass hc.2.1 hc.2.2.2 file
  · exact h.remove _ _
  · refine h.progress (by simp [Progress.waiting]) ?_ rfl
    intro w hw l hl
    obtain ⟨a, -, rfl⟩ := List.mem_map.mp hw
    simp at hl
  · next hpass =>
    refine h.progress ?_ ?_ rfl
    · intro l hl
      simpa [hpass, Progress.waiting] using hl
    · have hpair := h.paired
      rw [hpass] at hpair
      intro w hw l hl
      obtain ⟨x, hx, rfl⟩ := List.mem_map.mp hw
      simp only [Option.some.injEq] at hl
      exact hl ▸ hpair x hx
  · next hpass => exact h.rebase hpass
  · next hpass => exact h.record hpass
  · exact h.progress (by simp [Progress.waiting]) (by simp [Progress.Paired]) rfl

end

/-- Nothing was landed yet, and no pass runs. -/
structure Fresh (s : State) : Prop where
  pass : s.pass = .idle
  committed : ∀ p, s.committed p = none

private theorem Fresh.inv (h : Fresh s) : Inv s where
  waiting := by simp [h.pass, Progress.waiting]
  paired := by simp [h.pass, Progress.Paired]
  committed := by simp [h.committed]
  removed := by simp [h.pass, Progress.removed]

/-- In every run of careful steps, the baseline of a path committed for a landing is of the
version landed, and no round fetches that version of the consumer's again, whatever the
file here has become. -/
theorem committed_baseline_is_landed (s s' : State) (es : List Event) (hfresh : Fresh s)
    (hcareful : machine.Within (fun s e ↦ careful s e = true) s es)
    (hrun : machine.run s es = some s') (p : SharePath) (l : Landing)
    (hl : s'.committed p = some l) :
    s'.share.manifest.lookup p =
        some { size := l.info.size, modTime := l.info.modTime, consumer := l.consumer } ∧
      ∀ d : Deciding, d.manifest = s'.share.manifest → ∀ changes : List Change,
        (changes.map (·.path)).Nodup → ∀ ch ∈ changes, ch.path = p → ch.size = l.info.size →
        (l.consumer ≠ 0 ∧ ch.modTime = l.consumer ∨
          copiedTime ch.modTime l.info.modTime = true) →
        ∀ a ∈ d.decide changes, a.path = p → a.fetches = false := by
  have hinv : Inv s' := by
    apply machine.run_invariant (fun s e ↦ careful s e = true) ?_ hfresh.inv hcareful hrun
    intro s e t hi hok hs
    exact inv_step hi hok hs
  have hbase := hinv.committed p l hl
  refine ⟨hbase, ?_⟩
  intro d hd changes hdistinct ch hch hp hsize hsame a ha hpath
  by_contra hf
  rw [Bool.not_eq_false] at hf
  have ht : a.takes = true := by simp [Action.takes, Action.carries, hf]
  obtain ⟨ch', hch', hp', -, htakes⟩ := Deciding.takes_of_mem_decide ha ht
  have heq : ch' = ch :=
    List.inj_on_of_nodup_map hdistinct hch' hch ((hp'.trans hpath).trans hp.symm)
  subst heq
  have hkind : a.kind = .write ∨ a.kind = .conflict := by
    simp only [Action.fetches, Bool.or_eq_true, beq_iff_eq, Bool.and_eq_true] at hf
    exact hf.imp_right And.left
  have hb : d.manifest.lookup ch'.path = some l.baseline := by rw [hd, hp, hbase]
  have hnot := Deciding.carries_eq_false_of_takes hb hkind htakes
  have hcarries : l.baseline.carries ch' = true := by
    simp only [Baseline.carries, Landing.baseline, hsize, bne_self_eq_false, Bool.false_eq_true,
      if_false]
    rcases hsame with ⟨hne, hmod⟩ | hcopied
    · simp [hne, hmod]
    · simp [hcopied]
  rw [hcarries] at hnot
  simp at hnot

/-- The file both sides agree on, and the write a round decided on for it. -/
def agreed : State where
  disk := Function.update (fun _ ↦ none) ["a"] (some ⟨{ size := 1, modTime := 5 }, 5⟩)
  share := { recorded := {["a"]}, manifest := AList.singleton ["a"] { size := 1, modTime := 5 } }

/-- The consumer's version of size 3 is to be fetched. -/
def fetch : Action :=
  { path := ["a"], kind := .write, consumer := 50, seen := { here := true, size := 1, mod := 5 } }

def State.deciding (s : State) : Deciding where
  manifest := s.share.manifest
  recorded := s.share.recorded
  localAt := fun p ↦ (s.disk p).map (·.info)
  ctimeAt := fun p ↦ (s.disk p).map (·.ctime)
  skew := 0
  margin := 0
  exec := 0

/-- An edit made after the file landed and before the commit becomes the baseline, and the
next round writes the version that landed over it. -/
theorem edit_before_commit_overwritten :
    (machine.run agreed [.start [fetch], .land fetch ⟨{ size := 3, modTime := 50 }, 60⟩,
        .edit ["a"] ⟨{ size := 4, modTime := 70 }, 70⟩, .commit, .rebase, .record, .finish]).map
        (fun s ↦ (s.share.manifest.lookup ["a"],
          (s.deciding.decide [{ path := ["a"], size := 3, modTime := 50, changed := 50 }]).map
            (·.kind))) =
      some (some { size := 4, modTime := 70, consumer := 50 }, [.write]) := by
  decide

/-- The same edit made after the commit. -/
def editAfter : List Event :=
  [.start [fetch], .land fetch ⟨{ size := 3, modTime := 50 }, 60⟩, .commit, .rebase, .record,
    .finish, .edit ["a"] ⟨{ size := 4, modTime := 70 }, 70⟩]

/-- It is not written over. -/
theorem committed_baseline_is_landed_edited :
    ∃ s', machine.run agreed editAfter = some s' ∧
      s'.share.manifest.lookup ["a"] = some { size := 3, modTime := 50, consumer := 50 } ∧
      ∀ a ∈ s'.deciding.decide [{ path := ["a"], size := 3, modTime := 50, changed := 50 }],
        a.path = ["a"] → a.fetches = false := by
  obtain ⟨s', hrun, hl⟩ : ∃ s', machine.run agreed editAfter = some s' ∧
      s'.committed ["a"] = some ⟨["a"], { size := 3, modTime := 50 }, 50⟩ := by
    decide
  obtain ⟨hbase, hlater⟩ := committed_baseline_is_landed agreed s' editAfter ⟨rfl, fun _ ↦ rfl⟩
    (by decide) hrun ["a"] _ hl
  refine ⟨s', hrun, hbase, ?_⟩
  exact hlater s'.deciding rfl [_] (by decide) _ (List.mem_singleton_self _) rfl rfl
    (.inl ⟨by decide, rfl⟩)

end RemoteDocker.DirCache.Commit

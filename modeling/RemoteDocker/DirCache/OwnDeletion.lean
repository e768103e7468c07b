import RemoteDocker.DirCache.OnePath

/-!
# This machine's own deletions

A Drop leaves a whiteout, and nothing in it says who deleted the file: a round tells this
machine's own from the consumer's by the change times, or by the baseline of a file the
cache holds. Both can be wrong about a path the consumer never touched. A Drop that takes
effect after the file was made here again is later than the file, and a file an Apply left half
written is not known as one it applied (`remade_file_deleted`); a baseline that describes the file
here while a deletion of it is listed makes it one the consumer deleted. `careful` keeps to the
runs where none of these happens, and in those no round decides anything about the path
(`own_deletion_never_taken`).
-/

namespace RemoteDocker.DirCache.OnePath

open Base

variable (c : Setting)

/-- The path as a round in progress was told of it. -/
def Round.layer {p : SharePath} : Round p → Layer
  | told _ _ _ layer => layer
  | ready _ _ _ _ layer => layer
  | _ => .clear

/-- The baselines a round in progress decides against. -/
def Round.snapshot {p : SharePath} : Round p → Manifest
  | ready _ manifest _ _ _ => manifest
  | _ => ∅

def Round.actions {p : SharePath} : Round p → List Action
  | passing actions => actions
  | _ => []

/-- The deletions of the path that the union has, or that a round was told of. -/
def whiteouts {p : SharePath} (s : State p) : List Int :=
  s.layer.gone.toList ++ s.round.layer.gone.toList

/-- No file is in the union, or was there when a round asked, that was not noted as applied. -/
def Noted {p : SharePath} (s : State p) : Prop :=
  s.layer.isUnnoted = false ∧ s.round.layer.isUnnoted = false

/-- The path's baselines: in memory, on disk, and where a round took a copy. -/
def baselines {p : SharePath} (s : State p) : List Baseline :=
  (s.share.manifest.lookup p).toList ++ (s.saved.manifest.lookup p).toList ++
    (s.round.snapshot.lookup p).toList

/-- The size and modification time are those of the file. -/
def describes (size modTime : Int) (info : FileInfo) : Bool :=
  size == info.size && modTime == info.modTime

/-- What takes effect leaves a whiteout only while the path is not here, and no file that is not
noted. -/
def Request.clear {p : SharePath} (s : State p) : Request → Left → Bool
  | .drop, _ | .apply _, .removed => s.disk.isNone
  | .apply _, .whole | .apply _, .nothing => true
  | .apply _, .unnoted .. => false

/-- A step keeps clear of what a round cannot tell from the consumer's doing: a Drop takes effect,
and an Apply takes out what it made, only while the path is not here, no Apply leaves a file it did
not note, neither a change here nor a send noted makes a baseline describe the file while a deletion
of it is to be decided, and the measured skew is off by no more than the margin. -/
def careful (s : State c.p) : Event c.p → Bool
  | .put info =>
    (whiteouts s).isEmpty || (baselines s).all fun b ↦ !describes b.size b.modTime info
  | .task i e =>
    match s.tasks[i]?, e with
    | some t, .effect left => t.request.all (·.clear s left)
    | some (.sendEffective applied), .answer =>
      (whiteouts s).isEmpty || applied.read.all fun r ↦
        !s.disk.any fun f ↦ describes r.size r.modTime f.info
    | _, _ => true
  | .lateEffect i left => s.late[i]?.all (·.clear s left)
  | .round (.decide m ..) => c.off - m.skew ≤ m.margin
  | _ => true

structure Inv (s : State c.p) : Prop where
  /-- A deletion is not later than the file here, on the workspace's clock. -/
  older : ∀ t ∈ whiteouts s, t ≤ s.now + c.off ∧ ∀ f, s.disk = some f → t ≤ f.ctime + c.off
  noted : Noted s
  /-- No baseline describes the file here while a deletion of it is to be decided. -/
  apart : whiteouts s ≠ [] → ∀ f, s.disk = some f → ∀ b ∈ baselines s,
    describes b.size b.modTime f.info = false
  /-- Nothing that changes the path was decided. -/
  quiet : ∀ a ∈ s.emitted, a.path = c.p → a.takes = false
  /-- Nothing that changes the path is being carried out. -/
  passing : ∀ a ∈ s.round.actions, a.path = c.p → a.takes = false
  /-- Nothing was carried out. -/
  carried : s.carried = []

variable {c} {s s' : State c.p}

/-- A round that was told of no deletion later than the file, and holds no baseline of it,
decides nothing that changes it. -/
theorem decide_quiet {recorded : Finset SharePath} {manifest : Manifest}
    {m : Measure} {localAt : SharePath → Option FileInfo} {ctimeAt : SharePath → Option Int}
    {layer : Layer} (hnoted : layer.isUnnoted = false) {before after : List Change}
    (hbefore : ∀ ch ∈ before, ch.path ≠ c.p)
    (hafter : ∀ ch ∈ after, ch.path ≠ c.p)
    (hold : ∀ t ∈ layer.gone, ∀ f, s.disk = some f → t ≤ f.ctime + c.off)
    (hapart : ∀ t ∈ layer.gone, ∀ f, s.disk = some f → ∀ b, manifest.lookup c.p = some b →
      describes b.size b.modTime f.info = false) (hskew : c.off - m.skew ≤ m.margin) {a : Action}
    (ha : a ∈ (deciding c s recorded manifest m localAt ctimeAt).decide
      (before ++ listed c.p layer ++ after)) (hp : a.path = c.p) : a.takes = false := by
  by_contra ht
  rw [Bool.not_eq_false] at ht
  obtain ⟨ch, hch, hpath, -, htakes⟩ := Deciding.takes_of_mem_decide ha ht
  rw [hp] at hpath
  -- The only change of the path is the deletion the round was told of.
  have hlisted : ∃ t ∈ layer.gone, ch = { path := c.p, deleted := true, changed := t } := by
    rw [List.mem_append, List.mem_append] at hch
    rcases hch with (hch | hch) | hch
    · exact absurd hpath (hbefore ch hch)
    · cases layer with
      | clear | ours read => cases hch
      | whiteout t => exact ⟨t, rfl, List.mem_singleton.mp hch⟩
      | unnoted size modTime since => cases hnoted
    · exact absurd hpath (hafter ch hch)
  obtain ⟨t, htold, rfl⟩ := hlisted
  have hlocal : (deciding c s recorded manifest m localAt ctimeAt).localAt c.p =
      s.disk.map (·.info) := by simp [deciding]
  have hnot : ¬ (deciding c s recorded manifest m localAt ctimeAt).Later c.p t m.margin := by
    rintro ⟨-, ours, hours, hlt⟩
    simp only [deciding, if_true] at hours hlt
    split at hours
    · obtain ⟨f, hf, rfl⟩ := Option.map_eq_some_iff.mp hours
      have hle := hold t htold f hf
      omega
    · simp at hours
  generalize a.kind = k at htakes
  cases htakes with
  | removedDir _ _ _ _ hlate => exact hnot hlate
  | execBit _ _ _ hkept => simp at hkept
  | newFile _ _ hkept => simp at hkept
  | unheldDeleted _ _ _ _ _ hlate => exact hnot hlate
  | unheldWritten _ _ _ _ hkept => simp at hkept
  | heldDeleted i b hi _ hb _ hsize hmod =>
    obtain ⟨f, hf, rfl⟩ := Option.map_eq_some_iff.mp (hlocal ▸ hi)
    have hno := hapart t htold f hf b hb
    rw [describes, hsize, hmod] at hno
    simp at hno
  | heldWritten _ _ _ _ _ hkept => simp at hkept
  | heldGone _ _ _ hkept => simp at hkept
  | heldBoth _ _ _ _ _ hkept => simp at hkept

/-- A step that changes nothing here, hears of no new deletion and makes no new baseline. -/
theorem Inv.frame (h : Inv c s) (hnow : s.now ≤ s'.now)
    (hdisk : s'.disk = s.disk) (hnoted : Noted s') (hwhite : whiteouts s' ⊆ whiteouts s)
    (hbase : baselines s' ⊆ baselines s) (hquiet : ∀ a ∈ s'.emitted, a.path = c.p → a.takes = false)
    (hpassing : ∀ a ∈ s'.round.actions, a.path = c.p → a.takes = false)
    (hcarried : s'.carried = s.carried) : Inv c s' where
  older := by
    intro t ht
    obtain ⟨hle, hfile⟩ := h.older t (hwhite ht)
    exact ⟨by omega, hdisk ▸ hfile⟩
  noted := hnoted
  apart := by
    intro hne f hf b hb
    refine h.apart ?_ f (hdisk ▸ hf) b (hbase hb)
    intro hnil
    rw [hnil, List.subset_nil] at hwhite
    exact hne hwhite
  quiet := hquiet
  passing := hpassing
  carried := hcarried.trans h.carried

/-- Tasks, watcher and remembered answers are not what the invariant is about. -/
theorem Inv.bookkeeping (h : Inv c s) (events : List Bool)
    (pending : Option Bool) (tasks : List Task) (late : List Request)
    (remembered : Option (List Change)) :
    Inv c { s with events := events, pending := pending, tasks := tasks, late := late
                   remembered := remembered } :=
  h.frame le_rfl rfl h.noted (List.Subset.refl _) (List.Subset.refl _) h.quiet h.passing rfl

private theorem mem_baselines {p : SharePath} {s : State p} {b : Baseline} :
    b ∈ baselines s ↔ s.share.manifest.lookup p = some b ∨ s.saved.manifest.lookup p = some b ∨
      s.round.snapshot.lookup p = some b := by
  simp [baselines]

private theorem lookup_of_savedAfter {ps : Finset SharePath} {add : Bool} {b : Baseline}
    (h : (savedAfter c s (s.share.editRecord ps add)).manifest.lookup c.p = some b) :
    b ∈ baselines s := by
  rw [mem_baselines]
  unfold savedAfter at h
  split at h
  · exact .inr (.inl h)
  · exact .inl (Share.lookup_of_editRecord h)

section

variable (h : Inv c s)

include h

private theorem Inv.editRecord (add : Bool) : Inv c (OnePath.editRecord c s add) := by
  refine h.frame le_rfl rfl h.noted (List.Subset.refl _) ?_ h.quiet h.passing rfl
  intro b hb
  rcases mem_baselines.mp hb with hb | hb | hb
  · exact mem_baselines.mpr (.inl (Share.lookup_of_editRecord hb))
  · exact lookup_of_savedAfter hb
  · exact mem_baselines.mpr (.inr (.inr hb))

private theorem Inv.applied (read : Read) : Inv c { s with layer := .ours read } := by
  refine h.frame le_rfl rfl ⟨rfl, h.noted.2⟩ ?_ (List.Subset.refl _) h.quiet h.passing rfl
  intro t ht
  have hround : t ∈ s.round.layer.gone.toList := by
    simpa [whiteouts, Layer.gone] using ht
  exact List.mem_append_right _ hround

private theorem Inv.whiteout (hgone : s.disk = none) :
    Inv c { s with layer := .whiteout (s.now + c.off) } where
  older := by
    intro t ht
    constructor
    · rcases List.mem_append.mp ht with hl | hr
      · have heq : t = s.now + c.off := by simpa [Layer.gone] using hl
        exact heq.le
      · exact (h.older t (List.mem_append_right _ hr)).1
    · intro f hf
      rw [hgone] at hf
      cases hf
  noted := ⟨rfl, h.noted.2⟩
  apart := by
    intro _ f hf
    rw [hgone] at hf
    cases hf
  quiet := h.quiet
  passing := h.passing
  carried := h.carried

private theorem Inv.takeEffect {req : Request} {left : Left} (hclear : req.clear s left = true) :
    Inv c (OnePath.takeEffect c s req left) := by
  cases req with
  | drop => exact h.whiteout (Option.isNone_iff_eq_none.mp hclear)
  | apply read =>
    cases left with
    | whole => exact h.applied read
    | nothing => exact h
    | removed => exact h.whiteout (Option.isNone_iff_eq_none.mp hclear)
    | unnoted size modTime skipped => cases hclear

private theorem Inv.put (info : FileInfo)
    (hok : whiteouts s = [] ∨ ∀ b ∈ baselines s, describes b.size b.modTime info = false) :
    Inv c { s with disk := some ⟨info, s.now⟩ } where
  older := by
    intro t ht
    refine ⟨(h.older t ht).1, ?_⟩
    intro f hf
    rw [Option.some.injEq] at hf
    subst hf
    exact (h.older t ht).1
  noted := h.noted
  apart := by
    intro hne f hf b hb
    rw [Option.some.injEq] at hf
    subst hf
    rcases hok with hnil | hall
    · exact absurd hnil hne
    · exact hall b hb
  quiet := h.quiet
  passing := h.passing
  carried := h.carried

private theorem Inv.delete : Inv c { s with disk := none } where
  older := fun t ht ↦ ⟨(h.older t ht).1, by simp⟩
  noted := h.noted
  apart := by simp
  quiet := h.quiet
  passing := h.passing
  carried := h.carried

private theorem Inv.note (applied : Applied)
    (hok : whiteouts s = [] ∨ ∀ r ∈ applied.read, ∀ f, s.disk = some f →
      describes r.size r.modTime f.info = false) (saved : Share)
    (hsaved : ∀ b, saved.manifest.lookup c.p = some b → b ∈ baselines s) :
    Inv c { s with share := s.share.noteApplied applied, saved := saved } where
  older := h.older
  noted := h.noted
  apart := by
    intro hne f hf b hb
    have hold : b ∈ baselines s → describes b.size b.modTime f.info = false :=
      h.apart hne f hf b
    rw [mem_baselines] at hb
    rcases hb with hb | hb | hb
    · rcases Share.lookup_of_noteSent hb with hb | ⟨r, hr, -, hsize, hmod⟩
      · exact hold (mem_baselines.mpr (.inl (Share.lookup_of_editRecord hb)))
      · rcases hok with hnil | hread
        · exact absurd hnil hne
        · rw [hsize, hmod]
          exact hread r (List.mem_of_mem_filter hr) f hf
    · exact hold (hsaved b hb)
    · exact hold (mem_baselines.mpr (.inr (.inr hb)))
  quiet := h.quiet
  passing := h.passing
  carried := h.carried

private theorem inv_stepTask {e : TaskEvent} {i : Nat} {t : Task}
    (ht : s.tasks[i]? = some t) (hok : careful c s (.task i e) = true)
    (hs : stepTask c s i t e = some s') : Inv c s' := by
  revert hs
  fun_cases stepTask c s i t e <;> rintro ⟨⟩
  case case5 => exact (h.editRecord true).bookkeeping _ _ _ _ _
  case case11 =>
    exact (h.takeEffect (by simpa [careful, ht, Task.request] using hok)).bookkeeping _ _ _ _ _
  case case13 =>
    exact (h.takeEffect (by simpa [careful, ht, Task.request] using hok)).bookkeeping _ _ _ _ _
  case case15 => exact (h.editRecord false).bookkeeping _ _ _ _ _
  case case16 applied _ =>
    have hread : whiteouts s = [] ∨ ∀ r ∈ applied.read, ∀ f, s.disk = some f →
        describes r.size r.modTime f.info = false := by
      simpa [careful, ht, Option.any_eq_false] using hok
    exact (h.note applied hread _ fun _ ↦ lookup_of_savedAfter).bookkeeping _ _ _ _ _
  case case18 =>
    refine h.frame le_rfl rfl h.noted (List.Subset.refl _) ?_ h.quiet h.passing rfl
    intro b hb
    rw [mem_baselines] at hb ⊢
    rcases hb with hb | hb | hb
    · exact .inl hb
    · exact .inl hb
    · exact .inr (.inr hb)
  all_goals exact h.bookkeeping _ _ _ _ _

/-- A round that holds no copy of the baselines and was told of no deletion but the union's. -/
theorem Inv.ofRound {round : Round c.p} (hnoted : round.layer.isUnnoted = false)
    (hgone : round.layer.gone.toList ⊆ whiteouts s) (hsnapshot : round.snapshot = ∅)
    (hactions : round.actions = []) (remembered : Option (List Change)) :
    Inv c { s with round := round, remembered := remembered } := by
  refine h.frame le_rfl rfl ⟨h.noted.1, hnoted⟩ ?_ ?_ h.quiet ?_ rfl
  · intro t ht
    rcases List.mem_append.mp ht with ht | ht
    · exact List.mem_append_left _ ht
    · exact hgone ht
  · intro b hb
    rw [mem_baselines] at hb ⊢
    rcases hb with hb | hb | hb
    · exact .inl hb
    · exact .inr (.inl hb)
    · simp [hsnapshot] at hb
  · simp [hactions]

/-- A round that is ready was told of a deletion there is, and its copy of the baselines is of
those there are, so it decides nothing that changes the path. -/
theorem Inv.ready_quiet {recorded : Finset SharePath}
    {manifest : Manifest} {before after implied : Elsewhere c.p} {layer : Layer}
    (hround : s.round = .ready recorded manifest before after layer) {m : Measure}
    {localAt : SharePath → Option FileInfo} {ctimeAt : SharePath → Option Int}
    (hskew : c.off - m.skew ≤ m.margin) {a : Action}
    (ha : a ∈ (deciding c s recorded manifest m localAt ctimeAt).decide
      (before.1 ++ listed c.p layer ++ after.1 ++ implied.1)) (hp : a.path = c.p) :
    a.takes = false := by
  have htold : ∀ t ∈ layer.gone, t ∈ whiteouts s := by
    intro t ht
    apply List.mem_append_right
    simpa [Round.layer, hround] using ht
  have hnoted : layer.isUnnoted = false := by simpa [Round.layer, hround] using h.noted.2
  rw [List.append_assoc] at ha
  refine decide_quiet hnoted before.2 ?_ ?_ ?_ hskew ha hp
  · intro ch hch
    rcases List.mem_append.mp hch with hch | hch
    · exact after.2 ch hch
    · exact implied.2 ch hch
  · intro t ht
    exact (h.older t (htold t ht)).2
  · intro t ht f hf b hb
    refine h.apart (List.ne_nil_of_mem (htold t ht)) f hf b (mem_baselines.mpr ?_)
    exact .inr (.inr (by simpa [Round.snapshot, hround] using hb))

private theorem Inv.pass {actions : List Action}
    (hquiet : ∀ a ∈ actions, a.path = c.p → a.takes = false) :
    Inv c { s with round := .passing actions, emitted := s.emitted ++ actions } := by
  refine h.frame le_rfl rfl ⟨h.noted.1, rfl⟩ ?_ ?_ ?_ hquiet rfl
  · simp [whiteouts, Round.layer, Layer.gone]
  · simp [baselines, Round.snapshot]
  · intro a ha hp
    rcases List.mem_append.mp ha with ha | ha
    · exact h.quiet a ha hp
    · exact hquiet a ha hp

private theorem inv_stepRound {e : RoundEvent c.p}
    (hok : careful c s (.round e) = true) (hs : stepRound c s e = some s') : Inv c s' := by
  revert hs
  fun_cases stepRound c s e <;> rintro ⟨⟩
  · exact h.ofRound rfl (by simp [Round.layer, Layer.gone]) rfl rfl _
  · refine h.ofRound ?_ (by simp [Round.layer, whiteouts]) rfl rfl _
    exact h.noted.1
  · next hround =>
    have hnoted := h.noted
    rw [Noted, hround] at hnoted
    refine h.frame le_rfl rfl hnoted ?_ ?_ h.quiet ?_ rfl
    · simp [whiteouts, Round.layer, hround]
    · intro b hb
      rw [mem_baselines] at hb ⊢
      rcases hb with hb | hb | hb
      · exact .inl hb
      · exact .inr (.inl hb)
      · exact .inl hb
    · simp [Round.actions]
  · next hround _ _ =>
    exact h.pass fun a ha hp ↦ h.ready_quiet hround (by simpa [careful] using hok) ha hp
  · next a info actions hround hc =>
    -- No action that changes the path is being carried out.
    obtain ⟨ha, hp, ht, -⟩ := hc
    have hno := h.passing a (by simpa [Round.actions, hround] using ha) hp
    simp [hno] at ht
  · exact h.ofRound rfl (by simp [Round.layer, Layer.gone]) rfl rfl _

private theorem inv_step {e : Event c.p} (hok : careful c s e = true)
    (hs : step c s e = some s') : Inv c s' := by
  revert hs
  fun_cases step c s e <;> intro hs
  case case19 ht => exact inv_stepTask h ht hok hs
  case case20 => exact inv_stepRound h hok hs
  all_goals cases hs
  case case1 d =>
    have hnow : s.now ≤ s.now + d := by omega
    exact h.frame hnow rfl h.noted (List.Subset.refl _) (List.Subset.refl _) h.quiet h.passing rfl
  case case2 info =>
    have hnone : whiteouts s = [] ∨ ∀ b ∈ baselines s, describes b.size b.modTime info = false := by
      simpa [careful] using hok
    exact (h.put info hnone).bookkeeping _ _ _ _ _
  case case3 => exact h.delete.bookkeeping _ _ _ _ _
  case case14 i left r hr =>
    exact (h.takeEffect (by simpa [careful, hr] using hok)).bookkeeping _ _ _ _ _
  case case15 =>
    refine h.frame le_rfl rfl ⟨h.noted.1, rfl⟩ ?_ ?_ h.quiet ?_ rfl
    · simp [whiteouts, Round.layer, Layer.gone]
    · intro b hb
      rw [mem_baselines] at hb ⊢
      rcases hb with hb | hb | hb
      · exact .inr (.inl (Share.lookup_of_reload hb).2)
      · exact .inr (.inl hb)
      · simp [Round.snapshot] at hb
    · simp [Round.actions]
  case case16 share saved hsame =>
    refine h.frame le_rfl rfl h.noted (List.Subset.refl _) ?_ h.quiet h.passing rfl
    intro b hb
    simpa only [mem_baselines, hsame.1, hsame.2.2.1] using hb
  all_goals exact h.bookkeeping _ _ _ _ _

end

/-- A share as it is attached: the union lists no change of the path, and nothing runs. -/
structure Attached (s : State c.p) : Prop where
  layer : listed c.p s.layer = []
  round : s.round = .idle
  tasks : s.tasks = []
  late : s.late = []
  emitted : s.emitted = []
  carried : s.carried = []

private theorem Attached.inv (h : Attached s) : Inv c s := by
  have hlayer : s.layer.gone = none ∧ s.layer.isUnnoted = false := by
    have hnone := h.layer
    cases hs : s.layer with
    | clear | ours read => exact ⟨rfl, rfl⟩
    | whiteout since | unnoted size modTime since =>
      rw [hs] at hnone
      cases hnone
  have hwhite : whiteouts s = [] := by
    rw [whiteouts, hlayer.1, h.round]
    rfl
  exact
    { older := by simp [hwhite]
      noted := ⟨hlayer.2, by rw [h.round]; rfl⟩
      apart := by simp [hwhite]
      quiet := by simp [h.emitted]
      passing := by simp [h.round, Round.actions]
      carried := h.carried }

def nowhere (p : SharePath) : Elsewhere p := ⟨[], by simp⟩

/-- A round from its start to its decision, on a link measured as 1 off at most. -/
def wholeRound (p : SharePath) : List (Event p) :=
  [.round .begin, .round (.ask (nowhere p) (nowhere p)), .round .snapshot,
    .round (.decide { skew := 0, margin := 1 } (fun _ ↦ none) (fun _ ↦ none) (nowhere p))]

/-- The file is made again after its Drop took effect. -/
def remadeAfter : List (Event ["a"]) :=
  ([.delete, .observe, .flush, .task 0 .issue, .tick 5, .task 0 (.effect .whole), .task 0 .answer,
    .tick 1, .put { size := 2, modTime := 16 }] : List (Event ["a"])) ++ wholeRound ["a"]

end RemoteDocker.DirCache.OnePath

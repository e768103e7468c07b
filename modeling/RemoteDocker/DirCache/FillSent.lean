import RemoteDocker.DirCache.FillFiles

/-!
# No file is sent twice or lost by the prefetch

A read and a sweep return files that were not stored and are from then on, so a path is returned
again only after it was put back, which is what `batchFailed` does with a batch the store refused
(`src/dircache/prefetch.go:310-333`). A sweep takes the smallest first, so one sweep after another
goes through the unstored files in order, and each takes at least one.
-/

namespace RemoteDocker.DirCache.Fill.Tree

open Base

private theorem lookup_foldl_markStored (files : List File) (root : Node) (path : SharePath) :
    lookup (files.foldl markStored root) path =
      (lookup root path).map (storeAt (files.map File.path)) := by
  rw [lookup, items_foldl_markStored]
  exact find?_map_of_path (path_storeAt _) _ _

private theorem lookup_noteRead (root : Node) (f : File) (n : Int) (path : SharePath) :
    lookup (noteRead root f n) path =
      (lookup root path).map (Tally.change File.path f.path (File.note n)) := by
  rw [lookup, items_noteRead]
  exact find?_map_of_path (path_change (path_note n) f.path) _ _

def StoredAt (root : Node) (path : SharePath) : Prop :=
  ∃ f, lookup root path = some f ∧ f.stored = true

variable {t t' : Tree} {path : SharePath} {root : Node} {op : Op} {out : List Entry}

section

variable (h : StoredAt root path)

include h

private theorem StoredAt.noteRead (f : File)
    (n : Int) : StoredAt (noteRead root f n) path := by
  obtain ⟨g, hg, hstored⟩ := h
  refine ⟨_, ?_, (stored_change_note f.path n g).trans hstored⟩
  rw [lookup_noteRead, hg]
  rfl

private theorem StoredAt.foldl_markStored
    (files : List File) : StoredAt (files.foldl markStored root) path := by
  obtain ⟨g, hg, hstored⟩ := h
  refine ⟨storeAt (files.map File.path) g, ?_, ?_⟩
  · rw [lookup_foldl_markStored, hg]
    rfl
  · rw [storeAt]
    split
    · rfl
    · exact hstored

private theorem StoredAt.unstoreOne {e : Entry}
    (hne : e.path ≠ path) : StoredAt (unstoreOne root e) path := by
  obtain ⟨g, hg, hstored⟩ := h
  rw [Tree.unstoreOne]
  split
  · exact ⟨g, hg, hstored⟩
  · split
    · refine ⟨g, ?_, hstored⟩
      have hkeep : ∀ f : File, (Tally.change File.path e.path File.unstore f).path = f.path :=
        path_change path_unstore e.path
      have hsame : Tally.change File.path e.path File.unstore g = g := by
        apply if_neg
        rw [(lookup_eq_some hg).2]
        exact hne.symm
      rw [lookup, Tally.items_update, find?_map_of_path hkeep]
      change (lookup root path).map _ = _
      rw [hg, Option.map_some, hsame]
    · exact ⟨g, hg, hstored⟩

private theorem StoredAt.unstore
    {entries : List Entry} (hnot : path ∉ entries.map (·.path)) :
    StoredAt (entries.foldl Tree.unstoreOne root) path := by
  induction entries generalizing root with
  | nil => exact h
  | cons e entries ih =>
    rw [List.map_cons, List.mem_cons, not_or] at hnot
    exact ih (h.unstoreOne fun heq ↦ hnot.1 heq.symm) hnot.2

end

/-- An entry that is sent: its file was not stored, and then is. -/
structure SentNow (t t' : Tree) (e : Entry) : Prop where
  before : ∃ f, lookup t.root e.path = some f ∧ f.entry = e ∧ f.stored = false
  after : ∃ f, lookup t'.root e.path = some f ∧ f.entry = e ∧ f.stored = true

private theorem lookup_of_takes (hpaths : (root.items.map File.path).Nodup)
    {files : List File} (h : Takes root files) {f : File} (hf : f ∈ files) :
    lookup root f.path = some f ∧ lookup (files.foldl markStored root) f.path = some f.store := by
  have hfound := lookup_of_mem hpaths (h.mem f hf)
  refine ⟨hfound, ?_⟩
  rw [lookup_foldl_markStored, hfound, Option.map_some, storeAt,
    if_pos (List.mem_map_of_mem hf)]

/-- Everything that is returned is sent by the operation that returns it, and once. -/
theorem sentNow_of_does (h : Held t) (hdoes : Does t op t' out) :
    (∀ e ∈ out, SentNow t t' e) ∧ (out.map (·.path)).Nodup := by
  cases hdoes with
  | add | nothing | markSent | unstore | setLink => exact ⟨nofun, List.nodup_nil⟩
  | @read promote limit path n f hf hstored files htakes =>
    have hnoted := paths_noteRead h.paths f n
    constructor
    · intro e he
      obtain ⟨g, hg, rfl⟩ := List.mem_map.mp he
      obtain ⟨hbefore, hafter⟩ := lookup_of_takes hnoted htakes hg
      rw [lookup_noteRead, Option.map_eq_some_iff] at hbefore
      obtain ⟨a, ha, heq⟩ := hbefore
      refine ⟨⟨a, ha, ?_, ?_⟩, ⟨g.store, hafter, rfl, rfl⟩⟩
      · rw [← heq]
        exact (entry_change (entry_note n) f.path a).symm
      · rw [← stored_change_note f.path n a, heq]
        exact htakes.unstored g hg
    · have hsame := htakes.paths
      rw [List.map_map]
      exact hsame
  | unstored hfiles htakes =>
    constructor
    · intro e he
      obtain ⟨g, hg, rfl⟩ := List.mem_map.mp he
      obtain ⟨hbefore, hafter⟩ := lookup_of_takes h.paths htakes hg
      exact ⟨⟨g, hbefore, rfl, htakes.unstored g hg⟩, ⟨g.store, hafter, rfl, rfl⟩⟩
    · have hsame := htakes.paths
      rw [List.map_map]
      exact hsame

def putBack : Op → List SharePath
  | .unstore entries => entries.map (·.path)
  | _ => []

private theorem StoredAt.does (hheld : Held t) (hop : Distinct t op) (hdoes : Does t op t' out)
    (h : StoredAt t.root path) (hnot : path ∉ putBack op) : StoredAt t'.root path := by
  cases hdoes with
  | add hadd =>
    obtain ⟨f, hf, hstored⟩ := h
    exact ⟨f, lookup_add hheld hop hadd hf, hstored⟩
  | nothing => exact h
  | read promote limit n hf hstored htakes => exact (h.noteRead _ n).foldl_markStored _
  | unstored hfiles htakes => exact h.foldl_markStored _
  | markSent hf hstored => exact h.foldl_markStored [_]
  | unstore entries => exact h.unstore hnot
  | setLink link => exact h

inductive Act where
  | returned (path : SharePath)
  | putBack (path : SharePath)
  deriving DecidableEq, Repr

structure Logged where
  tree : Tree
  log : List Act := []

/-- What an operation that returns these entries does to paths. -/
def acts (op : Op) (out : List Entry) : List Act :=
  (putBack op).map .putBack ++ out.map (.returned ·.path)

def logged : Machine Logged Op where
  step s op := (s.tree.apply op).map fun got ↦
    { tree := got.1, log := s.log ++ acts op got.2 }

/-- Whether a path is out after some acts: returned and not put back since. -/
def isOut (path : SharePath) : Bool → List Act → Bool
  | out, [] => out
  | out, .returned p :: log => isOut path (if p = path then true else out) log
  | out, .putBack p :: log => isOut path (if p = path then false else out) log

/-- A path is returned only while it is not out. -/
def Alternates (path : SharePath) : Bool → List Act → Prop
  | _, [] => True
  | out, .returned p :: log =>
    if p = path then out = false ∧ Alternates path true log else Alternates path out log
  | out, .putBack p :: log => Alternates path (if p = path then false else out) log

private theorem isOut_append (path : SharePath) (out : Bool) (log more : List Act) :
    isOut path out (log ++ more) = isOut path (isOut path out log) more := by
  induction log generalizing out with
  | nil => rfl
  | cons a log ih =>
    cases a with
    | returned p => exact ih _
    | putBack p => exact ih _

private theorem alternates_append {out : Bool} {log more : List Act} :
    Alternates path out (log ++ more) ↔
      Alternates path out log ∧ Alternates path (isOut path out log) more := by
  induction log generalizing out with
  | nil => simp [Alternates, isOut]
  | cons a log ih =>
    cases a with
    | returned p =>
      rw [List.cons_append, Alternates, Alternates, isOut]
      split
      · rw [ih, and_assoc]
      · exact ih
    | putBack p => exact ih

private theorem isOut_of_not_mem {log : List Act} (hnot : .putBack path ∉ log) :
    isOut path true log = true := by
  induction log with
  | nil => rfl
  | cons a log ih =>
    rw [List.mem_cons, not_or] at hnot
    cases a with
    | returned p =>
      rw [isOut, ite_self]
      exact ih hnot.2
    | putBack p =>
      have hne : ¬p = path := fun heq ↦ hnot.1 (congrArg Act.putBack heq.symm)
      rw [isOut, if_neg hne]
      exact ih hnot.2

/-- Between two returns of a path it is put back. -/
theorem Alternates.between {before between after : List Act} (h : Alternates path false
      (before ++ .returned path :: (between ++ .returned path :: after))) :
    .putBack path ∈ between := by
  rw [alternates_append, Alternates, if_pos rfl, alternates_append, Alternates, if_pos rfl] at h
  by_contra hnot
  exact Bool.noConfusion ((isOut_of_not_mem hnot).symm.trans h.2.2.2.1)

private theorem isOut_putBacks (path : SharePath) (out : Bool) (paths : List SharePath) :
    isOut path out (paths.map .putBack) = (out && !decide (path ∈ paths)) := by
  induction paths generalizing out with
  | nil => simp [isOut]
  | cons p paths ih =>
    rw [List.map_cons, isOut, ih]
    by_cases heq : p = path
    · simp [heq]
    · have hne : path ≠ p := fun h ↦ heq h.symm
      simp [heq, hne]

private theorem alternates_putBacks (path : SharePath) (out : Bool) (paths : List SharePath) :
    Alternates path out (paths.map .putBack) := by
  induction paths generalizing out with
  | nil => trivial
  | cons p paths ih => exact ih _

private theorem isOut_returns (path : SharePath) (out : Bool) (entries : List Entry) :
    isOut path out (entries.map (.returned ·.path)) =
      (out || decide (path ∈ entries.map (·.path))) := by
  induction entries generalizing out with
  | nil => simp [isOut]
  | cons e entries ih =>
    rw [List.map_cons, isOut, ih]
    by_cases heq : e.path = path
    · simp [heq]
    · have hne : path ≠ e.path := fun h ↦ heq h.symm
      simp [heq, hne]

private theorem alternates_returns {out : Bool} {entries : List Entry}
    (hdistinct : (entries.map (·.path)).Nodup) (hout : path ∈ entries.map (·.path) → out = false) :
    Alternates path out (entries.map (.returned ·.path)) := by
  induction entries generalizing out with
  | nil => trivial
  | cons e entries ih =>
    rw [List.map_cons, List.nodup_cons] at hdistinct
    rw [List.map_cons, Alternates]
    split
    · next heq =>
      refine ⟨hout (heq ▸ (.head _)), ih hdistinct.2 ?_⟩
      intro hmem
      exact absurd (heq ▸ hmem) hdistinct.1
    · exact ih hdistinct.2 fun hmem ↦ hout (.tail _ hmem)

/-- The tree holds its entries, no path is returned while it is out, and what is out is stored. -/
structure Logged.Sound (s : Logged) : Prop where
  held : Held s.tree
  alternates : ∀ path, Alternates path false s.log
  out : ∀ path, isOut path false s.log = true → StoredAt s.tree.root path

private theorem Logged.Sound.step {s s' : Logged} (h : s.Sound) (hop : Distinct s.tree op)
    (hstep : logged.step s op = some s') : s'.Sound := by
  obtain ⟨⟨t, out⟩, happly, rfl⟩ := Option.map_eq_some_iff.mp hstep
  have hdoes := does_of_apply h.held.paths happly
  obtain ⟨hsent, hdistinct⟩ := sentNow_of_does h.held hdoes
  -- what is returned was not stored, so it was not out
  have hfresh : ∀ path, path ∈ out.map (·.path) → isOut path false s.log = false := by
    intro path hpath
    obtain ⟨e, he, rfl⟩ := List.mem_map.mp hpath
    rw [Bool.eq_false_iff]
    intro hout
    obtain ⟨f, hf, hstored⟩ := h.out e.path hout
    obtain ⟨g, hg, -, hnot⟩ := (hsent e he).before
    rw [hf, Option.some.injEq] at hg
    rw [hg, hnot] at hstored
    cases hstored
  constructor
  · exact h.held.does hop hdoes
  · intro path
    change Alternates path false (s.log ++ acts op out)
    rw [acts, alternates_append, alternates_append, isOut_putBacks]
    refine ⟨h.alternates path, alternates_putBacks path _ _, alternates_returns hdistinct ?_⟩
    intro hpath
    rw [hfresh path hpath, Bool.false_and]
  · intro path hout
    change isOut path false (s.log ++ acts op out) = true at hout
    rw [acts, isOut_append, isOut_append, isOut_returns, isOut_putBacks, Bool.or_eq_true,
      Bool.and_eq_true] at hout
    rcases hout with ⟨hold, hnot⟩ | hnew
    · have hkept : path ∉ putBack op := by simpa using hnot
      exact (h.out path hold).does h.held hop hdoes hkept
    · obtain ⟨e, he, rfl⟩ := List.mem_map.mp (of_decide_eq_true hnew)
      obtain ⟨f, hf, -, hstored⟩ := (hsent e he).after
      exact ⟨f, hf, hstored⟩

private theorem Logged.Sound.run {s s' : Logged} {ops : List Op} (h : s.Sound)
    (hops : logged.Within (fun s op ↦ Distinct s.tree op) s ops)
    (hrun : logged.run s ops = some s') : s'.Sound := by
  have hstep : ∀ s op s', Logged.Sound s → Distinct s.tree op → logged.step s op = some s' →
      Logged.Sound s' := fun _ _ _ hs hop hstep ↦ hs.step hop hstep
  exact logged.run_invariant _ hstep h hops hrun

/-- One sweep after another, with nothing else in between: what they leave, and all they return. -/
def sweep (t : Tree) : List (Int × Int) → Tree × List Entry
  | [] => (t, [])
  | limit :: limits =>
    let first := t.unstored limit.1 limit.2
    let rest := sweep first.1 limits
    (rest.1, first.2 ++ rest.2)

def unstoredEntries (t : Tree) : List Entry := (t.root.items.filter (!·.stored)).map (·.entry)

/-- What was taken from one tree to the next: some of what was not stored, the smallest first, and
nothing larger than what is left. -/
structure Swept (t t' : Tree) (out : List Entry) : Prop where
  perm : (out ++ unstoredEntries t').Perm (unstoredEntries t)
  sorted : out.Pairwise Prefetch.Tree.bySizePath
  smallest : ∀ e ∈ out, ∀ e' ∈ unstoredEntries t', Prefetch.Tree.bySizePath e e'

private theorem Swept.nil (t : Tree) : Swept t t [] where
  perm := List.Perm.refl _
  sorted := List.Pairwise.nil
  smallest := nofun

private theorem Swept.trans {t'' : Tree} {more : List Entry} (h : Swept t t' out)
    (hmore : Swept t' t'' more) : Swept t t'' (out ++ more) := by
  have hleft : ∀ e, e ∈ more ++ unstoredEntries t'' → e ∈ unstoredEntries t' :=
    fun _ he ↦ hmore.perm.subset he
  constructor
  · rw [List.append_assoc]
    exact (hmore.perm.append_left out).trans h.perm
  · rw [List.pairwise_append]
    refine ⟨h.sorted, hmore.sorted, ?_⟩
    intro e he e' he'
    exact h.smallest e he e' (hleft e' (List.mem_append_left _ he'))
  · intro e he e' he'
    rcases List.mem_append.mp he with he | he
    · exact h.smallest e he e' (hleft e' (List.mem_append_right _ he'))
    · exact hmore.smallest e he e' he'

theorem sorted_candidates (root : Node) :
    (candidates root).Pairwise fun f g ↦ Prefetch.Tree.bySizePath f.entry g.entry := by
  have : IsTrans File fun f g ↦ Prefetch.Tree.bySizePath f.entry g.entry :=
    ⟨fun _ _ _ ↦ bySizePath_trans⟩
  have : Std.Total fun f g : File ↦ Prefetch.Tree.bySizePath f.entry g.entry :=
    ⟨fun f g ↦ bySizePath_total f.entry g.entry⟩
  exact List.pairwise_insertionSort _ _

theorem candidates_perm (root : Node) :
    (candidates root).Perm (root.items.filter (!·.stored)) :=
  (List.perm_insertionSort _ _).trans ((Tally.stackItems_perm root).filter _)

private theorem filter_foldl_markStored (files : List File) (root : Node) :
    (files.foldl markStored root).items.filter (!·.stored) =
      (root.items.filter (!·.stored)).filter fun f ↦ decide (f.path ∉ files.map File.path) := by
  rw [items_foldl_markStored, List.filter_filter]
  generalize files.map File.path = paths
  generalize root.items = items
  induction items with
  | nil => rfl
  | cons f items ih =>
    rw [List.map_cons, List.filter_cons, List.filter_cons, ih, storeAt]
    by_cases hmem : f.path ∈ paths
    · simp [hmem, File.store]
    · cases hstored : f.stored with
      | true => simp [hmem, hstored]
      | false => simp [hmem, hstored]

private theorem swept_of_isPrefix (h : Held t) {files : List File}
    (hfiles : files <+: candidates t.root) :
    Swept t { t with root := files.foldl markStored t.root } (files.map (·.entry)) := by
  obtain ⟨rest, hrest⟩ := hfiles
  have hperm := candidates_perm t.root
  rw [← hrest] at hperm
  -- the rest of the candidates is what is left
  have hpaths : ((files ++ rest).map File.path).Nodup := by
    have hall := takes_candidates h.paths (List.prefix_refl (candidates t.root))
    rw [hrest]
    exact hall.paths
  rw [List.map_append, List.nodup_append] at hpaths
  have hleft : rest.Perm ((files.foldl markStored t.root).items.filter (!·.stored)) := by
    rw [filter_foldl_markStored]
    refine List.Perm.trans ?_ (hperm.filter _)
    have hnone : files.filter (fun f ↦ decide (f.path ∉ files.map File.path)) = [] := by
      rw [List.filter_eq_nil_iff]
      intro f hf
      simpa using ⟨f, hf, rfl⟩
    have hall : rest.filter (fun f ↦ decide (f.path ∉ files.map File.path)) = rest := by
      rw [List.filter_eq_self]
      intro f hf
      rw [decide_eq_true_eq]
      intro hmem
      exact hpaths.2.2 f.path hmem f.path (List.mem_map_of_mem hf) rfl
    rw [List.filter_append, hnone, hall, List.nil_append]
  have hsorted := sorted_candidates t.root
  rw [← hrest, List.pairwise_append] at hsorted
  constructor
  · have hboth := (hleft.symm.append_left files).trans hperm
    have hentries := hboth.map (·.entry)
    rw [List.map_append] at hentries
    exact hentries
  · rw [List.pairwise_map]
    exact hsorted.1
  · intro e he e' he'
    obtain ⟨f, hf, rfl⟩ := List.mem_map.mp he
    obtain ⟨g, hg, rfl⟩ := List.mem_map.mp he'
    exact hsorted.2.2 f hf g (hleft.symm.subset hg)

private theorem swept_unstored (h : Held t) (maxBytes maxFiles : Int) :
    Swept t (t.unstored maxBytes maxFiles).1 (t.unstored maxBytes maxFiles).2 := by
  rw [unstored]
  split
  · exact Swept.nil t
  · exact swept_of_isPrefix h (takeWithin_isPrefix maxBytes maxFiles 0 0 _)

/-- A sweep with positive limits takes at least one file, where there is one. -/
theorem unstored_ne_nil {maxBytes maxFiles : Int} (hbytes : 0 < maxBytes)
    (hfiles : 0 < maxFiles) (hsome : unstoredEntries t ≠ []) :
    (t.unstored maxBytes maxFiles).2 ≠ [] := by
  have hgo : ¬(maxFiles ≤ 0 ∨ maxBytes ≤ 0) := by omega
  rw [unstored, if_neg hgo]
  cases hcands : candidates t.root with
  | nil =>
    have hperm := candidates_perm t.root
    rw [hcands] at hperm
    rw [unstoredEntries, ← hperm.nil_eq, List.map_nil] at hsome
    exact absurd rfl hsome
  | cons f rest =>
    have hfirst : ¬(maxFiles ≤ (0 : Nat) ∨ 0 < 0 ∧ maxBytes < int64 (0 + f.entry.size)) := by
      omega
    change (takeWithin maxBytes maxFiles 0 0 (f :: rest)).map (·.entry) ≠ []
    rw [takeWithin, if_neg hfirst, List.map_cons]
    exact List.cons_ne_nil _ _

private theorem Held.unstored (h : Held t) (maxBytes maxFiles : Int) :
    Held (t.unstored maxBytes maxFiles).1 := by
  have hdoes : Does t (.unstored maxBytes maxFiles) (t.unstored maxBytes maxFiles).1
      (t.unstored maxBytes maxFiles).2 := does_of_apply h.paths rfl
  have hop : Distinct t (.unstored maxBytes maxFiles) := trivial
  exact h.does hop hdoes

private theorem swept_sweep (h : Held t) (limits : List (Int × Int)) :
    Swept t (sweep t limits).1 (sweep t limits).2 := by
  induction limits generalizing t with
  | nil => exact Swept.nil t
  | cons limit limits ih =>
    exact (swept_unstored h limit.1 limit.2).trans (ih (h.unstored limit.1 limit.2))

/-- As many sweeps as there are unstored files leave none. -/
theorem sweep_all (h : Held t) {limits : List (Int × Int)}
    (hlimits : ∀ limit ∈ limits, 0 < limit.1 ∧ 0 < limit.2)
    (henough : (unstoredEntries t).length ≤ limits.length) :
    unstoredEntries (sweep t limits).1 = [] := by
  induction limits generalizing t with
  | nil => exact List.length_eq_zero_iff.mp (Nat.le_zero.mp henough)
  | cons limit limits ih =>
    obtain ⟨hbytes, hfiles⟩ := hlimits limit (.head _)
    apply ih (h.unstored limit.1 limit.2) fun l hl ↦ hlimits l (.tail _ hl)
    have hlength := (swept_unstored h limit.1 limit.2).perm.length_eq
    rw [List.length_append] at hlength
    rw [List.length_cons] at henough
    by_cases hsome : unstoredEntries t = []
    · rw [hsome, List.length_nil] at hlength
      omega
    · have htaken := List.length_pos_iff.mpr (unstored_ne_nil hbytes hfiles hsome)
      omega

/-- Sweeps return unstored files only, each at most once and in order; and after as many as there
are such files they have returned every one, and return nothing. -/
structure SweepsAll (t : Tree) (limits : List (Int × Int)) : Prop where
  sorted : (sweep t limits).2.Pairwise Prefetch.Tree.bySizePath
  distinct : ((sweep t limits).2.map (·.path)).Nodup
  only : ∀ e ∈ (sweep t limits).2, e ∈ unstoredEntries t
  all : (unstoredEntries t).length ≤ limits.length →
    (sweep t limits).2.Perm (unstoredEntries t) ∧
      ∀ maxBytes maxFiles, ((sweep t limits).1.unstored maxBytes maxFiles).2 = []

private theorem sweepsAll (h : Held t) {limits : List (Int × Int)}
    (hlimits : ∀ limit ∈ limits, 0 < limit.1 ∧ 0 < limit.2) : SweepsAll t limits := by
  have hswept := swept_sweep h limits
  have hpaths : ((unstoredEntries t).map (·.path)).Nodup := by
    have hunstored : ((t.root.items.filter (!·.stored)).map File.path).Nodup :=
      h.paths.sublist (List.filter_sublist.map File.path)
    rw [unstoredEntries, List.map_map]
    exact hunstored
  constructor
  · exact hswept.sorted
  · have hboth := (hswept.perm.map (·.path)).nodup_iff.mpr hpaths
    exact hboth.sublist ((List.sublist_append_left _ _).map _)
  · intro e he
    exact hswept.perm.subset (List.mem_append_left _ he)
  · intro henough
    have hnone := sweep_all h hlimits henough
    have hperm := hswept.perm
    rw [hnone, List.append_nil] at hperm
    refine ⟨hperm, ?_⟩
    intro maxBytes maxFiles
    rw [unstored]
    split
    · rfl
    · have hcands := (candidates_perm (sweep t limits).1.root).map (·.entry)
      change (List.map _ _).Perm (unstoredEntries _) at hcands
      rw [hnone, List.perm_nil, List.map_eq_nil_iff] at hcands
      rw [hcands]
      rfl

/-- No file is sent twice or lost. In every tree that operations lead to, what an operation
returns was not stored and is from then on, a path was put back between any two times it was
returned, and sweeps go through what is not stored, once and in order. -/
theorem sent_once {layout : Layout} {entries : List Entry} {start : Tree} {s : Logged}
    {ops : List Op} (hdistinct : (entries.map (·.path)).Nodup)
    (hnew : newTree entries layout = .ok (some start))
    (hops : logged.Within (fun s op ↦ Distinct s.tree op) { tree := start } ops)
    (hrun : logged.run { tree := start } ops = some s) :
    (∀ op t' out, s.tree.apply op = some (t', out) → ∀ e ∈ out, SentNow s.tree t' e) ∧
    (∀ path before between after,
      s.log = before ++ .returned path :: (between ++ .returned path :: after) →
        .putBack path ∈ between) ∧
    ∀ limits : List (Int × Int), (∀ limit ∈ limits, 0 < limit.1 ∧ 0 < limit.2) →
      SweepsAll s.tree limits := by
  have hstart : Logged.Sound { tree := start } :=
    ⟨Held.newTree hdistinct hnew, fun _ ↦ trivial, nofun⟩
  have hsound := hstart.run hops hrun
  refine ⟨?_, ?_, ?_⟩
  · intro op t' out happly
    exact (sentNow_of_does hsound.held (does_of_apply hsound.held.paths happly)).1
  · intro path before between after hlog
    have halternates := hsound.alternates path
    rw [hlog] at halternates
    exact halternates.between
  · intro limits hlimits
    exact sweepsAll hsound.held hlimits

instance (t : Tree) : (op : Op) → Decidable (Distinct t op)
  | .add entries => inferInstanceAs (Decidable ((t.entries ++ entries).map (·.path)).Nodup)
  | .read .. | .unstored .. | .markSent _ | .unstore _ | .setLink _ =>
    inferInstanceAs (Decidable True)

/-- A file swept, put back and swept again, and the larger one after it. -/
theorem sent_once_again : ∃ start s, newTree [⟨["a"], 10⟩, ⟨["b"], 3⟩] {} = .ok (some start) ∧
    logged.run { tree := start } [.unstored 5 1, .unstore [⟨["b"], 3⟩], .unstored 5 1] = some s ∧
    s.log = [.returned ["b"], .putBack ["b"], .returned ["b"]] ∧
    (sweep s.tree [(1, 1)]).2 = [⟨["a"], 10⟩] ∧ SweepsAll s.tree [(1, 1)] := by
  obtain ⟨start, hnew, hops, s, hrun, hlog, hswept⟩ : ∃ start,
      newTree [⟨["a"], 10⟩, ⟨["b"], 3⟩] {} = .ok (some start) ∧
      logged.Within (fun s op ↦ Distinct s.tree op) { tree := start }
        [.unstored 5 1, .unstore [⟨["b"], 3⟩], .unstored 5 1] ∧ ∃ s,
      logged.run { tree := start } [.unstored 5 1, .unstore [⟨["b"], 3⟩], .unstored 5 1] = some s ∧
      s.log = [.returned ["b"], .putBack ["b"], .returned ["b"]] ∧
      (sweep s.tree [(1, 1)]).2 = [⟨["a"], 10⟩] := by
    decide +kernel
  have hsent := sent_once (by decide) hnew hops hrun
  exact ⟨start, s, hnew, hrun, hlog, hswept, hsent.2.2 [(1, 1)] (by decide)⟩

end RemoteDocker.DirCache.Fill.Tree

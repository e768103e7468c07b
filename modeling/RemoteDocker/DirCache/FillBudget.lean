import Mathlib.Algebra.Order.BigOperators.Group.List
import RemoteDocker.DirCache.Prefetch

/-!
# The fill and its budget

The sender asks the tree for the smallest files within what the budget has left
(`src/dircache/prefetch.go:352-383`), and the tree takes the first of them whatever its size
(`src/dircache/tree.go:604-643`). So a share may be filled beyond its byte limit, by the whole of
one file (`over_budget`). `Filling` keeps to the runs in which the smallest file that is left fits
whenever the sender asks. There neither limit is passed (`within_budget`).
-/

namespace RemoteDocker.DirCache.Prefetch

open Base

namespace Tree

/-- The files that are not stored, as a sweep goes through them. -/
def candidates (t : Tree) : List Entry :=
  ((t.filter (!·.stored)).map (·.entry)).insertionSort bySizePath

private theorem within_isPrefix (maxBytes maxFiles : Int) (n : Nat) (size : Int)
    (entries : List Entry) :
    within maxBytes maxFiles n size entries <+: entries := by
  induction entries generalizing n size with
  | nil => exact List.nil_prefix
  | cons e entries ih =>
    rw [within]
    split
    · exact List.nil_prefix
    · exact (List.prefix_cons_inj e).mpr (ih _ _)

private theorem length_within_le (maxBytes size : Int) {maxFiles : Int} {n : Nat}
    (entries : List Entry)
    (hn : (n : Int) ≤ maxFiles) :
    ((within maxBytes maxFiles n size entries).length : Int) ≤ maxFiles - n := by
  induction entries generalizing n size with
  | nil =>
    rw [within, List.length_nil]
    omega
  | cons e entries ih =>
    rw [within]
    split
    · rw [List.length_nil]
      omega
    · next hgo =>
      rw [Bool.or_eq_true, decide_eq_true_eq, not_or] at hgo
      have hrest := ih (size + e.size) (n := n + 1) (by omega)
      rw [List.length_cons]
      omega

/-- After the first file, a sweep takes only what keeps it within its limit. -/
theorem sum_within_le (maxFiles : Int) {maxBytes left size : Int} {n : Nat}
    (entries : List Entry) (hle : maxBytes ≤ left) (hn : 0 < n) (hsize : size ≤ left) :
    ((within maxBytes maxFiles n size entries).map (·.size)).sum ≤ left - size := by
  induction entries generalizing n size with
  | nil =>
    rw [within, List.map_nil, List.sum_nil]
    omega
  | cons e entries ih =>
    rw [within]
    split
    · rw [List.map_nil, List.sum_nil]
      omega
    · next hgo =>
      rw [Bool.or_eq_true, not_or, Bool.and_eq_true, decide_eq_true_eq, decide_eq_true_eq,
        decide_eq_true_eq] at hgo
      have hfits : ¬maxBytes < size + e.size := fun hmore ↦ hgo.2 ⟨hn, hmore⟩
      have hrest := ih (n := n + 1) (Nat.succ_pos n) (by omega : size + e.size ≤ left)
      rw [List.map_cons, List.sum_cons]
      omega

private theorem sum_within_le_of_first (maxFiles : Int) {maxBytes left : Int} {entries : List Entry}
    (hle : maxBytes ≤ left) (hleft : 0 ≤ left) (hfirst : ∀ e ∈ entries.head?, e.size ≤ left) :
    ((within maxBytes maxFiles 0 0 entries).map (·.size)).sum ≤ left := by
  cases entries with
  | nil => exact hleft
  | cons e entries =>
    have hfits : 0 + e.size ≤ left := by
      rw [Int.zero_add]
      exact hfirst e rfl
    rw [within]
    split
    · exact hleft
    · have hrest := sum_within_le maxFiles (n := 0 + 1) entries hle Nat.zero_lt_one hfits
      rw [List.map_cons, List.sum_cons]
      omega

def storedEntries (t : Tree) : List Entry := (t.filter (·.stored)).map (·.entry)

private theorem storedBytes_eq (t : Tree) : t.storedBytes = (t.storedEntries.map (·.size)).sum := by
  rw [storedBytes, storedEntries, List.map_map]
  rfl

private theorem storedFiles_eq (t : Tree) : t.storedFiles = t.storedEntries.length := by
  rw [storedFiles, storedEntries, List.length_map, List.countP_eq_length_filter]

def paths (t : Tree) : List SharePath := t.map (·.entry.path)

private theorem paths_mark (t : Tree) (marked : List SharePath) :
    (t.mark marked).paths = t.paths := by
  rw [paths, mark, List.map_map]
  apply List.map_congr_left
  intro f hf
  rw [Function.comp_apply]
  split
  · rfl
  · rfl

private theorem paths_unstore (t : Tree) (batch : List Entry) :
    (t.unstore batch).paths = t.paths := by
  rw [paths, unstore, List.map_map]
  apply List.map_congr_left
  intro f hf
  rw [Function.comp_apply]
  split
  · rfl
  · rfl

private theorem storedEntries_mark (t : Tree) (marked : List SharePath) :
    (t.mark marked).storedEntries =
      (t.filter fun f ↦ f.stored || decide (f.entry.path ∈ marked)).map (·.entry) := by
  induction t with
  | nil => rfl
  | cons f t ih =>
    have hhead : mark (f :: t) marked =
        (if marked.contains f.entry.path then { f with stored := true } else f) ::
          mark t marked := rfl
    rw [storedEntries] at ih ⊢
    rw [hhead, List.filter_cons, List.filter_cons]
    by_cases hmem : f.entry.path ∈ marked
    · simp [hmem, ih]
    · cases hstored : f.stored with
      | true => simp [hmem, hstored, ih]
      | false => simp [hmem, hstored, ih]

/-- A first part of the candidates marked adds just these to what is stored. -/
theorem storedEntries_mark_perm {t : Tree} (hpaths : t.paths.Nodup) {batch : List Entry}
    (hbatch : batch <+: t.candidates) :
    (t.mark (batch.map (·.path))).storedEntries.Perm (t.storedEntries ++ batch) := by
  obtain ⟨rest, hrest⟩ := hbatch
  have hperm := List.perm_insertionSort bySizePath ((t.filter (!·.stored)).map (·.entry))
  change t.candidates.Perm _ at hperm
  rw [← hrest] at hperm
  -- the batch is what its paths find among the unstored files
  have hdistinct : ((batch ++ rest).map (·.path)).Nodup := by
    rw [(hperm.map (·.path)).nodup_iff, List.map_map]
    exact hpaths.sublist (List.filter_sublist.map _)
  rw [List.map_append, List.nodup_append] at hdistinct
  have hfound : batch.Perm (((t.filter (!·.stored)).map (·.entry)).filter
      fun e ↦ decide (e.path ∈ batch.map (·.path))) := by
    refine List.Perm.trans ?_ (hperm.filter _)
    have hall : batch.filter (fun e ↦ decide (e.path ∈ batch.map (·.path))) = batch := by
      rw [List.filter_eq_self]
      intro e he
      exact decide_eq_true (List.mem_map_of_mem he)
    have hnone : rest.filter (fun e ↦ decide (e.path ∈ batch.map (·.path))) = [] := by
      rw [List.filter_eq_nil_iff]
      intro e he
      rw [decide_eq_true_eq]
      intro hmem
      exact hdistinct.2.2 e.path hmem e.path (List.mem_map_of_mem he) rfl
    rw [List.filter_append, hall, hnone, List.append_nil]
  rw [storedEntries_mark]
  refine List.Perm.trans ?_ (hfound.symm.append_left _)
  have hsplit := List.filter_append_perm (fun f : TreeFile ↦ f.stored)
    (t.filter fun f ↦ f.stored || decide (f.entry.path ∈ batch.map (·.path)))
  have hentries := (hsplit.map (·.entry)).symm
  have hold : ∀ f : TreeFile, (f.stored &&
      (f.stored || decide (f.entry.path ∈ batch.map (·.path)))) = f.stored := by
    intro f
    cases f.stored with
    | true => rfl
    | false => rfl
  have hnew : ∀ f : TreeFile, (!f.stored &&
      (f.stored || decide (f.entry.path ∈ batch.map (·.path)))) =
        (decide (f.entry.path ∈ batch.map (·.path)) && !f.stored) := by
    intro f
    cases f.stored with
    | true => simp
    | false => simp
  rw [List.map_append, List.filter_filter, List.filter_filter, List.filter_congr (fun f _ ↦ hold f),
    List.filter_congr (fun f _ ↦ hnew f)] at hentries
  rw [storedEntries, List.filter_map, List.filter_filter]
  exact hentries

private theorem storedEntries_unstore_sublist (t : Tree) (batch : List Entry) :
    (t.unstore batch).storedEntries.Sublist t.storedEntries := by
  induction t with
  | nil => exact List.Sublist.refl _
  | cons f t ih =>
    rw [storedEntries, unstore] at ih ⊢
    rw [storedEntries] at ih ⊢
    rw [List.map_cons, List.filter_cons, List.filter_cons]
    by_cases hmem : (batch.map (·.path)).contains f.entry.path = true
    · rw [if_pos hmem]
      cases f.stored with
      | true => exact ih.cons _
      | false => exact ih
    · rw [if_neg hmem]
      cases f.stored with
      | true => exact ih.cons_cons _
      | false => exact ih

private theorem storedEntries_add (t : Tree) (entries : List Entry) :
    (t.add entries).storedEntries = t.storedEntries := by
  have hnone : ((entries.filter fun e ↦ decide (e.size ≤ largeFile)).map
      ({ entry := · } : Entry → TreeFile)).filter (·.stored) = [] := by
    rw [List.filter_eq_nil_iff]
    intro f hf
    obtain ⟨e, -, rfl⟩ := List.mem_map.mp hf
    exact Bool.false_ne_true
  rw [storedEntries, add, List.filter_append, hnone, List.append_nil, storedEntries]

end Tree

/-- Paths are distinct, sizes are such, and what is stored is within the budget. -/
structure Inside (b : Budget) (t : Tree) : Prop where
  paths : t.paths.Nodup
  sizes : ∀ f ∈ t, 0 ≤ f.entry.size
  bytes : t.storedBytes ≤ b.maxBytes
  files : (t.storedFiles : Int) ≤ b.maxFiles

private theorem Inside.nil (b : Budget) : Inside b [] where
  paths := List.nodup_nil
  sizes := nofun
  bytes := Int.le_of_lt b.maxBytes_pos
  files := Int.le_of_lt b.maxFiles_pos

private theorem Tree.size_nonneg_of_mark {t : Tree} (h : ∀ f ∈ t, 0 ≤ f.entry.size)
    (marked : List SharePath) : ∀ f ∈ t.mark marked, 0 ≤ f.entry.size := by
  intro f hf
  obtain ⟨g, hg, rfl⟩ := List.mem_map.mp hf
  split
  · exact h g hg
  · exact h g hg

private theorem Tree.size_nonneg_of_unstore {t : Tree} (h : ∀ f ∈ t, 0 ≤ f.entry.size)
    (batch : List Entry) : ∀ f ∈ t.unstore batch, 0 ≤ f.entry.size := by
  intro f hf
  obtain ⟨g, hg, rfl⟩ := List.mem_map.mp hf
  split
  · exact h g hg
  · exact h g hg

private theorem Inside.add {b : Budget} {t : Tree} (h : Inside b t) {entries : List Entry}
    (hpaths : (t.paths ++ entries.map (·.path)).Nodup) (hsizes : ∀ e ∈ entries, 0 ≤ e.size) :
    Inside b (t.add entries) := by
  have hstored := Tree.storedEntries_add t entries
  constructor
  · rw [Tree.paths, Tree.add, List.map_append, List.map_map]
    have hsub : ((entries.filter fun e ↦ decide (e.size ≤ Tree.largeFile)).map (·.path)).Sublist
        (entries.map (·.path)) := List.filter_sublist.map _
    exact hpaths.sublist ((List.Sublist.refl t.paths).append hsub)
  · intro f hf
    rcases List.mem_append.mp hf with hf | hf
    · exact h.sizes f hf
    · obtain ⟨e, he, rfl⟩ := List.mem_map.mp hf
      exact hsizes e (List.mem_filter.mp he).1
  · rw [Tree.storedBytes_eq, hstored, ← Tree.storedBytes_eq]
    exact h.bytes
  · rw [Tree.storedFiles_eq, hstored, ← Tree.storedFiles_eq]
    exact h.files

private theorem Inside.unstore {b : Budget} {t : Tree} (h : Inside b t) (batch : List Entry) :
    Inside b (t.unstore batch) := by
  have hsub := Tree.storedEntries_unstore_sublist t batch
  constructor
  · rw [Tree.paths_unstore]
    exact h.paths
  · exact Tree.size_nonneg_of_unstore h.sizes batch
  · have hle : (t.unstore batch).storedBytes ≤ t.storedBytes := by
      rw [Tree.storedBytes_eq, Tree.storedBytes_eq]
      apply (hsub.map _).sum_le_sum
      intro size hsize
      obtain ⟨e, he, rfl⟩ := List.mem_map.mp hsize
      obtain ⟨f, hf, rfl⟩ := List.mem_map.mp he
      exact h.sizes f (List.mem_filter.mp hf).1
    exact Int.le_trans hle h.bytes
  · have hle := hsub.length_le
    rw [← Tree.storedFiles_eq, ← Tree.storedFiles_eq] at hle
    have hfiles := h.files
    omega

/-- A sweep of what the budget has left, where the smallest file fits. -/
theorem Inside.unstored {b : Budget} {t : Tree} (h : Inside b t) {limit : Int}
    (hlimit : limit ≤ b.maxBytes - t.storedBytes)
    (hfits : ∀ e ∈ t.candidates.head?, t.storedBytes + e.size ≤ b.maxBytes) :
    Inside b (t.unstored limit (b.maxFiles - t.storedFiles)).1 := by
  rw [Tree.unstored]
  split
  · exact h
  · next hgo =>
    rw [Bool.or_eq_true, decide_eq_true_eq, decide_eq_true_eq, not_or] at hgo
    have hisPrefix := Tree.within_isPrefix limit (b.maxFiles - t.storedFiles) 0 0 t.candidates
    have hperm := Tree.storedEntries_mark_perm h.paths hisPrefix
    have hbytes := h.bytes
    constructor
    · rw [Tree.paths_mark]
      exact h.paths
    · exact Tree.size_nonneg_of_mark h.sizes _
    · have hsum := Tree.sum_within_le_of_first (b.maxFiles - t.storedFiles) hlimit (by omega)
        fun e he ↦ Int.le_sub_left_of_add_le (hfits e he)
      have hstored := (hperm.map (·.size)).sum_eq
      rw [List.map_append, List.sum_append, ← Tree.storedBytes_eq, ← Tree.storedBytes_eq]
        at hstored
      change (t.mark ((Tree.within limit _ 0 0 t.candidates).map (·.path))).storedBytes ≤ _
      omega
    · have hlength := Tree.length_within_le limit 0 (n := 0) t.candidates
        (by omega : ((0 : Nat) : Int) ≤ b.maxFiles - t.storedFiles)
      have hstored := hperm.length_eq
      rw [List.length_append, ← Tree.storedFiles_eq, ← Tree.storedFiles_eq] at hstored
      change ((t.mark ((Tree.within limit _ 0 0 t.candidates).map (·.path))).storedFiles : Int) ≤ _
      omega

/-- `next` comes to the walk's leftovers. -/
def State.sweeps (cfg : Config) (s : State) (now : Int) : Bool :=
  !decide (now < s.retryAt) && s.queue.isEmpty &&
    !(s.policy != .eager && decide (now - s.lastRead < quietFor)) &&
    !cfg.budget.over s.tree.storedBytes s.tree.storedFiles

/-- The runs spoken about: a walk finds files of paths of their own that no earlier session left
in the cache, no read queues a batch, and whenever the sender comes to the walk's leftovers the
smallest of them fits what the budget has left. -/
def Filling (cfg : Config) (s : State) : Event → Prop
  | .flush localAt entries =>
    (s.tree.paths ++ entries.map (·.path)).Nodup ∧ (∀ e ∈ entries, 0 ≤ e.size) ∧
      alreadyHeld s.share localAt entries = []
  | .touch _ path picked => s.policy = .tree → (s.tree.read path picked).2 = []
  | .next now => s.sweeps cfg now = true →
    ∀ e ∈ s.tree.candidates.head?, s.tree.storedBytes + e.size ≤ cfg.budget.maxBytes
  | _ => True

instance (cfg : Config) (s : State) : (e : Event) → Decidable (Filling cfg s e)
  | .flush localAt entries =>
    inferInstanceAs (Decidable ((s.tree.paths ++ entries.map (·.path)).Nodup ∧
      (∀ e ∈ entries, 0 ≤ e.size) ∧ alreadyHeld s.share localAt entries = []))
  | .touch _ path picked =>
    inferInstanceAs (Decidable (s.policy = .tree → (s.tree.read path picked).2 = []))
  | .next now =>
    inferInstanceAs (Decidable (s.sweeps cfg now = true →
      ∀ e ∈ s.tree.candidates.head?, s.tree.storedBytes + e.size ≤ cfg.budget.maxBytes))
  | .raise _ | .walkOver | .walkStats | .wake | .send .. | .look | .note | .finish
  | .elsewhere _ => inferInstanceAs (Decidable True)

private theorem Tree.mark_nil (t : Tree) : t.mark [] = t := by
  have hsame : ∀ f ∈ t, (fun f : TreeFile ↦
      if ([] : List SharePath).contains f.entry.path then { f with stored := true } else f) f =
        id f := fun _ _ ↦ rfl
  rw [mark, List.map_congr_left hsame, List.map_id]

private theorem Tree.read_of_nil {t : Tree} {path : SharePath} {picked : List SharePath}
    (h : (t.read path picked).2 = []) : (t.read path picked).1 = t := by
  rw [read] at h ⊢
  split
  · next hsome =>
    rw [if_pos hsome, unstoredAt, List.map_eq_nil_iff, List.filter_eq_nil_iff] at h
    have hsame : ∀ f ∈ t, (fun f : TreeFile ↦
        if picked.contains f.entry.path then { f with stored := true } else f) f = id f := by
      intro f hf
      dsimp only
      split
      · next hpicked =>
        have hstored : f.stored = true := by
          cases hst : f.stored with
          | true => rfl
          | false => exact absurd (by rw [hst, hpicked]; rfl) (h f hf)
        rw [← hstored]
        rfl
      · rfl
    rw [mark, List.map_congr_left hsame, List.map_id]
  · rfl

/-- `next` leaves the tree, or takes a sweep of what the budget has left. -/
theorem next_tree (cfg : Config) (s : State) (now : Int) :
    (s.next cfg now).tree = s.tree ∨ s.sweeps cfg now = true ∧
      (s.next cfg now).tree = (s.tree.unstored
        (min (batchLimit s.policy) (cfg.budget.maxBytes - s.tree.storedBytes))
        (cfg.budget.maxFiles - s.tree.storedFiles)).1 := by
  fun_cases State.next cfg s now
  case case6 hretry hqueue hquiet hover got _ =>
    right
    refine ⟨?_, rfl⟩
    rw [State.sweeps, hqueue, Bool.eq_false_iff.mpr hquiet, Bool.eq_false_iff.mpr hover,
      decide_eq_false hretry]
    rfl
  all_goals exact .inl rfl

private theorem Inside.steps {cfg : Config} {s s' : State} {e : Event}
    (h : Inside cfg.budget s.tree)
    (hfilling : Filling cfg s e) (hs : Steps cfg s e s') : Inside cfg.budget s'.tree := by
  cases hs with
  | raise policy =>
    fun_cases State.raise s policy
    case case4 => exact Inside.nil cfg.budget
    all_goals exact h
  | flush localAt entries =>
    obtain ⟨hpaths, hsizes, hheld⟩ := hfilling
    change Inside cfg.budget ((s.tree.add entries).mark (alreadyHeld s.share localAt entries))
    rw [hheld, Tree.mark_nil]
    exact h.add hpaths hsizes
  | walkOver | walkStats | wake | note | finishAgain | finish | elsewhere => exact h
  | touch now path picked =>
    fun_cases State.touch s now path picked
    · next hpolicy _ =>
      change Inside cfg.budget (s.tree.read path picked).1
      rw [Tree.read_of_nil (hfilling hpolicy)]
      exact h
    · exact h
  | next now =>
    rcases next_tree cfg s now with hsame | ⟨hsweeps, htaken⟩
    · rw [hsame]
      exact h
    · rw [htaken]
      exact h.unstored (Int.min_le_right _ _) (hfilling hsweeps)
  | send now answer =>
    simp only [State.send]
    split
    · exact h
    · exact h.unstore _
  | look => fun_cases State.look cfg s <;> exact h

/-- The fill stays inside its budget, where the smallest file that is left fits whenever the
sender takes from the walk's leftovers. -/
theorem within_budget {cfg : Config} {policy : Policy} {share : Share} {events : List Event}
    {s : State} (hfilling : (machine cfg).Within (Filling cfg) (attach policy share) events)
    (hrun : (machine cfg).run (attach policy share) events = some s) :
    s.tree.storedBytes ≤ cfg.budget.maxBytes ∧
      (s.tree.storedFiles : Int) ≤ cfg.budget.maxFiles := by
  have hstep : ∀ s e s', Inside cfg.budget s.tree → Filling cfg s e →
      (machine cfg).step s e = some s' → Inside cfg.budget s'.tree :=
    fun _ _ _ hs hfilling hstep ↦ hs.steps hfilling (steps_of_step hstep)
  have hstart : Inside cfg.budget (attach policy share).tree := by
    cases policy with
    | off | tree | eager => exact Inside.nil cfg.budget
  have hinside : Inside cfg.budget s.tree :=
    (machine cfg).run_invariant (Filling cfg) hstep hstart hfilling hrun
  exact ⟨hinside.bytes, hinside.files⟩

/-- A share of ten bytes, filled by two files of four and six. -/
theorem within_budget_full : ∃ s, (machine { budget := { bytes := 10 } }).run (attach .eager {})
      [.flush (fun _ ↦ none) [⟨["a"], 4⟩, ⟨["b"], 6⟩], .wake, .next 0, .send 0 .absent, .next 0] =
        some s ∧ s.tree.storedBytes = 10 ∧
      s.tree.storedBytes ≤ (Budget.maxBytes { bytes := 10 }) ∧
      (s.tree.storedFiles : Int) ≤ Budget.maxFiles { bytes := 10 } := by
  obtain ⟨s, hrun, hbytes⟩ : ∃ s, (machine { budget := { bytes := 10 } }).run (attach .eager {})
      [.flush (fun _ ↦ none) [⟨["a"], 4⟩, ⟨["b"], 6⟩], .wake, .next 0, .send 0 .absent, .next 0] =
        some s ∧ s.tree.storedBytes = 10 := by
    decide +kernel
  exact ⟨s, hrun, hbytes, within_budget (by decide +kernel) hrun⟩

/-- The first file of a sweep is taken whatever its size: a share of ten bytes takes one of
twenty, though nothing was held and no read queued anything. -/
theorem over_budget : ∃ s, (machine { budget := { bytes := 10 } }).run (attach .eager {})
      [.flush (fun _ ↦ none) [⟨["a"], 20⟩], .wake, .next 0, .send 0 .absent] = some s ∧
      s.tree.storedBytes = 20 ∧ Budget.maxBytes { bytes := 10 } = 10 := by
  decide +kernel

end RemoteDocker.DirCache.Prefetch

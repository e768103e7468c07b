import RemoteDocker.DirCache.FillCap
import RemoteDocker.DirCache.FillSent

/-!
# A sweep of the tree is a sweep of its list

The prefetch of a share is modelled over the list of its files (`Prefetch.Tree`), and the files it
sweeps into a batch are taken from that list. The tree of `src/dircache/tree.go` returns the same
batch and leaves the same list, as long as its files have less than `2 ^ 63` bytes: then the sum
that `Unstored` compares with its limit does not wrap.
-/

namespace RemoteDocker.DirCache.Fill.Tree

open Base

def File.listed (f : File) : Prefetch.TreeFile := ⟨f.entry, f.stored⟩

def listed (root : Node) : Prefetch.Tree := root.items.map File.listed

variable {root : Node} {t : Tree} {reads : Bool}

private theorem listed_foldl_markStored (files : List File) (root : Node) :
    listed (files.foldl markStored root) = (listed root).mark (files.map File.path) := by
  rw [listed, items_foldl_markStored, listed, Prefetch.Tree.mark, List.map_map, List.map_map]
  apply List.map_congr_left
  intro f _
  exact (apply_ite File.listed _ _ _).trans (if_congr List.contains_iff_mem.symm rfl rfl)

/-- No sum of a sweep wraps where the files have less than `2 ^ 63` bytes. -/
private theorem map_takeWithin (maxBytes maxFiles : Int) {n : Nat} {size : Int} {files : List File}
    (hfair : ∀ f ∈ files, f.Fair reads) (hsize : 0 ≤ size)
    (hfits : size + bytesOf files < 2 ^ 63) :
    (takeWithin maxBytes maxFiles n size files).map (·.entry) =
      Prefetch.Tree.within maxBytes maxFiles n size (files.map (·.entry)) := by
  induction files generalizing n size with
  | nil => rfl
  | cons f files ih =>
    obtain ⟨hf, hrest⟩ := List.forall_mem_cons.mp hfair
    have hlow := hf.size_nonneg
    have hnonneg := bytesOf_nonneg hrest
    rw [bytesOf_cons] at hfits
    rw [takeWithin, int64_of_range (by omega) (by omega), List.map_cons, Prefetch.Tree.within]
    simp only [Bool.or_eq_true, Bool.and_eq_true, decide_eq_true_eq]
    split
    · rfl
    · rw [List.map_cons, ih hrest (by omega) (by omega)]

/-- No two files tie in the order of a sweep, so it does not matter how they were ordered before. -/
private theorem map_candidates (hnames : (root.items.map (·.path.render)).Nodup) :
    (candidates root).map (·.entry) =
      (((listed root).filter (!·.stored)).map (·.entry)).insertionSort
        Prefetch.Tree.bySizePath := by
  have hlisted : ((listed root).filter (!·.stored)).map (·.entry) =
      (root.items.filter (!·.stored)).map (·.entry) := by
    rw [listed, List.filter_map, List.map_map]
    rfl
  rw [hlisted]
  have : IsTrans Entry Prefetch.Tree.bySizePath := ⟨fun _ _ _ ↦ bySizePath_trans⟩
  have : Std.Total Prefetch.Tree.bySizePath := ⟨bySizePath_total⟩
  have hperm := (candidates_perm root).map (·.entry)
  have hsort := List.perm_insertionSort Prefetch.Tree.bySizePath
    ((root.items.filter (!·.stored)).map (·.entry))
  refine List.Perm.eq_of_pairwise ?_ (List.pairwise_map.mpr (sorted_candidates root))
    (List.pairwise_insertionSort _ _) (hperm.trans hsort.symm)
  intro a b ha hb hab hba
  obtain ⟨f, hf, rfl⟩ := List.mem_map.mp (hperm.subset ha)
  obtain ⟨g, hg, rfl⟩ := List.mem_map.mp (hsort.subset hb)
  have hname : f.path.render = g.path.render := by
    rcases hab with hab | ⟨heq, hab⟩ <;> rcases hba with hba | ⟨heq', hba⟩
    · omega
    · omega
    · omega
    · exact String.le_antisymm hab hba
  rw [List.inj_on_of_nodup_map hnames (List.mem_filter.mp hf).1 (List.mem_filter.mp hg).1 hname]

/-- The figures a sweep's limits come from, the batch and what is left are those of the list. -/
theorem unstored_listed (h : Counted true t) (hbytes : bytesOf t.root.items < 2 ^ 63)
    (hnames : (t.root.items.map (·.path.render)).Nodup) :
    t.root.count.fetched.toInt = (listed t.root).storedBytes ∧
      t.root.count.fetchedFiles = (listed t.root).storedFiles ∧
      ∀ maxBytes maxFiles,
        (listed (t.unstored maxBytes maxFiles).1.root, (t.unstored maxBytes maxFiles).2) =
          (listed t.root).unstored maxBytes maxFiles := by
  have hexact := h.fair.exact hbytes _ (Tally.self_mem_nodes _)
  refine ⟨?_, ?_, ?_⟩
  · rw [hexact.fetched, Prefetch.Tree.storedBytes, listed, List.filter_map, List.map_map]
    exact congrArg List.sum List.map_map
  · rw [hexact.fetchedFiles, Prefetch.Tree.storedFiles, listed, List.countP_map]
    rfl
  · intro maxBytes maxFiles
    rw [unstored, Prefetch.Tree.unstored]
    simp only [Bool.or_eq_true, decide_eq_true_eq]
    split
    · rfl
    · have hfair : ∀ f ∈ candidates t.root, f.Fair true :=
        fun f hf ↦ h.fair.files f (mem_candidates.mp hf).1
      have hfits : bytesOf (candidates t.root) ≤ bytesOf t.root.items := by
        rw [bytesOf, bytesIn, (((candidates_perm t.root).map (·.entry)).map _).sum_eq]
        exact bytesOf_mono List.filter_sublist h.fair.files
      have hbatch := map_takeWithin maxBytes maxFiles (n := 0) hfair (Int.le_refl 0) (by omega)
      rw [map_candidates hnames] at hbatch
      rw [listed_foldl_markStored, ← hbatch, List.map_map]
      rfl

end RemoteDocker.DirCache.Fill.Tree

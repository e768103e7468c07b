import RemoteDocker.DirCache.FillCounts

/-!
# One miss fetches at most the cap

A climb asks every node above the file that was read, and each fetch changes what the nodes still
to be asked have left (`src/dircache/tree.go:409-466,502-582`). What a node has left is the bytes
of its files that are not stored, as long as the files of the tree have less than `2 ^ 63` bytes:
then what is fetched in all never passes the limit. Where they have more, a node can seem to have
a negative number of bytes left (`cap_passed`).
-/

namespace RemoteDocker.DirCache.Fill.Tree

open Base

variable {reads : Bool} {root n : Node} {f : File} {files : List File} {entries : List Entry}
    {t : Tree}

private theorem bytesOf_eq_add (files : List File) :
    bytesOf files = fetchedOf files + bytesOf (files.filter (!·.stored)) := by
  induction files with
  | nil => rfl
  | cons f files ih =>
    rw [bytesOf_cons, fetchedOf_cons, List.filter_cons, ih]
    cases f.stored with
    | true =>
      simp only [if_true, Bool.not_true, Bool.false_eq_true, if_false]
      omega
    | false =>
      simp only [Bool.not_false, if_true, Bool.false_eq_true, if_false, bytesOf_cons]
      omega

theorem bytesOf_nonneg (h : ∀ f ∈ files, f.Fair reads) : 0 ≤ bytesOf files := by
  apply bytesIn_nonneg
  intro e he
  obtain ⟨f, hf, rfl⟩ := List.mem_map.mp he
  exact (h f hf).size_nonneg

private theorem Fair.unfetched_eq (h : Fair reads root) (htotal : bytesOf root.items < 2 ^ 63)
    (hn : n ∈ root.nodes) : unfetched n = bytesOf (n.items.filter (!·.stored)) := by
  have hcount : n.count.bytes - n.count.fetched =
      Int64.ofInt (bytesOf n.items) - Int64.ofInt (fetchedOf n.items) := by
    have hpart := congrArg (fun c ↦ c.bytes - c.fetched) (h.count hn)
    cases reads with
    | true => exact hpart
    | false => exact hpart
  have hsub := Tally.items_sublist hn
  have hfiles : ∀ f ∈ n.items, f.Fair reads := fun f hf ↦ h.files f (hsub.subset hf)
  have hle := bytesOf_mono hsub h.files
  have hpart := bytesOf_mono (List.filter_sublist (p := (!·.stored)) (l := n.items)) hfiles
  have hnonneg : 0 ≤ bytesOf (n.items.filter (!·.stored)) :=
    bytesOf_nonneg fun f hf ↦ hfiles f (List.mem_filter.mp hf).1
  have hleft : bytesOf n.items - fetchedOf n.items = bytesOf (n.items.filter (!·.stored)) := by
    rw [bytesOf_eq_add n.items]
    omega
  rw [unfetched, hcount, ← Int64.ofInt_sub, hleft]
  exact int64_of_range (by omega) (by omega)

private theorem fetchedOf_eq_sum (files : List File) :
    fetchedOf files = (files.map fun f ↦ if f.stored then f.entry.size else 0).sum := by
  induction files with
  | nil => rfl
  | cons f files ih => rw [fetchedOf_cons, ih, List.map_cons, List.sum_cons]

private theorem fetchedOf_markStored (hpaths : (root.items.map File.path).Nodup)
    (hf : f ∈ root.items) (hstored : f.stored = false) :
    fetchedOf (markStored root f).items = fetchedOf root.items + f.entry.size := by
  rw [items_markStored, fetchedOf_eq_sum, fetchedOf_eq_sum]
  apply Tally.sum_map_change _ hpaths hf
  simp [hstored, File.store]

private theorem fetchedOf_foldl_markStored (hpaths : (root.items.map File.path).Nodup)
    (htakes : Takes root files) :
    fetchedOf (files.foldl markStored root).items = fetchedOf root.items + bytesOf files := by
  induction files generalizing root with
  | nil => exact (Int.add_zero _).symm
  | cons f files ih =>
    have hmarked : ((markStored root f).items.map File.path).Nodup :=
      paths_foldl_markStored hpaths [f]
    have hone := fetchedOf_markStored hpaths (htakes.mem f (.head _))
      (htakes.unstored f (.head _))
    rw [List.foldl_cons, ih hmarked htakes.tail, hone, bytesOf_cons, Int.add_assoc]

/-- A climb that has kept to its limit. What it has fetched is among the fetched bytes of the
tree, so that it and what a node has left are together less than `2 ^ 63`. -/
structure Kept (limit total : Int) (c : Climbed) : Prop where
  fair : Fair false c.root
  bytes : bytesOf c.root.items < 2 ^ 63
  sum : total = bytesIn c.out
  nonneg : 0 ≤ total
  fetched : total ≤ fetchedOf c.root.items
  within : c.out = [] ∨ bytesIn c.out ≤ limit

private theorem bytesIn_fetch (h : Fair reads root) (hbytes : bytesOf root.items < 2 ^ 63)
    (hn : n ∈ root.nodes) : bytesIn (fetch root n).2 = unfetched n := by
  rw [fetch, h.unfetched_eq hbytes hn]
  exact ((((Tally.stackItems_perm n).filter _).map _).map _).sum_eq

/-- A node has no more left than the tree, and not less than nothing. -/
theorem unfetched_bounds (h : Fair reads root) (hbytes : bytesOf root.items < 2 ^ 63)
    (hn : n ∈ root.nodes) :
    0 ≤ unfetched n ∧ unfetched n ≤ bytesOf (root.items.filter (!·.stored)) := by
  have hsub := (Tally.items_sublist hn).filter (!·.stored)
  have hfiles : ∀ f ∈ root.items.filter (!·.stored), f.Fair reads :=
    fun f hf ↦ h.files f (List.mem_filter.mp hf).1
  rw [h.unfetched_eq hbytes hn]
  exact ⟨bytesOf_nonneg fun f hf ↦ hfiles f (hsub.subset hf), bytesOf_mono hsub hfiles⟩

private theorem Kept.fetch {limit total : Int} {c : Climbed} (h : Kept limit total c)
    (hn : n ∈ c.root.nodes) (hfits : ¬limit < int64 (total + unfetched n)) :
    Kept limit (int64 (total + bytesIn (fetch c.root n).2))
      { root := (fetch c.root n).1, out := c.out ++ (fetch c.root n).2
        promoted := c.promoted ++ [n] } := by
  have hsent := bytesIn_fetch h.fair h.bytes hn
  obtain ⟨hlow, hhigh⟩ := unfetched_bounds h.fair h.bytes hn
  have htakes := takes_fetch h.fair.paths hn
  have hexact : int64 (total + unfetched n) = total + unfetched n := by
    have hall := bytesOf_eq_add c.root.items
    have hbytes := h.bytes
    have hnonneg := h.nonneg
    have hfetched := h.fetched
    exact int64_of_range (by omega) (by omega)
  rw [hexact] at hfits
  rw [hsent, hexact]
  have hout : bytesIn (c.out ++ (Tree.fetch c.root n).2) = total + unfetched n := by
    rw [bytesIn_append, hsent, h.sum]
  constructor
  · exact h.fair.foldl_markStored htakes
  · change bytesOf ((n.stackItems.filter (!·.stored)).foldl markStored c.root).items < 2 ^ 63
    rw [bytesOf, entries_foldl_markStored]
    exact h.bytes
  · exact hout.symm
  · exact Int.add_nonneg h.nonneg hlow
  · have hmore := fetchedOf_foldl_markStored h.fair.paths htakes
    change _ = _ + bytesIn (Tree.fetch c.root n).2 at hmore
    have hfetched := h.fetched
    change _ ≤ fetchedOf ((n.stackItems.filter (!·.stored)).foldl markStored c.root).items
    omega
  · right
    change bytesIn (c.out ++ (Tree.fetch c.root n).2) ≤ limit
    omega

private theorem Kept.climb {limit : Int} (promote : Node → Bool) (path : SharePath)
    (left height : Nat)
    {total : Int} {c : Climbed} (h : Kept limit total c) :
    ∃ total', Kept limit total' (climb promote limit path left height total c) := by
  induction left generalizing height total c with
  | zero => exact ⟨total, h⟩
  | succ left ih =>
    rw [Tree.climb]
    split
    · exact ⟨total, h⟩
    · next n hn =>
      split
      · exact ih (height + 1) h
      · split
        · exact ⟨total, h⟩
        · next hfits =>
          split
          · exact ih (height + 1) h
          · have hnode := Tally.mem_nodes_of_mem_chain File.path path c.root n
              (List.mem_of_getElem? hn)
            exact ih (height + 1) (h.fetch hnode hfits)

/-- What a read returns: nothing or at most the limit, each file once, and just the unstored files
under the nodes it promotes. -/
structure Fetches (t : Tree) (limit : Int) (promoted : List Node) (out : List Entry) : Prop where
  within : out = [] ∨ bytesIn out ≤ limit
  distinct : (out.map (·.path)).Nodup
  exact : ∀ e, e ∈ out ↔
    ∃ f ∈ t.root.items, f.entry = e ∧ f.stored = false ∧ Under promoted f.path

private theorem Fetches.nothing (t : Tree) (limit : Int) : Fetches t limit [] [] where
  within := .inl rfl
  distinct := List.nodup_nil
  exact e := by simp [Under]

private theorem fetches_readClimb (h : Counted false t) (hbytes : bytesOf t.root.items < 2 ^ 63)
    (promote : Node → Bool) (limit : Int) (hf : f ∈ t.root.items) (hunstored : f.stored = false)
    (n : Int) :
    Fetches t limit (readClimb t.root promote limit f n).promoted
      (readClimb t.root promote limit f n).out := by
  have hnoted : Fair false (noteRead t.root f n) := h.fair.noteRead hf hunstored (by simp)
  obtain ⟨files, nodes, hclimbs⟩ := climbs_climb promote limit f.path
    ((noteRead t.root f n).chain File.path f.path).length 0 0
    (c := { root := noteRead t.root f n }) hnoted.paths
  have hkept : Kept limit 0 { root := noteRead t.root f n } := by
    constructor
    · exact hnoted
    · rw [bytesOf, entries_noteRead]
      exact hbytes
    · rfl
    · exact Int.le_refl 0
    · exact bytesOf_nonneg fun g hg ↦ hnoted.files g (List.mem_filter.mp hg).1
    · exact .inl rfl
  have hout : (readClimb t.root promote limit f n).out = files.map (·.entry) := hclimbs.out
  have hpromoted : (readClimb t.root promote limit f n).promoted = nodes := hclimbs.promoted
  constructor
  · obtain ⟨total, hend⟩ := hkept.climb promote f.path
      ((noteRead t.root f n).chain File.path f.path).length 0
    exact hend.within
  · rw [hout, List.map_map]
    exact hclimbs.takes.paths
  · intro e
    rw [hout, hpromoted]
    constructor
    · intro he
      obtain ⟨g, hg, rfl⟩ := List.mem_map.mp he
      have hitem := hclimbs.takes.mem g hg
      have hstored := hclimbs.takes.unstored g hg
      have hunder := (hclimbs.under g hitem hstored).mp (List.mem_map_of_mem hg)
      change g ∈ (noteRead t.root f n).items at hitem
      rw [items_noteRead, List.mem_map] at hitem
      obtain ⟨a, ha, rfl⟩ := hitem
      refine ⟨a, ha, (entry_change (entry_note n) f.path a).symm, ?_, ?_⟩
      · rw [← stored_change_note f.path n a]
        exact hstored
      · rw [← path_change (path_note n) f.path a]
        exact hunder
    · rintro ⟨a, ha, rfl, hstored, hunder⟩
      -- the file as the read has noted it
      have hitem : Tally.change File.path f.path (File.note n) a ∈
          (noteRead t.root f n).items := by
        rw [items_noteRead]
        exact List.mem_map_of_mem ha
      have hnot := (stored_change_note f.path n a).trans hstored
      rw [← path_change (path_note n) f.path a] at hunder
      have hmem := (hclimbs.under _ hitem hnot).mpr hunder
      obtain ⟨g, hg, hpath⟩ := List.mem_map.mp hmem
      have hsame := List.inj_on_of_nodup_map hnoted.paths (hclimbs.takes.mem g hg) hitem hpath
      rw [← entry_change (entry_note n) f.path a, ← hsame]
      exact List.mem_map_of_mem hg

/-- One miss fetches at most the cap. In every tree that operations lead to whose files have less
than `2 ^ 63` bytes, and whatever the test of promotion, the limit and the bytes read: a read
returns nothing, or files of at most the limit together, and they are just those that were not
stored under the nodes it promoted, each once. -/
theorem read_within_cap {layout : Layout} {entries : List Entry} {start t : Tree}
    {ops : List Op} (hdistinct : (entries.map (·.path)).Nodup) (hsizes : ∀ e ∈ entries, SizeOk e)
    (hnew : newTree entries layout = .ok (some start))
    (hops : machine.Within (Careful false) start ops)
    (hrun : machine.run start ops = some t) (hbytes : bytesOf t.root.items < 2 ^ 63)
    (promote : Node → Bool) (limit : Int) (path : SharePath) (n : Int) :
    Fetches t limit (t.promoted promote limit path n) (t.read promote limit path n).2 := by
  have hcounted := (Counted.newTree hdistinct hsizes hnew).run hops hrun
  rw [promoted, read]
  cases hf : lookup t.root path with
  | none => exact Fetches.nothing t limit
  | some f =>
    dsimp only
    split
    · exact Fetches.nothing t limit
    · next hstored =>
      exact fetches_readClimb hcounted hbytes promote limit (lookup_eq_some hf).1
        (Bool.eq_false_iff.mpr hstored) n

/-- Two leaves under one node, and a read of which both are promoted. -/
theorem read_within_cap_two : ∃ start t,
    newTree [⟨["a"], 3⟩, ⟨["b"], 6⟩, ⟨["c"], 5⟩] { leafBytes := 8 } = .ok (some start) ∧
      machine.run start [.read (fun _ ↦ false) 0 ["a"] (-1)] = some t ∧
      (t.read (fun _ ↦ true) 14 ["a"] 1).2 = [⟨["a"], 3⟩, ⟨["c"], 5⟩, ⟨["b"], 6⟩] ∧
      Fetches t 14 (t.promoted (fun _ ↦ true) 14 ["a"] 1)
        (t.read (fun _ ↦ true) 14 ["a"] 1).2 := by
  obtain ⟨start, hnew, hops, t, hrun, hbytes, hout⟩ : ∃ start,
      newTree [⟨["a"], 3⟩, ⟨["b"], 6⟩, ⟨["c"], 5⟩] { leafBytes := 8 } = .ok (some start) ∧
      machine.Within (Careful false) start [.read (fun _ ↦ false) 0 ["a"] (-1)] ∧ ∃ t,
      machine.run start [.read (fun _ ↦ false) 0 ["a"] (-1)] = some t ∧
      bytesOf t.root.items < 2 ^ 63 ∧
      (t.read (fun _ ↦ true) 14 ["a"] 1).2 = [⟨["a"], 3⟩, ⟨["c"], 5⟩, ⟨["b"], 6⟩] := by
    decide +kernel
  exact ⟨start, t, hnew, hrun, hout, read_within_cap (by decide) (by decide) hnew hops hrun
    hbytes (fun _ ↦ true) 14 ["a"] 1⟩

/-- Over files of `2 ^ 63` bytes and more, what a node has left wraps: a read of one byte of a
small file has two files of `2 ^ 62` bytes fetched with it, under a limit of one mebibyte. -/
theorem cap_passed : ∃ start,
    newTree [⟨["a"], 2⟩, ⟨["b"], 2 ^ 62⟩, ⟨["c"], 2 ^ 62⟩] { largeFile := 2 ^ 62, branching := 4 } =
        .ok (some start) ∧
      (start.read (fun _ ↦ true) (2 ^ 20) ["a"] 1).2 =
        [⟨["a"], 2⟩, ⟨["c"], 2 ^ 62⟩, ⟨["b"], 2 ^ 62⟩] ∧
      2 ^ 20 < bytesIn (start.read (fun _ ↦ true) (2 ^ 20) ["a"] 1).2 := by
  decide +kernel

end RemoteDocker.DirCache.Fill.Tree

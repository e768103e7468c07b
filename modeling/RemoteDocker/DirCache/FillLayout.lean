import RemoteDocker.DirCache.FillFiles

/-!
# The layout of the prefetch tree

Entries come in walk order, are cut into windows, and each window is sorted and cut into leaves
(`src/dircache/tree.go:268-342`); the leaves are then joined level by level until one node is left
(`src/dircache/tree.go:351-388`). Neither loses, repeats or reorders a leaf, and both end, as long
as sizes do not add up to `2 ^ 63` and the span of the level of a large file stays below it.
-/

namespace RemoteDocker.DirCache.Fill.Tree

open Base

/-- The walk order is cut into windows, and each is laid out by itself. -/
theorem exists_windows (layout : Layout) (window : List Entry) (acc : Int) (rest : List Entry) :
    ∃ windows : List (List Entry),
      placeFrom layout window acc rest = windows.flatMap (flush layout) ∧
        windows.flatten = window ++ rest := by
  induction rest generalizing window acc with
  | nil =>
    refine ⟨[window], ?_, ?_⟩
    · rw [placeFrom, List.flatMap_singleton]
    · rw [List.flatten_singleton, List.append_nil]
  | cons e rest ih =>
    have hlist : window ++ e :: rest = (window ++ [e]) ++ rest := List.append_cons window e rest
    rw [placeFrom, hlist]
    split
    · obtain ⟨windows, hplace, hwalk⟩ := ih [] 0
      refine ⟨(window ++ [e]) :: windows, ?_, ?_⟩
      · rw [hplace, List.flatMap_cons]
      · rw [List.flatten_cons, hwalk, List.nil_append]
    · exact ih _ _

private theorem bytesIn_singleton (e : Entry) : bytesIn [e] = e.size := by
  rw [bytesIn, List.map_singleton, List.sum_singleton]

variable {entries : List Entry} {layout : Layout}

/-- What `cut` emits: a leaf of small files of at most `leafBytes` together, or one larger file at
the level that fits it. -/
inductive Packed (layout : Layout) (g : Group) : Prop
  | leaf (hne : g.entries ≠ []) (hsmall : ∀ e ∈ g.entries, e.size ≤ layout.leafBytes)
      (hbytes : bytesIn g.entries ≤ layout.leafBytes)
  | large {e : Entry} (hentries : g.entries = [e]) (hlarge : layout.leafBytes < e.size)
      (hlevel : g.level = levelFor layout e.size)

private theorem packed_emitLeaf {cur : List Entry}
    (hsmall : ∀ e ∈ cur, e.size ≤ layout.leafBytes) (hbytes : bytesIn cur ≤ layout.leafBytes) :
    ∀ g ∈ emitLeaf cur, Packed layout g := by
  intro g hg
  rw [emitLeaf] at hg
  split at hg
  · cases hg
  · next hne =>
    rw [List.mem_singleton] at hg
    rw [hg]
    exact .leaf (by simpa using hne) hsmall hbytes

/-- The loop of `cut` knows the size of its current leaf, which is at most `leafBytes`. -/
theorem packed_cutFrom (cur : List Entry) {rest : List Entry}
    (hleaf : 0 < layout.leafBytes) (hsizes : ∀ e ∈ cur ++ rest, 0 ≤ e.size)
    (hfits : bytesIn (cur ++ rest) < 2 ^ 63) (hsmall : ∀ e ∈ cur, e.size ≤ layout.leafBytes)
    (hbytes : bytesIn cur ≤ layout.leafBytes) :
    ∀ g ∈ cutFrom layout cur (bytesIn cur) rest, Packed layout g := by
  induction rest generalizing cur with
  | nil => exact packed_emitLeaf hsmall hbytes
  | cons e rest ih =>
    have hlist : cur ++ e :: rest = (cur ++ [e]) ++ rest := List.append_cons cur e rest
    have htail : ∀ e' ∈ rest, 0 ≤ e'.size := fun e' he' ↦ hsizes e' (by simp [he'])
    have hsize : 0 ≤ e.size := hsizes e (by simp)
    have hcur : 0 ≤ bytesIn cur := bytesIn_nonneg fun e' he' ↦ hsizes e' (by simp [he'])
    have hrest : 0 ≤ bytesIn rest := bytesIn_nonneg htail
    have hsum : bytesIn (cur ++ e :: rest) = bytesIn cur + e.size + bytesIn rest := by
      rw [hlist, bytesIn_append, bytesIn_append, bytesIn_singleton]
    have hexact : int64 (bytesIn cur + e.size) = bytesIn (cur ++ [e]) := by
      rw [bytesIn_append, bytesIn_singleton]
      exact int64_of_range (by omega) (by omega)
    have hone : ∀ e' ∈ [e] ++ rest, 0 ≤ e'.size := by
      intro e' he'
      rcases List.mem_cons.mp he' with rfl | he'
      · exact hsize
      · exact htail e' he'
    intro g hg
    rw [cutFrom, hexact] at hg
    split at hg
    · next hlarge =>
      rw [List.mem_append, List.mem_cons] at hg
      rcases hg with hg | rfl | hg
      · exact packed_emitLeaf hsmall hbytes g hg
      · exact .large rfl hlarge rfl
      · have hnone : ∀ e' ∈ ([] : List Entry), e'.size ≤ layout.leafBytes := by simp
        have hless : bytesIn ([] ++ rest) < 2 ^ 63 := by
          rw [List.nil_append]
          omega
        exact ih [] htail hless hnone (Int.le_of_lt hleaf) g hg
    · next hnot =>
      split at hg
      · rcases List.mem_append.mp hg with hg | hg
        · exact packed_emitLeaf hsmall hbytes g hg
        · rw [← bytesIn_singleton e] at hg
          apply ih [e] hone _ _ _ g hg
          · rw [bytesIn_append, bytesIn_singleton]
            omega
          · intro e' he'
            rw [List.mem_singleton.mp he']
            exact Int.not_lt.mp hnot
          · rw [bytesIn_singleton]
            exact Int.not_lt.mp hnot
      · next hjoin =>
        apply ih (cur ++ [e]) _ _ _ _ g hg
        · rw [← hlist]
          exact hsizes
        · rw [← hlist]
          exact hfits
        · intro e' he'
          rcases List.mem_append.mp he' with he' | he'
          · exact hsmall e' he'
          · rw [List.mem_singleton.mp he']
            exact Int.not_lt.mp hnot
        · by_cases hnil : cur = []
          · rw [hnil, List.nil_append, bytesIn_singleton]
            exact Int.not_lt.mp hnot
          · by_contra hover
            exact hjoin ⟨Int.not_le.mp hover, hnil⟩

/-- A level is found where its span does not wrap, and it is the smallest that fits. -/
theorem levelLoop_least {size : Int} {steps above : Nat} {span : Int} (hspan : 0 < span)
    (habove : size ≤ span * 2 ^ above) (hfits : span * 2 ^ above < 2 ^ 63)
    (hsteps : above < steps) :
    ∃ level, levelLoop size steps span = some level ∧ size ≤ span * 2 ^ level ∧
      ∀ l < level, span * 2 ^ l < size := by
  induction steps generalizing span above with
  | zero => omega
  | succ steps ih =>
    rw [levelLoop]
    split
    · next hlt =>
      cases above with
      | zero => omega
      | succ above =>
        have hdouble : ∀ k : Nat, span * 2 * 2 ^ k = span * 2 ^ (k + 1) := by
          intro k
          rw [Int.mul_assoc, ← Int.pow_succ']
        have hone : span * 2 ≤ span * 2 * 2 ^ above := by
          have hpow : (0 : Int) < 2 ^ above := Int.pow_pos (by decide)
          calc span * 2 = span * 2 * 1 := (Int.mul_one _).symm
            _ ≤ span * 2 * 2 ^ above := Int.mul_le_mul_of_nonneg_left (by omega) (by omega)
        rw [← hdouble] at habove hfits
        have hwrap : int64 (span * 2) = span * 2 := int64_of_range (by omega) (by omega)
        obtain ⟨level, hfound, hlevel, hleast⟩ :=
          ih (by omega : 0 < span * 2) habove hfits (by omega)
        rw [hwrap, hfound]
        refine ⟨level + 1, rfl, ?_, ?_⟩
        · rw [← hdouble]
          exact hlevel
        · intro l hl
          cases l with
          | zero =>
            rw [Int.pow_zero, Int.mul_one]
            exact hlt
          | succ l =>
            rw [← hdouble]
            exact hleast l (by omega)
    · next hle =>
      refine ⟨0, rfl, ?_, by simp⟩
      rw [Int.pow_zero, Int.mul_one]
      exact Int.not_lt.mp hle

/-- Sizes do not add up to `2 ^ 63`, and every small file has a level whose span is below it. -/
structure NoOverflow (layout : Layout) (entries : List Entry) : Prop where
  total : bytesIn (small layout entries) < 2 ^ 63
  levels : ∀ e ∈ small layout entries,
    ∃ above : Nat, e.size ≤ layout.leafBytes * 2 ^ above ∧ layout.leafBytes * 2 ^ above < 2 ^ 63

private theorem levelFor_least (hleaf : 0 < layout.leafBytes) {size : Int}
    (hfits : ∃ above : Nat, size ≤ layout.leafBytes * 2 ^ above ∧
      layout.leafBytes * 2 ^ above < 2 ^ 63) :
    ∃ level, levelFor layout size = some level ∧ size ≤ layout.leafBytes * 2 ^ level ∧
      ∀ l < level, layout.leafBytes * 2 ^ l < size := by
  obtain ⟨above, habove, hspan⟩ := hfits
  apply levelLoop_least hleaf habove hspan
  have hpow : (2 : Int) ^ above < 2 ^ 63 := by
    have hone : (2 : Int) ^ above ≤ layout.leafBytes * 2 ^ above := by
      have hpos : (0 : Int) ≤ 2 ^ above := Int.le_of_lt (Int.pow_pos (by decide))
      calc (2 : Int) ^ above = 1 * 2 ^ above := (Int.one_mul _).symm
        _ ≤ layout.leafBytes * 2 ^ above := Int.mul_le_mul_of_nonneg_right (by omega) hpos
    omega
  have hnat : 2 ^ above < 2 ^ 63 := by exact_mod_cast hpow
  have hexp := (Nat.pow_lt_pow_iff_right (by decide)).mp hnat
  omega

/-- Where `emit` notes the entries of the leaves: for each path the number of its leaf, left to
right, and its index there. -/
def locations (groups : List Group) : List (SharePath × Nat × Nat) :=
  groups.zipIdx.flatMap fun g ↦ g.1.entries.zipIdx.map fun e ↦ (e.1.path, g.2, e.2)

/-- `where`, as `emit` fills it. -/
def whereOf (groups : List Group) : AList fun _ : SharePath ↦ Nat × Nat :=
  tableOf (locations groups)

private theorem paths_locations (groups : List Group) :
    (locations groups).map (·.1) = (groups.flatMap (·.entries)).map (·.path) := by
  have hleaf : ∀ (k : Nat) (entries : List Entry),
      (entries.zipIdx.map fun e ↦ (e.1.path, k, e.2)).map (·.1) = entries.map (·.path) := by
    intro k entries
    rw [List.map_map]
    change entries.zipIdx.map ((·.path) ∘ Prod.fst) = _
    rw [← List.map_map, List.zipIdx_map_fst]
  rw [locations, List.map_flatMap, List.map_flatMap]
  simp only [hleaf]
  have hgroups : groups.zipIdx.flatMap (fun g ↦ g.1.entries.map (·.path)) =
      (groups.zipIdx.map Prod.fst).flatMap fun g ↦ g.entries.map (·.path) := by
    rw [List.flatMap_map]
  rw [hgroups, List.zipIdx_map_fst]

private theorem lookup_whereOf {groups : List Group}
    (hdistinct : ((groups.flatMap (·.entries)).map (·.path)).Nodup) {k i : Nat} {g : Group}
    {e : Entry} (hg : groups[k]? = some g) (he : g.entries[i]? = some e) :
    (whereOf groups).lookup e.path = some (k, i) := by
  rw [← paths_locations] at hdistinct
  rw [whereOf, lookup_tableOf hdistinct, locations, List.mem_flatMap]
  refine ⟨(g, k), List.mk_mem_zipIdx_iff_getElem?.mpr hg, ?_⟩
  exact List.mem_map.mpr ⟨(e, i), List.mk_mem_zipIdx_iff_getElem?.mpr he, rfl⟩

/-- The files of the leaves that have some, left to right. -/
def filledLeaves (n : Node) : List (List File) := n.leaves.filter (!·.isEmpty)

/-- What a layout should be. The groups are what `place` makes of the small entries. -/
structure WellFormed (layout : Layout) (entries : List Entry) (prev : SharePath → Option File)
    (groups : List Group) (root : Node) : Prop where
  leaves : filledLeaves root = groups.map fun g ↦ g.entries.map (carried prev)
  once : (groups.flatMap (·.entries)).Perm (small layout entries)
  located : ∀ (k i : Nat) g e, groups[k]? = some g → g.entries[i]? = some e →
    (whereOf groups).lookup e.path = some (k, i)
  windows : ∃ windows : List (List Entry × List Group),
    groups = windows.flatMap (·.2) ∧ windows.flatMap (·.1) = small layout entries ∧
      ∀ w ∈ windows, (w.2.flatMap (·.entries)).Perm w.1 ∧
        (w.2.flatMap (·.entries)).Pairwise Prefetch.Tree.bySizePath
  packed : ∀ g ∈ groups, 1 < g.entries.length → bytesIn g.entries ≤ layout.leafBytes
  large : ∀ g ∈ groups, ∀ e ∈ g.entries, layout.leafBytes < e.size →
    g.entries = [e] ∧ ∃ level, g.level = some level ∧ e.size ≤ layout.leafBytes * 2 ^ level ∧
      ∀ l < level, layout.leafBytes * 2 ^ l < e.size
  branching : ∀ n ∈ root.nodes, (n.children.length : Int) ≤ layout.branching

private theorem packed_place (hleaf : 0 < layout.leafBytes)
    (hsizes : ∀ e ∈ entries, 0 ≤ e.size) (hfits : bytesIn entries < 2 ^ 63) :
    ∀ g ∈ place layout entries, Packed layout g := by
  intro g hg
  obtain ⟨windows, hplace, hwalk⟩ := exists_windows layout [] 0 entries
  rw [List.nil_append] at hwalk
  rw [place, hplace, List.mem_flatMap] at hg
  obtain ⟨window, hwindow, hg⟩ := hg
  have hperm := List.perm_insertionSort Prefetch.Tree.bySizePath window
  have hsub : window.Sublist entries := by
    rw [← hwalk]
    exact List.sublist_flatten_of_mem hwindow
  have hless : bytesIn window ≤ bytesIn entries := by
    apply (hsub.map _).sum_le_sum
    intro size hsize
    obtain ⟨e, he, rfl⟩ := List.mem_map.mp hsize
    exact hsizes e he
  have hsame : bytesIn (window.insertionSort Prefetch.Tree.bySizePath) = bytesIn window :=
    (hperm.map _).sum_eq
  have hnone : ∀ e ∈ ([] : List Entry), e.size ≤ layout.leafBytes := nofun
  refine packed_cutFrom [] hleaf ?_ ?_ hnone (Int.le_of_lt hleaf) g hg
  · intro e he
    exact hsizes e (hsub.subset (hperm.subset he))
  · rw [List.nil_append]
    omega

private theorem sorted_flush (layout : Layout) (window : List Entry) :
    ((flush layout window).flatMap (·.entries)).Pairwise Prefetch.Tree.bySizePath := by
  have : IsTrans Entry Prefetch.Tree.bySizePath := ⟨fun _ _ _ ↦ bySizePath_trans⟩
  have : Std.Total Prefetch.Tree.bySizePath := ⟨bySizePath_total⟩
  rw [flush, cut, entries_cutFrom, List.nil_append]
  exact List.pairwise_insertionSort _ _

private theorem filledLeaves_inner (c : Counts) (kids : List Node) :
    filledLeaves (.inner c kids) = kids.flatMap filledLeaves := by
  rw [filledLeaves, Tally.leaves, Tally.leavesOf_eq, List.filter_flatMap]
  rfl

private theorem wellFormed_rebuild
    {prev : SharePath → Option File} {t : Tree} (hdistinct : (entries.map (·.path)).Nodup)
    (hsizes : ∀ e ∈ entries, 0 ≤ e.size) (hleaf : 0 < layout.leafBytes)
    (hbranching : 2 ≤ layout.branching) (hfits : NoOverflow layout entries)
    (h : rebuild layout entries prev = some t) :
    WellFormed layout entries prev (place layout (small layout entries)) t.root := by
  obtain ⟨-, -, hroot⟩ := of_rebuild h
  have hplaced := entries_place layout (small layout entries)
  have hpacked := packed_place hleaf (fun e he ↦ hsizes e (List.mem_filter.mp he).1) hfits.total
  constructor
  case leaves =>
    rw [below_buildFrom filledLeaves_inner rfl hroot, List.flatMap_map]
    have hone : ∀ g ∈ place layout (small layout entries),
        filledLeaves (emit prev g.entries) = [g.entries.map (carried prev)] := by
      intro g hg
      have hne : g.entries ≠ [] := by
        cases hpacked g hg with
        | leaf hne => exact hne
        | large hentries =>
          rw [hentries]
          exact List.cons_ne_nil _ _
      rw [filledLeaves, emit, Tally.leaves]
      simp [hne]
    rw [List.flatMap_congr hone, ← List.map_eq_flatMap]
  case once => exact hplaced
  case located =>
    intro k i g e hg he
    apply lookup_whereOf _ hg he
    rw [(hplaced.map (·.path)).nodup_iff]
    exact hdistinct.sublist (List.filter_sublist.map _)
  case windows =>
    obtain ⟨windows, hplace, hwalk⟩ := exists_windows layout [] 0 (small layout entries)
    refine ⟨windows.map fun w ↦ (w, flush layout w), ?_, ?_, ?_⟩
    · rw [List.flatMap_map]
      exact hplace
    · rw [List.flatMap_map, List.flatMap_id']
      exact hwalk
    · intro w hw
      obtain ⟨window, -, rfl⟩ := List.mem_map.mp hw
      exact ⟨entries_flush layout window, sorted_flush layout window⟩
  case packed =>
    intro g hg hmany
    cases hpacked g hg with
    | leaf _ _ hbytes => exact hbytes
    | large hentries =>
      rw [hentries, List.length_singleton] at hmany
      omega
  case large =>
    intro g hg e he hlarge
    cases hpacked g hg with
    | leaf _ hsmall _ => exact absurd hlarge (Int.not_lt.mpr (hsmall e he))
    | large hentries _ hlevel =>
      rw [hentries, List.mem_singleton] at he
      rw [← he] at hentries hlevel
      refine ⟨hentries, ?_⟩
      rw [hlevel]
      apply levelFor_least hleaf
      apply hfits.levels
      apply hplaced.subset
      rw [List.mem_flatMap]
      refine ⟨g, hg, ?_⟩
      rw [hentries]
      exact (.head _)
  case branching =>
    have hmax : max layout.branching 1 = layout.branching := by omega
    refine buildFrom_induction (P := fun n ↦ ∀ n' ∈ n.nodes,
      (n'.children.length : Int) ≤ layout.branching) ?_ ?_ ?_ hroot
    · intro n hn
      rw [Tally.nodes, List.mem_singleton] at hn
      rw [hn, Tally.children, List.length_nil]
      omega
    · intro kids hkids hlength n hn
      rw [Tally.nodes, List.mem_cons, Tally.nodesOf_eq, List.mem_flatMap] at hn
      rcases hn with rfl | ⟨kid, hkid, hn⟩
      · rw [Tally.children, ← hmax]
        exact hlength
      · exact hkids kid hkid n hn
    · intro p hp n hn
      obtain ⟨g, -, rfl⟩ := List.mem_map.mp hp
      rw [emit, Tally.nodes, List.mem_singleton] at hn
      rw [hn, Tally.children, List.length_nil]
      omega

/-- The construction ends, and what it makes is well formed: for every layout that joins at least
two, and entries of distinct paths and sizes that do not overflow, whatever states are carried
over. A new tree carries over none. -/
theorem layout_well_formed {layout : Layout} {entries : List Entry}
    (hbranching : 2 ≤ layout.branching) (hdistinct : (entries.map (·.path)).Nodup)
    (hsizes : ∀ e ∈ entries, 0 ≤ e.size) :
    ∃ layout', layout.withDefaults = .ok layout' ∧
      newTree entries layout = .ok (rebuild layout' entries fun _ ↦ none) ∧
      (NoOverflow layout' entries → ∀ prev, ∃ t, rebuild layout' entries prev = some t ∧
        WellFormed layout' entries prev (place layout' (small layout' entries)) t.root) := by
  cases hlayout : layout.withDefaults with
  | error m =>
    rw [Layout.withDefaults] at hlayout
    have hgiven : layout.branching ≠ 0 := by omega
    rw [if_neg hgiven, if_neg (Int.not_lt.mpr hbranching)] at hlayout
    cases hlayout
  | ok layout' =>
    obtain ⟨hleaf, hjoins⟩ := of_withDefaults hlayout
    refine ⟨layout', rfl, ?_, ?_⟩
    · rw [newTree, hlayout]
      rfl
    · intro hfits prev
      have hsome : (rebuild layout' entries prev).isSome := by
        apply rebuild_isSome hjoins
        intro e he
        obtain ⟨level, hlevel, -⟩ := levelFor_least hleaf (hfits.levels e he)
        rw [hlevel]
        rfl
      obtain ⟨t, ht⟩ := Option.isSome_iff_exists.mp hsome
      exact ⟨t, ht, wellFormed_rebuild hdistinct hsizes hleaf hjoins hfits ht⟩

/-- Two small files in leaves of their own, and a large one two levels up. -/
theorem layout_well_formed_levels : ∃ layout' t,
    newTree [⟨["a"], 3⟩, ⟨["b"], 6⟩, ⟨["c"], 20⟩] { leafBytes := 8, branching := 2 } =
        .ok (some t) ∧
      (filledLeaves t.root).map (·.map (·.entry.size)) = [[3], [6], [20]] ∧
      WellFormed layout' [⟨["a"], 3⟩, ⟨["b"], 6⟩, ⟨["c"], 20⟩] (fun _ ↦ none)
        (place layout' (small layout' [⟨["a"], 3⟩, ⟨["b"], 6⟩, ⟨["c"], 20⟩])) t.root := by
  let full : Layout := { largeFile := 2 ^ 20, leafBytes := 8, windowLeaves := 32, branching := 2 }
  obtain ⟨layout', hlayout, hnew, hformed⟩ := @layout_well_formed
    { leafBytes := 8, branching := 2 } [⟨["a"], 3⟩, ⟨["b"], 6⟩, ⟨["c"], 20⟩]
    (by decide) (by decide) (by decide)
  have hfull : layout' = full := (Except.ok.inj hlayout).symm
  rw [hfull] at hnew hformed
  have hfits : NoOverflow full [⟨["a"], 3⟩, ⟨["b"], 6⟩, ⟨["c"], 20⟩] := by
    have htwo : ∀ e ∈ small full [⟨["a"], 3⟩, ⟨["b"], 6⟩, ⟨["c"], 20⟩],
        e.size ≤ full.leafBytes * 2 ^ 2 ∧ full.leafBytes * 2 ^ 2 < 2 ^ 63 := by decide
    exact ⟨by decide, fun e he ↦ ⟨2, htwo e he⟩⟩
  obtain ⟨t, ht, hwell⟩ := hformed hfits fun _ ↦ none
  have hleaves : (rebuild full [⟨["a"], 3⟩, ⟨["b"], 6⟩, ⟨["c"], 20⟩] fun _ ↦ none).any (fun t ↦
      decide ((filledLeaves t.root).map (·.map (·.entry.size)) = [[3], [6], [20]])) = true := by
    decide +kernel
  rw [ht] at hnew hleaves
  exact ⟨full, t, hnew, of_decide_eq_true hleaves, hwell⟩

end RemoteDocker.DirCache.Fill.Tree

import Mathlib.Algebra.Order.BigOperators.Group.List
import RemoteDocker.DirCache.FillTree

/-!
# The files of the prefetch tree

What each operation of the tree does to its files, wherever they are in it. A rebuild holds the
small ones of the entries, each once, in the state it had before. Reads and sweeps mark a batch of
files stored that are in the tree, distinct and not stored (`Takes`), and return just those.
-/

namespace RemoteDocker.DirCache.Fill.Tree

open Base

/-! ### The order of sizes and paths -/

theorem bySizePath_trans {a b c : Entry} (hab : Prefetch.Tree.bySizePath a b)
    (hbc : Prefetch.Tree.bySizePath b c) : Prefetch.Tree.bySizePath a c := by
  rcases hab with hab | ⟨hab, hpath⟩
  · left
    rcases hbc with hbc | ⟨hbc, -⟩
    · omega
    · omega
  · rcases hbc with hbc | ⟨hbc, hpath'⟩
    · left
      omega
    · right
      exact ⟨hab.trans hbc, String.le_trans hpath hpath'⟩

theorem bySizePath_total (a b : Entry) :
    Prefetch.Tree.bySizePath a b ∨ Prefetch.Tree.bySizePath b a := by
  rcases Int.lt_trichotomy a.size b.size with hlt | heq | hgt
  · exact .inl (.inl hlt)
  · rcases String.le_total a.path.render b.path.render with hle | hle
    · exact .inl (.inr ⟨heq, hle⟩)
    · exact .inr (.inr ⟨heq.symm, hle⟩)
  · exact .inr (.inl hgt)

/-! ### Bytes -/

def bytesIn (entries : List Entry) : Int := (entries.map (·.size)).sum

theorem bytesIn_append (entries more : List Entry) :
    bytesIn (entries ++ more) = bytesIn entries + bytesIn more := by
  rw [bytesIn, List.map_append, List.sum_append, bytesIn, bytesIn]

theorem bytesIn_nonneg {entries : List Entry} (h : ∀ e ∈ entries, 0 ≤ e.size) :
    0 ≤ bytesIn entries := by
  apply List.sum_nonneg
  intro size hsize
  obtain ⟨e, he, rfl⟩ := List.mem_map.mp hsize
  exact h e he

theorem bytesIn_mono {entries more : List Entry} (hsub : entries.Sublist more)
    (h : ∀ e ∈ more, 0 ≤ e.size) : bytesIn entries ≤ bytesIn more := by
  apply (hsub.map _).sum_le_sum
  intro size hsize
  obtain ⟨e, he, rfl⟩ := List.mem_map.mp hsize
  exact h e he

/-! ### The layout keeps every entry -/

section Layout

variable (layout : Layout)

private theorem entries_emitLeaf (entries : List Entry) :
    (emitLeaf entries).flatMap (·.entries) = entries := by
  cases entries with
  | nil => rfl
  | cons e rest => exact List.append_nil _

theorem entries_cutFrom (cur : List Entry) (size : Int) (rest : List Entry) :
    (cutFrom layout cur size rest).flatMap (·.entries) = cur ++ rest := by
  induction rest generalizing cur size with
  | nil => rw [cutFrom, entries_emitLeaf, List.append_nil]
  | cons e rest ih =>
    rw [cutFrom]
    split
    · rw [List.flatMap_append, entries_emitLeaf, List.flatMap_cons, ih, List.nil_append,
        List.singleton_append]
    · split
      · rw [List.flatMap_append, entries_emitLeaf, ih, List.singleton_append]
      · rw [ih, List.append_assoc, List.singleton_append]

theorem entries_flush (window : List Entry) :
    ((flush layout window).flatMap (·.entries)).Perm window := by
  rw [flush, cut, entries_cutFrom, List.nil_append]
  exact List.perm_insertionSort _ _

private theorem entries_placeFrom (window : List Entry) (acc : Int) (rest : List Entry) :
    ((placeFrom layout window acc rest).flatMap (·.entries)).Perm (window ++ rest) := by
  induction rest generalizing window acc with
  | nil =>
    rw [placeFrom, List.append_nil]
    exact entries_flush layout window
  | cons e rest ih =>
    have hlist : window ++ e :: rest = (window ++ [e]) ++ rest := List.append_cons window e rest
    rw [placeFrom, hlist]
    split
    · rw [List.flatMap_append]
      exact (entries_flush layout (window ++ [e])).append (ih [] 0)
    · exact ih (window ++ [e]) _

theorem entries_place (entries : List Entry) :
    ((place layout entries).flatMap (·.entries)).Perm entries :=
  entries_placeFrom layout [] 0 entries

/-! ### The levels -/

/-- The level of a group: that of a leaf, or of some entry. -/
def LevelOf (entries : List Entry) (g : Group) : Prop :=
  g.level = some 0 ∨ ∃ e ∈ entries, g.level = levelFor layout e.size

private theorem levelOf_emitLeaf {entries cur : List Entry} {g : Group} (hg : g ∈ emitLeaf cur) :
    LevelOf layout entries g := by
  rw [emitLeaf] at hg
  split at hg
  · cases hg
  · rw [List.mem_singleton] at hg
    rw [hg]
    exact .inl rfl

private theorem LevelOf.mono {entries more : List Entry} (hsub : entries ⊆ more) {g : Group}
    (h : LevelOf layout entries g) : LevelOf layout more g := by
  rcases h with hzero | ⟨e, he, hlevel⟩
  · exact .inl hzero
  · exact .inr ⟨e, hsub he, hlevel⟩

private theorem levelOf_cutFrom (cur : List Entry) (size : Int) (rest : List Entry) :
    ∀ g ∈ cutFrom layout cur size rest, LevelOf layout rest g := by
  induction rest generalizing cur size with
  | nil =>
    intro g hg
    exact levelOf_emitLeaf layout hg
  | cons e rest ih =>
    intro g hg
    rw [cutFrom] at hg
    have hmore : rest ⊆ e :: rest := List.subset_cons_self e rest
    split at hg
    · rw [List.mem_append, List.mem_cons] at hg
      rcases hg with hg | rfl | hg
      · exact levelOf_emitLeaf layout hg
      · exact .inr ⟨e, (.head _), rfl⟩
      · exact (ih [] 0 g hg).mono layout hmore
    · split at hg
      · rcases List.mem_append.mp hg with hg | hg
        · exact levelOf_emitLeaf layout hg
        · exact (ih [e] e.size g hg).mono layout hmore
      · exact (ih _ _ g hg).mono layout hmore

private theorem levelOf_flush (window : List Entry) :
    ∀ g ∈ flush layout window, LevelOf layout window g := by
  intro g hg
  apply (levelOf_cutFrom layout [] 0 _ g hg).mono layout
  exact (List.perm_insertionSort _ window).subset

private theorem levelOf_placeFrom (window : List Entry) (acc : Int) (rest : List Entry) :
    ∀ g ∈ placeFrom layout window acc rest, LevelOf layout (window ++ rest) g := by
  induction rest generalizing window acc with
  | nil =>
    rw [placeFrom, List.append_nil]
    exact levelOf_flush layout window
  | cons e rest ih =>
    intro g hg
    rw [placeFrom] at hg
    rw [List.append_cons]
    split at hg
    · rcases List.mem_append.mp hg with hg | hg
      · exact (levelOf_flush layout _ g hg).mono layout (List.subset_append_left _ _)
      · exact (ih [] 0 g hg).mono layout (List.subset_append_right _ _)
    · exact ih _ _ g hg

private theorem levelOf_place (entries : List Entry) :
    ∀ g ∈ place layout entries, LevelOf layout entries g :=
  levelOf_placeFrom layout [] 0 entries

end Layout

variable {size : Int}

private theorem levelLoop_lt {steps level : Nat} {span : Int}
    (h : levelLoop size steps span = some level) : level < steps := by
  induction steps generalizing span level with
  | zero => cases h
  | succ steps ih =>
    rw [levelLoop] at h
    split at h
    · rw [Option.map_eq_some_iff] at h
      obtain ⟨l, hl, rfl⟩ := h
      exact Nat.succ_lt_succ (ih hl)
    · rw [Option.some.injEq] at h
      omega

theorem int64_of_range {x : Int} (hlow : -2 ^ 63 ≤ x) (hhigh : x < 2 ^ 63) : int64 x = x := by
  rw [int64]
  exact Int64.toInt_ofInt_of_le hlow hhigh

/-- A file of at most `2 ^ 62` bytes has a level: the span passes it before it can wrap. -/
theorem levelLoop_isSome (hsize : size ≤ 2 ^ 62) {steps : Nat} {span : Int}
    (hspan : 0 < span) (hsteps : size ≤ span * 2 ^ steps) :
    (levelLoop size (steps + 1) span).isSome := by
  induction steps generalizing span with
  | zero =>
    have hnot : ¬span < size := by omega
    rw [levelLoop, if_neg hnot]
    rfl
  | succ steps ih =>
    rw [levelLoop]
    split
    · next hlt =>
      have hwrap : int64 (span * 2) = span * 2 := int64_of_range (by omega) (by omega)
      rw [hwrap, Option.isSome_map]
      apply ih
      · omega
      · rw [Int.mul_assoc, ← Int.pow_succ']
        exact hsteps
    · rfl

theorem levelFor_isSome {layout : Layout} (hleaf : 0 < layout.leafBytes)
    (hsize : size ≤ 2 ^ 62) : (levelFor layout size).isSome := by
  apply levelLoop_isSome hsize hleaf
  omega

/-! ### The build keeps every file -/

section Build

variable {branching : Int}

section InOrder

/- What the nodes have below them in order, items or leaves, is not touched by the build. -/
variable {β : Type} {below : Node → List β}
  (hbelow : ∀ c kids, below (.inner c kids) = kids.flatMap below)

include hbelow

private theorem below_joined (level : Nat) (ps : List Placed) :
    (joined level ps).flatMap (below ·.node) = ps.flatMap (below ·.node) := by
  match ps with
  | [] => rfl
  | [p] => rfl
  | p :: q :: ps =>
    change [_].flatMap _ = _
    rw [List.flatMap_singleton, hbelow, List.flatMap_map]

private theorem below_pairUp (level : Nat) (cur rest : List Placed) :
    (pairUp branching level cur rest).flatMap (below ·.node) =
      (cur ++ rest).flatMap (below ·.node) := by
  induction rest generalizing cur with
  | nil => rw [pairUp, below_joined hbelow, List.append_nil]
  | cons p rest ih =>
    rw [pairUp]
    split
    · rw [List.flatMap_append, below_joined hbelow, List.flatMap_cons, ih, List.nil_append,
        List.flatMap_append, List.flatMap_cons]
    · split
      · rw [ih, List.append_assoc, List.singleton_append]
      · rw [List.flatMap_append, below_joined hbelow, ih, List.singleton_append,
          List.flatMap_append]

theorem below_buildFrom (hempty : below (.leaf 0 []) = []) {levels level : Nat}
    {items : List Placed} {root : Node} (h : buildFrom branching levels level items = some root) :
    below root = items.flatMap (below ·.node) := by
  fun_induction buildFrom branching levels level items with
  | case1 =>
    cases h
    exact hempty
  | case2 =>
    cases h
    exact (List.flatMap_singleton _ _).symm
  | case3 => cases h
  | case4 levels level items _ _ ih => rw [ih h, below_pairUp hbelow, List.nil_append]

end InOrder

variable {levels level : Nat} {items : List Placed} {p : Placed}

private theorem items_buildFrom {root : Node}
    (h : buildFrom branching levels level items = some root) :
    root.items = items.flatMap (·.node.items) := by
  have hinner : ∀ (c : Counts) (kids : List Node),
      Tally.items (.inner c kids) = kids.flatMap Tally.items := fun _ kids ↦ Tally.itemsOf_eq kids
  exact below_buildFrom hinner rfl h

/-- A node that one level of the build makes of some items: one of theirs, or one over several,
but no more than may be joined. -/
def MadeOf (branching : Int) (items : List Placed) (n : Node) : Prop :=
  (∃ p ∈ items, n = p.node) ∨
    ∃ ps : List Placed, ps ⊆ items ∧ (ps.length : Int) ≤ max branching 1 ∧
      n = .inner ((ps.map (·.node)).map Tally.count).sum (ps.map (·.node))

private theorem MadeOf.mono {more : List Placed} (hsub : items ⊆ more) {n : Node}
    (h : MadeOf branching items n) : MadeOf branching more n := by
  rcases h with ⟨p, hp, hn⟩ | ⟨ps, hps, hlength, hn⟩
  · exact .inl ⟨p, hsub hp, hn⟩
  · exact .inr ⟨ps, fun p hp ↦ hsub (hps hp), hlength, hn⟩

private theorem of_mem_joined {ps : List Placed} (hlength : (ps.length : Int) ≤ max branching 1)
    (hp : p ∈ joined level ps) :
    p.level = level + 1 ∧ MadeOf branching ps p.node := by
  match ps with
  | [] => cases hp
  | [q] =>
    rw [joined, List.mem_singleton] at hp
    rw [hp]
    exact ⟨rfl, .inl ⟨q, (.head _), rfl⟩⟩
  | q :: r :: ps =>
    rw [List.mem_singleton.mp hp]
    exact ⟨rfl, .inr ⟨_, List.Subset.refl _, hlength, rfl⟩⟩

/-- What one level leaves: items above it, and what it makes of the others. -/
theorem of_mem_pairUp {cur rest : List Placed} (hcur : (cur.length : Int) ≤ max branching 1)
    (hp : p ∈ pairUp branching level cur rest) :
    p ∈ rest ∨ p.level = level + 1 ∧ MadeOf branching (cur ++ rest) p.node := by
  induction rest generalizing cur with
  | nil =>
    rw [List.append_nil]
    exact .inr (of_mem_joined hcur hp)
  | cons q rest ih =>
    have hrest : rest ⊆ cur ++ q :: rest := by simp
    have hnone : (([] : List Placed).length : Int) ≤ max branching 1 := by
      rw [List.length_nil]
      omega
    have hone : (([q] : List Placed).length : Int) ≤ max branching 1 := by
      rw [List.length_singleton]
      omega
    rw [pairUp] at hp
    split at hp
    · rw [List.mem_append, List.mem_cons] at hp
      rcases hp with hp | rfl | hp
      · obtain ⟨hlevel, hmade⟩ := of_mem_joined hcur hp
        exact .inr ⟨hlevel, hmade.mono (List.subset_append_left _ _)⟩
      · exact .inl (.head _)
      · rcases ih hnone hp with hp | ⟨hlevel, hmade⟩
        · exact .inl (.tail _ hp)
        · exact .inr ⟨hlevel, hmade.mono hrest⟩
    · split at hp
      · next hless =>
        have hmore : ((cur ++ [q]).length : Int) ≤ max branching 1 := by
          rw [List.length_append, List.length_singleton]
          omega
        rcases ih hmore hp with hp | ⟨hlevel, hmade⟩
        · exact .inl (.tail _ hp)
        · rw [List.append_assoc, List.singleton_append] at hmade
          exact .inr ⟨hlevel, hmade⟩
      · rcases List.mem_append.mp hp with hp | hp
        · obtain ⟨hlevel, hmade⟩ := of_mem_joined hcur hp
          exact .inr ⟨hlevel, hmade.mono (List.subset_append_left _ _)⟩
        · rcases ih hone hp with hp | ⟨hlevel, hmade⟩
          · exact .inl (.tail _ hp)
          · exact .inr ⟨hlevel, hmade.mono (List.subset_append_right _ _)⟩

private theorem of_mem_pairUp_nil (hp : p ∈ pairUp branching level [] items) :
    p ∈ items ∨ p.level = level + 1 ∧ MadeOf branching items p.node := by
  apply of_mem_pairUp _ hp
  rw [List.length_nil]
  omega

/-- What holds of the items, and of a node over such nodes, holds of what is built. -/
theorem buildFrom_induction {P : Node → Prop} (hempty : P (.leaf 0 []))
    (hinner : ∀ kids : List Node, (∀ kid ∈ kids, P kid) → (kids.length : Int) ≤ max branching 1 →
      P (.inner (kids.map Tally.count).sum kids)) (hitems : ∀ p ∈ items, P p.node) {root : Node}
    (h : buildFrom branching levels level items = some root) : P root := by
  fun_induction buildFrom branching levels level items with
  | case1 =>
    cases h
    exact hempty
  | case2 _ _ p =>
    cases h
    exact hitems p (.head _)
  | case3 => cases h
  | case4 levels level items _ _ ih =>
    apply ih _ h
    intro p hp
    rcases of_mem_pairUp_nil hp with hp | ⟨-, ⟨q, hq, hn⟩ | ⟨ps, hps, hlength, hn⟩⟩
    · exact hitems p hp
    · rw [hn]
      exact hitems q hq
    · rw [hn]
      apply hinner
      · intro kid hkid
        obtain ⟨q, hq, rfl⟩ := List.mem_map.mp hkid
        exact hitems q (hps hq)
      · rw [List.length_map]
        exact hlength

/-! ### The build ends -/

private theorem length_joined (level : Nat) (ps : List Placed) :
    (joined level ps).length = min ps.length 1 := by
  match ps with
  | [] => rfl
  | [p] => rfl
  | p :: q :: ps =>
    change 1 = min (ps.length + 1 + 1) 1
    omega

private theorem length_pairUp_le (branching : Int) (level : Nat) (cur rest : List Placed) :
    (pairUp branching level cur rest).length ≤ min cur.length 1 + rest.length := by
  induction rest generalizing cur with
  | nil => rw [pairUp, length_joined, List.length_nil, Nat.add_zero]
  | cons p rest ih =>
    rw [pairUp]
    split
    · have hrest := ih []
      simp only [List.length_append, List.length_cons, length_joined, List.length_nil] at hrest ⊢
      omega
    · split
      · have hrest := ih (cur ++ [p])
        simp only [List.length_append, List.length_cons, List.length_nil] at hrest ⊢
        omega
      · have hrest := ih [p]
        simp only [List.length_append, List.length_cons, length_joined, List.length_nil] at hrest ⊢
        omega

variable (hbranching : 2 ≤ branching)

include hbranching

private theorem length_pairUp_lt (cur : List Placed)
    {rest : List Placed} (hlevels : ∀ p ∈ rest, p.level ≤ level)
    (htwo : 2 ≤ cur.length + rest.length) :
    (pairUp branching level cur rest).length < cur.length + rest.length := by
  induction rest generalizing cur with
  | nil =>
    rw [pairUp, length_joined]
    rw [List.length_nil] at htwo
    omega
  | cons p rest ih =>
    have hp : ¬level < p.level := Nat.not_lt.mpr (hlevels p (.head _))
    have hrest : ∀ q ∈ rest, q.level ≤ level := fun q hq ↦ hlevels q (.tail _ hq)
    rw [pairUp, if_neg hp]
    split
    · have hless := ih (cur ++ [p]) hrest
      simp only [List.length_append, List.length_cons, List.length_nil] at hless htwo ⊢
      omega
    · have hle := length_pairUp_le branching level [p] rest
      simp only [List.length_append, List.length_cons, length_joined, List.length_nil] at hle htwo ⊢
      omega

/-- A level is enough for each item and for each level above the first. -/
theorem buildFrom_isSome (above : Nat) (hlevels : ∀ p ∈ items, p.level ≤ level + above)
    (henough : items.length + above ≤ levels) :
    (buildFrom branching levels level items).isSome := by
  fun_induction buildFrom branching levels level items generalizing above with
  | case1 => rfl
  | case2 => rfl
  | case3 level items hnil hone =>
    have hempty : items = [] := List.length_eq_zero_iff.mp (by omega)
    exact absurd hempty hnil
  | case4 levels level items hnil hone ih =>
    have htwo : 2 ≤ items.length := by
      match items with
      | [] => exact absurd rfl hnil
      | [p] => exact absurd rfl (hone p)
      | p :: q :: ps =>
        simp only [List.length_cons]
        omega
    cases above with
    | zero =>
      rw [Nat.add_zero] at hlevels
      have hfewer := length_pairUp_lt hbranching [] hlevels (by simpa using htwo)
      apply ih 0
      · intro p hp
        rcases of_mem_pairUp_nil hp with hp | ⟨hlevel, -⟩
        · exact Nat.le_succ_of_le (hlevels p hp)
        · exact Nat.le_of_eq hlevel
      · rw [List.length_nil, Nat.zero_add] at hfewer
        omega
    | succ above =>
      have hle := length_pairUp_le branching level [] items
      apply ih above
      · intro p hp
        rcases of_mem_pairUp_nil hp with hp | ⟨hlevel, -⟩
        · have hold := hlevels p hp
          omega
        · omega
      · rw [List.length_nil] at hle
        omega

private theorem build_isSome
    (hlevels : ∀ p ∈ items, p.level ≤ 64) : (build branching items).isSome := by
  apply buildFrom_isSome hbranching 64
  · intro p hp
    rw [Nat.zero_add]
    exact hlevels p hp
  · exact Nat.le_refl _

end Build

/-! ### The files of a rebuilt tree -/

/-- The entries a tree holds: a larger file is left to the network. -/
def small (layout : Layout) (entries : List Entry) : List Entry :=
  entries.filter fun e ↦ decide (e.size ≤ layout.largeFile)

section Rebuild

variable {layout : Layout} {entries : List Entry} {prev : SharePath → Option File} {t : Tree}

theorem of_rebuild (h : rebuild layout entries prev = some t) :
    t.layout = layout ∧ t.entries = entries ∧
      build layout.branching ((place layout (small layout entries)).map fun g ↦
        { node := emit prev g.entries, level := g.level.getD 0 }) = some t.root := by
  rw [rebuild] at h
  split at h
  · rw [Option.map_eq_some_iff] at h
    obtain ⟨root, hroot, rfl⟩ := h
    exact ⟨rfl, rfl, hroot⟩
  · cases h

/-- A rebuilt tree holds the small entries, each once, in the state that is carried over. -/
theorem items_rebuild (h : rebuild layout entries prev = some t) :
    t.root.items.Perm ((small layout entries).map (carried prev)) := by
  obtain ⟨-, -, hroot⟩ := of_rebuild h
  have hitems := items_buildFrom hroot
  rw [List.flatMap_map] at hitems
  have hleaf : ∀ g ∈ place layout (small layout entries),
      (emit prev g.entries).items = g.entries.map (carried prev) := fun _ _ ↦ rfl
  rw [hitems, List.flatMap_congr hleaf, ← List.map_flatMap]
  exact (entries_place layout _).map _

/-- A rebuild returns where each small file has a level. -/
theorem rebuild_isSome (hbranching : 2 ≤ layout.branching)
    (hfound : ∀ e ∈ small layout entries, (levelFor layout e.size).isSome) :
    (rebuild layout entries prev).isSome := by
  have hlevels : (place layout (small layout entries)).all (·.level.isSome) = true := by
    rw [List.all_eq_true]
    intro g hg
    rcases levelOf_place layout _ g hg with hzero | ⟨e, he, hlevel⟩
    · rw [hzero]
      rfl
    · rw [hlevel]
      exact hfound e he
  rw [rebuild]
  split
  · rw [Option.isSome_map]
    apply build_isSome hbranching
    intro p hp
    obtain ⟨g, hg, rfl⟩ := List.mem_map.mp hp
    change g.level.getD 0 ≤ 64
    rcases levelOf_place layout _ g hg with hzero | ⟨e, -, hlevel⟩
    · rw [hzero]
      exact Nat.zero_le 64
    · rw [hlevel]
      cases hfound : levelFor layout e.size with
      | none => exact Nat.zero_le 64
      | some level => exact Nat.le_of_lt_succ (levelLoop_lt hfound)
  · next hnot => exact absurd hlevels hnot

end Rebuild

/-! ### One file changed -/

@[simp] theorem path_store (f : File) : f.store.path = f.path := rfl

@[simp] theorem path_unstore (f : File) : f.unstore.path = f.path := rfl

@[simp] theorem path_note (n : Int) (f : File) : (f.note n).path = f.path := rfl

@[simp] theorem entry_unstore (f : File) : f.unstore.entry = f.entry := rfl

@[simp] theorem entry_note (n : Int) (f : File) : (f.note n).entry = f.entry := rfl

variable {g : File → File} {root : Node} {path : SharePath} {f : File} {files : List File}
  {c : Climbed} {t t' : Tree} {entries : List Entry} {layout : Layout}

theorem find?_map_of_path (hg : ∀ f, (g f).path = f.path) (files : List File)
    (path : SharePath) : (files.map g).find? (fun f ↦ decide (f.path = path)) =
      (files.find? fun f ↦ decide (f.path = path)).map g := by
  rw [List.find?_map]
  simp only [Function.comp_def, hg]

theorem lookup_eq_some (h : lookup root path = some f) : f ∈ root.items ∧ f.path = path := by
  rw [lookup] at h
  have hpath := List.find?_some h
  exact ⟨List.mem_of_find?_eq_some h, of_decide_eq_true hpath⟩

theorem lookup_of_mem (hpaths : (root.items.map File.path).Nodup)
    (hf : f ∈ root.items) : lookup root f.path = some f := by
  cases hfound : lookup root f.path with
  | none =>
    have hno := List.find?_eq_none.mp hfound f hf
    simp at hno
  | some g =>
    obtain ⟨hg, hpath⟩ := lookup_eq_some hfound
    rw [List.inj_on_of_nodup_map hpaths hg hf hpath]

/-- The files of the paths, stored. -/
def storeAt (paths : List SharePath) (f : File) : File := if f.path ∈ paths then f.store else f

theorem path_storeAt (paths : List SharePath) (f : File) : (storeAt paths f).path = f.path := by
  rw [storeAt]
  split
  · rfl
  · rfl

theorem items_markStored (root : Node) (f : File) :
    (markStored root f).items = root.items.map (Tally.change File.path f.path File.store) :=
  Tally.items_update _ _ _ _ _

/-- Marking files stored changes these alone. -/
theorem items_foldl_markStored (files : List File) (root : Node) :
    (files.foldl markStored root).items = root.items.map (storeAt (files.map File.path)) := by
  induction files generalizing root with
  | nil =>
    have hsame : ∀ a ∈ root.items, storeAt [] a = id a := fun a _ ↦ if_neg List.not_mem_nil
    rw [List.foldl_nil, List.map_nil, List.map_congr_left hsame, List.map_id]
  | cons f files ih =>
    rw [List.foldl_cons, ih, items_markStored, List.map_map]
    apply List.map_congr_left
    intro a ha
    rw [Function.comp_apply, List.map_cons]
    by_cases hf : a.path = f.path
    · have hchange : Tally.change File.path f.path File.store a = a.store := if_pos hf
      have hmem : a.path ∈ f.path :: files.map File.path := by
        rw [hf]
        exact (.head _)
      rw [hchange, storeAt, storeAt, if_pos hmem]
      split
      · rfl
      · rfl
    · have hchange : Tally.change File.path f.path File.store a = a := if_neg hf
      rw [hchange, storeAt, storeAt]
      by_cases hmem : a.path ∈ files.map File.path
      · rw [if_pos hmem, if_pos (List.mem_cons_of_mem f.path hmem)]
      · rw [if_neg hmem, if_neg (List.not_mem_cons_of_ne_of_not_mem hf hmem)]

/-! ### What is taken -/

/-- A batch that may be taken: files of the tree, distinct, and not stored. -/
structure Takes (root : Node) (files : List File) : Prop where
  paths : (files.map File.path).Nodup
  mem : ∀ f ∈ files, f ∈ root.items
  unstored : ∀ f ∈ files, f.stored = false

private theorem Takes.nil (root : Node) : Takes root [] where
  paths := List.nodup_nil
  mem := nofun
  unstored := nofun

private theorem Takes.append {more : List File} (h : Takes root files)
    (hmore : Takes (files.foldl markStored root) more) : Takes root (files ++ more) := by
  -- a file that is not stored after the batch was not in it, and is as it was
  have hold : ∀ f ∈ more, f ∈ root.items ∧ f.path ∉ files.map File.path := by
    intro f hf
    have hmem := hmore.mem f hf
    rw [items_foldl_markStored, List.mem_map] at hmem
    obtain ⟨a, ha, rfl⟩ := hmem
    have hstored := hmore.unstored _ hf
    rw [path_storeAt]
    rw [storeAt] at hstored ⊢
    split at hstored
    · cases hstored
    · next hnot =>
      rw [if_neg hnot]
      exact ⟨ha, hnot⟩
  constructor
  · rw [List.map_append, List.nodup_append]
    refine ⟨h.paths, hmore.paths, ?_⟩
    rintro path hpath path' hpath' rfl
    obtain ⟨f, hf, rfl⟩ := List.mem_map.mp hpath'
    exact (hold f hf).2 hpath
  · intro f hf
    rcases List.mem_append.mp hf with hf | hf
    · exact h.mem f hf
    · exact (hold f hf).1
  · intro f hf
    rcases List.mem_append.mp hf with hf | hf
    · exact h.unstored f hf
    · exact hmore.unstored f hf

theorem takes_fetch {n : Node} (hpaths : (root.items.map File.path).Nodup)
    (hn : n ∈ root.nodes) : Takes root (n.stackItems.filter (!·.stored)) := by
  have hperm := Tally.stackItems_perm n
  have hsub := Tally.items_sublist hn
  constructor
  · have hbelow : (n.stackItems.map File.path).Nodup :=
      ((hperm.map File.path).nodup_iff).mpr (hpaths.sublist (hsub.map File.path))
    exact hbelow.sublist (List.filter_sublist.map File.path)
  · intro f hf
    exact hsub.subset (hperm.subset (List.mem_filter.mp hf).1)
  · intro f hf
    simpa using (List.mem_filter.mp hf).2

theorem paths_map (hg : ∀ f, (g f).path = f.path) (files : List File) :
    (files.map g).map File.path = files.map File.path := by
  rw [List.map_map]
  exact List.map_congr_left fun f _ ↦ hg f

theorem paths_foldl_markStored (hpaths : (root.items.map File.path).Nodup)
    (files : List File) : ((files.foldl markStored root).items.map File.path).Nodup := by
  rw [items_foldl_markStored, paths_map (path_storeAt _)]
  exact hpaths

def Under (nodes : List Node) (path : SharePath) : Prop :=
  ∃ n ∈ nodes, path ∈ n.items.map File.path

/-- What a climb does: it takes just the unstored files under the nodes it promotes. -/
structure Climbs (c c' : Climbed) (files : List File) (nodes : List Node) : Prop where
  takes : Takes c.root files
  under : ∀ f ∈ c.root.items, f.stored = false →
    (f.path ∈ files.map File.path ↔ Under nodes f.path)
  root : c'.root = files.foldl markStored c.root
  out : c'.out = c.out ++ files.map (·.entry)
  promoted : c'.promoted = c.promoted ++ nodes

private theorem Climbs.nil (c : Climbed) : Climbs c c [] [] where
  takes := Takes.nil c.root
  under f hf hstored := by simp [Under]
  root := rfl
  out := (List.append_nil _).symm
  promoted := (List.append_nil _).symm

private theorem climbs_fetch (hpaths : (c.root.items.map File.path).Nodup) {n : Node}
    (hn : n ∈ c.root.nodes) : Climbs c
      { root := (fetch c.root n).1, out := c.out ++ (fetch c.root n).2
        promoted := c.promoted ++ [n] } (n.stackItems.filter (!·.stored)) [n] where
  takes := takes_fetch hpaths hn
  under f hf hstored := by
    have hperm := Tally.stackItems_perm n
    simp only [Under, List.mem_singleton, exists_eq_left]
    constructor
    · intro hmem
      obtain ⟨g, hg, hpath⟩ := List.mem_map.mp hmem
      rw [← hpath]
      exact List.mem_map_of_mem (hperm.subset (List.mem_filter.mp hg).1)
    · intro hmem
      obtain ⟨g, hg, hpath⟩ := List.mem_map.mp hmem
      have hsame : g = f :=
        List.inj_on_of_nodup_map hpaths ((Tally.items_sublist hn).subset hg) hf hpath
      rw [← hsame] at hstored ⊢
      apply List.mem_map_of_mem
      rw [List.mem_filter, hperm.mem_iff, hstored]
      exact ⟨hg, rfl⟩
  root := rfl
  out := rfl
  promoted := rfl

private theorem Climbs.trans {c' c'' : Climbed} {more : List File} {nodes above : List Node}
    (h : Climbs c c' files nodes) (hmore : Climbs c' c'' more above) :
    Climbs c c'' (files ++ more) (nodes ++ above) where
  takes := h.takes.append (h.root ▸ hmore.takes)
  under f hf hstored := by
    have hor : Under (nodes ++ above) f.path ↔ Under nodes f.path ∨ Under above f.path := by
      simp only [Under, List.mem_append, or_and_right, exists_or]
    rw [List.map_append, List.mem_append, hor, h.under f hf hstored]
    by_cases hfirst : Under nodes f.path
    · simp only [hfirst, true_or]
    · -- a file that was not fetched is as it was
      have hnot : f.path ∉ files.map File.path := fun hmem ↦
        hfirst ((h.under f hf hstored).mp hmem)
      have hsame : f ∈ c'.root.items := by
        rw [h.root, items_foldl_markStored, List.mem_map]
        exact ⟨f, hf, if_neg hnot⟩
      simp only [hfirst, false_or]
      exact hmore.under f hsame hstored
  root := by rw [hmore.root, h.root, List.foldl_append]
  out := by rw [hmore.out, h.out, List.map_append, List.append_assoc]
  promoted := by rw [hmore.promoted, h.promoted, List.append_assoc]

theorem climbs_climb (promote : Node → Bool) (limit : Int) (path : SharePath)
    (left height : Nat) (total : Int) (hpaths : (c.root.items.map File.path).Nodup) :
    ∃ files nodes, Climbs c (climb promote limit path left height total c) files nodes := by
  induction left generalizing height total c with
  | zero => exact ⟨[], [], Climbs.nil c⟩
  | succ left ih =>
    rw [climb]
    split
    · exact ⟨[], [], Climbs.nil c⟩
    · next n hn =>
      split
      · exact ih _ _ hpaths
      · split
        · exact ⟨[], [], Climbs.nil c⟩
        · split
          · exact ih _ _ hpaths
          · have hnode := Tally.mem_nodes_of_mem_chain File.path path c.root n
              (List.mem_of_getElem? hn)
            have hfirst := climbs_fetch hpaths hnode
            have hpaths' := paths_foldl_markStored hpaths (n.stackItems.filter (!·.stored))
            obtain ⟨more, above, hmore⟩ := ih (height + 1)
              (int64 (total + ((fetch c.root n).2.map (·.size)).sum)) (c := {
                root := (fetch c.root n).1, out := c.out ++ (fetch c.root n).2
                promoted := c.promoted ++ [n] }) hpaths'
            exact ⟨_, _, hfirst.trans hmore⟩

theorem items_noteRead (root : Node) (f : File) (n : Int) :
    (noteRead root f n).items = root.items.map (Tally.change File.path f.path (File.note n)) :=
  Tally.items_update _ _ _ _ _

theorem path_change (hg : ∀ f, (g f).path = f.path) (path : SharePath)
    (f : File) : (Tally.change File.path path g f).path = f.path := by
  rw [Tally.change]
  split
  · exact hg f
  · rfl

theorem stored_change_note (path : SharePath) (n : Int) (f : File) :
    (Tally.change File.path path (File.note n) f).stored = f.stored := by
  rw [Tally.change]
  split
  · rfl
  · rfl

theorem paths_noteRead (hpaths : (root.items.map File.path).Nodup) (f : File)
    (n : Int) : ((noteRead root f n).items.map File.path).Nodup := by
  rw [items_noteRead, paths_map (path_change (path_note n) f.path)]
  exact hpaths

private theorem read_of_unstored (hpaths : (t.root.items.map File.path).Nodup)
    {promote : Node → Bool} {limit : Int} {n : Int}
    (hf : lookup t.root path = some f) (hstored : f.stored = false) :
    ∃ files, Takes (noteRead t.root f n) files ∧ t.read promote limit path n =
        ({ t with root := files.foldl markStored (noteRead t.root f n) }, files.map (·.entry)) := by
  obtain ⟨files, nodes, hclimbs⟩ := climbs_climb promote limit f.path
    ((noteRead t.root f n).chain File.path f.path).length 0 0
    (c := { root := noteRead t.root f n }) (paths_noteRead hpaths f n)
  refine ⟨files, hclimbs.takes, ?_⟩
  have hroot := hclimbs.root
  have hout := hclimbs.out
  rw [List.nil_append] at hout
  simp only [read, hf, hstored, Bool.false_eq_true, if_false, readClimb, hroot, hout]

theorem takeWithin_isPrefix (maxBytes maxFiles : Int) (taken : Nat) (size : Int)
    (files : List File) : takeWithin maxBytes maxFiles taken size files <+: files := by
  induction files generalizing taken size with
  | nil => exact List.nil_prefix
  | cons f files ih =>
    rw [takeWithin]
    split
    · exact List.nil_prefix
    · exact List.prefix_cons_inj f |>.mpr (ih _ _)

theorem mem_candidates : f ∈ candidates root ↔ f ∈ root.items ∧ f.stored = false := by
  rw [candidates, List.mem_insertionSort, List.mem_filter, (Tally.stackItems_perm root).mem_iff,
    Bool.not_eq_true']

theorem takes_candidates (hpaths : (root.items.map File.path).Nodup)
    (hfiles : files <+: candidates root) : Takes root files := by
  have hall := takes_fetch hpaths (Tally.self_mem_nodes root)
  have hperm := List.perm_insertionSort
    (fun f g : File ↦ Prefetch.Tree.bySizePath f.entry g.entry)
    (root.stackItems.filter (!·.stored))
  constructor
  · have hsorted : ((candidates root).map File.path).Nodup :=
      (hperm.map File.path).nodup_iff.mpr hall.paths
    exact hsorted.sublist (hfiles.sublist.map File.path)
  · intro f hf
    exact (mem_candidates.mp (hfiles.subset hf)).1
  · intro f hf
    exact (mem_candidates.mp (hfiles.subset hf)).2

/-! ### What an operation does -/

/-- Every operation, with what it needs: one that leaves the tree alone returns nothing. -/
inductive Does (t : Tree) : Op → Tree → List Entry → Prop
  | add {entries : List Entry} {t' : Tree} (h : t.add entries = some t') :
      Does t (.add entries) t' []
  | nothing (op : Op) : Does t op t []
  | read (promote : Node → Bool) (limit : Int) {path : SharePath} (n : Int) {f : File}
      (hf : lookup t.root path = some f) (hstored : f.stored = false) {files : List File}
      (htakes : Takes (noteRead t.root f n) files) :
      Does t (.read promote limit path n)
        { t with root := files.foldl markStored (noteRead t.root f n) } (files.map (·.entry))
  | unstored {maxBytes maxFiles : Int} {files : List File} (hfiles : files <+: candidates t.root)
      (htakes : Takes t.root files) :
      Does t (.unstored maxBytes maxFiles) { t with root := files.foldl markStored t.root }
        (files.map (·.entry))
  | markSent {path : SharePath} {f : File} (hf : lookup t.root path = some f)
      (hstored : f.stored = false) :
      Does t (.markSent path) { t with root := markStored t.root f } []
  | unstore (entries : List Entry) : Does t (.unstore entries) (t.unstore entries) []
  | setLink (link : Link) : Does t (.setLink link) (t.setLink link) []

/-- An operation is one of the steps of `Does`. -/
theorem does_of_apply {op : Op} {out : List Entry}
    (hpaths : (t.root.items.map File.path).Nodup) (h : t.apply op = some (t', out)) :
    Does t op t' out := by
  cases op with
  | add entries =>
    rw [apply, Option.map_eq_some_iff] at h
    obtain ⟨s, hs, heq⟩ := h
    cases heq
    exact .add hs
  | read promote limit path n =>
    rw [apply, Option.some.injEq] at h
    cases hf : lookup t.root path with
    | none =>
      rw [read, hf] at h
      cases h
      exact .nothing _
    | some f =>
      cases hstored : f.stored with
      | true =>
        simp only [read, hf, hstored, if_true] at h
        cases h
        exact .nothing _
      | false =>
        obtain ⟨files, htakes, heq⟩ := read_of_unstored hpaths hf hstored
        rw [heq] at h
        cases h
        exact .read promote limit n hf hstored htakes
  | unstored maxBytes maxFiles =>
    rw [apply, Option.some.injEq, unstored] at h
    split at h
    · cases h
      exact .nothing _
    · cases h
      have hfiles := takeWithin_isPrefix maxBytes maxFiles 0 0 (candidates t.root)
      exact .unstored hfiles (takes_candidates hpaths hfiles)
  | markSent path =>
    rw [apply, Option.some.injEq, markSent] at h
    cases hf : lookup t.root path with
    | none =>
      rw [hf] at h
      cases h
      exact .nothing _
    | some f =>
      simp only [hf] at h
      cases hstored : f.stored with
      | true =>
        rw [hstored, if_pos rfl] at h
        cases h
        exact .nothing _
      | false =>
        rw [hstored, if_neg Bool.false_ne_true] at h
        cases h
        exact .markSent hf hstored
  | unstore entries =>
    cases h
    exact .unstore entries
  | setLink link =>
    cases h
    exact .setLink link

/-! ### The tree holds its small entries -/

/-- The tree holds the small ones of its entries, whose paths are distinct, and its layout has
its defaults. -/
structure Held (t : Tree) : Prop where
  distinct : (t.entries.map (·.path)).Nodup
  held : (t.root.items.map (·.entry)).Perm (small t.layout t.entries)
  leafBytes : 0 < t.layout.leafBytes
  branching : 2 ≤ t.layout.branching

theorem Held.paths (h : Held t) : (t.root.items.map File.path).Nodup := by
  have hperm := h.held.map (·.path)
  rw [List.map_map] at hperm
  exact hperm.nodup_iff.mpr (h.distinct.sublist (List.filter_sublist.map _))

private theorem map_entry_of (hg : ∀ f, (g f).entry = f.entry) (files : List File) :
    (files.map g).map (·.entry) = files.map (·.entry) := by
  rw [List.map_map]
  exact List.map_congr_left fun f _ ↦ hg f

theorem entry_change (hg : ∀ f, (g f).entry = f.entry) (path : SharePath)
    (f : File) : (Tally.change File.path path g f).entry = f.entry := by
  rw [Tally.change]
  split
  · exact hg f
  · rfl

private theorem entry_storeAt (paths : List SharePath) (f : File) :
    (storeAt paths f).entry = f.entry := by
  rw [storeAt]
  split
  · rfl
  · rfl

theorem entries_foldl_markStored (files : List File) (root : Node) :
    (files.foldl markStored root).items.map (·.entry) = root.items.map (·.entry) := by
  rw [items_foldl_markStored]
  exact map_entry_of (entry_storeAt _) _

theorem entries_noteRead (root : Node) (f : File) (n : Int) :
    (noteRead root f n).items.map (·.entry) = root.items.map (·.entry) := by
  rw [items_noteRead]
  exact map_entry_of (entry_change (entry_note n) f.path) _

private theorem entries_unstoreOne (root : Node) (e : Entry) :
    (unstoreOne root e).items.map (·.entry) = root.items.map (·.entry) := by
  rw [unstoreOne]
  split
  · rfl
  · split
    · rw [Tally.items_update]
      exact map_entry_of (entry_change entry_unstore e.path) _
    · rfl

theorem held_unstoreOne {e : Entry}
    (h : ∀ e' ∈ entries, ∀ f ∈ root.items, f.path = e'.path → f.entry = e') :
    ∀ e' ∈ entries, ∀ f ∈ (unstoreOne root e).items, f.path = e'.path → f.entry = e' := by
  intro e' he' f hf hpath
  have hentry : f.entry ∈ root.items.map (·.entry) := by
    rw [← entries_unstoreOne root e]
    exact List.mem_map_of_mem hf
  obtain ⟨a, ha, heq⟩ := List.mem_map.mp hentry
  rw [← heq]
  apply h e' he' a ha
  rw [← hpath]
  exact congrArg (·.path) heq

private theorem entries_unstore (entries : List Entry) (root : Node) :
    (entries.foldl unstoreOne root).items.map (·.entry) = root.items.map (·.entry) := by
  induction entries generalizing root with
  | nil => rfl
  | cons e entries ih => rw [List.foldl_cons, ih, entries_unstoreOne]

private theorem entry_carried (prev : SharePath → Option File) (e : Entry) :
    (carried prev e).entry = e := by
  rw [carried]
  split
  · rfl
  · rfl

theorem Held.rebuild {prev : SharePath → Option File} (hdistinct : (entries.map (·.path)).Nodup)
    (hleaf : 0 < layout.leafBytes)
    (hbranching : 2 ≤ layout.branching) (h : rebuild layout entries prev = some t) : Held t := by
  obtain ⟨hlayout, hentries, -⟩ := of_rebuild h
  have hperm := (items_rebuild h).map (·.entry)
  have hcarried : ∀ e ∈ small layout entries, ((·.entry) ∘ carried prev) e = id e :=
    fun e _ ↦ entry_carried prev e
  rw [List.map_map, List.map_congr_left hcarried, List.map_id] at hperm
  constructor
  · rw [hentries]
    exact hdistinct
  · rw [hlayout, hentries]
    exact hperm
  · rw [hlayout]
    exact hleaf
  · rw [hlayout]
    exact hbranching

private theorem Held.of_entries (h : Held t)
    (hroot : root.items.map (·.entry) = t.root.items.map (·.entry)) : Held { t with root } where
  distinct := h.distinct
  held := by
    rw [hroot]
    exact h.held
  leafBytes := h.leafBytes
  branching := h.branching

def Distinct (t : Tree) : Op → Prop
  | .add entries => ((t.entries ++ entries).map (·.path)).Nodup
  | _ => True

theorem Held.does {op : Op} {out : List Entry} (h : Held t) (hop : Distinct t op)
    (hdoes : Does t op t' out) : Held t' := by
  cases hdoes with
  | add hadd => exact Held.rebuild hop h.leafBytes h.branching hadd
  | nothing => exact h
  | read promote limit n hf hstored htakes =>
    apply h.of_entries
    rw [entries_foldl_markStored, entries_noteRead]
  | unstored hfiles htakes => exact h.of_entries (entries_foldl_markStored _ _)
  | markSent hf hstored => exact h.of_entries (entries_foldl_markStored [_] _)
  | unstore entries => exact h.of_entries (entries_unstore entries _)
  | setLink link => exact ⟨h.distinct, h.held, h.leafBytes, h.branching⟩

/-- A layout with its defaults cuts leaves of some size and joins at least two. -/
theorem of_withDefaults {layout' : Layout} (h : layout.withDefaults = .ok layout') :
    0 < layout'.leafBytes ∧ 2 ≤ layout'.branching := by
  rw [Layout.withDefaults] at h
  generalize (if layout.branching = 0 then (2 : Int) else layout.branching) = branching at h
  split at h
  · cases h
  · next hbranching =>
    cases h
    refine ⟨?_, Int.not_lt.mp hbranching⟩
    dsimp only
    split
    · decide
    · omega

theorem of_newTree (h : newTree entries layout = .ok (some t)) :
    ∃ layout', layout.withDefaults = .ok layout' ∧
      rebuild layout' entries (fun _ ↦ none) = some t := by
  rw [newTree] at h
  cases hlayout : layout.withDefaults with
  | error m =>
    rw [hlayout] at h
    cases h
  | ok layout' =>
    rw [hlayout] at h
    exact ⟨layout', rfl, Except.ok.inj h⟩

theorem Held.newTree (hdistinct : (entries.map (·.path)).Nodup)
    (h : newTree entries layout = .ok (some t)) : Held t := by
  obtain ⟨layout', hlayout, hrebuild⟩ := of_newTree h
  obtain ⟨hleaf, hbranching⟩ := of_withDefaults hlayout
  exact Held.rebuild hdistinct hleaf hbranching hrebuild

/-- Adding files leaves every other as it was. -/
theorem lookup_add (h : Held t)
    (hdistinct : Distinct t (.add entries)) (hadd : t.add entries = some t')
    (hf : lookup t.root path = some f) : lookup t'.root path = some f := by
  obtain ⟨hmem, rfl⟩ := lookup_eq_some hf
  have hsmall : f.entry ∈ small t.layout (t.entries ++ entries) := by
    have hold := h.held.subset (List.mem_map_of_mem hmem)
    rw [small, List.mem_filter] at hold ⊢
    exact ⟨List.mem_append_left _ hold.1, hold.2⟩
  have hcarried : carried (lookup t.root) f.entry = f := by
    have hfound : lookup t.root f.entry.path = some f := hf
    rw [carried, hfound]
  have hitem : f ∈ t'.root.items := by
    rw [(items_rebuild hadd).mem_iff, ← hcarried]
    exact List.mem_map_of_mem hsmall
  exact lookup_of_mem (Held.rebuild hdistinct h.leafBytes h.branching hadd).paths hitem

end RemoteDocker.DirCache.Fill.Tree

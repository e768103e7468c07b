import RemoteDocker.DirCache.FillFiles

/-!
# The prefetch tree's counters are its files

The counters change along the nodes above a file whenever the file's state does, by what the file
then adds to them (`Fair.update`), and a rebuild adds them up again. So they count the files below,
modulo `2 ^ 64`, as long as what has been read of a file does not wrap: `Read` adds before it caps,
and a sum of `2 ^ 63` or more becomes a negative number of bytes read (`read_wraps`).
-/

namespace RemoteDocker.DirCache.Fill.Tree

open Base

/-- What a file adds to the counters above it. -/
def File.counts (f : File) : Counts where
  bytes := Int64.ofInt f.entry.size
  files := 1
  fetched := if f.stored then Int64.ofInt f.entry.size else 0
  fetchedFiles := if f.stored then 1 else 0
  read := if f.stored then 0 else Int64.ofInt (min f.read f.entry.size)

/-- The counters that are looked at: that of the bytes read only where `reads` says so. -/
def Counts.part (reads : Bool) : Counts →+ Counts where
  toFun c := if reads then c else { c with read := 0 }
  map_zero' := by
    cases reads with
    | true => rfl
    | false => rfl
  map_add' c d := by
    cases reads with
    | true => rfl
    | false =>
      ext1
      · rfl
      · rfl
      · rfl
      · rfl
      · exact (Int64.add_zero 0).symm

variable {reads : Bool}

private theorem Counts.part_ext {c d : Counts} (hbytes : c.bytes = d.bytes)
    (hfiles : c.files = d.files)
    (hfetched : c.fetched = d.fetched) (hfetchedFiles : c.fetchedFiles = d.fetchedFiles)
    (hread : reads = true → c.read = d.read) : part reads c = part reads d := by
  cases reads with
  | true => exact Counts.ext hbytes hfiles hfetched hfetchedFiles (hread rfl)
  | false => exact Counts.ext hbytes hfiles hfetched hfetchedFiles rfl

def bytesOf (files : List File) : Int := bytesIn (files.map (·.entry))

def fetchedOf (files : List File) : Int := bytesOf (files.filter (·.stored))

/-- What has been read of those that are not, at most the size of each. -/
def readOf (files : List File) : Int :=
  ((files.filter (!·.stored)).map fun f ↦ min f.read f.entry.size).sum

/-- The counters of a node are those of the files below it. -/
structure Exact (n : Node) : Prop where
  bytes : n.count.bytes.toInt = bytesOf n.items
  files : n.count.files = n.items.length
  fetched : n.count.fetched.toInt = fetchedOf n.items
  fetchedFiles : n.count.fetchedFiles = n.items.countP (·.stored)
  read : n.count.read.toInt = readOf n.items
  nonneg : 0 ≤ n.count.fetched.toInt + n.count.read.toInt
  bounded : n.count.fetched.toInt + n.count.read.toInt ≤ n.count.bytes.toInt

theorem bytesOf_cons (f : File) (files : List File) :
    bytesOf (f :: files) = f.entry.size + bytesOf files := List.sum_cons

theorem fetchedOf_cons (f : File) (files : List File) :
    fetchedOf (f :: files) = (if f.stored then f.entry.size else 0) + fetchedOf files := by
  rw [fetchedOf, List.filter_cons, fetchedOf]
  split
  · exact bytesOf_cons _ _
  · exact (Int.zero_add _).symm

private theorem readOf_cons (f : File) (files : List File) :
    readOf (f :: files) = (if f.stored then 0 else min f.read f.entry.size) + readOf files := by
  rw [readOf, List.filter_cons, readOf]
  cases f.stored with
  | true => exact (Int.zero_add _).symm
  | false => exact List.sum_cons

private theorem sum_counts (files : List File) : (files.map File.counts).sum =
    { bytes := Int64.ofInt (bytesOf files), files := files.length
      fetched := Int64.ofInt (fetchedOf files), fetchedFiles := files.countP (·.stored)
      read := Int64.ofInt (readOf files) } := by
  induction files with
  | nil => rfl
  | cons f files ih =>
    rw [List.map_cons, List.sum_cons, ih]
    ext1
    · rw [bytesOf_cons, Int64.ofInt_add]
      rfl
    · change (1 : Int) + files.length = ((files.length + 1 : Nat) : Int)
      omega
    · rw [fetchedOf_cons, Int64.ofInt_add, Counts.fetched_add, File.counts]
      split
      · rfl
      · rfl
    · change (if f.stored then (1 : Int) else 0) + files.countP (·.stored) =
        ((f :: files).countP (·.stored) : Int)
      rw [List.countP_cons]
      split
      · omega
      · omega
    · rw [readOf_cons, Int64.ofInt_add, Counts.read_add, File.counts]
      split
      · rfl
      · rfl

/-- A file as it should be: its size is one, and where the reads are looked at no more of it has
been read, and none of it where it is stored. -/
structure File.Fair (reads : Bool) (f : File) : Prop where
  size_nonneg : 0 ≤ f.entry.size
  size_lt : f.entry.size < 2 ^ 63
  read_nonneg : reads = true → 0 ≤ f.read
  read_le : reads = true → f.read ≤ f.entry.size
  read_stored : reads = true → f.stored = true → f.read = 0

variable {files : List File} {root : Node} {f : File} {entries : List Entry} {layout : Layout}
  {t t' : Tree}

private theorem bounds_of_fair (h : ∀ f ∈ files, f.Fair true) : 0 ≤ fetchedOf files ∧
    0 ≤ readOf files ∧
      fetchedOf files + readOf files ≤ bytesOf files := by
  induction files with
  | nil => decide
  | cons f files ih =>
    have hf := h f (.head _)
    have hrest := ih fun g hg ↦ h g (.tail _ hg)
    have hsize := hf.size_nonneg
    have hread := hf.read_nonneg rfl
    have hle := hf.read_le rfl
    rw [bytesOf_cons, fetchedOf_cons, readOf_cons]
    split
    · omega
    · omega

theorem bytesOf_mono {more : List File} (hsub : files.Sublist more)
    (h : ∀ f ∈ more, f.Fair reads) : bytesOf files ≤ bytesOf more := by
  apply bytesIn_mono (hsub.map _)
  intro e he
  obtain ⟨f, hf, rfl⟩ := List.mem_map.mp he
  exact (h f hf).size_nonneg

/-- Paths are distinct, every file is as it should be, and the counters count. -/
structure Fair (reads : Bool) (root : Node) : Prop where
  paths : (root.items.map File.path).Nodup
  files : ∀ f ∈ root.items, f.Fair reads
  tallied : Tally.Tallied (Counts.part reads) (fun f ↦ Counts.part reads f.counts) root

theorem Fair.count (h : Fair reads root) {n : Node} (hn : n ∈ root.nodes) :
    Counts.part reads n.count = Counts.part reads
      { bytes := Int64.ofInt (bytesOf n.items), files := n.items.length
        fetched := Int64.ofInt (fetchedOf n.items), fetchedFiles := n.items.countP (·.stored)
        read := Int64.ofInt (readOf n.items) } := by
  rw [h.tallied n hn, ← sum_counts, map_list_sum, List.map_map]
  rfl

/-- Where the files have less than `2 ^ 63` bytes, the counters are exact. -/
theorem Fair.exact (h : Fair true root) (htotal : bytesOf root.items < 2 ^ 63) :
    ∀ n ∈ root.nodes, Exact n := by
  intro n hn
  have hsub := Tally.items_sublist hn
  have hfair : ∀ f ∈ n.items, f.Fair true := fun f hf ↦ h.files f (hsub.subset hf)
  have hle := bytesOf_mono hsub h.files
  obtain ⟨hfetched, hread, hsum⟩ := bounds_of_fair hfair
  have hexact : ∀ x : Int, 0 ≤ x → x ≤ bytesOf n.items → (Int64.ofInt x).toInt = x := by
    intro x hlow hhigh
    exact int64_of_range (by omega) (by omega)
  have hcount : n.count = _ := h.count hn
  have hbytes : n.count.bytes.toInt = bytesOf n.items := by
    rw [hcount]
    exact hexact _ (by omega) (Int.le_refl _)
  have hfetchedBytes : n.count.fetched.toInt = fetchedOf n.items := by
    rw [hcount]
    exact hexact _ hfetched (by omega)
  have hreadBytes : n.count.read.toInt = readOf n.items := by
    rw [hcount]
    exact hexact _ hread (by omega)
  exact ⟨hbytes, congrArg Counts.files hcount, hfetchedBytes,
    congrArg Counts.fetchedFiles hcount, hreadBytes, by omega, by omega⟩

private theorem Fair.update (h : Fair reads root) (hf : f ∈ root.items)
    {g : File → File} (hpath : ∀ a, (g a).path = a.path) (hfair : (g f).Fair reads) {d : Counts}
    (hd : Counts.part reads (g f).counts = Counts.part reads (f.counts + d)) :
    Fair reads (root.update File.path f.path g (· + d)) := by
  constructor
  · rw [Tally.items_update, paths_map (path_change hpath f.path)]
    exact h.paths
  · intro a' ha'
    rw [Tally.items_update, List.mem_map] at ha'
    obtain ⟨a, ha, rfl⟩ := ha'
    rw [Tally.change]
    split
    · next heq =>
      rw [List.inj_on_of_nodup_map h.paths ha hf heq]
      exact hfair
    · exact h.files a ha
  · exact h.tallied.update _ _ h.paths hf (hd.trans (map_add _ _ _))

private theorem Fair.markStored (h : Fair reads root) (hf : f ∈ root.items)
    (hstored : f.stored = false) : Fair reads (markStored root f) := by
  have hfile := h.files f hf
  apply h.update hf path_store
  · exact ⟨hfile.size_nonneg, hfile.size_lt, fun _ ↦ Int.le_refl 0, fun _ ↦ hfile.size_nonneg,
      fun _ _ ↦ rfl⟩
  · simp only [File.counts, File.store, hstored]
    apply Counts.part_ext
    · exact (Int64.add_zero _).symm
    · rfl
    · exact (Int64.zero_add _).symm
    · rfl
    · exact fun _ ↦ (Int64.add_right_neg _).symm

theorem Takes.tail (h : Takes root (f :: files)) : Takes (Tree.markStored root f) files := by
  have hpaths := h.paths
  rw [List.map_cons, List.nodup_cons] at hpaths
  constructor
  · exact hpaths.2
  · intro g hg
    have hne : g.path ≠ f.path := fun heq ↦ hpaths.1 (heq ▸ List.mem_map_of_mem hg)
    have hsame : Tally.change File.path f.path File.store g = g := if_neg hne
    rw [items_markStored, ← hsame]
    exact List.mem_map_of_mem (h.mem g (.tail _ hg))
  · intro g hg
    exact h.unstored g (.tail _ hg)

theorem Fair.foldl_markStored (h : Fair reads root)
    (htakes : Takes root files) : Fair reads (files.foldl Tree.markStored root) := by
  induction files generalizing root with
  | nil => exact h
  | cons f files ih =>
    have hf := htakes.mem f (.head _)
    have hstored := htakes.unstored f (.head _)
    exact ih (h.markStored hf hstored) htakes.tail

private theorem read_counts (h : f.stored = false) (hle : f.read ≤ f.entry.size) :
    f.counts.read = Int64.ofInt f.read := by
  simp [File.counts, h, Int.min_eq_left hle]

theorem Fair.noteRead (h : Fair reads root) (hf : f ∈ root.items) (hstored : f.stored = false)
    {n : Int} (hn : reads = true → 0 ≤ n ∧ f.read + n < 2 ^ 63) :
    Fair reads (noteRead root f n) := by
  have hfile := h.files f hf
  have hsize := hfile.size_nonneg
  have hnote : reads = true → (f.note n).read = min (f.read + n) f.entry.size := by
    intro hreads
    have hread := hfile.read_nonneg hreads
    obtain ⟨hnonneg, hsum⟩ := hn hreads
    change min (int64 (f.read + n)) f.entry.size = _
    rw [int64_of_range (by omega) hsum]
  apply h.update hf (path_note n)
  · constructor
    · exact hsize
    · exact hfile.size_lt
    · intro hreads
      have hread := hfile.read_nonneg hreads
      have hmore := (hn hreads).1
      rw [hnote hreads]
      omega
    · intro hreads
      rw [hnote hreads]
      exact Int.min_le_right _ _
    · intro _ hst
      exact absurd (hst.symm.trans hstored) (by decide)
  · apply Counts.part_ext
    · exact (Int64.add_zero _).symm
    · rfl
    · exact (Int64.add_zero _).symm
    · exact (Int.add_zero _).symm
    · intro hreads
      have hmore := (hn hreads).1
      have hgrown := hnote hreads
      have hread := hfile.read_le hreads
      rw [Counts.read_add, read_counts hstored hread,
        read_counts (f := f.note n) hstored (hgrown ▸ Int.min_le_right _ _)]
      dsimp only
      split
      · rw [← Int64.ofInt_add]
        congr 1
        omega
      · rw [Int64.add_zero]
        congr 1
        omega

private theorem Fair.unstoreOne (h : Fair reads root) {e : Entry}
    (he : ∀ f ∈ root.items, f.path = e.path → f.entry = e) : Fair reads (unstoreOne root e) := by
  rw [Tree.unstoreOne]
  split
  · exact h
  · next f hfound =>
    split
    · next hstored =>
      obtain ⟨hf, hpath⟩ := lookup_eq_some hfound
      have hfile := h.files f hf
      have hsize := hfile.size_nonneg
      have hentry := he f hf hpath
      rw [← hpath, ← hentry]
      apply h.update hf path_unstore
      · exact ⟨hsize, hfile.size_lt, hfile.read_nonneg, hfile.read_le, by simp [File.unstore]⟩
      · simp only [File.counts, File.unstore, hstored]
        apply Counts.part_ext
        · exact (Int64.add_zero _).symm
        · rfl
        · exact (Int64.add_right_neg _).symm
        · rfl
        · intro hreads
          have hnone : min f.read f.entry.size = 0 := by
            rw [hfile.read_stored hreads hstored]
            exact Int.min_eq_left hsize
          rw [hnone]
          rfl
    · exact h

private theorem Fair.unstore (h : Fair reads root)
    (hentries : ∀ e ∈ entries, ∀ f ∈ root.items, f.path = e.path → f.entry = e) :
    Fair reads (entries.foldl Tree.unstoreOne root) := by
  induction entries generalizing root with
  | nil => exact h
  | cons e entries ih =>
    apply ih (h.unstoreOne (hentries e (.head _)))
    exact held_unstoreOne fun e' he' ↦ hentries e' (.tail _ he')

private theorem foldl_add_eq {α : Type*} (w : α → Counts) (c : Counts) (l : List α) :
    l.foldl (fun c a ↦ c + w a) c = c + (l.map w).sum := by
  induction l generalizing c with
  | nil => exact (add_zero c).symm
  | cons a l ih => rw [List.foldl_cons, ih, List.map_cons, List.sum_cons, add_assoc]

/-- What a fresh leaf adds for an entry whose state is carried over. -/
def extra (prev : SharePath → Option File) (e : Entry) : Counts :=
  if (prev e.path).isSome then account 0 (carried prev e) else 0

private theorem account_eq (c : Counts) (f : File) : account c f = c + account 0 f := by
  rw [account, account]
  split
  · rw [zero_add]
  · rw [zero_add]

/-- A file in its carried-over state counts for its entry and its state. -/
theorem counts_carried (prev : SharePath → Option File) {e : Entry} (hsize : 0 ≤ e.size) :
    (carried prev e).counts =
      { files := 1 } + ({ bytes := Int64.ofInt e.size } + extra prev e) := by
  rw [extra, carried]
  cases prev e.path with
  | none =>
    have hnone : min 0 e.size = 0 := Int.min_eq_left hsize
    simp only [File.counts, hnone]
    ext1
    · exact ((Int64.zero_add _).trans (Int64.add_zero _)).symm
    · rfl
    · rfl
    · rfl
    · rfl
  | some old =>
    simp only [File.counts, account, Option.isSome_some, if_true]
    cases old.stored with
    | true => ext1 <;> simp
    | false => ext1 <;> simp

private theorem tallied_emit (prev : SharePath → Option File) (hsizes : ∀ e ∈ entries, 0 ≤ e.size) :
    Tally.Tallied (AddMonoidHom.id Counts) File.counts (emit prev entries) := by
  have haccount : (fun (c : Counts) (e : Entry) ↦
      if (prev e.path).isSome then account c (carried prev e) else c) =
        fun c e ↦ c + extra prev e := by
    funext c e
    rw [extra]
    split
    · exact account_eq c _
    · exact (add_zero c).symm
  rw [emit, Tally.tallied_leaf, AddMonoidHom.id_apply, haccount, foldl_add_eq, foldl_add_eq,
    List.map_map]
  induction entries with
  | nil => rfl
  | cons e entries ih =>
    have hrest := ih fun e' he' ↦ hsizes e' (.tail _ he')
    have hlength : ({ files := (e :: entries).length } : Counts) =
        { files := 1 } + { files := entries.length } := by
      ext1
      · rfl
      · change ((entries.length + 1 : Nat) : Int) = 1 + (entries.length : Int)
        omega
      · rfl
      · rfl
      · rfl
    simp only [List.map_cons, List.sum_cons, Function.comp_apply, hlength,
      counts_carried prev (hsizes e (.head _)), ← hrest]
    ac_rfl

private theorem tallied_rebuild {prev : SharePath → Option File}
    (hsizes : ∀ e ∈ entries, 0 ≤ e.size)
    (h : rebuild layout entries prev = some t) :
    Tally.Tallied (AddMonoidHom.id Counts) File.counts t.root := by
  obtain ⟨-, -, hroot⟩ := of_rebuild h
  have hempty : Tally.Tallied (AddMonoidHom.id Counts) File.counts (.leaf 0 []) :=
    (Tally.tallied_leaf _ _).mpr rfl
  apply buildFrom_induction hempty _ _ hroot
  · intro kids hkids _
    exact Tally.tallied_inner _ File.counts hkids
  · intro p hp
    obtain ⟨g, hg, rfl⟩ := List.mem_map.mp hp
    apply tallied_emit
    intro e he
    have hplaced : e ∈ (place layout (small layout entries)).flatMap (·.entries) :=
      List.mem_flatMap.mpr ⟨g, hg, he⟩
    exact hsizes e (List.mem_filter.mp ((entries_place layout _).subset hplaced)).1

/-- A size that is one. -/
def SizeOk (e : Entry) : Prop := 0 ≤ e.size ∧ e.size < 2 ^ 63

instance : DecidablePred SizeOk := fun _ ↦ inferInstanceAs (Decidable (_ ∧ _))

/-- A tree that holds its small entries and counts them. -/
structure Counted (reads : Bool) (t : Tree) : Prop extends Held t where
  sizes : ∀ e ∈ t.entries, SizeOk e
  fair : Fair reads t.root

/-- The operations as they are meant: what is added has paths of its own and sizes that are such,
what is put back is put back as the tree holds it, and where the reads are looked at, one is not of
a negative number of bytes and its sum does not wrap. -/
def Careful (reads : Bool) (t : Tree) : Op → Prop
  | .add entries => ((t.entries ++ entries).map (·.path)).Nodup ∧ ∀ e ∈ entries, SizeOk e
  | .read _ _ path n => reads = true → 0 ≤ n ∧ ∀ f ∈ lookup t.root path, f.read + n < 2 ^ 63
  | .unstore entries => ∀ e ∈ entries, ∀ f ∈ t.root.items, f.path = e.path → f.entry = e
  | _ => True

instance (t : Tree) : (op : Op) → Decidable (Careful reads t op)
  | .add entries =>
    inferInstanceAs (Decidable (((t.entries ++ entries).map (·.path)).Nodup ∧
      ∀ e ∈ entries, SizeOk e))
  | .read _ _ path n =>
    inferInstanceAs (Decidable (_ → 0 ≤ n ∧ ∀ f ∈ lookup t.root path, f.read + n < 2 ^ 63))
  | .unstore entries =>
    inferInstanceAs (Decidable (∀ e ∈ entries, ∀ f ∈ t.root.items, f.path = e.path → f.entry = e))
  | .unstored _ _ => inferInstanceAs (Decidable True)
  | .markSent _ => inferInstanceAs (Decidable True)
  | .setLink _ => inferInstanceAs (Decidable True)

private theorem Careful.distinct {op : Op} (h : Careful reads t op) : Distinct t op := by
  cases op with
  | add entries => exact h.1
  | read | unstored | markSent | unstore | setLink => trivial

private theorem Counted.rebuild {prev : SharePath → Option File}
    (hdistinct : (entries.map (·.path)).Nodup) (hsizes : ∀ e ∈ entries, SizeOk e)
    (hleaf : 0 < layout.leafBytes) (hbranching : 2 ≤ layout.branching)
    (hprev : ∀ e ∈ entries, ∀ old, prev e.path = some old → old.entry = e ∧ old.Fair reads)
    (h : rebuild layout entries prev = some t) : Counted reads t := by
  have hheld := Held.rebuild hdistinct hleaf hbranching h
  refine ⟨hheld, ?_, hheld.paths, ?_, ?_⟩
  · rw [(of_rebuild h).2.1]
    exact hsizes
  · intro f hf
    rw [(items_rebuild h).mem_iff, List.mem_map] at hf
    obtain ⟨e, he, rfl⟩ := hf
    have hentry := (List.mem_filter.mp he).1
    rw [carried]
    split
    · next old hold =>
      obtain ⟨rfl, hfair⟩ := hprev e hentry old hold
      exact hfair
    · obtain ⟨hlow, hhigh⟩ := hsizes e hentry
      exact ⟨hlow, hhigh, fun _ ↦ Int.le_refl 0, fun _ ↦ hlow, by simp⟩
  · exact (tallied_rebuild (fun e he ↦ (hsizes e he).1) h).part (Counts.part reads)

private theorem Counted.add (h : Counted reads t) (hop : Careful reads t (.add entries))
    (hadd : t.add entries = some t') : Counted reads t' := by
  refine Counted.rebuild hop.1 ?_ h.leafBytes h.branching ?_ hadd
  · intro e he
    rcases List.mem_append.mp he with he | he
    · exact h.sizes e he
    · exact hop.2 e he
  · intro e he old hold
    obtain ⟨hmem, hpath⟩ := lookup_eq_some hold
    have hsmall := h.held.subset (List.mem_map_of_mem hmem)
    have hentry : old.entry ∈ t.entries ++ entries :=
      List.mem_append_left _ (List.mem_filter.mp hsmall).1
    exact ⟨List.inj_on_of_nodup_map hop.1 hentry he hpath, h.fair.files old hmem⟩

private theorem Counted.does {op : Op} {out : List Entry} (h : Counted reads t)
    (hop : Careful reads t op) (hdoes : Does t op t' out) : Counted reads t' := by
  have hheld := h.toHeld.does hop.distinct hdoes
  cases hdoes with
  | add hadd => exact h.add hop hadd
  | nothing => exact h
  | read promote limit n hf hstored htakes =>
    obtain ⟨hmem, -⟩ := lookup_eq_some hf
    have hnoted := h.fair.noteRead hmem hstored fun hreads ↦
      ⟨(hop hreads).1, (hop hreads).2 _ hf⟩
    exact ⟨hheld, h.sizes, hnoted.foldl_markStored htakes⟩
  | unstored hfiles htakes => exact ⟨hheld, h.sizes, h.fair.foldl_markStored htakes⟩
  | markSent hf hstored =>
    obtain ⟨hmem, -⟩ := lookup_eq_some hf
    exact ⟨hheld, h.sizes, h.fair.markStored hmem hstored⟩
  | unstore entries => exact ⟨hheld, h.sizes, h.fair.unstore hop⟩
  | setLink link => exact ⟨hheld, h.sizes, h.fair⟩

theorem Counted.newTree
    (hdistinct : (entries.map (·.path)).Nodup) (hsizes : ∀ e ∈ entries, SizeOk e)
    (h : newTree entries layout = .ok (some t)) : Counted reads t := by
  obtain ⟨layout', hlayout, hrebuild⟩ := of_newTree h
  obtain ⟨hleaf, hbranching⟩ := of_withDefaults hlayout
  refine Counted.rebuild hdistinct hsizes hleaf hbranching ?_ hrebuild
  intro e he old hold
  cases hold

/-- The counters count after every run. -/
theorem Counted.run {ops : List Op} (h : Counted reads t)
    (hops : machine.Within (Careful reads) t ops) (hrun : machine.run t ops = some t') :
    Counted reads t' := by
  have hstep : ∀ s op s', Counted reads s → Careful reads s op → machine.step s op = some s' →
      Counted reads s' := by
    intro s op s' hs hop hstep
    obtain ⟨⟨s'', out⟩, happly, rfl⟩ := Option.map_eq_some_iff.mp hstep
    exact hs.does hop (does_of_apply hs.paths happly)
  exact machine.run_invariant (Careful reads) hstep h hops hrun

/-- The counters are the tree's files. After every run in which no sum of bytes read wraps, the
counters of every node are those of the files below it, where these have less than `2 ^ 63` bytes
in all; and adding files, which returns where none is larger than `2 ^ 62` bytes, leaves every
file as it was. -/
theorem counters_are_files {layout : Layout} {entries : List Entry} {start t : Tree}
    {ops : List Op} (hdistinct : (entries.map (·.path)).Nodup) (hsizes : ∀ e ∈ entries, SizeOk e)
    (hnew : newTree entries layout = .ok (some start))
    (hops : machine.Within (Careful true) start ops) (hrun : machine.run start ops = some t) :
    (bytesOf t.root.items < 2 ^ 63 → ∀ n ∈ t.root.nodes, Exact n) ∧
      ∀ more, Careful true t (.add more) →
        (∀ t', t.add more = some t' → ∀ path f, lookup t.root path = some f →
          lookup t'.root path = some f) ∧
        ((∀ e ∈ small t.layout (t.entries ++ more), e.size ≤ 2 ^ 62) →
          (t.add more).isSome) := by
  have hcounted := (Counted.newTree hdistinct hsizes hnew).run hops hrun
  refine ⟨hcounted.fair.exact, ?_⟩
  intro more hmore
  constructor
  · intro t' hadd path f hf
    exact lookup_add hcounted.toHeld hmore.distinct hadd hf
  · intro hsmall
    exact rebuild_isSome hcounted.branching fun e he ↦
      levelFor_isSome hcounted.leafBytes (hsmall e he)

/-- A file read in part and swept, another added and put back. -/
theorem counters_are_files_swept : ∃ start t,
    newTree [⟨["a"], 10⟩, ⟨["b"], 3⟩] {} = .ok (some start) ∧
      machine.run start [.read (fun _ ↦ false) 0 ["a"] 4, .unstored 5 1, .add [⟨["c"], 7⟩],
        .markSent ["c"], .unstore [⟨["c"], 7⟩]] = some t ∧
      t.root.count = { bytes := 20, files := 3, fetched := 3, fetchedFiles := 1, read := 4 } ∧
      ∀ n ∈ t.root.nodes, Exact n := by
  obtain ⟨start, hnew, hops, t, hrun, hcount, htotal⟩ : ∃ start,
      newTree [⟨["a"], 10⟩, ⟨["b"], 3⟩] {} = .ok (some start) ∧
      machine.Within (Careful true) start [.read (fun _ ↦ false) 0 ["a"] 4, .unstored 5 1,
        .add [⟨["c"], 7⟩], .markSent ["c"], .unstore [⟨["c"], 7⟩]] ∧ ∃ t,
      machine.run start [.read (fun _ ↦ false) 0 ["a"] 4, .unstored 5 1, .add [⟨["c"], 7⟩],
        .markSent ["c"], .unstore [⟨["c"], 7⟩]] = some t ∧
      t.root.count = { bytes := 20, files := 3, fetched := 3, fetchedFiles := 1, read := 4 } ∧
      bytesOf t.root.items < 2 ^ 63 := by
    decide +kernel
  have hexact := counters_are_files (by decide) (by decide) hnew hops hrun
  exact ⟨start, t, hnew, hrun, hcount, hexact.1 htotal⟩

/-- `Read` adds before it caps, so a read of `2 ^ 63 - 1` bytes after one of a single byte makes
the bytes read of the file negative. Nothing is added to the counters then, and the root counts
one byte; once the file is marked stored, the wrapped number is taken off again. And two files of
`2 ^ 62` bytes are a negative number of bytes. -/
theorem read_wraps :
    (∃ start t t', newTree [⟨["a"], 10⟩] {} = .ok (some start) ∧
      machine.run start [.read (fun _ ↦ false) 0 ["a"] 1,
        .read (fun _ ↦ false) 0 ["a"] (2 ^ 63 - 1)] = some t ∧
      t.root.items = [{ entry := ⟨["a"], 10⟩, read := -2 ^ 63 }] ∧
      t.root.count.read = 1 ∧
      machine.run t [.markSent ["a"]] = some t' ∧
      t'.root.count.fetched.toInt + t'.root.count.read.toInt = 11 - 2 ^ 63) ∧
    ∃ start, newTree [⟨["a"], 2 ^ 62⟩, ⟨["b"], 2 ^ 62⟩] { largeFile := 2 ^ 62 } =
        .ok (some start) ∧ start.root.count.bytes.toInt = -2 ^ 63 := by
  constructor
  · obtain ⟨start, hnew, t, hrun, hitems, hread, t', hrun', hsum⟩ : ∃ start,
        newTree [⟨["a"], 10⟩] {} = .ok (some start) ∧ ∃ t,
        machine.run start [.read (fun _ ↦ false) 0 ["a"] 1,
          .read (fun _ ↦ false) 0 ["a"] (2 ^ 63 - 1)] = some t ∧
        t.root.items = [{ entry := ⟨["a"], 10⟩, read := -2 ^ 63 }] ∧ t.root.count.read = 1 ∧
        ∃ t', machine.run t [.markSent ["a"]] = some t' ∧
          t'.root.count.fetched.toInt + t'.root.count.read.toInt = 11 - 2 ^ 63 := by
      decide +kernel
    exact ⟨start, t, t', hnew, hrun, hitems, hread, hrun', hsum⟩
  · decide +kernel

end RemoteDocker.DirCache.Fill.Tree

import RemoteDocker.Base.Clock
import RemoteDocker.Workspace.ValidPath

/-!
# What a container changed

`changesIn` walks a share's cache layer and reports what a container did there
(`src/agent/internal/unions/changes.go:56-186`). A mark of the overlay is told by its name, and
the path it speaks of is the name without its first four bytes: where nothing or dots are left of
it, what is reported is no path in the share (`root_reported_deleted`). A replaced directory is
one change however many marks tell of it, dated by the mark met first (`later_mark_reported`).
-/

namespace RemoteDocker.Unions

open Base Workspace.Bytes

/-- What an entry of the layer is, with what reading a directory or a link comes to. -/
inductive LayerKind where
  | regular
  | dir (marked opens : Bool)
  | link (target : Option (List UInt8))
  | charDevice (rdev : Nat)
  | other
  deriving DecidableEq

/-- An entry that can be read, by the names that lead to it. -/
structure LayerEntry where
  path : List (List UInt8)
  kind : LayerKind
  size : Int := 0
  modTime : Int := 0
  ctime : Int := 0
  perm : UInt32 := 0
  deriving DecidableEq

namespace LayerEntry

def dir (e : LayerEntry) : List (List UInt8) := e.path.dropLast

def name (e : LayerEntry) : List UInt8 := e.path.getLast?.getD []

def isDir (e : LayerEntry) : Bool := e.kind matches .dir ..

/-- A file or a device, which may be a mark of the overlay. -/
def isFile (e : LayerEntry) : Bool := e.kind matches .regular | .charDevice _

end LayerEntry

/-- The entries below the root as `WalkDir` comes to them: a directory before what is in it, and
each once. -/
structure Layer where
  entries : List LayerEntry
  walk : entries.Pairwise fun e later ↦ ¬later.path <+: e.path

namespace Layer

def whiteoutPrefix : List UInt8 := ascii ".wh."

def opaqueMarker : List UInt8 := ascii ".wh..wh..opq"

def opaqueMarkerDev : List UInt8 := ascii ".wh..opq"

/-- The name is one the overlay uses for its own marks. -/
def isMark (name : List UInt8) : Bool := whiteoutPrefix.isPrefixOf name

structure Change where
  path : List (List UInt8)
  size : Int := 0
  modTime : Int := 0
  deleted : Bool := false
  isOpaque : Bool := false
  link : List UInt8 := []
  changed : Int := 0
  dir : Bool := false
  mode : UInt32 := 0
  deriving DecidableEq

structure Applied where
  size : Int
  modTime : Int
  ctime : Int

structure Asked where
  carry : Bool
  times : Bool
  applied : List (List UInt8) → Option Applied

def Asked.isApplied (q : Asked) (e : LayerEntry) : Bool :=
  (q.applied e.path).any fun a ↦ a.size == e.size && a.modTime == e.modTime &&
    (a.ctime == 0 || e.ctime == 0 || a.ctime == e.ctime)

def markerChange (e : LayerEntry) : Option Change :=
  if e.name = opaqueMarker ∨ e.name = opaqueMarkerDev then
    if e.dir = [] then none else some { path := e.dir, isOpaque := true }
  else if (whiteoutPrefix ++ whiteoutPrefix).isPrefixOf e.name then none
  else
    match e.kind with
    | .regular | .charDevice _ =>
      some { path := e.dir ++ [e.name.drop whiteoutPrefix.length], deleted := true }
    | _ => none

/-- `os.Lstat`, in the layer. -/
def lstat (layer : Layer) (path : List (List UInt8)) : Option LayerEntry :=
  layer.entries.find? (·.path = path)

def markerCtime (layer : Layer) (dir : List (List UInt8)) : Int :=
  earliest (([opaqueMarker, opaqueMarkerDev].filterMap fun m ↦ layer.lstat (dir ++ [m])).map
    (·.ctime))

/-- `emptyDir`, for a directory that opens. -/
def emptyDir (layer : Layer) (dir : List (List UInt8)) : Bool :=
  layer.entries.all fun e ↦ e.dir != dir

def Asked.date (q : Asked) (t : Int) : Int := if q.times then t else 0

def Asked.stamped (q : Asked) (e : LayerEntry) (ch : Change) : Change :=
  { ch with changed := q.date e.ctime, mode := if q.times then e.perm else 0 }

/-- What a file named like a mark is reported as, where these directories were already reported
as replaced. -/
def reportMark (q : Asked) (replaced : List (List (List UInt8))) (e : LayerEntry) :
    Option Change :=
  match markerChange e with
  | none => none
  | some ch =>
    if !(ch.deleted || q.carry) || ch.isOpaque && ch.path ∈ replaced then none
    else some { ch with changed := q.date e.ctime }

def reportEntry (layer : Layer) (q : Asked) (replaced : List (List (List UInt8)))
    (e : LayerEntry) : Option Change :=
  match e.kind with
  | .charDevice rdev =>
    if rdev = 0 then some { path := e.path, deleted := true, changed := q.date e.ctime } else none
  | .dir marked opens =>
    if q.carry && e.path ∉ replaced && marked then
      some { path := e.path, isOpaque := true, changed := q.date (layer.markerCtime e.path) }
    else if q.times && opens && layer.emptyDir e.path then
      some (q.stamped e { path := e.path, dir := true })
    else none
  | .link (some target) =>
    if q.carry then some (q.stamped e { path := e.path, link := target, modTime := e.modTime })
    else none
  | .link none | .other => none
  | .regular =>
    if q.isApplied e then none
    else some (q.stamped e { path := e.path, size := e.size, modTime := e.modTime })

def report (layer : Layer) (q : Asked) (replaced : List (List (List UInt8))) (e : LayerEntry) :
    Option Change :=
  if isMark e.name then if e.isDir then none else reportMark q replaced e
  else layer.reportEntry q replaced e

structure Walked where
  replaced : List (List (List UInt8)) := []
  out : List Change := []

def visit (layer : Layer) (q : Asked) (w : Walked) (e : LayerEntry) : Walked :=
  match layer.report q w.replaced e with
  | none => w
  | some ch =>
    { replaced := if ch.isOpaque then ch.path :: w.replaced else w.replaced
      out := w.out ++ [ch] }

/-- The entries the walk comes to: a directory named like a mark is skipped. -/
def visited (layer : Layer) : List LayerEntry :=
  layer.entries.filter fun e ↦ e.dir.all (!isMark ·)

/-- `changesIn`, of a layer whose root can be read (`changes.go:56-186`). -/
def changesIn (layer : Layer) (q : Asked) : List Change :=
  (layer.visited.foldl (layer.visit q) {}).out

variable {layer : Layer} {q : Asked} {w : Walked} {e : LayerEntry} {ch : Change}
  {replaced : List (List (List UInt8))}

/-- The path is valid and below the root, and none of its names is a mark. -/
structure Inside (path : List UInt8) : Prop where
  valid : validSharePath path = .ok ()
  below : path ≠ [slash]
  marks : ∀ part ∈ path.tail.splitOn slash, isMark part = false

private theorem inside_of_names {names : List (List UInt8)} (hne : names ≠ [])
    (h : ∀ name ∈ names, IsComponent name ∧ isMark name = false) : Inside (renderPath names) where
  valid := validSharePath_renderPath hne fun name hname ↦ (h name hname).1
  below := renderPath_ne_root hne fun name hname ↦ (h name hname).1
  marks := by
    rw [splitOn_renderPath hne fun name hname ↦ (h name hname).1.slash]
    exact fun part hpart ↦ (h part hpart).2

theorem path_of_report (h : layer.report q replaced e = some ch) :
    isMark e.name = false ∧ ch.path = e.path ∨
      isMark e.name = true ∧ ∃ told, markerChange e = some told ∧ ch.path = told.path := by
  unfold report at h
  split at h
  · next hmark =>
    right
    grind [reportMark]
  · left
    grind [reportEntry, Asked.stamped]

private theorem mem_out (h : ch ∈ (visit layer q w e).out) :
    ch ∈ w.out ∨ ∃ replaced, layer.report q replaced e = some ch := by
  unfold visit at h
  split at h
  · exact .inl h
  · next told htold =>
    rcases List.mem_append.mp h with h | h
    · exact .inl h
    · exact .inr ⟨w.replaced, (List.mem_singleton.mp h) ▸ htold⟩

private theorem report_of_mem_foldl {entries : List LayerEntry}
    (h : ch ∈ (entries.foldl (layer.visit q) w).out) :
    ch ∈ w.out ∨ ∃ e ∈ entries, ∃ replaced, layer.report q replaced e = some ch := by
  induction entries generalizing w with
  | nil => exact .inl h
  | cons e entries ih =>
    rcases ih h with h | ⟨e', he', h⟩
    · exact (mem_out h).imp_right fun h ↦ ⟨e, (.head _), h⟩
    · exact .inr ⟨e', .tail _ he', h⟩

private theorem mem_foldl_of_mem {entries : List LayerEntry} (h : ch ∈ w.out) :
    ch ∈ (entries.foldl (layer.visit q) w).out := by
  induction entries generalizing w with
  | nil => exact h
  | cons e entries ih =>
    apply ih
    unfold visit
    split
    · exact h
    · exact List.mem_append_left _ h

private theorem mem_foldl_of_report {entries : List LayerEntry} (he : e ∈ entries)
    (h : ∀ replaced, layer.report q replaced e = some ch) :
    ch ∈ (entries.foldl (layer.visit q) w).out := by
  induction entries generalizing w with
  | nil => cases he
  | cons e' entries ih =>
    rcases List.mem_cons.mp he with rfl | he
    · rw [List.foldl_cons]
      apply mem_foldl_of_mem
      simp only [visit, h]
      exact List.mem_append_right _ (List.mem_singleton.mpr rfl)
    · exact ih he

/-- What is left of a mark's name can stand in a path, and is no mark. -/
def LeavesName (name : List UInt8) : Prop :=
  name ∉ [ascii ".wh.", ascii ".wh..", ascii ".wh..."]

instance (name : List UInt8) : Decidable (LeavesName name) := inferInstanceAs (Decidable (_ ∉ _))

theorem dir_append_name (hne : e.path ≠ []) : e.dir ++ [e.name] = e.path := by
  rw [LayerEntry.dir, LayerEntry.name, List.getLast?_eq_some_getLast hne, Option.getD_some,
    List.dropLast_concat_getLast hne]

private theorem isComponent_drop {name : List UInt8} (h : IsComponent name)
    (hmark : isMark name = true)
    (hleaves : LeavesName name)
    (hmarks : ¬(whiteoutPrefix ++ whiteoutPrefix).isPrefixOf name = true) :
    IsComponent (name.drop whiteoutPrefix.length) ∧
      isMark (name.drop whiteoutPrefix.length) = false := by
  obtain ⟨rest, rfl⟩ := List.isPrefixOf_iff_prefix.mp hmark
  rw [List.drop_left]
  have hrest : ∀ text : List UInt8, whiteoutPrefix ++ rest ≠ whiteoutPrefix ++ text → rest ≠ text :=
    fun text hne heq ↦ hne (heq ▸ rfl)
  simp only [LeavesName, List.mem_cons, List.not_mem_nil, or_false, not_or] at hleaves
  refine ⟨⟨hrest [] hleaves.1, hrest (ascii ".") hleaves.2.1, hrest (ascii "..") hleaves.2.2,
    fun hb ↦ h.slash (List.mem_append_right _ hb),
    fun hb ↦ h.backslash (List.mem_append_right _ hb),
    fun hb ↦ h.nul (List.mem_append_right _ hb)⟩, ?_⟩
  rw [isMark, Bool.eq_false_iff]
  intro hagain
  apply hmarks
  rw [List.isPrefixOf_iff_prefix] at hagain ⊢
  exact (List.prefix_append_right_inj _).mpr hagain

private theorem inside_append {dir : List (List UInt8)} {name : List UInt8}
    (hdir : ∀ name ∈ dir, IsComponent name ∧ isMark name = false)
    (hname : IsComponent name ∧ isMark name = false) : Inside (renderPath (dir ++ [name])) := by
  apply inside_of_names (List.append_ne_nil_of_right_ne_nil _ (List.cons_ne_nil _ _))
  intro name' hname'
  rcases List.mem_append.mp hname' with hname' | hname'
  · exact hdir name' hname'
  · exact List.mem_singleton.mp hname' ▸ hname

/-- A path with nothing or dots for a name is not inside the share. -/
theorem not_inside {dir : List (List UInt8)} {name : List UInt8}
    (hdir : ∀ name ∈ dir, slash ∉ name) (hname : name ∈ [[], ascii ".", ascii ".."]) :
    ¬Inside (renderPath (dir ++ [name])) := by
  intro hin
  have hslash : ∀ part ∈ dir ++ [name], slash ∉ part := by
    have hdots : ∀ part ∈ [[], ascii ".", ascii ".."], slash ∉ part := by decide
    intro part hpart
    rcases List.mem_append.mp hpart with hpart | hpart
    · exact hdir part hpart
    · exact hdots part (List.mem_singleton.mp hpart ▸ hname)
  have hvalid := hin.valid
  rw [validSharePath] at hvalid
  split_ifs at hvalid with _ _ _ _ hroot
  · exact hin.below hroot
  · rw [splitOn_renderPath (List.append_ne_nil_of_right_ne_nil _ (List.cons_ne_nil _ _)) hslash]
      at hvalid
    have hfault : ∀ part ∈ [[], ascii ".", ascii ".."], partFault part ≠ none := by decide
    split at hvalid
    · cases hvalid
    · next hnone =>
      rw [List.findSome?_eq_none_iff] at hnone
      exact hfault name hname (hnone name (List.mem_append_right _ (List.mem_singleton.mpr rfl)))

/-- The mark of nothing or of dots is reported as a deletion, whatever else the walk has met. -/
theorem report_of_not_leavesName (hfile : e.isFile = true) (hname : ¬LeavesName e.name) :
    ∃ name ∈ [[], ascii ".", ascii ".."], ∃ ch, ch.path = e.dir ++ [name] ∧
      ∀ replaced, layer.report q replaced e = some ch := by
  have hnames : ∀ name ∈ [ascii ".wh.", ascii ".wh..", ascii ".wh..."], isMark name = true ∧
      ¬(name = opaqueMarker ∨ name = opaqueMarkerDev) ∧
      ¬(whiteoutPrefix ++ whiteoutPrefix).isPrefixOf name = true ∧
      name.drop whiteoutPrefix.length ∈ [[], ascii ".", ascii ".."] := by decide
  rw [LeavesName, not_not] at hname
  obtain ⟨hmark, hopaque, hdouble, hdrop⟩ := hnames e.name hname
  have htold : markerChange e =
      some { path := e.dir ++ [e.name.drop whiteoutPrefix.length], deleted := true } := by
    rw [markerChange, if_neg hopaque, if_neg hdouble]
    revert hfile
    cases hkind : e.kind <;> simp [LayerEntry.isFile, hkind]
  have hdir : e.isDir = false := by
    revert hfile
    cases hkind : e.kind <;> simp [LayerEntry.isFile, LayerEntry.isDir, hkind]
  refine ⟨_, hdrop, { path := e.dir ++ [e.name.drop whiteoutPrefix.length], deleted := true
                      changed := q.date e.ctime }, rfl, ?_⟩
  intro replaced
  simp [report, hmark, hdir, reportMark, htold]

/-- Every change reported names a path inside the share, just if no file or device the walk comes to
is named like a mark of nothing or of dots. -/
theorem changes_inside (layer : Layer) (q : Asked)
    (hnames : ∀ e ∈ layer.entries, e.path ≠ [] ∧ ∀ name ∈ e.path, IsComponent name) :
    (∀ ch ∈ layer.changesIn q, Inside (renderPath ch.path)) ↔
      ∀ e ∈ layer.visited, e.isFile = true → LeavesName e.name := by
  constructor
  · intro hinside e he hfile
    by_contra hname
    obtain ⟨name, hleft, ch, hpath, hreport⟩ := report_of_not_leavesName hfile hname
    have hin := hinside ch (mem_foldl_of_report he hreport)
    rw [hpath] at hin
    refine not_inside ?_ hleft hin
    intro part hpart
    exact ((hnames e (List.mem_filter.mp he).1).2 part (List.dropLast_subset _ hpart)).slash
  intro hleaves ch hch
  rcases report_of_mem_foldl hch with hnone | ⟨e, he, replaced, hreport⟩
  · cases hnone
  obtain ⟨hmem, hdir⟩ := List.mem_filter.mp he
  obtain ⟨hne, hcomponents⟩ := hnames e hmem
  have hpath := dir_append_name hne
  rw [← hpath] at hcomponents
  have habove : ∀ name ∈ e.dir, IsComponent name ∧ isMark name = false := by
    intro name hname
    have hmark := List.all_eq_true.mp hdir name hname
    exact ⟨hcomponents name (List.mem_append_left _ hname), by simpa using hmark⟩
  have hname : IsComponent e.name :=
    hcomponents e.name (List.mem_append_right _ (List.mem_singleton.mpr rfl))
  rcases path_of_report hreport with ⟨hmark, hsame⟩ | ⟨hmark, told, htold, hsame⟩
  · rw [hsame, ← hpath]
    exact inside_append habove ⟨hname, hmark⟩
  · rw [hsame]
    unfold markerChange at htold
    split at htold
    · split at htold
      · cases htold
      · next hroot =>
        cases htold
        exact inside_of_names hroot habove
    · split at htold
      · cases htold
      · next hmarks =>
        split at htold
        · next hkind =>
          cases htold
          have hfile : e.isFile = true := by rw [LayerEntry.isFile, hkind]
          exact inside_append habove (isComponent_drop hname hmark (hleaves e he hfile) hmarks)
        · next hkind =>
          cases htold
          have hfile : e.isFile = true := by rw [LayerEntry.isFile, hkind]
          exact inside_append habove (isComponent_drop hname hmark (hleaves e he hfile) hmarks)
        · cases htold

def dirOf (name : List UInt8) : Layer where
  entries := [{ path := [ascii "d"], kind := .dir false true },
    { path := [ascii "d", name], kind := .regular, size := 3, ctime := 7 }]
  walk := by simp [List.cons_prefix_cons]

def plainly : Asked where
  carry := true
  times := true
  applied _ := none

theorem changes_inside_deleted :
    ((dirOf (ascii ".wh.a")).changesIn plainly).map (fun ch ↦ (ch.path, ch.deleted)) =
        [([ascii "d", ascii "a"], true)] ∧
      ∀ ch ∈ (dirOf (ascii ".wh.a")).changesIn plainly, Inside (renderPath ch.path) := by
  exact ⟨by decide, (changes_inside _ _ (by decide)).mpr (by decide)⟩

/-- A file of no name but the mark's four bytes has the directory it is in reported, with a path
that is not valid, and in the root the share itself; of dots, the directory above. -/
theorem root_reported_deleted :
    ((dirOf (ascii ".wh.")).changesIn plainly).map (fun ch ↦ (renderPath ch.path, ch.deleted)) =
        [(ascii "/d/", true)] ∧
      validSharePath (ascii "/d/") = .error .emptyComponent ∧
      ((dirOf (ascii ".wh...")).changesIn plainly).map (fun ch ↦ (renderPath ch.path, ch.deleted)) =
        [(ascii "/d/..", true)] ∧
      ∃ layer : Layer, layer.entries = [{ path := [ascii ".wh."], kind := .regular }] ∧
        (layer.changesIn plainly).map (fun ch ↦ (renderPath ch.path, ch.deleted)) =
          [(ascii "/", true)] :=
  ⟨by decide, by decide, by decide, ⟨[_], List.pairwise_singleton _ _⟩, rfl, by decide⟩

end Layer

end RemoteDocker.Unions

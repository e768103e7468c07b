import Mathlib.Data.List.Nodup
import RemoteDocker.Unions.Changes

/-!
# Replaced directories

A directory that hides its lower is told by its attribute and by two marker files, and the walk
reports it with the first of them it meets. The attribute is met first, and dates the directory by
the earlier marker; without it the date is that of the marker whose name comes first.
-/

namespace RemoteDocker.Unions.Layer

open Base Workspace.Bytes

variable {layer : Layer} {q : Asked} {w : Walked} {e : LayerEntry}
  {replaced : List (List (List UInt8))} {p : List (List UInt8)}

def markers (layer : Layer) (p : List (List UInt8)) : List LayerEntry :=
  ([opaqueMarker, opaqueMarkerDev].filterMap fun m ↦ layer.lstat (p ++ [m])).filter (!·.isDir)

def Marked (layer : Layer) (d : LayerEntry) : Prop :=
  (∃ opens, d.kind = .dir true opens) ∨ layer.markers d.path ≠ []

def tells (p : List (List UInt8)) (e : LayerEntry) : Bool :=
  if isMark e.name then
    !e.isDir && (e.name = opaqueMarker || e.name = opaqueMarkerDev) && e.dir = p && p ≠ []
  else e.path = p && e.kind matches .dir true _

def replacedAs (layer : Layer) (p : List (List UInt8)) (e : LayerEntry) : Change :=
  { path := p, isOpaque := true, changed := if isMark e.name then e.ctime else layer.markerCtime p }

private theorem distinct (layer : Layer) : (layer.entries.map (·.path)).Nodup := by
  rw [List.nodup_iff_pairwise_ne, List.pairwise_map]
  apply layer.walk.imp
  intro e later hnot heq
  exact hnot (heq ▸ List.prefix_rfl)

private theorem lstat_of_mem (he : e ∈ layer.entries) : layer.lstat e.path = some e := by
  cases hfind : layer.lstat e.path with
  | none => simpa using List.find?_eq_none.mp hfind e he
  | some e' =>
    have hpath : e'.path = e.path := by simpa using List.find?_some hfind
    rw [List.inj_on_of_nodup_map layer.distinct (List.mem_of_find?_eq_some hfind) he hpath]

private theorem mem_markers {m : LayerEntry} : m ∈ layer.markers p ↔ m.isDir = false ∧
    (layer.lstat (p ++ [opaqueMarker]) = some m ∨
      layer.lstat (p ++ [opaqueMarkerDev]) = some m) := by
  simp [markers, and_comm]

/-- What tells of a directory is the directory itself or one of its markers. -/
theorem of_tells {d : LayerEntry} (hd : d ∈ layer.entries) (he : e ∈ layer.entries)
    (htells : tells d.path e = true) :
    e = d ∧ (∃ opens, d.kind = .dir true opens) ∨
      isMark e.name = true ∧ e.dir = d.path ∧ e ∈ layer.markers d.path := by
  unfold tells at htells
  split at htells
  · next hmark =>
    simp only [Bool.and_eq_true, Bool.or_eq_true, Bool.not_eq_true', decide_eq_true_eq] at htells
    obtain ⟨⟨⟨hfile, hname⟩, hdir⟩, hroot⟩ := htells
    have hpath : d.path ++ [e.name] = e.path := by
      rw [← hdir]
      apply dir_append_name
      rintro hnil
      rw [LayerEntry.name, hnil] at hmark
      cases hmark
    have hstat := lstat_of_mem he
    rw [← hpath] at hstat
    refine .inr ⟨hmark, hdir, mem_markers.mpr ⟨hfile, ?_⟩⟩
    rcases hname with hname | hname
    · exact .inl (hname ▸ hstat)
    · exact .inr (hname ▸ hstat)
  · simp only [Bool.and_eq_true, decide_eq_true_eq] at htells
    have hsame := List.inj_on_of_nodup_map layer.distinct he hd htells.1
    subst hsame
    left
    grind

/-- The earliest change time among a directory's marker files. -/
def firstMark (layer : Layer) (p : List (List UInt8)) : Int :=
  earliest ((layer.markers p).map (·.ctime))

/-- The directory is dated by its first mark: where it has the attribute, no directory that is named
like a marker is earlier than its markers, and otherwise the marker the walk comes to first is the
earliest. -/
def Dated (layer : Layer) (d : LayerEntry) : Prop :=
  if d.kind matches .dir true _ then layer.markerCtime d.path = layer.firstMark d.path
  else ∀ m, layer.visited.find? (tells d.path) = some m → m.ctime = layer.firstMark d.path

structure Met (layer : Layer) (d : LayerEntry) : Prop where
  mem : d ∈ layer.visited
  ne_nil : d.path ≠ []
  name : isMark d.name = false

private theorem Met.names (hd : layer.Met e) : e.path.all (!isMark ·) = true := by
  have hdir := (List.mem_filter.mp hd.mem).2
  rw [← dir_append_name hd.ne_nil, List.all_append, hdir]
  simp [hd.name]

private theorem Met.marker (hd : layer.Met e) {m : LayerEntry} (hm : m ∈ layer.markers e.path) :
    m ∈ layer.visited ∧ tells e.path m = true := by
  have hmarks : ∀ name ∈ [opaqueMarker, opaqueMarkerDev], isMark name = true := by decide
  obtain ⟨hfile, hstat⟩ := mem_markers.mp hm
  obtain ⟨name, hname, hstat⟩ : ∃ name ∈ [opaqueMarker, opaqueMarkerDev],
      layer.lstat (e.path ++ [name]) = some m := by simpa using hstat
  have hpath : m.path = e.path ++ [name] := by simpa using List.find?_some hstat
  have hlast : m.name = name := by rw [LayerEntry.name, hpath]; simp
  have hdir : m.dir = e.path := by rw [LayerEntry.dir, hpath, List.dropLast_concat]
  refine ⟨List.mem_filter.mpr ⟨List.mem_of_find?_eq_some hstat, hdir ▸ hd.names⟩, ?_⟩
  have hmark := hmarks name hname
  have hne := hd.ne_nil
  grind [tells]

/-- The first entry that tells of a marked directory reports it, and dates it by the earliest marker
just if it is dated so. -/
theorem Met.date (hd : layer.Met e) (hmarked : layer.Marked e) :
    ∃ t, (layer.visited.find? (tells e.path)).map (layer.replacedAs e.path) =
        some { path := e.path, isOpaque := true, changed := t } ∧
      (t = layer.firstMark e.path ↔ layer.Dated e) := by
  have hsub : ∀ e' ∈ layer.visited, e' ∈ layer.entries := fun e' he' ↦ (List.mem_filter.mp he').1
  by_cases hattr : ∃ opens, e.kind = .dir true opens
  · -- the directory itself comes before its markers
    obtain ⟨opens, hkind⟩ := hattr
    have htells : tells e.path e = true := by simp [tells, hd.name, hkind]
    obtain ⟨first, hfirst⟩ := Option.isSome_iff_exists.mp
      (List.find?_isSome.mpr ⟨e, hd.mem, htells⟩)
    obtain ⟨htold, before, after, hlist, hbefore⟩ := List.find?_eq_some_iff_append.mp hfirst
    have hwalk : layer.visited.Pairwise fun e later ↦ ¬later.path <+: e.path := layer.walk.filter _
    have hmem := hd.mem
    have hsame : first = e := by
      rcases of_tells (hsub e hd.mem) (hsub first (List.mem_of_find?_eq_some hfirst)) htold with
        ⟨hsame, -⟩ | ⟨-, hdir, -⟩
      · exact hsame
      · rw [hlist, List.mem_append, List.mem_cons] at hmem
        rw [hlist, List.pairwise_append, List.pairwise_cons] at hwalk
        rcases hmem with hmem | hmem | hmem
        · simpa [htells] using hbefore e hmem
        · exact hmem.symm
        · exact absurd (hdir ▸ List.dropLast_prefix _) (hwalk.2.1.1 e hmem)
    refine ⟨layer.markerCtime e.path, ?_, by rw [Dated, hkind]; rfl⟩
    rw [hfirst, hsame, Option.map_some, replacedAs, hd.name, if_neg Bool.false_ne_true]
  · obtain ⟨m, hm⟩ := List.exists_mem_of_ne_nil _ (hmarked.resolve_left hattr)
    obtain ⟨hmem, htells⟩ := hd.marker hm
    obtain ⟨first, hfirst⟩ := Option.isSome_iff_exists.mp (List.find?_isSome.mpr ⟨m, hmem, htells⟩)
    rcases of_tells (hsub e hd.mem) (hsub first (List.mem_of_find?_eq_some hfirst))
        (List.find?_some hfirst) with ⟨-, hattr'⟩ | ⟨hmark, -, -⟩
    · exact absurd hattr' hattr
    · have hplain : (e.kind matches .dir true _) = false := by
        rw [Bool.eq_false_iff]
        intro hkind
        apply hattr
        revert hkind
        rcases hk : e.kind with _ | ⟨_ | _, opens⟩ | _ | _ | _ <;> simp
      refine ⟨first.ctime, by rw [hfirst, Option.map_some, replacedAs, hmark]; rfl, ?_⟩
      rw [Dated, hplain, if_neg Bool.false_ne_true, hfirst]
      simp

end RemoteDocker.Unions.Layer

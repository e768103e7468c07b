import RemoteDocker.Workspace.Identity

/-!
# The registry of shares

`src/core-client/nfsserve/registry.go`. A share is exported under a path derived from its directory
and its variant, once for each variant, and stays as long as the process. A share that is not
registered may be brought back from a record, which is believed only as far as the export it names
is the one it would have been given.

What is left of a filesystem is which share it serves and where in it: a share's own, or one of a
directory below its root.
-/

namespace RemoteDocker.NfsServe

open Base Workspace Tunnels

/-- What `os.Stat` finds. -/
inductive Kind where
  | directory
  | regular
  /-- A socket, a device or a pipe. -/
  | special
  deriving DecidableEq, Repr

/-- `os.Stat` at one moment. The empty path names nothing. -/
structure Files where
  stat : Text → Option Kind
  nowhere : stat [] = none

/-- `Attrs`, as far as a share names them. -/
structure Attrs where
  owner : Owner
  fileMask : Mask
  dirMask : DirMask
  deriving DecidableEq

/-- `attrFS` over `shareFS`. -/
structure Fs where
  exportPath : Text
  /-- The share itself, and not a directory inside it. -/
  isRoot : Bool
  /-- Where it sits inside the share. -/
  within : Text
  base : Text
  file : Text
  attrs : Attrs
  deriving DecidableEq

structure Share where
  exportPath : Text
  localPath : Text
  file : Text
  mode : Mode
  words : ShareWords
  fs : Fs
  deriving DecidableEq

def Share.kind (s : Share) : Kind := if s.file = [] then .directory else .regular

def Share.raise (s : Share) (w : ShareWords) : Share :=
  { s with words := { s.words with
                      watch := stronger watchRank s.words.watch w.watch
                      prefetch := stronger prefetchRank s.words.prefetch w.prefetch } }

inductive Unexportable where
  | cannotExport (localPath : Text)
  | notContent (localPath : Text)
  deriving DecidableEq

structure Registry where
  attrs : Attrs
  shares : AList fun _ : Text ↦ Share := ∅

/-- The attributes of a share: those it names, and the registry's. -/
def Attrs.named (attrs : Attrs) (w : ShareWords) : Attrs where
  owner := w.owner.getD attrs.owner
  fileMask := w.fmask.getD attrs.fileMask
  dirMask := w.dmask.getD attrs.dirMask

/-- The words of a share, resolved. -/
def Attrs.resolve (attrs : Attrs) (w : ShareWords) : ShareWords where
  owner := some (attrs.named w).owner
  fmask := some (attrs.named w).fileMask
  dmask := some (attrs.named w).dirMask
  watch := some (w.watch.getD .watchOff)
  prefetch := some (w.prefetch.getD .off)

def Attrs.share (attrs : Attrs) (h : Host) (kind : Kind) (localPath exportPath : Text) (mode : Mode)
    (w : ShareWords) : Share :=
  let base := if kind = .directory then localPath else h.dir localPath
  let file := if kind = .directory then [] else h.base localPath
  { exportPath, localPath, file, mode
    words := attrs.resolve w
    fs := { exportPath, isRoot := true, within := [], base, file, attrs := attrs.named w } }

/-- `Registry.register`. An export that no record names is derived from the variant. -/
def Registry.register (h : Host) (files : Files) (r : Registry)
    (localPath recorded : Text) (mode : Mode) (w : ShareWords) :
    Except Unexportable (Registry × Share) :=
  match files.stat localPath with
  | none => .error (.cannotExport localPath)
  | some .special => .error (.notContent localPath)
  | some kind =>
    let words := r.attrs.resolve w
    let exportPath :=
      if recorded = [] then exportPathForID (h.shareIDFor localPath (words.variant mode))
      else recorded
    match r.shares.lookup exportPath with
    | some existing =>
      let share := existing.raise words
      .ok ({ r with shares := r.shares.insert exportPath share }, share)
    | none =>
      let share := r.attrs.share h kind localPath exportPath mode w
      .ok ({ r with shares := r.shares.insert exportPath share }, share)

/-- The export this program would have given a path as recorded. -/
def recordedExport (h : Host) (localPath : Text) (mode : Mode) (w : ShareWords) : Text :=
  if mode = {} then exportPathForID (h.legacyShareID localPath)
  else if w.owner = none then []
  else exportPathForID (h.shareIDFor localPath (w.variant mode))

def normalizeExport (path : Text) : Text :=
  let p := Record.trimSpace path
  if p = [] then ['/']
  else
    let p := GoPath.clean (if p.head? = some '/' then p else '/' :: p)
    if p = ['/'] then p else if p.getLast? = some '/' then p.dropLast else p

/-- A path below a share's root is the share's too. -/
def Registry.lookup (r : Registry) (exportPath : Text) : Option (Share × Text) :=
  let clean := normalizeExport exportPath
  match r.shares.lookup clean with
  | some share => some (share, ['/'])
  | none =>
    r.shares.entries.findSome? fun e ↦
      (cutPrefix (e.1 ++ ['/']) clean).map fun rest ↦ (e.2, '/' :: rest)

/-- A mask the record does not name is zero. -/
def masked (w : ShareWords) : ShareWords :=
  { w with fmask := some (w.fmask.getD ⟨0⟩), dmask := some (w.dmask.getD ⟨⟨0⟩, zero_enterable⟩) }

/-- `LookupOrRestore` after `Restore` has answered. -/
def Registry.restored (h : Host) (files : Files) (r : Registry) (clean : Text)
    (answer : Option (Text × Mode × ShareWords)) : Option (Registry × Share) :=
  match answer with
  | none => none
  | some (localPath, mode, w) =>
    if clean ≠ recordedExport h localPath mode w then none
    else
      match r.register h files localPath clean mode (masked w) with
      | .error _ => none
      | .ok (r', share) => if share.exportPath = clean then some (r', share) else none

/-- A share as it is registered: its export is derived from its path and its words, which are all
set, and its filesystem is its own. -/
structure Registered (h : Host) (x : Text) (share : Share) : Prop where
  exportPath : share.exportPath = x
  derived : x = recordedExport h share.localPath share.mode share.words
  words : ∃ attrs watch prefetch,
    share.words = ⟨some attrs.owner, some attrs.fileMask, some attrs.dirMask, some watch,
      some prefetch⟩ ∧
    share.fs = ⟨x, true, [], if share.file = [] then share.localPath else h.dir share.localPath,
      share.file, attrs⟩

/-- Every share is. -/
def Registry.Sound (h : Host) (r : Registry) : Prop :=
  ∀ x share, r.shares.lookup x = some share → Registered h x share

section

variable {h : Host} {r r' : Registry} {x localPath : Text} {mode : Mode} {w : ShareWords}
  {share : Share} {files : Files}

theorem isExport_recordedExport (hne : recordedExport h localPath mode w ≠ []) :
    IsExport (recordedExport h localPath mode w) := by
  rw [recordedExport] at hne ⊢
  split_ifs at hne ⊢
  · exact isExport_legacyShareID h localPath
  · exact absurd rfl hne
  · exact isExport_shareIDFor h localPath _

theorem Registered.isExport (hreg : Registered h x share) : IsExport x := by
  have hne : recordedExport h share.localPath share.mode share.words ≠ [] := by
    obtain ⟨attrs, watch, prefetch, hwords, -⟩ := hreg.words
    rw [recordedExport, hwords]
    split_ifs with hunset howner
    · exact List.cons_ne_nil _ _
    · cases howner
    · exact List.cons_ne_nil _ _
  rw [hreg.derived]
  exact isExport_recordedExport hne

theorem Registered.isRoot (hreg : Registered h x share) : share.fs.isRoot = true := by
  obtain ⟨attrs, watch, prefetch, -, hfs⟩ := hreg.words
  rw [hfs]

theorem Registered.fs_exportPath (hreg : Registered h x share) : share.fs.exportPath = x := by
  obtain ⟨attrs, watch, prefetch, -, hfs⟩ := hreg.words
  rw [hfs]

private theorem exists_stronger {α : Type} (rank : Option α → Nat) (hnone : rank none = 0) (a : α)
    (other : Option α) : ∃ b, stronger rank (some a) other = some b := by
  rw [stronger]
  split_ifs with hless
  · cases other with
    | none =>
      rw [hnone] at hless
      exact absurd hless (Nat.not_lt_zero _)
    | some b => exact ⟨b, rfl⟩
  · exact ⟨a, rfl⟩

private theorem Registered.raise (hreg : Registered h x share) (w : ShareWords) :
    Registered h x (share.raise w) where
  exportPath := hreg.exportPath
  derived := hreg.derived
  words := by
    obtain ⟨attrs, watch, prefetch, hwords, hfs⟩ := hreg.words
    obtain ⟨watch', hwatch⟩ := exists_stronger watchRank rfl watch w.watch
    obtain ⟨prefetch', hprefetch⟩ := exists_stronger prefetchRank rfl prefetch w.prefetch
    refine ⟨attrs, watch', prefetch', ?_, hfs⟩
    rw [Share.raise, hwords, hwatch, hprefetch]

private theorem registered_share {attrs : Attrs} {kind : Kind}
    (hderived : x = recordedExport h localPath mode (attrs.resolve w)) :
    Registered h x (attrs.share h kind localPath x mode w) where
  exportPath := rfl
  derived := hderived
  words := by
    refine ⟨attrs.named w, w.watch.getD .watchOff, w.prefetch.getD .off, rfl, ?_⟩
    by_cases hdir : kind = .directory
    · simp only [Attrs.share, if_pos hdir, if_true]
    · simp only [Attrs.share, if_neg hdir, if_neg (h.base_ne localPath)]

/-- The export `register` gives. -/
def Registry.exportFor (r : Registry) (h : Host) (localPath recorded : Text) (mode : Mode)
    (w : ShareWords) : Text :=
  if recorded = [] then exportPathForID (h.shareIDFor localPath ((r.attrs.resolve w).variant mode))
  else recorded

/-- A mount that names both its modes has the export its record names. -/
theorem exportFor_of_modes (r : Registry) (localPath : Text) (read : Read) (write : Write)
    (w : ShareWords) : r.exportFor h localPath [] ⟨some read, some write⟩ w =
      recordedExport h localPath ⟨some read, some write⟩ (r.attrs.resolve w) := by
  rw [Registry.exportFor, if_pos rfl, recordedExport, if_neg (by simp),
    if_neg (by simp [Attrs.resolve])]

/-- A registration raises the share that is there, or makes it. -/
theorem register_cases {recorded : Text}
    (hreg : r.register h files localPath recorded mode w = .ok (r', share)) :
    r' = { r with shares := r.shares.insert (r.exportFor h localPath recorded mode w) share } ∧
      ((∃ existing, r.shares.lookup (r.exportFor h localPath recorded mode w) = some existing ∧
        share = existing.raise (r.attrs.resolve w)) ∨
      r.shares.lookup (r.exportFor h localPath recorded mode w) = none ∧
        ∃ kind, files.stat localPath = some kind ∧
          share = r.attrs.share h kind localPath (r.exportFor h localPath recorded mode w)
            mode w) := by
  revert hreg
  fun_cases Registry.register h files r localPath recorded mode w
  · nofun
  · nofun
  · next kind _ hstat _ _ existing hlookup _ =>
    intro hreg
    obtain ⟨hr', hshare⟩ := Prod.mk.inj (Except.ok.inj hreg)
    exact ⟨hshare ▸ hr'.symm, .inl ⟨existing, hlookup, hshare.symm⟩⟩
  · next kind _ hstat _ _ hlookup _ =>
    intro hreg
    obtain ⟨hr', hshare⟩ := Prod.mk.inj (Except.ok.inj hreg)
    exact ⟨hshare ▸ hr'.symm, .inr ⟨hlookup, kind, hstat, hshare.symm⟩⟩

theorem register_keyed {recorded : Text}
    (hkeyed : ∀ x share, r.shares.lookup x = some share → share.exportPath = x)
    (hreg : r.register h files localPath recorded mode w = .ok (r', share)) :
    ∀ x share, r'.shares.lookup x = some share → share.exportPath = x := by
  obtain ⟨rfl, hshare⟩ := register_cases hreg
  refine forall_lookup_insert ?_ hkeyed
  rcases hshare with ⟨existing, hexisting, rfl⟩ | ⟨-, kind, -, rfl⟩
  · exact hkeyed _ existing hexisting
  · rfl

theorem mem_register {recorded x : Text}
    (hreg : r.register h files localPath recorded mode w = .ok (r', share)) (hx : x ∈ r.shares) :
    x ∈ r'.shares := by
  obtain ⟨rfl, -⟩ := register_cases hreg
  exact (AList.mem_insert _).mpr (.inr hx)

theorem exportPath_mem_register {recorded : Text}
    (hkeyed : ∀ x share, r.shares.lookup x = some share → share.exportPath = x)
    (hreg : r.register h files localPath recorded mode w = .ok (r', share)) :
    share.exportPath ∈ r'.shares := by
  have hkeyed' := register_keyed hkeyed hreg
  obtain ⟨rfl, -⟩ := register_cases hreg
  have hlookup := AList.lookup_insert r.shares (a := r.exportFor h localPath recorded mode w)
    (b := share)
  rw [hkeyed' _ _ hlookup]
  exact mem_of_lookup hlookup

theorem register_of_none {recorded : Text} {kind : Kind} (hstat : files.stat localPath = some kind)
    (hcontent : kind ≠ .special)
    (hnone : r.shares.lookup (r.exportFor h localPath recorded mode w) = none) :
    let share := r.attrs.share h kind localPath (r.exportFor h localPath recorded mode w) mode w
    r.register h files localPath recorded mode w =
      .ok ({ r with shares := r.shares.insert (r.exportFor h localPath recorded mode w) share },
        share) := by
  fun_cases Registry.register h files r localPath recorded mode w
  · next hgone =>
    rw [hgone] at hstat
    cases hstat
  · next hspecial =>
    rw [hspecial] at hstat
    exact absurd (Option.some.inj hstat).symm hcontent
  · next existing hlookup _ =>
    have hin : r.shares.lookup (r.exportFor h localPath recorded mode w) = some existing := hlookup
    rw [hnone] at hin
    cases hin
  · next kind' _ hkind _ _ _ _ =>
    rw [hkind] at hstat
    cases hstat
    rfl

theorem sound_register {recorded : Text} (hsound : r.Sound h)
    (hexport : r.exportFor h localPath recorded mode w =
      recordedExport h localPath mode (r.attrs.resolve w))
    (hreg : r.register h files localPath recorded mode w = .ok (r', share)) :
    r'.Sound h ∧ Registered h (r.exportFor h localPath recorded mode w) share := by
  obtain ⟨rfl, hshare⟩ := register_cases hreg
  have hnew : Registered h (r.exportFor h localPath recorded mode w) share := by
    rcases hshare with ⟨existing, hlookup, rfl⟩ | ⟨-, kind, -, rfl⟩
    · exact (hsound _ existing hlookup).raise _
    · exact registered_share hexport
  refine ⟨?_, hnew⟩
  intro x share' hlookup
  rcases lookup_insert_eq_some.mp hlookup with ⟨rfl, rfl⟩ | ⟨-, hold⟩
  · exact hnew
  · exact hsound x share' hold

/-- The zero a mask that is not named stands for does not change the export. -/
theorem recordedExport_resolve (attrs : Attrs) (hne : recordedExport h localPath mode w ≠ []) :
    recordedExport h localPath mode (attrs.resolve (masked w)) =
      recordedExport h localPath mode w := by
  by_cases hunset : mode = {}
  · rw [recordedExport, recordedExport, if_pos hunset, if_pos hunset]
  · have howner : w.owner ≠ none := by
      intro hnone
      apply hne
      rw [recordedExport, if_neg hunset, if_pos hnone]
    have hset : (attrs.resolve (masked w)).owner ≠ none := Option.some_ne_none _
    have hvariant : (attrs.resolve (masked w)).variant mode = w.variant mode := by
      obtain ⟨o, ho⟩ := Option.ne_none_iff_exists'.mp howner
      simp only [ShareWords.variant, Attrs.resolve, Attrs.named, masked, ho, Option.getD_some]
    rw [recordedExport, recordedExport, if_neg hunset, if_neg hunset, if_neg hset, if_neg howner,
      hvariant]

theorem restored_cases {clean : Text} {answer : Option (Text × Mode × ShareWords)}
    (hres : r.restored h files clean answer = some (r', share)) :
    ∃ localPath mode w, answer = some (localPath, mode, w) ∧
      clean = recordedExport h localPath mode w ∧
      r.register h files localPath clean mode (masked w) = .ok (r', share) := by
  revert hres
  fun_cases Registry.restored h files r clean answer
  · nofun
  · nofun
  · nofun
  · next localPath mode w hclean _ _ hreg hsame =>
    intro hres
    cases hres
    exact ⟨localPath, mode, w, rfl, not_not.mp hclean, hreg⟩
  · nofun

theorem sound_restored {clean : Text} {answer : Option (Text × Mode × ShareWords)}
    (hclean : clean ≠ []) (hsound : r.Sound h)
    (hres : r.restored h files clean answer = some (r', share)) :
    r'.Sound h ∧ Registered h clean share ∧ r'.shares.lookup clean = some share := by
  obtain ⟨localPath, mode, w, -, hderived, hreg⟩ := restored_cases hres
  have hfor : r.exportFor h localPath clean mode (masked w) = clean := by
    rw [Registry.exportFor, if_neg hclean]
  have hexport : r.exportFor h localPath clean mode (masked w) =
      recordedExport h localPath mode (r.attrs.resolve (masked w)) := by
    rw [hfor, recordedExport_resolve r.attrs (hderived ▸ hclean)]
    exact hderived
  obtain ⟨hsound', hregistered⟩ := sound_register hsound hexport hreg
  obtain ⟨rfl, -⟩ := register_cases hreg
  rw [hfor] at hregistered hsound' ⊢
  exact ⟨hsound', hregistered, AList.lookup_insert _⟩

theorem normalizeExport_ne_nil (p : Text) : normalizeExport p ≠ [] := by
  have hrooted : ∀ q : Text, ∃ body,
      GoPath.clean (if q.head? = some '/' then q else '/' :: q) = '/' :: body := by
    intro q
    by_cases hq : q.head? = some '/'
    · refine ⟨['/'].intercalate (GoPath.elements q), ?_⟩
      rw [if_pos hq, GoPath.clean, if_pos hq]
    · refine ⟨['/'].intercalate (GoPath.elements ('/' :: q)), ?_⟩
      rw [if_neg hq, GoPath.clean, if_pos List.head?_cons]
  obtain ⟨body, hbody⟩ := hrooted (Record.trimSpace p)
  simp only [normalizeExport, hbody]
  split_ifs with hempty hroot hlast
  · exact List.cons_ne_nil _ _
  · exact List.cons_ne_nil _ _
  · cases body with
    | nil => exact absurd rfl hroot
    | cons c body => exact List.cons_ne_nil _ _
  · exact List.cons_ne_nil _ _

private theorem isExport_plain (hx : IsExport x) :
    ∃ id, x = '/' :: 'm' :: '/' :: id ∧ id ≠ [] ∧ ∀ c ∈ id, c ∈ "0123456789abcdef".toList := by
  obtain ⟨bytes, hlength, rfl⟩ := hx
  refine ⟨Hex.encodeDigits bytes, rfl, ?_, fun c hc ↦ Hex.mem_encodeDigits hc⟩
  rw [← List.length_pos_iff, Hex.length_encodeDigits, hlength]
  decide

/-- An export path is in normal form. -/
theorem normalizeExport_of_isExport (hx : IsExport x) : normalizeExport x = x := by
  obtain ⟨id, rfl, hne, hdigits⟩ := isExport_plain hx
  have hplain : ∀ part ∈ [['m'], id], GoPath.Plain part := by
    intro part hpart
    rcases List.mem_cons.mp hpart with rfl | hpart
    · exact ⟨by decide, by decide, by decide, by decide⟩
    · rw [List.mem_singleton] at hpart
      subst hpart
      refine ⟨hne, ?_, ?_, ?_⟩
      · rintro rfl
        exact absurd (hdigits '.' (by decide)) (by decide)
      · rintro rfl
        exact absurd (hdigits '.' (by decide)) (by decide)
      · intro hslash
        exact absurd (hdigits '/' hslash) (by decide)
  have hpath : '/' :: 'm' :: '/' :: id = GoPath.rootedPath [['m'], id] := by
    rw [GoPath.rootedPath, List.intercalate_cons_cons, List.intercalate_singleton]
    rfl
  have hclean : GoPath.clean ('/' :: 'm' :: '/' :: id) = '/' :: 'm' :: '/' :: id := by
    rw [hpath]
    exact GoPath.clean_rootedPath (List.cons_ne_nil _ _) hplain
  have htrim : Record.trimSpace ('/' :: 'm' :: '/' :: id) = '/' :: 'm' :: '/' :: id := by
    apply Record.trimSpace_of_isSpace_eq_false
    have hall : "0123456789abcdef".toList.any Record.isSpace = false := by decide
    intro c hc
    simp only [List.mem_cons] at hc
    rcases hc with rfl | rfl | rfl | hc
    · decide
    · decide
    · decide
    · exact Bool.eq_false_iff.mpr (List.any_eq_false.mp hall c (hdigits c hc))
  have hlast : ('/' :: 'm' :: '/' :: id).getLast? ≠ some '/' := by
    intro hslash
    obtain ⟨c, rest, rfl⟩ := List.exists_cons_of_ne_nil hne
    rw [List.getLast?_cons_cons, List.getLast?_cons_cons, List.getLast?_cons_cons] at hslash
    exact absurd (hdigits '/' (List.mem_of_getLast? hslash)) (by decide)
  have hroot : '/' :: 'm' :: '/' :: id ≠ ['/'] := by simp
  simp only [normalizeExport, htrim, if_neg (List.cons_ne_nil '/' _), List.head?_cons, if_true,
    hclean,
    if_neg hlast, if_neg hroot]

theorem lookup_eq_none (hsound : r.Sound h) (hx : IsExport x) (hnone : r.shares.lookup x = none) :
    r.lookup x = none := by
  unfold Registry.lookup
  rw [normalizeExport_of_isExport hx]
  simp only [hnone]
  rw [List.findSome?_eq_none_iff]
  rintro ⟨y, share⟩ hmem
  have hy : IsExport y := (hsound y share (AList.mem_lookup_iff.mpr hmem)).isExport
  rw [Option.map_eq_none_iff, cutPrefix, if_neg]
  intro hstarts
  -- Two exports are as long as each other, and a path below one is longer.
  have hle := (List.isPrefixOf_iff_prefix.mp hstarts).length_le
  rw [List.length_append, hx.length, hy.length, List.length_singleton] at hle
  omega

theorem lookup_eq_some (hx : IsExport x) (hsome : r.shares.lookup x = some share) :
    r.lookup x = some (share, ['/']) := by
  unfold Registry.lookup
  rw [normalizeExport_of_isExport hx]
  simp only [hsome]

end

end RemoteDocker.NfsServe

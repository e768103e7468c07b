import RemoteDocker.Base.Record
import RemoteDocker.NfsServe.OneFile

/-!
# A share of one file touches one file

A name is judged by `slashed`, which reads a backslash as a separator, and acted on as the machine
reads it: off Windows a backslash is an ordinary character of a name. Where both come to the same,
and the name is not the path of the directory itself, what it comes to is the file; where they do
not, some request of that name touches another path.
-/

namespace RemoteDocker.NfsServe.OneFile

open Base Base.FilePath

variable {f : OneFile} {links : Links} {p before : Path}

/-- A directory without symbolic links. -/
def noLinks : Links := fun _ ↦ none

/-- The directory is not called what the file is. -/
def ApartFrom (f : OneFile) : Prop := (elements f.root).getLast? ≠ some f.name

instance : Decidable (ApartFrom f) :=
  inferInstanceAs (Decidable (_ ≠ _))

/-- The names of a path as the machine reads it, from the root. -/
def asSpelled (p : Path) : Path := elements ([] :: p)

/-- The name begins with the path of the directory, which the bound filesystem may take away. -/
def Repeats (f : OneFile) (p : Path) : Prop :=
  elements f.root ≠ [] ∧ elements f.root <+: asSpelled p

/-- What is assumed of `SecureJoin` and the bound filesystem at the directory of the share. -/
structure Lawful (f : OneFile) : Prop where
  /-- Parts that lead nowhere lead to the directory. -/
  secureJoin_idle : ∀ links p d, (∀ part ∈ p, Idle part) → f.secureJoin links p = .ok d → d = []
  bound_idle : ∀ links p path, (∀ part ∈ p, Idle part) → f.bound links p = .ok path → path = []
  /-- They add nothing before the name of the file, unless that is the directory's own path. -/
  bound_before : ∀ links before path, (∀ part ∈ before, Idle part) → ¬Idle f.name →
    f.shareRelative (before ++ [f.name]) ≠ [['.']] →
    f.bound links (before ++ [f.name]) = .ok path → f.bound links [f.name] = .ok path
  bound_name : ∀ links path, ¬Idle f.name → links [f.name] = none →
    f.bound links [f.name] = .ok path → path = [f.name]
  /-- Where there are no links and no volumes, a path leads to its own names. -/
  bound_names : f.os.windows = false → ∀ before rest, (∀ part ∈ before, Idle part) →
    (∀ name ∈ rest, ¬Idle name) → ¬Repeats f (before ++ rest) →
    f.bound noLinks (before ++ rest) = .ok rest
  /-- Readlink goes by what is written, inside the directory. -/
  readlink_name : ApartFrom f → ∀ links before path, (∀ part ∈ before, Idle part) →
    ¬Idle f.name → f.readlink links (before ++ [f.name]) = .ok path → path = [f.name]

/-- The path of a file that is no link, or what the bound filesystem makes of it where it is. -/
def Reached (f : OneFile) (links : Links) (path : Path) : Prop :=
  path = [f.name] ∨ (links [f.name]).isSome = true ∧ f.bound links [f.name] = .ok path

/-- The machine reads a name as `slashed` does: what is visible is the file, and not the directory's
own path; what is the root is the directory, or the file. -/
structure Told (f : OneFile) (p : Path) : Prop where
  visible : f.visible p = true → asSpelled p = [f.name] ∧ f.shareRelative p ≠ [['.']]
  link : f.visible p = true → ∀ links path, f.readlink links p = .ok path → Reached f links path
  root : isRootPath p = true → f.spellable p = true →
    asSpelled p = [] ∨ asSpelled p = [f.name] ∧ f.shareRelative p ≠ [['.']]

/-- The name of the file with these parts before it leads to the file, and is not the directory's
own path. -/
structure Leads (f : OneFile) (before : Path) : Prop where
  idle : ∀ part ∈ before, Idle part
  name : ¬Idle f.name
  own : f.shareRelative (before ++ [f.name]) ≠ [['.']]

/-- A touch of the file, or a look at the directory. -/
def Allowed (f : OneFile) (t : Touch) : Prop :=
  Reached f t.links t.path ∨ t.path = [] ∧ (t.act = .statted ∨ t.act = .lstatted)

/-! ### How a name is made -/

/-- What a name is joined to: parts that lead nowhere, and names. -/
theorem join_spec (names : Names) :
    ∃ before rest, f.os.join names = before ++ rest ∧ (∀ part ∈ before, Idle part) ∧
      (∀ name ∈ rest, ¬Idle name) ∧ before ++ rest ≠ [] ∧
      (f.os.windows = true → ∀ name ∈ rest, '\\' ∉ name) := by
  unfold Platform.join
  split
  · refine ⟨[[]], [], rfl, ?_, nofun, List.cons_ne_nil _ _, fun _ ↦ nofun⟩
    intro part hpart
    exact .inl (List.mem_singleton.mp hpart)
  · obtain ⟨before, rest, hclean, hbefore, hrest, hold⟩ :=
      clean_spec ((names.filter (· ≠ [])).flatMap f.os.split)
    refine ⟨before, rest, hclean, hbefore, hrest, ?_, ?_⟩
    · rw [← hclean]
      unfold clean
      split_ifs
      · split
        · exact List.cons_ne_nil _ _
        · exact List.cons_ne_nil _ _
      · split
        · exact List.cons_ne_nil _ _
        · next hne => exact hne
    · intro hwindows name hname hback
      obtain ⟨text, -, hsplit⟩ := List.mem_flatMap.mp (hold name hname)
      have hsep := (Record.of_mem_splitOnP hsplit hback).2
      simp [Platform.isSeparator, hwindows] at hsep

private theorem join_of_asSpelled {names : Names} {rest : Path}
    (h : asSpelled (f.os.join names) = rest) :
    ∃ before, f.os.join names = before ++ rest ∧ (∀ part ∈ before, Idle part) ∧
      ∀ name ∈ rest, ¬Idle name := by
  obtain ⟨before, rest', hjoin, hbefore, hrest, hne, -⟩ := join_spec (f := f) names
  rw [asSpelled, hjoin, elements_root hbefore hrest hne] at h
  subst h
  exact ⟨before, hjoin, hbefore, hrest⟩

private theorem leads_of_asSpelled {names : Names} (h : asSpelled (f.os.join names) = [f.name] ∧
    f.shareRelative (f.os.join names) ≠ [['.']]) :
    ∃ before, f.os.join names = before ++ [f.name] ∧ Leads f before := by
  obtain ⟨before, hjoin, hbefore, hname⟩ := join_of_asSpelled h.1
  refine ⟨before, hjoin, hbefore, hname _ (List.mem_singleton_self _), ?_⟩
  rw [← hjoin]
  exact h.2

/-! ### Where a name leads -/

section

variable (hbefore : ∀ part ∈ before, Idle part) (hname : ¬Idle f.name)

include hbefore in
private theorem rooted_of_isAbs {rest : Path} (hlength : rest.length ≤ 1)
    (habs : f.os.isAbs (before ++ rest) = true) : rooted (before ++ rest) = true := by
  cases before with
  | nil =>
    cases rest with
    | nil => cases habs
    | cons name rest =>
      rw [List.length_cons] at hlength
      have hnil : rest = [] := List.length_eq_zero_iff.mp (by omega)
      subst hnil
      rw [List.nil_append, Platform.isAbs] at habs
      · cases habs
      all_goals simp
  | cons part before =>
    rcases hbefore part (.head _) with rfl | rfl | rfl
    · cases h : before ++ rest with
      | nil =>
        rw [List.cons_append, h] at habs
        cases habs
      | cons second more =>
        rw [List.cons_append, h]
        rfl
    · rw [List.cons_append, Platform.isAbs] at habs
      · cases habs
      all_goals simp
    · rw [List.cons_append, Platform.isAbs] at habs
      · cases habs
      all_goals simp

private theorem afterVolume_of_rooted (hroot : rooted p = true) :
    f.afterVolume p = none ∨ f.afterVolume p = some p := by
  unfold afterVolume
  split_ifs
  · left
    cases p with
    | nil => rfl
    | cons v rest =>
      cases v with
      | nil => rfl
      | cons c v => cases hroot
  · exact .inr rfl

include hbefore in
/-- What an absolute name is relative to the directory: it stays absolute, or is what is left of its
names below the directory. -/
theorem shareRelative_of_isAbs {rest : Path} (hrest : ∀ name ∈ rest, ¬Idle name)
    (hlength : rest.length ≤ 1) (habs : f.os.isAbs (before ++ rest) = true) :
    f.shareRelative (before ++ rest) = before ++ rest ∨
      elements f.root <+: rest ∧ f.shareRelative (before ++ rest) =
        if rest.drop (elements f.root).length = [] then [['.']]
        else rest.drop (elements f.root).length := by
  have hroot := rooted_of_isAbs hbefore hlength habs
  rw [shareRelative, if_pos habs]
  rcases afterVolume_of_rooted (f := f) hroot with hnone | hsome
  · rw [hnone]
    exact .inl rfl
  · rw [hsome, Option.bind_some, relBelow, below, elements_of_rooted hbefore hrest hroot]
    by_cases hbelow : elements f.root <+: rest
    · right
      refine ⟨hbelow, ?_⟩
      rw [if_pos hbelow]
      rfl
    · left
      rw [if_neg hbelow]
      rfl

include hname in
private theorem concat_ne {q : Path} (hq : ∀ part ∈ q, Idle part) (before : Path) :
    before ++ [f.name] ≠ q := by
  rintro rfl
  exact hname (hq _ (List.mem_append_right _ (List.mem_singleton_self _)))

include hbefore hname in
/-- Relative to the directory, the file's name is the file's name still, or it was the directory's
own path. -/
theorem shareRelative_cases :
    (∃ before', f.shareRelative (before ++ [f.name]) = before' ++ [f.name] ∧
      ∀ part ∈ before', Idle part) ∨
    f.shareRelative (before ++ [f.name]) = [['.']] ∧ elements f.root = [f.name] := by
  by_cases habs : f.os.isAbs (before ++ [f.name]) = true
  · have hnames : ∀ name ∈ [f.name], ¬Idle name := List.forall_mem_singleton.mpr hname
    rcases shareRelative_of_isAbs hbefore hnames (Nat.le_refl 1) habs with hsame | ⟨hbelow, hrel⟩
    · exact .inl ⟨before, hsame, hbefore⟩
    · rcases List.prefix_cons_iff.mp hbelow with hempty | ⟨tail, hroot, htail⟩
      · refine .inl ⟨[], ?_, nofun⟩
        rw [hrel, hempty]
        rfl
      · rw [List.prefix_nil.mp htail] at hroot
        refine .inr ⟨?_, hroot⟩
        rw [hrel, hroot]
        rfl
  · exact .inl ⟨before, by rw [shareRelative, if_neg habs], hbefore⟩

include hbefore hname in
private theorem shareRelative_ne (hroot : elements f.root ≠ [f.name]) :
    f.shareRelative (before ++ [f.name]) ≠ [['.']] := by
  rcases shareRelative_cases hbefore hname with ⟨before', hrel, -⟩ | ⟨-, hsame⟩
  · rw [hrel]
    exact concat_ne hname (by decide) before'
  · exact absurd hsame hroot

private theorem base_visible (before : Path) : base (before ++ [f.name]) = some f.name := by
  have hfilter : (before ++ [f.name]).filter (· ≠ []) = before.filter (· ≠ []) ++ [f.name] := by
    rw [List.filter_append, List.filter_cons_of_pos (by simp [f.name_ne])]
    rfl
  rw [base, hfilter, List.getLast?_concat]

include hbefore in
private theorem Lawful.secureJoin_dir (hf : Lawful f) (name : Part) {d : Path}
    (h : f.secureJoin links (dir (before ++ [name])) = .ok d) : d = [] := by
  have hidle : ∀ part ∈ before ++ [[]], Idle part := by
    intro part hpart
    rcases List.mem_append.mp hpart with hin | hin
    · exact hbefore part hin
    · exact .inl (List.mem_singleton.mp hin)
  have hnone : ∀ name ∈ ([] : Path), ¬Idle name := nofun
  obtain ⟨before', hclean, hbefore'⟩ := clean_of_idle hidle hnone
  rw [List.append_nil, List.append_nil] at hclean
  rw [dir, List.dropLast_concat, hclean] at h
  exact hf.secureJoin_idle links before' d hbefore' h

include hbefore hname in
private theorem Lawful.secureLeaf (hf : Lawful f) {path : Path}
    (h : f.secureLeaf links (before ++ [f.name]) = .ok path) : path = [f.name] := by
  rcases shareRelative_cases hbefore hname with ⟨before', hrel, hbefore'⟩ | ⟨hown, -⟩
  · have hdots : ¬(f.name = ['.'] ∨ f.name = ['.', '.']) := fun h ↦ hname (.inr h)
    simp only [OneFile.secureLeaf, hrel, base_visible, if_neg hdots] at h
    split_ifs at h
    split at h
    · cases h
    · next d hd =>
      rw [hf.secureJoin_dir hbefore' f.name hd] at h
      exact (Except.ok.inj h).symm
  · -- The directory is no entry of itself.
    have hbase : base [['.']] = some ['.'] := rfl
    simp only [OneFile.secureLeaf, hown, hbase, true_or, if_true] at h
    split_ifs at h

end

section

variable (hf : Lawful f) (hleads : Leads f before) {path : Path}

include hf hleads

private theorem Leads.reached (h : f.bound links (before ++ [f.name]) = .ok path) :
    Reached f links path := by
  have hbound := hf.bound_before links before path hleads.idle hleads.name hleads.own h
  cases hlink : links [f.name] with
  | some target => exact .inr ⟨by rw [hlink]; rfl, hbound⟩
  | none => exact .inl (hf.bound_name links path hleads.name hlink hbound)

private theorem Leads.lstatPath (h : f.lstatPath links (before ++ [f.name]) = .ok path) :
    path = [f.name] := by
  have hname := hleads.name
  have hnames : ∀ name ∈ [f.name], ¬Idle name := List.forall_mem_singleton.mpr hname
  rcases shareRelative_cases hleads.idle hname with ⟨before', hrel, hbefore'⟩ | ⟨hsame, -⟩
  · obtain ⟨before'', hclean, hbefore''⟩ := clean_of_idle hbefore' hnames
    have hnot : ¬(before'' ++ [f.name] = [['.']] ∨ before'' ++ [f.name] = [[], []]) := by
      rintro (hdot | hroot)
      · exact concat_ne hname (by decide) before'' hdot
      · exact concat_ne hname (by decide) before'' hroot
    simp only [OneFile.lstatPath, hrel, hclean, if_neg hnot] at h
    exact hf.secureLeaf hbefore'' hname h
  · exact absurd hsame hleads.own

private theorem Leads.resolve (h : f.resolve links (before ++ [f.name]) = .ok path) :
    path = [f.name] := by
  have hname := hleads.name
  rcases shareRelative_cases hleads.idle hname with ⟨before', hrel, hbefore'⟩ | ⟨hsame, -⟩
  · have hnot : ¬(before' ++ [f.name] = [[]] ∨ before' ++ [f.name] = [['.']] ∨
        before' ++ [f.name] = [[], []]) := by
      rintro (hempty | hdot | hroot)
      · exact concat_ne hname (by decide) before' hempty
      · exact concat_ne hname (by decide) before' hdot
      · exact concat_ne hname (by decide) before' hroot
    simp only [OneFile.resolve, hrel, if_neg hnot] at h
    split_ifs at h
    exact hf.secureLeaf hbefore' hname h
  · exact absurd hsame hleads.own

end

/-! ### The directory itself -/

section

variable (hidle : ∀ part ∈ p, Idle part)

include hidle in
private theorem shareRelative_root : ∀ part ∈ f.shareRelative p, Idle part := by
  by_cases habs : f.os.isAbs p = true
  · have hnone : ∀ name ∈ ([] : Path), ¬Idle name := nofun
    have hlength : ([] : Path).length ≤ 1 := Nat.zero_le 1
    rw [← List.append_nil p] at habs ⊢
    rcases shareRelative_of_isAbs hidle hnone hlength habs with hsame | ⟨-, hrel⟩
    · rw [hsame, List.append_nil]
      exact hidle
    · rw [hrel, List.drop_nil, if_pos rfl]
      decide
  · rw [shareRelative, if_neg habs]
    exact hidle

private theorem secureLeaf_root (hidle : ∀ part ∈ p, Idle part) {path : Path} :
    f.secureLeaf links p ≠ .ok path := by
  have hrel := shareRelative_root (f := f) hidle
  have hbase : ∀ b, base (f.shareRelative p) = some b → b = ['.'] ∨ b = ['.', '.'] := by
    intro b hb
    rw [base] at hb
    split at hb
    · next part hlast =>
      cases hb
      obtain ⟨hin, hne⟩ := List.mem_filter.mp (List.mem_of_getLast? hlast)
      rcases hrel b hin with rfl | hdots
      · cases hne
      · exact hdots
    · split_ifs at hb
      cases hb
      exact .inl rfl
  simp only [secureLeaf]
  split_ifs
  · nofun
  · split
    · nofun
    · next b hb =>
      rw [if_pos (hbase b hb)]
      nofun

include hidle in
private theorem lstatPath_root {path : Path} (h : f.lstatPath links p = .ok path) : path = [] := by
  have hrel := shareRelative_root (f := f) hidle
  have hnone : ∀ name ∈ ([] : Path), ¬Idle name := nofun
  obtain ⟨before', hclean, hbefore'⟩ := clean_of_idle hrel hnone
  rw [List.append_nil, List.append_nil] at hclean
  simp only [lstatPath, hclean] at h
  split_ifs at h
  · cases h
    rfl
  · exact absurd h (secureLeaf_root hbefore')

end

/-! ### What is touched -/

/-- What was touched is allowed, and what is held open was. -/
structure Inv (f : OneFile) (s : Served) : Prop where
  touched : ∀ t ∈ s.touched, Allowed f t
  held : ∀ p entry, s.held.lookup p = some entry → Reached f entry.2 entry.1

section

variable {s : Served} {act : Act}

private theorem Inv.touch (hinv : Inv f s) {path : Except Refused Path}
    (h : ∀ q, path = .ok q → Allowed f ⟨act, q, links⟩) : Inv f (s.touch links act path) := by
  cases path with
  | error e => exact hinv
  | ok q =>
    refine { hinv with touched := ?_ }
    intro t ht
    rcases List.mem_cons.mp ht with rfl | ht
    · exact h q rfl
    · exact hinv.touched t ht

private theorem Inv.evict (hinv : Inv f s) (keep : Path → Bool) :
    Inv f { s with held := restrict s.held keep } where
  touched := hinv.touched
  held := by
    intro p entry hlookup
    rw [lookup_restrict] at hlookup
    split_ifs at hlookup
    exact hinv.held p entry hlookup

private theorem Inv.erase (hinv : Inv f s) (p : Path) :
    Inv f { s with held := s.held.erase p } where
  touched := hinv.touched
  held := fun q entry hlookup ↦ hinv.held q entry (lookup_erase_eq_some.mp hlookup).2

private theorem allowed_name {path : Path} (h : path = [f.name]) : Allowed f ⟨act, path, links⟩ :=
  .inl (.inl h)

variable (hf : Lawful f) (hleads : Leads f before)

include hf hleads

private theorem allowed_bound {path : Path} (h : f.bound links (before ++ [f.name]) = .ok path) :
    Allowed f ⟨act, path, links⟩ := .inl (hleads.reached hf h)

private theorem allowed_create {path : Path} (h : f.create links (before ++ [f.name]) = .ok path) :
    Allowed f ⟨act, path, links⟩ := by
  rw [create] at h
  split_ifs at h
  exact allowed_bound hf hleads h

private theorem Inv.openFile (hinv : Inv f s) (flags : Flags) :
    Inv f (s.openFile f links (before ++ [f.name]) flags) := by
  unfold Served.openFile
  split
  · split
    · exact (hinv.erase _).touch fun q hq ↦ allowed_create hf hleads hq
    · exact (hinv.erase _).touch fun q hq ↦ allowed_bound hf hleads hq
  · split
    · next path old hlookup =>
      refine { hinv with touched := ?_ }
      intro t ht
      rcases List.mem_cons.mp ht with rfl | ht
      · exact .inl (hinv.held _ _ hlookup)
      · exact hinv.touched t ht
    · split
      · exact hinv
      · next path hpath =>
        have hreached := hleads.reached hf hpath
        constructor
        · intro t ht
          rcases List.mem_cons.mp ht with rfl | ht
          · exact .inl hreached
          · exact hinv.touched t ht
        · intro q entry hlookup
          simp only at hlookup
          split_ifs at hlookup
          · rcases lookup_insert_eq_some.mp hlookup with ⟨-, rfl⟩ | ⟨-, hold⟩
            · exact hreached
            · exact hinv.held q entry hold
          · exact hinv.held q entry hlookup

end

/-- A name that may be looked at leads nowhere, or to the file. -/
theorem Told.of_readable {names : Names} (h : Told f (f.os.join names))
    (hread : f.readable (f.os.join names) = true)
    (hspellable : f.spellable (f.os.join names) = true) :
    (∀ part ∈ f.os.join names, Idle part) ∨
      ∃ before, f.os.join names = before ++ [f.name] ∧ Leads f before := by
  rw [readable, Bool.or_eq_true] at hread
  rcases hread with hroot | hvisible
  · rcases h.root hroot hspellable with hempty | hspelled
    · obtain ⟨before, hjoin, hbefore, -⟩ := join_of_asSpelled hempty
      rw [hjoin, List.append_nil]
      exact .inl hbefore
    · exact .inr (leads_of_asSpelled hspelled)
  · exact .inr (leads_of_asSpelled (h.visible hvisible))

section

variable {s : Served} {names : Names} (hf : Lawful f) (hinv : Inv f s)

include hf hinv

private theorem Inv.stat (h : Told f (f.os.join names)) :
    Inv f (s.request f links (.stat names)) := by
  simp only [Served.request]
  split_ifs with hread
  · apply hinv.touch
    intro q hq
    rw [OneFile.stat] at hq
    split_ifs at hq with hspellable
    rcases h.of_readable hread hspellable with hidle | ⟨before, hjoin, hleads⟩
    · exact .inr ⟨hf.bound_idle links _ q hidle hq, .inl rfl⟩
    · rw [hjoin] at hq
      exact allowed_bound hf hleads hq
  · exact hinv

private theorem Inv.lstat (h : Told f (f.os.join names)) :
    Inv f (s.request f links (.lstat names)) := by
  simp only [Served.request]
  split_ifs with hread
  · apply hinv.touch
    intro q hq
    rw [OneFile.lstat] at hq
    split_ifs at hq with hspellable
    rcases h.of_readable hread hspellable with hidle | ⟨before, hjoin, hleads⟩
    · exact .inr ⟨lstatPath_root hidle hq, .inr rfl⟩
    · rw [hjoin] at hq
      exact allowed_name (hleads.lstatPath hf hq)
  · exact hinv

/-- The root lists the file by its bare name. -/
theorem Inv.readDir : Inv f (s.request f links (.readDir names)) := by
  simp only [Served.request]
  split_ifs
  · apply hinv.touch
    intro q hq
    rw [OneFile.lstat] at hq
    split_ifs at hq
    by_cases hname : Idle f.name
    · have hidle : ∀ part ∈ [f.name], Idle part := List.forall_mem_singleton.mpr hname
      exact .inr ⟨lstatPath_root hidle hq, .inr rfl⟩
    · have hnone : ∀ part ∈ ([] : Path), Idle part := nofun
      have hown : f.shareRelative ([] ++ [f.name]) ≠ [['.']] := by
        have habs : ¬f.os.isAbs ([] ++ [f.name]) = true := by
          rw [List.nil_append, Platform.isAbs]
          · exact Bool.false_ne_true
          all_goals simp
        rw [shareRelative, if_neg habs]
        exact concat_ne hname (by decide) []
      exact allowed_name (Leads.lstatPath hf ⟨hnone, hname, hown⟩ hq)
  · exact hinv

private theorem Inv.rename {source dest : Names} (hsource : Told f (f.os.join source))
    (hdest : Told f (f.os.join dest)) :
    Inv f (s.request f links (.rename source dest)) := by
  simp only [Served.request]
  split_ifs with hvisible
  · rw [Bool.and_eq_true] at hvisible
    obtain ⟨before, hjoin, hleads⟩ := leads_of_asSpelled (hsource.visible hvisible.1)
    obtain ⟨before', hjoin', hleads'⟩ := leads_of_asSpelled (hdest.visible hvisible.2)
    have hsourceOut :=
      hinv.evict fun q ↦ !(q = f.os.join source || Served.under (f.os.join source) q)
    have hkept := hsourceOut.evict fun q ↦ !(q = f.os.join dest || Served.under (f.os.join dest) q)
    split
    · exact hkept
    · next a b hrename =>
      rw [OneFile.rename, hjoin, hjoin'] at hrename
      split_ifs at hrename
      cases ha : f.secureLeaf links (before ++ [f.name]) with
      | error e =>
        rw [ha] at hrename
        cases hrename
      | ok a' =>
        cases hb : f.secureLeaf links (before' ++ [f.name]) with
        | error e =>
          rw [ha, hb] at hrename
          cases hrename
        | ok b' =>
          rw [ha, hb] at hrename
          cases hrename
          have ha' := hf.secureLeaf hleads.idle hleads.name ha
          have hb' := hf.secureLeaf hleads'.idle hleads'.name hb
          apply (hkept.touch _).touch
          · intro q hq
            cases hq
            exact allowed_name hb'
          · intro q hq
            cases hq
            exact allowed_name ha'
  · exact hinv

private theorem Inv.chmod (h : Told f (f.os.join names)) :
    Inv f (s.request f links (.chmod names)) := by
  simp only [Served.request]
  split
  · next hvisible =>
    obtain ⟨before, hjoin, hleads⟩ := leads_of_asSpelled (h.visible hvisible)
    split
    · exact hinv
    · next target plain hchmod =>
      rw [OneFile.chmod, hjoin] at hchmod
      cases hresolve : f.resolve links (before ++ [f.name]) with
      | error e =>
        rw [hresolve] at hchmod
        cases hchmod
      | ok target' =>
        rw [hresolve] at hchmod
        have htarget : target = [f.name] := by
          rw [← hleads.resolve hf hresolve]
          exact (Prod.mk.inj (Except.ok.inj hchmod)).1.symm
        have hone : ∀ (act : Act) (q : Path), (Except.ok target : Except Refused Path) = .ok q →
            Allowed f ⟨act, q, links⟩ := by
          intro act q hq
          cases hq
          exact allowed_name htarget
        split
        · exact (hinv.touch (hone _)).touch (hone _)
        · exact hinv.touch (hone _)
  · exact hinv

omit hf in
private theorem Inv.visible {s' : Served} (h : Told f (f.os.join names))
    (hs' : ∀ before, f.os.join names = before ++ [f.name] → Leads f before → Inv f s') :
    Inv f (if f.visible (f.os.join names) then s' else s) := by
  split_ifs with hvisible
  · obtain ⟨before, hjoin, hleads⟩ := leads_of_asSpelled (h.visible hvisible)
    exact hs' before hjoin hleads
  · exact hinv

private theorem Inv.request {r : Request} (h : ∀ names ∈ r.names, Told f (f.os.join names)) :
    Inv f (s.request f links r) := by
  cases r with
  | «open» names =>
    refine hinv.visible (h _ (.head _)) fun before hjoin hleads ↦ ?_
    rw [hjoin]
    exact hinv.touch fun q hq ↦ allowed_bound hf hleads hq
  | openFile names flags =>
    refine hinv.visible (h _ (.head _)) fun before hjoin hleads ↦ ?_
    rw [hjoin]
    exact Inv.openFile hf hleads hinv flags
  | create names =>
    refine hinv.visible (h _ (.head _)) fun before hjoin hleads ↦ ?_
    rw [hjoin]
    exact hinv.touch fun q hq ↦ allowed_create hf hleads hq
  | stat names => exact hinv.stat hf (h _ (.head _))
  | lstat names => exact hinv.lstat hf (h _ (.head _))
  | readDir names => exact hinv.readDir hf
  | rename source dest => exact hinv.rename hf (h _ (.head _)) (h _ (.tail _ (.head _)))
  | remove names =>
    refine hinv.visible (h _ (.head _)) fun before hjoin hleads ↦ ?_
    apply (hinv.evict _).touch
    intro q hq
    rw [hjoin] at hq
    exact allowed_name (hf.secureLeaf hleads.idle hleads.name hq)
  | readlink names =>
    simp only [Served.request]
    split_ifs with hvisible
    · exact hinv.touch fun q hq ↦ .inl ((h names (.head _)).link hvisible links q hq)
    · exact hinv
  | refused names => exact hinv
  | chmod names => exact hinv.chmod hf (h _ (.head _))
  | ignored names => exact hinv
  | node names => exact hinv

end

private theorem inv_start : Inv f {} := ⟨nofun, nofun⟩

private theorem Lawful.run (hf : Lawful f) {es : List Event} {s : Served}
    (htold : f.machine.Within (fun _ e ↦ ∀ names ∈ e.names, Told f (f.os.join names)) {} es)
    (hr : f.machine.run {} es = some s) : Inv f s := by
  refine f.machine.run_invariant _ ?_ inv_start htold hr
  intro s e s' hinv htold ht
  cases e with
  | request links r =>
    cases ht
    exact hinv.request hf htold
  | idle p =>
    cases ht
    exact hinv.erase p

/-! ### The condition is needed -/

private theorem allowed_noLinks {act : Act} {path : Path} (h : Allowed f ⟨act, path, noLinks⟩)
    (hlook : path = [] → act ≠ .statted ∧ act ≠ .lstatted) : path = [f.name] := by
  rcases h with (hname | ⟨hlink, -⟩) | ⟨hempty, hact⟩
  · exact hname
  · cases hlink
  · exact absurd hact (not_or.mpr (hlook hempty))

/-- A name that is the directory's own path has the directory's mode changed. -/
theorem chmod_own (hown : f.shareRelative p = [['.']]) :
    f.chmod noLinks p = .ok ([], true) := by
  have habs : ¬(f.os.isAbs [['.']] = true ∨ (clean [['.']]).head? = some ['.', '.']) := by
    rintro (habs | hdots)
    · cases habs
    · exact absurd hdots (by decide)
  have hresolve : f.resolve noLinks p = .ok [] := by
    simp only [resolve, hown, if_neg habs]
    rfl
  rw [chmod, hresolve]
  rfl

/-- A name whose every request touches the file alone is one the machine reads as `slashed` does. -/
theorem Lawful.told (hf : Lawful f) (hos : f.os.windows = false) {names : Names}
    (hrepeats : Repeats f (f.os.join names) →
      f.visible (f.os.join names) = true ∧ f.shareRelative (f.os.join names) = [['.']])
    (h : ∀ links r, r.names = [names] →
      ∀ t ∈ (({} : Served).request f links r).touched, Allowed f t) :
    Told f (f.os.join names) := by
  have hown : f.visible (f.os.join names) = true → f.shareRelative (f.os.join names) ≠ [['.']] := by
    intro hvisible hown
    have htouched : ⟨.chmodded, [], noLinks⟩ ∈
        (({} : Served).request f noLinks (.chmod names)).touched := by
      rw [Served.request, if_pos hvisible, chmod_own hown]
      exact .head _
    cases allowed_noLinks (h noLinks (.chmod names) rfl _ htouched) fun _ ↦ by decide
  obtain ⟨before, rest, hjoin, hbefore, hrest, hne, -⟩ := join_spec (f := f) names
  have hspelled : asSpelled (f.os.join names) = rest := by
    rw [asSpelled, hjoin, elements_root hbefore hrest hne]
  -- A name that is acted on does not begin with the directory's path, and leads to its own names.
  have hbound : ¬Repeats f (f.os.join names) → f.bound noLinks (f.os.join names) = .ok rest := by
    intro hnot
    rw [hjoin] at hnot ⊢
    exact hf.bound_names hos before rest hbefore hrest hnot
  refine ⟨fun hvisible ↦ ⟨?_, hown hvisible⟩, ?_, ?_⟩
  · have hpath := hbound fun hrep ↦ hown hvisible (hrepeats hrep).2
    have htouched : ⟨.opened, rest, noLinks⟩ ∈
        (({} : Served).request f noLinks (.open names)).touched := by
      rw [Served.request, if_pos hvisible, hpath]
      exact .head _
    rw [hspelled]
    exact allowed_noLinks (h noLinks (.open names) rfl _ htouched) fun _ ↦ by decide
  · intro hvisible links path hlink
    have htouched : ⟨.linkRead, path, links⟩ ∈
        (({} : Served).request f links (.readlink names)).touched := by
      rw [Served.request, if_pos hvisible, hlink]
      exact .head _
    rcases h links (.readlink names) rfl _ htouched with hreached | ⟨-, hact | hact⟩
    · exact hreached
    · cases hact
    · cases hact
  · intro hroot hspellable
    have hnot : ¬Repeats f (f.os.join names) := by
      intro hrep
      have hvisible := (hrepeats hrep).1
      rw [visible, decide_eq_true_eq] at hvisible
      rw [isRootPath, decide_eq_true_eq] at hroot
      rw [hroot] at hvisible
      exact f.name_ne hvisible.symm
    have htouched : ⟨.statted, rest, noLinks⟩ ∈
        (({} : Served).request f noLinks (.stat names)).touched := by
      have hread : f.readable (f.os.join names) = true := by
        rw [readable, hroot, Bool.true_or]
      rw [Served.request, if_pos hread, OneFile.stat, if_pos hspellable, hbound hnot]
      exact .head _
    rw [hspelled]
    by_cases hempty : rest = []
    · exact .inl hempty
    · have hone := allowed_noLinks (h noLinks (.stat names) rfl _ htouched)
        fun hnone ↦ absurd hnone hempty
      subst hone
      refine .inr ⟨rfl, ?_⟩
      rw [hjoin]
      apply shareRelative_ne hbefore (hrest _ (List.mem_singleton_self _))
      intro hsame
      apply hnot
      rw [Repeats, hspelled, hsame]
      exact ⟨List.cons_ne_nil _ _, List.prefix_refl _⟩

/-! ### Names without a backslash -/

/-- No part of what is joined has a backslash, as none has on Windows. -/
def PlainNames (f : OneFile) (names : Names) : Prop :=
  f.os.windows = true ∨ ∀ part ∈ f.os.join names, '\\' ∉ part

instance (names : Names) : Decidable (PlainNames f names) :=
  inferInstanceAs (Decidable (_ ∨ _))

private theorem splitOn_of_not_mem {part : Part} (h : '\\' ∉ part) :
    part.splitOn '\\' = [part] := by
  have hjoin : (['\\'].intercalate [part]).splitOn '\\' = [part] :=
    List.splitOn_intercalate '\\' (fun l hl ↦ List.mem_singleton.mp hl ▸ h) (List.cons_ne_nil _ _)
  rwa [List.intercalate_singleton] at hjoin

private theorem slashed_eq {rest : Path} (hbefore : ∀ part ∈ before, Idle part)
    (hrest : ∀ name ∈ rest, ¬Idle name) (hplain : ∀ name ∈ rest, '\\' ∉ name)
    (hne : before ++ rest ≠ []) : slashed (before ++ rest) = '/' :: ['/'].intercalate rest := by
  have hsplit : (before ++ rest).flatMap (·.splitOn '\\') = before ++ rest := by
    have hone : ∀ part ∈ before ++ rest, part.splitOn '\\' = [part] := by
      intro part hpart
      apply splitOn_of_not_mem
      rcases List.mem_append.mp hpart with hin | hin
      · rcases hbefore part hin with rfl | rfl | rfl
        · decide
        · decide
        · decide
      · exact hplain part hin
    rw [List.flatMap_congr hone]
    simp
  rw [slashed, hsplit, elements_root hbefore hrest hne]

private theorem eq_nil_of_intercalate {rest : Path} (hrest : ∀ name ∈ rest, ¬Idle name)
    (h : ['/'].intercalate rest = []) : rest = [] := by
  cases rest with
  | nil => rfl
  | cons first rest =>
    have hfirst : first ≠ [] := fun hempty ↦ hrest first (.head _) (.inl hempty)
    cases rest with
    | nil =>
      rw [List.intercalate_singleton] at h
      exact absurd h hfirst
    | cons second rest =>
      rw [List.intercalate_cons_cons, List.append_eq_nil_iff, List.append_eq_nil_iff] at h
      exact absurd h.1.1 hfirst

private theorem eq_name_of_intercalate {rest : Path} (h : ['/'].intercalate rest = f.name) :
    rest = [f.name] := by
  cases rest with
  | nil => exact absurd h.symm f.name_ne
  | cons first rest =>
    cases rest with
    | nil =>
      rw [List.intercalate_singleton] at h
      rw [h]
    | cons second rest =>
      exfalso
      apply f.name_slash
      rw [← h, List.intercalate_cons_cons]
      simp

private theorem Lawful.told_of_plain (hf : Lawful f) (hapart : ApartFrom f) {names : Names}
    (h : PlainNames f names) : Told f (f.os.join names) := by
  obtain ⟨before, rest, hjoin, hbefore, hrest, hne, hwindows⟩ := join_spec (f := f) names
  have hplain : ∀ name ∈ rest, '\\' ∉ name := by
    rcases h with hos | hparts
    · exact hwindows hos
    · intro name hname
      apply hparts
      rw [hjoin]
      exact List.mem_append_right _ hname
  have hslashed := slashed_eq hbefore hrest hplain hne
  have hspelled : asSpelled (before ++ rest) = rest := elements_root hbefore hrest hne
  have hroot : elements f.root ≠ [f.name] := by
    intro hsame
    rw [ApartFrom, hsame] at hapart
    exact hapart rfl
  have hvisible : f.visible (before ++ rest) = true → rest = [f.name] := by
    intro hvisible
    rw [visible, decide_eq_true_eq, hslashed] at hvisible
    exact eq_name_of_intercalate hvisible
  rw [hjoin]
  refine ⟨?_, ?_, ?_⟩
  · intro hv
    have hone := hvisible hv
    subst hone
    exact ⟨hspelled, shareRelative_ne hbefore (hrest _ (List.mem_singleton_self _)) hroot⟩
  · intro hv links path hlink
    have hone := hvisible hv
    subst hone
    have hname := hrest _ (List.mem_singleton_self _)
    exact .inl (hf.readlink_name hapart links before path hbefore hname hlink)
  · intro hr _
    rw [isRootPath, decide_eq_true_eq, hslashed] at hr
    left
    rw [hspelled]
    exact eq_nil_of_intercalate hrest (List.cons.inj hr).2

/-- Whatever a client asks for, under names that the machine reads as `slashed` does, a share of one
file touches that file and no other path, and beside it only looks at the directory that holds it.
Off Windows, under any other name some request touches another path; and a name is read so where it
has no backslash, as on Windows it has none, and the directory is not called what the file is. -/
theorem one_file_only {f : OneFile} (hf : Lawful f) :
    (∀ es s, f.machine.Within (fun _ e ↦ ∀ names ∈ e.names, Told f (f.os.join names)) {} es →
      f.machine.run {} es = some s → ∀ t ∈ s.touched, Allowed f t) ∧
    (f.os.windows = false → ∀ names, (Repeats f (f.os.join names) →
        f.visible (f.os.join names) = true ∧ f.shareRelative (f.os.join names) = [['.']]) →
      ((∀ links r, r.names = [names] →
          ∀ t ∈ (({} : Served).request f links r).touched, Allowed f t) ↔
        Told f (f.os.join names))) ∧
    ∀ names, PlainNames f names → ApartFrom f → Told f (f.os.join names) := by
  refine ⟨?_, ?_, ?_⟩
  · intro es s htold hr
    exact (hf.run htold hr).touched
  · intro hos names hrepeats
    refine ⟨hf.told hos hrepeats, ?_⟩
    intro htold links r hnames
    have hall : ∀ n ∈ r.names, Told f (f.os.join n) := by
      rw [hnames]
      exact List.forall_mem_singleton.mpr htold
    exact (inv_start.request hf hall).touched
  · intro names hplain hapart
    exact hf.told_of_plain hapart hplain

/-! ### Two names that are more than the file -/

/-- The file `f` in the directory `/d`, or in `/f`, where a name leads to its own parts. -/
def shareOfF (dirName : Part) : OneFile where
  os := ⟨false⟩
  checkNewName _ := true
  volume := []
  root := [[], dirName]
  name := ['f']
  name_ne := nofun
  name_slash := by decide
  secureJoin _ p := .ok (asSpelled p)
  bound _ p := .ok (asSpelled p)
  readlink _ p := .ok (asSpelled p)

private theorem asSpelled_append {rest : Path} (hbefore : ∀ part ∈ before, Idle part)
    (hrest : ∀ name ∈ rest, ¬Idle name) : asSpelled (before ++ rest) = rest := by
  by_cases hne : before ++ rest = []
  · rw [hne, (List.append_eq_nil_iff.mp hne).2]
    rfl
  · exact elements_root hbefore hrest hne

private theorem lawful_shareOfF (dirName : Part) : Lawful (shareOfF dirName) := by
  have hidle : ∀ p : Path, (∀ part ∈ p, Idle part) → asSpelled p = [] := by
    intro p hp
    rw [← List.append_nil p]
    exact asSpelled_append hp nofun
  have hname : ∀ before : Path, (∀ part ∈ before, Idle part) →
      asSpelled (before ++ [['f']]) = [['f']] :=
    fun before hbefore ↦ asSpelled_append hbefore (by decide)
  constructor
  · rintro links p _ hp ⟨⟩
    exact hidle p hp
  · rintro links p _ hp ⟨⟩
    exact hidle p hp
  · rintro links before _ hbefore - - ⟨⟩
    exact congrArg Except.ok (hname before hbefore).symm
  · rintro links _ - - ⟨⟩
    rfl
  · intro _ before rest hbefore hrest _
    exact congrArg Except.ok (asSpelled_append hbefore hrest)
  · rintro - links before _ hbefore - ⟨⟩
    exact hname before hbefore

theorem one_file_only_dotted :
    ∃ s, (shareOfF ['d']).machine.run {}
        [.request noLinks (.create ["..".toList, "f".toList])] = some s ∧
      s.touched.map (fun t ↦ (t.act, t.path)) = [(.created, [['f']])] ∧
      ∀ t ∈ s.touched, Allowed (shareOfF ['d']) t := by
  obtain ⟨s, hr, htouched⟩ : ∃ s, (shareOfF ['d']).machine.run {}
      [.request noLinks (.create ["..".toList, "f".toList])] = some s ∧
      s.touched.map (fun t ↦ (t.act, t.path)) = [(.created, [['f']])] := by
    decide +kernel
  obtain ⟨hrun, -, hplain⟩ := one_file_only (lawful_shareOfF ['d'])
  refine ⟨s, hr, htouched, ?_⟩
  apply hrun _ s _ hr
  refine And.intro ?_ True.intro
  intro names hnames
  rw [List.mem_singleton.mp hnames]
  exact hplain _ (by decide +kernel) (by decide)

/-- Off Windows a name with backslashes is visible as the file and creates another beside it; and a
name that is the directory's own path, where the two are called the same, changes the mode of the
directory. -/
theorem touches_another :
    ((shareOfF ['d']).machine.run {} [.request noLinks (.create ["x\\..\\f".toList])]).map
        (fun s ↦ s.touched.map fun t ↦ (t.act, t.path)) = some [(.created, ["x\\..\\f".toList])] ∧
    ((shareOfF ['f']).machine.run {} [.request noLinks (.chmod ["/f".toList])]).map
        (fun s ↦ s.touched.map fun t ↦ (t.act, t.path)) =
      some [(.chmodded, []), (.lstatted, [])] := by
  decide +kernel

end RemoteDocker.NfsServe.OneFile

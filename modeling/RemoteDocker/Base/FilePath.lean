import RemoteDocker.Base.GoPath

/-!
# Paths of a machine

`path/filepath` of the Go library, for a machine that separates with the slash alone or with the
backslash too. A path is what lies between its separators: an empty first part of several is the
root. Of volumes there are the drive and the network path, which matter to whether a path is
absolute.
-/

namespace RemoteDocker.Base.FilePath

open Base.GoPath

abbrev Part := List Char

abbrev Path := List Part

/-- What separates the parts of a path. -/
structure Platform where
  windows : Bool

namespace Platform

variable (m : Platform)

/-- `os.IsPathSeparator`. -/
def isSeparator (c : Char) : Bool := c == '/' || m.windows && c == '\\'

def split (name : List Char) : Path := name.splitOnP m.isSeparator

def isAbs (p : Path) : Bool :=
  match p with
  | [] :: [] :: _ :: _ => true
  | [] :: _ :: _ => !m.windows
  | [_, ':'] :: _ :: _ => m.windows
  | _ => false

end Platform

def rooted : Path → Bool
  | [] :: _ :: _ => true
  | _ => false

/-- The elements of a path that are left when it is cleaned. -/
def elements (p : Path) : Path := (p.foldl (push (rooted p)) []).reverse

def clean (p : Path) : Path :=
  if rooted p then
    match elements p with
    | [] => [[], []]
    | es => [] :: es
  else
    match elements p with
    | [] => [['.']]
    | es => es

/-- Nothing joins to the empty path. -/
def Platform.join (m : Platform) (names : List (List Char)) : Path :=
  match names.filter (· ≠ []) with
  | [] => [[]]
  | named => clean (named.flatMap m.split)

/-- The last part there is; `none` is the separator itself. -/
def base (p : Path) : Option Part :=
  match (p.filter (· ≠ [])).getLast? with
  | some part => some part
  | none => if rooted p then none else some ['.']

def dir (p : Path) : Path := clean (p.dropLast ++ [[]])

/-- What is left of a path below `root`. -/
def below (root p : Path) : Option Path :=
  if elements root <+: elements p then some ((elements p).drop (elements root).length) else none

/-- `filepath.Rel` of a path that is below `root`. -/
def relBelow (root p : Path) : Option Path :=
  (below root p).map fun es ↦ if es = [] then [['.']] else es

/-- Elements that lead nowhere from the root. -/
def Idle (part : Part) : Prop := part = [] ∨ part = ['.'] ∨ part = ['.', '.']

instance (part : Part) : Decidable (Idle part) :=
  inferInstanceAs (Decidable (_ ∨ _))

private theorem push_of_idle {part : Part} (h : Idle part) : push true [] part = [] := by
  rcases h with rfl | rfl | rfl
  · rfl
  · rfl
  · rfl

private theorem push_of_not_idle {part : Part} (h : ¬Idle part) (r : Bool) (done : Path) :
    push r done part = part :: done := by
  rw [Idle, not_or, not_or] at h
  unfold push
  rw [if_neg (by simp [h.1, h.2.1]), if_neg h.2.2]

variable {before names : Path}

private theorem foldl_push_of_idle (h : ∀ part ∈ before, Idle part) :
    before.foldl (push true) [] = [] := by
  induction before with
  | nil => rfl
  | cons part before ih =>
    rw [List.foldl_cons, push_of_idle (h part (.head _))]
    exact ih fun p hp ↦ h p (.tail _ hp)

private theorem foldl_push_of_not_idle {r : Bool} (h : ∀ part ∈ names, ¬Idle part)
    (done : Path) : names.foldl (push r) done = names.reverse ++ done := by
  induction names generalizing done with
  | nil => rfl
  | cons part names ih =>
    rw [List.foldl_cons, push_of_not_idle (h part (.head _)),
      ih (fun p hp ↦ h p (.tail _ hp)), List.reverse_cons, List.append_assoc]
    rfl

/-- Of a path that is cleaned, some dot-dots are left in front, and names of its own. -/
theorem foldl_push_spec {r : Bool} (parts : Path) {k : Nat}
    (hk : r = true → k = 0) (hnames : ∀ name ∈ names, ¬Idle name) :
    ∃ k' names', parts.foldl (push r) (names ++ List.replicate k ['.', '.']) =
        names' ++ List.replicate k' ['.', '.'] ∧
      (r = true → k' = 0) ∧ (∀ name ∈ names', ¬Idle name) ∧
      ∀ name ∈ names', name ∈ names ∨ name ∈ parts := by
  induction parts generalizing k names with
  | nil => exact ⟨k, names, rfl, hk, hnames, fun _ hname ↦ .inl hname⟩
  | cons part parts ih =>
    -- What one part leaves is of the same shape, with no name but an old one or itself.
    have hstep : ∃ k₁ names₁, push r (names ++ List.replicate k ['.', '.']) part =
        names₁ ++ List.replicate k₁ ['.', '.'] ∧ (r = true → k₁ = 0) ∧
        (∀ name ∈ names₁, ¬Idle name) ∧ ∀ name ∈ names₁, name ∈ names ∨ name = part := by
      by_cases hpart : Idle part
      · by_cases hempty : part = [] ∨ part = ['.']
        · refine ⟨k, names, ?_, hk, hnames, fun _ hname ↦ .inl hname⟩
          unfold push
          exact if_pos hempty
        · have hdots : part = ['.', '.'] := by
            rcases hpart with h | h | h
            · exact absurd (.inl h) hempty
            · exact absurd (.inr h) hempty
            · exact h
          subst hdots
          cases names with
          | cons name names =>
            have hname : name ≠ ['.', '.'] := by
              rintro rfl
              exact hnames _ (.head _) (.inr (.inr rfl))
            refine ⟨k, names, ?_, hk, fun n hn ↦ hnames n (.tail _ hn),
              fun n hn ↦ .inl (.tail _ hn)⟩
            unfold push
            rw [if_neg hempty, if_pos rfl]
            exact if_neg hname
          | nil =>
            cases r with
            | true =>
              refine ⟨0, [], ?_, fun _ ↦ rfl, nofun, nofun⟩
              rw [hk rfl]
              rfl
            | false =>
              refine ⟨k + 1, [], ?_, nofun, nofun, nofun⟩
              cases k with
              | zero => rfl
              | succ k => rfl
      · refine ⟨k, part :: names, push_of_not_idle hpart _ _, hk, ?_, ?_⟩
        · intro name hname
          rcases List.mem_cons.mp hname with rfl | hname
          · exact hpart
          · exact hnames name hname
        · intro name hname
          rcases List.mem_cons.mp hname with rfl | hname
          · exact .inr rfl
          · exact .inl hname
    obtain ⟨k₁, names₁, hpush, hk₁, hnames₁, hold₁⟩ := hstep
    obtain ⟨k', names', hfold, hk', hnames', hold'⟩ := ih hk₁ hnames₁
    refine ⟨k', names', ?_, hk', hnames', ?_⟩
    · rw [List.foldl_cons, hpush, hfold]
    · intro name hname
      rcases hold' name hname with hin | hin
      · rcases hold₁ name hin with hin | rfl
        · exact .inl hin
        · exact .inr (.head _)
      · exact .inr (.tail _ hin)

private theorem elements_spec (p : Path) :
    ∃ k names, elements p = List.replicate k ['.', '.'] ++ names ∧ (rooted p = true → k = 0) ∧
      (∀ name ∈ names, ¬Idle name) ∧ ∀ name ∈ names, name ∈ p := by
  obtain ⟨k, names, hfold, hk, hnames, hold⟩ : ∃ k names, p.foldl (push (rooted p))
      ([] ++ List.replicate 0 ['.', '.']) = names ++ List.replicate k ['.', '.'] ∧
      (rooted p = true → k = 0) ∧ (∀ name ∈ names, ¬Idle name) ∧
      ∀ name ∈ names, name ∈ [] ∨ name ∈ p := foldl_push_spec p (fun _ ↦ rfl) nofun
  refine ⟨k, names.reverse, ?_, hk, ?_, ?_⟩
  · rw [List.replicate_zero, List.append_nil] at hfold
    rw [elements, hfold, List.reverse_append, List.reverse_replicate]
  · intro name hname
    exact hnames name (List.mem_reverse.mp hname)
  · intro name hname
    rcases hold name (List.mem_reverse.mp hname) with hin | hin
    · cases hin
    · exact hin

/-- What is put in front of the names that are left leads nowhere. -/
theorem clean_of_elements {p : Path} {k : Nat}
    (helements : elements p = List.replicate k ['.', '.'] ++ names) :
    ∃ before, clean p = before ++ names ∧ ∀ part ∈ before, Idle part := by
  have hdots : ∀ part ∈ List.replicate k ['.', '.'], Idle part :=
    fun part hpart ↦ .inr (.inr (List.eq_of_mem_replicate hpart))
  unfold clean
  rw [helements]
  split_ifs
  · split
    · next hempty =>
      rw [(List.append_eq_nil_iff.mp hempty).2]
      refine ⟨[[], []], rfl, ?_⟩
      intro part hpart
      simp only [List.mem_cons, List.not_mem_nil, or_false, or_self] at hpart
      exact .inl hpart
    · refine ⟨[] :: List.replicate k ['.', '.'], rfl, ?_⟩
      intro part hpart
      rcases List.mem_cons.mp hpart with rfl | hpart
      · exact .inl rfl
      · exact hdots part hpart
  · split
    · next hempty =>
      rw [(List.append_eq_nil_iff.mp hempty).2]
      refine ⟨[['.']], rfl, ?_⟩
      intro part hpart
      exact .inr (.inl (List.mem_singleton.mp hpart))
    · exact ⟨List.replicate k ['.', '.'], rfl, hdots⟩

/-- A clean path is parts that lead nowhere, and then its names. -/
theorem clean_spec (p : Path) :
    ∃ before names, clean p = before ++ names ∧ (∀ part ∈ before, Idle part) ∧
      (∀ name ∈ names, ¬Idle name) ∧ ∀ name ∈ names, name ∈ p := by
  obtain ⟨k, names, helements, -, hnames, hold⟩ := elements_spec p
  obtain ⟨before, hclean, hbefore⟩ := clean_of_elements helements
  exact ⟨before, names, hclean, hbefore, hnames, hold⟩

section

variable (hbefore : ∀ part ∈ before, Idle part)

include hbefore

theorem elements_of_rooted
    (hnames : ∀ name ∈ names, ¬Idle name) (hroot : rooted (before ++ names) = true) :
    elements (before ++ names) = names := by
  rw [elements, hroot, List.foldl_append, foldl_push_of_idle hbefore, foldl_push_of_not_idle hnames,
    List.append_nil, List.reverse_reverse]

theorem elements_root
    (hnames : ∀ name ∈ names, ¬Idle name) (hne : before ++ names ≠ []) :
    elements ([] :: (before ++ names)) = names := by
  have hroot : rooted ([] :: before ++ names) = true := by
    rw [List.cons_append]
    cases h : before ++ names with
    | nil => exact absurd h hne
    | cons part rest => rfl
  apply elements_of_rooted _ hnames hroot
  intro part hpart
  rcases List.mem_cons.mp hpart with rfl | hpart
  · exact .inl rfl
  · exact hbefore part hpart

theorem clean_of_idle (hnames : ∀ name ∈ names, ¬Idle name) :
    ∃ before', clean (before ++ names) = before' ++ names ∧ ∀ part ∈ before', Idle part := by
  obtain ⟨k, kept, hfold, hk, hkept, hold⟩ :
    ∃ k kept, before.foldl (push (rooted (before ++ names)))
      ([] ++ List.replicate 0 ['.', '.']) = kept ++ List.replicate k ['.', '.'] ∧
      (rooted (before ++ names) = true → k = 0) ∧ (∀ name ∈ kept, ¬Idle name) ∧
      ∀ name ∈ kept, name ∈ [] ∨ name ∈ before := foldl_push_spec before (fun _ ↦ rfl) nofun
  have hnone : kept = [] := by
    rw [List.eq_nil_iff_forall_not_mem]
    intro name hname
    rcases hold name hname with hin | hin
    · cases hin
    · exact hkept name hname (hbefore name hin)
  have helements : elements (before ++ names) = List.replicate k ['.', '.'] ++ names := by
    rw [List.replicate_zero, List.append_nil, hnone, List.nil_append] at hfold
    rw [elements, List.foldl_append, hfold, foldl_push_of_not_idle hnames, List.reverse_append,
      List.reverse_reverse, List.reverse_replicate]
  exact clean_of_elements helements

end

end RemoteDocker.Base.FilePath

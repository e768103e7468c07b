import RemoteDocker.Base.Record
import RemoteDocker.Workspace.Identity

/-!
# The mode of a directory that a mount leaves open

`src/client/internal/rewrite/mode.go:118-136`. `modeFor` goes over the rules in the order of a map
and keeps the one with the longest key. The keys of the rules that contain the path are all the
start of its key, so the longest is the deepest directory. Two spellings of one directory have one
key, and of those the first that is met decides (`spellings_depend_on_order`).
-/

namespace RemoteDocker.Rewrite

open Base Workspace

/-- `len` of a text, in bytes. -/
def byteLen (p : Text) : Nat := (p.map Char.utf8Size).sum

/-- The test of one rule, by its key. -/
def covers (key p : Text) : Bool := key = p || (trimSuffix ['/'] p ++ ['/']).isPrefixOf key

def modeForStep (h : Host) (key : Text) (best : Mode × Int) (rule : Text × Mode) : Mode × Int :=
  let p := h.canonicalKey rule.1
  if covers key p && best.2 < byteLen p then (rule.2, byteLen p) else best

/-- `modeFor`, with the rules of `ModePaths` in the order they are met in (`mode.go:122-136`). -/
def modeFor (h : Host) (default : Mode) (rules : List (Text × Mode)) (localPath : Text) : Mode :=
  (rules.foldl (modeForStep h (h.canonicalKey localPath)) ({}, -1)).1.or default

/-- The path is the directory, or its names are those of the directory and more. -/
def Contains (dir path : Text) : Prop :=
  path = dir ∨ ∃ names ≠ [], path.splitOn '/' = (trimSuffix ['/'] dir).splitOn '/' ++ names

section

variable {key p q : Text}

private theorem byteLen_le (h : p <+: q) : byteLen p ≤ byteLen q := by
  obtain ⟨r, rfl⟩ := h
  rw [byteLen, byteLen, List.map_append, List.sum_append]
  exact Nat.le_add_right _ _

private theorem eq_of_byteLen_le (h : p <+: q) (hle : byteLen q ≤ byteLen p) : p = q := by
  obtain ⟨r, rfl⟩ := h
  cases r with
  | nil => exact (List.append_nil p).symm
  | cons c r =>
    exfalso
    have hpos := c.utf8Size_pos
    simp only [byteLen, List.map_append, List.sum_append, List.map_cons, List.sum_cons] at hle
    omega

private theorem trimSuffix_slash (p : Text) :
    trimSuffix ['/'] p = p ∨ trimSuffix ['/'] p ++ ['/'] = p := by
  rw [trimSuffix]
  split_ifs with hends
  · obtain ⟨q, rfl⟩ := List.isSuffixOf_iff_suffix.mp hends
    rw [List.length_append, Nat.add_sub_cancel, List.take_left]
    exact .inr rfl
  · exact .inl rfl

/-- The key of a rule that is kept is the start of the path's. -/
theorem prefix_of_covers (h : covers key p = true) : p <+: key := by
  rcases Bool.or_eq_true_iff.mp h with heq | hbelow
  · rw [of_decide_eq_true heq]
  · have hstart := List.isPrefixOf_iff_prefix.mp hbelow
    rcases trimSuffix_slash p with hp | hp
    · rw [hp] at hstart
      exact (List.prefix_append p _).trans hstart
    · rwa [hp] at hstart

private theorem prefix_of_byteLen_le (hp : covers key p = true) (hq : covers key q = true)
    (hle : byteLen p ≤ byteLen q) : p <+: q := by
  rcases List.prefix_or_prefix_of_prefix (prefix_of_covers hp) (prefix_of_covers hq) with h | h
  · exact h
  · rw [eq_of_byteLen_le h hle]

/-- Of two rules that are kept, the one with the longer key is inside the other. -/
theorem covers_of_byteLen_le (hp : covers key p = true) (hq : covers key q = true)
    (hle : byteLen p ≤ byteLen q) : covers q p = true := by
  have hstart := prefix_of_byteLen_le hp hq hle
  by_cases heq : q = p
  · rw [covers, decide_eq_true heq, Bool.true_or]
  have hlonger : p.length < q.length :=
    lt_of_le_of_ne hstart.length_le fun hl ↦ heq (hstart.eq_of_length hl).symm
  rcases Bool.or_eq_true_iff.mp hp with hkey | hbelow
  · exfalso
    have hback := prefix_of_covers hq
    rw [of_decide_eq_true hkey] at hback
    exact absurd hback.length_le (Nat.not_le.mpr hlonger)
  · refine Bool.or_eq_true_iff.mpr (.inr (List.isPrefixOf_iff_prefix.mpr ?_))
    apply List.prefix_of_prefix_length_le (List.isPrefixOf_iff_prefix.mp hbelow)
      (prefix_of_covers hq)
    rcases trimSuffix_slash p with h | h
    · rw [h, List.length_append]
      exact hlonger
    · rw [h]
      exact hlonger.le

private theorem covers_iff : covers key p = true ↔ Contains p key := by
  rw [covers, Bool.or_eq_true_iff, decide_eq_true_iff, Contains, List.isPrefixOf_iff_prefix]
  refine or_congr_right ⟨?_, ?_⟩
  · rintro ⟨below, rfl⟩
    rw [List.append_assoc, List.singleton_append, List.splitOn_append_cons_self]
    exact ⟨_, List.splitOn_ne_nil _ _, rfl⟩
  · rintro ⟨names, hne, hsplit⟩
    have hnames : names = ([ '/' ].intercalate names).splitOn '/' := by
      refine (List.splitOn_intercalate '/' ?_ hne).symm
      intro name hname hslash
      have hmem : name ∈ key.splitOn '/' := hsplit ▸ List.mem_append_right _ hname
      exact absurd (Record.of_mem_splitOnP hmem hslash).2 (by decide)
    rw [hnames, ← List.splitOn_append_cons_self] at hsplit
    have hkey := congrArg ['/'].intercalate hsplit
    rw [List.intercalate_splitOn, List.intercalate_splitOn] at hkey
    exact ⟨_, by rw [List.append_assoc, List.singleton_append, hkey]⟩

end

section

variable {h : Host} {key : Text} {rules seen : List (Text × Mode)} {best : Mode × Int}

/-- What the loop has found among the rules it has seen. -/
inductive Best (h : Host) (key : Text) (seen : List (Text × Mode)) : Mode × Int → Prop
  | unset (hnone : ∀ r ∈ seen, covers key (h.canonicalKey r.1) = false) : Best h key seen ({}, -1)
  | rule (r : Text × Mode) (hr : r ∈ seen) (hcovers : covers key (h.canonicalKey r.1) = true)
      (hlongest : ∀ r' ∈ seen, covers key (h.canonicalKey r'.1) = true →
        byteLen (h.canonicalKey r'.1) ≤ byteLen (h.canonicalKey r.1)) :
      Best h key seen (r.2, byteLen (h.canonicalKey r.1))

private theorem Best.step (hbest : Best h key seen best) (r : Text × Mode) :
    Best h key (seen ++ [r]) (modeForStep h key best r) := by
  simp only [modeForStep, Bool.and_eq_true, decide_eq_true_eq]
  split_ifs with hr
  · refine .rule r (List.mem_append_right _ (.head _)) hr.1 ?_
    intro r' hr' hcovers'
    rcases List.mem_append.mp hr' with hr' | hr'
    · cases hbest with
      | unset hnone => exact absurd ((hnone r' hr').symm.trans hcovers') Bool.false_ne_true
      | rule r₀ _ _ hlongest =>
        have hle := hlongest r' hr' hcovers'
        have hlt := hr.2
        dsimp only at hlt
        omega
    · rw [List.mem_singleton.mp hr']
  · cases hbest with
    | unset hnone =>
      refine .unset fun r' hr' ↦ ?_
      rcases List.mem_append.mp hr' with hr' | hr'
      · exact hnone r' hr'
      · rw [List.mem_singleton.mp hr']
        refine Bool.eq_false_iff.mpr fun hcovers ↦ hr ⟨hcovers, ?_⟩
        dsimp only
        omega
    | rule r₀ hr₀ hcovers₀ hlongest =>
      refine .rule r₀ (List.mem_append_left _ hr₀) hcovers₀ fun r' hr' hcovers' ↦ ?_
      rcases List.mem_append.mp hr' with hr' | hr'
      · exact hlongest r' hr' hcovers'
      · rw [List.mem_singleton.mp hr'] at hcovers' ⊢
        by_contra hlonger
        refine hr ⟨hcovers', ?_⟩
        dsimp only
        omega

private theorem best_foldl (seen : List (Text × Mode)) (hbest : Best h key seen best) :
    Best h key (seen ++ rules) (rules.foldl (modeForStep h key) best) := by
  induction rules generalizing seen best with
  | nil => exact (List.append_nil seen).symm ▸ hbest
  | cons r rules ih =>
    have hrest := ih _ (hbest.step r)
    rwa [List.append_assoc, List.singleton_append] at hrest

/-- The rule's directory is or contains the path, and every other that does is or contains it. -/
def Deepest (h : Host) (rules : List (Text × Mode)) (localPath : Text) (r : Text × Mode) : Prop :=
  r ∈ rules ∧ Contains (h.canonicalKey r.1) (h.canonicalKey localPath) ∧
    ∀ r' ∈ rules, Contains (h.canonicalKey r'.1) (h.canonicalKey localPath) →
      Contains (h.canonicalKey r'.1) (h.canonicalKey r.1)

variable {localPath : Text} {r : Text × Mode}

private theorem Deepest.perm {order : List (Text × Mode)} (hdeepest : Deepest h order localPath r)
    (hperm : order.Perm rules) : Deepest h rules localPath r :=
  ⟨hperm.mem_iff.mp hdeepest.1, hdeepest.2.1,
    fun r' hr' ↦ hdeepest.2.2 r' (hperm.mem_iff.mpr hr')⟩

/-- Nothing the loop meets after a rule that is longest takes its place. -/
theorem foldl_modeForStep_eq {best : Mode × Int} (hlongest : ∀ r ∈ rules,
      covers key (h.canonicalKey r.1) = true → (byteLen (h.canonicalKey r.1) : Int) ≤ best.2) :
    rules.foldl (modeForStep h key) best = best := by
  induction rules with
  | nil => rfl
  | cons r rules ih =>
    obtain ⟨hr, hrules⟩ := List.forall_mem_cons.mp hlongest
    have hstep : modeForStep h key best r = best := by
      simp only [modeForStep, Bool.and_eq_true, decide_eq_true_eq]
      exact if_neg fun htaken ↦ absurd (hr htaken.1) (Int.not_le.mpr htaken.2)
    rw [List.foldl_cons, hstep, ih hrules]

/-- A deepest rule that is met first decides. -/
theorem modeFor_cons_of_deepest (default : Mode)
    (hdeepest : Deepest h (r :: rules) localPath r) :
    modeFor h default (r :: rules) localPath = r.2.or default := by
  obtain ⟨-, hcontains, hothers⟩ := hdeepest
  have hcovers := covers_iff.mpr hcontains
  have hfirst : modeForStep h (h.canonicalKey localPath) ({}, -1) r =
      (r.2, (byteLen (h.canonicalKey r.1) : Int)) := by
    simp only [modeForStep, hcovers, Bool.true_and, decide_eq_true_eq]
    exact if_pos (by omega)
  have hrest : rules.foldl (modeForStep h (h.canonicalKey localPath))
      (r.2, (byteLen (h.canonicalKey r.1) : Int)) =
        (r.2, (byteLen (h.canonicalKey r.1) : Int)) := by
    apply foldl_modeForStep_eq
    intro r' hr' hcovers'
    have hinside := covers_iff.mpr (hothers r' (.tail _ hr') (covers_iff.mp hcovers'))
    exact Int.ofNat_le.mpr (byteLen_le (prefix_of_covers hinside))
  rw [modeFor, List.foldl_cons, hfirst, hrest]

/-- The mode is the default where no rule contains the path, and else a deepest rule's. -/
theorem modeFor_cases (h : Host) (default : Mode) (rules : List (Text × Mode)) (localPath : Text) :
    (∀ r ∈ rules, ¬Contains (h.canonicalKey r.1) (h.canonicalKey localPath)) ∧
        modeFor h default rules localPath = default ∨
      ∃ r, Deepest h rules localPath r ∧ modeFor h default rules localPath = r.2.or default := by
  have hbest : Best h (h.canonicalKey localPath) rules
      (rules.foldl (modeForStep h (h.canonicalKey localPath)) ({}, -1)) :=
    best_foldl [] (.unset (List.forall_mem_nil _))
  rw [modeFor]
  generalize rules.foldl (modeForStep h (h.canonicalKey localPath)) ({}, -1) = best at hbest ⊢
  cases hbest with
  | unset hnone =>
    refine .inl ⟨fun r hr hcontains ↦ ?_, rfl⟩
    exact absurd ((hnone r hr).symm.trans (covers_iff.mpr hcontains)) Bool.false_ne_true
  | rule r hr hcovers hlongest =>
    refine .inr ⟨r, ⟨hr, covers_iff.mp hcovers, fun r' hr' hcontains ↦ ?_⟩, rfl⟩
    have hcovers' := covers_iff.mpr hcontains
    exact covers_iff.mp (covers_of_byteLen_le hcovers' hcovers (hlongest r' hr' hcovers'))

end

/-- The mode is a deepest rule's, or the default where no rule contains the path; and it is the same
in every order just if the deepest rules, which are spellings of one directory, agree. -/
theorem modeFor_deepest (h : Host) (default : Mode) (rules : List (Text × Mode))
    (localPath : Text) :
    ((∀ r ∈ rules, ¬Contains (h.canonicalKey r.1) (h.canonicalKey localPath)) ∧
        modeFor h default rules localPath = default ∨
      ∃ r, Deepest h rules localPath r ∧ modeFor h default rules localPath = r.2.or default) ∧
    ((∀ order : List (Text × Mode), order.Perm rules →
        modeFor h default order localPath = modeFor h default rules localPath) ↔
      ∀ r r', Deepest h rules localPath r → Deepest h rules localPath r' →
        r.2.or default = r'.2.or default) := by
  refine ⟨modeFor_cases h default rules localPath, ?_, ?_⟩
  · intro hsame
    -- The order that meets a deepest rule first has its mode.
    have hfirst : ∀ r, Deepest h rules localPath r →
        modeFor h default rules localPath = r.2.or default := by
      intro r hr
      have hperm : (r :: rules.erase r).Perm rules := (List.perm_cons_erase hr.1).symm
      rw [← hsame _ hperm, modeFor_cons_of_deepest default (hr.perm hperm.symm)]
    intro r r' hr hr'
    rw [← hfirst r hr, hfirst r' hr']
  · intro hagree order hperm
    rcases modeFor_cases h default rules localPath with ⟨hnone, hrules⟩ | ⟨r, hr, hrules⟩
    · rcases modeFor_cases h default order localPath with ⟨-, horder⟩ | ⟨r', hr', -⟩
      · rw [horder, hrules]
      · exact absurd hr'.2.1 (hnone r' (hperm.mem_iff.mp hr'.1))
    · rcases modeFor_cases h default order localPath with ⟨hnone, -⟩ | ⟨r', hr', horder⟩
      · exact absurd hr.2.1 (hnone r (hperm.mem_iff.mpr hr.1))
      · rw [horder, hrules, hagree r r' hr (hr'.perm hperm)]

def slashes : Host where
  goos := .linux
  letters := ⟨id, id⟩
  sha256 _ := Vector.replicate 32 0
  dir := id
  base _ := ['.']
  base_ne _ := nofun

/-- Two spellings of one directory have one key, and the one that is met first decides. -/
theorem spellings_depend_on_order :
    ∃ (h : Host) (default : Mode) (rules order : List (Text × Mode)) (localPath : Text),
      order.Perm rules ∧ modeFor h default order localPath ≠ modeFor h default rules localPath :=
  ⟨slashes, defaultMode, [("/a".toList, ⟨some .cached, none⟩), ("/a/".toList, defaultMode)],
    [("/a/".toList, defaultMode), ("/a".toList, ⟨some .cached, none⟩)], "/a/b".toList,
    List.Perm.swap _ _ _, by decide +kernel⟩

end RemoteDocker.Rewrite

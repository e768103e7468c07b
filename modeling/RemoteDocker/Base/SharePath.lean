import Mathlib.Data.List.Infix
import Mathlib.Data.List.Destutter
import Mathlib.Data.List.Sort

/-!
# Share paths

A path within a share has a leading slash and forward slashes (`src/dircache/types.go:11`).
It is the list of its components here, outermost first, so the share's root is `[]` and
`path.Dir` drops the last component. Every path the source compares is written by
`slashed`, which leaves it in this form.
-/

namespace RemoteDocker.Base

/-- A share path by its components; the root is `[]`. -/
abbrev SharePath := List String

-- The one instance under every membership test of a list of paths.
instance : LawfulBEq SharePath := inferInstance

namespace SharePath

def render (p : SharePath) : String := "/" ++ "/".intercalate p

/-- The directories above a path, nearest first and without the root: what
`for dir := path.Dir(p); dir != "/"; dir = path.Dir(dir)` goes through. -/
def dirsAbove (p : SharePath) : List SharePath :=
  ((List.range p.length).tail.map (p.take ·)).reverse

/-- `d` is a directory strictly above `p`. -/
def Above (d p : SharePath) : Prop := d <+: p ∧ d ≠ p

instance (d p : SharePath) : Decidable (Above d p) :=
  inferInstanceAs (Decidable (_ ∧ _))

/-- `p` is `d` or lies under it. -/
def AtOrUnder (d p : SharePath) : Prop := d <+: p

instance (d p : SharePath) : Decidable (AtOrUnder d p) :=
  inferInstanceAs (Decidable (d <+: p))

/-- The directories above a path are its proper prefixes other than the root. -/
theorem mem_dirsAbove {d p : SharePath} : d ∈ dirsAbove p ↔ d ≠ [] ∧ Above d p := by
  have htail : (List.range p.length).tail = List.range' 1 (p.length - 1) := by
    cases hp : p.length with
    | zero => rfl
    | succ n => rw [List.range_eq_range', List.range'_succ]; rfl
  simp only [dirsAbove, List.mem_reverse, List.mem_map, htail, List.mem_range'_1]
  constructor
  · rintro ⟨k, ⟨hk, hlt⟩, rfl⟩
    have hlen : (p.take k).length = k := by rw [List.length_take]; omega
    refine ⟨?_, List.take_prefix k p, ?_⟩
    · intro he
      rw [he] at hlen
      simp only [List.length_nil] at hlen
      omega
    · intro he
      rw [he] at hlen
      omega
  · rintro ⟨hne, hpre, hneq⟩
    have hle := hpre.length_le
    have hlt : d.length ≠ p.length := fun he ↦ hneq (hpre.eq_of_length he)
    have hpos : d.length ≠ 0 := fun he ↦ hne (List.length_eq_zero_iff.mp he)
    exact ⟨d.length, ⟨by omega, by omega⟩, (List.prefix_iff_eq_take.mp hpre).symm⟩

theorem AtOrUnder.refl (p : SharePath) : AtOrUnder p p := List.prefix_refl p

theorem atOrUnder_iff {d p : SharePath} : AtOrUnder d p ↔ d = p ∨ Above d p := by
  constructor
  · intro h
    by_cases he : d = p
    · exact .inl he
    · exact .inr ⟨h, he⟩
  · rintro (rfl | h)
    · exact AtOrUnder.refl _
    · exact h.1

/-- `slices.Sort` of path spellings followed by `slices.Compact`. -/
def sortCompact (ps : List SharePath) : List SharePath :=
  (ps.insertionSort (fun a b ↦ a.render ≤ b.render)).destutter (· ≠ ·)

private theorem mem_destutter'_ne {a b : SharePath} {l : List SharePath} :
    a ∈ l.destutter' (· ≠ ·) b ↔ a = b ∨ a ∈ l := by
  induction l generalizing b with
  | nil => simp
  | cons c l ih =>
    by_cases hbc : b = c
    · subst hbc
      rw [List.destutter'_cons_neg _ (by simp), ih]
      simp
    · rw [List.destutter'_cons_pos _ hbc, List.mem_cons, ih, List.mem_cons]

@[simp] theorem mem_sortCompact {a : SharePath} {ps : List SharePath} :
    a ∈ sortCompact ps ↔ a ∈ ps := by
  have hperm := List.perm_insertionSort (fun a b : SharePath ↦ a.render ≤ b.render) ps
  rw [← hperm.mem_iff, sortCompact]
  cases ps.insertionSort (fun a b ↦ a.render ≤ b.render) with
  | nil => simp
  | cons b l => rw [List.destutter_cons', mem_destutter'_ne, List.mem_cons]

end SharePath
end RemoteDocker.Base

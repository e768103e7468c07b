import Mathlib.Data.List.Basic

/-!
# Slash-separated paths

`path.Clean` of the Go library: empty and dot elements go, an element and the dot-dot after it go,
and a rooted path cannot climb above its root. A rooted path of plain names is clean.
-/

namespace RemoteDocker.Base.GoPath

/-- One element of a path, after those of `done`, the last one first. -/
def push (rooted : Bool) (done : List (List Char)) (part : List Char) : List (List Char) :=
  if part = [] ∨ part = ['.'] then done
  else if part = ['.', '.'] then
    match done with
    | [] => if rooted then [] else [part]
    | last :: rest => if last = ['.', '.'] then part :: done else rest
  else part :: done

/-- The elements of a path that are left when it is cleaned. -/
def elements (p : List Char) : List (List Char) :=
  ((p.splitOn '/').foldl (push (p.head? = some '/')) []).reverse

def clean (p : List Char) : List Char :=
  let body := ['/'].intercalate (elements p)
  if p.head? = some '/' then '/' :: body else if body = [] then ['.'] else body

/-- A name that stands for itself. -/
def Plain (part : List Char) : Prop :=
  part ≠ [] ∧ part ≠ ['.'] ∧ part ≠ ['.', '.'] ∧ '/' ∉ part

def rootedPath (parts : List (List Char)) : List Char := '/' :: ['/'].intercalate parts

private theorem foldl_push_of_plain {rooted : Bool} {parts : List (List Char)}
    (h : ∀ part ∈ parts, Plain part) (done : List (List Char)) :
    parts.foldl (push rooted) done = parts.reverse ++ done := by
  induction parts generalizing done with
  | nil => rfl
  | cons part parts ih =>
    obtain ⟨hne, hdot, hdots, -⟩ := h part (.head _)
    have hpush : push rooted done part = part :: done := by
      unfold push
      rw [if_neg (by simp [hne, hdot]), if_neg hdots]
    rw [List.foldl_cons, hpush, ih (fun p hp ↦ h p (.tail _ hp)),
      List.reverse_cons, List.append_assoc]
    rfl

private theorem elements_rootedPath {parts : List (List Char)} (hne : parts ≠ [])
    (h : ∀ part ∈ parts, Plain part) : elements (rootedPath parts) = parts := by
  have hjoin : rootedPath parts = ['/'].intercalate ([] :: parts) := by
    cases parts with
    | nil => exact absurd rfl hne
    | cons part parts =>
      rw [List.intercalate_cons_cons]
      rfl
  have hsplit : (rootedPath parts).splitOn '/' = [] :: parts := by
    rw [hjoin]
    apply List.splitOn_intercalate
    · intro part hpart
      rcases List.mem_cons.mp hpart with rfl | hin
      · exact List.not_mem_nil
      · exact (h part hin).2.2.2
    · exact List.cons_ne_nil [] parts
  have hempty : ∀ rooted, push rooted [] [] = [] := by
    intro rooted
    rw [push, if_pos (.inl rfl)]
  rw [elements, hsplit, List.foldl_cons, hempty, foldl_push_of_plain h, List.append_nil,
    List.reverse_reverse]

theorem clean_rootedPath {parts : List (List Char)} (hne : parts ≠ [])
    (h : ∀ part ∈ parts, Plain part) : clean (rootedPath parts) = rootedPath parts := by
  have hhead : (rootedPath parts).head? = some '/' := rfl
  simp only [clean, elements_rootedPath hne h, hhead, if_true]
  rfl

end RemoteDocker.Base.GoPath

import Mathlib.Data.List.Defs

/-!
# Chunks of a list

`slices.Chunk` is `List.toChunks`. What a loop over chunks sees is the list itself, once.
-/

namespace RemoteDocker.Base

universe u

variable {α : Type u}

private theorem flatten_toChunks_go (n : Nat) (xs : List α) (acc : Array α)
    (done : Array (List α)) :
    (List.toChunks.go n xs acc done).flatten = done.toList.flatten ++ acc.toList ++ xs := by
  induction xs generalizing acc done with
  | nil => simp [List.toChunks.go]
  | cons x xs ih =>
    unfold List.toChunks.go
    split
    · rw [ih]
      simp
    · rw [ih]
      simp

theorem flatten_toChunks (n : Nat) (xs : List α) : (xs.toChunks n).flatten = xs := by
  unfold List.toChunks
  split
  · rfl
  · simp
  · rw [flatten_toChunks_go]
    simp

theorem mem_iff_mem_toChunks {n : Nat} {xs : List α} {x : α} :
    x ∈ xs ↔ ∃ chunk ∈ xs.toChunks n, x ∈ chunk := by
  rw [← List.mem_flatten, flatten_toChunks]

private theorem nil_notMem_toChunks_go (n : Nat) (xs : List α) (acc : Array α)
    (done : Array (List α)) (hacc : acc.toList ≠ []) (hdone : [] ∉ done.toList) :
    [] ∉ List.toChunks.go n xs acc done := by
  induction xs generalizing acc done with
  | nil =>
    simp only [List.toChunks.go, Array.toList_push, List.mem_append, List.mem_singleton, not_or]
    exact ⟨hdone, Ne.symm hacc⟩
  | cons x xs ih =>
    unfold List.toChunks.go
    split
    · apply ih
      · simp
      · simp only [Array.toList_push, List.mem_append, List.mem_singleton, not_or]
        exact ⟨hdone, Ne.symm hacc⟩
    · apply ih
      · simp
      · exact hdone

private theorem toChunks_go_done (n : Nat) (xs : List α) (acc : Array α) (done : Array (List α)) :
    List.toChunks.go n xs acc done = done.toList ++ List.toChunks.go n xs acc #[] := by
  induction xs generalizing acc done with
  | nil => simp [List.toChunks.go]
  | cons x xs ih =>
    unfold List.toChunks.go
    split
    · rw [ih, ih _ (#[].push acc.toList)]
      simp
    · rw [ih]

private theorem toChunks_go_append (n : Nat) (ys : List α) (x : α) (zs : List α) (acc : Array α)
    (h : acc.size + ys.length = n) :
    List.toChunks.go n (ys ++ x :: zs) acc #[] =
      (acc.toList ++ ys) :: List.toChunks.go n zs #[x] #[] := by
  induction ys generalizing acc with
  | nil =>
    rw [List.length_nil, Nat.add_zero] at h
    rw [List.nil_append, List.toChunks.go, if_pos (by simpa using h), toChunks_go_done]
    simp
  | cons y ys ih =>
    rw [List.length_cons] at h
    have hsize : (acc.size == n) = false := by
      rw [beq_eq_false_iff_ne]
      omega
    rw [List.cons_append, List.toChunks.go, hsize, if_neg Bool.false_ne_true, ih]
    · simp
    · rw [Array.size_push]
      omega

theorem toChunks_append {n : Nat} {ys zs : List α} (hn : 0 < n) (hy : ys.length = n)
    (hz : zs ≠ []) : (ys ++ zs).toChunks n = ys :: zs.toChunks n := by
  obtain ⟨z, zs, rfl⟩ := List.exists_cons_of_ne_nil hz
  cases ys with
  | nil =>
    rw [List.length_nil] at hy
    omega
  | cons y ys =>
    obtain ⟨m, rfl⟩ := Nat.exists_eq_succ_of_ne_zero (Nat.pos_iff_ne_zero.mp hn)
    show List.toChunks.go (m + 1) (ys ++ z :: zs) #[y] #[] =
      (y :: ys) :: List.toChunks.go (m + 1) zs #[z] #[]
    rw [toChunks_go_append]
    · rfl
    · rw [List.length_cons] at hy
      simp only [List.size_toArray, List.length_singleton]
      omega

theorem nil_notMem_toChunks (n : Nat) (xs : List α) : [] ∉ xs.toChunks n := by
  unfold List.toChunks
  split
  · simp
  · next h => simpa using Ne.symm h
  · apply nil_notMem_toChunks_go
    · simp
    · simp

end RemoteDocker.Base

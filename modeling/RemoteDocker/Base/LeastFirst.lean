import Mathlib.Data.List.Sort

/-!
# Serving the least served first

A list ordered by how often each element was served, and a round that serves a first part of
it. Counts that differ by at most one go on doing so: what is served is no further ahead than
what is passed over.
-/

namespace RemoteDocker.Base

universe u

variable {α : Type u}

/-- The elements by how often each was served, fewest first and otherwise as given. -/
def leastFirst (count : α → Nat) (l : List α) : List α :=
  l.insertionSort fun a b ↦ count a ≤ count b

variable {count count' : α → Nat} {l : List α} {p q : α}

@[simp] theorem mem_leastFirst : p ∈ leastFirst count l ↔ p ∈ l :=
  List.mem_insertionSort _

theorem nodup_leastFirst (h : l.Nodup) : (leastFirst count l).Nodup :=
  (List.perm_insertionSort _ l).nodup_iff.mpr h

theorem leastFirst_of_const {n : Nat} (h : ∀ p ∈ l, count p = n) : leastFirst count l = l := by
  apply List.Pairwise.insertionSort_eq
  apply List.pairwise_of_forall_mem_list
  intro p hp q hq
  rw [h p hp, h q hq]

/-- What comes in the first part was served no more often than what does not. -/
theorem le_of_mem_take {n : Nat} (hp : p ∈ (leastFirst count l).take n) (hq : q ∈ l)
    (hnot : q ∉ (leastFirst count l).take n) : count p ≤ count q := by
  have hsorted : (leastFirst count l).Pairwise fun a b ↦ count a ≤ count b := by
    have : IsTrans α fun a b ↦ count a ≤ count b := ⟨fun _ _ _ ↦ Nat.le_trans⟩
    have : Std.Total fun a b : α ↦ count a ≤ count b := ⟨fun a b ↦ Nat.le_total _ _⟩
    exact List.pairwise_insertionSort _ l
  have hmem : q ∈ (leastFirst count l).take n ++ (leastFirst count l).drop n := by
    rw [List.take_append_drop]
    exact mem_leastFirst.mpr hq
  have hdrop : q ∈ (leastFirst count l).drop n := (List.mem_append.mp hmem).resolve_left hnot
  rw [← List.take_append_drop n (leastFirst count l), List.pairwise_append] at hsorted
  exact hsorted.2.2 p hp q hdrop

def WithinOne (count : α → Nat) (l : List α) : Prop := ∀ p ∈ l, ∀ q ∈ l, count p ≤ count q + 1

theorem WithinOne.mono {l' : List α} (h : WithinOne count l) (hsub : ∀ p ∈ l', p ∈ l) :
    WithinOne count l' :=
  fun p hp q hq ↦ h p (hsub p hp) q (hsub q hq)

theorem WithinOne.congr (h : WithinOne count l) (heq : ∀ p ∈ l, count' p = count p) :
    WithinOne count' l := by
  intro p hp q hq
  rw [heq p hp, heq q hq]
  exact h p hp q hq

/-- Serving a first part of the order once keeps the counts within one. -/
theorem WithinOne.serve (n : Nat) (h : WithinOne count l)
    (hserved : ∀ p ∈ l, p ∈ (leastFirst count l).take n → count' p = count p + 1)
    (hpassed : ∀ p ∈ l, p ∉ (leastFirst count l).take n → count' p = count p) :
    WithinOne count' l := by
  intro p hp q hq
  have hpq := h p hp q hq
  by_cases hps : p ∈ (leastFirst count l).take n
  · rw [hserved p hp hps]
    by_cases hqs : q ∈ (leastFirst count l).take n
    · rw [hserved q hq hqs]
      omega
    · rw [hpassed q hq hqs]
      have hle := le_of_mem_take hps hq hqs
      omega
  · rw [hpassed p hp hps]
    by_cases hqs : q ∈ (leastFirst count l).take n
    · rw [hserved q hq hqs]
      omega
    · rw [hpassed q hq hqs]
      exact hpq

end RemoteDocker.Base

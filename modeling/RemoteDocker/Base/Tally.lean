import Mathlib.Algebra.BigOperators.Group.List.Basic
import Mathlib.Data.List.Flatten
import Mathlib.Data.List.Nodup

/-!
# Trees that count

A tree with items at its leaves and a counter at every node, which is to be the sum of what the
items below weigh (`Tallied`). Items have keys, and a change of the item with a key goes with a
change of the counters above it and of no others (`update`). The counters are of any commutative
monoid, so they may be several numbers, and numbers that wrap; a homomorphism says which part of
them is spoken about.
-/

namespace RemoteDocker.Base

universe u v w

/-- A tree of items, with a counter at every node. -/
inductive Tally (α : Type u) (M : Type v) where
  | leaf (count : M) (items : List α)
  | inner (count : M) (kids : List (Tally α M))

namespace Tally

variable {α : Type u} {M : Type v}

private theorem induction {P : Tally α M → Prop} (leaf : ∀ c as, P (leaf c as))
    (inner : ∀ c kids, (∀ t ∈ kids, P t) → P (inner c kids)) (t : Tally α M) : P t := by
  refine @Tally.rec α M P (fun kids ↦ ∀ t ∈ kids, P t) leaf inner ?_ ?_ t
  · intro t ht
    cases ht
  · intro t kids ht hkids t' ht'
    rcases List.mem_cons.mp ht' with rfl | ht'
    · exact ht
    · exact hkids t' ht'

def count : Tally α M → M
  | leaf c _ => c
  | inner c _ => c

mutual

def items : Tally α M → List α
  | leaf _ as => as
  | inner _ kids => itemsOf kids

def itemsOf : List (Tally α M) → List α
  | [] => []
  | t :: ts => items t ++ itemsOf ts

end

theorem itemsOf_eq (kids : List (Tally α M)) : itemsOf kids = kids.flatMap items := by
  induction kids with
  | nil => rfl
  | cons t ts ih => rw [itemsOf, ih, List.flatMap_cons]

mutual

def nodes : Tally α M → List (Tally α M)
  | leaf c as => [leaf c as]
  | inner c kids => inner c kids :: nodesOf kids

def nodesOf : List (Tally α M) → List (Tally α M)
  | [] => []
  | t :: ts => nodes t ++ nodesOf ts

end

theorem nodesOf_eq (kids : List (Tally α M)) : nodesOf kids = kids.flatMap nodes := by
  induction kids with
  | nil => rfl
  | cons t ts ih => rw [nodesOf, ih, List.flatMap_cons]

mutual

/-- The items of each leaf, left to right. -/
def leaves : Tally α M → List (List α)
  | leaf _ as => [as]
  | inner _ kids => leavesOf kids

def leavesOf : List (Tally α M) → List (List α)
  | [] => []
  | t :: ts => leaves t ++ leavesOf ts

end

theorem leavesOf_eq (kids : List (Tally α M)) : leavesOf kids = kids.flatMap leaves := by
  induction kids with
  | nil => rfl
  | cons t ts ih => rw [leavesOf, ih, List.flatMap_cons]

def children : Tally α M → List (Tally α M)
  | leaf _ _ => []
  | inner _ kids => kids

theorem self_mem_nodes (t : Tally α M) : t ∈ nodes t := by
  cases t with
  | leaf c as => exact (.head _)
  | inner c kids => exact (.head _)

/-- What is below a node is below the root, in the same order. -/
theorem items_sublist {t n : Tally α M} (hn : n ∈ nodes t) : (items n).Sublist (items t) := by
  induction t using Tally.induction with
  | leaf c as =>
    rw [nodes, List.mem_singleton] at hn
    rw [hn]
  | inner c kids ih =>
    rw [nodes, List.mem_cons, nodesOf_eq, List.mem_flatMap] at hn
    rcases hn with rfl | ⟨kid, hkid, hn⟩
    · exact List.Sublist.refl _
    · rw [items, itemsOf_eq]
      have hbelow := (List.singleton_sublist.mpr hkid).flatMap items
      rw [List.flatMap_singleton] at hbelow
      exact (ih kid hkid hn).trans hbelow

mutual

/-- The items below a node, as a stack of nodes comes to them: the last child first. -/
def stackItems : Tally α M → List α
  | leaf _ as => as
  | inner _ kids => stackItemsOf kids

def stackItemsOf : List (Tally α M) → List α
  | [] => []
  | t :: ts => stackItemsOf ts ++ stackItems t

end

/-- A walk with a stack meets every item once. -/
theorem stackItems_perm (t : Tally α M) : (stackItems t).Perm (items t) := by
  induction t using Tally.induction with
  | leaf c as => exact List.Perm.refl _
  | inner c kids ih =>
    rw [stackItems, items]
    induction kids with
    | nil => exact List.Perm.refl _
    | cons t ts ihs =>
      rw [stackItemsOf, itemsOf]
      have hrest := ihs fun t' ht' ↦ ih t' (.tail _ ht')
      exact (hrest.append (ih t (.head _))).trans List.perm_append_comm

section Update

variable {κ : Type w} [DecidableEq κ] (key : α → κ) (k : κ)

def has (as : List α) : Bool := as.any fun a ↦ decide (key a = k)

def change (f : α → α) (a : α) : α := if key a = k then f a else a

private theorem has_eq_false {as : List α} : has key k as = false ↔ ∀ a ∈ as, key a ≠ k := by
  simp [has]

private theorem map_change_of_not_has {as : List α} (f : α → α) (h : has key k as = false) :
    as.map (change key k f) = as := by
  have hsame : ∀ a ∈ as, change key k f a = id a := by
    intro a ha
    exact if_neg ((has_eq_false key k).mp h a ha)
  rw [List.map_congr_left hsame, List.map_id]

variable (f : α → α) (bump : M → M)

mutual

/-- Changes the item with the key, and the counter of every node above it. -/
def update : Tally α M → Tally α M
  | leaf c as => if has key k as then leaf (bump c) (as.map (change key k f)) else leaf c as
  | inner c kids =>
    if has key k (itemsOf kids) then inner (bump c) (updateOf kids) else inner c kids

def updateOf : List (Tally α M) → List (Tally α M)
  | [] => []
  | t :: ts => update t :: updateOf ts

end

private theorem updateOf_eq (kids : List (Tally α M)) :
    updateOf key k f bump kids = kids.map (update key k f bump) := by
  induction kids with
  | nil => rfl
  | cons t ts ih => rw [updateOf, ih, List.map_cons]

private theorem update_of_not_has {t : Tally α M} (h : has key k (items t) = false) :
    update key k f bump t = t := by
  cases t with
  | leaf c as => exact if_neg (Bool.eq_false_iff.mp h)
  | inner c kids => exact if_neg (Bool.eq_false_iff.mp h)

private theorem count_update (t : Tally α M) : count (update key k f bump t) =
    if has key k (items t) then bump (count t) else count t := by
  cases t with
  | leaf c as =>
    rw [update, items]
    split
    · rfl
    · rfl
  | inner c kids =>
    rw [update, items]
    split
    · rfl
    · rfl

/-- An update changes the item with the key, and no other. -/
theorem items_update (t : Tally α M) :
    items (update key k f bump t) = (items t).map (change key k f) := by
  induction t using Tally.induction with
  | leaf c as =>
    rw [update, items]
    split
    · rfl
    · next h => exact (map_change_of_not_has key k f (Bool.eq_false_iff.mpr h)).symm
  | inner c kids ih =>
    rw [update, items]
    split
    · rw [items, itemsOf_eq, itemsOf_eq, updateOf_eq, List.flatMap_map, List.map_flatMap]
      exact List.flatMap_congr fun kid hkid ↦ ih kid hkid
    · next h => exact (map_change_of_not_has key k f (Bool.eq_false_iff.mpr h)).symm

private theorem nodes_update (t : Tally α M) :
    nodes (update key k f bump t) = (nodes t).map (update key k f bump) := by
  induction t using Tally.induction with
  | leaf c as =>
    rw [nodes, List.map_singleton, update]
    split
    · rfl
    · rfl
  | inner c kids ih =>
    by_cases h : has key k (items (inner c kids)) = true
    · have hupdate : update key k f bump (inner c kids) =
          inner (bump c) (kids.map (update key k f bump)) := by
        rw [update, updateOf_eq]
        exact if_pos h
      rw [nodes, List.map_cons, hupdate, nodes, nodesOf_eq, nodesOf_eq, List.flatMap_map,
        List.map_flatMap]
      congr 1
      exact List.flatMap_congr fun kid hkid ↦ ih kid hkid
    · -- nothing changes, here or below
      have hsame : ∀ n ∈ nodes (inner c kids), update key k f bump n = id n := by
        intro n hn
        apply update_of_not_has
        rw [has_eq_false]
        intro a ha
        have hno := (has_eq_false key k).mp (Bool.eq_false_iff.mpr h)
        exact hno a ((items_sublist hn).subset ha)
      rw [update_of_not_has key k f bump (Bool.eq_false_iff.mpr h), List.map_congr_left hsame,
        List.map_id]

mutual

/-- The nodes above the item with the key, the leaf first. -/
def chain : Tally α M → List (Tally α M)
  | leaf c as => if has key k as then [leaf c as] else []
  | inner c kids =>
    match chainOf kids with
    | [] => []
    | n :: above => n :: above ++ [inner c kids]

def chainOf : List (Tally α M) → List (Tally α M)
  | [] => []
  | t :: ts =>
    match chain t with
    | [] => chainOf ts
    | n :: above => n :: above

end

theorem mem_nodes_of_mem_chain (t : Tally α M) : ∀ n ∈ chain key k t, n ∈ nodes t := by
  induction t using Tally.induction with
  | leaf c as =>
    intro n hn
    rw [chain] at hn
    split at hn
    · exact hn
    · cases hn
  | inner c kids ih =>
    have hkids : ∀ n ∈ chainOf key k kids, n ∈ nodesOf kids := by
      induction kids with
      | nil =>
        intro n hn
        cases hn
      | cons t ts ihs =>
        intro n hn
        rw [chainOf] at hn
        rw [nodesOf, List.mem_append]
        split at hn
        · right
          exact ihs (fun t' ht' ↦ ih t' (.tail _ ht')) n hn
        · next heq =>
          left
          rw [← heq] at hn
          exact ih t (.head _) n hn
    intro n hn
    rw [chain] at hn
    rw [nodes, List.mem_cons]
    split at hn
    · cases hn
    · next heq =>
      rw [← heq, List.mem_append, List.mem_singleton] at hn
      rcases hn with hn | hn
      · exact .inr (hkids n hn)
      · exact .inl hn

end Update

section Tallied

variable {N : Type w} [AddCommMonoid M] [AddCommMonoid N] (φ : M →+ N) (weight : α → N)

/-- Every counter, as far as it is looked at, is the sum of what the items below weigh. -/
def Tallied (t : Tally α M) : Prop := ∀ n ∈ nodes t, φ n.count = (n.items.map weight).sum

theorem tallied_leaf {c : M} {as : List α} :
    Tallied φ weight (leaf c as) ↔ φ c = (as.map weight).sum := by
  simp [Tallied, nodes, count, items]

/-- A node over nodes that count right, which adds up their counters. -/
theorem tallied_inner {kids : List (Tally α M)} (h : ∀ kid ∈ kids, Tallied φ weight kid) :
    Tallied φ weight (inner (kids.map count).sum kids) := by
  have hsum : φ (kids.map count).sum = ((kids.flatMap items).map weight).sum := by
    induction kids with
    | nil => exact map_zero φ
    | cons kid kids ih =>
      rw [List.map_cons, List.sum_cons, map_add, List.flatMap_cons, List.map_append,
        List.sum_append, ih fun kid' hkid' ↦ h kid' (.tail _ hkid'),
        h kid (.head _) kid (self_mem_nodes kid)]
  intro n hn
  rw [nodes, List.mem_cons, nodesOf_eq, List.mem_flatMap] at hn
  rcases hn with rfl | ⟨kid, hkid, hn⟩
  · rw [count, items, itemsOf_eq, hsum]
  · exact h kid hkid n hn

theorem Tallied.part {weight : α → M} {t : Tally α M}
    (h : Tallied (AddMonoidHom.id M) weight t) : Tallied φ (fun a ↦ φ (weight a)) t := by
  intro n hn
  have hcount : n.count = (n.items.map weight).sum := h n hn
  rw [hcount, map_list_sum, List.map_map]
  rfl

variable {κ : Type*} [DecidableEq κ] {key : α → κ}

theorem sum_map_change {as : List α} (hkeys : (as.map key).Nodup) {a : α} (ha : a ∈ as)
    {f : α → α} {d : N} (hd : weight (f a) = weight a + d) :
    ((as.map (change key (key a) f)).map weight).sum = (as.map weight).sum + d := by
  induction as with
  | nil => cases ha
  | cons b as ih =>
    rw [List.map_cons, List.nodup_cons] at hkeys
    rw [List.map_cons, List.map_cons, List.map_cons, List.sum_cons, List.sum_cons]
    rcases List.mem_cons.mp ha with rfl | ha
    · have hrest : has key (key a) as = false := by
        rw [has_eq_false]
        intro b hb heq
        exact hkeys.1 (heq ▸ List.mem_map_of_mem hb)
      rw [map_change_of_not_has key (key a) f hrest, change, if_pos rfl, hd]
      exact add_right_comm _ _ _
    · have hne : key b ≠ key a := fun heq ↦ hkeys.1 (heq ▸ List.mem_map_of_mem ha)
      rw [change, if_neg hne, ih hkeys.2 ha, add_assoc]

/-- A change of one item that goes with the same change of the counters above it. -/
theorem Tallied.update {t : Tally α M} (h : Tallied φ weight t)
    (hkeys : ((items t).map key).Nodup) {a : α} (ha : a ∈ items t) {f : α → α} {d : M}
    (hd : weight (f a) = weight a + φ d) :
    Tallied φ weight (update key (key a) f (· + d) t) := by
  intro n' hn'
  rw [nodes_update, List.mem_map] at hn'
  obtain ⟨n, hn, rfl⟩ := hn'
  have hsub := items_sublist hn
  rw [count_update, items_update]
  split
  · next hhas =>
    obtain ⟨b, hb, hkey⟩ := List.any_eq_true.mp hhas
    have hba : b = a := List.inj_on_of_nodup_map hkeys (hsub.subset hb) ha (of_decide_eq_true hkey)
    rw [map_add, h n hn, sum_map_change weight (hkeys.sublist (hsub.map key)) (hba ▸ hb) hd]
  · next hhas =>
    rw [h n hn, map_change_of_not_has key (key a) f (Bool.eq_false_iff.mpr hhas)]

end Tallied

end Tally

end RemoteDocker.Base

import Mathlib.Data.List.AList

/-!
# Finite tables

What association lists lack for a table that is pruned by key: `restrict` keeps the
entries whose key passes a test. What a table answers after an entry is put in or taken out is
one of two things, whichever the key.
-/

namespace RemoteDocker.Base

universe u v

variable {α : Type u} {β : α → Type v} [DecidableEq α]

/-- The entries of a table whose key passes `keep`. -/
def restrict (m : AList β) (keep : α → Bool) : AList β where
  entries := m.entries.filter fun e ↦ keep e.1
  nodupKeys := m.nodupKeys.sublist List.filter_sublist

private theorem dlookup_filter_fst (keep : α → Bool) (a : α) (l : List (Sigma β)) :
    (l.filter fun e ↦ keep e.1).dlookup a = if keep a then l.dlookup a else none := by
  induction l with
  | nil => simp
  | cons e l ih =>
    obtain ⟨k, v⟩ := e
    by_cases hk : keep k = true
    · rw [List.filter_cons_of_pos (by simpa using hk)]
      by_cases hak : k = a
      · subst hak
        simp [hk]
      · rw [List.dlookup_cons_ne _ _ (Ne.symm hak), List.dlookup_cons_ne _ _ (Ne.symm hak), ih]
    · rw [List.filter_cons_of_neg (by simpa using hk), ih]
      by_cases hak : k = a
      · subst hak
        simp [hk]
      · rw [List.dlookup_cons_ne _ _ (Ne.symm hak)]

@[simp] theorem lookup_restrict (m : AList β) (keep : α → Bool) (a : α) :
    (restrict m keep).lookup a = if keep a then m.lookup a else none :=
  dlookup_filter_fst keep a m.entries

section

variable {γ : Type v} {m : AList fun _ : α ↦ γ} {a k : α} {b c : γ}

theorem lookup_erase_eq_some : (m.erase a).lookup k = some c ↔ k ≠ a ∧ m.lookup k = some c := by
  by_cases hk : k = a
  · subst hk
    simp [AList.lookup_erase]
  · rw [AList.lookup_erase_ne hk]
    simp [hk]

/-- What is found after an insertion: the new value, or what was there. -/
theorem lookup_insert_eq_some :
    (m.insert a b).lookup k = some c ↔ k = a ∧ b = c ∨ k ≠ a ∧ m.lookup k = some c := by
  by_cases hk : k = a
  · subst hk
    simp [AList.lookup_insert]
  · rw [AList.lookup_insert_ne hk]
    simp [hk]

theorem mem_of_lookup (h : m.lookup a = some b) : a ∈ m := by
  rw [← AList.lookup_isSome, h]
  rfl

theorem exists_lookup (h : a ∈ m) : ∃ b, m.lookup a = some b :=
  Option.isSome_iff_exists.mp (AList.lookup_isSome.mpr h)

/-- What holds of a new entry and of every old one holds of the table with both. -/
theorem forall_lookup_insert {P : α → γ → Prop} (hnew : P a b)
    (hold : ∀ k c, m.lookup k = some c → P k c) :
    ∀ k c, (m.insert a b).lookup k = some c → P k c := by
  intro k c hk
  rcases lookup_insert_eq_some.mp hk with ⟨rfl, rfl⟩ | ⟨-, hk⟩
  · exact hnew
  · exact hold k c hk

/-- The table of a list of entries, the later of two for one key. -/
def tableOf (l : List (α × γ)) : AList fun _ : α ↦ γ :=
  l.foldl (fun m e ↦ m.insert e.1 e.2) ∅

private theorem lookup_foldl_insert {l : List (α × γ)} (hnodup : (l.map (·.1)).Nodup)
    (m : AList fun _ : α ↦ γ) :
    (l.foldl (fun m e ↦ m.insert e.1 e.2) m).lookup k = some c ↔
      (k, c) ∈ l ∨ k ∉ l.map (·.1) ∧ m.lookup k = some c := by
  induction l generalizing m with
  | nil => simp
  | cons e l ih =>
    obtain ⟨a, b⟩ := e
    rw [List.map_cons, List.nodup_cons] at hnodup
    rw [List.foldl_cons, ih hnodup.2, lookup_insert_eq_some]
    have hin : (k, c) ∈ l → k ∈ l.map (·.1) := fun h ↦ List.mem_map_of_mem h
    simp only [List.mem_cons, List.map_cons, Prod.mk.injEq, not_or]
    constructor
    · rintro (h | ⟨hnot, ⟨rfl, rfl⟩ | ⟨hne, hm⟩⟩)
      · exact .inl (.inr h)
      · exact .inl (.inl ⟨rfl, rfl⟩)
      · exact .inr ⟨⟨hne, hnot⟩, hm⟩
    · rintro ((⟨rfl, rfl⟩ | h) | ⟨⟨hne, hnot⟩, hm⟩)
      · exact .inr ⟨hnodup.1, .inl ⟨rfl, rfl⟩⟩
      · exact .inl h
      · exact .inr ⟨hnot, .inr ⟨hne, hm⟩⟩

theorem mem_of_lookup_tableOf {l : List (α × γ)} (h : (tableOf l).lookup k = some c) :
    (k, c) ∈ l := by
  have hfold : ∀ m : AList fun _ : α ↦ γ,
      (l.foldl (fun m e ↦ m.insert e.1 e.2) m).lookup k = some c →
        (k, c) ∈ l ∨ m.lookup k = some c := by
    clear h
    induction l with
    | nil => exact fun m h ↦ .inr h
    | cons e l ih =>
      intro m h
      rcases ih (m.insert e.1 e.2) h with hl | hm
      · exact .inl (.tail _ hl)
      · rcases lookup_insert_eq_some.mp hm with ⟨rfl, rfl⟩ | ⟨-, hm⟩
        · exact .inl (.head _)
        · exact .inr hm
  rcases hfold ∅ h with hl | hm
  · exact hl
  · simp at hm

/-- Where no key is twice, a table is its list. -/
theorem lookup_tableOf {l : List (α × γ)} (hnodup : (l.map (·.1)).Nodup) :
    (tableOf l).lookup k = some c ↔ (k, c) ∈ l := by
  rw [tableOf, lookup_foldl_insert hnodup]
  simp

def mapTable (f : α → γ → γ) (m : AList fun _ : α ↦ γ) : AList fun _ : α ↦ γ where
  entries := m.entries.map fun e ↦ ⟨e.1, f e.1 e.2⟩
  nodupKeys := by
    have hkeys : (m.entries.map fun e ↦ (⟨e.1, f e.1 e.2⟩ : Sigma fun _ : α ↦ γ)).keys =
        m.entries.keys := by
      rw [List.keys, List.map_map]
      rfl
    rw [List.NodupKeys, hkeys]
    exact m.nodupKeys

theorem lookup_mapTable (f : α → γ → γ) (m : AList fun _ : α ↦ γ) (k : α) :
    (mapTable f m).lookup k = (m.lookup k).map (f k) := by
  ext c
  rw [← Option.mem_def, AList.mem_lookup_iff, Option.map_eq_some_iff]
  constructor
  · intro h
    obtain ⟨⟨k', b⟩, hmem, heq⟩ := List.mem_map.mp h
    cases heq
    exact ⟨b, AList.mem_lookup_iff.mpr hmem, rfl⟩
  · rintro ⟨b, hb, rfl⟩
    exact List.mem_map.mpr ⟨⟨k, b⟩, AList.mem_lookup_iff.mp hb, rfl⟩

def countTable (p : γ → Bool) (m : AList fun _ : α ↦ γ) : Nat := m.entries.countP fun e ↦ p e.2

theorem countTable_insert (p : γ → Bool) (h : a ∉ m) :
    countTable p (m.insert a b) = countTable p m + if p b then 1 else 0 := by
  rw [countTable, AList.entries_insert_of_notMem h, List.countP_cons]
  rfl

theorem countTable_insert_erase (p : γ → Bool) :
    countTable p (m.insert a b) = countTable p (m.erase a) + if p b then 1 else 0 := by
  rw [countTable, AList.entries_insert, List.countP_cons]
  rfl

theorem countTable_erase (p : γ → Bool) (h : m.lookup a = some b) :
    countTable p m = countTable p (m.erase a) + if p b then 1 else 0 := by
  obtain ⟨b', l₁, l₂, hnot, hl, herase⟩ :=
    List.exists_of_kerase (AList.lookup_isSome.mp (by rw [h]; rfl) : a ∈ m.entries.keys)
  have hb : b' = b := by
    have hmem : b' ∈ m.lookup a := AList.mem_lookup_iff.mpr (by rw [hl]; simp)
    exact Option.some.inj ((Option.mem_def.mp hmem).symm.trans h)
  subst hb
  rw [countTable, countTable, show (m.erase a).entries = l₁ ++ l₂ from herase, hl,
    List.countP_append, List.countP_append, List.countP_cons]
  dsimp only
  omega

theorem countTable_pos {p : γ → Bool} (h : m.lookup a = some b) (hb : p b = true) :
    0 < countTable p m :=
  List.countP_pos_iff.mpr ⟨⟨a, b⟩, AList.mem_lookup_iff.mp h, hb⟩

/-- A value in the place of another. -/
theorem countTable_replace (p : γ → Bool) (h : m.lookup a = some b) :
    countTable p (m.insert a c) + (if p b then 1 else 0) =
      countTable p m + if p c then 1 else 0 := by
  rw [countTable_insert_erase, countTable_erase p h]
  omega

theorem countTable_eq_zero {p : γ → Bool} :
    countTable p m = 0 ↔ ∀ a b, m.lookup a = some b → p b = false := by
  rw [countTable, List.countP_eq_zero]
  constructor
  · intro h a b hb
    exact Bool.eq_false_iff.mpr (h ⟨a, b⟩ (AList.mem_lookup_iff.mp hb))
  · rintro h ⟨a, b⟩ hmem
    exact Bool.eq_false_iff.mp (h a b (AList.mem_lookup_iff.mpr hmem))

/-- Of two entries that pass, one is the other when only one is counted. -/
theorem eq_of_countTable_le_one {p : γ → Bool} (hcount : countTable p m ≤ 1)
    (ha : m.lookup a = some b) (hb : p b = true) (hk : m.lookup k = some c) (hc : p c = true) :
    a = k := by
  by_contra hne
  have herase := countTable_erase p ha
  have hpos : 0 < countTable p (m.erase a) :=
    countTable_pos (by rw [AList.lookup_erase_ne (Ne.symm hne)]; exact hk) hc
  rw [if_pos hb] at herase
  omega

end

end RemoteDocker.Base

import RemoteDocker.Base.Table

/-!
# Locks by name

One lock a name, made when it is first asked for and dropped when nobody uses it any more. A lock is
a slot for one token and a count of those who have it in hand, waiting or holding. Whoever asks gets
the lock the table has for the name, or a new one; waits for the slot, or gives up waiting; empties
the slot when done; and last gives the lock back, which takes it out of the table when it was the
only one left.

The slot and the table are not changed together, so a lock may be out of the table while somebody
still has it in hand only if the counts are wrong. `WF` says that they are right: everybody in hand
of a lock for a name has the one the table has, and so at most one of them holds the name.
-/

namespace RemoteDocker.Base

universe u

/-- A lock: its slot, and how many have it in hand. -/
structure NameLock (N : Type u) where
  name : N
  full : Bool
  refs : Nat
  deriving DecidableEq, Repr

/-- What a process does with the lock it has in hand. -/
inductive Grip where
  | waiting
  | holding
  | leaving
  deriving DecidableEq, Repr

structure User (N : Type u) where
  name : N
  lock : Nat
  grip : Grip
  deriving DecidableEq, Repr

/-- The locks there are, those the table has by name, and who has them in hand. -/
structure NameLocks (N : Type u) where
  table : AList fun _ : N ↦ Nat := ∅
  heap : AList fun _ : Nat ↦ NameLock N := ∅
  users : AList fun _ : Nat ↦ User N := ∅
  made : Nat := 0

namespace NameLocks

variable {N : Type u} {t t' : NameLocks N} {p q l : Nat} {name : N} {w : User N} {o : NameLock N}

def enter [DecidableEq N] (t : NameLocks N) (p : Nat) (name : N) : Option (NameLocks N) :=
  if p ∈ t.users then none
  else
    match t.table.lookup name with
    | some l =>
      match t.heap.lookup l with
      | some o =>
        some { t with
          heap := t.heap.insert l { o with refs := o.refs + 1 }
          users := t.users.insert p ⟨name, l, .waiting⟩ }
      | none => none
    | none =>
      some
        { table := t.table.insert name t.made
          heap := t.heap.insert t.made ⟨name, false, 1⟩
          users := t.users.insert p ⟨name, t.made, .waiting⟩
          made := t.made + 1 }

def inHand (t : NameLocks N) (p : Nat) : Option (User N × NameLock N) :=
  (t.users.lookup p).bind fun w ↦ (t.heap.lookup w.lock).map fun o ↦ (w, o)

/-- A waiting process puts its token in the empty slot. -/
def take (t : NameLocks N) (p : Nat) : Option (NameLocks N) :=
  match t.inHand p with
  | some (w, o) =>
    if w.grip = .waiting ∧ o.full = false then
      some { t with
        heap := t.heap.insert w.lock { o with full := true }
        users := t.users.insert p { w with grip := .holding } }
    else none
  | none => none

def giveUp (t : NameLocks N) (p : Nat) : Option (NameLocks N) :=
  match t.inHand p with
  | some (w, _) =>
    if w.grip = .waiting then
      some { t with users := t.users.insert p { w with grip := .leaving } }
    else none
  | none => none

def unlock (t : NameLocks N) (p : Nat) : Option (NameLocks N) :=
  match t.inHand p with
  | some (w, o) =>
    if w.grip = .holding then
      some { t with
        heap := t.heap.insert w.lock { o with full := false }
        users := t.users.insert p { w with grip := .leaving } }
    else none
  | none => none

def release [DecidableEq N] (t : NameLocks N) (p : Nat) : Option (NameLocks N) :=
  match t.inHand p with
  | some (w, o) =>
    if w.grip = .leaving then
      some { t with
        table := if o.refs - 1 = 0 then t.table.erase w.name else t.table
        heap := t.heap.insert w.lock { o with refs := o.refs - 1 }
        users := t.users.erase p }
    else none
  | none => none

private theorem inHand_eq_some :
    t.inHand p = some (w, o) ↔ t.users.lookup p = some w ∧ t.heap.lookup w.lock = some o := by
  rw [inHand, Option.bind_eq_some_iff]
  constructor
  · rintro ⟨w', hw, ho⟩
    obtain ⟨o', ho, heq⟩ := Option.map_eq_some_iff.mp ho
    cases heq
    exact ⟨hw, ho⟩
  · rintro ⟨hw, ho⟩
    exact ⟨w, hw, by rw [ho]; rfl⟩

def inUse (users : AList fun _ : Nat ↦ User N) (l : Nat) : Nat :=
  countTable (fun w ↦ w.lock == l) users

def holders (users : AList fun _ : Nat ↦ User N) (l : Nat) : Nat :=
  countTable (fun w ↦ w.lock == l && w.grip == .holding) users

section

variable {users : AList fun _ : Nat ↦ User N}

private theorem inUse_enter (hp : p ∉ users) (name : N) (l l' : Nat) :
    inUse (users.insert p ⟨name, l, .waiting⟩) l' = inUse users l' + if l = l' then 1 else 0 := by
  rw [inUse, countTable_insert _ hp]
  simp [inUse]

private theorem holders_enter (hp : p ∉ users) (name : N) (l l' : Nat) :
    holders (users.insert p ⟨name, l, .waiting⟩) l' = holders users l' := by
  rw [holders, countTable_insert _ hp]
  simp [holders]

section

variable (hw : users.lookup p = some w)

include hw

private theorem inUse_regrip (grip : Grip) (l : Nat) :
    inUse (users.insert p { w with grip }) l = inUse users l := by
  have h := countTable_replace (c := { w with grip }) (fun v ↦ v.lock == l) hw
  exact Nat.add_right_cancel h

private theorem holders_regrip (grip : Grip) :
    holders (users.insert p { w with grip }) w.lock + (if w.grip = .holding then 1 else 0) =
      holders users w.lock + if grip = .holding then 1 else 0 := by
  have h :=
    countTable_replace (c := { w with grip }) (fun v ↦ v.lock == w.lock && v.grip == .holding) hw
  simpa [holders] using h

private theorem holders_regrip_ne (grip : Grip) (hl : l ≠ w.lock) :
    holders (users.insert p { w with grip }) l = holders users l := by
  have h :=
    countTable_replace (c := { w with grip }) (fun v ↦ v.lock == l && v.grip == .holding) hw
  simpa [holders, beq_eq_false_iff_ne.mpr (Ne.symm hl)] using h

private theorem inUse_erase (l : Nat) :
    inUse users l = inUse (users.erase p) l + if w.lock = l then 1 else 0 := by
  rw [inUse, countTable_erase _ hw]
  simp [inUse]

private theorem holders_erase (hgrip : w.grip ≠ .holding) (l : Nat) :
    holders (users.erase p) l = holders users l := by
  rw [holders, holders, countTable_erase _ hw]
  simp [hgrip]

end

private theorem holders_le_inUse (users : AList fun _ : Nat ↦ User N) (l : Nat) :
    holders users l ≤ inUse users l := by
  apply List.countP_mono_left
  intro e _ he
  exact (Bool.and_eq_true_iff.mp he).1

end

variable [DecidableEq N]

/-- A lock as its users have it. -/
structure Counts (t : NameLocks N) (name : N) (l : Nat) (o : NameLock N) : Prop where
  name : o.name = name
  refs : o.refs = inUse t.users l
  used : 0 < o.refs
  full : holders t.users l = if o.full then 1 else 0

/-- Everybody in hand of a lock has the one the table has for the name, and the locks in the table
count their users. -/
structure WF (t : NameLocks N) : Prop where
  user : ∀ p w, t.users.lookup p = some w → t.table.lookup w.name = some w.lock
  lock : ∀ name l, t.table.lookup name = some l →
    ∃ o, t.heap.lookup l = some o ∧ t.Counts name l o
  fresh : ∀ name l, t.table.lookup name = some l → l < t.made

def Waits (t : NameLocks N) (p : Nat) (name : N) : Prop :=
  ∃ l, t.users.lookup p = some ⟨name, l, .waiting⟩

def Holds (t : NameLocks N) (p : Nat) (name : N) : Prop :=
  ∃ l, t.users.lookup p = some ⟨name, l, .holding⟩

theorem WF.holds_unique (h : t.WF) (hp : t.Holds p name) (hq : t.Holds q name) : p = q := by
  obtain ⟨l, hl⟩ := hp
  obtain ⟨l', hl'⟩ := hq
  have htable := h.user p _ hl
  have heq : l' = l := Option.some.inj ((h.user q _ hl').symm.trans htable)
  subst heq
  obtain ⟨o, -, hcounts⟩ := h.lock name l' htable
  have hone : holders t.users l' ≤ 1 := by
    rw [hcounts.full]
    split <;> omega
  exact eq_of_countTable_le_one hone hl (by simp) hl' (by simp)

private theorem WF.name_unique (h : t.WF) {name' : N} (hl : t.table.lookup name = some l)
    (hl' : t.table.lookup name' = some l) : name' = name := by
  obtain ⟨o, ho, hcounts⟩ := h.lock name l hl
  obtain ⟨o', ho', hcounts'⟩ := h.lock name' l hl'
  have heq : o' = o := Option.some.inj (ho'.symm.trans ho)
  subst heq
  exact hcounts'.name.symm.trans hcounts.name

/-- A lock as it is counted, by the heap's entry for it. -/
theorem WF.counts (h : t.WF) (hl : t.table.lookup name = some l) (ho : t.heap.lookup l = some o) :
    t.Counts name l o := by
  obtain ⟨o', ho', hcounts⟩ := h.lock name l hl
  have heq : o' = o := Option.some.inj (ho'.symm.trans ho)
  exact heq ▸ hcounts

private theorem WF.unused (h : t.WF) (hl : ∀ name, t.table.lookup name ≠ some l) :
    inUse t.users l = 0 := by
  apply countTable_eq_zero.mpr
  intro p w hw
  apply beq_eq_false_iff_ne.mpr
  rintro rfl
  exact hl w.name (h.user p w hw)

theorem wf_empty : WF ({} : NameLocks N) := by
  exact ⟨nofun, nofun, nofun⟩

/-- A lock that nobody takes or leaves is counted as before. -/
theorem WF.other (h : t.WF) (hl : t.table.lookup name = some l)
    (hheap : t'.heap.lookup l = t.heap.lookup l) (hrefs : inUse t'.users l = inUse t.users l)
    (hfull : holders t'.users l = holders t.users l) :
    ∃ o, t'.heap.lookup l = some o ∧ t'.Counts name l o := by
  obtain ⟨o, ho, hcounts⟩ := h.lock name l hl
  exact ⟨o, hheap.trans ho, hcounts.name, hcounts.refs.trans hrefs.symm, hcounts.used,
    hfull.trans hcounts.full⟩

theorem WF.enter (h : t.WF) (ht : t.enter p name = some t') : t'.WF := by
  revert ht
  fun_cases NameLocks.enter t p name <;> rintro ⟨⟩
  · -- the table has a lock for the name: it is in one more hand
    next hp l hl o ho =>
    have hcounts := h.counts hl ho
    refine ⟨?_, ?_, h.fresh⟩
    · intro q v hv
      rcases lookup_insert_eq_some.mp hv with ⟨rfl, rfl⟩ | ⟨-, hv⟩
      · exact hl
      · exact h.user q v hv
    · intro name' l' hl'
      by_cases hll : l' = l
      · subst hll
        have hname := h.name_unique hl hl'
        refine ⟨_, AList.lookup_insert _, hcounts.name.trans hname.symm, ?_, Nat.succ_pos _, ?_⟩
        · rw [inUse_enter hp, if_pos rfl, hcounts.refs]
        · rw [holders_enter hp, hcounts.full]
      · refine h.other hl' (AList.lookup_insert_ne hll) ?_ (holders_enter hp _ _ _)
        rw [inUse_enter hp, if_neg (Ne.symm hll), Nat.add_zero]
  · -- a new lock, which nobody has in hand yet
    next hp hnone =>
    have hmade : ∀ name', t.table.lookup name' ≠ some t.made := fun name' hl ↦
      Nat.lt_irrefl _ (h.fresh name' _ hl)
    have hzero : inUse t.users t.made = 0 := h.unused hmade
    refine ⟨?_, ?_, ?_⟩
    · intro q v hv
      rcases lookup_insert_eq_some.mp hv with ⟨rfl, rfl⟩ | ⟨-, hv⟩
      · exact AList.lookup_insert _
      · have htable := h.user q v hv
        have hne : v.name ≠ name := by
          intro heq
          rw [heq, hnone] at htable
          cases htable
        rw [AList.lookup_insert_ne hne]
        exact htable
    · intro name' l' hl'
      rcases lookup_insert_eq_some.mp hl' with ⟨rfl, rfl⟩ | ⟨-, hl'⟩
      · refine ⟨_, AList.lookup_insert _, rfl, ?_, Nat.one_pos, ?_⟩
        · rw [inUse_enter hp, if_pos rfl, hzero]
        · rw [holders_enter hp]
          exact Nat.le_zero.mp (hzero ▸ holders_le_inUse t.users t.made)
      · have hll : l' ≠ t.made := by
          rintro rfl
          exact hmade name' hl'
        refine h.other hl' (AList.lookup_insert_ne hll) ?_ (holders_enter hp _ _ _)
        rw [inUse_enter hp, if_neg (Ne.symm hll), Nat.add_zero]
    · intro name' l' hl'
      rcases lookup_insert_eq_some.mp hl' with ⟨rfl, rfl⟩ | ⟨-, hl'⟩
      · exact Nat.lt_succ_self _
      · exact Nat.lt_succ_of_lt (h.fresh name' l' hl')

/-- One user changes what it does with its lock, and the lock with it. -/
theorem WF.regrip {grip : Grip} {heap : AList fun _ : Nat ↦ NameLock N} {o' : NameLock N}
    (h : t.WF) (hw : t.users.lookup p = some w) (ho : t.heap.lookup w.lock = some o)
    (ho' : heap.lookup w.lock = some o')
    (hother : ∀ l, l ≠ w.lock → heap.lookup l = t.heap.lookup l)
    (hname : o'.name = o.name) (hrefs : o'.refs = o.refs)
    (hfull : (if o.full then 1 else 0) + (if grip = .holding then 1 else 0) =
      (if o'.full then 1 else 0) + (if w.grip = .holding then 1 else 0)) :
    WF { t with heap, users := t.users.insert p { w with grip } } where
  user q v hv := by
    rcases lookup_insert_eq_some.mp hv with ⟨rfl, rfl⟩ | ⟨-, hv⟩
    · exact h.user q w hw
    · exact h.user q v hv
  lock name l hl := by
    by_cases hlw : l = w.lock
    · subst hlw
      have hcounts := h.counts hl ho
      refine ⟨o', ho', hname.trans hcounts.name, ?_, hrefs ▸ hcounts.used, ?_⟩
      · rw [inUse_regrip hw, hrefs, hcounts.refs]
      · have hholders := holders_regrip hw grip
        rw [hcounts.full] at hholders
        dsimp only
        omega
    · exact h.other hl (hother l hlw) (inUse_regrip hw _ _) (holders_regrip_ne hw grip hlw)
  fresh := h.fresh

theorem WF.take (h : t.WF) (ht : t.take p = some t') : t'.WF := by
  revert ht
  fun_cases NameLocks.take t p <;> rintro ⟨⟩
  next w o hhand hwait =>
  obtain ⟨hw, ho⟩ := inHand_eq_some.mp hhand
  exact h.regrip hw ho (AList.lookup_insert _) (fun l hne ↦ AList.lookup_insert_ne hne) rfl rfl
    (by simp [hwait.1, hwait.2])

theorem WF.giveUp (h : t.WF) (ht : t.giveUp p = some t') : t'.WF := by
  revert ht
  fun_cases NameLocks.giveUp t p <;> rintro ⟨⟩
  next w o hhand hwait =>
  obtain ⟨hw, ho⟩ := inHand_eq_some.mp hhand
  exact h.regrip hw ho ho (fun l _ ↦ rfl) rfl rfl (by simp [hwait])

theorem WF.unlock (h : t.WF) (ht : t.unlock p = some t') : t'.WF := by
  revert ht
  fun_cases NameLocks.unlock t p <;> rintro ⟨⟩
  next w o hhand hhold =>
  obtain ⟨hw, ho⟩ := inHand_eq_some.mp hhand
  have hpos : 0 < holders t.users w.lock := countTable_pos hw (by simp [hhold])
  have hfull : o.full = true := by
    by_contra hnot
    rw [(h.counts (h.user p w hw) ho).full, if_neg hnot] at hpos
    exact absurd hpos (Nat.lt_irrefl 0)
  exact h.regrip hw ho (AList.lookup_insert _) (fun l hne ↦ AList.lookup_insert_ne hne) rfl rfl
    (by simp [hhold, hfull])

theorem WF.release (h : t.WF) (ht : t.release p = some t') : t'.WF := by
  revert ht
  fun_cases NameLocks.release t p <;> rintro ⟨⟩
  next w o hhand hleave =>
  obtain ⟨hw, ho⟩ := inHand_eq_some.mp hhand
  have hcounts := h.counts (h.user p w hw) ho
  have huse := inUse_erase hw w.lock
  rw [← hcounts.refs, if_pos rfl] at huse
  -- the table keeps the lock exactly while somebody has it in hand
  have hkept : ∀ {name l}, (if o.refs - 1 = 0 then t.table.erase w.name else t.table).lookup
      name = some l → t.table.lookup name = some l ∧ (l = w.lock → o.refs - 1 ≠ 0) := by
    intro name l hl
    split at hl
    · obtain ⟨hne, hl⟩ := lookup_erase_eq_some.mp hl
      refine ⟨hl, ?_⟩
      rintro rfl
      exact absurd (h.name_unique (h.user p w hw) hl) hne
    · next hmore => exact ⟨hl, fun _ ↦ hmore⟩
  have hholders : ∀ l, holders (t.users.erase p) l = holders t.users l :=
    holders_erase hw (by rw [hleave]; nofun)
  refine ⟨?_, ?_, ?_⟩
  · intro q v hv
    have htable := h.user q v (lookup_erase_eq_some.mp hv).2
    dsimp only
    split
    · have hne : v.name ≠ w.name := by
        intro heq
        rw [heq, h.user p w hw] at htable
        have hpos : 0 < inUse (t.users.erase p) w.lock :=
          countTable_pos hv (by simp [Option.some.inj htable])
        omega
      rw [AList.lookup_erase_ne hne]
      exact htable
    · exact htable
  · intro name l hl
    obtain ⟨hl, hmore⟩ := hkept hl
    by_cases hlw : l = w.lock
    · subst hlw
      refine ⟨_, AList.lookup_insert _, (h.counts hl ho).name, ?_,
        Nat.pos_of_ne_zero (hmore rfl), (hholders _).trans hcounts.full⟩
      dsimp only
      omega
    · have huse' := inUse_erase hw l
      rw [if_neg (Ne.symm hlw), Nat.add_zero] at huse'
      exact h.other hl (AList.lookup_insert_ne hlw) huse'.symm (hholders l)
  · intro name l hl
    exact h.fresh name l (hkept hl).1

omit [DecidableEq N] in
theorem users_of_take (ht : t.take p = some t') (hq : q ≠ p) :
    t'.users.lookup q = t.users.lookup q := by
  revert ht
  fun_cases NameLocks.take t p <;> rintro ⟨⟩
  exact AList.lookup_insert_ne hq

omit [DecidableEq N] in
theorem users_of_giveUp (ht : t.giveUp p = some t') (hq : q ≠ p) :
    t'.users.lookup q = t.users.lookup q := by
  revert ht
  fun_cases NameLocks.giveUp t p <;> rintro ⟨⟩
  exact AList.lookup_insert_ne hq

omit [DecidableEq N] in
theorem users_of_unlock (ht : t.unlock p = some t') (hq : q ≠ p) :
    t'.users.lookup q = t.users.lookup q := by
  revert ht
  fun_cases NameLocks.unlock t p <;> rintro ⟨⟩
  exact AList.lookup_insert_ne hq

theorem users_of_release (ht : t.release p = some t') (hq : q ≠ p) :
    t'.users.lookup q = t.users.lookup q := by
  revert ht
  fun_cases NameLocks.release t p <;> rintro ⟨⟩
  exact AList.lookup_erase_ne hq

theorem users_of_enter (ht : t.enter p name = some t') (hq : q ≠ p) :
    t'.users.lookup q = t.users.lookup q := by
  revert ht
  fun_cases NameLocks.enter t p name <;> rintro ⟨⟩
  · exact AList.lookup_insert_ne hq
  · exact AList.lookup_insert_ne hq

theorem waits_of_enter (ht : t.enter p name = some t') : t'.Waits p name := by
  revert ht
  fun_cases NameLocks.enter t p name <;> rintro ⟨⟩
  · exact ⟨_, AList.lookup_insert _⟩
  · exact ⟨_, AList.lookup_insert _⟩

omit [DecidableEq N] in
theorem holds_of_take (hw : t.Waits p name) (ht : t.take p = some t') : t'.Holds p name := by
  obtain ⟨l, hl⟩ := hw
  revert ht
  fun_cases NameLocks.take t p <;> rintro ⟨⟩
  next w o hhand _ =>
  have hw := (inHand_eq_some.mp hhand).1
  rw [hl] at hw
  cases hw
  exact ⟨l, AList.lookup_insert _⟩

omit [DecidableEq N] in
theorem Holds.of_users (h : t.Holds p name) (ht : t'.users.lookup p = t.users.lookup p) :
    t'.Holds p name := by
  obtain ⟨l, hl⟩ := h
  exact ⟨l, ht.trans hl⟩

omit [DecidableEq N] in
theorem Waits.of_users (h : t.Waits p name) (ht : t'.users.lookup p = t.users.lookup p) :
    t'.Waits p name := by
  obtain ⟨l, hl⟩ := h
  exact ⟨l, ht.trans hl⟩

end NameLocks
end RemoteDocker.Base

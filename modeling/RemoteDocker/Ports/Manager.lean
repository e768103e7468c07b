import RemoteDocker.Ports.Rule

/-!
# The forwards follow the containers

`Manager` (`src/client/internal/ports/ports.go`) keeps a local forward for each published port of
the containers that are running. `Reconcile` takes a whole listing: it closes what the listing no
longer has, and opens what is missing, in the order of the containers' ids.

A forward is known by its container, its network and its local port. Where it leads is not
compared: when a container comes back with another public port under the local port it had, the
forward stays and leads to the old one (`restarted_leads_astray`). The rest holds of every listing,
and a forward whose container still publishes the port it leads to leads there.
-/

namespace RemoteDocker.Ports

open Base

/-- What this machine opened: a local port over a network. -/
structure Listener where
  network : Network
  port : Nat
  deriving DecidableEq, Repr

/-- The open forwards of a container, each with the public port it leads to. -/
structure ContainerForwards where
  name : String
  forwards : AList fun _ : Listener ↦ Nat
  deriving DecidableEq

/-- `active`, by the containers' ids. -/
abbrev Active := AList fun _ : String ↦ ContainerForwards

/-- What a manager is made with. The two functions may be missing. -/
structure Setting where
  owned : Option (Container → Bool) := none
  localPorts : Option (Container → Published → List Nat) := none

/-- What became of a forward: opened, refused by the forwarder, or closed. -/
inductive Act where
  | opened (id : String) (l : Listener) (remote : Nat)
  | refused (id : String) (l : Listener) (remote : Nat)
  | closed (id : String) (l : Listener)
  deriving DecidableEq, Repr

namespace Active

def forwardsOf (a : Active) (id : String) : AList fun _ : Listener ↦ Nat :=
  match a.lookup id with
  | some entry => entry.forwards
  | none => ∅

/-- Where the forward of a container on a listener leads, if it is open. -/
def leads (a : Active) (id : String) (l : Listener) : Option Nat := (a.forwardsOf id).lookup l

def inUse (a : Active) (l : Listener) : Bool :=
  a.entries.any fun e ↦ (e.2.forwards.lookup l).isSome

end Active

namespace Setting

variable (cfg : Setting)

def isOwned (c : Container) : Bool :=
  match cfg.owned with
  | none => true
  | some owned => owned c

/-- `Manager.localPorts`. -/
def locals (c : Container) (p : Published) : List Nat :=
  match cfg.localPorts with
  | none => orPublished [] p
  | some localPorts => orPublished (localPorts c p) p

/-- The forwards a container is to have, in the order they are opened. -/
def wants (c : Container) : List (Listener × Nat) :=
  (published c).flatMap fun p ↦ (cfg.locals c p).map fun port ↦ (⟨p.network, port⟩, p.publicPort)

def wanted (containers : List Container) : AList fun _ : String ↦ Container :=
  tableOf
    ((containers.filter fun c ↦ cfg.isOwned c && !(published c).isEmpty).map fun c ↦ (c.id, c))

/-- `keep`: the listeners of a container. -/
def keeps (c : Container) (l : Listener) : Bool := (cfg.wants c).any fun want ↦ want.1 = l

/-- The first loop of `Reconcile`: what a wanted container keeps, and nothing of another. -/
def closeStale (wanted : AList fun _ : String ↦ Container) (a : Active) : Active :=
  mapTable (fun id entry ↦
      match wanted.lookup id with
      | none => entry
      | some c => { entry with forwards := restrict entry.forwards (cfg.keeps c) })
    (restrict a fun id ↦ (wanted.lookup id).isSome)

/-- The forwards the first loop closes. -/
def stale (wanted : AList fun _ : String ↦ Container) (a : Active) : List Act :=
  a.entries.flatMap fun e ↦
    (e.2.forwards.keys.filter fun l ↦
      match wanted.lookup e.1 with
      | none => true
      | some c => !cfg.keeps c l).map fun l ↦ .closed e.1 l

end Setting

/-- The forwarder's other refusals, by what happened so far. -/
abbrev Refuses := List Act → Listener → Bool

/-- `Reconcile` as it opens. -/
structure Opening where
  active : Active
  acts : List Act := []

namespace Opening

variable (refuses : Refuses)

/-- One local port of the second loop, with `openLocked`. The forwarder refuses a port in use. -/
def openOne (id : String) (o : Opening) (want : Listener × Nat) : Opening :=
  match o.active.lookup id with
  | none => o
  | some entry =>
    if (entry.forwards.lookup want.1).isSome then o
    else if o.active.inUse want.1 || refuses o.acts want.1 then
      { o with acts := o.acts ++ [.refused id want.1 want.2] }
    else
      { active := o.active.insert id { entry with
          forwards := entry.forwards.insert want.1 want.2 }
        acts := o.acts ++ [.opened id want.1 want.2] }

/-- The entry of a container, new where there is none. -/
def enter (id name : String) (o : Opening) : Opening :=
  if (o.active.lookup id).isSome then o
  else { o with active := o.active.insert id { name, forwards := ∅ } }

def leave (id : String) (o : Opening) : Opening :=
  if (o.active.forwardsOf id).keys.isEmpty then { o with active := o.active.erase id } else o

def openContainer (cfg : Setting) (wanted : AList fun _ : String ↦ Container) (o : Opening)
    (id : String) : Opening :=
  match wanted.lookup id with
  | none => o
  | some c => leave id ((cfg.wants c).foldl (openOne refuses id) (enter id c.name o))

end Opening

/-- What `Reconcile` makes of the forwards, with a listing. -/
def reconcile (cfg : Setting) (refuses : Refuses) (containers : List Container) (a : Active) :
    Opening :=
  let wanted := cfg.wanted containers
  (wanted.keys.insertionSort (· ≤ ·)).foldl (Opening.openContainer refuses cfg wanted)
    { active := cfg.closeStale wanted a, acts := cfg.stale wanted a }

/-! ### What is opened, forward by forward -/

section

variable {cfg : Setting} {refuses : Refuses} {wanted : AList fun _ : String ↦ Container}
  {a : Active} {o o' : Opening} {id : String} {l : Listener} {r : Nat} {c : Container}

private theorem Active.leads_of_lookup {entry : ContainerForwards} (h : a.lookup id = some entry) :
    a.leads id l = entry.forwards.lookup l := by
  rw [Active.leads, Active.forwardsOf, h]

private theorem Active.leads_of_lookup_none (h : a.lookup id = none) : a.leads id l = none := by
  rw [Active.leads, Active.forwardsOf, h]
  rfl

private theorem Active.leads_eq_some :
    a.leads id l = some r ↔
      ∃ entry, a.lookup id = some entry ∧ entry.forwards.lookup l = some r := by
  cases h : a.lookup id with
  | none => simp [Active.leads_of_lookup_none h]
  | some entry => simp [Active.leads_of_lookup h]

private theorem Active.leads_insert (entry : ContainerForwards) (id' : String) :
    Active.leads (a.insert id entry) id' l =
      if id' = id then entry.forwards.lookup l else a.leads id' l := by
  split_ifs with h
  · subst h
    exact Active.leads_of_lookup (AList.lookup_insert a)
  · rw [Active.leads, Active.forwardsOf, AList.lookup_insert_ne h]
    rfl

private theorem Active.leads_erase (id' : String) :
    Active.leads (a.erase id) id' l = if id' = id then none else a.leads id' l := by
  split_ifs with h
  · subst h
    exact Active.leads_of_lookup_none (AList.lookup_erase id' a)
  · rw [Active.leads, Active.forwardsOf, AList.lookup_erase_ne h]
    rfl

private theorem Active.leads_of_not_inUse (h : a.inUse l = false) : a.leads id l = none := by
  cases hentry : a.lookup id with
  | none => exact Active.leads_of_lookup_none hentry
  | some entry =>
    rw [Active.leads_of_lookup hentry]
    have hmem := AList.mem_lookup_iff.mp hentry
    have hnot := List.any_eq_false.mp h ⟨id, entry⟩ hmem
    simpa using hnot

private theorem Setting.leads_closeStale :
    (cfg.closeStale wanted a).leads id l = some r ↔
      ∃ c, wanted.lookup id = some c ∧ cfg.keeps c l = true ∧ a.leads id l = some r := by
  rw [Active.leads_eq_some, Setting.closeStale]
  simp only [lookup_mapTable, lookup_restrict]
  cases hw : wanted.lookup id with
  | none => simp
  | some c =>
    cases ha : a.lookup id with
    | none => simp [Active.leads_of_lookup_none ha]
    | some entry => simp [Active.leads_of_lookup ha]

private theorem Setting.mem_stale {act : Act} (h : act ∈ cfg.stale wanted a) :
    ∃ id l r, act = .closed id l ∧ a.leads id l = some r ∧
      ∀ c, wanted.lookup id = some c → cfg.keeps c l = false := by
  obtain ⟨⟨id, entry⟩, hentry, hact⟩ := List.mem_flatMap.mp h
  obtain ⟨l, hl, rfl⟩ := List.mem_map.mp hact
  obtain ⟨hkey, hnot⟩ := List.mem_filter.mp hl
  have hlookup : a.lookup id = some entry := AList.mem_lookup_iff.mpr hentry
  have hsome : (entry.forwards.lookup l).isSome := AList.lookup_isSome.mpr hkey
  obtain ⟨r, hr⟩ := Option.isSome_iff_exists.mp hsome
  refine ⟨id, l, r, rfl, Active.leads_eq_some.mpr ⟨entry, hlookup, hr⟩, ?_⟩
  intro c hc
  simpa [hc] using hnot

/-! ### The second loop

Opening only adds: what was open stays, each new forward is one that was wanted and whose port
nobody held, and each wanted forward is open or was refused. -/

def Setting.Wants (cfg : Setting) (wanted : AList fun _ : String ↦ Container) (id : String)
    (l : Listener) (r : Nat) : Prop :=
  ∃ c, wanted.lookup id = some c ∧ (l, r) ∈ cfg.wants c

def OneHolder (a : Active) : Prop :=
  ∀ id id' l, (a.leads id l).isSome → (a.leads id' l).isSome → id = id'

/-- What opening may have done since `o`. -/
def Opening.Fresh (w : String → Listener → Nat → Prop) (o : Opening) : Act → Prop
  | .opened id l r => w id l r ∧ o.active.leads id l = none
  | .refused .. => True
  | .closed .. => False

structure Grows (w : String → Listener → Nat → Prop) (o o' : Opening) : Prop where
  stays : ∀ id l r, o.active.leads id l = some r → o'.active.leads id l = some r
  new : ∀ id l r, o'.active.leads id l = some r → o.active.leads id l = some r ∨ w id l r
  holder : OneHolder o.active → OneHolder o'.active
  logged : ∀ act ∈ o.acts, act ∈ o'.acts
  fresh : ∀ act ∈ o'.acts, act ∈ o.acts ∨ o.Fresh w act

/-- Each of these is open or was refused. -/
def Tried (w : String → Listener → Nat → Prop) (o : Opening) : Prop :=
  ∀ id l r, w id l r → (o.active.leads id l).isSome ∨ .refused id l r ∈ o.acts

variable {w w' : String → Listener → Nat → Prop}

private theorem Grows.of_same (hleads : ∀ id l, o'.active.leads id l = o.active.leads id l)
    (hacts : o'.acts = o.acts) : Grows w o o' where
  stays id l _ h := (hleads id l).trans h
  new id l _ h := .inl ((hleads id l).symm.trans h)
  holder hone id id' l h h' := hone id id' l (hleads id l ▸ h) (hleads id' l ▸ h')
  logged _ hact := hacts ▸ hact
  fresh _ hact := .inl (hacts ▸ hact)

private theorem Grows.trans {o'' : Opening} (h : Grows w o o') (h' : Grows w o' o'') :
    Grows w o o'' where
  stays id l r hl := h'.stays id l r (h.stays id l r hl)
  new id l r hl := by
    rcases h'.new id l r hl with hl | hw
    · exact h.new id l r hl
    · exact .inr hw
  holder hone := h'.holder (h.holder hone)
  logged act hact := h'.logged act (h.logged act hact)
  fresh act hact := by
    rcases h'.fresh act hact with hact | hfresh
    · exact h.fresh act hact
    right
    cases act with
    | refused id l r => exact True.intro
    | closed id l => exact hfresh
    | opened id l r =>
      refine ⟨hfresh.1, ?_⟩
      -- what was open before would be open still
      cases hbefore : o.active.leads id l with
      | none => rfl
      | some r' =>
        have hafter := h.stays id l r' hbefore
        rw [hfresh.2] at hafter
        cases hafter

private theorem Tried.of_grows (h : Tried w o) (hgrows : Grows w' o o') : Tried w o' := by
  intro id l r hw
  rcases h id l r hw with hopen | hrefused
  · obtain ⟨r', hr'⟩ := Option.isSome_iff_exists.mp hopen
    exact .inl (Option.isSome_iff_exists.mpr ⟨r', hgrows.stays id l r' hr'⟩)
  · exact .inr (hgrows.logged _ hrefused)

private theorem Grows.foldl {ι : Type} {f : Opening → ι → Opening} {p : Opening → Prop}
    {t : ι → String → Listener → Nat → Prop} (xs : List ι)
    (hstep : ∀ o x, x ∈ xs → p o → p (f o x) ∧ Grows w o (f o x) ∧ Tried (t x) (f o x))
    (ho : p o) :
    Grows w o (xs.foldl f o) ∧ ∀ x ∈ xs, Tried (t x) (xs.foldl f o) := by
  induction xs generalizing o with
  | nil => exact ⟨Grows.of_same (fun _ _ ↦ rfl) rfl, fun x hx ↦ nomatch hx⟩
  | cons x xs ih =>
    obtain ⟨hp, hgrows, htried⟩ := hstep o x (.head _) ho
    obtain ⟨hrest, hall⟩ := ih (fun o y hy ↦ hstep o y (.tail _ hy)) hp
    refine ⟨hgrows.trans hrest, ?_⟩
    intro y hy
    rcases List.mem_cons.mp hy with rfl | hy
    · exact htried.of_grows hrest
    · exact hall y hy

private theorem Grows.of_opened (hw : w id l r) (hfree : ∀ id', o.active.leads id' l = none)
    (hleads : ∀ id' l', o'.active.leads id' l' =
      if id' = id ∧ l' = l then some r else o.active.leads id' l')
    (hacts : o'.acts = o.acts ++ [.opened id l r]) : Grows w o o' where
  stays id' l' r' h := by
    rw [hleads, if_neg]
    · exact h
    · rintro ⟨rfl, rfl⟩
      rw [hfree id'] at h
      cases h
  new id' l' r' h := by
    rw [hleads] at h
    split_ifs at h with hsame
    · obtain ⟨rfl, rfl⟩ := hsame
      cases h
      exact .inr hw
    · exact .inl h
  holder hone id₁ id₂ l' h₁ h₂ := by
    rw [hleads] at h₁ h₂
    by_cases hl : l' = l
    · subst hl
      simp only [hfree, and_true] at h₁ h₂
      split_ifs at h₁ h₂ with hid₁ hid₂
      · exact hid₁.trans hid₂.symm
      · cases h₂
      · cases h₁
      · cases h₁
    · simp only [hl, and_false, if_false] at h₁ h₂
      exact hone id₁ id₂ l' h₁ h₂
  logged act hact := by
    rw [hacts]
    exact List.mem_append_left _ hact
  fresh act hact := by
    rw [hacts, List.mem_append, List.mem_singleton] at hact
    rcases hact with hact | rfl
    · exact .inl hact
    · exact .inr ⟨hw, hfree id⟩

private theorem Grows.of_refused (hactive : o'.active = o.active)
    (hacts : o'.acts = o.acts ++ [.refused id l r]) : Grows w o o' where
  stays id l r h := hactive ▸ h
  new id l r h := .inl (hactive ▸ h)
  holder hone := hactive ▸ hone
  logged act hact := by
    rw [hacts]
    exact List.mem_append_left _ hact
  fresh act hact := by
    rw [hacts, List.mem_append, List.mem_singleton] at hact
    rcases hact with hact | rfl
    · exact .inl hact
    · exact .inr True.intro

private theorem Opening.openOne_grows {want : Listener × Nat} (hw : w id want.1 want.2)
    (hentry : (o.active.lookup id).isSome) :
    ((o.openOne refuses id want).active.lookup id).isSome ∧
      Grows w o (o.openOne refuses id want) ∧
      Tried (fun id' l r ↦ id' = id ∧ (l, r) = want) (o.openOne refuses id want) := by
  obtain ⟨l, r⟩ := want
  obtain ⟨entry, hlookup⟩ := Option.isSome_iff_exists.mp hentry
  rw [Opening.openOne, hlookup]
  dsimp only
  split_ifs with halready hrefused
  · refine ⟨hentry, Grows.of_same (fun _ _ ↦ rfl) rfl, ?_⟩
    rintro id' l' r' ⟨rfl, hwant⟩
    cases hwant
    exact .inl (by rw [Active.leads_of_lookup hlookup]; exact halready)
  · refine ⟨hentry, Grows.of_refused rfl rfl, ?_⟩
    rintro id' l' r' ⟨rfl, hwant⟩
    cases hwant
    exact .inr (List.mem_append_right _ (.head _))
  · have hinUse : o.active.inUse l = false := by
      simp only [Bool.or_eq_true, not_or] at hrefused
      exact Bool.eq_false_iff.mpr hrefused.1
    have hleads : ∀ id' l', Active.leads (o.active.insert id
        { entry with forwards := entry.forwards.insert l r }) id' l' =
          if id' = id ∧ l' = l then some r else o.active.leads id' l' := by
      intro id' l'
      rw [Active.leads_insert]
      by_cases hid : id' = id
      · subst hid
        by_cases hl : l' = l
        · subst hl
          simp
        · simp [hl, AList.lookup_insert_ne hl, Active.leads_of_lookup hlookup]
      · simp [hid]
    refine ⟨?_, Grows.of_opened hw (fun id' ↦ Active.leads_of_not_inUse hinUse) hleads rfl, ?_⟩
    · rw [AList.lookup_insert]
      rfl
    · rintro id' l' r' ⟨rfl, hwant⟩
      cases hwant
      refine .inl ?_
      rw [hleads, if_pos ⟨rfl, rfl⟩]
      rfl

private theorem Opening.enter_entry (name : String) :
    ((o.enter id name).active.lookup id).isSome := by
  rw [Opening.enter]
  split_ifs with h
  · exact h
  · rw [AList.lookup_insert]
    rfl

private theorem Opening.leads_enter (name : String) (id' : String) :
    (o.enter id name).active.leads id' l = o.active.leads id' l := by
  rw [Opening.enter]
  split_ifs with h
  · rfl
  · rw [Active.leads_insert]
    split_ifs with hid
    · subst hid
      rw [Active.leads_of_lookup_none (Option.not_isSome_iff_eq_none.mp h)]
      rfl
    · rfl

private theorem Opening.leads_leave (id' : String) :
    (o.leave id).active.leads id' l = o.active.leads id' l := by
  rw [Opening.leave]
  split_ifs with h
  · rw [Active.leads_erase]
    split_ifs with hid
    · subst hid
      symm
      rw [Active.leads, AList.lookup_eq_none]
      intro hmem
      rw [List.isEmpty_iff] at h
      have hkeys : l ∈ (o.active.forwardsOf id').keys := AList.mem_keys.mp hmem
      rw [h] at hkeys
      cases hkeys
    · rfl
  · rfl

private theorem Opening.acts_enter (name : String) : (o.enter id name).acts = o.acts := by
  rw [Opening.enter]
  split_ifs
  · rfl
  · rfl

private theorem Opening.acts_leave : (o.leave id).acts = o.acts := by
  rw [Opening.leave]
  split_ifs
  · rfl
  · rfl

private theorem Opening.openContainer_grows (o : Opening) (id : String) :
    Grows (cfg.Wants wanted) o (o.openContainer refuses cfg wanted id) ∧
      Tried (fun id' l r ↦ id' = id ∧ cfg.Wants wanted id' l r)
        (o.openContainer refuses cfg wanted id) := by
  rw [Opening.openContainer]
  cases hc : wanted.lookup id with
  | none =>
    refine ⟨Grows.of_same (fun _ _ ↦ rfl) rfl, ?_⟩
    rintro id' l r ⟨rfl, c, hlookup, -⟩
    rw [hc] at hlookup
    cases hlookup
  | some c =>
    dsimp only
    have henter : Grows (cfg.Wants wanted) o (o.enter id c.name) :=
      Grows.of_same (fun id' l ↦ leads_enter c.name id') (acts_enter c.name)
    obtain ⟨hloop, htried⟩ := Grows.foldl (w := cfg.Wants wanted)
      (f := openOne refuses id) (p := fun o ↦ (o.active.lookup id).isSome)
      (t := fun want id' l r ↦ id' = id ∧ (l, r) = want) (cfg.wants c)
      (fun o want hwant hentry ↦ openOne_grows ⟨c, hc, hwant⟩ hentry) (enter_entry c.name)
    have hleave : ∀ o : Opening, Grows (cfg.Wants wanted) o (o.leave id) := fun o ↦
      Grows.of_same (fun id' l ↦ leads_leave id') acts_leave
    refine ⟨henter.trans (hloop.trans (hleave _)), ?_⟩
    rintro id' l r ⟨rfl, c', hlookup, hwant⟩
    obtain rfl : c = c' := Option.some.inj (hc.symm.trans hlookup)
    exact (htried (l, r) hwant).of_grows (hleave _) id' l r ⟨rfl, rfl⟩

end

private theorem reconcile_grows (cfg : Setting) (refuses : Refuses) (containers : List Container)
    (a : Active) :
    Grows (cfg.Wants (cfg.wanted containers))
        { active := cfg.closeStale (cfg.wanted containers) a
          acts := cfg.stale (cfg.wanted containers) a } (reconcile cfg refuses containers a) ∧
      Tried (cfg.Wants (cfg.wanted containers)) (reconcile cfg refuses containers a) := by
  obtain ⟨hgrows, htried⟩ := Grows.foldl
    (o := { active := cfg.closeStale (cfg.wanted containers) a
            acts := cfg.stale (cfg.wanted containers) a })
    (w := cfg.Wants (cfg.wanted containers))
    (f := Opening.openContainer refuses cfg (cfg.wanted containers)) (p := fun _ ↦ True)
    (t := fun id id' l r ↦ id' = id ∧ cfg.Wants (cfg.wanted containers) id' l r)
    ((cfg.wanted containers).keys.insertionSort (· ≤ ·))
    (fun o id _ _ ↦ ⟨True.intro, Opening.openContainer_grows o id⟩) True.intro
  refine ⟨hgrows, ?_⟩
  rintro id l r ⟨c, hc, hwant⟩
  have hkey : id ∈ (cfg.wanted containers).keys.insertionSort (· ≤ ·) := by
    rw [List.mem_insertionSort]
    apply AList.mem_keys.mp
    rw [← AList.lookup_isSome, hc]
    rfl
  exact htried id hkey id l r ⟨rfl, c, hc, hwant⟩

/-! ### Runs -/

structure Manager where
  active : Active := ∅
  closed : Bool := false

/-- A `Reconcile` with the listing it got, or `Close`. A `Reconcile` whose listing fails does
nothing. -/
inductive Event where
  | reconcile (containers : List Container) (refuses : Refuses)
  | close

def Manager.step (cfg : Setting) (m : Manager) : Event → Manager
  | .reconcile containers refuses =>
    if m.closed then m else
      { m with active := (Ports.reconcile cfg refuses containers m.active).active }
  | .close => { active := ∅, closed := true }

def machine (cfg : Setting) : Machine Manager Event where
  step m e := some (m.step cfg e)

/-- What a `Reconcile` opens and closes, and what it is refused. -/
def Manager.acts (cfg : Setting) (m : Manager) (containers : List Container) (refuses : Refuses) :
    List Act :=
  if m.closed then [] else (Ports.reconcile cfg refuses containers m.active).acts

/-- Each forward that stays leads where the listing has it lead. -/
def KeepsWay (cfg : Setting) (containers : List Container) (a : Active) : Prop :=
  ∀ e ∈ a.entries, ∀ f ∈ e.2.forwards.entries, ∀ c ∈ (cfg.wanted containers).lookup e.1,
    cfg.keeps c f.1 = true → (f.1, f.2) ∈ cfg.wants c

instance (cfg : Setting) (containers : List Container) (a : Active) :
    Decidable (KeepsWay cfg containers a) := by
  unfold KeepsWay
  infer_instance

/-- Each open forward is one an owned container of the listing publishes, and leads to the public
port the listing gives. -/
def Follows (cfg : Setting) (containers : List Container) (a : Active) : Prop :=
  ∀ id l r, a.leads id l = some r → ∃ c ∈ containers, c.id = id ∧ cfg.isOwned c = true ∧
    ∃ p ∈ c.ports, p.publicPort = r ∧ p.publicPort ≠ 0 ∧ p.network = l.network ∧
      l.port ∈ cfg.locals c p

/-- The second of two that got the same listing closes nothing, and opens only what the first was
refused. -/
def Settled (first second : List Act) : Prop :=
  ∀ act ∈ second, match act with
    | .closed .. => False
    | .opened id l r => .refused id l r ∈ first
    | .refused .. => True

section

variable {cfg : Setting} {containers : List Container} {a : Active} {refuses : Refuses}

private theorem Setting.mem_of_wanted {id : String} {c : Container}
    (h : (cfg.wanted containers).lookup id = some c) :
    c ∈ containers ∧ c.id = id ∧ cfg.isOwned c = true := by
  obtain ⟨c', hc', heq⟩ := List.mem_map.mp (mem_of_lookup_tableOf h)
  cases heq
  obtain ⟨hmem, howned⟩ := List.mem_filter.mp hc'
  rw [Bool.and_eq_true] at howned
  exact ⟨hmem, rfl, howned.1⟩

private theorem Setting.mem_wants {c : Container} {l : Listener} {r : Nat} :
    (l, r) ∈ cfg.wants c ↔ ∃ p ∈ published c, l.port ∈ cfg.locals c p ∧ p.network = l.network ∧
      p.publicPort = r := by
  obtain ⟨network, port⟩ := l
  simp only [Setting.wants, List.mem_flatMap, List.mem_map, Prod.mk.injEq, Listener.mk.injEq]
  constructor
  · rintro ⟨p, hp, port', hport, ⟨hnetwork, rfl⟩, hr⟩
    exact ⟨p, hp, hport, hnetwork, hr⟩
  · rintro ⟨p, hp, hport, hnetwork, hr⟩
    exact ⟨p, hp, port, hport, ⟨hnetwork, rfl⟩, hr⟩

private theorem Setting.keeps_of_mem_wants {c : Container} {l : Listener} {r : Nat}
    (h : (l, r) ∈ cfg.wants c) : cfg.keeps c l = true :=
  List.any_eq_true.mpr ⟨(l, r), h, decide_eq_true rfl⟩

/-- After a `Reconcile` each forward is one its container keeps. -/
theorem leads_reconcile {id : String} {l : Listener} {r : Nat}
    (h : (reconcile cfg refuses containers a).active.leads id l = some r) :
    ∃ c, (cfg.wanted containers).lookup id = some c ∧ cfg.keeps c l = true ∧
      (a.leads id l = some r ∨ (l, r) ∈ cfg.wants c) := by
  rcases (reconcile_grows cfg refuses containers a).1.new id l r h with hstale | ⟨c, hc, hwant⟩
  · obtain ⟨c, hc, hkeep, hl⟩ := Setting.leads_closeStale.mp hstale
    exact ⟨c, hc, hkeep, .inl hl⟩
  · exact ⟨c, hc, Setting.keeps_of_mem_wants hwant, .inr hwant⟩

private theorem follows_reconcile (hkeep : KeepsWay cfg containers a) :
    Follows cfg containers (reconcile cfg refuses containers a).active := by
  intro id l r hl
  obtain ⟨c, hc, hkeeps, hway⟩ := leads_reconcile hl
  have hwant : (l, r) ∈ cfg.wants c := by
    rcases hway with hl | hwant
    · obtain ⟨entry, hentry, hforward⟩ := Active.leads_eq_some.mp hl
      exact hkeep ⟨id, entry⟩ (AList.mem_lookup_iff.mp hentry) ⟨l, r⟩
        (AList.mem_lookup_iff.mp hforward) c hc hkeeps
    · exact hwant
  obtain ⟨hmem, hid, howned⟩ := Setting.mem_of_wanted hc
  obtain ⟨p, hp, hport, hnetwork, hr⟩ := Setting.mem_wants.mp hwant
  obtain ⟨hports, hne⟩ := mem_ports_of_mem_published hp
  exact ⟨c, hmem, hid, howned, p, hports, hr, hne, hnetwork, hport⟩

private theorem oneHolder_reconcile (hone : OneHolder a) :
    OneHolder (reconcile cfg refuses containers a).active := by
  apply (reconcile_grows cfg refuses containers a).1.holder
  intro id id' l h h'
  obtain ⟨r, hr⟩ := Option.isSome_iff_exists.mp h
  obtain ⟨r', hr'⟩ := Option.isSome_iff_exists.mp h'
  obtain ⟨-, -, -, hl⟩ := Setting.leads_closeStale.mp hr
  obtain ⟨-, -, -, hl'⟩ := Setting.leads_closeStale.mp hr'
  exact hone id id' l (by rw [hl]; rfl) (by rw [hl']; rfl)

private theorem settled_reconcile (refuses' : Refuses) :
    Settled (reconcile cfg refuses containers a).acts
      (reconcile cfg refuses' containers (reconcile cfg refuses containers a).active).acts := by
  obtain ⟨-, htried⟩ := reconcile_grows cfg refuses containers a
  obtain ⟨hgrows, -⟩ :=
    reconcile_grows cfg refuses' containers (reconcile cfg refuses containers a).active
  intro act hact
  rcases hgrows.fresh act hact with hstale | hfresh
  · -- the first left nothing that the listing does not keep
    obtain ⟨id, l, r, rfl, hl, hnot⟩ := Setting.mem_stale hstale
    obtain ⟨c, hc, hkeep, -⟩ := leads_reconcile hl
    rw [hnot c hc] at hkeep
    cases hkeep
  · cases act with
    | refused id l r => exact True.intro
    | closed id l => exact hfresh
    | opened id l r =>
      obtain ⟨⟨c, hc, hwant⟩, hnone⟩ := hfresh
      rcases htried id l r ⟨c, hc, hwant⟩ with hopen | hrefused
      · obtain ⟨r', hr'⟩ := Option.isSome_iff_exists.mp hopen
        have hstill : (cfg.closeStale (cfg.wanted containers)
            (reconcile cfg refuses containers a).active).leads id l = some r' :=
          Setting.leads_closeStale.mpr ⟨c, hc, Setting.keeps_of_mem_wants hwant, hr'⟩
        rw [hnone] at hstill
        cases hstill
      · exact hrefused

end

structure Manager.Inv (m : Manager) : Prop where
  oneHolder : OneHolder m.active
  closed : m.closed = true → m.active = ∅

private theorem oneHolder_empty : OneHolder ∅ := by
  intro id id' l h
  rw [Active.leads_of_lookup_none (by simp)] at h
  cases h

private theorem Manager.Inv.step {cfg : Setting} {m : Manager} (hm : m.Inv) (e : Event) :
    (m.step cfg e).Inv := by
  cases e with
  | close => exact ⟨oneHolder_empty, fun _ ↦ rfl⟩
  | reconcile containers refuses =>
    rw [Manager.step]
    split_ifs with hclosed
    · exact hm
    · exact ⟨oneHolder_reconcile hm.oneHolder, fun h ↦ absurd h hclosed⟩

/-- After every `Reconcile`, whatever came before: the forwards are those of the listing, each port
has one holder, and another with the same listing has nothing to do but what was refused. -/
theorem forwards_follow {cfg : Setting} (es : List Event) {m : Manager}
    (hr : (machine cfg).run {} es = some m) (containers : List Container) (refuses : Refuses)
    (hkeep : KeepsWay cfg containers m.active) :
    Follows cfg containers (m.step cfg (.reconcile containers refuses)).active ∧
      OneHolder (m.step cfg (.reconcile containers refuses)).active ∧
      ∀ refuses', Settled (m.acts cfg containers refuses)
        ((m.step cfg (.reconcile containers refuses)).acts cfg containers refuses') := by
  have hinv : m.Inv := by
    refine (machine cfg).run_invariant_all ?_ ⟨oneHolder_empty, fun _ ↦ rfl⟩ hr
    intro m e m' hm hstep
    rw [← Option.some.inj hstep]
    exact hm.step e
  refine ⟨?_, (hinv.step _).oneHolder, ?_⟩
  · rw [Manager.step]
    split_ifs with hclosed
    · intro id l r hl
      rw [hinv.closed hclosed, Active.leads_of_lookup_none (by simp)] at hl
      cases hl
    · exact follows_reconcile hkeep
  · intro refuses'
    rw [Manager.step, Manager.acts]
    by_cases hclosed : m.closed = true
    · rw [if_pos hclosed, if_pos hclosed, Manager.acts, if_pos hclosed]
      intro act hact
      cases hact
    · rw [if_neg hclosed, if_neg hclosed, Manager.acts, if_neg hclosed]
      exact settled_reconcile refuses'

/-! ### A container that comes back -/

def laptop : Rule where
  user := "alice"
  clientID := "laptop"

def laptopSetting : Setting where
  owned := some laptop.owned
  localPorts := some laptop.localPorts

/-- A container asked for with `-p 8080:80`, on the public port the daemon picked. -/
def web (publicPort : Nat) : Container where
  id := "c1"
  name := "web"
  ports := [⟨publicPort, 80, "tcp"⟩]
  labels := tableOf [(ownerLabel, "alice"), (clientLabel, "laptop"), (portsLabel, "80/tcp=8080")]

/-- The container is restarted between two listings, and the daemon gives it another port. -/
theorem restarted_leads_astray :
    ((machine laptopSetting).run {} [.reconcile [web 32768] fun _ _ ↦ false,
        .reconcile [web 32769] fun _ _ ↦ false]).map
      (fun m ↦ m.active.leads "c1" ⟨.tcp, 8080⟩) = some (some 32768) ∧
    ¬ Follows laptopSetting [web 32769]
      (Manager.step laptopSetting
        (Manager.step laptopSetting {} (.reconcile [web 32768] fun _ _ ↦ false))
        (.reconcile [web 32769] fun _ _ ↦ false)).active := by
  have hleads : (Manager.step laptopSetting
      (Manager.step laptopSetting {} (.reconcile [web 32768] fun _ _ ↦ false))
      (.reconcile [web 32769] fun _ _ ↦ false)).active.leads "c1" ⟨.tcp, 8080⟩ = some 32768 := by
    decide +kernel
  refine ⟨congrArg some hleads, ?_⟩
  intro hfollows
  obtain ⟨c, hc, -, -, p, hp, hpublic, -⟩ := hfollows "c1" ⟨.tcp, 8080⟩ 32768 hleads
  rw [List.mem_singleton.mp hc] at hp
  rw [List.mem_singleton.mp hp] at hpublic
  cases hpublic

/-- One that keeps its port is followed. -/
theorem forwards_follow_kept :
    ∃ m, (machine laptopSetting).run {} [.reconcile [web 32768] fun _ _ ↦ false] = some m ∧
      m.active.leads "c1" ⟨.tcp, 8080⟩ = some 32768 ∧
      Follows laptopSetting [web 32768]
        (m.step laptopSetting (.reconcile [web 32768] fun _ _ ↦ false)).active :=
  ⟨_, rfl, by decide +kernel,
    (forwards_follow [.reconcile [web 32768] fun _ _ ↦ false] rfl [web 32768]
      (fun _ _ ↦ false) (by decide +kernel)).1⟩

end RemoteDocker.Ports

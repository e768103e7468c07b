import RemoteDocker.Client.Restored

/-!
# A prune of the share record

`src/client/internal/session/control.go:142-181` beside
`src/client/internal/session/adapters.go:28-38`. A mount registers its share and then records it. A
prune lists the volumes, reads the shares that are registered, and then forgets every record that is
neither a volume's nor a registered share's. Each of these is a step of its own, and steps of any
number of mounts and prunes may come in any order.
-/

namespace RemoteDocker.Client.Pruned

open Base Workspace NfsServe

/-- The exports this machine has a volume for, and those that are registered. -/
def recordsToKeep (volumeNames : List Text) (clientID : Text) (registered : List Text) :
    List Text :=
  volumeNames.filterMap (fun name ↦
    match parseVolumeName name with
    | none => none
    | some (client, share) =>
      if client ≠ [] ∧ client ≠ clientID then none else some (exportPathForID share)) ++ registered

inductive Phase where
  /-- It has listed the volumes. -/
  | listed (names : List Text)
  /-- And it has read the shares that are registered. -/
  | read (names registered : List Text)

def Phase.Keeps (clientID x : Text) : Phase → Prop
  | .listed _ => True
  | .read names registered => x ∈ recordsToKeep names clientID registered

instance (clientID x : Text) : (phase : Phase) → Decidable (phase.Keeps clientID x)
  | .listed _ => isTrue True.intro
  | .read _ _ => inferInstanceAs (Decidable (_ ∈ _))

/-- A session, the mounts that have registered a share they have not recorded yet, and the prunes
that have not ended. -/
structure State where
  session : Session
  mounts : List Text := []
  prunes : AList fun _ : Nat ↦ Phase := ∅
  /-- The exports whose share some mount has recorded in this session. -/
  remembered : List Text := []

inductive Event where
  /-- The first half of `shareRegistrar.Share`. -/
  | register (files : Files) (localPath : Text) (mode : Mode) (w : ShareWords)
  /-- The second half, of the share a mount was given. -/
  | remember (now : Int) (exportPath : Text)
  /-- `pruneShareRecord` is answered with the volumes. -/
  | list (prune : Nat) (names : List Text)
  | read (prune : Nat)
  | forget (prune : Nat)

variable (h : Host) (clientID : Text)

def step (s : State) : Event → Option State
  | .register files localPath mode w =>
    match s.session.registry.register h files localPath [] mode w with
    -- A mount that is refused records nothing.
    | .error _ => some s
    | .ok (registry, share) =>
      some { s with session := { s.session with registry }
                    mounts := share.exportPath :: s.mounts }
  | .remember now x =>
    if x ∈ s.mounts then
      (s.session.registry.shares.lookup x).map fun share ↦
        { s with session := { s.session with store := s.session.store.remember now share }
                 mounts := s.mounts.erase x
                 remembered := x :: s.remembered }
    else none
  | .list prune names =>
    if prune ∈ s.prunes then none
    else some { s with prunes := s.prunes.insert prune (.listed names) }
  | .read prune =>
    match s.prunes.lookup prune with
    | some (.listed names) =>
      let registered := s.session.registry.shares.entries.map (·.2.exportPath)
      some { s with prunes := s.prunes.insert prune (.read names registered) }
    | _ => none
  | .forget prune =>
    match s.prunes.lookup prune with
    | some (.read names registered) =>
      let keep := recordsToKeep names clientID registered
      some { s with session := { s.session with store := s.session.store.forget (· ∈ keep) }
                    prunes := s.prunes.erase prune }
    | _ => none

def machine : Machine State Event := ⟨step h clientID⟩

/-- No mount registers what a prune that has read the shares is about to forget. -/
def Undisturbed (s : State) : Event → Prop
  | .register _ localPath mode w =>
    ∀ e ∈ s.prunes.entries,
      e.2.Keeps clientID (s.session.registry.exportFor h localPath [] mode w)
  | _ => True

instance (s : State) : (e : Event) → Decidable (Undisturbed h clientID s e)
  | .register _ _ _ _ => inferInstanceAs (Decidable (∀ _ ∈ _, _))
  | .remember _ _ => isTrue True.intro
  | .list _ _ => isTrue True.intro
  | .read _ => isTrue True.intro
  | .forget _ => isTrue True.intro

def start (attrs : Attrs) (store : ShareStore) : State :=
  { session := { registry := { attrs }, store } }

/-- Every prune keeps every share that is registered, and every share that was recorded is
registered and has its record. -/
structure Inv (s : State) : Prop where
  keyed : ∀ x share, s.session.registry.shares.lookup x = some share → share.exportPath = x
  kept : ∀ prune phase, s.prunes.lookup prune = some phase →
    ∀ x share, s.session.registry.shares.lookup x = some share → phase.Keeps clientID x
  registered : ∀ x ∈ s.remembered, x ∈ s.session.registry.shares
  recorded : ∀ x ∈ s.remembered, x ∈ s.session.store.records

private theorem mem_remember {store : ShareStore} {now : Int} {share : Share} {x : Text}
    (hx : x ∈ store.records) : x ∈ (store.remember now share).records := by
  have hput : x ∈ (store.put (recordFor share now)).records :=
    AList.mem_insert _ |>.mpr (.inr hx)
  fun_cases ShareStore.remember now store share
  · exact hput
  · exact hx
  · exact hput

private theorem exportPath_mem_remember (store : ShareStore) (now : Int) (share : Share) :
    share.exportPath ∈ (store.remember now share).records := by
  obtain ⟨t, ht⟩ := remembers_remember store now share
  rw [← AList.lookup_isSome, ht]
  rfl

variable {h clientID} {s s' : State}

namespace Inv

variable (hi : Inv clientID s)

include hi

private theorem register {files : Files} {localPath : Text} {mode : Mode} {w : ShareWords}
    {registry : Registry} {share : Share}
    (hok : Undisturbed h clientID s (.register files localPath mode w))
    (hreg : s.session.registry.register h files localPath [] mode w = .ok (registry, share)) :
    Inv clientID { s with session := { s.session with registry }
                          mounts := share.exportPath :: s.mounts } := by
  have hkeyed := register_keyed hi.keyed hreg
  obtain ⟨rfl, -⟩ := register_cases hreg
  refine ⟨hkeyed, ?_, ?_, hi.recorded⟩
  · intro prune phase hphase x other hlookup
    rcases lookup_insert_eq_some.mp hlookup with ⟨rfl, rfl⟩ | ⟨-, hold⟩
    · exact hok ⟨prune, phase⟩ (AList.mem_lookup_iff.mp hphase)
    · exact hi.kept prune phase hphase x other hold
  · intro x hx
    exact (AList.mem_insert _).mpr (.inr (hi.registered x hx))

private theorem remember {now : Int} {x : Text} {share : Share}
    (hshare : s.session.registry.shares.lookup x = some share) :
    Inv clientID
      { s with session := { s.session with store := s.session.store.remember now share }
               mounts := s.mounts.erase x
               remembered := x :: s.remembered } := by
  refine ⟨hi.keyed, hi.kept, ?_, ?_⟩
  · intro y hy
    rcases List.mem_cons.mp hy with rfl | hy
    · rw [← AList.lookup_isSome, hshare]
      rfl
    · exact hi.registered y hy
  · intro y hy
    rcases List.mem_cons.mp hy with rfl | hy
    · rw [← hi.keyed y share hshare]
      exact exportPath_mem_remember s.session.store now share
    · exact mem_remember (hi.recorded y hy)

private theorem list {prune : Nat} {names : List Text} :
    Inv clientID { s with prunes := s.prunes.insert prune (.listed names) } := by
  refine ⟨hi.keyed, ?_, hi.registered, hi.recorded⟩
  intro id phase hphase x share hshare
  rcases lookup_insert_eq_some.mp hphase with ⟨-, rfl⟩ | ⟨-, hold⟩
  · exact True.intro
  · exact hi.kept id phase hold x share hshare

private theorem read {prune : Nat} {names : List Text} :
    Inv clientID
      { s with prunes := s.prunes.insert prune
                  (.read names (s.session.registry.shares.entries.map (·.2.exportPath))) } := by
  refine ⟨hi.keyed, ?_, hi.registered, hi.recorded⟩
  intro id phase hphase x share hshare
  rcases lookup_insert_eq_some.mp hphase with ⟨-, rfl⟩ | ⟨-, hold⟩
  · have hentry : ⟨x, share⟩ ∈ s.session.registry.shares.entries := AList.mem_lookup_iff.mp hshare
    apply List.mem_append_right
    exact List.mem_map.mpr ⟨⟨x, share⟩, hentry, hi.keyed x share hshare⟩
  · exact hi.kept id phase hold x share hshare

private theorem forget {prune : Nat} {names registered : List Text}
    (hphase : s.prunes.lookup prune = some (.read names registered)) :
    Inv clientID
      { s with session := { s.session with
                  store := s.session.store.forget (· ∈ recordsToKeep names clientID registered) }
               prunes := s.prunes.erase prune } := by
  refine ⟨hi.keyed, ?_, hi.registered, ?_⟩
  · intro id phase hother
    exact hi.kept id phase (lookup_erase_eq_some.mp hother).2
  · intro x hx
    obtain ⟨share, hshare⟩ := exists_lookup (hi.registered x hx)
    have hkeep : x ∈ recordsToKeep names clientID registered :=
      hi.kept prune _ hphase x share hshare
    rw [← AList.lookup_isSome, ShareStore.forget, lookup_restrict, if_pos (decide_eq_true hkeep)]
    exact AList.lookup_isSome.mpr (hi.recorded x hx)

private theorem step {e : Event} (hok : Undisturbed h clientID s e)
    (ht : Pruned.step h clientID s e = some s') : Inv clientID s' := by
  cases e with
  | register files localPath mode w =>
    simp only [Pruned.step] at ht
    split at ht
    · cases ht
      exact hi
    · next registry share hreg =>
      cases ht
      exact hi.register hok hreg
  | remember now x =>
    obtain ⟨-, ht⟩ := Option.ite_none_right_eq_some.mp ht
    obtain ⟨share, hshare, rfl⟩ := Option.map_eq_some_iff.mp ht
    exact hi.remember hshare
  | list prune names =>
    obtain ⟨-, ⟨⟩⟩ := Option.ite_none_left_eq_some.mp ht
    exact hi.list
  | read prune =>
    simp only [Pruned.step] at ht
    split at ht
    · cases ht
      exact hi.read
    · cases ht
  | forget prune =>
    simp only [Pruned.step] at ht
    split at ht
    · next names registered hphase =>
      cases ht
      exact hi.forget hphase
    · cases ht

end Inv

private theorem inv_start (attrs : Attrs) (store : ShareStore) :
    Inv clientID (start attrs store) where
  keyed := by
    intro x share hnone
    cases hnone
  kept := by
    intro prune phase hnone
    cases hnone
  registered := by
    intro x hx
    cases hx
  recorded := by
    intro x hx
    cases hx

/-- A share that is registered and was recorded has its record, however mounts and prunes come
together, as long as no mount registers what a prune that has read the shares is about to forget. -/
theorem registered_not_forgotten {attrs : Attrs} {store : ShareStore} {es : List Event}
    (hr : (machine h clientID).run (start attrs store) es = some s)
    (hw : (machine h clientID).Within (Undisturbed h clientID) (start attrs store) es) :
    ∀ x ∈ s.remembered, x ∈ s.session.registry.shares → x ∈ s.session.store.records := by
  have hi : Inv clientID s :=
    (machine h clientID).run_invariant (Undisturbed h clientID)
      (fun _ _ _ hi hok ht ↦ hi.step hok ht) (inv_start attrs store) hw hr
  intro x hx _
  exact hi.recorded x hx

def mountX : Event := .register (onlyPath .directory) "/x".toList defaultMode {}

def exportX : Text := (shareOf .directory).exportPath

/-- The share is registered before a prune reads the shares, and recorded after. -/
def recordedLate : List Event := [.list 0 [], mountX, .read 0, .remember 5 exportX, .forget 0]

/-- The share is registered and recorded after a prune has read the shares. -/
def recordedBetween : List Event := [.list 0 [], .read 0, mountX, .remember 5 exportX, .forget 0]

theorem registered_not_forgotten_late :
    ∃ s, (machine posix []).run (start rootAttrs emptyStore) recordedLate = some s ∧
      exportX ∈ s.remembered ∧ exportX ∈ s.session.registry.shares ∧
      exportX ∈ s.session.store.records := by
  obtain ⟨s, hr, hx, hshare⟩ : ∃ s, (machine posix []).run (start rootAttrs emptyStore)
      recordedLate = some s ∧ exportX ∈ s.remembered ∧
      exportX ∈ s.session.registry.shares := by
    decide +kernel
  have hw : (machine posix []).Within (Undisturbed posix []) (start rootAttrs emptyStore)
      recordedLate := by decide +kernel
  exact ⟨s, hr, hx, hshare, registered_not_forgotten hr hw exportX hx hshare⟩

/-- The prune ends with the share registered and its record gone. -/
theorem registered_forgotten :
    ∃ s, (machine posix []).run (start rootAttrs emptyStore) recordedBetween = some s ∧
      s.prunes.lookup 0 = none ∧ exportX ∈ s.remembered ∧ exportX ∈ s.session.registry.shares ∧
      exportX ∉ s.session.store.records := by
  decide +kernel

end RemoteDocker.Client.Pruned

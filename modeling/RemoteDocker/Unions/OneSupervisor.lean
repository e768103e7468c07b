import RemoteDocker.Unions.Release

/-!
# One supervisor for a union

A Prepare mounts a share only while it holds the share's entry in `pending`, and everybody else
waits for it. It looks again at what is registered once it holds the entry, so that the union it
starts takes the place of none: each union whose supervisor was not cancelled is the one registered
for its share. This holds in every interleaving.
-/

namespace RemoteDocker.Unions

open Base

/-- It is in `mount`, or has yet to give its entry in `pending` up. -/
def PreparePhase.mounting : PreparePhase → Bool
  | .mount | .discardDead _ | .start | .waitReady _ | .chownUpper _ | .stamp _ | .discard _
  | .unpend _ => true
  | _ => false

/-- What a mount knows of the union registered for its share. -/
def PreparePhase.Knows (registered : Option Nat) : PreparePhase → Prop
  | .start => registered = none
  -- A Release may have taken it out since.
  | .discardDead dead => registered = none ∨ registered = some dead
  | _ => True

private theorem PreparePhase.Knows.none {registered : Option Nat} {phase : PreparePhase}
    (h : phase.Knows registered) : phase.Knows none := by
  cases phase with
  | start => exact rfl
  | discardDead dead => exact .inl rfl
  | _ => exact h

private theorem PreparePhase.knows_of_not_mounting {phase : PreparePhase}
    (h : phase.mounting = false)
    (registered : Option Nat) : phase.Knows registered := by
  cases phase with
  | start => cases h
  | discardDead dead => cases h
  | _ => exact True.intro

structure Single (s : State) : Prop where
  pends : ∀ (i : Nat) (c : PrepareCall), s.preparing[i]? = some c → c.phase.mounting = true →
    s.pending.lookup c.spec.share = some i
  knows : ∀ (i : Nat) (c : PrepareCall), s.preparing[i]? = some c →
    c.phase.Knows (s.shares.lookup c.spec.share)
  registered : ∀ (l : Nat) (u : Live), s.unions[l]? = some u → u.cancelled = false →
    s.shares.lookup u.spec.share = some l

namespace Single

variable {s t : State} {i l : Nat} {k : String} {c : PrepareCall}

private theorem fresh (mounted : Finset Mountpoint) : Single (State.fresh mounted) where
  pends i c h := by simp [State.fresh] at h
  knows i c h := by simp [State.fresh] at h
  registered l u h := by simp [State.fresh] at h

private theorem of_eq (h : Single s) (hshares : t.shares = s.shares)
    (hpending : t.pending = s.pending)
    (hunions : t.unions = s.unions) (hpreparing : t.preparing = s.preparing) : Single t where
  pends := by
    rw [hpending, hpreparing]
    exact h.pends
  knows := by
    rw [hshares, hpreparing]
    exact h.knows
  registered := by
    rw [hshares, hunions]
    exact h.registered

private theorem eq_of_mounting (h : Single s) {j : Nat} {d : PrepareCall}
    (hc : s.preparing[i]? = some c) (hcm : c.phase.mounting = true)
    (hd : s.preparing[j]? = some d) (hdm : d.phase.mounting = true)
    (hshare : c.spec.share = d.spec.share) : i = j := by
  have hi := h.pends i c hc hcm
  have hj := h.pends j d hd hdm
  rw [hshare, hj] at hi
  exact (Option.some.inj hi).symm

private theorem of_getElem?_concat {calls : List PrepareCall} {j : Nat} {d : PrepareCall}
    (h : (calls ++ [c])[j]? = some d) : calls[j]? = some d ∨ d = c := by
  rw [List.getElem?_append] at h
  split_ifs at h with hj
  · exact .inl h
  · exact .inr (List.mem_singleton.mp (List.mem_of_getElem? h))

section

variable (h : Single s)

include h

private theorem remove (hk : s.shares.lookup k = some l ∨ s.shares.lookup k = none) :
    Single (s.remove k l) where
  pends := h.pends
  knows j d hd := by
    have hknows := h.knows j d hd
    by_cases hshare : d.spec.share = k
    · rw [State.remove, hshare, AList.lookup_erase]
      exact hknows.none
    · rw [State.remove, AList.lookup_erase_ne hshare]
      exact hknows
  registered j u hu hnot := by
    simp only [State.remove, List.getElem?_modify] at hu
    obtain ⟨v, hv, rfl⟩ := Option.map_eq_some_iff.mp hu
    by_cases hj : l = j
    · -- this is the union that was cancelled
      rw [if_pos hj] at hnot
      cases hnot
    · rw [if_neg hj] at hnot ⊢
      have hlookup := h.registered j v hv hnot
      have hne : v.spec.share ≠ k := by
        intro hshare
        rw [hshare] at hlookup
        rcases hk with hk | hk
        · rw [hk] at hlookup
          exact hj (Option.some.inj hlookup)
        · rw [hk] at hlookup
          cases hlookup
      rw [State.remove, AList.lookup_erase_ne hne]
      exact hlookup

private theorem discard : Single (s.discard k l) := by
  rw [State.discard]
  split_ifs with hk
  · exact h.remove (.inl hk)
  · exact h

private theorem foldl_remove {taken : List (String × Nat × Spec)}
    (htaken : ∀ e ∈ taken, s.shares.lookup e.1 = some e.2.1 ∨ s.shares.lookup e.1 = none) :
    Single (taken.foldl (fun t e ↦ t.remove e.1 e.2.1) s) := by
  induction taken generalizing s with
  | nil => exact h
  | cons e taken ih =>
    apply ih (h.remove (htaken e (.head _)))
    intro e' he'
    by_cases hk : e'.1 = e.1
    · right
      rw [State.remove, hk, AList.lookup_erase]
    · rw [State.remove, AList.lookup_erase_ne hk]
      exact htaken e' (.tail _ he')

private theorem stamp : Single (s.stamp l) where
  pends := h.pends
  knows := h.knows
  registered j u hu hnot := by
    simp only [State.stamp, List.getElem?_modify] at hu
    obtain ⟨v, hv, rfl⟩ := Option.map_eq_some_iff.mp hu
    by_cases hj : l = j
    · rw [if_pos hj] at hnot ⊢
      exact h.registered j v hv hnot
    · rw [if_neg hj] at hnot ⊢
      exact h.registered j v hv hnot

/-- A Prepare goes on, to a phase that fits what is pending and registered. -/
theorem setPrepare (phase : PreparePhase)
    (hpends : phase.mounting = true → s.pending.lookup c.spec.share = some i)
    (hknows : phase.Knows (s.shares.lookup c.spec.share)) : Single (s.setPrepare i c phase) where
  pends j d hd hdm := by
    rw [State.setPrepare, List.getElem?_set] at hd
    split_ifs at hd with hij hlen
    · cases hd
      subst hij
      exact hpends hdm
    · exact h.pends j d hd hdm
  knows j d hd := by
    rw [State.setPrepare, List.getElem?_set] at hd
    split_ifs at hd with hij hlen
    · cases hd
      exact hknows
    · exact h.knows j d hd
  registered := h.registered

private theorem setPrepare_outside {phase : PreparePhase} (hphase : phase.mounting = false) :
    Single (s.setPrepare i c phase) := by
  apply h.setPrepare
  · intro hmounting
    rw [hphase] at hmounting
    cases hmounting
  · exact PreparePhase.knows_of_not_mounting hphase _

private theorem enter (hnone : s.pending.lookup c.spec.share = none) :
    Single ({ s with pending := s.pending.insert c.spec.share i }.setPrepare i c .mount) := by
  have hinsert : Single { s with pending := s.pending.insert c.spec.share i } := by
    refine ⟨?_, h.knows, h.registered⟩
    intro j d hd hdm
    have hj := h.pends j d hd hdm
    have hne : d.spec.share ≠ c.spec.share := by
      intro hshare
      rw [hshare, hnone] at hj
      cases hj
    rw [AList.lookup_insert_ne hne]
    exact hj
  exact hinsert.setPrepare .mount (fun _ ↦ AList.lookup_insert s.pending) True.intro

private theorem unpend (hc : s.preparing[i]? = some c) (hmounting : c.phase.mounting = true)
    (merged : Option Mountpoint) :
    Single ({ s with pending := s.pending.erase c.spec.share }.setPrepare i c (.close merged)) where
  pends j d hd hdm := by
    rw [State.setPrepare, List.getElem?_set] at hd
    split_ifs at hd with hij hlen
    · cases hd
      cases hdm
    · have hj := h.pends j d hd hdm
      have hne : d.spec.share ≠ c.spec.share :=
        fun hshare ↦ hij (h.eq_of_mounting hc hmounting hd hdm hshare.symm)
      rw [State.setPrepare, AList.lookup_erase_ne hne]
      exact hj
  knows := by
    have hset : Single (s.setPrepare i c (.close merged)) := h.setPrepare_outside rfl
    exact hset.knows
  registered := h.registered

private theorem start (hc : s.preparing[i]? = some c) (hphase : c.phase = .start) :
    Single ((s.start c).setPrepare i c (.waitReady s.unions.length)) := by
  have hmounting : c.phase.mounting = true := by
    rw [hphase]
    rfl
  have hnone : s.shares.lookup c.spec.share = none := by
    have hknows := h.knows i c hc
    rw [hphase] at hknows
    exact hknows
  refine ⟨?_, ?_, ?_⟩
  · exact (h.setPrepare (.waitReady s.unions.length) (fun _ ↦ h.pends i c hc hmounting)
      True.intro).pends
  · intro j d hd
    rw [State.setPrepare, List.getElem?_set] at hd
    split_ifs at hd with hij hlen
    · cases hd
      exact True.intro
    · have hd' : s.preparing[j]? = some d := hd
      by_cases hshare : d.spec.share = c.spec.share
      · -- another call for the share is not in a mount
        apply PreparePhase.knows_of_not_mounting
        apply Bool.eq_false_iff.mpr
        intro hdm
        exact hij (h.eq_of_mounting hc hmounting hd' hdm hshare.symm)
      · rw [State.setPrepare, State.start, AList.lookup_insert_ne hshare]
        exact h.knows j d hd'
  · intro j u hu hnot
    simp only [State.setPrepare, State.start] at hu ⊢
    rw [List.getElem?_append] at hu
    split_ifs at hu with hj
    · have hlookup := h.registered j u hu hnot
      have hne : u.spec.share ≠ c.spec.share := by
        intro hshare
        rw [hshare, hnone] at hlookup
        cases hlookup
      rw [AList.lookup_insert_ne hne]
      exact hlookup
    · rw [List.getElem?_singleton] at hu
      split_ifs at hu with hzero
      cases hu
      rw [AList.lookup_insert]
      congr 1
      omega

end

/-- What is registered for the share of a mount whose dead union is discarded. -/
theorem lookup_discard {dead : Nat}
    (h : s.shares.lookup k = none ∨ s.shares.lookup k = some dead) :
    (s.discard k dead).shares.lookup k = none := by
  rw [State.discard]
  split_ifs with hk
  · exact AList.lookup_erase k s.shares
  · exact h.resolve_right hk

private theorem pending_discard (s : State) (k : String) (l : Nat) :
    (s.discard k l).pending = s.pending := by
  rw [State.discard]
  split_ifs
  · rfl
  · rfl

private theorem lookup_of_mem_unused {asked : Nat} {held : Finset String} {e : String × Nat × Spec}
    (he : e ∈ s.unused asked held) : s.shares.lookup e.1 = some e.2.1 := by
  obtain ⟨⟨k, l⟩, hmem, hsome⟩ := List.mem_filterMap.mp he
  split at hsome
  · split_ifs at hsome
    cases hsome
    exact AList.mem_lookup_iff.mpr hmem
  · cases hsome

private theorem prepare (h : Single s) (hlook : c.phase = .look) :
    Single { s with preparing := s.preparing ++ [c] } where
  pends j d hd hdm := by
    rcases of_getElem?_concat hd with hd | rfl
    · exact h.pends j d hd hdm
    · rw [hlook] at hdm
      cases hdm
  knows j d hd := by
    rcases of_getElem?_concat hd with hd | rfl
    · exact h.knows j d hd
    · rw [hlook]
      exact True.intro
  registered := h.registered

private theorem stepPrepare (h : Single s) {e : PrepareEvent} (hc : s.preparing[i]? = some c)
    (hs : stepPrepare s i c c.phase e = some t) : Single t := by
  have hknows := h.knows i c hc
  have hpends : c.phase.mounting = true → s.pending.lookup c.spec.share = some i :=
    h.pends i c hc
  generalize hphase : c.phase = phase at hs hknows hpends
  revert hs
  fun_cases Unions.stepPrepare s i c phase e
  all_goals
    intro hs
    cases hs
  case case1 | case2 | case4 | case5 | case6 | case9 | case10 | case12 | case14 | case28 =>
    exact h.setPrepare_outside rfl
  case case8 => exact h.stamp.setPrepare_outside rfl
  case case11 hnone _ => exact h.enter hnone
  case case15 dead hdead => exact h.setPrepare _ (fun _ ↦ hpends rfl) (.inr hdead)
  case case16 hnone => exact h.setPrepare _ (fun _ ↦ hpends rfl) hnone
  case case17 dead =>
    refine h.discard.setPrepare _ (fun _ ↦ ?_) (lookup_discard hknows)
    rw [pending_discard]
    exact hpends rfl
  case case18 => exact h.start hc hphase
  case case19 | case21 => exact h.setPrepare _ (fun _ ↦ hpends rfl) True.intro
  case case20 => exact h
  case case22 l ok =>
    cases ok with
    | true => exact h.setPrepare _ (fun _ ↦ hpends rfl) True.intro
    | false => exact h.setPrepare _ (fun _ ↦ hpends rfl) True.intro
  case case23 => exact h.stamp.setPrepare _ (fun _ ↦ hpends rfl) True.intro
  case case24 =>
    refine h.discard.setPrepare _ (fun _ ↦ ?_) True.intro
    rw [pending_discard]
    exact hpends rfl
  case case25 merged =>
    have hmounting : c.phase.mounting = true := by
      rw [hphase]
      rfl
    exact h.unpend hc hmounting merged
  case case26 | case27 =>
    refine Single.setPrepare_outside ?_ rfl
    exact h.of_eq rfl rfl rfl rfl

private theorem stepRelease (h : Single s) {r : ReleaseCall} {e : ReleaseEvent}
    (hs : stepRelease s i r e = some t) : Single t := by
  revert hs
  fun_cases Unions.stepRelease s i r e
  all_goals
    intro hs
    cases hs
  case case7 asked held hopen taken =>
    have htaken : ∀ e ∈ taken, s.shares.lookup e.1 = some e.2.1 ∨ s.shares.lookup e.1 = none := by
      intro e he
      exact .inl (lookup_of_mem_unused he)
    exact (h.foldl_remove htaken).of_eq rfl rfl rfl rfl
  all_goals exact h.of_eq rfl rfl rfl rfl

private theorem step (h : Single s) {e : Event} (hs : Unions.step s e = some t) : Single t := by
  cases e with
  | openSession session =>
    obtain ⟨-, ⟨⟩⟩ := Option.ite_none_left_eq_some.mp hs
    exact h.of_eq rfl rfl rfl rfl
  | endSession session =>
    obtain ⟨-, ⟨⟩⟩ := Option.ite_none_right_eq_some.mp hs
    exact h.of_eq rfl rfl rfl rfl
  | release =>
    cases hs
    exact h.of_eq rfl rfl rfl rfl
  | prepare session spec host cache =>
    obtain ⟨-, ⟨⟩⟩ := Option.ite_none_right_eq_some.mp hs
    exact h.prepare rfl
  | elsewhere =>
    cases hs
    exact h.of_eq rfl rfl rfl rfl
  | serve l =>
    simp only [Unions.step] at hs
    split at hs
    · cases hs
    · cases hs
      exact h.of_eq rfl rfl rfl rfl
  | exit mp =>
    cases hs
    exact h.of_eq rfl rfl rfl rfl
  | prepareStep i e =>
    simp only [Unions.step] at hs
    split at hs
    · cases hs
    · next c hc => exact h.stepPrepare hc hs
  | releaseStep i e =>
    simp only [Unions.step] at hs
    split at hs
    · cases hs
    · exact h.stepRelease hs

end Single

/-- In every interleaving of sessions, Prepares and Releases of a machine: two mounts of one share
in progress are one, and a union whose supervisor was not cancelled is the one registered for its
share. -/
theorem one_supervisor (mounted : Finset Mountpoint) {es : List Event} {s : State}
    (hrun : machine.run (State.fresh mounted) es = some s) :
    (∀ (i j : Nat) (c d : PrepareCall), s.preparing[i]? = some c → s.preparing[j]? = some d →
      c.phase.mounting = true → d.phase.mounting = true → c.spec.share = d.spec.share → i = j) ∧
    ∀ (l : Nat) (u : Live), s.unions[l]? = some u → u.cancelled = false →
      s.shares.lookup u.spec.share = some l := by
  have hsingle : Single s :=
    machine.run_invariant_all (fun s e s' h hs ↦ h.step hs) (Single.fresh mounted) hrun
  refine ⟨?_, hsingle.registered⟩
  intro i j c d hc hd hcm hdm hshare
  exact hsingle.eq_of_mounting hc hcm hd hdm hshare

/-- A Prepare is waiting for its union, and another for the same share waits for it. -/
def waitedFor : List Event :=
  [.openSession 0, .prepare 0 { share := "/m/a" } "host" "cache",
    .prepare 0 { share := "/m/a" } "host" "cache",
    .prepareStep 0 .go, .prepareStep 0 .go, .prepareStep 0 .go, .prepareStep 0 .go,
    .prepareStep 1 .go, .prepareStep 1 (.hear false), .prepareStep 1 .go]

theorem one_supervisor_waited :
    ∃ s, machine.run (State.fresh ∅) waitedFor = some s ∧
      s.preparing.map (·.phase) = [.waitReady 0, .wait 0] ∧
      s.shares.lookup "/m/a" = some 0 := by
  obtain ⟨s, hs, hphases, hunion⟩ : ∃ s, machine.run (State.fresh ∅) waitedFor = some s ∧
      s.preparing.map (·.phase) = [.waitReady 0, .wait 0] ∧
      s.unions[0]? = some ⟨{ share := "/m/a" }, "host", "cache", false, 0⟩ := by
    decide +kernel
  exact ⟨s, hs, hphases, (one_supervisor ∅ hs).2 0 _ hunion rfl⟩

end RemoteDocker.Unions

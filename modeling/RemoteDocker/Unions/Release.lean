import RemoteDocker.Unions.Manager

/-!
# A union handed to a Prepare and the Releases of its machine

A Release decides under the lock, where no session of the machine is open, and unmounts by
path once it gave the lock up. A session opened in between may have prepared the same share
by then, and loses its mount (`prepared_then_unmounted`). `careful` keeps to the runs where
a Prepare answers with a mountpoint no Release has yet to unmount.
-/

namespace RemoteDocker.Unions

open Base

def ReleaseCall.unmounts : ReleaseCall → List Mountpoint
  | unmounting specs => specs.map (·.mountpoint)
  | _ => []

def unmounts (s : State) : Event → Option Mountpoint
  | .releaseStep i (.unmount j _) => s.releasing[i]?.bind fun r ↦ r.unmounts[j]?
  | _ => none

/-- A Prepare answers only with a mountpoint that no Release in progress has yet to unmount. -/
def careful (s : State) : Event → Bool
  | .prepareStep i .go =>
    match s.preparing[i]? with
    | some { phase := .answer (some mp), .. } => s.releasing.all fun r ↦ mp ∉ r.unmounts
    | _ => true
  | _ => true

/-- The sessions, their answers and the Releases of two states are the same. -/
structure Same (s t : State) : Prop where
  sessions : t.sessions = s.sessions
  opened : t.opened = s.opened
  answers : t.answers = s.answers
  releasing : t.releasing = s.releasing

namespace Same

variable {s t : State}

private theorem refl (s : State) : Same s s := ⟨rfl, rfl, rfl, rfl⟩

variable (h : Same s t)

include h

private theorem remove (k : String) (l : Nat) : Same s (t.remove k l) :=
  ⟨h.sessions, h.opened, h.answers, h.releasing⟩

private theorem discard (k : String) (l : Nat) : Same s (t.discard k l) := by
  unfold State.discard
  split
  · exact h.remove k l
  · exact h

private theorem foldl_remove (taken : List (String × Nat × Spec)) :
    Same s (taken.foldl (fun t e ↦ t.remove e.1 e.2.1) t) := by
  induction taken generalizing t with
  | nil => exact h
  | cons e taken ih => exact ih (h.remove e.1 e.2.1)

private theorem setPrepare (i : Nat) (c : PrepareCall) (phase : PreparePhase) :
    Same s (t.setPrepare i c phase) :=
  ⟨h.sessions, h.opened, h.answers, h.releasing⟩

end Same

private theorem same_of_stepPrepare {s s' : State} {i : Nat} {c : PrepareCall}
    {phase : PreparePhase}
    {e : PrepareEvent} (hphase : ∀ mp, phase ≠ .answer (some mp))
    (h : stepPrepare s i c phase e = some s') : Same s s' := by
  revert h
  fun_cases stepPrepare s i c phase e
  all_goals
    intro h
    cases h
  all_goals first
    | exact ⟨rfl, rfl, rfl, rfl⟩
    | exact ((Same.refl s).discard _ _).setPrepare _ _ _
    | exact absurd rfl (hphase _)

/-- A Release changes its own progress only, and has something new to unmount only if no
session was open. -/
theorem releasing_of_stepRelease {s s' : State} {i : Nat} {r : ReleaseCall} {e : ReleaseEvent}
    (h : stepRelease s i r e = some s') :
    ∃ t r', Same s t ∧ s' = t.setRelease i r' ∧
      (s.sessions = 0 ∨ ∀ mp ∈ r'.unmounts, mp ∈ r.unmounts) := by
  revert h
  fun_cases stepRelease s i r e
  all_goals
    intro h
    cases h
  case case1 =>
    refine ⟨s, _, Same.refl s, rfl, .inr ?_⟩
    split <;> simp [ReleaseCall.unmounts]
  case case7 asked held hopen taken =>
    refine ⟨_, _, (Same.refl s).foldl_remove taken, rfl, .inl ?_⟩
    omega
  case case9 specs j ok spec hj =>
    refine ⟨{ s with mounted := if ok then s.mounted.erase spec.mountpoint else s.mounted }, _,
      ⟨rfl, rfl, rfl, rfl⟩, rfl, .inr ?_⟩
    intro mp hmp
    obtain ⟨spec', hspec', rfl⟩ := List.mem_map.mp hmp
    exact List.mem_map_of_mem (List.mem_of_mem_eraseIdx hspec')
  all_goals exact ⟨s, _, Same.refl s, rfl, .inr (by simp [ReleaseCall.unmounts])⟩

/-- What careful runs keep: the sessions are counted, only open ones were answered, and no
Release has yet to unmount what one of them was answered with. -/
structure Inv (s : State) : Prop where
  counted : s.sessions = s.opened.card
  answered : ∀ a ∈ s.answers, a.1 ∈ s.opened
  kept : ∀ r ∈ s.releasing, ∀ mp ∈ r.unmounts, ∀ a ∈ s.answers, a.2 ≠ mp

namespace Inv

variable {s t : State}

private theorem fresh (mounted : Finset Mountpoint) : Inv (State.fresh mounted) where
  counted := rfl
  answered := by simp [State.fresh]
  kept := by simp [State.fresh]

variable (h : Inv s)

include h

private theorem of_same (ht : Same s t) : Inv t where
  counted := by rw [ht.sessions, ht.opened, h.counted]
  answered := by
    rw [ht.answers, ht.opened]
    exact h.answered
  kept := by
    rw [ht.releasing, ht.answers]
    exact h.kept

private theorem answers_eq_nil (hopen : s.sessions = 0) : s.answers = [] := by
  rw [h.counted, Finset.card_eq_zero] at hopen
  apply List.eq_nil_iff_forall_not_mem.mpr
  intro a ha
  have := h.answered a ha
  rw [hopen] at this
  exact Finset.notMem_empty _ this

private theorem setRelease {i : Nat} {r r' : ReleaseCall} (hr : s.releasing[i]? = some r)
    (hun : s.sessions = 0 ∨ ∀ mp ∈ r'.unmounts, mp ∈ r.unmounts) : Inv (s.setRelease i r') where
  counted := h.counted
  answered := h.answered
  kept := by
    intro u hu mp hmp a ha
    rcases List.mem_or_eq_of_mem_set hu with hu | rfl
    · exact h.kept u hu mp hmp a ha
    · rcases hun with hopen | hsub
      · have hnil := h.answers_eq_nil hopen
        rw [show (s.setRelease i u).answers = s.answers from rfl, hnil] at ha
        exact absurd ha List.not_mem_nil
      · exact h.kept r (List.mem_of_getElem? hr) mp (hsub mp hmp) a ha

private theorem release : Inv { s with releasing := s.releasing ++ [.first] } where
  counted := h.counted
  answered := h.answered
  kept := by
    intro r hr mp hmp
    rcases List.mem_append.mp hr with hr | hr
    · exact h.kept r hr mp hmp
    · rw [List.mem_singleton.mp hr] at hmp
      exact absurd hmp List.not_mem_nil

private theorem openSession {session : Nat} (hnew : session ∉ s.opened) :
    Inv { s with sessions := s.sessions + 1, opened := insert session s.opened } where
  counted := by
    dsimp only
    rw [Finset.card_insert_of_notMem hnew, h.counted]
  answered := fun a ha ↦ Finset.mem_insert_of_mem (h.answered a ha)
  kept := h.kept

/-- A session ends, and with it what it was answered. -/
theorem endSession {session : Nat} (hopen : session ∈ s.opened) :
    Inv { s with sessions := s.sessions - 1
                 opened := s.opened.erase session
                 answers := s.answers.filter fun a ↦ a.1 ≠ session } where
  counted := by
    dsimp only
    rw [Finset.card_erase_of_mem hopen, h.counted]
  answered := by
    intro a ha
    obtain ⟨ha, hne⟩ := List.mem_filter.mp ha
    exact Finset.mem_erase.mpr ⟨of_decide_eq_true hne, h.answered a ha⟩
  kept := fun r hr mp hmp a ha ↦ h.kept r hr mp hmp a (List.mem_of_mem_filter ha)

private theorem answer {session : Nat} {mp : Mountpoint}
    (hclear : ∀ r ∈ s.releasing, mp ∉ r.unmounts) :
    Inv { s with answers := if session ∈ s.opened then (session, mp) :: s.answers
                            else s.answers } := by
  split
  · next hopen =>
    refine ⟨h.counted, ?_, ?_⟩
    · intro a ha
      rcases List.mem_cons.mp ha with rfl | ha
      · exact hopen
      · exact h.answered a ha
    · intro r hr mp' hmp' a ha
      rcases List.mem_cons.mp ha with rfl | ha
      · intro heq
        rw [← heq] at hmp'
        exact hclear r hr hmp'
      · exact h.kept r hr mp' hmp' a ha
  · exact h

private theorem stepPrepare {i : Nat} {c : PrepareCall} {e : PrepareEvent}
    (hc : s.preparing[i]? = some c) (hcareful : careful s (.prepareStep i e) = true)
    (hs : stepPrepare s i c c.phase e = some t) : Inv t := by
  by_cases hphase : ∃ mp, c.phase = .answer (some mp)
  · obtain ⟨mp, hmp⟩ := hphase
    obtain ⟨session, spec, host, cache, phase⟩ := c
    subst hmp
    cases e with
    | go =>
      have hclear : ∀ r ∈ s.releasing, mp ∉ r.unmounts := by
        simpa [careful, hc] using hcareful
      injection hs with hs
      subst hs
      exact (h.answer hclear).of_same ⟨rfl, rfl, rfl, rfl⟩
    | hear ok => cases hs
    | giveUp => cases hs
  · exact h.of_same (same_of_stepPrepare (fun mp hmp ↦ hphase ⟨mp, hmp⟩) hs)

private theorem stepRelease {i : Nat} {r : ReleaseCall} {e : ReleaseEvent}
    (hr : s.releasing[i]? = some r) (hs : stepRelease s i r e = some t) : Inv t := by
  obtain ⟨u, r', hsame, rfl, hun⟩ := releasing_of_stepRelease hs
  refine (h.of_same hsame).setRelease (r := r) ?_ ?_
  · rw [hsame.releasing]
    exact hr
  · rw [hsame.sessions]
    exact hun

end Inv

private theorem inv_step (s : State) (e : Event) (s' : State) (h : Inv s)
    (hcareful : careful s e = true)
    (hs : machine.step s e = some s') : Inv s' := by
  change step s e = some s' at hs
  cases e with
  | openSession session =>
    obtain ⟨hnew, ⟨⟩⟩ := Option.ite_none_left_eq_some.mp hs
    exact h.openSession hnew
  | endSession session =>
    obtain ⟨hopen, ⟨⟩⟩ := Option.ite_none_right_eq_some.mp hs
    exact (h.endSession hopen).release
  | release =>
    cases hs
    exact h.release
  | prepare session spec host cache =>
    obtain ⟨-, ⟨⟩⟩ := Option.ite_none_right_eq_some.mp hs
    exact h.of_same ⟨rfl, rfl, rfl, rfl⟩
  | elsewhere =>
    cases hs
    exact h.of_same ⟨rfl, rfl, rfl, rfl⟩
  | serve l =>
    simp only [step] at hs
    split at hs
    · cases hs
    · cases hs
      exact h.of_same ⟨rfl, rfl, rfl, rfl⟩
  | exit mp =>
    cases hs
    exact h.of_same ⟨rfl, rfl, rfl, rfl⟩
  | prepareStep i e =>
    simp only [step] at hs
    split at hs
    · cases hs
    · next c hc => exact h.stepPrepare hc hcareful hs
  | releaseStep i e =>
    simp only [step] at hs
    split at hs
    · cases hs
    · next r hr => exact h.stepRelease hr hs

/-- However sessions, Prepares and Releases of a machine interleave, as long as no Prepare
answers with a mountpoint a Release has yet to unmount, no Release unmounts a mountpoint
that a session still open was answered with. -/
theorem no_unmount_under_session (mounted : Finset Mountpoint) {es : List Event} {s : State}
    (hw : machine.Within (fun s e ↦ careful s e = true) (State.fresh mounted) es)
    (hrun : machine.run (State.fresh mounted) es = some s) :
    ∀ e mp, unmounts s e = some mp → ∀ session ∈ s.opened, (session, mp) ∉ s.answers := by
  have hinv : Inv s :=
    machine.run_invariant (fun s e ↦ careful s e = true) inv_step (Inv.fresh mounted) hw hrun
  intro e mp he session _ hanswered
  cases e with
  | releaseStep i e =>
    cases e with
    | unmount j ok =>
      obtain ⟨r, hr, hj⟩ := Option.bind_eq_some_iff.mp he
      exact hinv.kept r (List.mem_of_getElem? hr) mp (List.mem_of_getElem? hj) _ hanswered rfl
    | go => cases he
    | hear sources => cases he
  | _ => cases he

/-- Prepare `i`, of a share with no union registered, up to its wait for the union started. -/
def mountSteps (i : Nat) : List Event :=
  [.prepareStep i .go, .prepareStep i .go, .prepareStep i .go, .prepareStep i .go]

def answerSteps (i : Nat) : List Event :=
  [.prepareStep i (.hear true), .prepareStep i (.hear true), .prepareStep i .go,
    .prepareStep i .go, .prepareStep i .go, .prepareStep i .go]

/-- A session prepares `a` and ends; nothing holds the union, and the Release takes it. -/
def preparedAndReleased : List Event :=
  ([.openSession 0, .prepare 0 { share := "a" } "" "cache-a"] : List Event) ++ mountSteps 0 ++
    ([.serve 0] : List Event) ++ answerSteps 0 ++
    ([.endSession 0, .releaseStep 0 .go, .releaseStep 0 .go, .releaseStep 0 (.hear (some ∅)),
      .releaseStep 0 .go, .releaseStep 0 .go] : List Event)

/-- Before it unmounts, a new session prepares `a`: what is still mounted answers, and the
Release then unmounts it under that session. -/
theorem prepared_then_unmounted :
    (machine.run (State.fresh ∅) (preparedAndReleased ++
      ([.openSession 1, .prepare 1 { share := "a" } "" "cache-a"] : List Event) ++ mountSteps 1 ++
      answerSteps 1)).map
      (fun s ↦ (s.opened, s.answers, unmounts s (.releaseStep 0 (.unmount 0 true)))) =
    some ({1}, [(1, ⟨0, "a"⟩)], some ⟨0, "a"⟩) := by
  decide

/-- Before it unmounts, a new session prepares another share. -/
def otherPrepared : List Event :=
  preparedAndReleased ++
    ([.openSession 1, .prepare 1 { share := "b" } "" "cache-b"] : List Event) ++ mountSteps 1 ++
    ([.serve 1] : List Event) ++ answerSteps 1

/-- That share is not the one unmounted. -/
theorem no_unmount_under_session_other :
    ∃ s, machine.run (State.fresh ∅) otherPrepared = some s ∧
      (1, ⟨0, "b"⟩) ∈ s.answers ∧
      unmounts s (.releaseStep 0 (.unmount 0 true)) = some ⟨0, "a"⟩ ∧
      ∀ session ∈ s.opened, (session, ⟨0, "a"⟩) ∉ s.answers := by
  obtain ⟨s, hs, hanswers, hun⟩ : ∃ s, machine.run (State.fresh ∅) otherPrepared = some s ∧
      (1, ⟨0, "b"⟩) ∈ s.answers ∧
      unmounts s (.releaseStep 0 (.unmount 0 true)) = some ⟨0, "a"⟩ := by
    decide
  exact ⟨s, hs, hanswers, hun, no_unmount_under_session ∅ (by decide) hs _ _ hun⟩

end RemoteDocker.Unions

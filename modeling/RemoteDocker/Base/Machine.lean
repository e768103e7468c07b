import Mathlib.Logic.Basic

/-!
# Labelled machines and their runs

A machine takes one event at a time and may refuse it. Interleavings are lists of
events: the parties of a system each own some of the events, and every order of them
is a run. `run_invariant` packages the induction every safety result is an instance
of: what one step preserves, a whole run preserves. A condition on steps restricts
the runs spoken about without changing the machine.
-/

namespace RemoteDocker.Base

universe u v

/-- Whether there is a result of some kind can be computed. -/
instance decidableExistsSome {α : Type u} (o : Option α) (p : α → Prop) [DecidablePred p] :
    Decidable (∃ a, o = some a ∧ p a) :=
  match o with
  | none => isFalse nofun
  | some a => decidable_of_iff (p a) (by simp)

instance decidableExistsOk {α : Type u} {ε : Type v} (x : Except ε (Option α)) (p : α → Prop)
    [DecidablePred p] : Decidable (∃ a, x = .ok (some a) ∧ p a) :=
  match x with
  | .error _ | .ok none => isFalse nofun
  | .ok (some a) => decidable_of_iff (p a) (by simp)

/-- A machine over states `σ` and events `ε`; `none` refuses an event that cannot happen in the
state it is offered in. -/
structure Machine (σ : Type u) (ε : Type v) where
  step : σ → ε → Option σ

namespace Machine

variable {σ : Type u} {ε : Type v} (m : Machine σ ε)

/-- The state a list of events leads to, if none of them is refused. -/
def run : σ → List ε → Option σ
  | s, [] => some s
  | s, e :: es =>
    match m.step s e with
    | none => none
    | some s' => run s' es

/-- Every event of the run meets `ok` in the state it happens in. -/
def Within (ok : σ → ε → Prop) : σ → List ε → Prop
  | _, [] => True
  | s, e :: es =>
    ok s e ∧
      match m.step s e with
      | none => True
      | some s' => Within ok s' es

/-- Whether a run stays within a decidable condition can be computed. -/
instance decidableWithin (ok : σ → ε → Prop) [∀ s e, Decidable (ok s e)] :
    (s : σ) → (es : List ε) → Decidable (m.Within ok s es)
  | _, [] => isTrue True.intro
  | s, e :: es =>
    match h : m.step s e with
    | none => decidable_of_iff (ok s e) (by simp [Within, h])
    | some s' =>
      have := decidableWithin ok s' es
      decidable_of_iff (ok s e ∧ m.Within ok s' es) (by simp [Within, h])

theorem run_cons {s s' : σ} {e : ε} {es : List ε} (h : m.run s (e :: es) = some s') :
    ∃ t, m.step s e = some t ∧ m.run t es = some s' := by
  simp only [run] at h
  cases ht : m.step s e with
  | none => simp [ht] at h
  | some t =>
    rw [ht] at h
    exact ⟨t, rfl, h⟩

/-- Induction over runs: what every step within the condition preserves holds in every
state such a run reaches. -/
theorem run_invariant (ok : σ → ε → Prop) {inv : σ → Prop}
    (hstep : ∀ s e s', inv s → ok s e → m.step s e = some s' → inv s')
    {s s' : σ} {es : List ε} (hs : inv s) (hw : m.Within ok s es)
    (hr : m.run s es = some s') : inv s' := by
  induction es generalizing s with
  | nil =>
    simp only [run, Option.some.injEq] at hr
    exact hr ▸ hs
  | cons e es ih =>
    obtain ⟨t, ht, hrest⟩ := m.run_cons hr
    obtain ⟨hok, hwt⟩ := hw
    rw [ht] at hwt
    exact ih (hstep s e t hs hok ht) hwt hrest

private theorem within_true (s : σ) (es : List ε) : m.Within (fun _ _ ↦ True) s es := by
  induction es generalizing s with
  | nil => exact True.intro
  | cons e es ih =>
    refine ⟨True.intro, ?_⟩
    cases ht : m.step s e with
    | none => exact True.intro
    | some t => exact ih t

/-- What every step keeps, a run keeps. -/
theorem run_invariant_all {inv : σ → Prop}
    (hstep : ∀ s e s', inv s → m.step s e = some s' → inv s')
    {s s' : σ} {es : List ε} (hs : inv s) (hr : m.run s es = some s') : inv s' :=
  m.run_invariant (fun _ _ ↦ True) (fun s e s' hi _ ht ↦ hstep s e s' hi ht) hs
    (m.within_true s es) hr

end Machine
end RemoteDocker.Base

import RemoteDocker.Base.Machine
import RemoteDocker.Base.Table

/-!
# The lock of a key file

`src/core-agent/accounts/keyfile_write.go:301-374`. A lock is a directory, and its modification time
names who made it. A writer that has watched one holder for long enough, and finds its lock old,
moves the lock aside under a second lock, and then competes for a new one with everybody else.

A writer takes one system call a step, on whatever host it runs. Modification times are given by the
filesystem, and no two locks have the same; what a host's own clock says is left open. A writer that
crashes takes no further step.
-/

namespace RemoteDocker.Enrol.FileLock

open Base

def lockWait : Int := 10 * 1000000000

def lockStale : Int := 30 * 1000000000

/-- What a writer knows of the lock it waits for: `holder`, `since` and `broke`. -/
structure Watch where
  holder : Option Int := none
  since : Int := 0
  broke : Bool := false
  deriving DecidableEq

inductive Phase where
  /-- `lockFile`, before it makes the lock. -/
  | trying (w : Watch)
  /-- The lock was there; before it looks whose it is. -/
  | looking (w : Watch)
  /-- `breakLock` of the holder, before it makes the second lock. -/
  | breaking (w : Watch)
  /-- The second lock was there; before it looks how old that one is. -/
  | judging (w : Watch)
  /-- Before it removes a second lock that is old. -/
  | clearing (w : Watch)
  /-- It has the second lock; before it looks again whose the lock is. -/
  | checking (w : Watch)
  /-- Before it moves the lock aside. -/
  | moving (w : Watch)
  /-- Before it removes the second lock. -/
  | leaving (w : Watch)
  /-- It made the lock, and has not run `unlock` yet. -/
  | holding (mtime : Int)
  deriving DecidableEq

structure State where
  lock : Option Int := none
  breaker : Option Int := none
  writers : AList fun _ : Nat ↦ Phase := ∅
  /-- The locks that were made. -/
  made : List Int := []
  /-- The locks that were moved aside. -/
  broken : List Int := []

/-- A system call of a writer. `fails` is an error other than that the directory is there, or is
not; `now` and the like are what the host's clock says. -/
inductive Event where
  | start (writer : Nat)
  | mkdir (writer : Nat) (mtime : Int) (fails : Bool)
  | stat (writer : Nat) (now waited age : Int) (fails : Bool)
  | mkdirBreaker (writer : Nat) (mtime now : Int) (fails : Bool)
  | statBreaker (writer : Nat) (age now : Int) (fails : Bool)
  | removeBreaker (writer : Nat) (now : Int) (fails : Bool)
  | check (writer : Nat) (fails : Bool)
  | rename (writer : Nat) (fails : Bool)
  /-- `unlock`, which `edit` runs once its change is made. -/
  | unlock (writer : Nat) (fails : Bool)

/-- Whose lock it is, and since when it has been that one. -/
def Watch.sees (w : Watch) (mtime now : Int) : Watch :=
  if w.holder = some mtime then w else { holder := some mtime, since := now, broke := false }

namespace State

variable (s : State) (writer : Nat)

def goes (phase : Phase) : State := { s with writers := s.writers.insert writer phase }

def returns : State := { s with writers := s.writers.erase writer }

def brokeOff (w : Watch) (now : Int) : State :=
  s.goes writer (.trying { w with broke := true, since := now })

/-- `lockFile` has looked at the lock, and has waited for its holder since then. -/
def looked (w : Watch) (mtime waited age : Int) : State :=
  if waited - w.since > lockWait then
    if w.broke ∨ age - mtime ≤ lockStale then s.returns writer
    else s.goes writer (.breaking w)
  else s.goes writer (.trying w)

end State

def step (s : State) : Event → Option State
  | .start writer =>
    if writer ∈ s.writers then none else some (s.goes writer (.trying {}))
  | .mkdir writer mtime fails =>
    match s.writers.lookup writer with
    | some (.trying w) =>
      if fails then some (s.returns writer)
      else
        match s.lock with
        | some _ => some (s.goes writer (.looking w))
        | none =>
          if mtime ∈ s.made then none
          else some ({ s with lock := some mtime, made := mtime :: s.made }.goes writer
            (.holding mtime))
    | _ => none
  | .stat writer now waited age fails =>
    match s.writers.lookup writer with
    | some (.looking w) =>
      match if fails then none else s.lock with
      | none => some (s.goes writer (.trying w))
      | some mtime => some (s.looked writer (w.sees mtime now) mtime waited age)
    | _ => none
  | .mkdirBreaker writer mtime now fails =>
    match s.writers.lookup writer with
    | some (.breaking w) =>
      if fails then some (s.brokeOff writer w now)
      else
        match s.breaker with
        | some _ => some (s.goes writer (.judging w))
        | none => some ({ s with breaker := some mtime }.goes writer (.checking w))
    | _ => none
  | .statBreaker writer age now fails =>
    match s.writers.lookup writer with
    | some (.judging w) =>
      match if fails then none else s.breaker with
      | none => some (s.brokeOff writer w now)
      | some mtime =>
        if age - mtime > lockStale then some (s.goes writer (.clearing w))
        else some (s.brokeOff writer w now)
    | _ => none
  | .removeBreaker writer now fails =>
    let cleared := if fails then s else { s with breaker := none }
    match s.writers.lookup writer with
    | some (.clearing w) => some (cleared.brokeOff writer w now)
    | some (.leaving w) => some (cleared.brokeOff writer w now)
    | _ => none
  | .check writer fails =>
    match s.writers.lookup writer with
    | some (.checking w) =>
      if fails = false ∧ s.lock.isSome ∧ s.lock = w.holder then some (s.goes writer (.moving w))
      else some (s.goes writer (.leaving w))
    | _ => none
  | .rename writer fails =>
    match s.writers.lookup writer with
    | some (.moving w) =>
      match if fails then none else s.lock with
      | none => some (s.goes writer (.leaving w))
      | some mtime =>
        some ({ s with lock := none, broken := mtime :: s.broken }.goes writer (.leaving w))
    | _ => none
  | .unlock writer fails =>
    match s.writers.lookup writer with
    | some (.holding _) =>
      if fails then some (s.returns writer) else some ({ s with lock := none }.returns writer)
    | _ => none

def machine : Machine State Event := ⟨step⟩

/-- The writer is between acquiring the lock and releasing it, and its lock was not broken. -/
def State.Holds (s : State) (writer : Nat) : Prop :=
  ∃ mtime, s.writers.lookup writer = some (.holding mtime) ∧ mtime ∉ s.broken

/-- A writer whose lock was broken does not release the lock that is there now. -/
def StaysDead (s : State) : Event → Prop
  | .unlock writer fails =>
    ∀ mtime ∈ s.broken, s.writers.lookup writer = some (.holding mtime) →
      fails = true ∨ s.lock = none
  | _ => True

instance (s : State) : (e : Event) → Decidable (StaysDead s e)
  | .unlock writer fails => inferInstanceAs (Decidable
      (∀ mtime ∈ s.broken, s.writers.lookup writer = some (.holding mtime) →
        fails = true ∨ s.lock = none))
  | .start _ => isTrue True.intro
  | .mkdir _ _ _ => isTrue True.intro
  | .stat _ _ _ _ _ => isTrue True.intro
  | .mkdirBreaker _ _ _ _ => isTrue True.intro
  | .statBreaker _ _ _ _ => isTrue True.intro
  | .removeBreaker _ _ _ => isTrue True.intro
  | .check _ _ => isTrue True.intro
  | .rename _ _ => isTrue True.intro

variable {s s' : State}

/-- A holder whose lock was not broken has the lock, and no two writers made the same one. -/
structure Inv (s : State) : Prop where
  own : ∀ writer mtime, s.writers.lookup writer = some (.holding mtime) →
    mtime ∈ s.broken ∨ s.lock = some mtime
  made : ∀ writer mtime, s.writers.lookup writer = some (.holding mtime) → mtime ∈ s.made
  single : ∀ writer writer' mtime, s.writers.lookup writer = some (.holding mtime) →
    s.writers.lookup writer' = some (.holding mtime) → writer = writer'

namespace Inv

variable {writer : Nat} (hi : Inv s)

include hi

private theorem goes {phase : Phase} (hphase : ∀ mtime, phase ≠ .holding mtime) :
    Inv (s.goes writer phase) := by
  have hold : ∀ {k mtime}, (s.goes writer phase).writers.lookup k = some (.holding mtime) →
      s.writers.lookup k = some (.holding mtime) := by
    intro k mtime hk
    rcases lookup_insert_eq_some.mp hk with ⟨-, heq⟩ | ⟨-, hold⟩
    · exact absurd heq (hphase mtime)
    · exact hold
  exact ⟨fun k m hk ↦ hi.own k m (hold hk), fun k m hk ↦ hi.made k m (hold hk),
    fun k k' m hk hk' ↦ hi.single k k' m (hold hk) (hold hk')⟩

private theorem returns : Inv (s.returns writer) := by
  have hold : ∀ {k mtime}, (s.returns writer).writers.lookup k = some (.holding mtime) →
      s.writers.lookup k = some (.holding mtime) := fun hk ↦ (lookup_erase_eq_some.mp hk).2
  exact ⟨fun k m hk ↦ hi.own k m (hold hk), fun k m hk ↦ hi.made k m (hold hk),
    fun k k' m hk hk' ↦ hi.single k k' m (hold hk) (hold hk')⟩

private theorem breaker (breaker : Option Int) : Inv { s with breaker } :=
  ⟨hi.own, hi.made, hi.single⟩

private theorem acquires {mtime : Int} (hnone : s.lock = none) (hnew : mtime ∉ s.made) :
    Inv ({ s with lock := some mtime, made := mtime :: s.made }.goes writer (.holding mtime)) := by
  constructor
  · intro k m hk
    rcases lookup_insert_eq_some.mp hk with ⟨-, heq⟩ | ⟨-, hold⟩
    · cases heq
      exact .inr rfl
    · rcases hi.own k m hold with hbroken | hlock
      · exact .inl hbroken
      · rw [hnone] at hlock
        cases hlock
  · intro k m hk
    rcases lookup_insert_eq_some.mp hk with ⟨-, heq⟩ | ⟨-, hold⟩
    · cases heq
      exact (.head _)
    · exact .tail _ (hi.made k m hold)
  · intro k k' m hk hk'
    rcases lookup_insert_eq_some.mp hk with ⟨rfl, heq⟩ | ⟨-, hold⟩
    · rcases lookup_insert_eq_some.mp hk' with ⟨rfl, -⟩ | ⟨-, hold'⟩
      · rfl
      · cases heq
        exact absurd (hi.made k' mtime hold') hnew
    · rcases lookup_insert_eq_some.mp hk' with ⟨rfl, heq⟩ | ⟨-, hold'⟩
      · cases heq
        exact absurd (hi.made k mtime hold) hnew
      · exact hi.single k k' m hold hold'

private theorem moved {mtime : Int} (hlock : s.lock = some mtime) :
    Inv { s with lock := none, broken := mtime :: s.broken } := by
  refine ⟨?_, hi.made, hi.single⟩
  intro k m hk
  rcases hi.own k m hk with hbroken | hown
  · exact .inl (.tail _ hbroken)
  · rw [hlock] at hown
    cases hown
    exact .inl (.head _)

/-- The lock that is released is the writer's own, or there is none. -/
theorem released {mtime : Int}
    (hwriter : s.writers.lookup writer = some (.holding mtime))
    (hdead : mtime ∈ s.broken → s.lock = none) : Inv ({ s with lock := none }.returns writer) := by
  have hrest : Inv (s.returns writer) := hi.returns
  refine ⟨?_, hrest.made, hrest.single⟩
  intro k m hk
  obtain ⟨hne, hold⟩ := lookup_erase_eq_some.mp hk
  rcases hi.own k m hold with hbroken | hown
  · exact .inl hbroken
  · rcases hi.own writer mtime hwriter with hbroken | hlock
    · rw [hdead hbroken] at hown
      cases hown
    · rw [hlock] at hown
      cases hown
      exact absurd (hi.single k writer mtime hold hwriter) hne

private theorem brokeOff {w : Watch} {now : Int} : Inv (s.brokeOff writer w now) :=
  hi.goes nofun

private theorem looked {w : Watch} {mtime waited age : Int} :
    Inv (s.looked writer w mtime waited age) := by
  unfold State.looked
  split
  · split
    · exact hi.returns
    · exact hi.goes nofun
  · exact hi.goes nofun

private theorem step {e : Event} (hok : StaysDead s e)
    (ht : FileLock.step s e = some s') : Inv s' := by
  have hcleared : ∀ fails : Bool, Inv (if fails then s else { s with breaker := none }) := by
    intro fails
    split
    · exact hi
    · exact hi.breaker none
  revert ht
  fun_cases FileLock.step s e <;> rintro ⟨⟩
  · exact hi.goes nofun
  · exact hi.returns
  · exact hi.goes nofun
  · next hnone hnew => exact hi.acquires hnone hnew
  · exact hi.goes nofun
  · exact hi.looked
  · exact hi.brokeOff
  · exact hi.goes nofun
  · exact (hi.breaker _).goes nofun
  · exact hi.brokeOff
  · exact hi.goes nofun
  · exact hi.brokeOff
  · exact (hcleared _).brokeOff
  · exact (hcleared _).brokeOff
  · exact hi.goes nofun
  · exact hi.goes nofun
  · exact hi.goes nofun
  · next mtime hlock =>
    split at hlock
    · cases hlock
    · exact (hi.moved hlock).goes nofun
  · exact hi.returns
  · next writer fails mtime hwriter hfails =>
    refine hi.released hwriter ?_
    intro hbroken
    exact (hok mtime hbroken hwriter).resolve_left hfails

end Inv

private theorem inv_start : Inv {} := ⟨nofun, nofun, nofun⟩

/-- At most one writer whose lock was not broken is between acquiring the lock and releasing it, as
long as no writer whose lock was broken comes back to release the lock that is there by then. -/
theorem at_most_one_holds {es : List Event} (hr : machine.run {} es = some s)
    (hw : machine.Within StaysDead {} es) {writer writer' : Nat} (h : s.Holds writer)
    (h' : s.Holds writer') : writer = writer' := by
  have hi : Inv s :=
    machine.run_invariant StaysDead (fun _ _ _ hi hok ht ↦ hi.step hok ht) inv_start hw hr
  obtain ⟨mtime, hwriter, hlive⟩ := h
  obtain ⟨mtime', hwriter', hlive'⟩ := h'
  have hlock := (hi.own writer mtime hwriter).resolve_left hlive
  have hlock' := (hi.own writer' mtime' hwriter').resolve_left hlive'
  rw [hlock] at hlock'
  cases hlock'
  exact hi.single writer writer' mtime hwriter hwriter'

/-- A writer takes the lock at 1 and stops; another watches it, breaks it, and takes the lock. -/
def breaks : List Event :=
  [.start 0, .mkdir 0 1 false, .start 1, .mkdir 1 0 false, .stat 1 40000000000 40000000000 0 false,
    .mkdir 1 0 false, .stat 1 51000000000 51000000000 51000000000 false,
    .mkdirBreaker 1 51000000000 0 false, .check 1 false, .rename 1 false,
    .removeBreaker 1 51000000000 false, .mkdir 1 51000000001 false]

def waits : List Event := breaks ++ [.start 2, .mkdir 2 0 false]

/-- Or the first one comes back and runs its `unlock` before. -/
def comesBack : List Event := breaks ++ [.unlock 0 false, .start 2, .mkdir 2 51000000002 false]

theorem at_most_one_holds_broken :
    ∃ s, machine.run {} waits = some s ∧ s.Holds 1 ∧ ∀ writer, s.Holds writer → writer = 1 := by
  obtain ⟨s, hr, hwriter, hbroken⟩ : ∃ s, machine.run {} waits = some s ∧
      s.writers.lookup 1 = some (.holding 51000000001) ∧ s.broken = [1] := by
    decide +kernel
  have hone : s.Holds 1 := ⟨51000000001, hwriter, by rw [hbroken]; decide⟩
  have hw : machine.Within StaysDead {} waits := by decide +kernel
  exact ⟨s, hr, hone, fun writer h ↦ at_most_one_holds hr hw h hone⟩

/-- What it removes is the second writer's lock, so the third one takes the lock beside it. -/
theorem two_hold :
    ∃ s, machine.run {} comesBack = some s ∧ s.Holds 1 ∧ s.Holds 2 := by
  obtain ⟨s, hr, hone, htwo, hbroken⟩ : ∃ s, machine.run {} comesBack = some s ∧
      s.writers.lookup 1 = some (.holding 51000000001) ∧
      s.writers.lookup 2 = some (.holding 51000000002) ∧ s.broken = [1] := by
    decide +kernel
  exact ⟨s, hr, ⟨51000000001, hone, by rw [hbroken]; decide⟩,
    ⟨51000000002, htwo, by rw [hbroken]; decide⟩⟩

end RemoteDocker.Enrol.FileLock

import RemoteDocker.Base.Table
import RemoteDocker.Enrol.Addition
import RemoteDocker.Enrol.OneKey

/-!
# An undo and the keys of others

The redemptions and key additions of one account, their calls in any order. The undo of a creation
deletes the account's file (`src/agent/internal/sshd/redeem.go:236-240`), whatever was added to it
since, and the undo of an added key takes it out by its fingerprint, also where another operation
has found it there in between: both take a key out that somebody was told is enrolled
(`reported_key_undone`). While an undo takes out no key that another operation has added or found,
every key reported as enrolled is in the file.
-/

namespace RemoteDocker.Enrol.Undoing

open Base

variable {Key : Type}

structure State (Key : Type) where
  file : KeyFile := none
  additions : AList fun _ : Nat ↦ Addition Key := ∅
  /-- A record, for the statements: the keys that `awaitOrWithdraw` took out of an account that was
  not created, and that nobody has added or found since. -/
  withdrawn : List String := []

inductive Event (Key : Type) where
  | begin (i : Nat) (adder : Adder) (key : Key) (comment : String)
  | call (i : Nat) (c : Addition.Call)

namespace State

variable (F : KeyFormat Key) (cfg : Config) (s : State Key)

/-- What is recorded of the withdrawals once an addition is at `phase`. -/
def note (o : Addition Key) (phase : Addition.Phase) : List String :=
  match o.phase with
  | .writing =>
    if phase.standing then s.withdrawn.filter (· != F.fingerprint o.key) else s.withdrawn
  | .withdrawing => F.fingerprint o.key :: s.withdrawn
  | _ => s.withdrawn

def step : Event Key → Option (State Key)
  | .begin i adder key comment =>
    if (s.additions.lookup i).isSome then none
    else some { s with additions := s.additions.insert i { adder, key, comment } }
  | .call i c => do
    let o ← s.additions.lookup i
    let (file, phase) ← o.next F cfg c s.file
    some { file, additions := s.additions.insert i { o with phase }, withdrawn := s.note F o phase }

/-- An undo takes out no key that another operation has added or found. -/
def careful : Event Key → Bool
  | .begin _ _ _ _ => true
  | .call i _ =>
    (s.additions.lookup i).all fun o ↦
      match o.phase with
      | .undoing undo _ =>
        s.additions.entries.all fun e ↦
          e.1 == i || !e.2.phase.standing ||
            undo.spares (F.fingerprint o.key) (F.fingerprint e.2.key)
      | _ => true

/-- The key of every addition that has not failed since its write is in the file, unless its account
was not created. -/
def Kept : Prop :=
  ∀ i o, s.additions.lookup i = some o → o.phase.standing = true →
    holds F s.file (F.fingerprint o.key) = true ∨ F.fingerprint o.key ∈ s.withdrawn

end State

def machine (F : KeyFormat Key) (cfg : Config) : Machine (State Key) (Event Key) where
  step := State.step F cfg

variable {F : KeyFormat Key} {cfg : Config} {s s' : State Key}

namespace State

private theorem kept_begin {i : Nat} {adder : Adder} {key : Key} {comment : String}
    (hkept : s.Kept F)
    (h : s.step F cfg (.begin i adder key comment) = some s') : s'.Kept F := by
  simp only [step] at h
  split at h
  · cases h
  · cases h
    intro j o hj hstanding
    rcases lookup_insert_eq_some.mp hj with ⟨-, rfl⟩ | ⟨-, hj⟩
    · cases hstanding
    · exact hkept j o hj hstanding

private theorem spares_of_careful {i j : Nat} {o o' : Addition Key} {c : Addition.Call}
    {undo : Undo}
    {why : Failure} (hcareful : s.careful F (.call i c) = true)
    (hi : s.additions.lookup i = some o) (hphase : o.phase = .undoing undo why) (hne : j ≠ i)
    (hj : s.additions.lookup j = some o') (hstanding : o'.phase.standing = true) :
    undo.spares (F.fingerprint o.key) (F.fingerprint o'.key) = true := by
  simp only [careful, hi, Option.all_some, hphase, List.all_eq_true] at hcareful
  have hall := hcareful ⟨j, o'⟩ (AList.mem_lookup_iff.mp hj)
  simpa [hne, hstanding] using hall

private theorem kept_call {i : Nat} {c : Addition.Call} (hkept : s.Kept F)
    (hcareful : s.careful F (.call i c) = true) (h : s.step F cfg (.call i c) = some s') :
    s'.Kept F := by
  obtain ⟨o, hi, h⟩ := Option.bind_eq_some_iff.mp h
  obtain ⟨⟨file, phase⟩, hnext, h⟩ := Option.bind_eq_some_iff.mp h
  cases h
  intro j o' hj hstanding
  cases Addition.next_effect hnext with
  | wrote hphase hkeys =>
    simp only [note, hphase]
    rcases lookup_insert_eq_some.mp hj with ⟨rfl, rfl⟩ | ⟨-, hj⟩
    · exact .inl (hkeys _ (.inr ⟨hstanding, rfl⟩))
    · rcases hkept j o' hj hstanding with hin | hout
      · exact .inl (hkeys _ (.inl hin))
      · by_cases hstands : phase.standing = true
        · by_cases hsame : F.fingerprint o'.key = F.fingerprint o.key
          · exact .inl (hkeys _ (.inr ⟨hstands, hsame⟩))
          · rw [if_pos hstands]
            exact .inr (List.mem_filter.mpr ⟨hout, bne_iff_ne.mpr hsame⟩)
        · rw [if_neg hstands]
          exact .inr hout
  | stayed hphase hfile =>
    have hnote : s.note F o phase = s.withdrawn := by
      unfold note
      split
      · next hw => rw [hw] at hphase; cases hphase
      · next hw => rw [hw] at hphase; cases hphase
      · rfl
    rw [hfile, hnote]
    rcases lookup_insert_eq_some.mp hj with ⟨rfl, rfl⟩ | ⟨-, hj⟩
    · exact hkept j o hi hphase
    · exact hkept j o' hj hstanding
  | withdrew hphase hends hkeys =>
    simp only [note, hphase]
    rcases lookup_insert_eq_some.mp hj with ⟨-, rfl⟩ | ⟨-, hj⟩
    · rw [hends] at hstanding
      cases hstanding
    · by_cases hsame : F.fingerprint o'.key = F.fingerprint o.key
      · exact .inr (List.mem_cons.mpr (.inl hsame))
      · rcases hkept j o' hj hstanding with hin | hout
        · exact .inl (hkeys _ hsame hin)
        · exact .inr (.tail _ hout)
  | undid undo why hphase hends hkeys =>
    simp only [note, hphase]
    rcases lookup_insert_eq_some.mp hj with ⟨-, rfl⟩ | ⟨hne, hj⟩
    · rw [hends] at hstanding
      cases hstanding
    · rcases hkept j o' hj hstanding with hin | hout
      · have hspared := spares_of_careful hcareful hi hphase hne hj hstanding
        exact .inl (hkeys _ hspared hin)
      · exact .inr hout

private theorem kept_step {e : Event Key} (hkept : s.Kept F) (hcareful : s.careful F e = true)
    (h : s.step F cfg e = some s') : s'.Kept F := by
  cases e with
  | begin i adder key comment => exact kept_begin hkept h
  | call i c => exact kept_call hkept hcareful h

end State

/-- Whatever the order of the calls of an account's redemptions and key additions, a key that one of
them reported as enrolled is in the file, or was taken out since the account was not created: as
long as no undo takes out a key that another of them has added or found. -/
theorem reported_key_kept {s₀ : State Key} {es : List (Event Key)} (hstart : s₀.Kept F)
    (hw : (machine F cfg).Within (fun s e ↦ s.careful F e = true) s₀ es)
    (hr : (machine F cfg).run s₀ es = some s) {i : Nat} {o : Addition Key} {pending : Bool}
    (hi : s.additions.lookup i = some o) (hreported : o.phase = .enrolled pending) :
    holds F s.file (F.fingerprint o.key) = true ∨ F.fingerprint o.key ∈ s.withdrawn := by
  have hkept : s.Kept F :=
    (machine F cfg).run_invariant _ (fun _ _ _ hk hok h ↦ State.kept_step hk hok h) hstart hw hr
  exact hkept i o hi (by rw [hreported]; rfl)

/-- The calls of an addition up to its check or report. -/
def adds (i : Nat) (adder : Adder) (key : Bool) (known : Bool) : List (Event Bool) :=
  [.begin i adder key "", .call i (.write {} (some known)), .call i (.await .ready)]

/-- A redemption up to the undo of a claim that was withdrawn. -/
def undoes (i : Nat) : List (Event Bool) :=
  [.call i (.check true), .call i (.commit true), .call i (.undo {} (some []))]

/-- The file, what the two operations came to, and what was withdrawn. -/
structure Seen where
  file : KeyFile
  phases : List Addition.Phase
  withdrawn : List String := []
  deriving DecidableEq

def seen (s : State Bool) : Seen where
  file := s.file
  phases := [0, 1].filterMap fun i ↦ (s.additions.lookup i).map (·.phase)
  withdrawn := s.withdrawn

/-- A redemption creates the account, a key is added to it, and the creation is undone: the file is
deleted with the added key. A redemption appends a key, another operation finds it there, and the
append is undone: the key that was found is taken out. -/
theorem reported_key_undone :
    ((machine twoKeys plainConfig).run {}
        (adds 0 .create true false ++ adds 1 .keyAdd false true ++ undoes 0)).map seen =
      some { file := none, phases := [.failed .withdrawn, .enrolled false] } ∧
    ((machine twoKeys plainConfig).run { file := some ["k2"] }
        (adds 0 .append true true ++ adds 1 .keyAdd true true ++ undoes 0)).map seen =
      some { file := some ["k2"], phases := [.failed .withdrawn, .enrolled false] } := by
  decide +kernel

/-- An append is undone after another key was added. -/
theorem reported_key_kept_appended :
    ∃ s, (machine twoKeys plainConfig).run {}
        (adds 0 .append true true ++ adds 1 .keyAdd false true ++ undoes 0) = some s ∧
      seen s = { file := some ["k2"], phases := [.failed .withdrawn, .enrolled false] } ∧
      (holds twoKeys s.file "f2" = true ∨ "f2" ∈ s.withdrawn) := by
  obtain ⟨s, hs, hseen, hone⟩ : ∃ s, (machine twoKeys plainConfig).run {}
      (adds 0 .append true true ++ adds 1 .keyAdd false true ++ undoes 0) = some s ∧
      seen s = { file := some ["k2"], phases := [.failed .withdrawn, .enrolled false] } ∧
      s.additions.lookup 1 = some ⟨.keyAdd, false, "", .enrolled false⟩ := by
    decide +kernel
  refine ⟨s, hs, hseen, ?_⟩
  have hstart : State.Kept twoKeys ({} : State Bool) := by
    intro i o hi
    cases hi
  exact reported_key_kept hstart (by decide +kernel) hs hone rfl

end RemoteDocker.Enrol.Undoing

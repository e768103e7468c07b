import RemoteDocker.Enrol.AllOrNothing

/-!
# Adding a key, call by call

A redemption past its `Consume` (`src/agent/internal/sshd/redeem.go:144-178`) and `keyAdd`
(`src/agent/internal/sshd/manage.go:383-415`) change an account's file one locked edit at a time.
Between two edits they wait for the account, look at the published keys and delete the token's
claim, and anybody else may edit the file. `enrolKey_eq_calls` says that the calls with nothing in
between are `enrolKey`.
-/

namespace RemoteDocker.Enrol

/-- What adds a key: the redemption of a token that creates the account, that of a token bound to
it, and `keyAdd`. -/
inductive Adder where
  | create
  | append
  | keyAdd
  deriving DecidableEq, Repr

/-- Why a key is not enrolled: an error, a key that does not authenticate, a claim that was
withdrawn. -/
inductive Failure where
  | err (e : Err)
  | notAuthorized
  | withdrawn
  deriving DecidableEq, Repr

inductive Addition.Phase where
  | writing
  /-- `awaitProvisioning`, of a key that was added or found. -/
  | waiting (added : Bool)
  /-- The edit of `awaitOrWithdraw`. -/
  | withdrawing
  /-- `stillAuthorized`. -/
  | checking (undo : Undo)
  /-- `Done`. -/
  | committing (undo : Undo) (pending : Bool)
  | undoing (undo : Undo) (why : Failure)
  | enrolled (pending : Bool)
  | failed (why : Failure)
  deriving DecidableEq, Repr

/-- The key is written, and is not being taken out again. -/
def Addition.Phase.standing : Addition.Phase → Bool
  | .waiting _ | .checking _ | .committing _ _ | .enrolled _ => true
  | .writing | .withdrawing | .undoing _ _ | .failed _ => false

inductive Addition.Call where
  | write (env : EditEnv) (known : Option Bool)
  | await (a : Await)
  | withdraw (env : EditEnv)
  | check (authorized : Bool)
  | commit (withdrawn : Bool)
  | undo (env : EditEnv) (operatorFiles : Option (List (Option (List String))))
  deriving DecidableEq, Repr

structure Addition (Key : Type) where
  adder : Adder
  key : Key
  comment : String := ""
  phase : Addition.Phase := .writing
  deriving DecidableEq, Repr

/-- The undo takes out the first key and leaves the second. -/
def Undo.spares (undo : Undo) (fp fp' : String) : Bool :=
  match undo with
  | .nothing => true
  | .removeKey => fp' != fp
  | .removeAccountFile => false

namespace Addition

section

variable {Key : Type} (F : KeyFormat Key) (cfg : Config) (o : Addition Key)

/-- The edit of `AppendKey`. -/
def append (env : EditEnv) (file : KeyFile) : KeyFile × Phase :=
  match edit cfg env (appendLine F env o.key o.comment) file with
  | (file, .error e) => (file, .failed (.err e))
  | (file, .ok added) => (file, .waiting added)

/-- The edit that adds the key. `known` is what `Known` answers: to `CreateAccount` under the
file's lock, to the redemption of a bound token before it. -/
def write (env : EditEnv) (known : Option Bool) (file : KeyFile) : KeyFile × Phase :=
  match o.adder with
  | .create =>
    match edit cfg env (createFile F env known o.key o.comment) file with
    | (file, .error e) => (file, .failed (.err e))
    | (file, .ok ()) => (file, .waiting true)
  | .append =>
    match known with
    | none => (file, .failed (.err .known))
    | some _ => o.append F cfg env file
  | .keyAdd => o.append F cfg env file

def undo (added : Bool) : Undo :=
  match o.adder with
  | .create => .removeAccountFile
  | .append | .keyAdd => if added then .removeKey else .nothing

def await (added : Bool) : Await → Phase
  | .ready =>
    match o.adder with
    | .create | .append => .checking (o.undo added)
    | .keyAdd => .enrolled false
  | .waiting =>
    match o.adder with
    | .create | .append => .committing (o.undo added) true
    | .keyAdd => .enrolled true
  | .never => if added then .withdrawing else .failed (.err .notProvisioned)

def next (c : Call) (file : KeyFile) : Option (KeyFile × Phase) :=
  match o.phase, c with
  | .writing, .write env known => some (o.write F cfg env known file)
  | .waiting added, .await a => some (file, o.await added a)
  | .withdrawing, .withdraw env =>
    some ((edit cfg env (removeKeyLine F env (F.fingerprint o.key)) file).1,
      .failed (.err .notProvisioned))
  | .checking undo, .check authorized =>
    some (file, if authorized then .committing undo false else .undoing undo .notAuthorized)
  | .committing undo pending, .commit withdrawn =>
    some (file, if withdrawn then .undoing undo .withdrawn else .enrolled pending)
  | .undoing undo why, .undo env operatorFiles =>
    some (undo.takeOut F cfg env operatorFiles o.key file, .failed why)
  | _, _ => none

/-- The addition after a call, where that is the one it makes next. -/
def advance (at_ : KeyFile × Addition Key) (c : Call) : KeyFile × Addition Key :=
  match at_.2.next F cfg c at_.1 with
  | some (file, phase) => (file, { at_.2 with phase })
  | none => at_

end

end Addition

section

variable {Key : Type} {F : KeyFormat Key} {cfg : Config}

def Redemption.addition (r : Redemption Key) (create : Bool) : Addition Key where
  adder := if create then .create else .append
  key := r.key
  comment := r.comment

/-- What `redeem` does with what `enrolKey` returned. -/
def Enrolled.phase (e : Enrolled) : Addition.Phase :=
  match e.err with
  | none => .checking e.undo
  | some .provisioning => .committing e.undo true
  | some err => .failed (.err err)

/-- The calls up to the end of `enrolKey`, one after another. -/
def Redemption.enrolCalls (F : KeyFormat Key) (cfg : Config) (r : Redemption Key) (create : Bool)
    (file : KeyFile) : KeyFile × Addition.Phase :=
  let calls := [.write r.edit (if create then r.knownLocked else r.known), .await r.await,
    .withdraw r.withdraw]
  let (file, o) := calls.foldl (Addition.advance F cfg) (file, r.addition create)
  (file, o.phase)

private theorem ne_provisioning_of_edit {α : Type} {env : EditEnv}
    {change : KeyFile → Except Err (KeyFile × α)} {file file' : KeyFile} {e : Err}
    (hchange : change file ≠ .error .provisioning)
    (h : edit cfg env change file = (file', .error e)) : e ≠ .provisioning := by
  rintro rfl
  unfold edit at h
  split at h
  · cases h
  · split at h
    · cases h
    · split at h
      · rename_i err herr
        cases h
        exact hchange herr
      · split at h <;> cases h

private theorem Enrolled.phase_of_ne {e : Enrolled} {err : Err} (herr : e.err = some err)
    (hne : err ≠ .provisioning) : e.phase = .failed (.err err) := by
  unfold Enrolled.phase
  rw [herr]
  cases err <;> first | rfl | exact absurd rfl hne

private theorem appendLine_ne_provisioning (env : EditEnv) (key : Key) (comment : String)
    (file : KeyFile) : appendLine F env key comment file ≠ .error .provisioning := by
  intro h
  have happends := appends_appendLine (F := F) env key comment file
  rw [h] at happends
  cases happends with
  | failed e hne => exact hne rfl

private theorem createFile_ne_provisioning (env : EditEnv) (known : Option Bool) (key : Key)
    (comment : String) (file : KeyFile) :
    createFile F env known key comment file ≠ .error .provisioning := by
  intro h
  have hcreates := creates_createFile (F := F) env known key comment file
  rw [h] at hcreates
  cases hcreates with
  | failed e hne => exact hne rfl

section

variable {r : Redemption Key} {create : Bool} {file written : KeyFile}

private theorem advance_write {phase : Addition.Phase}
    (hwrite : (r.addition create).write F cfg r.edit (if create then r.knownLocked else r.known)
      file = (written, phase)) :
    Addition.advance F cfg (file, r.addition create)
        (.write r.edit (if create then r.knownLocked else r.known)) =
      (written, { r.addition create with phase }) := by
  simp only [Addition.advance, Addition.next, Redemption.addition] at hwrite ⊢
  rw [hwrite]

private theorem enrolCalls_of_failed {why : Failure}
    (hwrite : (r.addition create).write F cfg r.edit (if create then r.knownLocked else r.known)
      file = (written, .failed why)) :
    r.enrolCalls F cfg create file = (written, .failed why) := by
  simp only [Redemption.enrolCalls, List.foldl_cons, List.foldl_nil, advance_write hwrite]
  rfl

private theorem enrolCalls_of_waiting {added : Bool}
    (hwrite : (r.addition create).write F cfg r.edit (if create then r.knownLocked else r.known)
      file = (written, .waiting added)) :
    r.enrolCalls F cfg create file =
      match (r.addition create).await added r.await with
      | .withdrawing =>
        ((edit cfg r.withdraw (removeKeyLine F r.withdraw (F.fingerprint r.key)) written).1,
          .failed (.err .notProvisioned))
      | phase => (written, phase) := by
  simp only [Redemption.enrolCalls, List.foldl_cons, List.foldl_nil, advance_write hwrite]
  cases create <;> cases r.await <;> cases added <;> rfl

end

private theorem enrolCalls_create (r : Redemption Key) (file : KeyFile) :
    r.enrolCalls F cfg true file =
        ((enrolKey F cfg true r file).file, (enrolKey F cfg true r file).phase) ∧
      (enrolKey F cfg true r file).created = (enrolKey F cfg true r file).phase.standing := by
  rcases hedit : edit cfg r.edit (createFile F r.edit r.knownLocked r.key r.comment) file with
    ⟨written, e | _⟩
  · have hne := ne_provisioning_of_edit
      (createFile_ne_provisioning r.edit r.knownLocked r.key r.comment file) hedit
    have hkey : enrolKey F cfg true r file = { file := written, err := some e } := by
      simp [enrolKey, createAccount, hedit, hne]
    have hwrite : (r.addition true).write F cfg r.edit r.knownLocked file =
        (written, .failed (.err e)) := by
      simp only [Redemption.addition, Addition.write, if_true, hedit]
    rw [hkey, Enrolled.phase_of_ne rfl hne, enrolCalls_of_failed hwrite]
    exact ⟨rfl, rfl⟩
  · have hwrite : (r.addition true).write F cfg r.edit r.knownLocked file =
        (written, .waiting true) := by
      simp only [Redemption.addition, Addition.write, if_true, hedit]
    rw [enrolCalls_of_waiting hwrite]
    simp only [enrolKey, createAccount, hedit, if_true]
    cases r.await <;> exact ⟨rfl, rfl⟩

private theorem enrolCalls_append (r : Redemption Key) (file : KeyFile) :
    r.enrolCalls F cfg false file =
        ((enrolKey F cfg false r file).file, (enrolKey F cfg false r file).phase) ∧
      (enrolKey F cfg false r file).created =
        ((enrolKey F cfg false r file).phase.standing && r.known == some false) := by
  cases hknown : r.known with
  | none =>
    have hwrite : (r.addition false).write F cfg r.edit r.known file =
        (file, .failed (.err .known)) := by
      rw [hknown]
      rfl
    rw [enrolCalls_of_failed hwrite]
    simp only [Bool.false_eq_true, if_false, enrolKey, hknown]
    exact ⟨rfl, rfl⟩
  | some known =>
    rcases hedit : edit cfg r.edit (appendLine F r.edit r.key r.comment) file with
      ⟨written, e | added⟩
    · have hne := ne_provisioning_of_edit
        (appendLine_ne_provisioning r.edit r.key r.comment file) hedit
      have hkey : enrolKey F cfg false r file = { file := written, err := some e } := by
        simp [enrolKey, hknown, appendKey, hedit, hne]
      have hwrite : (r.addition false).write F cfg r.edit r.known file =
          (written, .failed (.err e)) := by
        rw [hknown]
        simp only [Redemption.addition, Addition.write, Addition.append, Bool.false_eq_true,
          if_false, hedit]
      rw [hkey, Enrolled.phase_of_ne rfl hne, enrolCalls_of_failed hwrite]
      exact ⟨rfl, rfl⟩
    · have hwrite : (r.addition false).write F cfg r.edit r.known file =
          (written, .waiting added) := by
        rw [hknown]
        simp only [Redemption.addition, Addition.write, Addition.append, Bool.false_eq_true,
          if_false, hedit]
      rw [enrolCalls_of_waiting hwrite]
      simp only [Bool.false_eq_true, if_false, enrolKey, hknown, appendKey, hedit]
      cases added <;> cases r.await <;> cases known <;> exact ⟨rfl, rfl⟩

/-- `enrolKey` here is its calls with nothing in between, and it says that it created the account
where the key is enrolled and the account was not known. -/
theorem enrolKey_eq_calls (r : Redemption Key) (create : Bool) (file : KeyFile) :
    ((enrolKey F cfg create r file).file, (enrolKey F cfg create r file).phase) =
        r.enrolCalls F cfg create file ∧
      (enrolKey F cfg create r file).created =
        ((enrolKey F cfg create r file).phase.standing && (create || r.known == some false)) := by
  cases create with
  | true =>
    rw [Bool.true_or, Bool.and_true]
    exact ⟨(enrolCalls_create r file).1.symm, (enrolCalls_create r file).2⟩
  | false =>
    rw [Bool.false_or]
    exact ⟨(enrolCalls_append r file).1.symm, (enrolCalls_append r file).2⟩

private theorem holds_takeOut {undo : Undo} {env : EditEnv}
    {operatorFiles : Option (List (Option (List String)))} {key : Key} {fp : String}
    {file : KeyFile} (hspares : undo.spares (F.fingerprint key) fp = true)
    (hin : holds F file fp = true) :
    holds F (undo.takeOut F cfg env operatorFiles key file) fp = true := by
  cases undo with
  | nothing => exact hin
  | removeKey => exact holds_removeKey_ne cfg env operatorFiles (bne_iff_ne.mp hspares) hin
  | removeAccountFile => cases hspares

namespace Addition

variable {o : Addition Key}

private theorem holds_append {env : EditEnv} {file : KeyFile} {fp : String}
    (hin : holds F file fp = true ∨
      (o.append F cfg env file).2.standing = true ∧ fp = F.fingerprint o.key) :
    holds F (o.append F cfg env file).1 fp = true := by
  unfold append at hin ⊢
  generalize hedit : edit cfg env (appendLine F env o.key o.comment) file = out at hin ⊢
  obtain ⟨written, result⟩ := out
  cases result with
  | ok added => exact holds_appendLine (change_of_edit hedit) (hin.imp_right And.right)
  | error e =>
    rcases hin with hin | ⟨hstanding, -⟩
    · rcases edit_file cfg env (appendLine F env o.key o.comment) file with h | ⟨a, h⟩
      · rw [hedit] at h
        rw [h]
        exact hin
      · rw [hedit] at h
        exact holds_appendLine h (.inl hin)
    · cases hstanding

private theorem holds_write (env : EditEnv) (known : Option Bool) (file : KeyFile) {fp : String}
    (hin : holds F file fp = true ∨
      (o.write F cfg env known file).2.standing = true ∧ fp = F.fingerprint o.key) :
    holds F (o.write F cfg env known file).1 fp = true := by
  unfold write at hin ⊢
  cases hadder : o.adder with
  | create =>
    rw [hadder] at hin
    dsimp only at hin ⊢
    generalize hedit : edit cfg env (createFile F env known o.key o.comment) file = out at hin ⊢
    obtain ⟨written, result⟩ := out
    cases result with
    | ok _ => exact holds_createFile (change_of_edit hedit) (hin.imp_right And.right)
    | error e =>
      rcases hin with hin | ⟨hstanding, -⟩
      · rcases edit_file cfg env (createFile F env known o.key o.comment) file with h | ⟨a, h⟩
        · rw [hedit] at h
          rw [h]
          exact hin
        · rw [hedit] at h
          exact holds_createFile h (.inl hin)
      · cases hstanding
  | append =>
    rw [hadder] at hin
    cases known with
    | none => exact hin.elim id fun h ↦ by cases h.1
    | some _ => exact holds_append hin
  | keyAdd =>
    rw [hadder] at hin
    exact holds_append hin

inductive Effect (F : KeyFormat Key) (o : Addition Key) (file file' : KeyFile) (phase : Phase) :
    Prop
  | wrote (hphase : o.phase = .writing)
      (hkeys : ∀ fp, holds F file fp = true ∨
        phase.standing = true ∧ fp = F.fingerprint o.key → holds F file' fp = true)
  | stayed (hphase : o.phase.standing = true) (hfile : file' = file)
  | withdrew (hphase : o.phase = .withdrawing) (hends : phase.standing = false)
      (hkeys : ∀ fp, fp ≠ F.fingerprint o.key → holds F file fp = true → holds F file' fp = true)
  | undid (undo : Undo) (why : Failure) (hphase : o.phase = .undoing undo why)
      (hends : phase.standing = false)
      (hkeys : ∀ fp, undo.spares (F.fingerprint o.key) fp = true → holds F file fp = true →
        holds F file' fp = true)

theorem next_effect {c : Call} {file file' : KeyFile} {phase : Phase}
    (h : o.next F cfg c file = some (file', phase)) : Effect F o file file' phase := by
  unfold next at h
  split at h
  · next env known hphase =>
    have hwrite := Option.some.inj h
    refine .wrote hphase ?_
    intro fp hin
    have hholds : holds F (o.write F cfg env known file).1 fp = true := by
      apply holds_write
      rw [hwrite]
      exact hin
    rw [hwrite] at hholds
    exact hholds
  · next added a hphase =>
    cases h
    exact .stayed (by rw [hphase]; rfl) rfl
  · next env hphase =>
    cases h
    exact .withdrew hphase rfl fun fp hne hin ↦ holds_edit_removeKeyLine_ne cfg env hne hin
  · next undo authorized hphase =>
    cases h
    exact .stayed (by rw [hphase]; rfl) rfl
  · next undo pending withdrawn hphase =>
    cases h
    exact .stayed (by rw [hphase]; rfl) rfl
  · next undo why env operatorFiles hphase =>
    cases h
    exact .undid undo why hphase rfl fun fp hspares hin ↦ holds_takeOut hspares hin
  · cases h

end Addition

end

end RemoteDocker.Enrol

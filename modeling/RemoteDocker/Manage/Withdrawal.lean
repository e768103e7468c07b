import RemoteDocker.Base.Table
import RemoteDocker.Enrol.Addition

/-!
# Removing an account that has tokens

`userRemove` withdraws the tokens bound to an account before it deletes the account's file
(`src/agent/internal/sshd/manage.go:292-307`): `List` reads the names in the token directory and
then each file, and each token of the account is given to `Revoke`
(`src/core-agent/tokens/tokens.go:131-198`). Redemptions go on meanwhile, and rename their token's
file when they claim it and when they put it back. Here every system call on the token directory and
every edit of the account's file is a step.

What a listing answers, what fails and what the wait for an account comes to are inputs. So is what
else happens: tokens are minted, token files are removed by a `Revoke` or a `Sweep` of somebody
else, and others change the account's file as they like.
-/

namespace RemoteDocker.Manage.Withdrawal

open Base Enrol

variable {Key : Type}

/-- What the workspace is set up with, and the account that is removed. -/
structure Setting (Key : Type) where
  sha256 : String → List UInt8
  format : KeyFormat Key
  config : Enrol.Config
  target : String

/-- Where a redemption is: at its `Consume`, at what adds its key, at its `Restore`, or at its
end. -/
inductive Stage where
  | taking (call : Tokens.Call)
  | adding (phase : Addition.Phase)
  | restoring
  | ended (enrolled : Bool)
  deriving DecidableEq, Repr

/-- A token is put back when its key could not be enrolled, unless it was withdrawn. -/
def Stage.after : Addition.Phase → Stage
  | .enrolled _ => .ended true
  | .failed .withdrawn => .ended false
  | .failed _ => .restoring
  | phase => .adding phase

/-- A redemption past its `Check`. -/
structure Redeeming (Key : Type) where
  claim : Tokens.Claim
  key : Key
  comment : String
  stage : Stage
  deriving DecidableEq, Repr

/-- Where `userRemove` is. -/
inductive Removal where
  | idle
  /-- Before `List` reads the directory. -/
  | asked
  /-- `List`: the names to read, and the tokens read with their ids. -/
  | reading (todo : List Tokens.Name) (found : List (String × Tokens.Token))
  /-- Between two calls of `Revoke`. -/
  | revoking (todo : List String)
  /-- In a `Revoke`. -/
  | withdrawing (id : String) (call : Tokens.Call) (todo : List String)
  /-- Before `RemoveAccountFile`. -/
  | removing
  | removed
  | failed (e : Err)
  deriving DecidableEq, Repr

structure State (Key : Type) where
  tokens : Tokens.Files
  file : KeyFile := none
  redemptions : AList fun _ : Nat ↦ Redeeming Key := ∅
  removal : Removal := .idle
  /-- A record of every token minted, by its id. -/
  minted : AList fun _ : String ↦ Tokens.Token
  /-- A record of the ids minted when `userRemove` started. -/
  before : List String := []
  /-- A record of the redemption that added a key to the file, by the key's fingerprint. -/
  writer : AList fun _ : String ↦ Nat := ∅

inductive Event (Key : Type) where
  | mint (id : String) (t : Tokens.Token)
  | vanish (name : Tokens.Name)
  | other (file : KeyFile)
  | redeem (i : Nat) (claim : Tokens.Claim) (secret : String) (key : Key) (comment : String)
      (now : Int)
  | take (i : Nat) (now : Int) (fails : Bool)
  | add (i : Nat) (c : Addition.Call)
  | done (i : Nat) (fails : Bool)
  | restore (i : Nat) (fails : Bool)
  | ask
  | list (names : List Tokens.Name) (fails : Bool)
  | read (fails : Bool)
  | revoke (id : String)
  | revokeNext (now : Int) (fails : Bool) (listing : List Tokens.Name)
  | revoked
  | remove (env : EditEnv) (operatorFiles : Option (List (Option (List String))))

namespace State

variable (w : Setting Key) (s : State Key)

/-- Somebody changes the file: the keys that appear by it are no redemption's. -/
def setFile (file : KeyFile) : State Key :=
  { s with file, writer := restrict s.writer (holds w.format s.file) }

/-- Redemption `i` changes the file: its key is its own if it was not there. -/
def setFileBy (i : Nat) (fp : String) (file : KeyFile) : State Key :=
  let kept := restrict s.writer (holds w.format s.file)
  { s with file, writer := if holds w.format s.file fp then kept else kept.insert fp i }

/-- The file holds the key, and redemption `i` added it. -/
def left (i : Nat) (fp : String) : Bool :=
  holds w.format s.file fp && s.writer.lookup fp == some i

def goto (i : Nat) (r : Redeeming Key) (stage : Stage) : State Key :=
  { s with redemptions := s.redemptions.insert i { r with stage } }

/-- `Check`, of a token bound to the account. -/
def redeem (i : Nat) (claim : Tokens.Claim) (secret : String) (key : Key) (comment : String)
    (now : Int) : Option (State Key) :=
  if (s.redemptions.lookup i).isSome then none
  else
    match Tokens.check w.sha256 s.tokens claim.id secret now with
    | none => none
    | some t =>
      if t.account = w.target then
        let r := ⟨claim, key, comment, .taking (.consume claim secret)⟩
        some { s with redemptions := s.redemptions.insert i r }
      else none

/-- What a system call of `Consume` leads to. -/
def taken (p : Tokens.Progress) : Stage :=
  match p.call, p.outcome with
  | some call, _ => .taking call
  | none, some (.consumed _ _ _ _) => .adding .writing
  | none, _ => .ended false

/-- The next system call of `Consume`. -/
def take (i : Nat) (r : Redeeming Key) (now : Int) (fails : Bool) : Option (State Key) :=
  match r.stage with
  | .taking call =>
    let p := call.next w.sha256 s.tokens now fails []
    some ({ s with tokens := p.files }.goto i r (taken p))
  | _ => none

def call (i : Nat) (r : Redeeming Key) (c : Addition.Call) : Option (State Key) :=
  match r.stage with
  | .adding phase => do
    let o : Addition Key := { adder := .append, key := r.key, comment := r.comment, phase }
    let (file, phase) ← o.next w.format w.config c s.file
    some ((s.setFileBy w i (w.format.fingerprint r.key) file).goto i r (Stage.after phase))
  | _ => none

/-- It fails with `ErrNotExist` where the claim is gone, and another error is only said. -/
def done (i : Nat) (r : Redeeming Key) (fails : Bool) : Option (State Key) :=
  if fails then s.call w i r (.commit false)
  else
    match Tokens.remove s.tokens r.claim.place with
    | none => s.call w i r (.commit true)
    | some tokens => { s with tokens }.call w i r (.commit false)

/-- `Restore`, whose error is ignored. -/
def restore (i : Nat) (r : Redeeming Key) (fails : Bool) : Option (State Key) :=
  match r.stage with
  | .restoring =>
    match if fails then none else Tokens.rename s.tokens r.claim.place r.claim.home with
    | none => some (s.goto i r (.ended false))
    | some tokens => some ({ s with tokens }.goto i r (.ended false))
  | _ => none

/-- `List` reads the next file it listed, or is at its end. -/
def readNext (fails : Bool) : Option (State Key) :=
  match s.removal with
  | .reading [] found =>
    some { s with
      removal := .revoking ((found.filter fun e ↦ e.2.account == w.target).map (·.1)) }
  | .reading (name :: todo) found =>
    if !Tokens.validID name.id || found.any fun e ↦ e.1 == name.id then
      some { s with removal := .reading todo found }
    else
      match if fails then none else s.tokens.lookup name with
      | none => some { s with removal := .reading todo found }
      | some t => some { s with removal := .reading todo ((name.id, t) :: found) }
  | _ => none

/-- The next system call of the `Revoke` under way, whose error is ignored. -/
def revokeNext (now : Int) (fails : Bool) (listing : List Tokens.Name) : Option (State Key) :=
  match s.removal with
  | .withdrawing id call todo =>
    let p := call.next w.sha256 s.tokens now fails listing
    some { s with
      tokens := p.files
      removal := match p.call with
        | some call => .withdrawing id call todo
        | none => .revoking todo }
  | _ => none

/-- `RemoveAccountFile`. -/
def remove (env : EditEnv) (operatorFiles : Option (List (Option (List String)))) :
    Option (State Key) :=
  match s.removal with
  | .removing =>
    match removeAccountFile w.config env operatorFiles s.file with
    | (file, .ok ()) => some { s.setFile w file with removal := .removed }
    | (file, .error e) => some { s.setFile w file with removal := .failed e }
  | _ => none

def step : Event Key → Option (State Key)
  | .mint id t =>
    -- The ids are random, and one that was minted before is taken not to come up again.
    if (s.minted.lookup id).isSome || !Tokens.validID id then none
    else some { s with tokens := s.tokens.insert (.token id) t, minted := s.minted.insert id t }
  | .vanish name => (Tokens.remove s.tokens name).map fun tokens ↦ { s with tokens }
  | .other file => some (s.setFile w file)
  | .redeem i claim secret key comment now => s.redeem w i claim secret key comment now
  | .take i now fails => (s.redemptions.lookup i).bind fun r ↦ s.take w i r now fails
  | .add i c =>
    match c with
    | .commit _ => none
    | c => (s.redemptions.lookup i).bind fun r ↦ s.call w i r c
  | .done i fails => (s.redemptions.lookup i).bind fun r ↦ s.done w i r fails
  | .restore i fails => (s.redemptions.lookup i).bind fun r ↦ s.restore i r fails
  | .ask =>
    if s.removal = .idle then
      some { s with removal := .asked, before := s.minted.entries.map (·.1) }
    else none
  | .list names fails =>
    if s.removal = .asked then
      some { s with removal := if fails then .removing else .reading names [] }
    else none
  | .read fails => s.readNext w fails
  | .revoke id =>
    match s.removal with
    | .revoking todo =>
      if id ∈ todo then
        some { s with removal := .withdrawing id (.revoke id) (todo.filter (· != id)) }
      else none
    | _ => none
  | .revokeNext now fails listing => s.revokeNext w now fails listing
  | .revoked => if s.removal = .revoking [] then some { s with removal := .removing } else none
  | .remove env operatorFiles => s.remove w env operatorFiles

end State

def machine (w : Setting Key) : Machine (State Key) (Event Key) where
  step := State.step w

/-- The token is neither one whose listed name is still to be read nor the one being revoked. -/
def Removal.spares (id : String) : Removal → Bool
  | .reading todo _ => todo.all fun name ↦ name.id != id
  | .withdrawing id' _ _ => id' != id
  | _ => true

/-- A system call of `Consume` that renames. -/
def Stage.renames : Stage → Bool
  | .taking (.consume _ _) | .taking (.putBack _) => true
  | _ => false

/-- The call does not fail half way: a write is re-read, and what takes the key out again is done,
which an operator's file with the key in it keeps from being done. -/
def finishes (F : KeyFormat Key) (key : Key) : Addition.Call → Bool
  | .write env _ => !env.rereadFails
  | .withdraw env => env.changes
  | .undo env operatorFiles =>
    env.changes && operatorFiles.any fun files ↦
      !files.any fun lines ↦ lines.any fun lines ↦ (withoutKey F lines (F.fingerprint key)).2
  | .await _ | .check _ | .commit _ => true

namespace State

variable (w : Setting Key) (s : State Key)

/-- No rename of a token comes between the removal's look at its name and what it does with it. -/
def mayRename (r : Redeeming Key) : Bool :=
  !s.before.contains r.claim.id || s.removal.spares r.claim.id

/-- What a redemption of an earlier token does to the file of the removed account does not fail
half way. -/
def mayCall (r : Redeeming Key) (c : Addition.Call) : Bool :=
  !(s.removal == .removed && s.before.contains r.claim.id) || finishes w.format r.key c

def careful : Event Key → Bool
  | .take i _ _ => (s.redemptions.lookup i).all fun r ↦ !r.stage.renames || s.mayRename r
  | .restore i _ => (s.redemptions.lookup i).all s.mayRename
  | .add i c => (s.redemptions.lookup i).all fun r ↦ s.mayCall w r c
  | .done i fails =>
    (s.redemptions.lookup i).all fun r ↦
      !(s.removal == .removed && s.before.contains r.claim.id) || !fails
  | .list names fails =>
    !fails && s.tokens.entries.all fun e ↦ e.2.account != w.target || names.contains e.1
  | .read fails => !fails
  | .revokeNext _ fails listing =>
    !fails &&
      match s.removal with
      | .withdrawing id (.listClaims _ _) _ =>
        s.tokens.entries.all fun e ↦ e.1.id != id || listing.contains e.1
      | _ => true
  | _ => true

end State

end RemoteDocker.Manage.Withdrawal

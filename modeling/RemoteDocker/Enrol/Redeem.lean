import RemoteDocker.Enrol.KeyFile
import RemoteDocker.Enrol.Tokens

/-!
# Redeeming a token

`Server.redeem` (`src/agent/internal/sshd/redeem.go:109-178`) claims the token, enrols the key of
the connection, and deletes the claim; where the key could not be enrolled it puts the token
back, and where the claim was withdrawn it takes the key out again.

`enrolKey` returns no way to take the key out when the write returns an error, and a write
returns one too when the accounts were not re-read after it: the token is put back and the key
stays (`two_keys_of_one_token`). `redeem_all_or_nothing_iff` says that this is the only way a
redemption that can undo what it did ends half done.
-/

namespace RemoteDocker.Enrol

open Base

inductive Code where
  | refused
  | name
  | storage
  | busy
  | failed
  deriving DecidableEq, Repr

/-- `enrol.Error`. -/
structure Refusal where
  code : Code
  msg : String
  fix : String := ""
  deriving DecidableEq, Repr

/-- `enrol.Refused`. -/
def refusedToken : Refusal where
  code := .refused
  msg := "the workspace refused the token: it is unknown, used or expired"
  fix := "ask for a new one"

def nameTaken (name : String) : Refusal where
  code := .name
  msg := "the account " ++ name ++ " already exists"
  fix := "choose another name with --user, or ask for a token for " ++ name

def cannotStore (dir : String) : Refusal where
  code := .storage
  msg := "this workspace cannot store keys: " ++ dir ++ " is read-only"
  fix := "point WORKSPACE_ENROLLED_KEYS_DIR at a writable directory"

def tooManyAttempts : Refusal where
  code := .busy
  msg := "the workspace is refusing tokens for now: too many failed attempts"
  fix := "try again in a minute"

def couldNotEnrol : Refusal where
  code := .failed
  msg := "the workspace could not enrol the key; its log says why"

/-- `enrol.RedeemReply` without an error. -/
structure Reply where
  account : String
  created : Bool
  pending : Bool
  deriving DecidableEq, Repr

/-- A redemption: what the redeemer presents, and what each step meets. -/
structure Redemption (Key : Type) where
  id : String
  secret : String
  key : Key
  asked : String := ""
  comment : String := ""
  /-- `limiter.Allow`, and a probe of the enrolled directory that can be written. -/
  allowed : Bool := true
  writable : Bool := true
  /-- The clock at `Check` and at `Consume`, and what else is in the claim's name. -/
  checkNow : Int
  consumeNow : Int
  nonce : String := ""
  /-- The rename of `Consume`, its read of what it claimed, or its `Restore` of that fails. -/
  takeFails : Bool := false
  readFails : Bool := false
  returnFails : Bool := false
  /-- What `Known` answers for the name asked for, in `enrolKey`, and under the file's lock. -/
  knownAsked : Option Bool := some false
  known : Option Bool := some true
  knownLocked : Option Bool := some false
  edit : EditEnv := {}
  await : Await := .ready
  withdraw : EditEnv := {}
  /-- `stillAuthorized` of the key once it is written. -/
  authorized : Bool := true
  /-- The claim is revoked or swept before `Done`, or `Done` fails in another way. -/
  withdrawn : Bool := false
  doneFails : Bool := false
  undo : EditEnv := {}
  operatorFiles : Option (List (Option (List String))) := some []
  restoreFails : Bool := false

def Redemption.claim {Key : Type} (r : Redemption Key) : Tokens.Claim :=
  ⟨r.id, r.consumeNow, r.nonce⟩

structure World where
  tokens : Tokens.Files
  enrolled : AList fun _ : String ↦ List String

def World.write (w : World) (name : String) (file : KeyFile) : World where
  tokens := w.tokens
  enrolled := match file with
    | some lines => w.enrolled.insert name lines
    | none => w.enrolled.erase name

def reservedNames : List String :=
  ["root", "admin", "administrator", "nobody", "operator", "docker", "workspace"]

def redeemName (cfg : Config) (bound asked : String) (known : Option Bool) :
    Except Refusal (String × Bool) := do
  let asked ←
    if asked != "" then
      match cfg.accountName asked with
      | .error msg => .error { code := .name, msg, fix := "choose another name with --user" }
      | .ok name => .ok name
    else .ok asked
  if bound != "" then
    if asked != "" && asked != bound then
      .error { code := .name, msg := "this token is for account " ++ bound ++ ", not " ++ asked
               fix := "leave out --user, or use --user " ++ bound }
    else .ok (bound, false)
  else if asked == "" then
    .error { code := .name, msg := "this token creates a new account, and no name was given"
             fix := "name it with --user" }
  else if reservedNames.contains asked || cfg.admins asked then
    .error { code := .name, msg := "the name " ++ asked ++ " is reserved"
             fix := "choose another name with --user" }
  else
    match known with
    | none =>
      .error
        { code := .failed, msg := "the workspace could not read its accounts; its log says why" }
    | some true => .error (nameTaken asked)
    | some false => .ok (asked, true)

inductive Undo where
  | nothing
  | removeKey
  | removeAccountFile
  deriving DecidableEq, Repr

structure Enrolled where
  file : KeyFile
  created : Bool := false
  undo : Undo := .nothing
  err : Option Err := none
  deriving DecidableEq

section

variable {Key : Type} (sha256 : String → List UInt8) (F : KeyFormat Key) (cfg : Config)

/-- `Consume` (`src/core-agent/tokens/tokens.go:242-268`): the directory after it, and whether it
gave out the claim. `now` is the clock when what was claimed is matched. -/
def consume (files : Tokens.Files) (c : Tokens.Claim) (secret : String) (now : Int)
    (takeFails readFails returnFails : Bool) : Tokens.Files × Bool :=
  if !Tokens.validID c.id then (files, false)
  else
    match if takeFails then none else Tokens.rename files c.home c.place with
    | none => (files, false)
    | some taken =>
      if (if readFails then none else taken.lookup c.place).any fun t ↦
          Tokens.matchesToken sha256 t secret now then
        (taken, true)
      else ((if returnFails then none else Tokens.rename taken c.place c.home).getD taken, false)

/-- `Consume` here is its system calls with nothing in between: the rename, the read of what was
claimed, and the rename back of what does not match, each at its own time and failing or not. -/
theorem consume_eq_calls (files : Tokens.Files) (c : Tokens.Claim) (secret : String)
    (takeNow now returnNow : Int) (takeFails readFails returnFails : Bool)
    (hvalid : Tokens.validID c.id = true) :
    consume sha256 files c secret now takeFails readFails returnFails =
      let claimed := (Tokens.Call.consume c secret).next sha256 files takeNow takeFails []
      match claimed.call with
      | none => (claimed.files, false)
      | some call =>
        let reread := call.next sha256 claimed.files now readFails []
        match reread.call with
        | none => (reread.files, true)
        | some call => ((call.next sha256 reread.files returnNow returnFails []).files, false) := by
  simp only [consume, hvalid, Bool.not_true, Bool.false_eq_true, if_false, Tokens.Call.next]
  cases if takeFails then none else Tokens.rename files c.home c.place with
  | none => rfl
  | some taken =>
    dsimp only
    cases if readFails then none else taken.lookup c.place with
    | none =>
      simp only [Option.any_none, Bool.false_eq_true, if_false]
      cases if returnFails then none else Tokens.rename taken c.place c.home <;> rfl
    | some t =>
      cases hmatches : Tokens.matchesToken sha256 t secret now with
      | true => simp only [Option.any_some, hmatches, if_true]
      | false =>
        simp only [Option.any_some, hmatches, Bool.false_eq_true, if_false]
        cases if returnFails then none else Tokens.rename taken c.place c.home <;> rfl

/-- What was claimed cannot be read or put back, and is left under the claim's name. -/
theorem consume_eq_calls_stranded :
    consume Tokens.charBytes (.singleton (.token "aaaaaaaa") ⟨"73", "", 100⟩) ⟨"aaaaaaaa", 1, "x"⟩
      "s" 3 false true true = (.singleton (.claim "aaaaaaaa" 1 "x") ⟨"73", "", 100⟩, false) :=
  (consume_eq_calls _ _ _ _ 2 _ 4 _ _ _ (by decide)).trans rfl

/-- `Server.enrolKey`, for an account whose file is `file` (`redeem.go:233-254`). -/
def enrolKey (create : Bool) (r : Redemption Key) (file : KeyFile) : Enrolled :=
  if create then
    let o := createAccount F cfg r.edit r.withdraw r.knownLocked r.await r.key r.comment file
    if o.err = none ∨ o.err = some .provisioning then
      { file := o.file, created := true, undo := .removeAccountFile, err := o.err }
    else { file := o.file, err := o.err }
  else
    match r.known with
    | none => { file, err := some .known }
    | some known =>
      let o := appendKey F cfg r.edit r.withdraw r.await r.key r.comment file
      if o.err = none ∨ o.err = some .provisioning then
        { file := o.file, created := !known, undo := if o.added then .removeKey else .nothing
          err := o.err }
      else { file := o.file, err := o.err }

/-- The function `enrolKey` returns, which takes the key out again. -/
def Undo.takeOut (undo : Undo) (env : EditEnv)
    (operatorFiles : Option (List (Option (List String)))) (key : Key) (file : KeyFile) : KeyFile :=
  match undo with
  | .nothing => file
  | .removeKey => (Enrol.removeKey F cfg env operatorFiles (F.fingerprint key) file).1
  | .removeAccountFile => (Enrol.removeAccountFile cfg env operatorFiles file).1

def runUndo (undo : Undo) (r : Redemption Key) (file : KeyFile) : KeyFile :=
  undo.takeOut F cfg r.undo r.operatorFiles r.key file

/-- `redeem` up to its `Consume`: the directory after it, and the account the key is for and
whether it must be new. -/
def takeToken (w : World) (r : Redemption Key) : Tokens.Files × Except Refusal (String × Bool) :=
  if !r.allowed then (w.tokens, .error tooManyAttempts)
  else if cfg.enrolledDir == "" || !r.writable then
    (w.tokens, .error (cannotStore cfg.enrolledDir))
  else
    match Tokens.check sha256 w.tokens r.id r.secret r.checkNow with
    | none => (w.tokens, .error refusedToken)
    | some tok =>
      match redeemName cfg tok.account r.asked r.knownAsked with
      | .error e => (w.tokens, .error e)
      | .ok target =>
        match consume sha256 w.tokens r.claim r.secret r.consumeNow r.takeFails r.readFails
            r.returnFails with
        | (files, false) => (files, .error refusedToken)
        | (files, true) => (files, .ok target)

/-- The end of `redeem` where the key is written: the claim is deleted, or the key taken out
again if it was withdrawn. A claim that cannot be deleted is only said. -/
def commit (w : World) (r : Redemption Key) (name account : String) (e : Enrolled)
    (pending : Bool) : World × Except Refusal Reply :=
  let files := if r.withdrawn then w.tokens.erase r.claim.place else w.tokens
  let reply := { account := name, created := e.created, pending }
  match Tokens.remove files r.claim.place with
  | none =>
    ({ w with tokens := files }.write account (runUndo F cfg e.undo r e.file), .error refusedToken)
  | some done =>
    ({ w with tokens := if r.doneFails then files else done }.write account e.file, .ok reply)

/-- The end of `redeem` where it fails: the token is put back. -/
def putBack (w : World) (r : Redemption Key) (name : String) (err : Option Err) :
    World × Except Refusal Reply :=
  let files :=
    if r.restoreFails then w.tokens
    else (Tokens.rename w.tokens r.claim.place r.claim.home).getD w.tokens
  ({ w with tokens := files },
    .error (if err = some .accountExists then nameTaken name else couldNotEnrol))

/-- `Server.redeem`. A name that does not fold is refused by the first thing `enrolKey` asks. -/
def redeem (w : World) (r : Redemption Key) : World × Except Refusal Reply :=
  match takeToken sha256 cfg w r with
  | (files, .error e) => ({ w with tokens := files }, .error e)
  | (files, .ok (name, create)) =>
    let w := { w with tokens := files }
    match cfg.accountName name with
    | .error msg => putBack w r name (some (.name msg))
    | .ok account =>
      let e := enrolKey F cfg create r (w.enrolled.lookup account)
      if e.err = some .provisioning then commit F cfg w r name account e true
      else if e.err = none then
        if r.authorized then commit F cfg w r name account e false
        else putBack (w.write account (runUndo F cfg e.undo r e.file)) r name none
      else putBack (w.write account e.file) r name e.err

end

end RemoteDocker.Enrol

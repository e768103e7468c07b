import Mathlib.Data.List.Dedup
import RemoteDocker.Base.Table
import RemoteDocker.Manage.Policy

/-!
# Removing keys and accounts

`key.rm` and `user.rm` (`src/agent/internal/sshd/manage.go`) look at the accounts last published,
one look at a time, decide on what they saw, and then change a file under that file's lock. Nothing
is held over both, and a sync publishes what it likes in between.

The operator's files are not written. What a sync publishes, what the daemon says of its containers
and what a change of a file meets are inputs. The tokens and the daemon of a removed account are not
part of this model.
-/

namespace RemoteDocker.Manage

open Base Enrol

variable {Key : Type}

/-- The configuration, with `WORKSPACE_ADMINS`. -/
structure Config where
  names : Enrol.Config
  admins : List String
  nodup : admins.Nodup
  adminOnlyTokens : Bool := false

/-- `KeySource`. -/
structure Source (Key : Type) where
  dir : String
  keys : List Key
  deriving DecidableEq, Repr

structure Account (Key : Type) where
  keys : List Key
  sources : List (Source Key)
  deriving DecidableEq, Repr

/-- `sessionAccount`. -/
structure Session where
  name : String
  fingerprint : String
  deriving DecidableEq, Repr

inductive Removal where
  | key (fingerprint : String) (force : Bool)
  | user (force : Bool)
  deriving DecidableEq, Repr

def Removal.op : Removal → Op
  | .key _ _ => .keyRemove
  | .user _ => .userRemove

/-- What a removal found out. -/
structure Facts where
  targetKeys : Nat
  otherAdmins : Nat
  operatorDir : String
  deriving DecidableEq, Repr

/-- Where a removal is: at its look at the target, at those at the admins, at the question whether
the daemon is idle, or at its write. -/
inductive Phase where
  | looking
  | counting (targetKeys : Nat) (todo : List String) (otherAdmins : Nat)
  | asking (f : Facts)
  | writing (f : Facts)
  | done (reply : Option Error)
  deriving DecidableEq, Repr

structure Request where
  caller : Session
  target : String
  removal : Removal
  phase : Phase := .looking
  deriving DecidableEq, Repr

namespace Request

variable (cfg : Config) (q : Request)

def checkFor (targetKeys otherAdmins : Nat) : Check where
  op := q.removal.op
  caller := q.caller.name
  admin := decide (q.caller.name ∈ cfg.admins)
  target := q.target
  targetAdmin := decide (q.target ∈ cfg.admins)
  targetKeys := targetKeys
  otherAdmins := otherAdmins
  adminOnlyTokens := cfg.adminOnlyTokens

/-- The check a removal is decided on last. -/
def check (f : Facts) : Check :=
  match q.removal with
  | .key fp force =>
    { q.checkFor cfg f.targetKeys f.otherAdmins with
      operatorDir := f.operatorDir
      keysLeft := f.targetKeys - 1
      connected := q.target == q.caller.name && fp == q.caller.fingerprint
      force }
  | .user _ => { q.checkFor cfg f.targetKeys f.otherAdmins with operatorDir := f.operatorDir }

end Request

/-- The last of the operator's directories that has what is asked for. -/
def operatorDir (cfg : Config) (sources : List (Source Key)) (has : Source Key → Bool) : String :=
  sources.foldl
  (fun dir src ↦ if src.dir ≠ cfg.names.enrolledDir ∧ has src then src.dir else dir) ""

def noAccount (name : String) : Error where
  code := .unknown
  msg := "no account " ++ name
  fix := "`remote user ls` lists them"

def noKey (name fp : String) : Error where
  code := .unknown
  msg := name ++ " has no key " ++ fp
  fix := "`remote key ls` lists them"

def cannotStore (cfg : Config) : Error :=
  let e := Enrol.cannotStore cfg.names.enrolledDir
  { code := .shared e.code, msg := e.msg, fix := e.fix }

/-- `writeError`; `what` and `file` are what an operator's file keeps. -/
def writeError (what file : String) : Err → Error
  | .operatorKey =>
    { code := .denied
      msg := what ++ " is in " ++ file ++ ", which this workspace does not write"
      fix := "remove it there, or from the chart's authorizedKeys" }
  | _ =>
    { code := .shared .failed, msg := "the workspace could not write its keys; its log says why" }

/-- The enrolled directory, the operator's, the accounts last published, and the removals. -/
structure State (Key : Type) where
  files : AList fun _ : String ↦ List String
  operator : AList fun _ : String ↦ List (String × List String)
  published : AList fun _ : String ↦ Account Key
  requests : AList fun _ : Nat ↦ Request := ∅

/-- What a write meets: whether the directory is writable, what `operatorFiles` answers and the file
it names, and how the change goes. -/
structure WriteEnv where
  writable : Bool := true
  operatorFiles : Option (List (Option (List String))) := some []
  operatorFile : String := ""
  edit : EditEnv := {}
  deriving DecidableEq, Repr

inductive Event (Key : Type) where
  | ask (r : Nat) (caller : Session) (account : String) (removal : Removal)
  | look (r : Nat)
  | count (r : Nat) (name : String)
  | settle (r : Nat)
  | running (r : Nat) (n : Int)
  | write (r : Nat) (env : WriteEnv)
  | publish (accounts : AList fun _ : String ↦ Account Key)

namespace State

variable (F : KeyFormat Key) (cfg : Config) (s : State Key)

def keysPublished (name : String) : Nat := ((s.published.lookup name).map (·.keys.length)).getD 0

def goto (r : Nat) (q : Request) (phase : Phase) : State Key :=
  { s with requests := s.requests.insert r { q with phase } }

/-- `operate`, of a removal. -/
def ask (r : Nat) (caller : Session) (account : String) (removal : Removal) : Option (State Key) :=
  if r ∈ s.requests then none
  else
    let q (target : String) : Request := { caller, target, removal }
    if account = "" then
      match removal with
      | .key _ _ => some (s.goto r (q caller.name) .looking)
      | .user _ =>
        some (s.goto r (q caller.name)
          (.done (some { code := .shared .name, msg := "name the account to remove" })))
    else
      match cfg.names.accountName account with
      | .error msg => some (s.goto r (q "") (.done (some { code := .shared .name, msg })))
      | .ok target => some (s.goto r (q target) .looking)

/-- `checkFor` looks at the target. -/
def look (r : Nat) (q : Request) : Option (State Key) :=
  match q.phase with
  | .looking => some (s.goto r q (.counting (s.keysPublished q.target) cfg.admins 0))
  | _ => none

/-- `checkFor` looks at an admin, in whatever order. -/
def count (r : Nat) (q : Request) (name : String) : Option (State Key) :=
  match q.phase with
  | .counting targetKeys todo otherAdmins =>
    if name ∈ todo then
      some (s.goto r q (.counting targetKeys (todo.erase name)
        (if name ≠ q.target ∧ s.keysPublished name > 0 then otherAdmins + 1 else otherAdmins)))
    else none
  | _ => none

/-- `userRemove` from its own look at the target to its decision. -/
def settleUser (q : Request) (targetKeys otherAdmins : Nat) (force : Bool) : Phase :=
  let account := s.published.lookup q.target
  let f : Facts :=
    { targetKeys, otherAdmins
      operatorDir := (account.map fun a ↦ operatorDir cfg a.sources fun _ ↦ true).getD "" }
  match authorize (q.check cfg f) with
  | some e => .done (some e)
  | none =>
    match account with
    | none => .done (some (noAccount q.target))
    | some _ => if force then .writing f else .asking f

/-- `keyRemove` from `checkFor` to its decision, the first one and the last. -/
def settleKey (q : Request) (targetKeys otherAdmins : Nat) (fp : String) : Phase :=
  match authorize { q.checkFor cfg targetKeys otherAdmins with keysLeft := targetKeys } with
  | some e => .done (some e)
  | none =>
    match s.published.lookup q.target with
    | none => .done (some (noKey q.target fp))
    | some a =>
      if a.keys.any fun k ↦ F.fingerprint k == fp then
        let f : Facts :=
          { targetKeys, otherAdmins
            operatorDir := operatorDir cfg a.sources fun src ↦
              src.keys.any fun k ↦ F.fingerprint k == fp }
        match authorize (q.check cfg f) with
        | some e => .done (some e)
        | none => .writing f
      else .done (some (noKey q.target fp))

def settle (r : Nat) (q : Request) : Option (State Key) :=
  match q.phase, q.removal with
  | .counting targetKeys [] otherAdmins, .user force =>
    some (s.goto r q (s.settleUser cfg q targetKeys otherAdmins force))
  | .counting targetKeys [] otherAdmins, .key fp _ =>
    some (s.goto r q (s.settleKey F cfg q targetKeys otherAdmins fp))
  | _, _ => none

def running (r : Nat) (q : Request) (n : Int) : Option (State Key) :=
  match q.phase with
  | .asking f =>
    let refuse (msg : String) : State Key :=
      s.goto r q (.done (some
        { code := .force, msg, fix := "add -f to remove " ++ q.target ++ " anyway" }))
    if n < 0 then
      some (refuse ("cannot tell whether " ++ q.target ++ "'s daemon is running containers"))
    else if n > 0 then
      some (refuse (q.target ++ "'s daemon is running " ++ toString n ++
        " container(s), and removing " ++ q.target ++ " stops them"))
    else some (s.goto r q (.writing f))
  | _ => none

def written (q : Request) (env : WriteEnv) : KeyFile × Option Error :=
  let file := s.files.lookup q.target
  match q.removal with
  | .key fp _ =>
    match removeKey F cfg.names env.edit env.operatorFiles fp file with
    | (file, .error e) => (file, some (writeError ("key " ++ fp) env.operatorFile e))
    | (file, .ok true) => (file, none)
    | (file, .ok false) =>
      (file, some { code := .unknown
                    msg := q.target ++ " has no key " ++ fp ++ " in " ++ cfg.names.enrolledDir })
  | .user _ =>
    match removeAccountFile cfg.names env.edit env.operatorFiles file with
    | (file, .error e) =>
      (file, some (writeError ("a key file for " ++ q.target) env.operatorFile e))
    | (file, .ok ()) => (file, none)

/-- The file of an account replaced, or deleted. -/
def setFile (name : String) (file : KeyFile) : AList fun _ : String ↦ List String :=
  match file with
  | some lines => s.files.insert name lines
  | none => s.files.erase name

/-- `RemoveKey` or `RemoveAccountFile`, under the file's lock. -/
def write (r : Nat) (q : Request) (env : WriteEnv) : Option (State Key) :=
  match q.phase with
  | .writing _ =>
    if env.writable then
      let (file, reply) := s.written F cfg q env
      some { s.goto r q (.done reply) with files := s.setFile q.target file }
    else some (s.goto r q (.done (some (cannotStore cfg))))
  | _ => none

def act : Event Key → Option (State Key)
  | .ask r caller account removal => s.ask cfg r caller account removal
  | .look r => (s.requests.lookup r).bind (s.look cfg r)
  | .count r name => (s.requests.lookup r).bind fun q ↦ s.count r q name
  | .settle r => (s.requests.lookup r).bind (s.settle F cfg r)
  | .running r n => (s.requests.lookup r).bind fun q ↦ s.running r q n
  | .write r env => (s.requests.lookup r).bind fun q ↦ s.write F cfg r q env
  | .publish published => some { s with published }

def lineKeys (lines : List String) : List String :=
  lines.filterMap fun line ↦ (F.parseKeyLine line).map F.fingerprint

/-- The keys an account is enrolled with, by the files. -/
def enrolledKeys (name : String) : List String :=
  (((s.operator.lookup name).getD []).flatMap (fun f ↦ lineKeys F f.2) ++
    lineKeys F ((s.files.lookup name).getD [])).dedup

def adminEnrolled : Bool := cfg.admins.any fun name ↦ !(s.enrolledKeys F name).isEmpty

def otherAdmins (target : String) : Nat :=
  (cfg.admins.filter fun name ↦ name != target && !(s.enrolledKeys F name).isEmpty).length

/-- A removal on an admin's account writes while what it counted is still so. -/
def careful : Event Key → Bool
  | .write r _ =>
    match s.requests.lookup r with
    | some { target, phase := .writing f, .. } =>
      decide (target ∈ cfg.admins →
        f.targetKeys = (s.enrolledKeys F target).length ∧
          f.otherAdmins = s.otherAdmins F cfg target)
    | _ => true
  | _ => true

end State

def machine (F : KeyFormat Key) (cfg : Config) : Machine (State Key) (Event Key) where
  step := State.act F cfg

end RemoteDocker.Manage

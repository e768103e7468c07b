import Mathlib.Tactic.SplitIfs
import RemoteDocker.Enrol.Redeem

/-!
# Who may manage what

`authorize` (`src/agent/internal/sshd/enrolpolicy.go`) decides an operation of account management on
the facts of a `Check`, and words the refusal. It is a pure function; where the facts come from is
`RemoteDocker.Manage.Removal`.
-/

namespace RemoteDocker.Manage

/-- The operations of `src/core/enrol/manage.go`. -/
inductive Op where
  | whoami
  | tokenCreate
  | tokenList
  | tokenRemove
  | userList
  | userRemove
  | keyList
  | keyAdd
  | keyRemove
  deriving DecidableEq, Repr

/-- The codes of account management, and those it shares with a redemption. -/
inductive Code where
  | shared (code : Enrol.Code)
  | denied
  | force
  | unknown
  deriving DecidableEq, Repr

structure Error where
  code : Code
  msg : String
  fix : String := ""
  deriving DecidableEq, Repr

structure Check where
  op : Op
  caller : String
  admin : Bool
  target : String
  targetAdmin : Bool
  targetKeys : Int := 0
  keysLeft : Int := 0
  otherAdmins : Int := 0
  operatorDir : String := ""
  liveTokens : Int := 0
  adminOnlyTokens : Bool := false
  connected : Bool := false
  force : Bool := false
  deriving DecidableEq, Repr

def denials : Op → String
  | .whoami => ""
  | .tokenCreate => "create a token for another account"
  | .tokenList => "list another account's tokens"
  | .tokenRemove => "remove another account's token"
  | .userList => "list the accounts"
  | .userRemove => "remove an account"
  | .keyList => "list another account's keys"
  | .keyAdd => "add a key to another account"
  | .keyRemove => "remove another account's key"

def maxSelfTokens : Int := 10

def denied (c : Check) : Error :=
  let what :=
    if c.op = .tokenCreate ∧ c.target = "" then "create a token for a new account"
    else denials c.op
  let fix :=
    if c.op = .tokenCreate then
      if c.target = "" then
        "ask an admin, or the operator: `remote-dockerd token create --unbound`"
      else
        "ask an admin, or the operator: `remote-dockerd token create --account " ++ c.target ++ "`"
    else "ask an admin"
  { code := .denied, msg := "only an admin can " ++ what ++ " (you are " ++ c.caller ++ ")", fix }

/-- The last admin with a key would be left without one. -/
def Check.lastAdmin (c : Check) : Bool :=
  c.targetAdmin && decide (c.targetKeys > 0) && decide (c.keysLeft = 0) &&
    decide (c.otherAdmins = 0)

/-- What `authorize` says of a removal whatever its kind. -/
def authorizeRemoval (c : Check) : Option Error :=
  if c.lastAdmin then
    some { code := .denied
           msg := c.target ++ " is the last admin with a key"
           fix := "enrol another admin first: name them in WORKSPACE_ADMINS and send them a token" }
  else if c.op = .keyRemove ∧ c.target = c.caller ∧ c.force = false then
    if c.connected then
      some { code := .force
             msg := "this is the key this machine is connected with, and removing it locks this " ++
               "machine out"
             fix := "add -f to remove it anyway" }
    else if c.keysLeft = 0 then
      some { code := .force
             msg := "this is your last key, and removing it locks you out"
             fix := "add -f to remove it anyway" }
    else none
  else none

/-- `authorize`: `none` is allowed. -/
def authorize (c : Check) : Option Error :=
  if c.op = .whoami then none
  else if c.admin = false ∧ ((c.op = .userList ∨ c.op = .userRemove) ∨ c.target ≠ c.caller) then
    some (denied c)
  else if c.op = .tokenCreate ∧ c.admin = false ∧ c.adminOnlyTokens then
    some { code := .denied
           msg := "this workspace lets only admins create tokens"
           fix := "ask an admin: `remote token create --account " ++ c.caller ++ "`" }
  else if c.op = .tokenCreate ∧ c.admin = false ∧ c.liveTokens ≥ maxSelfTokens then
    some { code := .denied
           msg := "you already have " ++ toString c.liveTokens ++ " unused tokens"
           fix := "remove one with `remote token rm <id>`, or wait for one to expire" }
  else
    match c.op with
    | .userRemove =>
      if c.target = c.caller then
        some { code := .denied
               msg := "an admin cannot remove their own account"
               fix := "ask another admin" }
      else if c.operatorDir ≠ "" then
        some { code := .denied
               msg := c.target ++ "'s keys are in " ++ c.operatorDir ++
                 ", which this workspace does not write"
               fix := "remove them there, or from the chart's authorizedKeys" }
      else authorizeRemoval c
    | .keyRemove =>
      if c.operatorDir ≠ "" then
        some { code := .denied
               msg := "that key is in " ++ c.operatorDir ++ ", which this workspace does not write"
               fix := "remove it there, or from the chart's authorizedKeys" }
      else authorizeRemoval c
    | _ => none

/-- A removal that is allowed is allowed as a removal: every earlier branch refuses. -/
theorem authorizeRemoval_of_authorize {c : Check} (hop : c.op = .userRemove ∨ c.op = .keyRemove)
    (h : authorize c = none) : authorizeRemoval c = none := by
  rcases hop with hop | hop
  · simp only [authorize, hop, reduceCtorEq, false_and, if_false] at h
    split_ifs at h
    exact h
  · simp only [authorize, hop, reduceCtorEq, false_and, if_false] at h
    split_ifs at h
    exact h

/-- A removal that is allowed leaves an admin with a key, as far as its check counted. -/
theorem lastAdmin_of_authorize {c : Check} (hop : c.op = .userRemove ∨ c.op = .keyRemove)
    (h : authorize c = none) : c.lastAdmin = false := by
  have hremoval := authorizeRemoval_of_authorize hop h
  unfold authorizeRemoval at hremoval
  split at hremoval
  · cases hremoval
  · rename_i hnot
    exact Bool.eq_false_iff.mpr hnot

end RemoteDocker.Manage

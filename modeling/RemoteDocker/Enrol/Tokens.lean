import Mathlib.Data.List.AList
import RemoteDocker.Base.Hex
import RemoteDocker.Base.Machine

/-!
# Enrolment tokens

A directory with one file a token (`src/core-agent/tokens/tokens.go`). A redemption claims its
token by renaming the file, and deletes the claim when it is done or renames it back. Every
agent that shares the directory works on it at once: a call here goes by one system call at a
time, in any interleaving with the others.

A name in the directory is a token's or a claim's, each with the id in it; ids have no dash
(`validID`), so the test of `Revoke` for a claim's name is a test of its id. A listing takes
many system calls, and may be any list of names.
-/

namespace RemoteDocker.Enrol.Tokens

open Base

/-- A stored token. Its times and what it is for (`Created`, `Creator`, `Note`) are not read by
what is modelled here. -/
structure Token where
  hash : String
  account : String := ""
  expires : Int
  deriving DecidableEq, Repr

/-- A name in the directory: `<id>.json`, or `.redeeming-<id>-<unixnano>-<rand>`. -/
inductive Name where
  | token (id : String)
  | claim (id : String) (time : Int) (nonce : String)
  deriving DecidableEq, Repr

/-- The token a name is of, `tokenID`. -/
def Name.id : Name → String
  | .token id => id
  | .claim id _ _ => id

/-- The name starts with `.redeeming-<id>-`. -/
def Name.isClaimOf (id : String) : Name → Bool
  | .token _ => false
  | .claim id' _ _ => id' == id

abbrev Files := AList fun _ : Name ↦ Token

def rename (files : Files) (old new : Name) : Option Files :=
  (files.lookup old).map fun t ↦ (files.erase old).insert new t

def remove (files : Files) (name : Name) : Option Files :=
  (files.lookup name).map fun _ ↦ files.erase name

/-- Eight bytes of base32, in which the decoder skips line breaks. -/
def validID (id : String) : Bool :=
  id.utf8ByteSize == 8 && id.toList.all fun c ↦
    c == '\r' || c == '\n' || "abcdefghijklmnopqrstuvwxyz234567".toList.contains c

/-- `claimStale`, ten minutes. -/
def claimStale : Int := 600 * 1000000000

/-- The token it is of, and what makes its name. -/
structure Claim where
  id : String
  time : Int
  nonce : String
  deriving DecidableEq, Repr

/-- `Claim.from`. -/
def Claim.home (c : Claim) : Name := .token c.id

/-- `Claim.at`. -/
def Claim.place (c : Claim) : Name := .claim c.id c.time c.nonce

section

variable (sha256 : String → List UInt8)

/-- What the file of a minted token holds of its secret. -/
def hash (secret : String) : String := Hex.encodeToString (sha256 secret)

/-- `Store.matches`, by an agent whose clock says `now`. -/
def matchesToken (t : Token) (secret : String) (now : Int) : Bool :=
  Hex.decodeString t.hash == some (sha256 secret) && decide (now < t.expires)

def check (files : Files) (id secret : String) (now : Int) : Option Token :=
  if validID id then
    (files.lookup (.token id)).filter fun t ↦ matchesToken sha256 t secret now
  else none

/-- A hash to evaluate with: the characters of the secret. -/
def charBytes (secret : String) : List UInt8 := secret.toList.map fun c ↦ c.toNat.toUInt8

/-- A directory of minted tokens: every token has one file, under its own name or a claim's,
with the hash of its secret in it. -/
structure Directory where
  files : Files
  secret : String → String
  hashed : ∀ name t, files.lookup name = some t → t.hash = hash sha256 (secret name.id)
  single : ∀ n m, n ∈ files → m ∈ files → n.id = m.id → n = m

end

inductive Call where
  /-- `Consume`, before its rename. -/
  | consume (c : Claim) (secret : String)
  /-- `Consume`, before it reads what it claimed. -/
  | reread (c : Claim) (secret : String)
  /-- `Consume`, before it restores what it cannot redeem. -/
  | putBack (c : Claim)
  /-- `Revoke`, before it removes the token. -/
  | revoke (id : String)
  /-- `Revoke`, before it lists the directory. -/
  | listClaims (id : String) (found : Bool)
  /-- `Revoke`, before it removes the claims it listed. -/
  | removeClaims (id : String) (found : Bool) (claims : List Name)
  /-- `Sweep`, before it lists the directory. -/
  | sweep
  /-- `Sweep`, before it looks at what it listed. -/
  | sweeping (names : List Name)
  /-- `Sweep`, before it removes a token that it read as expired. -/
  | sweepExpired (id : String) (names : List Name)
  deriving DecidableEq, Repr

inductive Outcome where
  /-- `Consume` gave out a claim of what it read, at `now` by its clock. -/
  | consumed (c : Claim) (t : Token) (secret : String) (now : Int)
  /-- `Done` returned nil. -/
  | redeemed (c : Claim)
  /-- `Revoke` returned nil. -/
  | revoked (id : String)
  deriving DecidableEq, Repr

/-- What a system call left: the files, what the call does next if it goes on, and what it came
to if that is one of the outcomes kept. -/
structure Progress where
  files : Files
  call : Option Call := none
  outcome : Option Outcome := none

/-- The next system call of a call. `fails` is an error other than that the name is not there,
`now` what the agent's clock says, and `listing` what a listing of the directory answers. -/
def Call.next (sha256 : String → List UInt8) (files : Files) (now : Int) (fails : Bool)
    (listing : List Name) : Call → Progress
  | .consume c secret =>
    match if fails then none else rename files c.home c.place with
    | none => { files }
    | some files => { files, call := some (.reread c secret) }
  | .reread c secret =>
    match if fails then none else files.lookup c.place with
    | none => { files, call := some (.putBack c) }
    | some t =>
      if matchesToken sha256 t secret now then
        { files, outcome := some (.consumed c t secret now) }
      else { files, call := some (.putBack c) }
  | .putBack c =>
    match if fails then none else rename files c.place c.home with
    | none => { files }
    | some files => { files }
  | .revoke id =>
    if fails then { files }
    else
      match remove files (.token id) with
      | some files => { files, call := some (.listClaims id true) }
      | none => { files, call := some (.listClaims id false) }
  | .listClaims id found =>
    if fails then { files }
    else { files, call := some (.removeClaims id found (listing.filter (·.isClaimOf id))) }
  | .removeClaims id found [] =>
    { files, outcome := if found then some (.revoked id) else none }
  | .removeClaims id found (name :: rest) =>
    if fails then { files }
    else
      match remove files name with
      | some files => { files, call := some (.removeClaims id true rest) }
      | none => { files, call := some (.removeClaims id found rest) }
  | .sweep => if fails then { files } else { files, call := some (.sweeping listing) }
  | .sweeping [] => { files }
  | .sweeping (.claim id time nonce :: rest) =>
    match
      if claimStale < now - time ∧ fails = false then remove files (.claim id time nonce) else none
    with
    | none => { files, call := some (.sweeping rest) }
    | some files => { files, call := some (.sweeping rest) }
  | .sweeping (.token id :: rest) =>
    match if validID id ∧ fails = false then files.lookup (.token id) else none with
    | none => { files, call := some (.sweeping rest) }
    | some t =>
      if now < t.expires then { files, call := some (.sweeping rest) }
      else { files, call := some (.sweepExpired id rest) }
  | .sweepExpired id rest =>
    match if fails then none else remove files (.token id) with
    | none => { files, call := some (.sweeping rest) }
    | some files => { files, call := some (.sweeping rest) }

/-- The directory, the calls under way by number, and what calls came to, latest first. -/
structure State where
  files : Files
  calls : AList fun _ : Nat ↦ Call := ∅
  log : List Outcome := []

/-- What can happen: a call begins or makes its next system call, or the holder of a claim calls
`Done` or `Restore` on it. -/
inductive Event where
  | consume (n : Nat) (c : Claim) (secret : String)
  | revoke (n : Nat) (id : String)
  | sweep (n : Nat)
  | next (n : Nat) (now : Int) (fails : Bool) (listing : List Name)
  | done (c : Claim) (fails : Bool)
  | restore (c : Claim) (fails : Bool)

namespace State

variable (s : State)

/-- A call begins under a number no call under way has. -/
def begin (n : Nat) (call : Call) : Option State :=
  if n ∈ s.calls then none else some { s with calls := s.calls.insert n call }

/-- `Consume` gave out the claim. -/
def gaveOut (c : Claim) : Bool :=
  s.log.any fun
    | .consumed c' _ _ _ => c' == c
    | _ => false

/-- What a system call of call `n` left. -/
def after (n : Nat) (p : Progress) : State where
  files := p.files
  calls := match p.call with
    | some call => s.calls.insert n call
    | none => s.calls.erase n
  log := p.outcome.toList ++ s.log

end State

def step (sha256 : String → List UInt8) (s : State) : Event → Option State
  | .consume n c secret => if validID c.id then s.begin n (.consume c secret) else some s
  | .revoke n id => if validID id then s.begin n (.revoke id) else some s
  | .sweep n => s.begin n .sweep
  | .next n now fails listing =>
    (s.calls.lookup n).map fun call ↦ s.after n (call.next sha256 s.files now fails listing)
  | .done c fails =>
    if s.gaveOut c then
      match if fails then none else remove s.files c.place with
      | none => some s
      | some files => some { s with files, log := .redeemed c :: s.log }
    else none
  | .restore c fails =>
    if s.gaveOut c then
      match if fails then none else rename s.files c.place c.home with
      | none => some s
      | some files => some { s with files }
    else none

def machine (sha256 : String → List UInt8) : Machine State Event where
  step := step sha256

/-- A directory of minted tokens that no call is at. -/
def start {sha256 : String → List UInt8} (d : Directory sha256) : State where
  files := d.files

end RemoteDocker.Enrol.Tokens

import Mathlib.Tactic.SplitIfs
import RemoteDocker.Base.Machine
import RemoteDocker.Base.Table

/-!
# The connection gate

`connGate` (`src/client/internal/session/gate.go`) holds one connection open while it is needed. A
request leases it, a sweep shuts it when it is idle, and whatever finds it dead drops it. Each of
them works in critical sections of one lock, and calls `shut` and asks `busy` without the lock.

A sweep that comes back from `busy` looks whether the gate holds a connection that is idle, and not
whether that is the one it asked about. When another has taken its place and has been idle for long
enough, the sweep drops the new one and shuts the old one again (`old_connection_shut_twice`). Where
the connection it finds is the one it asked about, every connection is shut once.
-/

namespace RemoteDocker.Client.Gate

open Base

/-- What a gate is made with: `idle`, where 0 or less never releases, and whether it has `alive`. -/
structure Settings where
  idle : Int
  checksAlive : Bool := true
  deriving DecidableEq, Repr

/-- Where a call is. Connections are numbered in the order they were opened. -/
inductive Proc where
  /-- `acquire`, at its `invalidate`. -/
  | acquiring
  /-- `acquire`, at its `shut` of a connection that had died. -/
  | replacing (c : Nat)
  /-- `acquire`, at its own section. -/
  | entering
  /-- `acquire` returned the connection, and its release has not run. -/
  | leased (c : Nat)
  | released
  /-- `open` failed. -/
  | refused
  /-- `sweep`, at its `invalidate`. -/
  | sweeping
  /-- `sweep`, at its `shut` of a connection that had died. -/
  | dropping (c : Nat)
  /-- `sweep`, at its first section. -/
  | checking
  /-- `sweep`, at `busy`. -/
  | asking (c : Nat)
  /-- `sweep`, at its second section. -/
  | rechecking (c : Nat)
  /-- `sweep`, at its `shut` of an idle connection. -/
  | releasing (c : Nat)
  | swept (did : Bool)
  /-- `close`, at its section. -/
  | closing
  /-- `close`, at its `shut`. -/
  | shutting (c : Nat)
  | closed
  deriving DecidableEq, Repr

def Proc.owes : Proc → Option Nat
  | .replacing c | .dropping c | .releasing c | .shutting c => some c
  | _ => none

def Proc.isLease : Proc → Bool
  | .leased _ => true
  | _ => false

/-- A call of `shut`: by which call, for what it was at, and of which connection. -/
structure Shut where
  caller : Nat
  at_ : Proc
  conn : Nat
  deriving DecidableEq, Repr

structure State where
  /-- How many connections were opened. -/
  opened : Nat := 0
  /-- `conn`, where `held`. -/
  conn : Option Nat := none
  lastUsed : Int := 0
  users : Int := 0
  now : Int := 0
  /-- The connections that have died. -/
  dead : List Nat := []
  procs : AList fun _ : Nat ↦ Proc := ∅
  /-- The calls of `shut` so far, latest first. -/
  shuts : List Shut := []
  /-- The sweeps that `busy` answered false, with the connection it was asked about. -/
  answers : List (Nat × Nat) := []

/-- What a call meets: `open` fails, `keep` of the connection, and what `busy` answers, `none` for
an error. -/
structure Env where
  openFails : Bool := false
  keep : Bool := false
  busy : Option Bool := some false
  deriving DecidableEq, Repr

inductive Event where
  | acquire (k : Nat)
  | sweep (k : Nat)
  | close (k : Nat)
  | next (k : Nat) (env : Env)
  | die (c : Nat)
  | pass (d : Nat)
  deriving DecidableEq, Repr

namespace State

variable (g : Settings) (s : State)

def goto (k : Nat) (p : Proc) : State := { s with procs := s.procs.insert k p }

def shut (k : Nat) (p : Proc) (c : Nat) : State := { s with shuts := ⟨k, p, c⟩ :: s.shuts }

def invalid : Option Nat :=
  if g.checksAlive then s.conn.filter fun c ↦ s.dead.contains c else none

/-- `invalidate`, and where a call goes with what it found. -/
def invalidate (k : Nat) (found : Nat → Proc) (none : Proc) : State :=
  match s.invalid g with
  | some c => { s with conn := .none }.goto k (found c)
  | .none => s.goto k none

def recent : Bool := decide (0 < s.users) || decide (s.now - s.lastUsed < g.idle)

/-- The own section of `acquire`. -/
def lease (k : Nat) (env : Env) : State :=
  match s.conn with
  | some c => { s with users := s.users + 1, lastUsed := s.now }.goto k (.leased c)
  | none =>
    if env.openFails then s.goto k .refused
    else
      { s with
        opened := s.opened + 1
        conn := some s.opened
        users := s.users + 1
        lastUsed := s.now }.goto k (.leased s.opened)

/-- The first section of `sweep`. -/
def check (k : Nat) (env : Env) : State :=
  match s.conn with
  | none => s.goto k (.swept false)
  | some c =>
    if g.idle ≤ 0 ∨ s.recent g = true ∨ env.keep = true then s.goto k (.swept false)
    else s.goto k (.asking c)

/-- `busy`, asked about a connection. -/
def ask (k c : Nat) (env : Env) : State :=
  if env.busy = some false then { s with answers := (k, c) :: s.answers }.goto k (.rechecking c)
  else s.goto k (.swept false)

/-- The second section of `sweep`, which asked about `c`. -/
def recheck (k c : Nat) : State :=
  if s.conn.isNone ∨ s.recent g = true then s.goto k (.swept false)
  else { s with conn := none }.goto k (.releasing c)

/-- The section of `close`. -/
def close (k : Nat) : State :=
  match s.conn with
  | none => s.goto k .closed
  | some c => { s with conn := none }.goto k (.shutting c)

/-- The next thing a call does; a lease is released. -/
def next (k : Nat) (p : Proc) (env : Env) : Option State :=
  match p with
  | .acquiring => some (s.invalidate g k .replacing .entering)
  | .replacing c => some ((s.shut k p c).goto k .entering)
  | .entering => some (s.lease k env)
  | .leased _ => some ({ s with users := s.users - 1, lastUsed := s.now }.goto k .released)
  | .sweeping => some (s.invalidate g k .dropping .checking)
  | .dropping c => some ((s.shut k p c).goto k (.swept true))
  | .checking => some (s.check g k env)
  | .asking c => some (s.ask k c env)
  | .rechecking c => some (s.recheck g k c)
  | .releasing c => some ((s.shut k p c).goto k (.swept true))
  | .closing => some (s.close k)
  | .shutting c => some ((s.shut k p c).goto k .closed)
  | .released | .refused | .swept _ | .closed => none

def begin (k : Nat) (p : Proc) : Option State :=
  if k ∈ s.procs then none else some (s.goto k p)

def step : Event → Option State
  | .acquire k => s.begin k .acquiring
  | .sweep k => s.begin k .sweeping
  | .close k => s.begin k .closing
  | .next k env => (s.procs.lookup k).bind fun p ↦ s.next g k p env
  | .die c => some { s with dead := c :: s.dead }
  | .pass d => some { s with now := s.now + d }

/-- A sweep that drops the held connection drops the one it asked about. -/
def careful : Event → Bool
  | .next k _ =>
    match s.procs.lookup k with
    | some (.rechecking c) => s.conn.isNone || s.recent g || s.conn == some c
    | _ => true
  | _ => true

def owed (c : Nat) : Nat := countTable (fun p ↦ p.owes == some c) s.procs

def shutCount (c : Nat) : Nat := s.shuts.countP fun x ↦ x.conn == c

/-- A sweep has shut the connection, or is about to. -/
def sweepShuts (k c : Nat) : Prop :=
  s.procs.lookup k = some (.dropping c) ∨ s.procs.lookup k = some (.releasing c) ∨
    ⟨k, .dropping c, c⟩ ∈ s.shuts ∨ ⟨k, .releasing c, c⟩ ∈ s.shuts

end State

def machine (g : Settings) : Machine State Event where
  step := State.step g

variable {g : Settings} {s s' : State} {k : Nat} {p : Proc}

namespace State

@[simp] theorem shutCount_goto (q : Proc) (c : Nat) :
    (s.goto k q).shutCount c = s.shutCount c := rfl

@[simp] theorem shutCount_shut (c c' : Nat) :
    (s.shut k p c').shutCount c = s.shutCount c + if c' = c then 1 else 0 := by
  rw [shutCount, shut, List.countP_cons, shutCount]
  simp only [beq_iff_eq]

/-- A connection that was opened is held, about to be shut, or shut, and only one of these. -/
def Once (s : State) : Prop :=
  ∀ c, (if s.conn = some c then 1 else 0) + s.owed c + s.shutCount c =
    if c < s.opened then 1 else 0

variable {q : Proc} {c : Nat}

private theorem Once.change (h : s.Once) (hk : s.procs.lookup k = some p)
    (hprocs : s'.procs = s.procs.insert k q) (conn : Option Nat) (hconn : s'.conn = conn)
    (opened : Nat) (hopened : s'.opened = opened) (hbalance : ∀ c,
      (if conn = some c then 1 else 0) + (if (q.owes == some c) = true then 1 else 0) +
          s'.shutCount c + (if c < s.opened then 1 else 0) =
        (if s.conn = some c then 1 else 0) + (if (p.owes == some c) = true then 1 else 0) +
          s.shutCount c + if c < opened then 1 else 0) : s'.Once := by
  intro c
  subst hconn hopened
  have hbefore := h c
  have hcount := countTable_replace (c := q) (fun x : Proc ↦ x.owes == some c) hk
  have hbal := hbalance c
  unfold owed at hbefore ⊢
  rw [hprocs]
  omega

private theorem Once.held (h : s.Once) (hc : s.conn = some c) :
    c < s.opened ∧ s.owed c = 0 ∧ s.shutCount c = 0 := by
  have hsum := h c
  rw [if_pos hc] at hsum
  split_ifs at hsum with hlt
  · exact ⟨hlt, by omega, by omega⟩
  · omega

private theorem Once.shut (h : s.Once) (hk : s.procs.lookup k = some p)
    (howes : p.owes = some c) (hq : q.owes = none) : ((s.shut k p c).goto k q).Once := by
  refine h.change hk rfl s.conn rfl s.opened rfl ?_
  intro c'
  simp only [shutCount_goto, shutCount_shut, howes, hq, beq_iff_eq, Option.some.injEq, reduceCtorEq,
    if_false]
  omega

private theorem Once.goto (h : s.Once) (hk : s.procs.lookup k = some p)
    (hp : p.owes = none) (hq : q.owes = none) : (s.goto k q).Once := by
  refine h.change hk rfl s.conn rfl s.opened rfl ?_
  intro c
  rw [hp, hq, shutCount_goto]

private theorem Once.drop (h : s.Once) (hk : s.procs.lookup k = some p)
    (hconn : s.conn = some c) (hp : p.owes = none) (hq : q.owes = some c) :
    ({ s with conn := none }.goto k q).Once := by
  refine h.change hk rfl none rfl s.opened rfl ?_
  intro c'
  have hshuts : shutCount { s with conn := none } c' = s.shutCount c' := rfl
  simp only [shutCount_goto, hshuts, hconn, hp, hq, beq_iff_eq, Option.some.injEq, reduceCtorEq,
    if_false]
  omega

private theorem Once.begin (h : s.Once) (hk : k ∉ s.procs) (hp : p.owes = none) :
    (s.goto k p).Once := by
  intro c
  have hbefore := h c
  unfold owed at hbefore ⊢
  simp only [State.goto, countTable_insert _ hk, hp]
  exact hbefore

/-- What is known of the leases and of what sweeps shut. -/
structure Known (s : State) : Prop where
  users : s.users = countTable Proc.isLease s.procs
  leases : ∀ k c, s.procs.lookup k = some (.leased c) → c < s.opened
  dropping : ∀ k c, s.procs.lookup k = some (.dropping c) → c ∈ s.dead
  rechecking : ∀ k c, s.procs.lookup k = some (.rechecking c) → (k, c) ∈ s.answers
  releasing : ∀ k c, s.procs.lookup k = some (.releasing c) →
    (k, c) ∈ s.answers ∧ ∀ j, s.procs.lookup j ≠ some (.leased c)
  shuts : ∀ x ∈ s.shuts, x.at_.owes = some x.conn ∧ (x.at_ = .dropping x.conn → x.conn ∈ s.dead) ∧
    (x.at_ = .releasing x.conn →
      (x.caller, x.conn) ∈ s.answers ∧ ∀ j, s.procs.lookup j ≠ some (.leased x.conn))

private theorem Known.change (h : s.Known)
    (hk : s.procs.lookup k = some p ∨ k ∉ s.procs ∧ p = .released)
    (hprocs : s'.procs = s.procs.insert k q) (hq : q.isLease = false)
    (hopened : s'.opened = s.opened) (hdead : s'.dead = s.dead)
    (hanswers : ∀ x ∈ s.answers, x ∈ s'.answers)
    (husers : s'.users + (if p.isLease then 1 else 0) = s.users)
    (hdrop : ∀ c, q = .dropping c → c ∈ s.dead)
    (hrecheck : ∀ c, q = .rechecking c → (k, c) ∈ s'.answers) (hrelease : ∀ c, q = .releasing c →
      (k, c) ∈ s.answers ∧ ∀ j, s.procs.lookup j ≠ some (.leased c))
    (hshuts : ∀ x ∈ s'.shuts, x ∈ s.shuts ∨ ∃ c, x = ⟨k, p, c⟩ ∧ p.owes = some c) : s'.Known := by
  -- No lease is new.
  have hleased : ∀ j c, s'.procs.lookup j = some (.leased c) →
      s.procs.lookup j = some (.leased c) := by
    intro j c hj
    rw [hprocs] at hj
    rcases lookup_insert_eq_some.mp hj with ⟨-, rfl⟩ | ⟨-, hj⟩
    · cases hq
    · exact hj
  have hother : ∀ {j r}, s'.procs.lookup j = some r →
      j = k ∧ q = r ∨ s.procs.lookup j = some r := by
    intro j r hj
    rw [hprocs] at hj
    exact (lookup_insert_eq_some.mp hj).imp_right And.right
  refine ⟨?_, ?_, ?_, ?_, ?_, ?_⟩
  · have hcount : (countTable Proc.isLease s'.procs : Int) + (if p.isLease then 1 else 0) =
        countTable Proc.isLease s.procs := by
      rcases hk with hk | ⟨hk, rfl⟩
      · have hrep := countTable_replace (c := q) Proc.isLease hk
        simp only [hq, Bool.false_eq_true, if_false] at hrep
        rw [hprocs]
        split_ifs at hrep ⊢ <;> omega
      · rw [hprocs, countTable_insert _ hk, hq]
        rfl
    have hbefore := h.users
    omega
  · intro j c hj
    rw [hopened]
    exact h.leases j c (hleased j c hj)
  · intro j c hj
    rw [hdead]
    rcases hother hj with ⟨-, hq'⟩ | hj
    · exact hdrop c hq'
    · exact h.dropping j c hj
  · intro j c hj
    rcases hother hj with ⟨rfl, hq'⟩ | hj
    · exact hrecheck c hq'
    · exact hanswers _ (h.rechecking j c hj)
  · intro j c hj
    rcases hother hj with ⟨rfl, hq'⟩ | hj
    · obtain ⟨hanswer, hnone⟩ := hrelease c hq'
      exact ⟨hanswers _ hanswer, fun i hi ↦ hnone i (hleased i c hi)⟩
    · obtain ⟨hanswer, hnone⟩ := h.releasing j c hj
      exact ⟨hanswers _ hanswer, fun i hi ↦ hnone i (hleased i c hi)⟩
  · intro x hx
    rw [hdead]
    rcases hshuts x hx with hx | ⟨c, rfl, howes⟩
    · obtain ⟨howes, hdrops, hreleases⟩ := h.shuts x hx
      refine ⟨howes, hdrops, ?_⟩
      intro hat
      obtain ⟨hanswer, hnone⟩ := hreleases hat
      exact ⟨hanswers _ hanswer, fun i hi ↦ hnone i (hleased i _ hi)⟩
    · rcases hk with hk | ⟨-, rfl⟩
      · refine ⟨howes, ?_, ?_⟩
        · intro (hat : p = .dropping c)
          subst hat
          exact h.dropping k c hk
        · intro (hat : p = .releasing c)
          subst hat
          obtain ⟨hanswer, hnone⟩ := h.releasing k c hk
          exact ⟨hanswers _ hanswer, fun i hi ↦ hnone i (hleased i c hi)⟩
      · cases howes

private theorem Known.lease (h : s.Known) (hk : s.procs.lookup k = some p)
    (hp : p.isLease = false) (hprocs : s'.procs = s.procs.insert k (.leased c))
    (hc : c < s'.opened) (hopened : s.opened ≤ s'.opened) (hdead : s'.dead = s.dead)
    (hanswers : s'.answers = s.answers) (hshuts : s'.shuts = s.shuts)
    (husers : s'.users = s.users + 1) (howed : s.owed c = 0) (hshut : s.shutCount c = 0) :
    s'.Known := by
  have hother : ∀ {j r}, r ≠ .leased c → s'.procs.lookup j = some r →
      s.procs.lookup j = some r := by
    intro j r hr hj
    rw [hprocs] at hj
    rcases lookup_insert_eq_some.mp hj with ⟨-, rfl⟩ | ⟨-, hj⟩
    · exact absurd rfl hr
    · exact hj
  -- A lease on a connection that is shut would be the new one.
  have hnone : ∀ c₀, c₀ ≠ c → (∀ j, s.procs.lookup j ≠ some (.leased c₀)) →
      ∀ j, s'.procs.lookup j ≠ some (.leased c₀) := by
    intro c₀ hne hbefore j hj
    refine hbefore j (hother ?_ hj)
    intro heq
    exact hne (Proc.leased.inj heq)
  refine ⟨?_, ?_, ?_, ?_, ?_, ?_⟩
  · have hrep := countTable_replace (c := Proc.leased c) Proc.isLease hk
    have hbefore := h.users
    have hnew : (Proc.leased c).isLease = true := rfl
    simp only [hp, hnew, Bool.false_eq_true, if_false, if_true] at hrep
    rw [hprocs, husers]
    omega
  · intro j c' hj
    by_cases heq : c' = c
    · exact heq ▸ hc
    · exact lt_of_lt_of_le (h.leases j c' (hother (fun hl ↦ heq (Proc.leased.inj hl)) hj)) hopened
  · intro j c' hj
    rw [hdead]
    exact h.dropping j c' (hother (by nofun) hj)
  · intro j c' hj
    rw [hanswers]
    exact h.rechecking j c' (hother (by nofun) hj)
  · intro j c' hj
    have hj := hother (by nofun) hj
    obtain ⟨hanswer, hleases⟩ := h.releasing j c' hj
    rw [hanswers]
    refine ⟨hanswer, hnone c' ?_ hleases⟩
    rintro rfl
    have hpos : 0 < s.owed c' := countTable_pos hj (beq_self_eq_true _)
    omega
  · intro x hx
    rw [hshuts] at hx
    obtain ⟨howes, hdrops, hreleases⟩ := h.shuts x hx
    rw [hdead, hanswers]
    refine ⟨howes, hdrops, ?_⟩
    intro hat
    obtain ⟨hanswer, hleases⟩ := hreleases hat
    refine ⟨hanswer, hnone x.conn ?_ hleases⟩
    rintro rfl
    have hpos : 0 < s.shutCount x.conn := List.countP_pos_iff.mpr ⟨x, hx, beq_self_eq_true _⟩
    omega

end State

def Proc.plain : Proc → Bool
  | .leased _ | .rechecking _ => false
  | p => p.owes.isNone

private theorem Proc.of_plain (h : p.plain = true) : p.owes = none ∧ p.isLease = false ∧
    (∀ {P : Nat → Prop} c, p = .dropping c → P c) ∧
    (∀ {P : Nat → Prop} c, p = .rechecking c → P c) ∧
    ∀ {P : Nat → Prop} c, p = .releasing c → P c := by
  cases p with
  | replacing c => cases h
  | leased c => cases h
  | dropping c => cases h
  | rechecking c => cases h
  | releasing c => cases h
  | shutting c => cases h
  | _ => exact ⟨rfl, rfl, nofun, nofun, nofun⟩

namespace State

structure Inv (s : State) : Prop where
  once : s.Once
  known : s.Known

variable {q : Proc} {c : Nat}

private theorem Inv.goto (h : s.Inv) (hk : s.procs.lookup k = some p) (hp : p.owes = none)
    (hlease : p.isLease = false) (hq : q.plain = true) : (s.goto k q).Inv := by
  obtain ⟨howes, hql, hdrop, hrecheck, hrelease⟩ := Proc.of_plain hq
  refine ⟨h.once.goto hk hp howes, ?_⟩
  refine h.known.change (.inl hk) rfl hql rfl rfl (fun _ ↦ id) ?_ hdrop hrecheck hrelease
    (fun _ hx ↦ .inl hx)
  rw [hlease]
  simp [State.goto]

private theorem Inv.shut (h : s.Inv) (hk : s.procs.lookup k = some p)
    (howes : p.owes = some c) (hq : q.plain = true) : ((s.shut k p c).goto k q).Inv := by
  have hlease : p.isLease = false := by
    cases p <;> first | rfl | cases howes
  obtain ⟨hnone, hql, hdrop, hrecheck, hrelease⟩ := Proc.of_plain hq
  refine ⟨h.once.shut hk howes hnone, ?_⟩
  refine h.known.change (.inl hk) rfl hql rfl rfl (fun _ ↦ id) ?_ hdrop hrecheck hrelease ?_
  · rw [hlease]
    simp [State.goto, State.shut]
  · intro x hx
    rcases List.mem_cons.mp hx with rfl | hx
    · exact .inr ⟨c, rfl, howes⟩
    · exact .inl hx

private theorem Inv.drop (h : s.Inv) (hk : s.procs.lookup k = some p)
    (hconn : s.conn = some c) (hp : p.owes = none) (hlease : p.isLease = false)
    (hq : q.owes = some c) (hdead : q = .dropping c → c ∈ s.dead)
    (hidle : q = .releasing c → (k, c) ∈ s.answers ∧ ∀ j, s.procs.lookup j ≠ some (.leased c)) :
    ({ s with conn := none }.goto k q).Inv := by
  refine ⟨h.once.drop hk hconn hp hq, ?_⟩
  refine h.known.change (.inl hk) rfl (by cases q <;> first | rfl | cases hq) rfl rfl
    (fun _ ↦ id) ?_ ?_ ?_ ?_ (fun _ hx ↦ .inl hx)
  · rw [hlease]
    simp [State.goto]
  · rintro c' rfl
    cases hq
    exact hdead rfl
  · rintro c' rfl
    cases hq
  · rintro c' rfl
    cases hq
    exact hidle rfl

private theorem Inv.begin (h : s.Inv) (hp : p.plain = true) (hbegin : s.begin k p = some s') :
    s'.Inv := by
  obtain ⟨hk, ⟨⟩⟩ := Option.ite_none_left_eq_some.mp hbegin
  obtain ⟨howes, hpl, hdrop, hrecheck, hrelease⟩ := Proc.of_plain hp
  refine ⟨h.once.begin hk howes, ?_⟩
  refine h.known.change (p := .released) (.inr ⟨hk, rfl⟩) rfl hpl rfl rfl (fun _ ↦ id) ?_ hdrop
    hrecheck hrelease (fun _ hx ↦ .inl hx)
  simp [State.goto, Proc.isLease]

private theorem of_invalid (h : s.invalid g = some c) : s.conn = some c ∧ c ∈ s.dead := by
  unfold invalid at h
  split at h
  · obtain ⟨hconn, hdead⟩ := Option.filter_eq_some_iff.mp h
    exact ⟨hconn, List.contains_iff_mem.mp hdead⟩
  · cases h

private theorem Inv.lease (h : s.Inv) (hk : s.procs.lookup k = some .entering) (env : Env) :
    (s.lease k env).Inv := by
  unfold State.lease
  split
  · next c hconn =>
    obtain ⟨hlt, howed, hshut⟩ := h.once.held hconn
    refine ⟨?_, h.known.lease hk rfl rfl hlt le_rfl rfl rfl rfl rfl howed hshut⟩
    refine h.once.change hk rfl s.conn rfl s.opened rfl ?_
    intro c'
    rfl
  · next hconn =>
    split
    · exact h.goto hk rfl rfl rfl
    · -- The number is new, so nobody shuts it.
      have hsum := h.once s.opened
      rw [if_neg (lt_irrefl s.opened)] at hsum
      have howed : s.owed s.opened = 0 := by omega
      have hshut : s.shutCount s.opened = 0 := by omega
      refine ⟨?_, h.known.lease hk rfl rfl (Nat.lt_succ_self _) (Nat.le_succ _) rfl rfl rfl rfl
        howed hshut⟩
      refine h.once.change hk rfl (some s.opened) rfl (s.opened + 1) rfl ?_
      intro c'
      have hshuts : shutCount { s with
          opened := s.opened + 1
          conn := some s.opened
          users := s.users + 1
          lastUsed := s.now } c' = s.shutCount c' := rfl
      rw [shutCount_goto, hshuts, hconn]
      simp only [Option.some.injEq, reduceCtorEq, if_false, Proc.owes, Option.none_beq_some,
        Bool.false_eq_true]
      split_ifs <;> omega

private theorem Known.unleased (h : s.Known) (hrecent : s.recent g = false) (c : Nat) :
    ∀ j, s.procs.lookup j ≠ some (.leased c) := by
  intro j hj
  have hpos : 0 < countTable Proc.isLease s.procs := countTable_pos hj rfl
  have husers := h.users
  simp only [recent, Bool.or_eq_false_iff, decide_eq_false_iff_not] at hrecent
  omega

private theorem Inv.recheck (h : s.Inv) (hk : s.procs.lookup k = some (.rechecking c))
    (hcareful : s.conn.isNone = true ∨ s.recent g = true ∨ s.conn = some c) :
    (s.recheck g k c).Inv := by
  unfold State.recheck
  split
  · exact h.goto hk rfl rfl rfl
  · next hnot =>
    rw [not_or] at hnot
    have hconn : s.conn = some c := (hcareful.resolve_left hnot.1).resolve_left hnot.2
    refine h.drop hk hconn rfl rfl rfl (by nofun) ?_
    intro _
    exact ⟨h.known.rechecking k c hk, h.known.unleased (Bool.eq_false_iff.mpr hnot.2) c⟩

private theorem Inv.ask (h : s.Inv) (hk : s.procs.lookup k = some (.asking c)) (env : Env) :
    (s.ask k c env).Inv := by
  unfold State.ask
  split
  · refine ⟨?_, ?_⟩
    · refine h.once.change hk rfl s.conn rfl s.opened rfl ?_
      intro c'
      rfl
    · refine h.known.change (q := .rechecking c) (.inl hk) rfl rfl rfl rfl
        (fun _ ↦ List.mem_cons_of_mem _) ?_ (by nofun) ?_ (by nofun) (fun _ hx ↦ .inl hx)
      · simp [State.goto, Proc.isLease]
      · rintro c' heq
        cases heq
        exact (.head _)
  · exact h.goto hk rfl rfl rfl

private theorem Inv.release (h : s.Inv) (hk : s.procs.lookup k = some (.leased c)) :
    ({ s with users := s.users - 1, lastUsed := s.now }.goto k .released).Inv := by
  refine ⟨?_, ?_⟩
  · refine h.once.change hk rfl s.conn rfl s.opened rfl ?_
    intro c'
    rfl
  · refine h.known.change (q := .released) (.inl hk) rfl rfl rfl rfl (fun _ ↦ id) ?_ (by nofun)
      (by nofun) (by nofun) (fun _ hx ↦ .inl hx)
    simp [State.goto, Proc.isLease]

private theorem Inv.next (h : s.Inv) (hk : s.procs.lookup k = some p) {env : Env}
    (hcareful : s.careful g (.next k env) = true) (hnext : s.next g k p env = some s') :
    s'.Inv := by
  cases p with
  | acquiring =>
    cases hnext
    unfold invalidate
    split
    · next c hc => exact h.drop hk (of_invalid hc).1 rfl rfl rfl (by nofun) (by nofun)
    · exact h.goto hk rfl rfl rfl
  | replacing c =>
    cases hnext
    exact h.shut hk rfl rfl
  | entering =>
    cases hnext
    exact h.lease hk env
  | leased c =>
    cases hnext
    exact h.release hk
  | sweeping =>
    cases hnext
    unfold invalidate
    split
    · next c hc =>
      obtain ⟨hconn, hdead⟩ := of_invalid hc
      exact h.drop hk hconn rfl rfl rfl (fun _ ↦ hdead) (by nofun)
    · exact h.goto hk rfl rfl rfl
  | dropping c =>
    cases hnext
    exact h.shut hk rfl rfl
  | checking =>
    cases hnext
    unfold check
    split
    · exact h.goto hk rfl rfl rfl
    · next c hc =>
      split
      · exact h.goto hk rfl rfl rfl
      · exact h.goto hk rfl rfl rfl
  | asking c =>
    cases hnext
    exact h.ask hk env
  | rechecking c =>
    cases hnext
    refine h.recheck hk ?_
    simpa [careful, hk, or_assoc] using hcareful
  | releasing c =>
    cases hnext
    exact h.shut hk rfl rfl
  | closing =>
    cases hnext
    unfold State.close
    split
    · exact h.goto hk rfl rfl rfl
    · next c hc => exact h.drop hk hc rfl rfl rfl (by nofun) (by nofun)
  | shutting c =>
    cases hnext
    exact h.shut hk rfl rfl
  | _ => cases hnext

private theorem inv_step {e : Event} (h : s.Inv) (hcareful : s.careful g e = true)
    (hstep : s.step g e = some s') : s'.Inv := by
  cases e with
  | acquire k => exact h.begin rfl hstep
  | sweep k => exact h.begin rfl hstep
  | close k => exact h.begin rfl hstep
  | next k env =>
    obtain ⟨p, hk, hnext⟩ := Option.bind_eq_some_iff.mp hstep
    exact h.next hk hcareful hnext
  | die c =>
    cases hstep
    have hknown := h.known
    refine ⟨h.once, hknown.users, hknown.leases, ?_, hknown.rechecking, hknown.releasing, ?_⟩
    · intro k c' hk
      exact .tail _ (hknown.dropping k c' hk)
    · intro x hx
      obtain ⟨howes, hdrops, hreleases⟩ := hknown.shuts x hx
      exact ⟨howes, fun hat ↦ .tail _ (hdrops hat), hreleases⟩
  | pass d =>
    cases hstep
    have hknown := h.known
    exact ⟨h.once, hknown.users, hknown.leases, hknown.dropping, hknown.rechecking,
      hknown.releasing, hknown.shuts⟩

private theorem inv_start (now lastUsed : Int) : ({ now, lastUsed } : State).Inv where
  once := by
    intro c
    simp [owed, shutCount, countTable]
  known := by
    refine ⟨rfl, ?_, ?_, ?_, ?_, ?_⟩ <;> simp

end State

/-- Whatever the order of requests, releases, sweeps, closes, deaths and the passing of time: a
connection is shut once at most, one that was opened and is not held has been shut or is about to
be, and a sweep shuts a connection that has not died only after `busy` answered it false for that
connection and while there is no lease on it. For the runs in which a sweep that drops the held
connection drops the one it asked about. -/
theorem shut_once (now lastUsed : Int) {es : List Event}
    (hw : (machine g).Within (fun s e ↦ s.careful g e = true) { now, lastUsed } es)
    (hr : (machine g).run { now, lastUsed } es = some s) :
    (∀ c, s.owed c + s.shutCount c ≤ 1) ∧
      (∀ c, c < s.opened → s.conn ≠ some c → 0 < s.owed c + s.shutCount c) ∧
      ∀ k c, s.sweepShuts k c → c ∈ s.dead ∨
        (k, c) ∈ s.answers ∧ ∀ j, s.procs.lookup j ≠ some (.leased c) := by
  have hinv : s.Inv :=
    (machine g).run_invariant _ (fun _ _ _ h hok hstep ↦ State.inv_step h hok hstep)
      (State.inv_start now lastUsed) hw hr
  refine ⟨?_, ?_, ?_⟩
  · intro c
    have hsum := hinv.once c
    split_ifs at hsum <;> omega
  · intro c hlt hne
    have hsum := hinv.once c
    rw [if_neg hne, if_pos hlt] at hsum
    omega
  · rintro k c (hk | hk | hx | hx)
    · exact .inl (hinv.known.dropping k c hk)
    · exact .inr (hinv.known.releasing k c hk)
    · exact .inl ((hinv.known.shuts _ hx).2.1 rfl)
    · exact .inr ((hinv.known.shuts _ hx).2.2 rfl)

def request (k : Nat) : List Event :=
  [.acquire k, .next k {}, .next k {}, .next k {}]

/-- A request that finds the connection dead, and opens another. -/
def reopening (k : Nat) : List Event := [.acquire k, .next k {}, .next k {}, .next k {}, .next k {}]

def asks (k : Nat) : List Event := [.pass 5, .sweep k, .next k {}, .next k {}]

def answered (k : Nat) : List Event := [.next k {}, .next k {}, .next k {}]

/-- While a sweep asks `busy`, the connection dies, a request opens another, and that one is not
used for as long as `idle`. -/
def replacedMeanwhile : List Event :=
  request 0 ++ asks 1 ++ (.die 0 :: reopening 2) ++ (.pass 5 :: answered 1)

/-- The sweep drops the new connection, which nobody shuts, and shuts the old one again. -/
theorem old_connection_shut_twice :
    ((machine { idle := 5 }).run {} replacedMeanwhile).map
        (fun s ↦ (s.opened, s.conn, s.shutCount 0, s.owed 1 + s.shutCount 1)) =
      some (2, none, 2, 0) := by
  decide +kernel

/-- A request comes while `busy` is asked, and the sweep keeps the connection; the next one shuts
it. -/
def usedMeanwhile : List Event :=
  request 0 ++ asks 1 ++ request 2 ++ [.next 1 {}, .next 1 {}] ++ asks 3 ++ answered 3

theorem shut_once_swept :
    ∃ s, (machine { idle := 5 }).run {} usedMeanwhile = some s ∧
      s.conn = none ∧ s.opened = 1 ∧ s.shutCount 0 = 1 ∧ 0 < s.owed 0 + s.shutCount 0 := by
  obtain ⟨s, hs, hconn, hopened, hshut⟩ : ∃ s, (machine { idle := 5 }).run {} usedMeanwhile =
      some s ∧ s.conn = none ∧ s.opened = 1 ∧ s.shutCount 0 = 1 := by
    decide +kernel
  have hall := shut_once 0 0 (by decide +kernel) hs
  refine ⟨s, hs, hconn, hopened, hshut, hall.2.1 0 ?_ ?_⟩
  · rw [hopened]
    exact Nat.one_pos
  · rw [hconn]
    nofun

end RemoteDocker.Client.Gate

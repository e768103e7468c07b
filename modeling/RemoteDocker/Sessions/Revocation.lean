import RemoteDocker.Sessions.Registry

/-!
# A revoked key loses its connections

A connection that logged in was enrolled when its login was recorded, so a key of a live connection
that is no longer enrolled was revoked by a publication since, whose sweep comes after the record.
`Covered` says where such a connection can be: still to be visited or closed by a sweep, held with
the mark that its release obeys, with a release about to schedule its close, or closed.
-/

namespace RemoteDocker.Sessions

open Base

variable {Key : Type} {cfg : Config Key} {s s' : State Key}

/-! ### What a step can do -/

namespace State

inductive Steps (cfg : Config Key) (s : State Key) : State Key → Prop
  | same : Steps cfg s s
  | track {ctx : Nat} (hfresh : s.conns.lookup ctx = none) :
    Steps cfg s { s with conns := s.conns.insert ctx {} }
  | shake {ctx : Nat} {c : Conn Key} {values : Values Key} {login : Login Key}
      (hc : s.conns.lookup ctx = some c) (hlogin : ∀ a k, login ≠ .loggedIn a k) :
    Steps cfg s { s with conns := s.conns.insert ctx { c with values, login } }
  | record {ctx : Nat} {c : Conn Key} {account : String} {key : Key}
      (hc : s.conns.lookup ctx = some c)
      (henrolled : stillAuthorized cfg s.accounts account key = true) :
    Steps cfg s
      { s with
        conns := s.conns.insert ctx
          { c with lc := recorded c account key, login := .loggedIn account key } }
  | refuse {ctx : Nat} {c : Conn Key} {account : String} {key : Key} {why : String}
      (hc : s.conns.lookup ctx = some c) :
    Steps cfg s
      { s with
        conns := s.conns.insert ctx
          { c with lc := recorded c account key, login := .refused why } }
  | done {ctx : Nat} {c : Conn Key} (hc : s.conns.lookup ctx = some c) :
    Steps cfg s { s with conns := s.conns.insert ctx { c with live := false } }
  | hold {h ctx : Nat} {c : Conn Key} (hh : h ∉ s.holds) (hc : s.conns.lookup ctx = some c) :
    Steps cfg s
      { s with
        conns := s.conns.insert ctx { c with lc := { c.lc with held := c.lc.held + 1 } }
        holds := s.holds.insert h (.taken (some ctx)) }
  | holdNone {h : Nat} (hh : h ∉ s.holds) :
    Steps cfg s { s with holds := s.holds.insert h (.taken none) }
  | releaseNone {h : Nat} (hh : s.holds.lookup h = some (.taken none)) :
    Steps cfg s { s with holds := s.holds.erase h }
  | release {h ctx : Nat} {c : Conn Key} (hh : s.holds.lookup h = some (.taken (some ctx)))
      (hc : s.conns.lookup ctx = some c) (hclosing : ¬(c.lc.held - 1 = 0 ∧ c.lc.revoked = true)) :
    Steps cfg s
      { s with
        conns := s.conns.insert ctx { c with lc := { c.lc with held := c.lc.held - 1 } }
        holds := s.holds.erase h }
  | releaseClosing {h ctx : Nat} {c : Conn Key} (hh : s.holds.lookup h = some (.taken (some ctx)))
      (hc : s.conns.lookup ctx = some c) :
    Steps cfg s
      { s with
        conns := s.conns.insert ctx { c with lc := { c.lc with held := c.lc.held - 1 } }
        holds := s.holds.insert h (.closing ctx) }
  | schedule {h ctx : Nat} {c : Conn Key} (hh : s.holds.lookup h = some (.closing ctx))
      (hc : s.conns.lookup ctx = some c) :
    Steps cfg s
      { s with
        conns := s.conns.insert ctx { c with scheduled := c.scheduled + 1 }
        holds := s.holds.erase h }
  | expire {ctx : Nat} {c : Conn Key} (hc : s.conns.lookup ctx = some c) :
    Steps cfg s
      { s with
        conns := s.conns.insert ctx { c with scheduled := c.scheduled - 1, closed := true } }
  | publish {i : Nat} {accounts : Accounts Key} :
    Steps cfg s { s with accounts, syncs := s.syncs.insert i .published }
  | sweep {i : Nat} (hi : s.syncs.lookup i = some .published) :
    Steps cfg s { s with mu := some i, syncs := s.syncs.insert i (.sweeping s.live []) }
  | visit {i ctx : Nat} {todo revoked : List Nat} {c : Conn Key}
      (hi : s.syncs.lookup i = some (.sweeping todo revoked))
      (hc : s.conns.lookup ctx = some c) :
    Steps cfg s
      { s with
        conns := s.conns.insert ctx (s.turn cfg c).1
        syncs := s.syncs.insert i
          (.sweeping (todo.erase ctx) (if (s.turn cfg c).2 then revoked ++ [ctx] else revoked)) }
  | unlock {i : Nat} {revoked : List Nat} (hi : s.syncs.lookup i = some (.sweeping [] revoked)) :
    Steps cfg s { s with mu := none, syncs := s.syncs.insert i (.closing revoked) }
  | close {i ctx : Nat} {revoked : List Nat} {c : Conn Key}
      (hi : s.syncs.lookup i = some (.closing (ctx :: revoked)))
      (hc : s.conns.lookup ctx = some c) :
    Steps cfg s
      { s with
        conns := s.conns.insert ctx { c with closed := true }
        syncs := s.syncs.insert i (.closing revoked) }
  | finish {i : Nat} (hi : s.syncs.lookup i = some (.closing [])) :
    Steps cfg s { s with syncs := s.syncs.erase i }

private theorem handshaking_ne {login : Login Key} (h : login.handshaking = true) (a : String)
    (k : Key) : login ≠ .loggedIn a k := by
  rintro rfl
  cases h

variable {ctx h i : Nat} {c : Conn Key}

private theorem steps_offer {user : String} {tokenLive : Bool}
    {key : Key} (hc : s.conns.lookup ctx = some c)
    (h : s.offer cfg ctx c user tokenLive key = some s') : Steps cfg s s' := by
  revert h
  fun_cases offer cfg s ctx c user tokenLive key <;> rintro ⟨⟩
  · next hopen _ _ => exact .shake hc (handshaking_ne hopen)
  · exact .same

private theorem steps_sign [DecidableEq Key] {key : Key}
    (hc : s.conns.lookup ctx = some c) (h : s.sign cfg ctx c key = some s') : Steps cfg s s' := by
  unfold sign at h
  split at h
  · split at h <;> cases h <;> exact .shake hc (fun a k hl ↦ by cases hl)
  · cases h

private theorem steps_record (hc : s.conns.lookup ctx = some c)
    (h : s.record cfg ctx c = some s') : Steps cfg s s' := by
  revert h
  fun_cases record cfg s ctx c <;> rintro ⟨⟩
  · next henrolled => exact .record hc henrolled
  · exact .refuse hc

private theorem steps_hold (hs : s.hold h ctx = some s') : Steps cfg s s' := by
  revert hs
  fun_cases hold s h ctx <;> rintro ⟨⟩
  · next hfree c hc _ => exact .hold hfree.2 hc
  · next hfree _ _ _ => exact .holdNone hfree.2
  · next hfree _ => exact .holdNone hfree.2

private theorem steps_release (hs : s.release h = some s') : Steps cfg s s' := by
  unfold release at hs
  split at hs
  · rename_i hh
    cases hs
    exact .releaseNone hh
  · rename_i ctx hh
    split at hs
    · split at hs
      · rename_i c hc
        dsimp only at hs
        split at hs
        · cases hs
          exact .releaseClosing hh hc
        · rename_i hclosing
          cases hs
          exact .release hh hc hclosing
      · cases hs
    · cases hs
  · cases hs

private theorem steps_schedule (hs : s.schedule h = some s') : Steps cfg s s' := by
  revert hs
  fun_cases schedule s h <;> rintro ⟨⟩
  next hh c hc => exact .schedule hh hc

private theorem steps_sweep (hs : s.sweep i = some s') : Steps cfg s s' := by
  revert hs
  fun_cases sweep s i <;> rintro ⟨⟩
  next hi _ => exact .sweep hi

private theorem steps_visit (hs : s.visit cfg i ctx = some s') : Steps cfg s s' := by
  revert hs
  fun_cases visit cfg s i ctx <;> rintro ⟨⟩
  next hc hi _ => exact .visit hi hc

private theorem steps_unlock (hs : s.unlock i = some s') : Steps cfg s s' := by
  revert hs
  fun_cases unlock s i <;> rintro ⟨⟩
  next hi => exact .unlock hi

private theorem steps_close (hs : s.close i = some s') : Steps cfg s s' := by
  revert hs
  fun_cases close s i <;> rintro ⟨⟩
  · next hi c hc => exact .close hi hc
  · next hi => exact .finish hi

private theorem steps_of_act [DecidableEq Key] {e : Event Key} (h : s.act cfg e = some s') :
    Steps cfg s s' := by
  revert h
  fun_cases act cfg s e <;> intro h
  case case3 =>
    obtain ⟨c, hc, h⟩ := Option.bind_eq_some_iff.mp h
    exact steps_offer hc h
  case case4 =>
    obtain ⟨c, hc, h⟩ := Option.bind_eq_some_iff.mp h
    exact steps_sign hc h
  case case5 =>
    obtain ⟨c, hc, h⟩ := Option.bind_eq_some_iff.mp h
    exact steps_record hc h
  case case9 => exact steps_hold h
  case case10 => exact steps_release h
  case case11 => exact steps_schedule h
  case case17 => exact steps_sweep h
  case case18 => exact steps_visit h
  case case19 => exact steps_unlock h
  case case20 => exact steps_close h
  all_goals cases h
  · next hfree => exact .track (AList.lookup_eq_none.mpr hfree.2)
  · next hc _ => exact .done hc
  · next hc _ => exact .expire hc
  · exact .publish

end State

/-! ### Who is going to be closed -/

/-- A sync's sweep still comes to a connection, or is about to close it. -/
def Sync.Owes : Sync → Nat → Prop
  | .published, _ => True
  | .sweeping todo revoked, ctx => ctx ∈ todo ∨ ctx ∈ revoked
  | .closing revoked, ctx => ctx ∈ revoked

def holders (holds : AList fun _ : Nat ↦ Hold) (ctx : Nat) : Nat :=
  countTable (· == .taken (some ctx)) holds

def heldOf (conns : AList fun _ : Nat ↦ Conn Key) (ctx : Nat) : Nat :=
  match conns.lookup ctx with
  | some c => c.lc.held
  | none => 0

private theorem heldOf_insert (conns : AList fun _ : Nat ↦ Conn Key) (ctx k : Nat) (c : Conn Key) :
    heldOf (conns.insert ctx c) k = if k = ctx then c.lc.held else heldOf conns k := by
  by_cases hk : k = ctx
  · subst hk
    simp [heldOf, AList.lookup_insert]
  · simp [heldOf, AList.lookup_insert_ne hk, hk]

private theorem holders_insert {holds : AList fun _ : Nat ↦ Hold} {h : Nat} (hh : h ∉ holds)
    (x : Hold)
    (k : Nat) :
    holders (holds.insert h x) k = holders holds k + if x = .taken (some k) then 1 else 0 := by
  rw [holders, countTable_insert _ hh]
  simp [holders]

private theorem holders_erase {holds : AList fun _ : Nat ↦ Hold} {h : Nat} {x : Hold}
    (hh : holds.lookup h = some x) (k : Nat) :
    holders holds k = holders (holds.erase h) k + if x = .taken (some k) then 1 else 0 := by
  rw [holders, countTable_erase _ hh]
  simp [holders]

private theorem holders_closing (holds : AList fun _ : Nat ↦ Hold) (h ctx k : Nat) :
    holders (holds.insert h (.closing ctx)) k = holders (holds.erase h) k := by
  rw [holders, countTable_insert_erase]
  simp [holders]

namespace State

inductive Covered (s : State Key) (ctx : Nat) (c : Conn Key) : Prop
  | closed (h : c.closed = true)
  | scheduled (h : 0 < c.scheduled)
  | held (hrevoked : c.lc.revoked = true) (hheld : 0 < c.lc.held)
  | closing {h : Nat} (hh : s.holds.lookup h = some (.closing ctx))
  | owed {i : Nat} {p : Sync} (hi : s.syncs.lookup i = some p) (howes : p.Owes ctx)

/-- What a step leaves of the releases and the sweeps that close a connection. -/
structure Keeps (s s' : State Key) (ctx : Nat) : Prop where
  closing : ∀ h, s.holds.lookup h = some (.closing ctx) → s'.holds.lookup h = some (.closing ctx)
  owed : ∀ i p, s.syncs.lookup i = some p → p.Owes ctx →
    ∃ p', s'.syncs.lookup i = some p' ∧ p'.Owes ctx

/-- An entry changed so that what closes its connection still does. -/
structure Follows (c c' : Conn Key) : Prop where
  closed : c.closed = true → c'.closed = true
  scheduled : 0 < c.scheduled → c'.closed = true ∨ 0 < c'.scheduled
  revoked : c.lc.revoked = true → c'.lc.revoked = true
  held : c.lc.held ≤ c'.lc.held

variable {ctx i h : Nat} {c c' : Conn Key}

private theorem Covered.keeps (h : s.Covered ctx c) (hk : Keeps s s' ctx)
    (hc : Follows c c') : s'.Covered ctx c' := by
  cases h with
  | closed h => exact .closed (hc.closed h)
  | scheduled h =>
    rcases hc.scheduled h with h | h
    · exact .closed h
    · exact .scheduled h
  | held hrevoked hheld => exact .held (hc.revoked hrevoked) (Nat.lt_of_lt_of_le hheld hc.held)
  | closing hh => exact .closing (hk.closing _ hh)
  | owed hi howes =>
    obtain ⟨p', hi', howes'⟩ := hk.owed _ _ hi howes
    exact .owed hi' howes'

/-- What a connection that logged in, and that the registry still has, says of itself: the entry is
that of its login, and a key that is not enrolled is to be closed. -/
def Honest (cfg : Config Key) (s : State Key) (ctx : Nat) (c : Conn Key) : Prop :=
  ∀ a k, c.live = true → c.login = .loggedIn a k →
    c.lc.account = a ∧ c.lc.key = some k ∧
      (stillAuthorized cfg s.accounts a k = false → s.Covered ctx c)

structure Inv (cfg : Config Key) (s : State Key) : Prop where
  held : ∀ ctx, holders s.holds ctx = heldOf s.conns ctx
  honest : ∀ ctx c, s.conns.lookup ctx = some c → s.Honest cfg ctx c

private theorem Follows.refl (c : Conn Key) : Follows c c := ⟨id, .inr, id, Nat.le_refl _⟩

private theorem keeps_of_eq (hholds : s'.holds = s.holds) (hsyncs : s'.syncs = s.syncs) :
    Keeps s s' ctx where
  closing h hh := by rw [hholds]; exact hh
  owed i p hi howes := ⟨p, by rw [hsyncs]; exact hi, howes⟩

private theorem Honest.keeps (h : s.Honest cfg ctx c)
    (haccounts : s'.accounts = s.accounts) (hk : Keeps s s' ctx) (hc : Follows c c')
    (hlogin : c'.login = c.login) (hlive : c'.live = c.live)
    (haccount : c'.lc.account = c.lc.account)
    (hkey : c'.lc.key = c.lc.key) : s'.Honest cfg ctx c' := by
  intro a k hl hlog
  obtain ⟨ha, hk', hcov⟩ := h a k (hlive ▸ hl) (hlogin ▸ hlog)
  refine ⟨haccount.trans ha, hkey.trans hk', ?_⟩
  intro hnot
  rw [haccounts] at hnot
  exact (hcov hnot).keeps hk hc

private theorem Inv.change (hi : s.Inv cfg)
    (hconns : s'.conns = s.conns.insert ctx c') (haccounts : s'.accounts = s.accounts)
    (hkeeps : ∀ k, k ≠ ctx → Keeps s s' k)
    (hheld : ∀ k, holders s'.holds k = if k = ctx then c'.lc.held else heldOf s.conns k)
    (hhonest : s'.Honest cfg ctx c') : s'.Inv cfg where
  held k := by rw [hconns, heldOf_insert, hheld]
  honest k c hc := by
    rw [hconns] at hc
    rcases lookup_insert_eq_some.mp hc with ⟨rfl, rfl⟩ | ⟨hne, hc⟩
    · exact hhonest
    · exact (hi.honest k c hc).keeps haccounts (hkeeps k hne) (.refl c) rfl rfl rfl rfl

private theorem Inv.still (hi : s.Inv cfg) (hconns : s'.conns = s.conns)
    (haccounts : s'.accounts = s.accounts)
    (hkeeps : ∀ k c, s.conns.lookup k = some c → c.live = true → Keeps s s' k)
    (hheld : ∀ k, holders s'.holds k = holders s.holds k) : s'.Inv cfg where
  held k := by rw [hconns, hheld, hi.held]
  honest k c hc a key hl := by
    rw [hconns] at hc
    exact (hi.honest k c hc).keeps haccounts (hkeeps k c hc hl) (.refl c) rfl rfl rfl rfl a key hl

private theorem heldOf_eq {conns : AList fun _ : Nat ↦ Conn Key}
    (hc : conns.lookup ctx = some c) : heldOf conns ctx = c.lc.held := by
  rw [heldOf, hc]

private theorem Inv.change_conn (hi : s.Inv cfg)
    (hc : s.conns.lookup ctx = some c) (hconns : s'.conns = s.conns.insert ctx c')
    (haccounts : s'.accounts = s.accounts) (hholds : s'.holds = s.holds)
    (hkeeps : ∀ k, k ≠ ctx → Keeps s s' k) (hheld : c'.lc.held = c.lc.held)
    (hhonest : s'.Honest cfg ctx c') : s'.Inv cfg := by
  refine hi.change hconns haccounts hkeeps ?_ hhonest
  intro k
  rw [hholds, hi.held, hheld]
  split
  · rename_i hk
    rw [hk, heldOf_eq hc]
  · rfl

/-! ### What each step leaves -/

private theorem keeps_sync {p p' : Sync} (hi : s.syncs.lookup i = some p)
    (hsyncs : s'.syncs = s.syncs.insert i p') (hholds : s'.holds = s.holds)
    (howes : p.Owes ctx → p'.Owes ctx) : Keeps s s' ctx where
  closing h hh := by rw [hholds]; exact hh
  owed j q hj hq := by
    rw [hsyncs]
    by_cases hji : j = i
    · subst hji
      rw [hi] at hj
      cases hj
      exact ⟨p', AList.lookup_insert _, howes hq⟩
    · exact ⟨q, by rw [AList.lookup_insert_ne hji]; exact hj, hq⟩

private theorem keeps_hold (hsyncs : s'.syncs = s.syncs)
    (hh : s.holds.lookup h ≠ some (.closing ctx))
    (hother : ∀ h', h' ≠ h → s'.holds.lookup h' = s.holds.lookup h') : Keeps s s' ctx where
  closing h' hh' := by
    have hne : h' ≠ h := by
      rintro rfl
      exact hh hh'
    rw [hother h' hne]
    exact hh'
  owed i p hi howes := ⟨p, by rw [hsyncs]; exact hi, howes⟩

private theorem mem_live (hc : s.conns.lookup ctx = some c) (hlive : c.live = true) :
    ctx ∈ s.live := by
  have hmem : (⟨ctx, c⟩ : Sigma fun _ : Nat ↦ Conn Key) ∈ s.conns.entries :=
    AList.mem_lookup_iff.mp hc
  exact List.mem_map.mpr ⟨⟨ctx, c⟩, List.mem_filter.mpr ⟨hmem, hlive⟩, rfl⟩

section

variable (hi : s.Inv cfg)

include hi

private theorem Inv.track (hfresh : s.conns.lookup ctx = none) :
    Inv cfg { s with conns := s.conns.insert ctx {} } := by
  refine hi.change rfl rfl (fun k _ ↦ keeps_of_eq rfl rfl) ?_ ?_
  · intro k
    rw [hi.held]
    split
    · rename_i hk
      rw [hk, heldOf, hfresh]
    · rfl
  · intro a k _ hlog
    cases hlog

private theorem Inv.record {account : String} {key : Key}
    (hc : s.conns.lookup ctx = some c)
    (henrolled : stillAuthorized cfg s.accounts account key = true) : Inv cfg { s with
        conns := s.conns.insert ctx
          { c with lc := recorded c account key, login := .loggedIn account key } } := by
  refine hi.change_conn hc rfl rfl rfl (fun k _ ↦ keeps_of_eq rfl rfl) ?_ ?_
  · dsimp only [recorded]
    split <;> rfl
  · intro a k hlive hlog
    cases hlog
    have hrec : recorded c account key = { c.lc with account, key := some key } := if_pos hlive
    refine ⟨by rw [hrec], by rw [hrec], ?_⟩
    intro hnot
    rw [henrolled] at hnot
    cases hnot

private theorem Inv.hold (hh : h ∉ s.holds) (hc : s.conns.lookup ctx = some c) : Inv cfg
      { s with
        conns := s.conns.insert ctx { c with lc := { c.lc with held := c.lc.held + 1 } }
        holds := s.holds.insert h (.taken (some ctx)) } := by
  have hnone : s.holds.lookup h = none := AList.lookup_eq_none.mpr hh
  have hkeeps : ∀ k, Keeps s
      { s with
        conns := s.conns.insert ctx { c with lc := { c.lc with held := c.lc.held + 1 } }
        holds := s.holds.insert h (.taken (some ctx)) } k := fun k ↦
    keeps_hold rfl (by rw [hnone]; nofun) fun h' hne ↦ AList.lookup_insert_ne hne
  refine hi.change rfl rfl (fun k _ ↦ hkeeps k) ?_ ?_
  · intro k
    rw [holders_insert hh, hi.held]
    by_cases hk : k = ctx
    · subst hk
      simp [heldOf_eq hc]
    · have hne : Hold.taken (some ctx) ≠ .taken (some k) := by
        intro heq
        cases heq
        exact hk rfl
      rw [if_neg hk, if_neg hne, Nat.add_zero]
  · exact (hi.honest ctx c hc).keeps rfl (hkeeps ctx) ⟨id, .inr, id, Nat.le_succ _⟩ rfl rfl rfl rfl

section

variable (hh : s.holds.lookup h = some (.taken (some ctx)))

include hh

variable (hc : s.conns.lookup ctx = some c)

include hc

private theorem Inv.released (k : Nat) :
    holders (s.holds.erase h) k = if k = ctx then c.lc.held - 1 else heldOf s.conns k := by
  have hcount := holders_erase hh k
  rw [hi.held] at hcount
  by_cases hk : k = ctx
  · subst hk
    rw [if_pos rfl, heldOf_eq hc] at hcount
    rw [if_pos rfl]
    omega
  · have hne : Hold.taken (some ctx) ≠ .taken (some k) := by
      intro heq
      cases heq
      exact hk rfl
    rw [if_neg hne] at hcount
    rw [if_neg hk, hcount]
    rfl

private theorem Inv.release
    (hclosing : ¬(c.lc.held - 1 = 0 ∧ c.lc.revoked = true)) : Inv cfg { s with
        conns := s.conns.insert ctx { c with lc := { c.lc with held := c.lc.held - 1 } }
        holds := s.holds.erase h } := by
  have hkeeps : ∀ k, Keeps s
      { s with
        conns := s.conns.insert ctx { c with lc := { c.lc with held := c.lc.held - 1 } }
        holds := s.holds.erase h } k := fun k ↦
    keeps_hold rfl (by rw [hh]; nofun) fun h' hne ↦ AList.lookup_erase_ne hne
  refine hi.change rfl rfl (fun k _ ↦ hkeeps k) (hi.released hh hc) ?_
  intro a k hlive hlog
  obtain ⟨ha, hk, hcov⟩ := hi.honest ctx c hc a k hlive hlog
  refine ⟨ha, hk, ?_⟩
  intro hnot
  cases hcov hnot with
  | closed h => exact .closed h
  | scheduled h => exact .scheduled h
  | held hrevoked hheld =>
    -- the mark is still waited on: this was not the last hold
    refine .held hrevoked ?_
    have : c.lc.held - 1 ≠ 0 := fun h ↦ hclosing ⟨h, hrevoked⟩
    show 0 < c.lc.held - 1
    omega
  | closing hh' => exact .closing ((hkeeps ctx).closing _ hh')
  | owed hi howes => exact .owed hi howes

private theorem Inv.releaseClosing : Inv cfg
      { s with
        conns := s.conns.insert ctx { c with lc := { c.lc with held := c.lc.held - 1 } }
        holds := s.holds.insert h (.closing ctx) } := by
  refine hi.change rfl rfl ?_ ?_ ?_
  · intro k _
    exact keeps_hold rfl (by rw [hh]; nofun) fun h' hne ↦ AList.lookup_insert_ne hne
  · intro k
    rw [holders_closing]
    exact hi.released hh hc k
  · intro a k hlive hlog
    obtain ⟨ha, hk, -⟩ := hi.honest ctx c hc a k hlive hlog
    exact ⟨ha, hk, fun _ ↦ .closing (AList.lookup_insert _)⟩

end

private theorem Inv.schedule
    (hh : s.holds.lookup h = some (.closing ctx)) (hc : s.conns.lookup ctx = some c) : Inv cfg
      { s with
        conns := s.conns.insert ctx { c with scheduled := c.scheduled + 1 }
        holds := s.holds.erase h } := by
  refine hi.change rfl rfl ?_ ?_ ?_
  · intro k hne
    refine keeps_hold rfl ?_ fun h' hne ↦ AList.lookup_erase_ne hne
    rw [hh]
    intro heq
    cases heq
    exact hne rfl
  · intro k
    have hcount := holders_erase hh k
    rw [hi.held, if_neg (by nofun), Nat.add_zero] at hcount
    rw [← hcount]
    split
    · rename_i hk
      rw [hk, heldOf_eq hc]
    · rfl
  · intro a k hlive hlog
    obtain ⟨ha, hk, -⟩ := hi.honest ctx c hc a k hlive hlog
    exact ⟨ha, hk, fun _ ↦ .scheduled (Nat.succ_pos _)⟩

private theorem Inv.publish {accounts : Accounts Key} :
    Inv cfg { s with accounts, syncs := s.syncs.insert i .published } where
  held := hi.held
  honest ctx c hc a k hlive hlog := by
    obtain ⟨ha, hk, -⟩ := hi.honest ctx c hc a k hlive hlog
    exact ⟨ha, hk, fun _ ↦ .owed (AList.lookup_insert _) True.intro⟩

private theorem Inv.sweep (hs : s.syncs.lookup i = some .published) :
    Inv cfg { s with mu := some i, syncs := s.syncs.insert i (.sweeping s.live []) } := by
  refine hi.still rfl rfl ?_ fun _ ↦ rfl
  intro k c hc hlive
  exact keeps_sync hs rfl rfl fun _ ↦ .inl (mem_live hc hlive)

end

private theorem turn_same (cfg : Config Key) (s : State Key) (c : Conn Key) :
    (s.turn cfg c).1.login = c.login ∧ (s.turn cfg c).1.live = c.live ∧
      (s.turn cfg c).1.lc.account = c.lc.account ∧ (s.turn cfg c).1.lc.key = c.lc.key ∧
      (s.turn cfg c).1.lc.held = c.lc.held := by
  unfold turn
  split
  · split
    · exact ⟨rfl, rfl, rfl, rfl, rfl⟩
    · split <;> exact ⟨rfl, rfl, rfl, rfl, rfl⟩
  · exact ⟨rfl, rfl, rfl, rfl, rfl⟩

/-- A turn at a key that is not enrolled marks the connection or has it closed. -/
theorem turn_revoked {a : String} {k : Key} (ha : c.lc.account = a)
    (hk : c.lc.key = some k) (hnot : stillAuthorized cfg s.accounts a k = false) :
    (s.turn cfg c).1.lc.revoked = true ∧ 0 < (s.turn cfg c).1.lc.held ∨
      (s.turn cfg c).2 = true := by
  rw [turn, hk]
  dsimp only
  rw [ha, hnot, if_neg Bool.false_ne_true]
  by_cases hheld : c.lc.held > 0
  · rw [if_pos hheld]
    exact .inl ⟨rfl, hheld⟩
  · rw [if_neg hheld]
    exact .inr rfl

private theorem Inv.visit {todo revoked : List Nat} (hi : s.Inv cfg)
    (hs : s.syncs.lookup i = some (.sweeping todo revoked)) (hc : s.conns.lookup ctx = some c) :
    Inv cfg { s with
        conns := s.conns.insert ctx (s.turn cfg c).1
        syncs := s.syncs.insert i
          (.sweeping (todo.erase ctx)
            (if (s.turn cfg c).2 then revoked ++ [ctx] else revoked)) } := by
  obtain ⟨hlogin, hlive', haccount, hkey, hheld⟩ := turn_same cfg s c
  refine hi.change_conn hc rfl rfl rfl ?_ hheld ?_
  · intro k hne
    refine keeps_sync hs rfl rfl ?_
    rintro (hk | hk)
    · exact .inl ((List.mem_erase_of_ne hne).mpr hk)
    · refine .inr ?_
      split
      · exact List.mem_append_left _ hk
      · exact hk
  · intro a k hlive hlog
    obtain ⟨ha, hk, -⟩ := hi.honest ctx c hc a k (hlive'.symm.trans hlive) (hlogin.symm.trans hlog)
    refine ⟨haccount.trans ha, hkey.trans hk, ?_⟩
    intro hnot
    rcases turn_revoked (s := s) ha hk hnot with ⟨hrevoked, hpos⟩ | hclose
    · exact .held hrevoked hpos
    · refine .owed (AList.lookup_insert _) (.inr ?_)
      rw [if_pos hclose]
      exact List.mem_append_right _ (List.mem_singleton_self _)

private theorem Inv.close {revoked : List Nat} (hi : s.Inv cfg)
    (hs : s.syncs.lookup i = some (.closing (ctx :: revoked))) (hc : s.conns.lookup ctx = some c) :
    Inv cfg { s with
        conns := s.conns.insert ctx { c with closed := true }
        syncs := s.syncs.insert i (.closing revoked) } := by
  refine hi.change_conn hc rfl rfl rfl ?_ rfl ?_
  · intro k hne
    refine keeps_sync hs rfl rfl ?_
    intro hk
    exact (List.mem_cons.mp hk).resolve_left hne
  · intro a k hlive hlog
    obtain ⟨ha, hk, -⟩ := hi.honest ctx c hc a k hlive hlog
    exact ⟨ha, hk, fun _ ↦ .closed rfl⟩

private theorem Inv.finish (hi : s.Inv cfg) (hs : s.syncs.lookup i = some (.closing [])) :
    Inv cfg { s with syncs := s.syncs.erase i } := by
  refine hi.still rfl rfl ?_ fun _ ↦ rfl
  intro k c _ _
  refine ⟨fun _ hh ↦ hh, ?_⟩
  intro j p hj howes
  have hne : j ≠ i := by
    rintro rfl
    rw [hs] at hj
    cases hj
    exact absurd howes List.not_mem_nil
  exact ⟨p, by rw [AList.lookup_erase_ne hne]; exact hj, howes⟩

private theorem Inv.step (hi : s.Inv cfg) (h : Steps cfg s s') : s'.Inv cfg := by
  cases h with
  | same => exact hi
  | track hfresh => exact hi.track hfresh
  | shake hc hlogin =>
    refine hi.change_conn hc rfl rfl rfl (fun k _ ↦ keeps_of_eq rfl rfl) rfl ?_
    intro a k _ hlog
    exact absurd hlog (hlogin a k)
  | record hc henrolled => exact hi.record hc henrolled
  | refuse hc =>
    refine hi.change_conn hc rfl rfl rfl (fun k _ ↦ keeps_of_eq rfl rfl) ?_ ?_
    · dsimp only [recorded]
      split <;> rfl
    · intro a k _ hlog
      cases hlog
  | done hc =>
    refine hi.change_conn hc rfl rfl rfl (fun k _ ↦ keeps_of_eq rfl rfl) rfl ?_
    intro a k hlive
    cases hlive
  | hold hh hc => exact hi.hold hh hc
  | holdNone hh =>
    refine hi.still rfl rfl ?_ ?_
    · intro k c _ _
      have hnone := AList.lookup_eq_none.mpr hh
      exact keeps_hold rfl (by rw [hnone]; nofun) fun h' hne ↦ AList.lookup_insert_ne hne
    · intro k
      rw [holders_insert hh, if_neg (by nofun), Nat.add_zero]
  | releaseNone hh =>
    refine hi.still rfl rfl ?_ ?_
    · intro k c _ _
      exact keeps_hold rfl (by rw [hh]; nofun) fun h' hne ↦ AList.lookup_erase_ne hne
    · intro k
      rw [holders_erase hh, if_neg (by nofun), Nat.add_zero]
  | release hh hc hclosing => exact hi.release hh hc hclosing
  | releaseClosing hh hc => exact hi.releaseClosing hh hc
  | schedule hh hc => exact hi.schedule hh hc
  | expire hc =>
    refine hi.change_conn hc rfl rfl rfl (fun k _ ↦ keeps_of_eq rfl rfl) rfl ?_
    exact (hi.honest _ _ hc).keeps rfl (keeps_of_eq rfl rfl)
      ⟨fun _ ↦ rfl, fun _ ↦ .inl rfl, id, Nat.le_refl _⟩ rfl rfl rfl rfl
  | publish => exact hi.publish
  | sweep hs => exact hi.sweep hs
  | visit hs hc => exact hi.visit hs hc
  | unlock hs =>
    refine hi.still rfl rfl ?_ fun _ ↦ rfl
    intro k c _ _
    refine keeps_sync hs rfl rfl ?_
    rintro (hk | hk)
    · exact absurd hk List.not_mem_nil
    · exact hk
  | close hs hc => exact hi.close hs hc
  | finish hs => exact hi.finish hs

/-- Only a record logs a connection in, and only with a key enrolled at that moment. -/
theorem Steps.login {a : String} {k : Key} (h : Steps cfg s s')
    (hc' : s'.conns.lookup ctx = some c') (hlog : c'.login = .loggedIn a k) :
    (∃ c, s.conns.lookup ctx = some c ∧ c.login = .loggedIn a k) ∨
      stillAuthorized cfg s.accounts a k = true := by
  -- all but the record leave the login of the connection they change, or end without one
  have hkeep : ∀ {k₁ : Nat} {c₁ c₂ : Conn Key}, s.conns.lookup k₁ = some c₁ →
      (s.conns.insert k₁ c₂).lookup ctx = some c' → c₂.login = c₁.login →
      ∃ c, s.conns.lookup ctx = some c ∧ c.login = .loggedIn a k := by
    intro k₁ c₁ c₂ hc₁ hc' hlogin
    rcases lookup_insert_eq_some.mp hc' with ⟨rfl, rfl⟩ | ⟨-, hc⟩
    · exact ⟨c₁, hc₁, hlogin ▸ hlog⟩
    · exact ⟨c', hc, hlog⟩
  have hnone : ∀ {k₁ : Nat} {c₂ : Conn Key}, (∀ a k, c₂.login ≠ .loggedIn a k) →
      (s.conns.insert k₁ c₂).lookup ctx = some c' →
      ∃ c, s.conns.lookup ctx = some c ∧ c.login = .loggedIn a k := by
    intro k₁ c₂ hlogin hc'
    rcases lookup_insert_eq_some.mp hc' with ⟨rfl, rfl⟩ | ⟨-, hc⟩
    · exact absurd hlog (hlogin a k)
    · exact ⟨c', hc, hlog⟩
  cases h with
  | same => exact .inl ⟨c', hc', hlog⟩
  | track hfresh => exact .inl (hnone (by nofun) hc')
  | shake hc hlogin => exact .inl (hnone hlogin hc')
  | record hc henrolled =>
    rcases lookup_insert_eq_some.mp hc' with ⟨rfl, rfl⟩ | ⟨-, hc⟩
    · cases hlog
      exact .inr henrolled
    · exact .inl ⟨c', hc, hlog⟩
  | refuse hc => exact .inl (hnone (by nofun) hc')
  | done hc => exact .inl (hkeep hc hc' rfl)
  | hold hh hc => exact .inl (hkeep hc hc' rfl)
  | holdNone hh => exact .inl ⟨c', hc', hlog⟩
  | releaseNone hh => exact .inl ⟨c', hc', hlog⟩
  | release hh hc hclosing => exact .inl (hkeep hc hc' rfl)
  | releaseClosing hh hc => exact .inl (hkeep hc hc' rfl)
  | schedule hh hc => exact .inl (hkeep hc hc' rfl)
  | expire hc => exact .inl (hkeep hc hc' rfl)
  | publish => exact .inl ⟨c', hc', hlog⟩
  | sweep hs => exact .inl ⟨c', hc', hlog⟩
  | visit hs hc => exact .inl (hkeep hc hc' (turn_same cfg s _).1)
  | unlock hs => exact .inl ⟨c', hc', hlog⟩
  | close hs hc => exact .inl (hkeep hc hc' rfl)
  | finish hs => exact .inl ⟨c', hc', hlog⟩

private theorem holds_of_quiet (h : s.quiet = true) : s.holds = ∅ := by
  rw [quiet, Bool.and_eq_true, Bool.and_eq_true] at h
  exact AList.ext (List.isEmpty_iff.mp h.1.2)

private theorem syncs_of_quiet (h : s.quiet = true) : s.syncs = ∅ := by
  rw [quiet, Bool.and_eq_true] at h
  exact AList.ext (List.isEmpty_iff.mp h.2)

/-- In a quiet state what covers a connection is its close. -/
theorem Inv.closes (hi : s.Inv cfg) (hquiet : s.quiet = true)
    (hc : s.conns.lookup ctx = some c) (h : s.Covered ctx c) :
    c.closed = true ∨ 0 < c.scheduled := by
  cases h with
  | closed h => exact .inl h
  | scheduled h => exact .inr h
  | held _ hheld =>
    have hcount := hi.held ctx
    rw [holds_of_quiet hquiet, heldOf_eq hc] at hcount
    rw [← hcount] at hheld
    exact absurd hheld (Nat.lt_irrefl 0)
  | closing hh =>
    rw [holds_of_quiet hquiet] at hh
    cases hh
  | owed hi' _ =>
    rw [syncs_of_quiet hquiet] at hi'
    cases hi'

end State

section

variable [DecidableEq Key]

private theorem inv_run {accounts : Accounts Key} {es : List (Event Key)}
    (hr : (machine cfg).run (start accounts) es = some s) : s.Inv cfg := by
  have hstart : (start accounts).Inv cfg := ⟨fun _ ↦ rfl, fun ctx c hc ↦ by cases hc⟩
  exact (machine cfg).run_invariant_all
    (fun _ _ _ hi h ↦ hi.step (State.steps_of_act h)) hstart hr

/-- Revocation disconnects: whatever connections, logins, holds and syncs there have been, in
whatever order, once none of them is in progress every live connection that logged in with a key its
account does not enrol has been closed or will be. A login that succeeds is recorded with a key
enrolled at that moment. -/
theorem revoked_closed (accounts : Accounts Key) (es : List (Event Key))
    (hr : (machine cfg).run (start accounts) es = some s) :
    (s.quiet = true → ∀ ctx c a k, s.conns.lookup ctx = some c → c.live = true →
      c.login = .loggedIn a k → stillAuthorized cfg s.accounts a k = false →
        c.closed = true ∨ 0 < c.scheduled) ∧
    ∀ e s' ctx c' a k, (machine cfg).step s e = some s' → s'.conns.lookup ctx = some c' →
      c'.login = .loggedIn a k → (∀ c, s.conns.lookup ctx = some c → c.login ≠ .loggedIn a k) →
        stillAuthorized cfg s.accounts a k = true := by
  have hi := inv_run hr
  constructor
  · intro hquiet ctx c a k hc hlive hlog hnot
    obtain ⟨-, -, hcov⟩ := hi.honest ctx c hc a k hlive hlog
    exact hi.closes hquiet hc (hcov hnot)
  · intro e s' ctx c' a k hstep hc' hlog hnew
    rcases (State.steps_of_act hstep).login hc' hlog with ⟨c, hc, hold⟩ | henrolled
    · exact absurd hold (hnew c hc)
    · exact henrolled

end

/-- The server as it is configured for the run below. -/
def aliceConfig : Config Nat where
  names :=
    { lower := Char.toLower, quote := id, enrolledDir := "/enrolled", admins := fun _ ↦ false }
  ephemeral _ := false
  fingerprint k := toString k
  clientID k := toString k

/-- Alice's key is taken out while one of their connections is held by the request that does so, and
another is idle. -/
def heldAndIdle : List (Event Nat) :=
  [.track 0, .offer 0 "Alice" false 7, .sign 0 7, .record 0,
    .track 1, .offer 1 "alice" false 7, .sign 1 7, .record 1,
    .hold 0 0, .publish 0 (AList.singleton "alice" ⟨"alice", 1000, []⟩), .sweep 0, .visit 0 1,
    .visit 0 0, .unlock 0, .close 0, .close 0, .release 0, .schedule 0]

theorem revoked_closed_heldAndIdle :
    ∃ s : State Nat,
      (machine aliceConfig).run (start (AList.singleton "alice" ⟨"alice", 1000, [7]⟩)) heldAndIdle =
        some s ∧
      ∀ ctx < 2, ∃ c, s.conns.lookup ctx = some c ∧ c.login = .loggedIn "alice" 7 ∧
        stillAuthorized aliceConfig s.accounts "alice" 7 = false ∧
          (c.closed = true ∨ 0 < c.scheduled) := by
  obtain ⟨s, hs, hquiet, hnot, hconns⟩ : ∃ s : State Nat, (machine aliceConfig).run
      (start (AList.singleton "alice" ⟨"alice", 1000, [7]⟩)) heldAndIdle = some s ∧
      s.quiet = true ∧ stillAuthorized aliceConfig s.accounts "alice" 7 = false ∧
      ∀ ctx < 2, ∃ c, s.conns.lookup ctx = some c ∧ c.live = true ∧
        c.login = .loggedIn "alice" 7 := by
    decide +kernel
  refine ⟨s, hs, ?_⟩
  intro ctx hctx
  obtain ⟨c, hc, hlive, hlogin⟩ := hconns ctx hctx
  exact ⟨c, hc, hlogin, hnot, (revoked_closed _ _ hs).1 hquiet ctx c _ _ hc hlive hlogin hnot⟩

end RemoteDocker.Sessions

import RemoteDocker.Runs.Steps

/-!
# What follows on a state of the registry

What any event does to the ports, the runs, the calls and the sweep, each said on its own, and the
invariant that follows for every run. A run that a sweep has collected stays as it was collected
until it is removed, and once it is gone its token frees nothing.
-/

namespace RemoteDocker.Runs

open Base Tunnels

def Progress.due : Progress → List Due
  | .next => []
  | .cleaning d => [d]
  | .cleaned d => [d]
  | .freed d => [d]

/-- What becomes of a run that stays: it does not come back from its cleanup, and keeps its port. -/
structure Became (r r' : Run) : Prop where
  id : r'.id = r.id
  cleaning : r.state = .cleaning → r'.state = .cleaning
  port : r'.port = r.port
  token : r'.token = r.token

private theorem Became.refl (r : Run) : Became r r := ⟨rfl, fun h ↦ h, rfl, rfl⟩

namespace State

variable {cfg : Config} {s s' : State} {e : Event} {k : Assignment} {r : Run} {d : Due}

/-- A sweep has freed the port of this run and not yet removed it. -/
def Leaving (s : State) (k : Assignment) (id : Nat) : Prop :=
  ∃ due d, s.sweep = some ⟨due, .freed d⟩ ∧ d.key = k ∧ d.id = id

/-- A sweep has collected it and is not done with it. -/
def Collected (s : State) (d : Due) : Prop :=
  ∃ sweep, s.sweep = some sweep ∧ (d ∈ sweep.due ∨ d ∈ sweep.progress.due)

/-- What holds of a run that was collected. -/
structure Tracked (s : State) (d : Due) : Prop where
  id : d.id < s.made
  token : d.token ≤ s.ports.next
  same : ∀ r, s.runs.lookup d.key = some r → r.id = d.id →
    r.state = .cleaning ∧ r.port = d.port ∧ r.token = d.token
  gone : (∀ r, s.runs.lookup d.key = some r → r.id ≠ d.id) → s.ports.Spent d.key d.token

structure Inv (s : State) : Prop where
  ports : s.ports.Inv
  numbered : s.ports.Numbered
  counted : s.Counted
  portless : ∀ k r, s.runs.lookup k = some r → r.port = 0 → r.token = 0
  tokens : ∀ k r, s.runs.lookup k = some r → r.token ≤ s.ports.next
  calls : ∀ n c, s.calls.lookup n = some c → c.id < s.made
  given : ∀ n c e, s.calls.lookup n = some c → c.stage = .given (.ok e) →
    e.port ≠ 0 ∧ e.token ≤ s.ports.next
  tracked : ∀ d, s.Collected d → s.Tracked d
  freed : ∀ due d, s.sweep = some ⟨due, .freed d⟩ → s.ports.Spent d.key d.token

/-- For which run an event frees a token: one that was cleaned up, one whose account is dropped, or
one that had gone or expired when its allocation ended. -/
inductive Frees (s : State) : Event → State → Assignment → Nat → Nat → Prop
  | cleaned {s' : State} (d : Due) (due : List Due) (hsweep : s.sweep = some ⟨due, .cleaned d⟩)
      (hafter : s'.sweep = some ⟨due, .freed d⟩) : Frees s .free s' d.key d.token d.id
  | dropped {s' : State} (account client : String) (r : Run) (hdrop : s.dropping = some account)
      (hr : s.runs.lookup ⟨account, client⟩ = some r)
      (hafter : s'.runs.lookup ⟨account, client⟩ = none) :
      Frees s (.dropRun client) s' ⟨account, client⟩ r.token r.id
  | expired {s' : State} (n : Nat) (c : PortCall) (entry : Entry)
      (hc : s.calls.lookup n = some c) (hstage : c.stage = .given (.ok entry))
      (hgone : ∀ r, s.runs.lookup c.key = some r → r.id = c.id → r.state = .cleaning)
      (hfreed : (s.ports.release c.key entry.token).2 = true) :
      Frees s (.portEnd n) s' c.key entry.token c.id

structure PortsStep (s : State) (e : Event) (s' : State) : Prop where
  inv : s'.ports.Inv
  numbered : s'.ports.Numbered
  ahead : s.ports.Ahead s'.ports
  lost : ∀ k entry, s.ports.view.lookup k = some entry →
    s'.ports.view.lookup k = some entry ∨
      entry.ephemeral = true ∧ entry.token ≠ 0 ∧ ∃ id, Frees s e s' k entry.token id

private theorem PortsStep.same (hi : Inv s) (hports : s'.ports = s.ports) : PortsStep s e s' where
  inv := hports ▸ hi.ports
  numbered := hports ▸ hi.numbered
  ahead := hports ▸ .refl s.ports
  lost _ _ h := .inl (hports ▸ h)

private theorem PortsStep.of_grant {ephemeral : Bool} {fit : Int → Prop} (hi : Inv s) (hk : k.Named)
    (hgrant : s.ports.Grant k ephemeral fit s'.ports) (hfit : ∀ port, fit port → port ≠ 0)
    (hrange : ∀ port, fit port → ephemeral = false → 1 ≤ port ∧ port ≤ maxPort) :
    PortsStep s e s' where
  inv := Ports.inv_effect hi.ports (hgrant.effect hk hrange)
  numbered := hgrant.numbered hfit hi.numbered
  ahead := hgrant.ahead
  lost _ _ h := .inl (hgrant.keeps h)

private theorem PortsStep.of_released {t id : Nat} (hi : Inv s) (hq : s'.ports.Inv)
    (hreleased : s.ports.Released k t s'.ports) (hfrees : Frees s e s' k t id) :
    PortsStep s e s' where
  inv := hq
  numbered := hreleased.numbered hi.numbered
  ahead := hreleased.ahead
  lost k' entry h := by
    rcases hreleased.lost h with hkept | ⟨rfl, rfl, hrun, hne⟩
    · exact .inl hkept
    · exact .inr ⟨hrun, hne, id, hfrees⟩

/-- Where a run comes from: it was there, it is new, or it was there and has got its port. -/
inductive Origin (s : State) (e : Event) (s' : State) (k : Assignment) (r' : Run) : Prop
  | same (r : Run) (hr : s.runs.lookup k = some r) (hbecame : Became r r')
  | fresh (conn : Nat) (account client : Name) (now : Int)
      (hattach : e = .attach conn account client now) (hkey : k = assignmentOf account client)
      (hnone : s.runs.lookup k = none) (hid : s.made ≤ r'.id) (hport : r'.port = 0)
      (htoken : r'.token = 0)
  | fills (r : Run) (n : Nat) (c : PortCall) (entry : Entry) (hr : s.runs.lookup k = some r)
      (hstate : r.state ≠ .cleaning) (hid : r'.id = r.id) (hport : r'.port = entry.port)
      (htoken : r'.token = entry.token) (hc : s.calls.lookup n = some c) (hkey : c.key = k)
      (hcall : c.id = r.id) (hstage : c.stage = .given (.ok entry))
      (hports : s'.ports = s.ports)

structure RunsStep (s : State) (e : Event) (s' : State) : Prop where
  made : s.made ≤ s'.made
  runs : ∀ k r', s'.runs.lookup k = some r' → Origin s e s' k r'
  gone : ∀ k r, s.runs.lookup k = some r →
    (∃ r', s'.runs.lookup k = some r' ∧ r'.id = r.id) ∨ s'.ports.Spent k r.token

private theorem RunsStep.same (hmade : s'.made = s.made) (hruns : s'.runs = s.runs) :
    RunsStep s e s' where
  made := hmade.ge
  runs _ r' hr' := .same r' (hruns ▸ hr') (.refl r')
  gone _ r hr := .inl ⟨r, hruns ▸ hr, rfl⟩

private theorem RunsStep.insert {ru : Run} (hmade : s.made ≤ s'.made)
    (hruns : s'.runs = s.runs.insert k ru) (hr : s.runs.lookup k = some r)
    (hbecame : Became r ru) : RunsStep s e s' where
  made := hmade
  runs k' r' hr' := by
    rw [hruns] at hr'
    rcases lookup_insert_eq_some.mp hr' with ⟨rfl, rfl⟩ | ⟨-, hr'⟩
    · exact .same r hr hbecame
    · exact .same r' hr' (.refl r')
  gone k' r' hr' := by
    rw [hruns]
    by_cases hk' : k' = k
    · subst hk'
      cases hr.symm.trans hr'
      exact .inl ⟨ru, AList.lookup_insert _, hbecame.id⟩
    · exact .inl ⟨r', (AList.lookup_insert_ne hk').trans hr', rfl⟩

private theorem RunsStep.erase (hmade : s'.made = s.made) (hruns : s'.runs = s.runs.erase k)
    (hr : s.runs.lookup k = some r) (hspent : s'.ports.Spent k r.token) : RunsStep s e s' where
  made := hmade.ge
  runs k' r' hr' := by
    rw [hruns] at hr'
    exact .same r' (lookup_erase_eq_some.mp hr').2 (.refl r')
  gone k' r' hr' := by
    rw [hruns]
    by_cases hk' : k' = k
    · subst hk'
      cases hr.symm.trans hr'
      exact .inr hspent
    · exact .inl ⟨r', (AList.lookup_erase_ne hk').trans hr', rfl⟩

/-- What an event does to the calls: one that is there was there, and what it was given with the
event is assigned; or it is new, and of the run there is. -/
def CallsStep (s s' : State) : Prop :=
  ∀ n c, s'.calls.lookup n = some c →
    (∃ c₀, s.calls.lookup n = some c₀ ∧ c₀.key = c.key ∧ c₀.id = c.id ∧
      (c.stage = c₀.stage ∨
        ∀ entry, c.stage = .given (.ok entry) → s'.ports.view.lookup c.key = some entry)) ∨
    c.stage = .entering ∧ ∃ r, s.runs.lookup c.key = some r ∧ r.id = c.id

private theorem CallsStep.same (hcalls : s'.calls = s.calls) : CallsStep s s' :=
  fun _ c hc ↦ .inl ⟨c, hcalls ▸ hc, rfl, rfl, .inl rfl⟩

structure SweepStep (s s' : State) : Prop where
  collected : ∀ d, s'.Collected d → s.Collected d ∨ ∃ r, s'.runs.lookup d.key = some r ∧
    r.state = .cleaning ∧ d = ⟨d.key, r.id, r.port, r.token⟩
  freed : ∀ due d, s'.sweep = some ⟨due, .freed d⟩ →
    s.sweep = some ⟨due, .freed d⟩ ∨ s'.ports.Spent d.key d.token
  leaving : ∀ k r', s'.runs.lookup k = some r' → s.Leaving k r'.id → s'.Leaving k r'.id
  due : ∀ sweep', s'.sweep = some sweep' →
    (∃ sweep, s.sweep = some sweep ∧ ∀ d ∈ sweep'.due, d ∈ sweep.due) ∨
    ∀ d ∈ sweep'.due, ∃ r, s'.runs.lookup d.key = some r ∧ r.id = d.id
  cleaned : ∀ due d, s'.sweep = some ⟨due, .cleaned d⟩ →
    s.sweep = some ⟨due, .cleaned d⟩ ∨ d.id ∈ s'.cleaned
  kept : ∀ id ∈ s.cleaned, id ∈ s'.cleaned

private theorem SweepStep.same (hsweep : s'.sweep = s.sweep) (hcleaned : s'.cleaned = s.cleaned) :
    SweepStep s s' where
  collected d h := by
    rw [Collected, hsweep] at h
    exact .inl h
  freed _ _ h := .inl (hsweep ▸ h)
  leaving _ _ _ h := by
    rw [Leaving, hsweep]
    exact h
  due sweep' h := .inl ⟨sweep', hsweep ▸ h, fun _ hd ↦ hd⟩
  cleaned _ _ h := .inl (hsweep ▸ h)
  kept _ h := hcleaned ▸ h

private theorem SweepStep.goOn {sweep sweep' : Sweep} (hsweep : s.sweep = some sweep)
    (hsweep' : s'.sweep = some sweep')
    (hdue : ∀ d ∈ sweep'.due, d ∈ sweep.due)
    (hprogress : ∀ d ∈ sweep'.progress.due, d ∈ sweep.due ∨ d ∈ sweep.progress.due)
    (hcleaned : ∀ d, sweep'.progress = .cleaned d → d.id ∈ s'.cleaned)
    (hkept : ∀ id ∈ s.cleaned, id ∈ s'.cleaned)
    (hfreed : ∀ d, sweep'.progress = .freed d → s'.ports.Spent d.key d.token)
    (hleaving : ∀ k r', s'.runs.lookup k = some r' → ¬s.Leaving k r'.id) : SweepStep s s' where
  collected d h := by
    obtain ⟨sweep'', h'', hd⟩ := h
    cases hsweep'.symm.trans h''
    refine .inl ⟨sweep, hsweep, ?_⟩
    rcases hd with hd | hd
    · exact .inl (hdue d hd)
    · exact hprogress d hd
  freed due d h := by
    cases hsweep'.symm.trans h
    exact .inr (hfreed d rfl)
  leaving k r' hr' h := absurd h (hleaving k r' hr')
  due sweep'' h := by
    cases hsweep'.symm.trans h
    exact .inl ⟨sweep, hsweep, hdue⟩
  cleaned due d h := by
    cases hsweep'.symm.trans h
    exact .inr (hcleaned d rfl)
  kept := hkept

structure Follows (s : State) (e : Event) (s' : State) : Prop where
  ports : PortsStep s e s'
  runs : RunsStep s e s'
  calls : CallsStep s s'
  sweep : SweepStep s s'

private theorem spent_zero (ports : Ports) (k : Assignment) : ports.Spent k 0 := fun hne ↦
    absurd rfl hne

variable {now : Int} {n : Nat} {c : PortCall} {ports : Ports}

private theorem runsStep_detach {conn : Nat} {id : Nat} {runs : Table} (hi : Inv s)
    (hconn : s.conns.lookup conn = some (k, id)) (hruns : Detached s.runs k id now runs) :
    RunsStep s e { s with runs, conns := s.conns.erase conn } := by
  cases hruns with
  | other _ => exact .same rfl rfl
  | stays r hr hid hmore => exact .insert le_rfl rfl hr ⟨rfl, fun h ↦ h, rfl, rfl⟩
  | ends r hr hid hport =>
    refine .erase rfl rfl hr ?_
    rw [hi.portless k r hr hport]
    exact spent_zero _ _
  | grace r hr hid hlast =>
    subst hid
    refine .insert le_rfl rfl hr ⟨rfl, fun hcleaning ↦ ?_, rfl, rfl⟩
    rw [(hi.counted.live_of_conn hconn hr).1] at hcleaning
    cases hcleaning

private theorem runsStep_attachNew {conns : AList fun _ : Nat ↦ Assignment × Nat} {conn : Nat}
    {account client : Name} (hnone : s.runs.lookup (assignmentOf account client) = none) :
    RunsStep s (.attach conn account client now) { s with
      runs := s.runs.insert (assignmentOf account client)
        { id := s.made, conns := 1, lastSeen := now }
      made := s.made + 1
      conns } where
  made := Nat.le_succ _
  runs k' r' hr' := by
    rcases lookup_insert_eq_some.mp hr' with ⟨rfl, rfl⟩ | ⟨-, hr'⟩
    · exact .fresh conn account client now rfl rfl hnone le_rfl rfl rfl
    · exact .same r' hr' (.refl r')
  gone k' r' hr' := by
    refine .inl ⟨r', lookup_insert_eq_some.mpr (.inr ⟨?_, hr'⟩), rfl⟩
    rintro rfl
    rw [hnone] at hr'
    cases hr'

private theorem callsStep_insert {c' : PortCall} (hcalls : s'.calls = s.calls.insert n c')
    (hc : s.calls.lookup n = some c) (hkey : c.key = c'.key) (hid : c.id = c'.id)
    (hgiven : ∀ entry, c'.stage = .given (.ok entry) →
      s'.ports.view.lookup c'.key = some entry) : CallsStep s s' := by
  intro n' c'' hc''
  rw [hcalls] at hc''
  rcases lookup_insert_eq_some.mp hc'' with ⟨rfl, rfl⟩ | ⟨-, hc''⟩
  · exact .inl ⟨c, hc, hkey, hid, .inr hgiven⟩
  · exact .inl ⟨c'', hc'', rfl, rfl, .inl rfl⟩

private theorem callsStep_erase (hcalls : s'.calls = s.calls.erase n) : CallsStep s s' :=
  fun _ c hc ↦ .inl ⟨c, (lookup_erase_eq_some.mp (hcalls ▸ hc)).2, rfl, rfl, .inl rfl⟩

/-- What `Port` frees at its end is what it was given, for a run that has gone or expired. -/
theorem portsStep_expired {given : Except String Entry} (hi : Inv s)
    (hc : s.calls.lookup n = some c) (hstage : c.stage = .given given)
    (hports : s'.ports = (portExpired s.ports c.key given).1)
    (hgone : ∀ r, s.runs.lookup c.key = some r → r.id = c.id → r.state = .cleaning) :
    PortsStep s (.portEnd n) s' := by
  cases given with
  | error err => exact .same hi hports
  | ok entry =>
    cases hfreed : (s.ports.release c.key entry.token).2 with
    | false => exact .same hi (hports.trans (Ports.release_eq_self hfreed))
    | true =>
      have hreleased := Ports.released hi.ports c.key entry.token
      have hinv := Ports.inv_effect hi.ports (Ports.release_effect (k := c.key) (t := entry.token))
      rw [show (s.ports.release c.key entry.token).1 = s'.ports from hports.symm] at hreleased hinv
      exact .of_released hi hinv hreleased (.expired n c entry hc hstage hgone hfreed)

private theorem follows_portEnd {given : Except String Entry} {runs : Table} (hi : Inv s)
    (hc : s.calls.lookup n = some c)
    (hstage : c.stage = .given given) (hends : Ended s.runs s.ports c.key c.id given runs ports) :
    Follows s (.portEnd n) { s with runs, ports, calls := s.calls.erase n } := by
  have hcalls : CallsStep s { s with runs, ports, calls := s.calls.erase n } := callsStep_erase rfl
  cases hends with
  | expired _ hgone =>
    refine ⟨portsStep_expired hi hc hstage rfl ?_, .same rfl rfl, hcalls, .same rfl rfl⟩
    intro r hr hid
    exact absurd hid (hgone r hr)
  | cleaning _ r hr hid hstate =>
    refine ⟨portsStep_expired hi hc hstage rfl ?_,
      .insert le_rfl rfl hr ⟨rfl, fun h ↦ h, rfl, rfl⟩, hcalls, .same rfl rfl⟩
    intro r' hr' _
    cases hr.symm.trans hr'
    exact hstate
  | keeps _ r hr =>
    exact ⟨.same hi rfl, .insert le_rfl rfl hr ⟨rfl, fun h ↦ h, rfl, rfl⟩, hcalls, .same rfl rfl⟩
  | fills entry r hr hid hstate hport =>
    refine ⟨.same hi rfl, ⟨le_rfl, ?_, ?_⟩, hcalls, .same rfl rfl⟩
    · intro k' r' hr'
      rcases lookup_insert_eq_some.mp hr' with ⟨rfl, rfl⟩ | ⟨-, hr'⟩
      · exact .fills r n c entry hr hstate rfl rfl rfl hc rfl hid.symm hstage rfl
      · exact .same r' hr' (.refl r')
    · intro k' r' hr'
      by_cases hk' : k' = c.key
      · subst hk'
        cases hr.symm.trans hr'
        exact .inl ⟨_, AList.lookup_insert _, rfl⟩
      · exact .inl ⟨r', (AList.lookup_insert_ne hk').trans hr', rfl⟩
  | ends err r hr hid hport =>
    refine ⟨.same hi rfl, .erase rfl rfl hr ?_, hcalls, .same rfl rfl⟩
    rw [hi.portless _ r hr hport]
    exact spent_zero _ _

private theorem follows_sweepBegin {enrolled : String → Bool} (hi : Inv s)
    (hsweep : s.sweep = none) :
    Follows s (.sweepBegin enrolled now) { s with
        runs := mapTable (expire cfg enrolled now) s.runs
        sweep :=
          some { due := collect enrolled (mapTable (expire cfg enrolled now) s.runs) } } := by
  refine ⟨.same hi rfl, ⟨le_rfl, ?_, ?_⟩, .same rfl, ⟨?_, ?_, ?_, ?_, nofun, fun _ h ↦ h⟩⟩
  · intro k r' hr'
    obtain ⟨r, hr, rfl | ⟨-, rfl⟩⟩ := lookup_expire hr'
    · exact .same r' hr (.refl r')
    · exact .same r hr ⟨rfl, fun _ ↦ rfl, rfl, rfl⟩
  · intro k r hr
    refine .inl ⟨expire cfg enrolled now k r, ?_, ?_⟩
    · rw [lookup_mapTable, hr]
      rfl
    · unfold expire
      split <;> rfl
  · rintro d ⟨sweep, hsweep', hd⟩
    cases hsweep'
    rcases hd with hd | hd
    · exact .inr (mem_collect hd)
    · cases hd
  · intro due d h
    cases h
  · rintro k r' - ⟨due, d, h, -⟩
    rw [hsweep] at h
    cases h
  · intro sweep' h
    cases h
    refine .inr fun d hd ↦ ?_
    obtain ⟨r, hr, -, hd⟩ := mem_collect hd
    exact ⟨r, hr, (congrArg Due.id hd).symm⟩

private theorem not_leaving {sweep : Sweep} (hsweep : s.sweep = some sweep)
    (hfreed : ∀ d, sweep.progress ≠ .freed d) (k : Assignment) (id : Nat) : ¬s.Leaving k id := by
  rintro ⟨due, d, h, -⟩
  cases hsweep.symm.trans h
  exact hfreed d rfl

private theorem follows_removes {due : List Due} (hi : Inv s)
    (hsweep : s.sweep = some ⟨due, .freed d⟩)
    (hr : s.runs.lookup d.key = some r) (hid : r.id = d.id) :
    Follows s .remove { s with runs := s.runs.erase d.key, sweep := some ⟨due, .next⟩ } := by
  refine ⟨.same hi rfl, .erase rfl rfl hr ?_, .same rfl, .goOn hsweep rfl (fun _ h ↦ h)
    nofun nofun (fun _ h ↦ h) nofun ?_⟩
  · have htracked := hi.tracked d ⟨_, hsweep, .inr (.head _)⟩
    rw [(htracked.same r hr hid).2.2]
    exact hi.freed due d hsweep
  · rintro k r' hr' ⟨due', d', hsweep', rfl, -⟩
    cases hsweep.symm.trans hsweep'
    exact (lookup_erase_eq_some.mp hr').1 rfl

private theorem follows_dropRun {account client : String} (hi : Inv s)
    (hdrop : s.dropping = some account) (hr : s.runs.lookup ⟨account, client⟩ = some r)
    (hinv : ports.Inv) (hports : r.port = 0 ∧ ports = s.ports ∨
      s.ports.Released ⟨account, client⟩ r.token ports) :
    Follows s (.dropRun client) { s with ports, runs := s.runs.erase ⟨account, client⟩ } := by
  rcases hports with ⟨hport, rfl⟩ | hreleased
  · refine ⟨.same hi rfl, .erase rfl rfl hr ?_, .same rfl, .same rfl rfl⟩
    rw [hi.portless _ r hr hport]
    exact spent_zero _ _
  · exact ⟨.of_released hi hinv hreleased
        (.dropped account client r hdrop hr (AList.lookup_erase _ _)),
      .erase rfl rfl hr hreleased.after, .same rfl, .same rfl rfl⟩

private theorem follows_forMachine {account client : Name} {uid want base : Int}
    {reserved : Int → Bool}
    {unreadable : Option String} (hi : Inv s) (hbase : cfg.mapping.portForUID uid = .ok base) :
    PortsStep s e { s with
      ports := (s.ports.decide cfg.mapping reserved (assignmentOf account client) base want false
        unreadable).1 } := by
  obtain ⟨hgrant, -⟩ := Ports.decide_spec s.ports cfg.mapping reserved
    (assignmentOf account client) base want false unreadable
  refine .of_grant hi (named_assignmentOf account client) hgrant (fun _ hfit ↦ hfit.1) ?_
  rintro port ⟨-, hfit⟩ -
  obtain ⟨-, hlo, hle, hhi⟩ := uidForPort_of_portForUID hbase
  rcases hfit with ⟨-, rfl⟩ | hspare
  · omega
  · exact ⟨hlo.trans hspare.lo, hspare.hi⟩

private theorem follows_steps (hi : Inv s) (h : Steps cfg s e s') : Follows s e s' := by
  cases h with
  | idle => exact ⟨.same hi rfl, .same rfl rfl, .same rfl, .same rfl rfl⟩
  | attachNew conn account client now hconn hnone =>
    exact ⟨.same hi rfl, runsStep_attachNew hnone, .same rfl, .same rfl rfl⟩
  | attachOld conn account client now r hconn hr hstate =>
    exact ⟨.same hi rfl,
      .insert (Nat.le_succ _) rfl hr ⟨rfl, fun h ↦ absurd h hstate, rfl, rfl⟩, .same rfl,
      .same rfl rfl⟩
  | detach conn now k id runs hconn hruns =>
    exact ⟨.same hi rfl, runsStep_detach hi hconn hruns, .same rfl, .same rfl rfl⟩
  | portBegin n account client r hr =>
    refine ⟨.same hi rfl, .insert le_rfl rfl hr ⟨rfl, fun h ↦ h, rfl, rfl⟩, ?_, .same rfl rfl⟩
    intro n' c hc
    rcases lookup_insert_eq_some.mp hc with ⟨rfl, rfl⟩ | ⟨-, hc⟩
    · exact .inr ⟨rfl, r, hr, rfl⟩
    · exact .inl ⟨c, hc, rfl, rfl, .inl rfl⟩
  | asks _ n c fit ports stage hc hports hfit hgiven =>
    exact ⟨.of_grant hi (named_assignmentOf c.account c.client) hports hfit nofun, .same rfl rfl,
      callsStep_insert rfl hc rfl rfl hgiven, .same rfl rfl⟩
  | portEnd n c given runs ports hc hstage hends => exact follows_portEnd hi hc hstage hends
  | sweepBegin enrolled now hsweep => exact follows_sweepBegin hi hsweep
  | cleanBegin d due hsweep hd =>
    refine ⟨.same hi rfl, .same rfl rfl, .same rfl,
      .goOn hsweep rfl (fun _ h ↦ List.mem_of_mem_erase h) ?_ nofun (fun _ h ↦ h) nofun
        fun _ _ _ ↦ not_leaving hsweep nofun _ _⟩
    intro d' hd'
    exact .inl (List.mem_singleton.mp hd' ▸ hd)
  | cleaned d due hsweep =>
    refine ⟨.same hi rfl, .same rfl rfl, .same rfl,
      .goOn hsweep rfl (fun _ h ↦ h) (fun _ h ↦ .inr h) ?_ (fun _ h ↦ .tail _ h)
        nofun fun _ _ _ ↦ not_leaving hsweep nofun _ _⟩
    rintro d' ⟨⟩
    exact (.head _)
  | kept d due hsweep =>
    exact ⟨.same hi rfl, .same rfl rfl, .same rfl,
      .goOn hsweep rfl (fun _ h ↦ h) nofun nofun (fun _ h ↦ h) nofun
        fun _ _ _ ↦ not_leaving hsweep nofun _ _⟩
  | free d due ports hsweep hinv hports =>
    refine ⟨.of_released hi hinv hports (.cleaned d due hsweep rfl), .same rfl rfl, .same rfl,
      .goOn hsweep rfl (fun _ h ↦ h) (fun _ h ↦ .inr h) nofun (fun _ h ↦ h) ?_
        fun _ _ _ ↦ not_leaving hsweep nofun _ _⟩
    rintro d' ⟨⟩
    exact hports.after
  | removes d due r hsweep hr hid => exact follows_removes hi hsweep hr hid
  | leaves d due hsweep hgone =>
    refine ⟨.same hi rfl, .same rfl rfl, .same rfl,
      .goOn hsweep rfl (fun _ h ↦ h) nofun nofun (fun _ h ↦ h) nofun ?_⟩
    rintro k r' hr' ⟨due', d', hsweep', rfl, hid⟩
    cases hsweep.symm.trans hsweep'
    exact hgone r' hr' hid.symm
  | sweepEnd hsweep =>
    refine ⟨.same hi rfl, .same rfl rfl, .same rfl, ⟨?_, nofun, ?_, nofun, nofun, fun _ h ↦ h⟩⟩
    · rintro d ⟨sweep, h, -⟩
      cases h
    · intro k r' _ hleaving
      exact absurd hleaving (not_leaving hsweep nofun k r'.id)
  | dropBegin => exact ⟨.same hi rfl, .same rfl rfl, .same rfl, .same rfl rfl⟩
  | dropRun account client r ports hdrop hr hinv hports =>
    exact follows_dropRun hi hdrop hr hinv hports
  | dropEnd => exact ⟨.same hi rfl, .same rfl rfl, .same rfl, .same rfl rfl⟩
  | forMachine account client uid want reserved unreadable base hbase =>
    exact ⟨follows_forMachine hi hbase, .same rfl rfl, .same rfl, .same rfl rfl⟩

private theorem Tracked.follows (h : s.Tracked d) (hf : Follows s e s') : s'.Tracked d where
  id := h.id.trans_le hf.runs.made
  token := h.token.trans hf.ports.ahead.next
  same r' hr' hid := by
    cases hf.runs.runs _ r' hr' with
    | same r hr hbecame =>
      obtain ⟨hstate, hport, htoken⟩ := h.same r hr (hbecame.id.symm.trans hid)
      exact ⟨hbecame.cleaning hstate, hbecame.port.trans hport, hbecame.token.trans htoken⟩
    | fresh _ _ _ _ _ _ hnone hfresh =>
      have hlt := h.id
      omega
    | fills r n c entry hr hstate hid' =>
      exact absurd (h.same r hr (hid'.symm.trans hid)).1 hstate
  gone hnone := by
    by_cases hthere : ∃ r, s.runs.lookup d.key = some r ∧ r.id = d.id
    · obtain ⟨r, hr, hid⟩ := hthere
      rcases hf.runs.gone _ r hr with ⟨r', hr', hid'⟩ | hspent
      · exact absurd (hid'.trans hid) (hnone r' hr')
      · rw [← (h.same r hr hid).2.2]
        exact hspent
    · refine hf.ports.ahead.spent _ _ h.token (h.gone ?_)
      intro r hr hid
      exact hthere ⟨r, hr, hid⟩

private theorem tokens_follows (hi : Inv s) (hf : Follows s e s') {r' : Run}
    (hr' : s'.runs.lookup k = some r') : r'.token ≤ s'.ports.next := by
  cases hf.runs.runs k r' hr' with
  | same r hr hbecame =>
    rw [hbecame.token]
    exact (hi.tokens k r hr).trans hf.ports.ahead.next
  | fresh _ _ _ _ _ _ _ _ _ htoken =>
    rw [htoken]
    exact Nat.zero_le _
  | fills r n c entry hr hstate hid hport htoken hc hkey hcall hstage =>
    rw [htoken]
    exact (hi.given n c entry hc hstage).2.trans hf.ports.ahead.next

private theorem inv_follows (hi : Inv s) (hf : Follows s e s') (hcounted : Counted s') :
    Inv s' where
  ports := hf.ports.inv
  numbered := hf.ports.numbered
  counted := hcounted
  portless k r' hr' hport := by
    cases hf.runs.runs k r' hr' with
    | same r hr hbecame =>
      rw [hbecame.token]
      exact hi.portless k r hr (hbecame.port.symm.trans hport)
    | fresh _ _ _ _ _ _ _ _ _ htoken => exact htoken
    | fills r n c entry hr hstate hid hport' htoken hc hkey hcall hstage =>
      exact absurd (hport'.symm.trans hport) (hi.given n c entry hc hstage).1
  tokens _ _ hr' := tokens_follows hi hf hr'
  calls n c hc := by
    rcases hf.calls n c hc with ⟨c₀, hc₀, -, hid, -⟩ | ⟨-, r, hr, hid⟩
    · exact hid ▸ (hi.calls n c₀ hc₀).trans_le hf.runs.made
    · exact hid ▸ (hi.counted.ids _ r hr).trans_le hf.runs.made
  given n c entry hc hstage := by
    rcases hf.calls n c hc with ⟨c₀, hc₀, -, -, hsame | hnew⟩ | ⟨hentering, -⟩
    · obtain ⟨hport, htoken⟩ := hi.given n c₀ entry hc₀ (hsame.symm.trans hstage)
      exact ⟨hport, htoken.trans hf.ports.ahead.next⟩
    · have hentry := hnew entry hstage
      exact ⟨hf.ports.numbered.port_ne _ _ hentry, hf.ports.numbered.token_le _ _ hentry⟩
    · rw [hentering] at hstage
      cases hstage
  tracked d hd := by
    rcases hf.sweep.collected d hd with hold | ⟨r', hr', hstate, hd⟩
    · exact (hi.tracked d hold).follows hf
    · rw [hd]
      refine ⟨hcounted.ids _ r' hr', tokens_follows hi hf hr', ?_, ?_⟩
      · intro r'' hr'' _
        cases hr'.symm.trans hr''
        exact ⟨hstate, rfl, rfl⟩
      · intro hnone
        exact absurd rfl (hnone r' hr')
  freed due d hsweep := by
    rcases hf.sweep.freed due d hsweep with hold | hspent
    · have htracked := hi.tracked d ⟨_, hold, .inr (.head _)⟩
      exact hf.ports.ahead.spent _ _ htracked.token (hi.freed due d hold)
    · exact hspent

theorem inv_start (hports : ports.Inv) : Inv (start ports) where
  ports := Ports.inv_restart hports
  numbered := Ports.numbered_restart hports
  counted := counted_start ports
  portless := nofun
  tokens := nofun
  calls := nofun
  given := nofun
  tracked := by
    rintro d ⟨sweep, h, -⟩
    cases h
  freed := nofun

theorem follows_act (hi : Inv s) (h : s.act cfg e = some s') : Follows s e s' ∧ Inv s' := by
  have hsteps := steps_of_act hi.ports h
  have hf := follows_steps hi hsteps
  exact ⟨hf, inv_follows hi hf (counted_steps hi.counted hsteps)⟩

end State

end RemoteDocker.Runs

import RemoteDocker.Runs.Registry
import RemoteDocker.Tunnels.Entries

/-!
# What a step of the registry can do

`Steps` says once what each event does, guards included. `Counted` is what the counts of
connections are worth: a run that is not live has none, so no connection that ends takes a run out
of its cleanup. `Follows` gathers what any event does to the runs, the ports and the calls, and what
holds over whole runs is proved from it.
-/

namespace RemoteDocker.Runs

open Base Tunnels

section

variable {cfg : Config} {runs : Table} {k : Assignment} {id : Nat} {now : Int}

private theorem attach_ok {ru : Run} (h : attach cfg runs k id now = .ok ru) :
    (runs.lookup k = none ∧ ru = { id, conns := 1, lastSeen := now }) ∨
      ∃ r, runs.lookup k = some r ∧ r.state ≠ .cleaning ∧
        ru = { r with state := .live, conns := r.conns + 1, lastSeen := now } := by
  revert h
  fun_cases attach cfg runs k id now <;> rintro ⟨⟩
  · next hnone _ _ => exact .inl ⟨hnone, rfl⟩
  · next r hr hstate => exact .inr ⟨r, hr, hstate, rfl⟩

/-- What `detach` does: nothing to a run that is not the connection's, and of the connection's own
it takes the connection off, which ends the run or starts its grace if it was the last. -/
inductive Detached (runs : Table) (k : Assignment) (id : Nat) (now : Int) : Table → Prop
  | other (hother : ∀ r, runs.lookup k = some r → r.id ≠ id) : Detached runs k id now runs
  | stays (r : Run) (hr : runs.lookup k = some r) (hid : r.id = id) (hmore : 0 < r.conns - 1) :
      Detached runs k id now (runs.insert k { r with conns := r.conns - 1, lastSeen := now })
  | ends (r : Run) (hr : runs.lookup k = some r) (hid : r.id = id) (hport : r.port = 0) :
      Detached runs k id now (runs.erase k)
  | grace (r : Run) (hr : runs.lookup k = some r) (hid : r.id = id) (hlast : r.conns - 1 ≤ 0) :
      Detached runs k id now
        (runs.insert k { r with state := .grace, conns := r.conns - 1, lastSeen := now })

private theorem detached (runs : Table) (k : Assignment) (id : Nat) (now : Int) :
    Detached runs k id now (detach runs k id now) := by
  fun_cases detach runs k id now
  · next hnone =>
    refine .other fun r hr ↦ ?_
    rw [hnone] at hr
    cases hr
  · next r hr hid _ hmore => exact .stays r hr hid hmore
  · next r hr hid _ _ hport => exact .ends r hr hid hport.1
  · next r hr hid _ hlast _ => exact .grace r hr hid (not_lt.mp hlast)
  · next r hr hid =>
    refine .other fun r' hr' heq ↦ hid ?_
    cases hr.symm.trans hr'
    exact heq

private theorem portBegin_waits {ru : Run} (h : portBegin runs k = .waits ru) :
    ∃ r, runs.lookup k = some r ∧ r.state = .live ∧ r.port = 0 ∧
      ru = { r with allocating := r.allocating + 1 } := by
  revert h
  fun_cases portBegin runs k <;> rintro ⟨⟩
  next r hr hlive hport => exact ⟨r, hr, hlive, hport, rfl⟩

/-- How a call of `Port` ends: for a run that has gone or expired, which frees what was given, or
for one that is there, which has the port it had, gets the one that was given, or ends. -/
inductive Ended (runs : Table) (ports : Ports) (k : Assignment) (id : Nat) :
    Except String Entry → Table → Ports → Prop
  | expired (given : Except String Entry)
      (hgone : ∀ r, runs.lookup k = some r → r.id ≠ id) :
      Ended runs ports k id given runs (portExpired ports k given).1
  | cleaning (given : Except String Entry) (r : Run) (hr : runs.lookup k = some r)
      (hid : r.id = id) (hstate : r.state = .cleaning) :
      Ended runs ports k id given (runs.insert k { r with allocating := r.allocating - 1 })
        (portExpired ports k given).1
  | keeps (given : Except String Entry) (r : Run) (hr : runs.lookup k = some r) (hid : r.id = id)
      (hstate : r.state ≠ .cleaning) :
      Ended runs ports k id given (runs.insert k { r with allocating := r.allocating - 1 }) ports
  | fills (e : Entry) (r : Run) (hr : runs.lookup k = some r) (hid : r.id = id)
      (hstate : r.state ≠ .cleaning) (hport : r.port = 0) :
      Ended runs ports k id (.ok e)
        (runs.insert k
          { r with allocating := r.allocating - 1, port := e.port, token := e.token }) ports
  | ends (err : String) (r : Run) (hr : runs.lookup k = some r) (hid : r.id = id)
      (hport : r.port = 0) : Ended runs ports k id (.error err) (runs.erase k) ports

private theorem ended (runs : Table) (ports : Ports) (k : Assignment) (id : Nat)
    (given : Except String Entry) :
    Ended runs ports k id given (portEnd runs ports k id given).1
      (portEnd runs ports k id given).2.1 := by
  fun_cases portEnd runs ports k id given
  · next hnone =>
    refine .expired given fun r hr ↦ ?_
    rw [hnone] at hr
    cases hr
  · next r hr hid _ hstate => exact .cleaning given r hr hid hstate
  · next r hr hid _ hstate err =>
    dsimp only
    split
    · next hends => exact .ends err r hr hid hends.2.1
    · exact .keeps _ r hr hid hstate
  · next r hr hid _ hstate e hport => exact .fills e r hr hid hstate hport
  · next r hr hid _ hstate e _ => exact .keeps _ r hr hid hstate
  · next r hr hid =>
    refine .expired given fun r' hr' heq ↦ hid ?_
    cases hr.symm.trans hr'
    exact heq

theorem lookup_expire {enrolled : String → Bool} {r' : Run}
    (h : (mapTable (expire cfg enrolled now) runs).lookup k = some r') :
    ∃ r, runs.lookup k = some r ∧
      (r' = r ∨ r.state = .grace ∧ r' = { r with state := .cleaning }) := by
  rw [lookup_mapTable] at h
  obtain ⟨r, hr, rfl⟩ := Option.map_eq_some_iff.mp h
  refine ⟨r, hr, ?_⟩
  unfold expire
  split
  · next hdue => exact .inr ⟨hdue.2.1, rfl⟩
  · exact .inl rfl

theorem mem_collect {enrolled : String → Bool} {d : Due} (h : d ∈ collect enrolled runs) :
    ∃ r, runs.lookup d.key = some r ∧ r.state = .cleaning ∧ d = ⟨d.key, r.id, r.port, r.token⟩ := by
  obtain ⟨e, he, rfl⟩ := List.mem_map.mp h
  obtain ⟨hmem, hstate⟩ := List.mem_filter.mp he
  rw [Bool.and_eq_true, decide_eq_true_eq] at hstate
  exact ⟨e.2, AList.mem_lookup_iff.mpr hmem, hstate.2, rfl⟩

end

namespace State

variable {cfg : Config} {s s' : State} {e : Event}

inductive Steps (cfg : Config) (s : State) : Event → State → Prop
  | idle (e : Event) : Steps cfg s e s
  | attachNew (conn : Nat) (account client : Name) (now : Int) (hconn : conn ∉ s.conns)
      (hnone : s.runs.lookup (assignmentOf account client) = none) :
      Steps cfg s (.attach conn account client now)
        { s with
          runs := s.runs.insert (assignmentOf account client)
            { id := s.made, conns := 1, lastSeen := now }
          made := s.made + 1
          conns := s.conns.insert conn (assignmentOf account client, s.made) }
  | attachOld (conn : Nat) (account client : Name) (now : Int) (r : Run) (hconn : conn ∉ s.conns)
      (hr : s.runs.lookup (assignmentOf account client) = some r)
      (hstate : r.state ≠ .cleaning) :
      Steps cfg s (.attach conn account client now)
        { s with
          runs := s.runs.insert (assignmentOf account client)
            { r with state := .live, conns := r.conns + 1, lastSeen := now }
          made := s.made + 1
          conns := s.conns.insert conn (assignmentOf account client, r.id) }
  | detach (conn : Nat) (now : Int) (k : Assignment) (id : Nat) (runs : Table)
      (hconn : s.conns.lookup conn = some (k, id)) (hruns : Detached s.runs k id now runs) :
      Steps cfg s (.detach conn now) { s with runs, conns := s.conns.erase conn }
  | portBegin (n : Nat) (account client : Name) (r : Run)
      (hr : s.runs.lookup (assignmentOf account client) = some r) :
      Steps cfg s (.portBegin n account client)
        { s with
          runs := s.runs.insert (assignmentOf account client)
            { r with allocating := r.allocating + 1 }
          calls := s.calls.insert n { account, client, id := r.id } }
  | asks (e : Event) (n : Nat) (c : PortCall) (fit : Int → Prop) (ports : Ports) (stage : Stage)
      (hc : s.calls.lookup n = some c) (hports : s.ports.Grant c.key true fit ports)
      (hfit : ∀ port, fit port → port ≠ 0)
      (hgiven : ∀ e, stage = .given (.ok e) → ports.view.lookup c.key = some e) :
      Steps cfg s e { s with ports, calls := s.calls.insert n { c with stage } }
  | portEnd (n : Nat) (c : PortCall) (given : Except String Entry) (runs : Table) (ports : Ports)
      (hc : s.calls.lookup n = some c) (hstage : c.stage = .given given)
      (hends : Ended s.runs s.ports c.key c.id given runs ports) :
      Steps cfg s (.portEnd n) { s with runs, ports, calls := s.calls.erase n }
  | sweepBegin (enrolled : String → Bool) (now : Int) (hsweep : s.sweep = none) :
      Steps cfg s (.sweepBegin enrolled now)
        { s with
          runs := mapTable (expire cfg enrolled now) s.runs
          sweep := some { due := collect enrolled (mapTable (expire cfg enrolled now) s.runs) } }
  | cleanBegin (d : Due) (due : List Due) (hsweep : s.sweep = some ⟨due, .next⟩) (hd : d ∈ due) :
      Steps cfg s (.cleanBegin d) { s with sweep := some ⟨due.erase d, .cleaning d⟩ }
  | cleaned (d : Due) (due : List Due) (hsweep : s.sweep = some ⟨due, .cleaning d⟩) :
      Steps cfg s (.cleanEnd true)
        { s with sweep := some ⟨due, .cleaned d⟩, cleaned := d.id :: s.cleaned }
  | kept (d : Due) (due : List Due) (hsweep : s.sweep = some ⟨due, .cleaning d⟩) :
      Steps cfg s (.cleanEnd false) { s with sweep := some ⟨due, .next⟩ }
  | free (d : Due) (due : List Due) (ports : Ports) (hsweep : s.sweep = some ⟨due, .cleaned d⟩)
      (hinv : ports.Inv) (hports : s.ports.Released d.key d.token ports) :
      Steps cfg s .free { s with ports, sweep := some ⟨due, .freed d⟩ }
  | removes (d : Due) (due : List Due) (r : Run) (hsweep : s.sweep = some ⟨due, .freed d⟩)
      (hr : s.runs.lookup d.key = some r) (hid : r.id = d.id) :
      Steps cfg s .remove { s with runs := s.runs.erase d.key, sweep := some ⟨due, .next⟩ }
  | leaves (d : Due) (due : List Due) (hsweep : s.sweep = some ⟨due, .freed d⟩)
      (hgone : ∀ r, s.runs.lookup d.key = some r → r.id ≠ d.id) :
      Steps cfg s .remove { s with sweep := some ⟨due, .next⟩ }
  | sweepEnd (hsweep : s.sweep = some ⟨[], .next⟩) : Steps cfg s .sweepEnd { s with sweep := none }
  | dropBegin (account : String) :
    Steps cfg s (.dropBegin account) { s with dropping := some account }
  | dropRun (account client : String) (r : Run) (ports : Ports) (hdrop : s.dropping = some account)
      (hr : s.runs.lookup ⟨account, client⟩ = some r) (hinv : ports.Inv)
      (hports : r.port = 0 ∧ ports = s.ports ∨
        s.ports.Released ⟨account, client⟩ r.token ports) :
      Steps cfg s (.dropRun client) { s with ports, runs := s.runs.erase ⟨account, client⟩ }
  | dropEnd : Steps cfg s .dropEnd { s with dropping := none }
  | forMachine (account client : Name) (uid want : Int) (reserved : Int → Bool)
      (unreadable : Option String) (base : Int) (hbase : cfg.mapping.portForUID uid = .ok base) :
      Steps cfg s (.forMachine account client uid want reserved unreadable)
        { s with
          ports := (s.ports.decide cfg.mapping reserved (assignmentOf account client) base want
            false unreadable).1 }

variable {conn n id : Nat} {now : Int} {k k' : Assignment}

private theorem steps_attach {account client : Name}
    (h : s.attach cfg conn account client now = some s') :
    Steps cfg s (.attach conn account client now) s' := by
  revert h
  fun_cases attach cfg s conn account client now <;> rintro ⟨⟩
  · exact .idle _
  · next hguard _ ru hru =>
    have hconn : conn ∉ s.conns := fun hmem ↦ hguard (.inr hmem)
    rcases attach_ok hru with ⟨hnone, rfl⟩ | ⟨r, hr, hstate, rfl⟩
    · exact .attachNew conn account client now hconn hnone
    · exact .attachOld conn account client now r hconn hr hstate

private theorem steps_detach (h : s.detach conn now = some s') :
    Steps cfg s (.detach conn now) s' := by
  revert h
  fun_cases detach s conn now <;> rintro ⟨⟩
  next k id hconn => exact .detach conn now k id _ hconn (detached s.runs k id now)

private theorem steps_portBegin {account client : Name}
    (h : s.portBegin n account client = some s') :
    Steps cfg s (.portBegin n account client) s' := by
  revert h
  fun_cases portBegin s n account client <;> rintro ⟨⟩
  · exact .idle _
  · exact .idle _
  · next ru hru =>
    obtain ⟨r, hr, -, -, rfl⟩ := portBegin_waits hru
    exact .portBegin n account client r hr

private theorem steps_lookUp {unreadable : Option String} (h : s.lookUp n unreadable = some s') :
    Steps cfg s (.lookUp n unreadable) s' := by
  unfold lookUp at h
  split at h
  · cases h
  · next c hc =>
    obtain ⟨-, h⟩ := Option.ite_none_right_eq_some.mp h
    obtain ⟨hports, hknown⟩ := Ports.entry_spec (p := s.ports) (k := c.key) unreadable
    have hgrant : s.ports.Grant c.key true (fun _ ↦ False) (s.ports.entry c.key unreadable).1 := by
      rcases hports with heq | heq
      · rw [heq]
        exact .stays
      · rw [heq]
        exact .reads
    cases h
    refine .asks _ n c _ _ _ hc hgrant nofun ?_
    intro e he
    split at he
    · cases he
    · next e' hentry =>
      cases he
      exact (hknown _ hentry).2
    · cases he

private theorem steps_answer {want : Except String Int} {reserved : Int → Bool}
    {unreadable : Option String} (h : s.answer cfg n want reserved unreadable = some s') :
    Steps cfg s (.answer n want reserved unreadable) s' := by
  unfold answer at h
  split at h
  · cases h
  · next c hc =>
    split at h
    · split at h
      · cases h
        exact .asks _ n c (fun _ ↦ False) s.ports _ hc .stays nofun nofun
      · next want =>
        obtain ⟨hgrant, hok⟩ :=
          Ports.decide_spec s.ports cfg.mapping reserved c.key 0 want true unreadable
        cases h
        refine .asks _ n c _ _ _ hc hgrant (fun port hfit ↦ hfit.1) ?_
        intro e he
        exact (hok e (Stage.given.inj he)).2
    · cases h

private theorem steps_portEnd (h : s.portEnd n = some s') : Steps cfg s (.portEnd n) s' := by
  revert h
  fun_cases portEnd s n <;> rintro ⟨⟩
  next c hc given hstage runs ports result hends =>
    have hended := ended s.runs s.ports c.key c.id given
    rw [hends] at hended
    exact .portEnd n c given _ _ hc hstage hended

private theorem steps_remove (h : s.remove = some s') : Steps cfg s .remove s' := by
  revert h
  fun_cases remove s <;> rintro ⟨⟩
  next due d hsweep =>
    split
    · next r hr =>
      split
      · next hid => exact .removes d due r hsweep hr hid
      · next hid =>
        refine .leaves d due hsweep fun r' hr' ↦ ?_
        cases hr.symm.trans hr'
        exact hid
    · next hnone =>
      refine .leaves d due hsweep fun r' hr' ↦ ?_
      rw [hnone] at hr'
      cases hr'

private theorem steps_free (hi : s.ports.Inv) (h : s.free = some s') : Steps cfg s .free s' := by
  unfold free at h
  split at h
  · next due d hsweep =>
    cases h
    split
    · next hzero => exact .free d due _ hsweep hi (.spent fun hne ↦ absurd hzero hne)
    · exact .free d due _ hsweep (Ports.inv_effect hi Ports.release_effect)
        (Ports.released hi d.key d.token)
  · cases h

private theorem steps_dropRun {client : String} (hi : s.ports.Inv)
    (h : s.dropRun client = some s') :
    Steps cfg s (.dropRun client) s' := by
  revert h
  fun_cases dropRun s client <;> rintro ⟨⟩
  next account hdrop r hr =>
    split
    · next hzero => exact .dropRun account client r _ hdrop hr hi (.inl ⟨hzero, rfl⟩)
    · exact .dropRun account client r _ hdrop hr (Ports.inv_effect hi Ports.release_effect)
        (.inr (Ports.released hi _ r.token))

theorem steps_of_act (hi : s.ports.Inv) (h : s.act cfg e = some s') : Steps cfg s e s' := by
  cases e with
  | attach conn account client now => exact steps_attach h
  | detach conn now => exact steps_detach h
  | portBegin n account client => exact steps_portBegin h
  | lookUp n unreadable => exact steps_lookUp h
  | answer n want reserved unreadable => exact steps_answer h
  | portEnd n => exact steps_portEnd h
  | sweepBegin enrolled now =>
    obtain ⟨hguard, ⟨⟩⟩ := Option.ite_none_left_eq_some.mp h
    refine .sweepBegin enrolled now ?_
    cases hsweep : s.sweep with
    | none => rfl
    | some sweep => exact absurd (.inr (by rw [hsweep]; rfl)) hguard
  | cleanBegin d =>
    simp only [act, cleanBegin] at h
    split at h
    · next due hsweep =>
      obtain ⟨hd, ⟨⟩⟩ := Option.ite_none_right_eq_some.mp h
      exact .cleanBegin d due hsweep hd
    · cases h
  | cleanEnd ok =>
    simp only [act, cleanEnd] at h
    split at h
    · next due d hsweep =>
      cases ok with
      | true =>
        cases h
        exact .cleaned d due hsweep
      | false =>
        cases h
        exact .kept d due hsweep
    · cases h
  | free => exact steps_free hi h
  | remove => exact steps_remove h
  | sweepEnd =>
    simp only [act, sweepEnd] at h
    split at h
    · next hsweep =>
      cases h
      exact .sweepEnd hsweep
    · cases h
  | dropBegin account =>
    obtain ⟨-, ⟨⟩⟩ := Option.ite_none_left_eq_some.mp h
    exact .dropBegin account
  | dropRun client => exact steps_dropRun hi h
  | dropEnd =>
    simp only [act, dropEnd] at h
    split at h
    · cases h
    · split at h
      · cases h
        exact .dropEnd
      · cases h
  | forMachine account client uid want reserved unreadable =>
    simp only [act, forMachine] at h
    split at h
    · cases h
    · next base hbase =>
      cases h
      exact .forMachine account client uid want reserved unreadable base hbase

/-- Every run counts its connections, and is live while it has one. -/
structure Counted (s : State) : Prop where
  ids : ∀ k r, s.runs.lookup k = some r → r.id < s.made
  opened : ∀ n c, s.conns.lookup n = some c → c.2 < s.made
  conns : ∀ k r, s.runs.lookup k = some r → r.conns = countTable (· == (k, r.id)) s.conns
  live : ∀ k r, s.runs.lookup k = some r → (r.state = .live ↔ 0 < r.conns)

theorem counted_start (ports : Ports) : Counted (start ports) where
  ids := nofun
  opened := nofun
  conns := nofun
  live := nofun

private theorem Counted.of_runs (h : Counted s) (hmade : s'.made = s.made)
    (hconns : s'.conns = s.conns)
    (hruns : ∀ k r', s'.runs.lookup k = some r' → ∃ r, s.runs.lookup k = some r ∧ r'.id = r.id ∧
      r'.conns = r.conns ∧ (r'.state = .live ↔ r.state = .live)) : Counted s' where
  ids k r' hr' := by
    obtain ⟨r, hr, hid, -, -⟩ := hruns k r' hr'
    rw [hid, hmade]
    exact h.ids k r hr
  opened n c hc := by
    rw [hmade]
    exact h.opened n c (hconns ▸ hc)
  conns k r' hr' := by
    obtain ⟨r, hr, hid, hcount, -⟩ := hruns k r' hr'
    rw [hcount, hid, hconns]
    exact h.conns k r hr
  live k r' hr' := by
    obtain ⟨r, hr, -, hcount, hlive⟩ := hruns k r' hr'
    rw [hcount, hlive]
    exact h.live k r hr

private theorem exists_of_insert {r ru r' : Run} (hr : s.runs.lookup k = some r)
    (hr' : (s.runs.insert k ru).lookup k' = some r') (hid : ru.id = r.id)
    (hcount : ru.conns = r.conns) (hstate : ru.state = r.state) :
    ∃ r, s.runs.lookup k' = some r ∧ r'.id = r.id ∧ r'.conns = r.conns ∧
      (r'.state = .live ↔ r.state = .live) := by
  rcases lookup_insert_eq_some.mp hr' with ⟨rfl, rfl⟩ | ⟨-, hr'⟩
  · exact ⟨r, hr, hid, hcount, by rw [hstate]⟩
  · exact ⟨r', hr', rfl, rfl, Iff.rfl⟩

private theorem exists_of_erase {r' : Run} (hr' : (s.runs.erase k).lookup k' = some r') :
    ∃ r, s.runs.lookup k' = some r ∧ r'.id = r.id ∧ r'.conns = r.conns ∧
      (r'.state = .live ↔ r.state = .live) :=
  ⟨r', (lookup_erase_eq_some.mp hr').2, rfl, rfl, Iff.rfl⟩

private theorem countTable_insert_conn {id' : Nat} (hconn : conn ∉ s.conns)
    (hne : (k', id') ≠ (k, id)) :
    countTable (· == (k', id')) (s.conns.insert conn (k, id)) =
      countTable (· == (k', id')) s.conns := by
  rw [countTable_insert _ hconn, if_neg]
  · rfl
  · rw [beq_iff_eq]
    exact hne.symm

private theorem countTable_erase_conn {id' : Nat}
    (hconn : s.conns.lookup conn = some (k, id)) (hne : (k', id') ≠ (k, id)) :
    countTable (· == (k', id')) (s.conns.erase conn) = countTable (· == (k', id')) s.conns := by
  rw [countTable_erase _ hconn, if_neg]
  · rfl
  · rw [beq_iff_eq]
    exact hne.symm

variable (h : Counted s)

include h

private theorem counted_attach {ru : Run}
    (hconn : conn ∉ s.conns) (hid : ru.id ≤ s.made) (hlive : ru.state = .live)
    (hcount : ru.conns = countTable (· == (k, ru.id)) s.conns + 1) : Counted { s with
      runs := s.runs.insert k ru
      made := s.made + 1
      conns := s.conns.insert conn (k, ru.id) } where
  ids := forall_lookup_insert (Nat.lt_succ_of_le hid) fun k' r' hr' ↦
    (h.ids k' r' hr').trans (Nat.lt_succ_self _)
  opened := forall_lookup_insert (Nat.lt_succ_of_le hid) fun n c hc ↦
    (h.opened n c hc).trans (Nat.lt_succ_self _)
  conns k' r' hr' := by
    rcases lookup_insert_eq_some.mp hr' with ⟨rfl, rfl⟩ | ⟨hk', hr'⟩
    · rw [countTable_insert _ hconn, if_pos (beq_self_eq_true _), hcount]
      rfl
    · rw [countTable_insert_conn hconn fun heq ↦ hk' (Prod.mk.inj heq).1]
      exact h.conns k' r' hr'
  live := forall_lookup_insert (iff_of_true hlive (by omega)) h.live

private theorem countTable_made (k : Assignment) :
    countTable (· == (k, s.made)) s.conns = 0 := by
  rw [countTable, List.countP_eq_zero]
  intro e he heq
  have hlt := h.opened e.1 e.2 (AList.mem_lookup_iff.mpr he)
  rw [beq_iff_eq.mp heq] at hlt
  exact lt_irrefl _ hlt

theorem Counted.live_of_conn {r : Run}
    (hconn : s.conns.lookup conn = some (k, r.id)) (hr : s.runs.lookup k = some r) :
    r.state = .live ∧ 0 < r.conns := by
  have hpos := countTable_pos (p := (· == (k, r.id))) hconn (beq_self_eq_true _)
  have hcount := h.conns k r hr
  have hconns : 0 < r.conns := by omega
  exact ⟨(h.live k r hr).mpr hconns, hconns⟩

private theorem counted_detach {runs : Table} (hconn : s.conns.lookup conn = some (k, id))
    (hruns : Detached s.runs k id now runs) :
    Counted { s with runs, conns := s.conns.erase conn } := by
  have hopened : ∀ n c, (s.conns.erase conn).lookup n = some c → c.2 < s.made :=
    fun n c hc ↦ h.opened n c (lookup_erase_eq_some.mp hc).2
  have hother : ∀ k' r', s.runs.lookup k' = some r' → (k', r'.id) ≠ (k, id) →
      r'.conns = countTable (· == (k', r'.id)) (s.conns.erase conn) := by
    intro k' r' hr' hne
    rw [countTable_erase_conn hconn hne]
    exact h.conns k' r' hr'
  -- The run the connection was of, with one connection less.
  have hown : ∀ r, s.runs.lookup k = some r → r.id = id →
      r.conns - 1 = countTable (· == (k, r.id)) (s.conns.erase conn) := by
    rintro r hr rfl
    have hcount := h.conns k r hr
    rw [countTable_erase _ hconn, if_pos (beq_self_eq_true _)] at hcount
    omega
  -- That run put back is live as long as it has another connection.
  have hput : ∀ {r ru : Run}, s.runs.lookup k = some r → r.id = id → ru.id = r.id →
      ru.conns = r.conns - 1 → (ru.state = .live ↔ 0 < ru.conns) →
      Counted { s with runs := s.runs.insert k ru, conns := s.conns.erase conn } := by
    intro r ru hr hid hru hconns hlive
    refine ⟨?_, hopened, ?_, forall_lookup_insert hlive h.live⟩
    · exact forall_lookup_insert (hru ▸ h.ids k r hr) h.ids
    · intro k' r' hr'
      rcases lookup_insert_eq_some.mp hr' with ⟨rfl, rfl⟩ | ⟨hk', hr'⟩
      · rw [hconns, hru]
        exact hown r hr hid
      · exact hother k' r' hr' fun heq ↦ hk' (Prod.mk.inj heq).1
  cases hruns with
  | other hgone =>
    refine ⟨h.ids, hopened, fun k' r' hr' ↦ hother k' r' hr' ?_, h.live⟩
    intro heq
    obtain ⟨rfl, hid⟩ := Prod.mk.inj heq
    exact hgone r' hr' hid
  | stays r hr hid hmore =>
    have hlive := h.live_of_conn (hid ▸ hconn) hr
    exact hput hr hid rfl rfl (iff_of_true hlive.1 hmore)
  | ends r hr hid hport =>
    constructor
    · intro k' r' hr'
      exact h.ids k' r' (lookup_erase_eq_some.mp hr').2
    · exact hopened
    · intro k' r' hr'
      obtain ⟨hk', hr'⟩ := lookup_erase_eq_some.mp hr'
      exact hother k' r' hr' fun heq ↦ hk' (Prod.mk.inj heq).1
    · intro k' r' hr'
      exact h.live k' r' (lookup_erase_eq_some.mp hr').2
  | grace r hr hid hlast => exact hput hr hid rfl rfl (iff_of_false nofun (not_lt.mpr hlast))

theorem counted_steps (hstep : Steps cfg s e s') : Counted s' := by
  have hsame : ∀ k r', s.runs.lookup k = some r' → ∃ r, s.runs.lookup k = some r ∧
      r'.id = r.id ∧ r'.conns = r.conns ∧ (r'.state = .live ↔ r.state = .live) :=
    fun _ r' hr' ↦ ⟨r', hr', rfl, rfl, Iff.rfl⟩
  cases hstep with
  | idle => exact h
  | attachNew conn account client now hconn hnone =>
    refine counted_attach h hconn le_rfl rfl ?_
    rw [countTable_made h]
    rfl
  | attachOld conn account client now r hconn hr hstate =>
    refine counted_attach h hconn (h.ids _ r hr).le rfl ?_
    rw [← h.conns _ r hr]
  | detach conn now k id runs hconn hruns => exact counted_detach h hconn hruns
  | portBegin n account client r hr =>
    exact h.of_runs rfl rfl fun _ _ hr' ↦ exists_of_insert hr hr' rfl rfl rfl
  | asks n c fit ports stage => exact h.of_runs rfl rfl hsame
  | portEnd n c given runs ports hc hstage hends =>
    cases hends with
    | expired => exact h.of_runs rfl rfl hsame
    | cleaning _ r hr | keeps _ r hr | fills _ r hr =>
      exact h.of_runs rfl rfl fun _ _ hr' ↦ exists_of_insert hr hr' rfl rfl rfl
    | ends => exact h.of_runs rfl rfl fun _ _ hr' ↦ exists_of_erase hr'
  | sweepBegin enrolled now =>
    refine h.of_runs rfl rfl fun k r' hr' ↦ ?_
    obtain ⟨r, hr, rfl | ⟨hgrace, rfl⟩⟩ := lookup_expire hr'
    · exact hsame k r' hr
    · exact ⟨r, hr, rfl, rfl, by simp [hgrace]⟩
  | cleanBegin | cleaned | kept | free | leaves | sweepEnd | dropBegin | dropEnd | forMachine =>
    exact h.of_runs rfl rfl hsame
  | removes | dropRun => exact h.of_runs rfl rfl fun _ _ hr' ↦ exists_of_erase hr'

end State

end RemoteDocker.Runs

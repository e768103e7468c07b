import RemoteDocker.Runs.Follows

/-!
# A registered run holds its port

What the registry says of a run's port is what the allocator has: as long as no call of `Port`
frees what it was given under a run that has it. A call whose run is gone or expired when it ends
frees the port it was given by token. The allocator answers a later run of the same key with the
entry it finds, token included, so the late call takes the later run's port away; and a second
call of an expired run frees the port the run still has.
-/

namespace RemoteDocker.Runs

open Base Tunnels

/-- The allocator gave the call an entry with this token. -/
def PortCall.gave (c : PortCall) (t : Nat) : Bool :=
  match c.stage with
  | .given (.ok entry) => entry.token == t
  | _ => false

namespace State

variable {cfg : Config} {s s' : State} {e : Event}

def expired (s : State) (c : PortCall) : Bool :=
  match s.runs.lookup c.key with
  | none => true
  | some r => r.id ≠ c.id || r.state = .cleaning

def hasToken (s : State) (n : Nat) (k : Assignment) (t : Nat) : Bool :=
  match s.runs.lookup k with
  | none => false
  | some r =>
    r.token == t || r.state ≠ .cleaning && s.calls.entries.any fun c ↦
      c.1 ≠ n && c.2.key = k && c.2.id = r.id && c.2.gave t

/-- The condition: a call of `Port` does not end by freeing the port of a run that is there. -/
def careful (s : State) : Event → Bool
  | .portEnd n =>
    match s.calls.lookup n with
    | none => true
    | some c =>
      match c.stage with
      | .given (.ok entry) =>
        !(s.expired c && (s.ports.release c.key entry.token).2 &&
          s.hasToken n c.key entry.token)
      | _ => true
  | _ => true

/-- What the registry says of ports is so. -/
structure Held (s : State) : Prop where
  runs : ∀ k r, s.runs.lookup k = some r → r.port ≠ 0 → ¬s.Leaving k r.id →
    ∃ entry, s.ports.view.lookup k = some entry ∧ entry.port = r.port ∧ entry.token = r.token
  given : ∀ n c entry r, s.calls.lookup n = some c → c.stage = .given (.ok entry) →
    s.runs.lookup c.key = some r → r.id = c.id → r.state ≠ .cleaning →
      s.ports.view.lookup c.key = some entry

variable {c : PortCall} {n : Nat} {entry : Entry} {r : Run}

theorem expired_of_gone
    (h : ∀ r, s.runs.lookup c.key = some r → r.id = c.id → r.state = .cleaning) :
    s.expired c = true := by
  unfold expired
  split
  · rfl
  · next r hr =>
    by_cases hid : r.id = c.id
    · simp [h r hr hid]
    · simp [hid]

private theorem hasToken_of_careful
    (hcareful : s.careful (.portEnd n) = true) (hc : s.calls.lookup n = some c)
    (hstage : c.stage = .given (.ok entry))
    (hgone : ∀ r, s.runs.lookup c.key = some r → r.id = c.id → r.state = .cleaning)
    (hfreed : (s.ports.release c.key entry.token).2 = true) :
    s.hasToken n c.key entry.token = false := by
  simp only [careful, hc, hstage, expired_of_gone hgone, hfreed, Bool.true_and,
    Bool.not_eq_true'] at hcareful
  exact hcareful

private theorem token_ne_of_hasToken {k : Assignment} {t : Nat}
    (h : s.hasToken n k t = false) (hr : s.runs.lookup k = some r) : r.token ≠ t := by
  simp only [hasToken, hr, Bool.or_eq_false_iff, beq_eq_false_iff_ne] at h
  exact h.1

private theorem gave_of_hasToken {n' : Nat} {t : Nat}
    (h : s.hasToken n c.key t = false) (hr : s.runs.lookup c.key = some r)
    (hstate : r.state ≠ .cleaning) (hc : s.calls.lookup n' = some c) (hn : n' ≠ n)
    (hid : r.id = c.id) : c.gave t = false := by
  simp only [hasToken, hr, Bool.or_eq_false_iff] at h
  have hnone := h.2
  simp only [hstate, not_false_eq_true, decide_true, Bool.true_and, List.any_eq_false,
    ne_eq] at hnone
  have hthis := hnone ⟨n', c⟩ (AList.mem_lookup_iff.mp hc)
  simpa [hn, hid] using hthis

/-- An entry with the token of a run that was collected is there only while the run is. -/
theorem id_of_cleaned {d : Due} {due : List Due} (hi : Inv s)
    (hsweep : s.sweep = some ⟨due, .cleaned d⟩) (hentry : s.ports.view.lookup d.key = some entry)
    (hrun : entry.ephemeral = true) (htoken : entry.token = d.token) (hne : entry.token ≠ 0)
    (hr : s.runs.lookup d.key = some r) : r.id = d.id := by
  by_contra hid
  have htracked := hi.tracked d ⟨_, hsweep, .inr (.head _)⟩
  have hspent := htracked.gone fun r' hr' ↦ by
    cases hr.symm.trans hr'
    exact hid
  exact hspent (htoken ▸ hne) entry hentry hrun htoken

/-- What a run that stays has is not freed under it, unless the sweep is about to remove it. -/
theorem Held.run_kept {k : Assignment} {r' : Run} (hi : Inv s)
    (hcareful : s.careful e = true) (hf : Follows s e s') (hr : s.runs.lookup k = some r)
    (hr' : s'.runs.lookup k = some r') (hid : r'.id = r.id)
    (hentry : s.ports.view.lookup k = some entry) (htoken : entry.token = r.token)
    (hleaving : ¬s'.Leaving k r'.id) : s'.ports.view.lookup k = some entry := by
  rcases hf.ports.lost k entry hentry with hkept | ⟨hrun, hne, id, hfrees⟩
  · exact hkept
  · exfalso
    generalize ht : entry.token = t at hfrees
    cases hfrees with
    | cleaned d due hsweep hafter =>
      have hsame := id_of_cleaned hi hsweep hentry hrun ht hne hr
      exact hleaving ⟨due, d, hafter, rfl, hsame.symm.trans hid.symm⟩
    | dropped account client r₀ hdrop hr₀ hafter =>
      rw [hafter] at hr'
      cases hr'
    | expired n c entry' hc hstage hgone hfreed =>
      have hnone := hasToken_of_careful hcareful hc hstage hgone hfreed
      exact token_ne_of_hasToken hnone hr (htoken.symm.trans ht)

/-- What a call of a run that stays was given is not freed before the call ends. -/
theorem Held.given_kept {r' : Run} (hi : Inv s)
    (hcareful : s.careful e = true) (hf : Follows s e s') (hc : s.calls.lookup n = some c)
    (hstage : c.stage = .given (.ok entry)) (hr : s.runs.lookup c.key = some r)
    (hid : r.id = c.id) (hstate : r.state ≠ .cleaning) (hr' : s'.runs.lookup c.key = some r')
    (hentry : s.ports.view.lookup c.key = some entry) :
    s'.ports.view.lookup c.key = some entry := by
  rcases hf.ports.lost c.key entry hentry with hkept | ⟨hrun, hne, id, hfrees⟩
  · exact hkept
  · exfalso
    generalize ht : entry.token = t at hfrees
    generalize hk : c.key = k at hfrees
    cases hfrees with
    | cleaned d due hsweep hafter =>
      rw [hk] at hr hentry
      have hsame := id_of_cleaned hi hsweep hentry hrun ht hne hr
      have htracked := hi.tracked d ⟨_, hsweep, .inr (.head _)⟩
      exact hstate (htracked.same r hr hsame).1
    | dropped account client r₀ hdrop hr₀ hafter =>
      rw [hk, hafter] at hr'
      cases hr'
    | expired n' c' entry' hc' hstage' hgone hfreed =>
      have hnone := hasToken_of_careful hcareful hc' hstage' hgone hfreed
      rw [← hk] at hnone hgone
      by_cases hn : n = n'
      · subst hn
        cases hc.symm.trans hc'
        exact hstate (hgone r hr hid)
      · have hgave := gave_of_hasToken hnone hr hstate hc hn hid
        simp [PortCall.gave, hstage, ht] at hgave

private theorem held_follows (hi : Inv s) (hh : Held s) (hcareful : s.careful e = true)
    (hf : Follows s e s') : Held s' where
  runs k r' hr' hport hleaving := by
    cases hf.runs.runs k r' hr' with
    | same r hr hbecame =>
      have hbefore : ¬s.Leaving k r.id := by
        intro h
        exact hleaving (hf.sweep.leaving k r' hr' (hbecame.id ▸ h))
      obtain ⟨entry, hentry, hport', htoken⟩ :=
        hh.runs k r hr (hbecame.port ▸ hport) hbefore
      refine ⟨entry, ?_, hport'.trans hbecame.port.symm, htoken.trans hbecame.token.symm⟩
      exact Held.run_kept hi hcareful hf hr hr' hbecame.id hentry htoken hleaving
    | fresh _ _ _ _ _ _ _ _ hport' => exact absurd hport' hport
    | fills r n c entry hr hstate hid hport' htoken hc hkey hcall hstage hports =>
      refine ⟨entry, ?_, hport'.symm, htoken.symm⟩
      subst hkey
      rw [hports]
      exact hh.given n c entry r hc hstage hr hcall.symm hstate
  given n c entry r' hc hstage hr' hid hstate := by
    rcases hf.calls n c hc with ⟨c₀, hc₀, hkey, hid₀, hsame | hnew⟩ | ⟨hentering, -⟩
    · have hstage₀ := hsame.symm.trans hstage
      rw [← hkey] at hr' ⊢
      cases hf.runs.runs _ r' hr' with
      | same r hr hbecame =>
        have hidr : r.id = c₀.id := hbecame.id.symm.trans (hid.trans hid₀.symm)
        have hstater : r.state ≠ .cleaning := fun h ↦ hstate (hbecame.cleaning h)
        have hentry := hh.given n c₀ entry r hc₀ hstage₀ hr hidr hstater
        exact Held.given_kept hi hcareful hf hc₀ hstage₀ hr hidr hstater hr' hentry
      | fresh _ _ _ _ _ _ _ hfresh =>
        have hlt := hi.calls n c₀ hc₀
        omega
      | fills r n' c' entry' hr hstater hid' hport htoken hc' hkey' hcall hstage' hports =>
        rw [hports]
        exact hh.given n c₀ entry r hc₀ hstage₀ hr (hid'.symm.trans (hid.trans hid₀.symm)) hstater
    · exact hnew entry hstage
    · rw [hentering] at hstage
      cases hstage

private theorem held_start (ports : Ports) : Held (start ports) where
  runs _ _ hr := by cases hr
  given _ _ _ _ hc := by cases hc

private theorem held_run {ports : Ports} {es : List Event} (hports : ports.Inv)
    (hw : (machine cfg).Within (fun s e ↦ s.careful e = true) (start ports) es)
    (hr : (machine cfg).run (start ports) es = some s) : Inv s ∧ Held s := by
  have hstep : ∀ s e s', Inv s ∧ Held s → s.careful e = true →
      (machine cfg).step s e = some s' → Inv s' ∧ Held s' := by
    rintro s e s' ⟨hi, hh⟩ hcareful hact
    obtain ⟨hf, hi'⟩ := follows_act hi hact
    exact ⟨hi', held_follows hi hh hcareful hf⟩
  exact (machine cfg).run_invariant _ hstep ⟨inv_start hports, held_start ports⟩ hw hr

end State

/-- A registered run holds its port, and no two have one, as long as no call of `Port` ends by
freeing the port of a run that is there: except the run whose port a sweep has freed and which it
is about to remove. -/
theorem registered_run_holds_port (cfg : Config) (ports : Ports) (hports : ports.Inv)
    (es : List Event) (s : State)
    (hw : (machine cfg).Within (fun s e ↦ s.careful e = true) (start ports) es)
    (hr : (machine cfg).run (start ports) es = some s) :
    (∀ k r, s.runs.lookup k = some r → r.port ≠ 0 → ¬s.Leaving k r.id →
      ∃ entry, s.ports.view.lookup k = some entry ∧ entry.port = r.port ∧
        entry.token = r.token) ∧
    ∀ k k' r r', s.runs.lookup k = some r → s.runs.lookup k' = some r' → r.port ≠ 0 →
      r.port = r'.port → ¬s.Leaving k r.id → ¬s.Leaving k' r'.id → k = k' := by
  obtain ⟨hi, hh⟩ := State.held_run hports hw hr
  refine ⟨hh.runs, ?_⟩
  intro k k' r r' hrun hrun' hport hsame hleaving hleaving'
  obtain ⟨entry, hentry, hp, -⟩ := hh.runs k r hrun hport hleaving
  obtain ⟨entry', hentry', hp', -⟩ := hh.runs k' r' hrun' (hsame ▸ hport) hleaving'
  exact hi.ports.sound.distinct k k' entry entry' hentry hentry'
    (hp.trans (hsame.trans hp'.symm))

def twoPorts : Config := { mapping := ⟨10000, 65534⟩ }

def portAsked (conn : Nat) : List Event :=
  [.attach conn ⟨"ci", by decide⟩ ⟨"a", by decide⟩ 0,
    .portBegin conn ⟨"ci", by decide⟩ ⟨"a", by decide⟩, .lookUp conn none]

/-- It is given one, which the run then has. -/
theorem registered_run_holds_port_asked :
    ∃ s, (machine twoPorts).run (start {}) (portAsked 0 ++
        [.answer 0 (.ok 0) (fun _ ↦ false) none, .portEnd 0]) = some s ∧
      ∃ r, s.runs.lookup ⟨"ci", "a"⟩ = some r ∧ r.port = 65535 ∧ s.sweep = none ∧
        ∃ entry, s.ports.view.lookup ⟨"ci", "a"⟩ = some entry ∧ entry.port = 65535 := by
  obtain ⟨s, hs, hsweep, hr⟩ : ∃ s, (machine twoPorts).run (start {}) (portAsked 0 ++
      [.answer 0 (.ok 0) (fun _ ↦ false) none, .portEnd 0]) = some s ∧ s.sweep = none ∧
      s.runs.lookup ⟨"ci", "a"⟩ = some { id := 0, conns := 1, port := 65535, token := 1 } := by
    decide +kernel
  have hleaving : ¬s.Leaving ⟨"ci", "a"⟩ 0 := by
    rintro ⟨due, d, h, -⟩
    rw [hsweep] at h
    cases h
  obtain ⟨entry, hentry, hport, -⟩ := (registered_run_holds_port twoPorts {} Ports.inv_start _ s
    (by decide +kernel) hs).1 _ _ hr (by decide) hleaving
  exact ⟨s, hs, _, hr, rfl, hsweep, entry, hentry, hport⟩

/-- The connection of a run that waits for its port ends. The run expires, is cleaned up and
removed, and its name is used again: the allocator answers the new run with what it gave the old
one. Then the old run's call ends. -/
def lateAnswer : List Event :=
  portAsked 0 ++ ([.answer 0 (.ok 0) (fun _ ↦ false) none, .detach 0 0,
    .sweepBegin (fun _ ↦ true) defaultGrace, .cleanBegin ⟨⟨"ci", "a"⟩, 0, 0, 0⟩, .cleanEnd true,
    .free, .remove, .sweepEnd] : List Event) ++ portAsked 1 ++ [.portEnd 1, .portEnd 0]

/-- The new run is live and has the port, and the port is nobody's. -/
theorem live_run_without_port :
    ((machine twoPorts).run (start {}) lateAnswer).map (fun s ↦
      (s.runs.lookup ⟨"ci", "a"⟩, s.ports.view.lookup ⟨"ci", "a"⟩, s.ports.taken 65535)) =
    some (some { id := 1, conns := 1, port := 65535, token := 1 }, none, false) := by
  decide +kernel

end RemoteDocker.Runs

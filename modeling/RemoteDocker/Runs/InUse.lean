import RemoteDocker.Runs.Held

/-!
# A run in use is not cleaned up

A sweep cleans up what it collected, by name. A run that was collected is in its cleanup for good,
so the name is in use again only if the run was dropped and a new one attached in between: the
sweep does not look again before it begins. What it frees is its own, since a later run's token is
another; only a call of `Port` that ends late frees what a later run was answered.
-/

namespace RemoteDocker.Runs

open Base Tunnels

namespace State

variable {cfg : Config} {s s' : State} {e : Event}

def awaits (s : State) (k : Assignment) : Bool :=
  match s.sweep with
  | none => false
  | some sweep => sweep.due.any fun d ↦ d.key = k

def anotherHas (s : State) (c : PortCall) (t : Nat) : Bool :=
  match s.runs.lookup c.key with
  | none => false
  | some r => r.id ≠ c.id && r.token = t

/-- The condition: no run is made under a name a sweep is about to clean up, and no call of `Port`
ends by freeing the port of another run. -/
def attended (s : State) : Event → Bool
  | .attach _ account client _ =>
    (s.runs.lookup (assignmentOf account client)).isSome || !s.awaits (assignmentOf account client)
  | .portEnd n =>
    match s.calls.lookup n with
    | none => true
    | some c =>
      match c.stage with
      | .given (.ok entry) =>
        !(s.expired c && (s.ports.release c.key entry.token).2 && s.anotherHas c entry.token)
      | _ => true
  | _ => true

/-- What a sweep is about to clean up is what it collected, and what it frees was cleaned up. -/
structure Swept (s : State) : Prop where
  due : ∀ sweep, s.sweep = some sweep → ∀ d ∈ sweep.due, ∀ r, s.runs.lookup d.key = some r →
    r.id = d.id
  cleaned : ∀ due d, s.sweep = some ⟨due, .cleaned d⟩ → d.id ∈ s.cleaned

private theorem swept_start (ports : Ports) : Swept (start ports) where
  due _ h := by cases h
  cleaned _ _ h := by cases h

private theorem awaits_of_mem {sweep : Sweep} {d : Due} (hsweep : s.sweep = some sweep)
    (hd : d ∈ sweep.due) : s.awaits d.key = true := by
  rw [awaits, hsweep]
  exact List.any_eq_true.mpr ⟨d, hd, decide_eq_true rfl⟩

private theorem swept_follows (hs : Swept s) (hattended : s.attended e = true)
    (hf : Follows s e s') :
    Swept s' where
  due sweep' hsweep' d hd r' hr' := by
    rcases hf.sweep.due sweep' hsweep' with ⟨sweep, hsweep, hsub⟩ | hnew
    · have hold := hs.due sweep hsweep d (hsub d hd)
      cases hf.runs.runs d.key r' hr' with
      | same r hr hbecame => exact hbecame.id.trans (hold r hr)
      | fresh conn account client now hattach hkey hnone =>
        have hawaits := awaits_of_mem hsweep (hsub d hd)
        rw [hkey] at hnone hawaits
        rw [hattach, attended, hnone, hawaits] at hattended
        cases hattended
      | fills r n c entry hr hstate hid => exact hid.trans (hold r hr)
    · obtain ⟨r, hr, hid⟩ := hnew d hd
      cases hr.symm.trans hr'
      exact hid
  cleaned due d hsweep := by
    rcases hf.sweep.cleaned due d hsweep with hold | hnew
    · exact hf.sweep.kept _ (hs.cleaned due d hold)
    · exact hnew

private theorem swept_run {ports : Ports} {es : List Event} (hports : ports.Inv)
    (hw : (machine cfg).Within (fun s e ↦ s.attended e = true) (start ports) es)
    (hr : (machine cfg).run (start ports) es = some s) : Inv s ∧ Swept s := by
  have hstep : ∀ s e s', Inv s ∧ Swept s → s.attended e = true →
      (machine cfg).step s e = some s' → Inv s' ∧ Swept s' := by
    rintro s e s' ⟨hi, hs⟩ hattended hact
    obtain ⟨hf, hi'⟩ := follows_act hi hact
    exact ⟨hi', swept_follows hs hattended hf⟩
  exact (machine cfg).run_invariant _ hstep ⟨inv_start hports, swept_start ports⟩ hw hr

private theorem due_of_cleanBegin {d : Due} (h : s.cleanBegin d = some s') :
    ∃ sweep, s.sweep = some sweep ∧ d ∈ sweep.due := by
  unfold cleanBegin at h
  split at h
  · next due hsweep =>
    split at h
    · next hd => exact ⟨_, hsweep, hd⟩
    · cases h
  · cases h

/-- A port that an attended call frees is no other run's. -/
theorem id_of_attended {n : Nat} {c : PortCall} {entry : Entry} {r : Run}
    (hattended : s.attended (.portEnd n) = true) (hc : s.calls.lookup n = some c)
    (hstage : c.stage = .given (.ok entry)) (hexpired : s.expired c = true)
    (hfreed : (s.ports.release c.key entry.token).2 = true)
    (hr : s.runs.lookup c.key = some r) (htoken : r.token = entry.token) : r.id = c.id := by
  simp only [attended, hc, hstage, hexpired, hfreed, Bool.true_and, Bool.not_eq_true'] at hattended
  simp only [anotherHas, hr, htoken, decide_true, Bool.and_true, decide_eq_false_iff_not,
    ne_eq, not_not] at hattended
  exact hattended

end State

/-- `Cleanup` of a name does not begin while it has a live run, and a port is freed for the run
that has it, after it was cleaned up, or with its account dropped, or when its allocation ends after
it has gone or expired: as long as no run is made under a name a sweep is about to clean up, and no
call of `Port` frees what another run has. -/
theorem run_in_use_not_cleaned (cfg : Config) (ports : Ports) (hports : ports.Inv)
    (es : List Event) (s : State)
    (hw : (machine cfg).Within (fun s e ↦ s.attended e = true) (start ports) es)
    (hr : (machine cfg).run (start ports) es = some s) :
    (∀ d s', (machine cfg).step s (.cleanBegin d) = some s' →
      ∀ r, s.runs.lookup d.key = some r → r.state ≠ .live) ∧
    ∀ e s' k entry, s.attended e = true → (machine cfg).step s e = some s' →
      s.ports.view.lookup k = some entry → s'.ports.view.lookup k ≠ some entry →
      ∃ id, (id ∈ s.cleaned ∨ s.dropping = some k.account ∨
          ∃ n c, e = .portEnd n ∧ s.calls.lookup n = some c ∧ c.key = k ∧ c.id = id ∧
            s.expired c = true) ∧
        ∀ r, s.runs.lookup k = some r → r.token = entry.token → r.id = id := by
  obtain ⟨hi, hs⟩ := State.swept_run hports hw hr
  constructor
  · intro d s' hstep r hrun hlive
    obtain ⟨sweep, hsweep, hd⟩ := State.due_of_cleanBegin hstep
    have hid := hs.due sweep hsweep d hd r hrun
    have hstate := ((hi.tracked d ⟨sweep, hsweep, .inl hd⟩).same r hrun hid).1
    rw [hlive] at hstate
    cases hstate
  · intro e s' k entry hattended hstep hentry hlost
    obtain ⟨hf, -⟩ := State.follows_act hi hstep
    rcases hf.ports.lost k entry hentry with hkept | ⟨hrun, hne, id, hfrees⟩
    · exact absurd hkept hlost
    · refine ⟨id, ?_⟩
      generalize ht : entry.token = t at hfrees
      cases hfrees with
      | cleaned d due hsweep hafter =>
        refine ⟨.inl (hs.cleaned due d hsweep), fun r hr' _ ↦ ?_⟩
        exact State.id_of_cleaned hi hsweep hentry hrun ht hne hr'
      | dropped account client r hdrop hr hafter =>
        refine ⟨.inr (.inl hdrop), fun r' hr' _ ↦ ?_⟩
        cases hr.symm.trans hr'
        rfl
      | expired n c entry' hc hstage hgone hfreed =>
        have hexpired := State.expired_of_gone hgone
        refine ⟨.inr (.inr ⟨n, c, rfl, hc, rfl, rfl, hexpired⟩), fun r hr' htoken ↦ ?_⟩
        exact State.id_of_attended hattended hc hstage hexpired hfreed hr' htoken

/-- A run that has its port loses its connection and expires. -/
def expiredRun : List Event :=
  portAsked 0 ++ [.answer 0 (.ok 0) (fun _ ↦ false) none, .portEnd 0, .detach 0 0,
    .sweepBegin (fun _ ↦ true) defaultGrace]

def expiredDue : Due := ⟨⟨"ci", "a"⟩, 0, 65535, 1⟩

/-- Its cleanup begins, and no run of that name is live. -/
theorem run_in_use_not_cleaned_expired :
    ∃ s s', (machine twoPorts).run (start {}) expiredRun = some s ∧
      (machine twoPorts).step s (.cleanBegin expiredDue) = some s' ∧
      ∀ r, s.runs.lookup ⟨"ci", "a"⟩ = some r → r.state ≠ .live := by
  obtain ⟨s, hs, hsome⟩ : ∃ s, (machine twoPorts).run (start {}) expiredRun = some s ∧
      ((machine twoPorts).step s (.cleanBegin expiredDue)).isSome = true := by
    decide +kernel
  obtain ⟨s', hstep⟩ := Option.isSome_iff_exists.mp hsome
  refine ⟨s, s', hs, hstep, ?_⟩
  exact (run_in_use_not_cleaned twoPorts {} Ports.inv_start expiredRun s (by decide +kernel) hs).1
    expiredDue s' hstep

/-- Before its cleanup begins the account is dropped, and the name attaches again: the cleanup
begins all the same, under a run that is live. -/
theorem live_run_cleaned :
    (((machine twoPorts).run (start {}) (expiredRun ++ [.dropBegin "ci", .dropRun "a", .dropEnd,
      .attach 1 ⟨"ci", by decide⟩ ⟨"a", by decide⟩ 0])).bind fun s ↦
        ((machine twoPorts).step s (.cleanBegin expiredDue)).map fun s' ↦
          (s'.runs.lookup ⟨"ci", "a"⟩, s'.sweep)) =
    some (some { id := 1, state := .live, conns := 1 }, some ⟨[], .cleaning expiredDue⟩) := by
  decide +kernel

end RemoteDocker.Runs

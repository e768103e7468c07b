import RemoteDocker.Tunnels.Unshared

/-!
# The port an account is told

`For` and `ForRun` tell an account a port, and `Owns` decides whether it may bind it. What they
answer from the record is assigned, so `Owns` grants it. A session without a name is told the port
its account derives without a look at the record, and `Owns` looks there first: the derived port
of an account that came later may be another account's by then.
-/

namespace RemoteDocker.Tunnels

open Base

namespace State

variable {m : Mapping} {s s' : State} {e : Event} {t : Told}

/-- A port that was told is assigned, or a session without a name was told the derived one. -/
theorem told_act (h : s.act m e = some (s', some (.ok t))) :
    (s'.ports.loaded = true ∧ ∃ entry,
      s'.ports.view.lookup (assignmentOf t.account t.client) = some entry ∧
        entry.port = t.port) ∨
    t.client.text = "" ∧ m.portForUID t.uid = .ok t.port := by
  cases e with
  | enrol account uid =>
    simp only [act] at h
    split at h <;> cases h
  | begin n account client run unreadable =>
    simp only [act, begin] at h
    split at h
    · cases h
    · next uid huid =>
      split at h
      · cases h
      · obtain ⟨-, hknown, -⟩ := Ports.callBegin_spec s.ports m account uid client run unreadable
        split at h
        · cases h
        · next ports entry hcall =>
          rw [hcall] at hknown
          cases h
          rcases hknown entry rfl with ⟨hl, hentry⟩ | hderived
          · exact .inl ⟨hl, entry, hentry, rfl⟩
          · exact .inr hderived
        · cases h
  | answer n want unreadable =>
    simp only [act, answer] at h
    split at h
    · cases h
    · next c hc =>
      split at h
      · cases h
      · next uid huid =>
        split at h
        · cases h
        · next want =>
          obtain ⟨-, hok⟩ := Ports.decide_spec s.ports m s.reserved
            (assignmentOf c.account c.client) c.base want c.run unreadable
          split at h
          · cases h
          · next ports entry hdecide =>
            rw [show s.ports.decide m s.reserved _ _ _ _ _ = (ports, .ok entry) from hdecide] at hok
            cases h
            obtain ⟨hl, hentry⟩ := hok entry rfl
            exact .inl ⟨hl, entry, hentry, rfl⟩
  | hold account client port unreadable => cases h
  | free account client token => cases h
  | forget account unreadable => cases h
  | restart => cases h

end State

/-- The port an account is told is its own, unless a session without a name is told a derived port
that another account is assigned, or the record cannot be read. -/
theorem told_owned_iff (m : Mapping) (es : List Event) (s : State)
    (hr : (machine m).run {} es = some s) (e : Event) (s' : State) (t : Told)
    (h : s.act m e = some (s', some (.ok t))) (unreadable : Option String) :
    s'.ports.owns m t.account.text t.uid t.port unreadable = true ↔
      t.client.text ≠ "" ∨ (∃ q, s'.ports.load unreadable = .ok q) ∧
        ∀ k entry, s'.ports.view.lookup k = some entry → entry.port = t.port →
          k.account = t.account.text := by
  have hi := State.inv_run hr
  have hsound := (State.inv_change hi (State.change_act hi h)).ports.sound
  rw [Ports.owns_eq_true_iff hsound]
  constructor
  · rintro ⟨hload, hown⟩
    refine .inr ⟨hload, ?_⟩
    intro k entry hk hport
    rcases hown with ⟨client, entry', hentry', hport'⟩ | ⟨hfree, -⟩
    · rw [hsound.distinct _ _ _ _ hk hentry' (hport.trans hport'.symm)]
    · exact absurd hport (hfree k entry hk)
  · intro hcond
    rcases State.told_act h with ⟨hl, entry, hentry, hport⟩ | ⟨hempty, hbase⟩
    · have hload : s'.ports.load unreadable = .ok s'.ports := if_pos hl
      exact ⟨⟨s'.ports, hload⟩, .inl ⟨t.client.text, entry, hentry, hport⟩⟩
    · rcases hcond with hne | ⟨hload, hmine⟩
      · exact absurd hempty hne
      · refine ⟨hload, ?_⟩
        by_cases hfree : s'.ports.Unassigned t.port
        · exact .inr ⟨hfree, hbase⟩
        · simp only [Ports.Unassigned, not_forall, ne_eq, not_not] at hfree
          obtain ⟨⟨account, client⟩, entry, hentry, hport⟩ := hfree
          cases hmine _ entry hentry hport
          exact .inl ⟨client, entry, hentry, hport⟩

/-- The second machine is told a port that is alice's. -/
theorem told_owned_iff_desk :
    ∃ s s', (machine ⟨10000, 65534⟩).run {} (laptopAndDesk.take 4) = some s ∧
      s.act ⟨10000, 65534⟩ (.answer 1 (.ok 0) none) =
        some (s', some (.ok ⟨⟨"alice", by decide⟩, 10000, ⟨"desk", by decide⟩, 65535⟩)) ∧
      s'.ports.owns ⟨10000, 65534⟩ "alice" 10000 65535 none = true := by
  obtain ⟨s, hrun, ⟨s', told⟩, hact, rfl⟩ : ∃ s, (machine ⟨10000, 65534⟩).run {}
      (laptopAndDesk.take 4) = some s ∧ ∃ r,
      s.act ⟨10000, 65534⟩ (.answer 1 (.ok 0) none) = some r ∧
      some (.ok ⟨⟨"alice", by decide⟩, 10000, ⟨"desk", by decide⟩, 65535⟩) = r.2 := by
    decide +kernel
  exact ⟨s, s', hrun, hact,
    (told_owned_iff ⟨10000, 65534⟩ _ s hrun _ s' _ hact none).mpr (.inl (by decide))⟩

/-- Bob, who derives that port, comes later: a session of theirs without a name is told it, and it
is alice's. -/
theorem told_port_of_another :
    ((machine ⟨10000, 65534⟩).run {} (laptopAndDesk ++ [.enrol ⟨"bob", by decide⟩ 10001])).bind
      (fun s ↦ (s.act ⟨10000, 65534⟩
        (.begin 2 ⟨"bob", by decide⟩ ⟨"", by decide⟩ false none)).map fun r ↦
          (r.2, r.1.ports.owns ⟨10000, 65534⟩ "bob" 10001 65535 none,
            r.1.ports.owns ⟨10000, 65534⟩ "alice" 10000 65535 none)) =
    some (some (.ok ⟨⟨"bob", by decide⟩, 10001, ⟨"", by decide⟩, 65535⟩), false, true) := by
  decide +kernel

end RemoteDocker.Tunnels

import RemoteDocker.Broker.Server

/-!
# One user's machine is never another's

What is done to a machine, and to its record, is done by the one request that holds its name. So
what a request has seen of the record and of the machine is still so when it acts: `Fits` says,
phase by phase, what that is. That every machine the service built is recorded for whom it was built
follows from the order of a create (the record first) and of the removals (the machine first).
-/

namespace RemoteDocker.Broker

open Base

variable {cfg : Config} {s s' : State} {r : Nat} {q : Task} {n : String}

/-- What a request knows of the record and of the machine of the name it holds. -/
def Task.Fits (cfg : Config) (q : Task) (rec : Option Record) (vm : Option VM) : Prop :=
  match q.phase with
  | .looking => rec = none
  | .performing => ∃ ρ, rec = some ρ ∧ cfg.equalFold ρ.owner q.caller.sid = true
  | .forgetting => vm = none
  | .recording => rec = none ∧ vm = none
  | .fetching => (∃ ρ, rec = some ρ ∧ ρ.owner = q.caller.sid) ∧ vm = none
  | .creating =>
    (∃ ρ, rec = some ρ ∧ ρ.owner = q.caller.sid) ∧ ∀ m, vm = some m → m = ⟨some q.caller.sid⟩
  | .clearing _ => ∃ ρ, rec = some ρ ∧ ρ.owner = q.caller.sid
  | .unrecording _ => vm = none
  | .purgeRemoving _ _ => vm = none
  | _ => True

private theorem Task.Fits.gone {rec : Option Record} {vm : Option VM} (h : q.Fits cfg rec vm) :
    q.Fits cfg rec none := by
  unfold Task.Fits at h ⊢
  split at h <;> first | exact h | exact True.intro | rfl | exact ⟨h.1, rfl⟩ | skip
  exact ⟨h.1, fun m hm ↦ by cases hm⟩

namespace State

/-- Every machine the service built is recorded for the SID it was built for. -/
def Recorded (records : Records) (machines : AList fun _ : String ↦ VM) : Prop :=
  ∀ n m sid, machines.lookup n = some m → m.builtFor = some sid →
    ∃ ρ, records.lookup n = some ρ ∧ ρ.owner = sid

structure Inv (cfg : Config) (s : State) : Prop where
  locks : s.locks.WF
  waits : ∀ r q n, s.tasks.lookup r = some q → q.waits = some n → s.locks.Waits r n
  held : ∀ r q n, s.tasks.lookup r = some q → q.held = some n → s.locks.Holds r n
  fits : ∀ r q n, s.tasks.lookup r = some q → q.held = some n →
    q.Fits cfg (s.records.lookup n) (s.machines.lookup n)
  built : Recorded s.records s.machines

variable {q' : Task} {phase : Phase} {records : Records} {name : String} {err : Option String}

section

variable (hi : s.Inv cfg)

include hi

section

variable (hq : s.tasks.lookup r = some q)

include hq

private theorem Inv.alone {r' : Nat}
    (hn : q.held = some n) (hq' : s.tasks.lookup r' = some q') (hn' : q'.held = some n) : r' = r :=
  hi.locks.holds_unique (hi.held r' q' n hq' hn') (hi.held r q n hq hn)

private theorem Inv.known
    (hphase : q.phase = phase) (hheld : Task.held { q with phase } = some n) : q.held = some n ∧
      Task.Fits cfg { q with phase } (s.records.lookup n) (s.machines.lookup n) := by
  have hsame : { q with phase } = q := by rw [← hphase]
  rw [hsame] at hheld ⊢
  exact ⟨hheld, hi.fits r q n hq hheld⟩

/-- A request that holds a name changes what there is under it. -/
theorem Inv.change {machines : AList fun _ : String ↦ VM} (hn : q.held = some n)
    (hrecords : ∀ k, k ≠ n → records.lookup k = s.records.lookup k)
    (hmachines : ∀ k, k ≠ n → machines.lookup k = s.machines.lookup k)
    (hheld : q'.held = some n) (hwaits : q'.waits = none)
    (hfits : q'.Fits cfg (records.lookup n) (machines.lookup n))
    (hbuilt : ∀ m sid, machines.lookup n = some m → m.builtFor = some sid →
      ∃ ρ, records.lookup n = some ρ ∧ ρ.owner = sid) :
    Inv cfg { s with records, machines, tasks := s.tasks.insert r q' } where
  locks := hi.locks
  waits r₁ q₁ n₁ hq₁ hn₁ := by
    rcases lookup_insert_eq_some.mp hq₁ with ⟨rfl, rfl⟩ | ⟨-, hq₁⟩
    · rw [hwaits] at hn₁
      cases hn₁
    · exact hi.waits r₁ q₁ n₁ hq₁ hn₁
  held r₁ q₁ n₁ hq₁ hn₁ := by
    rcases lookup_insert_eq_some.mp hq₁ with ⟨rfl, rfl⟩ | ⟨-, hq₁⟩
    · rw [hheld] at hn₁
      cases hn₁
      exact hi.held r₁ q n hq hn
    · exact hi.held r₁ q₁ n₁ hq₁ hn₁
  fits r₁ q₁ n₁ hq₁ hn₁ := by
    rcases lookup_insert_eq_some.mp hq₁ with ⟨rfl, rfl⟩ | ⟨hne, hq₁⟩
    · rw [hheld] at hn₁
      cases hn₁
      exact hfits
    · -- another request holds another name
      have hne' : n₁ ≠ n := by
        rintro rfl
        exact hne (hi.alone hq hn hq₁ hn₁)
      rw [hrecords n₁ hne', hmachines n₁ hne']
      exact hi.fits r₁ q₁ n₁ hq₁ hn₁
  built n₁ m sid hm hsid := by
    by_cases hk : n₁ = n
    · subst hk
      exact hbuilt m sid hm hsid
    · rw [hmachines n₁ hk] at hm
      rw [hrecords n₁ hk]
      exact hi.built n₁ m sid hm hsid

private theorem Inv.goto
    (hn : q.held = some n) (hheld : Task.held { q with phase } = some n)
    (hwaits : Task.waits { q with phase } = none)
    (hfits : Task.Fits cfg { q with phase } (s.records.lookup n) (s.machines.lookup n)) :
    Inv cfg (s.goto r q phase) :=
  hi.change hq hn (fun _ _ ↦ rfl) (fun _ _ ↦ rfl) hheld hwaits hfits fun m sid hm hsid ↦
    hi.built n m sid hm hsid

end

private theorem Inv.relock {locks : NameLocks String} (hwf : locks.WF)
    (hother : ∀ k, k ≠ r → locks.users.lookup k = s.locks.users.lookup k)
    (hwaits : ∀ n, q'.waits = some n → locks.Waits r n) (hheld : ∀ n, q'.held = some n →
      locks.Holds r n ∧ q'.Fits cfg (s.records.lookup n) (s.machines.lookup n)) :
    Inv cfg { s with locks, tasks := s.tasks.insert r q' } where
  locks := hwf
  waits r₁ q₁ n₁ hq₁ hn₁ := by
    rcases lookup_insert_eq_some.mp hq₁ with ⟨rfl, rfl⟩ | ⟨hne, hq₁⟩
    · exact hwaits n₁ hn₁
    · exact (hi.waits r₁ q₁ n₁ hq₁ hn₁).of_users (hother r₁ hne)
  held r₁ q₁ n₁ hq₁ hn₁ := by
    rcases lookup_insert_eq_some.mp hq₁ with ⟨rfl, rfl⟩ | ⟨hne, hq₁⟩
    · exact (hheld n₁ hn₁).1
    · exact (hi.held r₁ q₁ n₁ hq₁ hn₁).of_users (hother r₁ hne)
  fits r₁ q₁ n₁ hq₁ hn₁ := by
    rcases lookup_insert_eq_some.mp hq₁ with ⟨rfl, rfl⟩ | ⟨-, hq₁⟩
    · exact (hheld n₁ hn₁).2
    · exact hi.fits r₁ q₁ n₁ hq₁ hn₁
  built := hi.built

private theorem Inv.leave {locks : NameLocks String} (hwf : locks.WF)
    (hother : ∀ k, k ≠ r → locks.users.lookup k = s.locks.users.lookup k)
    (hwaits : Task.waits { q with phase } = none) (hheld : Task.held { q with phase } = none) :
    Inv cfg { s.goto r q phase with locks } := by
  refine hi.relock hwf hother ?_ ?_
  · intro n hn
    rw [hwaits] at hn
    cases hn
  · intro n hn
    rw [hheld] at hn
    cases hn

private theorem Inv.idle (hwaits : Task.waits { q with phase } = none)
    (hheld : Task.held { q with phase } = none) : Inv cfg (s.goto r q phase) :=
  hi.leave hi.locks (fun _ _ ↦ rfl) hwaits hheld

private theorem Inv.lock (hwaits : Task.waits { q with phase } = some name)
    (hheld : Task.held { q with phase } = none) (h : s.lock r q name phase = some s') :
    s'.Inv cfg := by
  obtain ⟨locks, hlocks, rfl⟩ := Option.map_eq_some_iff.mp h
  refine hi.relock (hi.locks.enter hlocks) (fun k hk ↦ NameLocks.users_of_enter hlocks hk) ?_ ?_
  · intro n hn
    rw [hwaits] at hn
    cases hn
    exact NameLocks.waits_of_enter hlocks
  · intro n hn
    rw [hheld] at hn
    cases hn

private theorem Inv.take (hq : s.tasks.lookup r = some q) (h : s.take r q = some s') :
    s'.Inv cfg := by
  -- the name waited for is the name held
  have hstep : ∀ {name phase}, q.waits = some name →
      Task.waits { q with phase } = none → Task.held { q with phase } = some name →
      Task.Fits cfg { q with phase } (s.records.lookup name) (s.machines.lookup name) →
      (s.locks.take r).map (fun locks ↦ { s.goto r q phase with locks }) = some s' →
      s'.Inv cfg := by
    intro name phase hwait hwaits hheld hfits hs
    obtain ⟨locks, hlocks, rfl⟩ := Option.map_eq_some_iff.mp hs
    refine hi.relock (hi.locks.take hlocks) (fun k hk ↦ NameLocks.users_of_take hlocks hk) ?_ ?_
    · intro n hn
      rw [hwaits] at hn
      cases hn
    · intro n hn
      rw [hheld] at hn
      cases hn
      exact ⟨NameLocks.holds_of_take (hi.waits r q name hq hwait) hlocks, hfits⟩
  revert h
  fun_cases State.take s r q
  · next hphase => exact hstep (by rw [Task.waits, hphase]) rfl rfl True.intro
  · next hphase => exact hstep (by rw [Task.waits, hphase]) rfl rfl True.intro
  · nofun

/-- The request gives its name back, or does not wait for it any more. -/
theorem Inv.away {op : Option (NameLocks String)} (hwf : ∀ locks, op = some locks → locks.WF)
    (hother : ∀ locks, op = some locks →
      ∀ k, k ≠ r → locks.users.lookup k = s.locks.users.lookup k)
    (hwaits : Task.waits { q with phase } = none) (hheld : Task.held { q with phase } = none)
    (h : op.map (fun locks ↦ { s.goto r q phase with locks }) = some s') : s'.Inv cfg := by
  obtain ⟨locks, hlocks, rfl⟩ := Option.map_eq_some_iff.mp h
  exact hi.leave (hwf locks hlocks) (hother locks hlocks) hwaits hheld

private theorem Inv.giveUp {why : String} (h : s.giveUp cfg r q why = some s') :
    s'.Inv cfg := by
  revert h
  fun_cases State.giveUp cfg s r q why
  · exact hi.away (fun _ ↦ hi.locks.giveUp) (fun _ h _ ↦ NameLocks.users_of_giveUp h) rfl rfl
  · exact hi.away (fun _ ↦ hi.locks.giveUp) (fun _ h _ ↦ NameLocks.users_of_giveUp h) rfl rfl
  · nofun

private theorem Inv.unlock (h : s.unlock r q = some s') : s'.Inv cfg := by
  revert h
  fun_cases State.unlock s r q
  · exact hi.away (fun _ ↦ hi.locks.unlock) (fun _ h _ ↦ NameLocks.users_of_unlock h) rfl rfl
  · exact hi.away (fun _ ↦ hi.locks.unlock) (fun _ h _ ↦ NameLocks.users_of_unlock h) rfl rfl
  · nofun

private theorem Inv.release (h : s.release r q = some s') : s'.Inv cfg := by
  revert h
  fun_cases State.release s r q
  · exact hi.away (fun _ ↦ hi.locks.release) (fun _ h _ ↦ NameLocks.users_of_release h) rfl rfl
  · exact hi.away (fun _ ↦ hi.locks.release) (fun _ h _ ↦ NameLocks.users_of_release h) rfl rfl
  · nofun

private theorem Inv.reply {reply : Response}
    (hq : s.tasks.lookup r = some q) (hphase : q.phase = phase)
    (hheld : Task.held { q with phase } = some q.req.name) :
    Inv cfg (s.goto r q (.unlocking reply)) :=
  hi.goto hq (hi.known hq hphase hheld).1 rfl rfl True.intro

private theorem Inv.load (hq : s.tasks.lookup r = some q)
    (h : s.load cfg r q err = some s') : s'.Inv cfg := by
  revert h
  fun_cases State.load cfg s r q err <;> rintro ⟨⟩
  · next hphase => exact hi.reply hq hphase rfl
  · next hphase =>
    have hheld := (hi.known hq hphase rfl).1
    fun_cases State.owned cfg s q
    · exact hi.reply hq hphase rfl
    · exact hi.reply hq hphase rfl
    · next ρ hρ _ howner => exact hi.goto hq hheld rfl rfl ⟨ρ, hρ, howner⟩
    · exact hi.reply hq hphase rfl
    · next hnone => exact hi.goto hq hheld rfl rfl hnone
  · exact hi.idle rfl rfl
  · exact hi.idle rfl rfl

end

private theorem truthful_absent {found : Found} (h : s.truthful n found = true)
    (ha : found = .absent) :
    s.machines.lookup n = none := by
  rw [truthful, ha] at h
  exact Option.isNone_iff_eq_none.mp (by simpa using h)

private theorem Inv.look {res : Except String (Found × Notes)} (hi : s.Inv cfg)
    (hq : s.tasks.lookup r = some q) (h : s.look r q res = some s') : s'.Inv cfg := by
  revert h
  fun_cases State.look s r q res <;> rintro ⟨⟩
  · next hphase => exact hi.reply hq hphase rfl
  · next found _ hphase htruth =>
    obtain ⟨hheld, hnone⟩ := hi.known hq hphase rfl
    fun_cases State.unowned q found
    · next ha => exact hi.goto hq hheld rfl rfl ⟨hnone, truthful_absent htruth ha⟩
    all_goals exact hi.reply hq hphase rfl
  · next hphase _ => exact hi.reply hq hphase rfl
  · next hphase _ => exact hi.reply hq hphase rfl

private theorem Inv.put {created : String} (hi : s.Inv cfg)
    (hq : s.tasks.lookup r = some q) (h : s.put r q created err = some s') : s'.Inv cfg := by
  revert h
  fun_cases State.put s r q created err <;> rintro ⟨⟩
  · next hphase => exact hi.reply hq hphase rfl
  · next hphase =>
    obtain ⟨hheld, hfits⟩ := hi.known hq hphase rfl
    have hvm : s.machines.lookup q.req.name = none := hfits.2
    refine hi.change hq hheld (fun k hk ↦ AList.lookup_insert_ne hk) (fun _ _ ↦ rfl) rfl rfl
      ⟨⟨_, AList.lookup_insert _, rfl⟩, hvm⟩ ?_
    intro m sid hm
    cases hvm.symm.trans hm

private theorem Inv.fetch (hi : s.Inv cfg) (hq : s.tasks.lookup r = some q)
    (h : s.fetch r q err = some s') : s'.Inv cfg := by
  revert h
  fun_cases State.fetch s r q err <;> rintro ⟨⟩
  · next hphase =>
    obtain ⟨hheld, hfits⟩ := hi.known hq hphase rfl
    exact hi.goto hq hheld rfl rfl hfits.1
  · next hphase =>
    obtain ⟨hheld, hfits⟩ := hi.known hq hphase rfl
    refine hi.goto hq hheld rfl rfl ⟨hfits.1, ?_⟩
    intro m hm
    cases hfits.2.symm.trans hm

private theorem Inv.appear (hi : s.Inv cfg) (hq : s.tasks.lookup r = some q)
    (h : s.appear r q = some s') :
    s'.Inv cfg := by
  revert h
  fun_cases State.appear s r q <;> rintro ⟨⟩
  next hphase =>
  obtain ⟨hheld, ⟨ρ, hρ, howner⟩, -⟩ := hi.known hq hphase rfl
  refine hi.change hq hheld (fun _ _ ↦ rfl) (fun k hk ↦ AList.lookup_insert_ne hk) rfl rfl
    ⟨⟨ρ, hρ, howner⟩, ?_⟩ ?_
  · intro m hm
    rw [AList.lookup_insert] at hm
    exact (Option.some.inj hm).symm
  · intro m sid hm hsid
    rw [AList.lookup_insert] at hm
    cases hm
    cases hsid
    exact ⟨ρ, hρ, howner⟩

private theorem isNone_absent (h : (s.machines.lookup n).isNone = true) :
    s.machines.lookup n = none :=
  Option.isNone_iff_eq_none.mp h

private theorem Inv.performed {addr : String} (hi : s.Inv cfg)
    (hq : s.tasks.lookup r = some q) (hphase : q.phase = .performing)
    (h : s.performed q err addr = some phase) : Inv cfg (s.goto r q phase) := by
  revert h
  fun_cases State.performed s q err addr <;> rintro ⟨⟩
  · exact hi.reply hq hphase rfl
  · next habsent =>
    exact hi.goto hq (hi.known hq hphase rfl).1 rfl rfl (isNone_absent habsent)
  · exact hi.reply hq hphase rfl
  · exact hi.reply hq hphase rfl

private theorem Inv.returned {addr : String} (hi : s.Inv cfg)
    (hq : s.tasks.lookup r = some q) (h : s.returned r q err addr = some s') : s'.Inv cfg := by
  revert h
  fun_cases State.returned s r q err addr <;> first | rintro ⟨⟩ | intro h
  · exact hi.idle rfl rfl
  · exact hi.idle rfl rfl
  · next hphase =>
    obtain ⟨phase, hperformed, rfl⟩ := Option.map_eq_some_iff.mp h
    exact hi.performed hq hphase hperformed
  · next hphase =>
    obtain ⟨hheld, hown, -⟩ := hi.known hq hphase rfl
    exact hi.goto hq hheld rfl rfl hown
  · next hphase => exact hi.reply hq hphase rfl
  · next hphase => exact hi.reply hq hphase rfl
  · next hphase habsent =>
    exact hi.goto hq (hi.known hq hphase rfl).1 rfl rfl (isNone_absent habsent)
  · next hphase => exact hi.goto hq (hi.known hq hphase rfl).1 rfl rfl True.intro
  · next hphase habsent =>
    exact hi.goto hq (hi.known hq hphase rfl).1 rfl rfl (isNone_absent habsent)

private theorem lookup_removeIf_ne {owner k : String} (hk : k ≠ name) :
    (removeIf cfg records name owner).lookup k = records.lookup k := by
  unfold removeIf
  split
  · split
    · exact AList.lookup_erase_ne hk
    · rfl
  · rfl

section

variable (hi : s.Inv cfg)

include hi

private theorem Inv.remove_record {owner : String}
    (hq : s.tasks.lookup r = some q) (hn : q.held = some n) (hgone : s.machines.lookup n = none)
    (hheld : Task.held { q with phase } = some n) (hwaits : Task.waits { q with phase } = none)
    (hfits : ∀ rec vm, Task.Fits cfg { q with phase } rec vm) :
    Inv cfg { s.goto r q phase with records := removeIf cfg s.records n owner } := by
  refine hi.change hq hn (fun k hk ↦ lookup_removeIf_ne hk) (fun _ _ ↦ rfl) hheld hwaits
    (hfits _ _) ?_
  intro m sid hm
  cases hgone.symm.trans hm

private theorem Inv.remove (hq : s.tasks.lookup r = some q)
    (h : s.remove cfg r q err = some s') : s'.Inv cfg := by
  revert h
  fun_cases State.remove cfg s r q err <;> rintro ⟨⟩
  · next hphase => exact hi.reply hq hphase rfl
  · next hphase =>
    obtain ⟨hheld, hgone⟩ := hi.known hq hphase rfl
    exact hi.remove_record hq hheld hgone rfl rfl fun _ _ ↦ True.intro
  · next hphase => exact hi.reply hq hphase rfl
  · next hphase =>
    obtain ⟨hheld, hgone⟩ := hi.known hq hphase rfl
    exact hi.remove_record hq hheld hgone rfl rfl fun _ _ ↦ True.intro
  · next hphase => exact hi.goto hq (hi.known hq hphase rfl).1 rfl rfl True.intro
  · next hphase =>
    obtain ⟨hheld, hgone⟩ := hi.known hq hphase rfl
    exact hi.remove_record hq hheld hgone rfl rfl fun _ _ ↦ True.intro

private theorem Inv.vanish : Inv cfg { s with machines := s.machines.erase name } where
  locks := hi.locks
  waits := hi.waits
  held := hi.held
  fits r q n hq hn := by
    have hfits := hi.fits r q n hq hn
    by_cases hk : n = name
    · subst hk
      rw [AList.lookup_erase]
      exact hfits.gone
    · rw [AList.lookup_erase_ne hk]
      exact hfits
  built n m sid hm hsid := hi.built n m sid (lookup_erase_eq_some.mp hm).2 hsid

private theorem Inv.request {caller : Caller} {req : Request}
    (h : s.request cfg r caller req = some s') : s'.Inv cfg := by
  revert h
  fun_cases State.request cfg s r caller req <;> first | rintro ⟨⟩ | intro h
  · exact hi.idle rfl rfl
  · exact hi.idle rfl rfl
  · exact hi.idle rfl rfl
  · exact hi.idle rfl rfl
  · exact hi.idle rfl rfl
  · exact hi.lock rfl rfl h

private theorem Inv.next (h : s.next r q = some s') : s'.Inv cfg := by
  revert h
  fun_cases State.next s r q <;> first | rintro ⟨⟩ | intro h
  · exact hi.idle rfl rfl
  · exact hi.idle rfl rfl
  · exact hi.lock rfl rfl h

end

private theorem inv_start {machines : AList fun _ : String ↦ VM}
    (hbuilt : Recorded records machines) : Inv cfg (start records machines) where
  locks := NameLocks.wf_empty
  waits _ _ _ h := by cases h
  held _ _ _ h := by cases h
  fits _ _ _ h := by cases h
  built := hbuilt

private theorem Inv.act {e : Event} (hi : s.Inv cfg) (h : s.act cfg e = some s') : s'.Inv cfg := by
  have hasked : ∀ {r} {f : Task → Option State}, (s.tasks.lookup r).bind f = some s' →
      (∀ q, s.tasks.lookup r = some q → f q = some s' → s'.Inv cfg) → s'.Inv cfg := by
    intro r f h hf
    obtain ⟨q, hq, h⟩ := Option.bind_eq_some_iff.mp h
    exact hf q hq h
  cases e with
  | request r caller req => exact hi.request h
  | take r => exact hasked h fun _ ↦ hi.take
  | giveUp r why => exact hasked h fun _ _ ↦ hi.giveUp
  | load r err => exact hasked h fun _ ↦ hi.load
  | look r res => exact hasked h fun _ ↦ hi.look
  | put r created err => exact hasked h fun _ ↦ hi.put
  | fetch r err => exact hasked h fun _ ↦ hi.fetch
  | appear r => exact hasked h fun _ ↦ hi.appear
  | vanish name =>
    cases h
    exact hi.vanish
  | returned r err addr => exact hasked h fun _ ↦ hi.returned
  | remove r err => exact hasked h fun _ ↦ hi.remove
  | unlock r => exact hasked h fun _ _ ↦ hi.unlock
  | release r => exact hasked h fun _ _ ↦ hi.release
  | next r => exact hasked h fun _ _ ↦ hi.next
  | crash =>
    cases h
    exact inv_start hi.built

/-- What the service keeps to. The calls of `performing` are the start, the stop, the address, the
retract, the destroy and the look whose notes are returned; that of `clearing` is the destroy with
which a create takes its own machine away. A create puts its record where there is none and no
machine, and there is still no machine when, after `fetching`, it starts to build. -/
structure Owned (cfg : Config) (s : State) : Prop where
  performing : ∀ r q, s.tasks.lookup r = some q → q.phase = .performing →
    ∃ ρ, s.records.lookup q.req.name = some ρ ∧ cfg.equalFold ρ.owner q.caller.sid = true
  clearing : ∀ r q b, s.tasks.lookup r = some q → q.phase = .clearing b →
    ∃ ρ, s.records.lookup q.req.name = some ρ ∧ ρ.owner = q.caller.sid
  recording : ∀ r q, s.tasks.lookup r = some q → q.phase = .recording →
    s.records.lookup q.req.name = none ∧ s.machines.lookup q.req.name = none
  fetching : ∀ r q, s.tasks.lookup r = some q → q.phase = .fetching →
    (∃ ρ, s.records.lookup q.req.name = some ρ ∧ ρ.owner = q.caller.sid) ∧
      s.machines.lookup q.req.name = none
  creating : ∀ r q m, s.tasks.lookup r = some q → q.phase = .creating →
    s.machines.lookup q.req.name = some m → m = ⟨some q.caller.sid⟩
  alone : ∀ r q r' q' n, s.tasks.lookup r = some q → s.tasks.lookup r' = some q' →
    q.held = some n → q'.held = some n → r = r'
  built : Recorded s.records s.machines

private theorem Inv.owned (hi : s.Inv cfg) : s.Owned cfg where
  performing _ _ hq hphase := (hi.known hq hphase rfl).2
  clearing _ _ _ hq hphase := (hi.known hq hphase rfl).2
  recording _ _ hq hphase := (hi.known hq hphase rfl).2
  fetching _ _ hq hphase := (hi.known hq hphase rfl).2
  creating _ _ m hq hphase hm := (hi.known hq hphase rfl).2.2 m hm
  alone _ _ _ _ _ hq hq' hn hn' := hi.alone hq' hn' hq hn
  built := hi.built

end State

/-- One user's machine is never another's: whatever requests there are, however their calls end and
wherever the service crashes, from any file and machines of which those the service built are
recorded. -/
theorem owned_run {records : Records} {machines : AList fun _ : String ↦ VM} {es : List Event}
    (hstart : State.Recorded records machines)
    (hr : (machine cfg).run (start records machines) es = some s) : s.Owned cfg := by
  have hi : s.Inv cfg := (machine cfg).run_invariant_all
    (fun _ _ _ hi h ↦ hi.act h) (State.inv_start hstart) hr
  exact hi.owned

/-- The configuration of the run below, where the case of an `s` does not count. -/
def cutOffConfig : Config where
  fold c := if c = 's' then 'S' else c
  quote := id
  parseProxy _ := none

/-- Alice's create is cut off by a crash after the machine has been made; they start the machine,
and Bob asks for the same name meanwhile. -/
def cutOff : List Event :=
  let settings : Settings :=
    { publicKey := "ssh-ed25519 AAAA", account := "alice", port := 22, image := "flatcar" }
  [.request 0 ⟨"S-1", false⟩ ⟨.create, "ws", some settings⟩, .take 0, .load 0 none,
    .look 0 (.ok (.absent, ⟨"", ""⟩)), .put 0 "2026-11-16T12:00:00Z" none, .fetch 0 none, .appear 0,
    .crash, .request 0 ⟨"s-1", false⟩ ⟨.start, "ws", none⟩, .take 0, .load 0 none,
    .request 1 ⟨"S-2", false⟩ ⟨.create, "ws", some settings⟩]

theorem owned_run_cutOff :
    ∃ s q, (machine cutOffConfig).run (start ∅ ∅) cutOff = some s ∧ s.tasks.lookup 0 = some q ∧
      q.phase = .performing ∧ q.req.name = "ws" ∧ q.caller.sid = "s-1" ∧
        s.machines.lookup "ws" = some ⟨some "S-1"⟩ ∧
        ∃ ρ, s.records.lookup "ws" = some ρ ∧ cutOffConfig.equalFold ρ.owner "s-1" = true := by
  obtain ⟨s, hs, hvm, q, hq, hphase, hname, hsid⟩ : ∃ s, (machine cutOffConfig).run (start ∅ ∅)
      cutOff = some s ∧ s.machines.lookup "ws" = some ⟨some "S-1"⟩ ∧ ∃ q,
      s.tasks.lookup 0 = some q ∧ (match q.phase with
        | .performing => true
        | _ => false) = true ∧ q.req.name = "ws" ∧ q.caller.sid = "s-1" := by
    decide +kernel
  have hperforming : q.phase = .performing := by
    split at hphase
    · assumption
    · cases hphase
  have howned := owned_run (fun n m sid h ↦ by cases h) hs
  have hmine := howned.performing 0 q hq hperforming
  rw [hname, hsid] at hmine
  exact ⟨s, q, hs, hq, hperforming, hname, hsid, hvm, hmine⟩

end RemoteDocker.Broker

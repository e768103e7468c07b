import RemoteDocker.Forwards.Policy

/-!
# A listening port is a reserved port

A reservation belongs to the forward that made it, by its token, and only that forward releases it.
The forward releases it after its listener is closed or was never opened, in the handler and in the
goroutine that accepts. The policy's own goroutine releases it when the connection ends, and waits
for nothing: the listener may be open still, or about to be.
-/

namespace RemoteDocker.Forwards

open Base Tunnels

def Event.releases : Event → Option Nat
  | .releaseFailed f => some f
  | .releaseOnEnd f => some f
  | .serveRelease f => some f
  | _ => none

/-- It listens, or is about to. -/
def Forward.Active (fw : Forward) : Prop := fw.phase = .listening ∨ fw.opened = true

/-- What becomes of a forward: it stays the forward it is, and starts to listen only once. -/
structure Moved (fw fw' : Forward) : Prop where
  host : fw'.host = fw.host
  port : fw'.port = fw.port
  account : fw'.account = fw.account
  token : fw'.token = fw.token
  opened : fw'.opened = true → fw'.phase = .serving ∨ fw'.phase = .broken
  active : fw'.Active → fw.Active
  begun : fw'.phase ≠ .binding → fw'.phase ≠ .done → fw.phase ≠ .binding ∧ fw.phase ≠ .done

namespace Policy

variable {p : Policy} {t : Nat} {host : String} {port : Nat} {k : String} {r : Reservation}

private theorem lookup_release :
    (p.release t host port).bound.lookup k = some r ↔
      p.bound.lookup k = some r ∧ ¬(k = key host port ∧ r.token = t) := by
  unfold release
  split
  · next res hres =>
    split
    · next htoken =>
      rw [lookup_erase_eq_some]
      constructor
      · rintro ⟨hk, hr⟩
        exact ⟨hr, fun h ↦ hk h.1⟩
      · rintro ⟨hr, hnot⟩
        refine ⟨?_, hr⟩
        rintro rfl
        cases hres.symm.trans hr
        exact hnot ⟨rfl, htoken⟩
    · next htoken =>
      refine ⟨fun hr ↦ ⟨hr, ?_⟩, fun h ↦ h.1⟩
      rintro ⟨rfl, h⟩
      cases hres.symm.trans hr
      exact htoken h
  · next hnone =>
    refine ⟨fun hr ↦ ⟨hr, ?_⟩, fun h ↦ h.1⟩
    rintro ⟨rfl, -⟩
    rw [hnone] at hr
    cases hr

private theorem not_loopback_of_hostForward {account : Account} {gateway : Bool} {run : Option Nat}
    {owned : Bool} {port' : Nat}
    (h : p.reverseAllow account host port gateway run owned = .hostForward port') :
    isLoopback host = false := by
  cases hloop : isLoopback host with
  | false => rfl
  | true =>
    have hnone : allowHostForward gateway host port = none := by simp [allowHostForward, hloop]
    rw [reverseAllow, hnone] at h
    split at h
    · cases h
    · dsimp only at h
      split at h
      · cases h
      · split at h <;> cases h

private theorem next_release : (p.release t host port).next = p.next := by
  unfold release
  split
  · split <;> rfl
  · rfl

end Policy

namespace State

variable {s s' : State} {e : Event} {f : Nat} {fw fw' : Forward}

inductive Steps (s : State) : Event → State → Prop
  | frame {e : Event} {s' : State} (hpolicy : s'.policy = s.policy) (htasks : s'.tasks = s.tasks) :
      Steps s e s'
  | starts {e : Event} {s' : State} (f : Nat) (fw : Forward) (hnew : f ∉ s.tasks)
      (htoken : fw.token = 0) (hopened : fw.opened = false)
      (hphase : fw.phase = .binding ∨ fw.phase = .listening ∧ isLoopback fw.host = false)
      (hpolicy : s'.policy = s.policy) (htasks : s'.tasks = s.tasks.insert f fw) : Steps s e s'
  | binds {e : Event} {s' : State} (f : Nat) (fw : Forward) (hfw : s.tasks.lookup f = some fw)
      (hphase : fw.phase = .binding)
      (hnone : s.policy.bound.lookup (key fw.host fw.port) = none)
      (hpolicy : s'.policy = { s.policy with
        next := s.policy.next + 1
        bound := s.policy.bound.insert (key fw.host fw.port) ⟨fw.account, s.policy.next + 1⟩ })
      (htasks : s'.tasks = s.tasks.insert f
        { fw with token := s.policy.next + 1, phase := .listening, watched := true }) :
      Steps s e s'
  | moves {e : Event} {s' : State} (f : Nat) (fw fw' : Forward)
      (hfw : s.tasks.lookup f = some fw) (hpolicy : s'.policy = s.policy)
      (htasks : s'.tasks = s.tasks.insert f fw') (hmoved : Moved fw fw') : Steps s e s'
  | releases {e : Event} {s' : State} (f : Nat) (fw fw' : Forward)
      (hfw : s.tasks.lookup f = some fw)
      (hpolicy : s'.policy = s.policy.release fw.token fw.host fw.port)
      (htasks : s'.tasks = s.tasks.insert f fw') (hevent : e.releases = some f)
      (hmoved : Moved fw fw') (hidle : fw'.Active → e = .releaseOnEnd f) : Steps s e s'

structure Inv (s : State) : Prop where
  tokens : ∀ f fw, s.tasks.lookup f = some fw → fw.token ≤ s.policy.next
  distinct : ∀ f f' fw fw', s.tasks.lookup f = some fw → s.tasks.lookup f' = some fw' →
    fw.token ≠ 0 → fw.token = fw'.token → f = f'
  /-- Every reservation is one that a forward made. -/
  made : ∀ k r, s.policy.bound.lookup k = some r → ∃ f fw, s.tasks.lookup f = some fw ∧
    fw.token = r.token ∧ fw.token ≠ 0 ∧ key fw.host fw.port = k ∧ fw.account = r.account
  opened : ∀ f fw, s.tasks.lookup f = some fw → fw.opened = true →
    fw.phase = .serving ∨ fw.phase = .broken
  bound : ∀ f fw, s.tasks.lookup f = some fw → fw.phase ≠ .binding → fw.phase ≠ .done →
    isLoopback fw.host = true → fw.token ≠ 0

private theorem closed_of_phase (hi : Inv s) (hfw : s.tasks.lookup f = some fw)
    (hserving : fw.phase ≠ .serving) (hbroken : fw.phase ≠ .broken) : fw.opened = false := by
  cases hopened : fw.opened with
  | false => rfl
  | true =>
    rcases hi.opened f fw hfw hopened with h | h
    · exact absurd h hserving
    · exact absurd h hbroken

private theorem moved_closed (hhost : fw'.host = fw.host) (hport : fw'.port = fw.port)
    (haccount : fw'.account = fw.account) (htoken : fw'.token = fw.token)
    (hclosed : fw'.opened = false) (hphase : fw'.phase ≠ .listening)
    (hbegun : fw'.phase ≠ .binding → fw'.phase ≠ .done → fw.phase ≠ .binding ∧ fw.phase ≠ .done) :
    Moved fw fw' where
  host := hhost
  port := hport
  account := haccount
  token := htoken
  opened h := absurd (h.symm.trans hclosed) Bool.noConfusion
  active h := by
    rcases h with h | h
    · exact absurd h hphase
    · exact absurd (h.symm.trans hclosed) Bool.noConfusion
  begun := hbegun

private theorem not_active (hclosed : fw.opened = false) (hphase : fw.phase ≠ .listening) :
    ¬fw.Active := by
  rintro (h | h)
  · exact hphase h
  · exact absurd (h.symm.trans hclosed) Bool.noConfusion

private theorem steps_request {conn : Nat} {host : String} {port : Nat} {gateway : Bool}
    {run : Option Nat}
    {owned : Bool} (h : s.request f conn host port gateway run owned = some s') : Steps s e s' := by
  revert h
  fun_cases request s f conn host port gateway run owned <;> rintro ⟨⟩
  · exact .frame rfl rfl
  · next hnew port' hasked =>
    exact .starts f _ hnew rfl rfl (.inr ⟨rfl, Policy.not_loopback_of_hostForward hasked⟩) rfl rfl
  · next hnew _ _ _ => exact .starts f _ hnew rfl rfl (.inl rfl) rfl rfl

private theorem steps_bind (hi : Inv s) (hfw : s.tasks.lookup f = some fw)
    (h : s.bind f fw = some s') :
    Steps s e s' := by
  obtain ⟨hphase, h⟩ := Option.ite_none_right_eq_some.mp h
  have hclosed := closed_of_phase hi hfw (by rw [hphase]; nofun) (by rw [hphase]; nofun)
  unfold Policy.bind at h
  cases hbound : s.policy.bound.lookup (key fw.host fw.port) with
  | some res =>
    rw [hbound] at h
    cases h
    exact .moves f fw _ hfw rfl rfl
      (moved_closed rfl rfl rfl rfl hclosed nofun fun _ hdone ↦ absurd rfl hdone)
  | none =>
    rw [hbound] at h
    cases h
    exact .binds f fw hfw hphase hbound rfl rfl

private theorem steps_listen {ok : Bool} (hi : Inv s) (hfw : s.tasks.lookup f = some fw)
    (h : s.listen f fw ok = some s') : Steps s e s' := by
  obtain ⟨hphase, h⟩ := Option.ite_none_right_eq_some.mp h
  have hbegun : fw.phase ≠ .binding ∧ fw.phase ≠ .done := by
    rw [hphase]
    exact ⟨nofun, nofun⟩
  cases ok with
  | true =>
    cases h
    exact .moves f fw _ hfw rfl rfl
      ⟨rfl, rfl, rfl, rfl, fun _ ↦ .inl rfl, fun _ ↦ .inl hphase, fun _ _ ↦ hbegun⟩
  | false =>
    have hclosed := closed_of_phase hi hfw (by rw [hphase]; nofun) (by rw [hphase]; nofun)
    cases h
    exact .moves f fw _ hfw rfl rfl
      (moved_closed rfl rfl rfl rfl hclosed nofun fun _ _ ↦ hbegun)

/-- A forward that is done with its reservation after its listener is. -/
theorem steps_release {phase : Phase} (hi : Inv s) (hfw : s.tasks.lookup f = some fw)
    (hphase : fw.phase = phase) (hserving : phase ≠ .serving) (hbroken : phase ≠ .broken)
    (hevent : e.releases = some f)
    (hs' : s' = { s with
      policy := s.policy.release fw.token fw.host fw.port
      tasks := s.tasks.insert f { fw with phase := .done } }) : Steps s e s' := by
  subst hphase
  have hclosed := closed_of_phase hi hfw hserving hbroken
  subst hs'
  refine .releases f fw _ hfw rfl rfl hevent
    (moved_closed rfl rfl rfl rfl hclosed nofun fun _ hdone ↦ absurd rfl hdone) ?_
  exact fun hactive ↦ absurd hactive (not_active hclosed nofun)

private theorem moved_watched (hi : Inv s) (hfw : s.tasks.lookup f = some fw) :
    Moved fw { fw with watched := false } :=
  ⟨rfl, rfl, rfl, rfl, hi.opened f fw hfw, fun h ↦ h, fun h h' ↦ ⟨h, h'⟩⟩

private theorem steps_cancel {conn : Nat} {host : String} {port : Nat}
    (h : s.cancel conn host port = some s') : Steps s e s' := by
  unfold cancel at h
  split at h
  · cases h
    exact .frame rfl rfl
  · next f hf =>
    split at h
    · cases h
    · next fw hfw =>
      cases h
      refine .moves f fw _ hfw rfl rfl ⟨rfl, rfl, rfl, rfl, nofun, ?_, fun h h' ↦ ⟨h, h'⟩⟩
      rintro (h | h)
      · exact .inl h
      · cases h

private theorem steps_drop (hfw : s.tasks.lookup f = some fw) (hhost : fw'.host = fw.host)
    (hport : fw'.port = fw.port) (haccount : fw'.account = fw.account)
    (htoken : fw'.token = fw.token) (hphase : fw'.phase = .listening → fw.phase = .listening)
    (hbegun : fw'.phase ≠ .binding → fw'.phase ≠ .done → fw.phase ≠ .binding ∧ fw.phase ≠ .done) :
    Steps s e (s.drop f fw') := by
  refine .moves f fw { fw' with opened := false } hfw rfl rfl
    ⟨hhost, hport, haccount, htoken, nofun, ?_, hbegun⟩
  rintro (h | h)
  · exact .inl (hphase h)
  · cases h

private theorem steps_of_act (hi : Inv s) (h : s.act e = some s') : Steps s e s' := by
  revert h
  fun_cases act s e <;> intro h
  case case3 => exact steps_request h
  case case7 => exact steps_cancel h
  case case1 | case8 => cases h
  case case2 | case9 =>
    cases h
    exact .frame rfl rfl
  all_goals obtain ⟨fw, hfw, h⟩ := Option.bind_eq_some_iff.mp h
  · exact steps_bind hi hfw h
  · exact steps_listen hi hfw h
  · obtain ⟨hphase, h⟩ := Option.ite_none_right_eq_some.mp h
    exact steps_release hi hfw hphase nofun nofun rfl (Option.some.inj h).symm
  · obtain ⟨-, ⟨⟩⟩ := Option.ite_none_right_eq_some.mp h
    exact .releases _ fw _ hfw rfl rfl rfl (moved_watched hi hfw) fun _ ↦ rfl
  · obtain ⟨-, ⟨⟩⟩ := Option.ite_none_right_eq_some.mp h
    exact steps_drop hfw rfl rfl rfl rfl (fun h ↦ h) fun h h' ↦ ⟨h, h'⟩
  · obtain ⟨hphase, ⟨⟩⟩ := Option.ite_none_right_eq_some.mp h
    refine .moves _ fw _ hfw rfl rfl ⟨rfl, rfl, rfl, rfl, fun _ ↦ .inr rfl, ?_, ?_⟩
    · rintro (h | h)
      · cases h
      · exact .inr h
    · intro _ _
      rw [hphase]
      exact ⟨nofun, nofun⟩
  · obtain ⟨hphase, ⟨⟩⟩ := Option.ite_none_right_eq_some.mp h
    refine steps_drop hfw rfl rfl rfl rfl nofun ?_
    intro _ _
    rw [hphase]
    exact ⟨nofun, nofun⟩
  · obtain ⟨hphase, h⟩ := Option.ite_none_right_eq_some.mp h
    exact steps_release hi hfw hphase nofun nofun rfl (Option.some.inj h).symm

private theorem inv_moved (hi : Inv s) (hfw : s.tasks.lookup f = some fw) (hmoved : Moved fw fw')
    (hnext : s'.policy.next = s.policy.next)
    (hbound : ∀ k r, s'.policy.bound.lookup k = some r → s.policy.bound.lookup k = some r)
    (htasks : s'.tasks = s.tasks.insert f fw') : Inv s' := by
  -- Every forward is as it was, but for the one that moved.
  have hwas : ∀ g gw, s'.tasks.lookup g = some gw → ∃ gw₀, s.tasks.lookup g = some gw₀ ∧
      gw.token = gw₀.token := by
    intro g gw hg
    rw [htasks] at hg
    rcases lookup_insert_eq_some.mp hg with ⟨rfl, rfl⟩ | ⟨-, hg⟩
    · exact ⟨fw, hfw, hmoved.token⟩
    · exact ⟨gw, hg, rfl⟩
  constructor
  · intro g gw hg
    obtain ⟨gw₀, hg₀, htoken⟩ := hwas g gw hg
    rw [htoken, hnext]
    exact hi.tokens g gw₀ hg₀
  · intro g g' gw gw' hg hg' hne heq
    obtain ⟨gw₀, hg₀, htoken⟩ := hwas g gw hg
    obtain ⟨gw₀', hg₀', htoken'⟩ := hwas g' gw' hg'
    rw [htoken] at hne heq
    rw [htoken'] at heq
    exact hi.distinct g g' gw₀ gw₀' hg₀ hg₀' hne heq
  · intro k r hr
    obtain ⟨g, gw, hg, htoken, hne, hkey, haccount⟩ := hi.made k r (hbound k r hr)
    by_cases hgf : g = f
    · subst hgf
      cases hfw.symm.trans hg
      refine ⟨g, fw', by rw [htasks, AList.lookup_insert], ?_⟩
      rw [hmoved.token, hmoved.host, hmoved.port, hmoved.account]
      exact ⟨htoken, hne, hkey, haccount⟩
    · exact ⟨g, gw, by rw [htasks, AList.lookup_insert_ne hgf, hg], htoken, hne, hkey, haccount⟩
  · rw [htasks]
    exact forall_lookup_insert hmoved.opened hi.opened
  · rw [htasks]
    refine forall_lookup_insert (fun hbinding hdone hloop ↦ ?_) hi.bound
    obtain ⟨hbinding₀, hdone₀⟩ := hmoved.begun hbinding hdone
    rw [hmoved.host] at hloop
    rw [hmoved.token]
    exact hi.bound f fw hfw hbinding₀ hdone₀ hloop

private theorem lookup_of_mem_notMem {g : Nat} {gw : Forward} (hnew : f ∉ s.tasks)
    (hg : s.tasks.lookup g = some gw) : g ≠ f := by
  rintro rfl
  exact hnew (mem_of_lookup hg)

private theorem inv_starts (hi : Inv s) (hnew : f ∉ s.tasks) (htoken : fw.token = 0)
    (hopened : fw.opened = false)
    (hphase : fw.phase = .binding ∨ fw.phase = .listening ∧ isLoopback fw.host = false)
    (hpolicy : s'.policy = s.policy) (htasks : s'.tasks = s.tasks.insert f fw) : Inv s' := by
  constructor
  · rw [htasks, hpolicy]
    exact forall_lookup_insert (htoken ▸ Nat.zero_le _) hi.tokens
  · intro g g' gw gw' hg hg' hne heq
    rw [htasks] at hg hg'
    rcases lookup_insert_eq_some.mp hg with ⟨-, rfl⟩ | ⟨-, hg⟩
    · exact absurd htoken hne
    · rcases lookup_insert_eq_some.mp hg' with ⟨-, rfl⟩ | ⟨-, hg'⟩
      · exact absurd (heq.trans htoken) hne
      · exact hi.distinct g g' gw gw' hg hg' hne heq
  · intro k r hr
    rw [hpolicy] at hr
    obtain ⟨g, gw, hg, hmade⟩ := hi.made k r hr
    refine ⟨g, gw, ?_, hmade⟩
    rw [htasks, AList.lookup_insert_ne (lookup_of_mem_notMem hnew hg)]
    exact hg
  · rw [htasks]
    refine forall_lookup_insert (fun h ↦ ?_) hi.opened
    exact absurd (h.symm.trans hopened) Bool.noConfusion
  · rw [htasks]
    refine forall_lookup_insert (fun hbinding _ hloop ↦ ?_) hi.bound
    rcases hphase with h | ⟨-, h⟩
    · exact absurd h hbinding
    · exact absurd (hloop.symm.trans h) Bool.noConfusion

private theorem inv_binds (hi : Inv s) (hfw : s.tasks.lookup f = some fw)
    (hphase : fw.phase = .binding)
    (hpolicy : s'.policy = { s.policy with
      next := s.policy.next + 1
      bound := s.policy.bound.insert (key fw.host fw.port) ⟨fw.account, s.policy.next + 1⟩ })
    (htasks : s'.tasks = s.tasks.insert f
      { fw with token := s.policy.next + 1, phase := .listening, watched := true }) :
    Inv s' := by
  have hclosed := closed_of_phase hi hfw (by rw [hphase]; nofun) (by rw [hphase]; nofun)
  constructor
  · rw [htasks, hpolicy]
    exact forall_lookup_insert le_rfl fun g gw hg ↦ (hi.tokens g gw hg).trans (Nat.le_succ _)
  · intro g g' gw gw' hg hg' hne heq
    rw [htasks] at hg hg'
    rcases lookup_insert_eq_some.mp hg with ⟨rfl, rfl⟩ | ⟨-, hold⟩ <;>
      rcases lookup_insert_eq_some.mp hg' with ⟨rfl, rfl⟩ | ⟨-, hold'⟩
    · rfl
    · have hle := hi.tokens g' gw' hold'
      dsimp only at heq
      omega
    · have hle := hi.tokens g gw hold
      dsimp only at heq
      omega
    · exact hi.distinct g g' gw gw' hold hold' hne heq
  · intro k r hr
    rw [hpolicy] at hr
    rcases lookup_insert_eq_some.mp hr with ⟨rfl, rfl⟩ | ⟨hk, hr⟩
    · have hf : s'.tasks.lookup f =
          some { fw with token := s.policy.next + 1, phase := .listening, watched := true } := by
        rw [htasks, AList.lookup_insert]
      exact ⟨f, _, hf, rfl, Nat.succ_ne_zero _, rfl, rfl⟩
    · obtain ⟨g, gw, hg, hmade⟩ := hi.made k r hr
      have hgf : g ≠ f := by
        rintro rfl
        cases hfw.symm.trans hg
        exact hk hmade.2.2.1.symm
      exact ⟨g, gw, by rw [htasks, AList.lookup_insert_ne hgf, hg], hmade⟩
  · rw [htasks]
    refine forall_lookup_insert (fun h ↦ ?_) hi.opened
    exact absurd (h.symm.trans hclosed) Bool.noConfusion
  · rw [htasks]
    exact forall_lookup_insert (fun _ _ _ ↦ Nat.succ_ne_zero _) hi.bound

private theorem inv_steps (hi : Inv s) (h : Steps s e s') : Inv s' := by
  cases h with
  | frame hpolicy htasks =>
    obtain ⟨tokens, distinct, made, opened, bound⟩ := hi
    rw [← hpolicy, ← htasks] at *
    exact ⟨tokens, distinct, made, opened, bound⟩
  | starts f fw hnew htoken hopened hphase hpolicy htasks =>
    exact inv_starts hi hnew htoken hopened hphase hpolicy htasks
  | binds f fw hfw hphase hnone hpolicy htasks =>
    exact inv_binds hi hfw hphase hpolicy htasks
  | moves f fw fw' hfw hpolicy htasks hmoved =>
    refine inv_moved hi hfw hmoved (by rw [hpolicy]) ?_ htasks
    rw [hpolicy]
    exact fun _ _ h ↦ h
  | releases f fw fw' hfw hpolicy htasks hevent hmoved hidle =>
    refine inv_moved hi hfw hmoved (by rw [hpolicy, Policy.next_release]) ?_ htasks
    rw [hpolicy]
    exact fun _ _ h ↦ (Policy.lookup_release.mp h).1

private theorem inv_start (mapping : Mapping) : Inv (start mapping) where
  tokens _ _ h := by cases h
  distinct _ _ _ _ h := by cases h
  made _ _ h := by cases h
  opened _ _ h := by cases h
  bound _ _ h := by cases h

/-- The condition: the policy's goroutine does not release before the listener of the forward is
closed, or its listen has failed. -/
def careful (s : State) : Event → Bool
  | .releaseOnEnd f =>
    match s.tasks.lookup f with
    | none => true
    | some fw => fw.phase ≠ .listening && !fw.opened
  | _ => true

/-- A forward of a loopback name that listens, or is about to, holds its reservation. -/
def Holding (s : State) : Prop :=
  ∀ f fw, s.tasks.lookup f = some fw → isLoopback fw.host = true → fw.Active →
    s.policy.bound.lookup (key fw.host fw.port) = some ⟨fw.account, fw.token⟩

private theorem not_active_of_careful (hcareful : s.careful (.releaseOnEnd f) = true)
    (hfw : s.tasks.lookup f = some fw) : ¬fw.Active := by
  simp only [careful, hfw, Bool.and_eq_true, decide_eq_true_eq, Bool.not_eq_true'] at hcareful
  exact not_active hcareful.2 hcareful.1

private theorem token_ne_zero (hi : Inv s) (hfw : s.tasks.lookup f = some fw)
    (hloop : isLoopback fw.host = true) (hactive : fw.Active) : fw.token ≠ 0 := by
  have hphase : fw.phase = .listening ∨ fw.phase = .serving ∨ fw.phase = .broken :=
    hactive.imp_right (hi.opened f fw hfw)
  apply hi.bound f fw hfw _ _ hloop <;> rcases hphase with h | h | h <;> simp [h]

/-- A forward that moves on keeps what the others hold, and what it holds itself unless it is not
active any more. -/
theorem holding_moved (hi : Inv s) (hh : Holding s) (hfw : s.tasks.lookup f = some fw)
    (hmoved : Moved fw fw') (htasks : s'.tasks = s.tasks.insert f fw')
    (hbound : ∀ k r, s.policy.bound.lookup k = some r → r.token = fw.token ∧ ¬fw'.Active ∨
      s'.policy.bound.lookup k = some r) : Holding s' := by
  intro g gw hg hloop hactive
  rw [htasks] at hg
  rcases lookup_insert_eq_some.mp hg with ⟨rfl, rfl⟩ | ⟨hgf, hg⟩
  · rw [hmoved.host, hmoved.port, hmoved.account, hmoved.token] at *
    have hheld := hh _ fw hfw hloop (hmoved.active hactive)
    rcases hbound _ _ hheld with ⟨-, hidle⟩ | hkept
    · exact absurd hactive hidle
    · exact hkept
  · have hheld := hh g gw hg hloop hactive
    rcases hbound _ _ hheld with ⟨htoken, -⟩ | hkept
    · exact absurd (hi.distinct g f gw fw hg hfw (token_ne_zero hi hg hloop hactive) htoken) hgf
    · exact hkept

private theorem holding_steps (hi : Inv s) (hh : Holding s) (hcareful : s.careful e = true)
    (h : Steps s e s') : Holding s' := by
  cases h with
  | frame hpolicy htasks =>
    intro f fw hfw
    rw [hpolicy]
    rw [htasks] at hfw
    exact hh f fw hfw
  | starts f fw hnew htoken hopened hphase hpolicy htasks =>
    unfold Holding
    rw [htasks, hpolicy]
    refine forall_lookup_insert (fun hloop hactive ↦ ?_) hh
    rcases hphase with hbinding | ⟨-, hhost⟩
    · exact absurd hactive (not_active hopened (by rw [hbinding]; nofun))
    · exact absurd (hloop.symm.trans hhost) Bool.noConfusion
  | binds f fw hfw hphase hnone hpolicy htasks =>
    unfold Holding
    rw [htasks, hpolicy]
    refine forall_lookup_insert (fun _ _ ↦ AList.lookup_insert _) fun g gw hg hloop hactive ↦ ?_
    have hheld := hh g gw hg hloop hactive
    refine (AList.lookup_insert_ne ?_).trans hheld
    intro hkey
    rw [hkey, hnone] at hheld
    cases hheld
  | moves f fw fw' hfw hpolicy htasks hmoved =>
    refine holding_moved hi hh hfw hmoved htasks fun k r hr ↦ .inr ?_
    rw [hpolicy]
    exact hr
  | releases f fw fw' hfw hpolicy htasks hevent hmoved hidle =>
    have hnot : ¬fw'.Active := by
      intro hactive
      have he := hidle hactive
      subst he
      exact not_active_of_careful hcareful hfw (hmoved.active hactive)
    refine holding_moved hi hh hfw hmoved htasks fun k r hr ↦ ?_
    by_cases htoken : r.token = fw.token
    · exact .inl ⟨htoken, hnot⟩
    · rw [hpolicy]
      exact .inr (Policy.lookup_release.mpr ⟨hr, fun h ↦ htoken h.2⟩)

private theorem inv_run {mapping : Mapping} {es : List Event}
    (hr : machine.run (start mapping) es = some s) : Inv s :=
  machine.run_invariant_all (fun _ _ _ hi h ↦ inv_steps hi (steps_of_act hi h))
    (inv_start mapping) hr

private theorem holding_run {mapping : Mapping} {es : List Event}
    (hw : machine.Within (fun s e ↦ s.careful e = true) (start mapping) es)
    (hr : machine.run (start mapping) es = some s) : Holding s := by
  have hstep : ∀ s e s', Inv s ∧ Holding s → s.careful e = true → machine.step s e = some s' →
      Inv s' ∧ Holding s' := by
    rintro s e s' ⟨hi, hh⟩ hcareful hact
    have hsteps := steps_of_act hi hact
    exact ⟨inv_steps hi hsteps, holding_steps hi hh hcareful hsteps⟩
  have hstart : Holding (start mapping) := by
    intro f fw hfw
    cases hfw
  exact (machine.run_invariant _ hstep ⟨inv_start mapping, hstart⟩ hw hr).2

private theorem released_by_maker {k : String} {r : Reservation} (hi : Inv s) (h : Steps s e s')
    (hr : s.policy.bound.lookup k = some r) (hgone : s'.policy.bound.lookup k ≠ some r) :
    ∃ f fw, e.releases = some f ∧ s.tasks.lookup f = some fw ∧ fw.token = r.token ∧
      fw.account = r.account ∧ key fw.host fw.port = k := by
  cases h with
  | frame hpolicy | starts _ _ _ _ _ _ hpolicy | moves _ _ _ _ hpolicy =>
    rw [hpolicy] at hgone
    exact absurd hr hgone
  | binds f fw hfw hphase hnone hpolicy htasks =>
    rw [hpolicy] at hgone
    refine absurd ((AList.lookup_insert_ne ?_).trans hr) hgone
    rintro rfl
    rw [hnone] at hr
    cases hr
  | releases f fw fw' hfw hpolicy htasks hevent hmoved hidle =>
    by_cases hmine : k = key fw.host fw.port ∧ r.token = fw.token
    · obtain ⟨g, gw, hg, htoken, hne, -, haccount⟩ := hi.made k r hr
      have hgf := hi.distinct g f gw fw hg hfw hne (htoken.trans hmine.2)
      subst hgf
      cases hfw.symm.trans hg
      exact ⟨g, fw, hevent, hfw, hmine.2.symm, haccount, hmine.1.symm⟩
    · rw [hpolicy] at hgone
      exact absurd (Policy.lookup_release.mpr ⟨hr, hmine⟩) hgone

end State

private theorem key_loopback {host host' : String} (h : isLoopback host = true)
    (h' : isLoopback host' = true) (port : Nat) : key host port = key host' port := by
  rw [key, key, if_pos h, if_pos h']

/-- What another account is told of a port that is reserved. -/
theorem allowDial_refused {p : Policy} {r : Reservation} {account host host' : String} {port : Nat}
    (hr : p.bound.lookup (key host port) = some r) (hhost : isLoopback host = true)
    (hhost' : isLoopback host' = true) (hne : account ≠ r.account) :
    p.allowDial account host' port = (false, "that port is another account's file server") := by
  have hholder : p.holder host' port = some r.account := by
    rw [Policy.holder, key_loopback hhost' hhost port, hr]
    rfl
  rw [Policy.allowDial, if_pos hhost', hholder]
  exact if_pos hne.symm

/-- A port that is listened on is reserved, as long as the policy's goroutine waits for the
listener: nobody else may dial it, by any loopback name. In any run a port has one reservation,
whatever the name, and it goes only with the token it was made with. -/
theorem listening_port_reserved (mapping : Mapping) (es : List Event) (s : State)
    (hr : machine.run (start mapping) es = some s) :
    (machine.Within (fun s e ↦ s.careful e = true) (start mapping) es →
      ∀ f fw, s.tasks.lookup f = some fw → isLoopback fw.host = true → fw.opened = true →
        s.policy.bound.lookup (key fw.host fw.port) = some ⟨fw.account, fw.token⟩ ∧
        ∀ account host, isLoopback host = true → account ≠ fw.account →
          s.policy.allowDial account host fw.port =
            (false, "that port is another account's file server")) ∧
    (∀ host host' port r r', isLoopback host = true → isLoopback host' = true →
      s.policy.bound.lookup (key host port) = some r →
      s.policy.bound.lookup (key host' port) = some r' → r = r') ∧
    ∀ e s' k r, machine.step s e = some s' → s.policy.bound.lookup k = some r →
      s'.policy.bound.lookup k ≠ some r →
      ∃ f fw, e.releases = some f ∧ s.tasks.lookup f = some fw ∧ fw.token = r.token ∧
        fw.account = r.account ∧ key fw.host fw.port = k := by
  have hi := State.inv_run hr
  refine ⟨?_, ?_, ?_⟩
  · intro hw f fw hfw hloop hopened
    have hheld := State.holding_run hw hr f fw hfw hloop (.inr hopened)
    exact ⟨hheld, fun account host hhost hne ↦ allowDial_refused hheld hloop hhost hne⟩
  · intro host host' port r r' hhost hhost' hlookup hlookup'
    rw [key_loopback hhost hhost' port] at hlookup
    exact Option.some.inj (hlookup.symm.trans hlookup')
  · intro e s' k r hstep hlookup hgone
    exact State.released_by_maker hi (State.steps_of_act hi hstep) hlookup hgone

def aliceListens : List Event :=
  [.connect 0 ⟨"alice", 10000, "laptop", false⟩,
    .request 0 0 "127.0.0.1" 20000 false none true, .bind 0, .listen 0 true]

/-- bob may not dial it, by another name either. -/
theorem listening_port_reserved_alice :
    ∃ s, machine.run (start ⟨10000, 20000⟩) aliceListens = some s ∧
      (s.tasks.lookup 0).map (·.opened) = some true ∧
      s.policy.allowDial "bob" "localhost" 20000 =
        (false, "that port is another account's file server") := by
  obtain ⟨s, hs, hfw⟩ : ∃ s, machine.run (start ⟨10000, 20000⟩) aliceListens = some s ∧
      s.tasks.lookup 0 = some
        { conn := 0, account := "alice", host := "127.0.0.1", port := 20000, token := 1
          phase := .serving, opened := true, watched := true, guarded := true } := by
    decide
  obtain ⟨hreserved, -, -⟩ := listening_port_reserved ⟨10000, 20000⟩ aliceListens s hs
  refine ⟨s, hs, by rw [hfw]; rfl, ?_⟩
  exact (hreserved (by decide) 0 _ hfw (by decide) rfl).2 "bob" "localhost" (by decide) (by decide)

/-- The connection ends and the policy's goroutine is first: the listener is open, and bob may dial
it. -/
theorem listening_port_released :
    (machine.run (start ⟨10000, 20000⟩)
      (aliceListens ++ [.disconnect 0, .releaseOnEnd 0])).map (fun s ↦
        ((s.tasks.lookup 0).map (·.opened), s.policy.holder "127.0.0.1" 20000,
          s.policy.allowDial "bob" "127.0.0.1" 20000)) =
    some (some true, none, true, "") := by
  decide

/-- No reservation is left behind or shared: each is one that a forward made, for its account and
address, no two are of one forward, and a forward to a loopback address has made one from when it is
bound until it is done. -/
theorem reservations_made (mapping : Mapping) (es : List Event) (s : State)
    (hr : machine.run (start mapping) es = some s) :
    (∀ k r, s.policy.bound.lookup k = some r → ∃ f fw, s.tasks.lookup f = some fw ∧
      fw.token = r.token ∧ fw.token ≠ 0 ∧ key fw.host fw.port = k ∧ fw.account = r.account) ∧
    (∀ k k' r r', s.policy.bound.lookup k = some r → s.policy.bound.lookup k' = some r' →
      r.token = r'.token → k = k') ∧
    ∀ f fw, s.tasks.lookup f = some fw → fw.phase ≠ .binding → fw.phase ≠ .done →
      isLoopback fw.host = true → fw.token ≠ 0 := by
  have hi := State.inv_run hr
  refine ⟨hi.made, ?_, hi.bound⟩
  intro k k' r r' hlookup hlookup' htoken
  obtain ⟨f, fw, hf, hr, hne, rfl, -⟩ := hi.made k r hlookup
  obtain ⟨f', fw', hf', hr', -, rfl, -⟩ := hi.made k' r' hlookup'
  cases hi.distinct f f' fw fw' hf hf' hne (hr.trans (htoken.trans hr'.symm))
  cases hf.symm.trans hf'
  rfl

theorem reservations_made_alice :
    ∃ s f fw, machine.run (start ⟨10000, 20000⟩) aliceListens = some s ∧
      s.tasks.lookup f = some fw ∧ fw.token = 1 ∧ fw.account = "alice" := by
  obtain ⟨s, hs, hbound⟩ : ∃ s, machine.run (start ⟨10000, 20000⟩) aliceListens = some s ∧
      s.policy.bound.lookup (key "127.0.0.1" 20000) = some ⟨"alice", 1⟩ := by
    decide
  obtain ⟨f, fw, hf, htoken, -, -, haccount⟩ := (reservations_made _ _ s hs).1 _ _ hbound
  exact ⟨s, f, fw, hs, hf, htoken, haccount⟩

end RemoteDocker.Forwards

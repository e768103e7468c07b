import RemoteDocker.Enrol.SingleUse

/-!
# An unredeemed token is revoked

`Revoke` (`src/core-agent/tokens/tokens.go:169-198`) removes the token's file, then lists the
directory, then removes the claims of the token that it listed. A token that is claimed when its
file is looked for is found among the claims, unless it is put back in between: then it is under
neither name when it is looked for there, and `Revoke` says that there is no such token.
-/

namespace RemoteDocker.Enrol.Tokens

open Base

variable {sha256 : String → List UInt8} {s s' : State} {n : Nat} {id : String}

def Present (files : Files) (id : String) : Prop := ∃ name ∈ files.keys, name.id = id

instance (files : Files) (id : String) : Decidable (Present files id) :=
  inferInstanceAs (Decidable (∃ _ ∈ _, _ = _))

/-- `Revoke`, before it lists the directory. -/
def Call.lists : Call → Bool
  | .listClaims _ _ => true
  | _ => false

/-- The system calls of the `Revoke` succeed, or do not find the name; a listing has every name that
is there; and nothing else removes the token. -/
def Alone (sha256 : String → List UInt8) (n : Nat) (id : String) (s : State) (e : Event) : Prop :=
  match e with
  | .next m now fails listing =>
    if m = n then
      fails = false ∧
        ∀ call ∈ s.calls.lookup n, call.lists = true → ∀ name ∈ s.files.keys, name ∈ listing
    else ∀ s' ∈ step sha256 s (.next m now fails listing), Present s.files id → Present s'.files id
  | e => ∀ s' ∈ step sha256 s e, Present s.files id → Present s'.files id

instance (s : State) : (e : Event) → Decidable (Alone sha256 n id s e)
  | .next m now fails listing => inferInstanceAs (Decidable (if m = n then fails = false ∧
        ∀ call ∈ s.calls.lookup n, call.lists = true → ∀ name ∈ s.files.keys, name ∈ listing
      else ∀ s' ∈ step sha256 s (.next m now fails listing),
        Present s.files id → Present s'.files id))
  | .consume k c secret => inferInstanceAs (Decidable
      (∀ s' ∈ step sha256 s (.consume k c secret), Present s.files id → Present s'.files id))
  | .revoke k id' => inferInstanceAs (Decidable
      (∀ s' ∈ step sha256 s (.revoke k id'), Present s.files id → Present s'.files id))
  | .sweep k => inferInstanceAs (Decidable
      (∀ s' ∈ step sha256 s (.sweep k), Present s.files id → Present s'.files id))
  | .done c fails => inferInstanceAs (Decidable
      (∀ s' ∈ step sha256 s (.done c fails), Present s.files id → Present s'.files id))
  | .restore c fails => inferInstanceAs (Decidable
      (∀ s' ∈ step sha256 s (.restore c fails), Present s.files id → Present s'.files id))

/-- Once the `Revoke` has looked for the token's file, no claim is put back. -/
def NotPutBack (sha256 : String → List UInt8) (n : Nat) (id : String) (s : State) (e : Event) :
    Prop :=
  s.calls.lookup n ≠ some (.revoke id) → .token id ∉ s.files →
    ∀ s' ∈ step sha256 s e, .token id ∉ s'.files

instance (s : State) (e : Event) : Decidable (NotPutBack sha256 n id s e) :=
  inferInstanceAs (Decidable (_ → _ → ∀ _ ∈ _, _ ∉ _))

/-- What a step does with the files: nothing, or one removal or rename of a claim. -/
inductive FileStep (files : Files) : Files → Prop
  | same : FileStep files files
  | removed {name : Name} {files' : Files} (h : remove files name = some files') :
      FileStep files files'
  | claimed {c : Claim} {files' : Files} (h : rename files c.home c.place = some files') :
      FileStep files files'
  | restored {c : Claim} {files' : Files} (h : rename files c.place c.home = some files') :
      FileStep files files'

private theorem fileStep_next {files : Files} {call : Call} {now : Int} {fails : Bool}
    {listing : List Name} : FileStep files (call.next sha256 files now fails listing).files := by
  fun_cases Call.next sha256 files now fails listing call
  case case2 h => exact .claimed (Option.ite_none_left_eq_some.mp h).2
  case case7 h => exact .restored (Option.ite_none_left_eq_some.mp h).2
  case case9 h | case15 h => exact .removed h
  case case21 h => exact .removed (Option.ite_none_right_eq_some.mp h).2
  case case26 h => exact .removed (Option.ite_none_left_eq_some.mp h).2
  all_goals exact .same

/-- What a step that is not call `n`'s does: the files as said, call `n` where it was, and the log
no shorter. -/
structure Beside (n : Nat) (s s' : State) : Prop where
  files : FileStep s.files s'.files
  call : ∀ call, s.calls.lookup n = some call → s'.calls.lookup n = some call
  log : ∃ new, s'.log = new ++ s.log

private theorem beside_begin {k : Nat} {call : Call} (h : s.begin k call = some s') :
    Beside n s s' := by
  unfold State.begin at h
  split at h
  · cases h
  · next hfree =>
    cases h
    refine ⟨.same, ?_, [], rfl⟩
    intro call' hcall'
    refine lookup_insert_eq_some.mpr (.inr ⟨?_, hcall'⟩)
    rintro rfl
    exact hfree (mem_of_lookup hcall')

private theorem beside_refl (s : State) : Beside n s s := ⟨.same, fun _ hcall ↦ hcall, [], rfl⟩

private theorem beside_step {e : Event} (hne : ∀ now fails listing, e ≠ .next n now fails listing)
    (h : step sha256 s e = some s') : Beside n s s' := by
  revert h
  fun_cases step sha256 s e <;> intro h
  case case1 | case3 | case5 => exact beside_begin h
  case case6 k now fails listing =>
    obtain ⟨call, hcall, rfl⟩ := Option.map_eq_some_iff.mp h
    have hkn : n ≠ k := by
      rintro rfl
      exact hne now fails listing rfl
    refine ⟨fileStep_next, ?_, _, rfl⟩
    intro call' hcall'
    simp only [State.after]
    split
    · exact lookup_insert_eq_some.mpr (.inr ⟨hkn, hcall'⟩)
    · exact lookup_erase_eq_some.mpr ⟨hkn, hcall'⟩
  all_goals cases h
  case case8 c fails hgave files' hremove =>
    exact ⟨.removed (Option.ite_none_left_eq_some.mp hremove).2, fun _ hcall ↦ hcall,
      [.redeemed c], rfl⟩
  case case11 c fails hgave files' hrename =>
    exact ⟨.restored (Option.ite_none_left_eq_some.mp hrename).2, fun _ hcall ↦ hcall, [], rfl⟩
  all_goals exact beside_refl s

/-- A claim stays where it is while its token is not put back. -/
theorem mem_of_fileStep {files files' : Files} {name : Name} (hf : FileStep files files')
    (hsingle : Single files) (hid : name.id = id) (hname : name ∈ files)
    (htoken : .token id ∉ files) (hpresent : Present files' id) (hnot : .token id ∉ files') :
    name ∈ files' := by
  obtain ⟨name', hname', hid'⟩ := hpresent
  rw [← AList.mem_keys] at hname'
  -- The token's file now is under a name it had before, which is the only one it had.
  have hold : name' ∈ files := by
    obtain ⟨t, ht⟩ := exists_lookup hname'
    cases hf with
    | same => exact hname'
    | removed h => exact mem_of_lookup (lookup_of_remove h ht).2
    | claimed h =>
      rcases lookup_of_rename h ht with ⟨rfl, hhome⟩ | ⟨-, -, hold⟩
      · cases hid'
        exact absurd (mem_of_lookup hhome) htoken
      · exact mem_of_lookup hold
    | restored h =>
      rcases lookup_of_rename h ht with ⟨rfl, -⟩ | ⟨-, -, hold⟩
      · cases hid'
        exact absurd hname' hnot
      · exact mem_of_lookup hold
  obtain ⟨t, ht⟩ := exists_lookup hname
  obtain ⟨u, hu⟩ := exists_lookup hold
  rw [hsingle name name' t u ht hu (hid.trans hid'.symm)]
  exact hname'

/-- The `Revoke` has returned nil, or has found the token, or will. -/
inductive Ahead (n : Nat) (id : String) (s : State) : Prop
  | returned (hlog : .revoked id ∈ s.log) : Ahead n id s
  | looking (hcall : s.calls.lookup n = some (.revoke id)) (hpresent : Present s.files id) :
      Ahead n id s
  | listing {found : Bool} (hcall : s.calls.lookup n = some (.listClaims id found))
      (hfound : found = true ∨ .token id ∉ s.files ∧ Present s.files id) : Ahead n id s
  | removing {found : Bool} {claims : List Name}
      (hcall : s.calls.lookup n = some (.removeClaims id found claims))
      (hfound : found = true ∨
        .token id ∉ s.files ∧ ∃ name ∈ claims, name ∈ s.files ∧ name.id = id) : Ahead n id s

private theorem Ahead.beside (ha : Ahead n id s) (hb : Beside n s s') (hsingle : Single s.files)
    (hpresent : Present s.files id → Present s'.files id)
    (hnot : s.calls.lookup n ≠ some (.revoke id) → .token id ∉ s.files → .token id ∉ s'.files) :
    Ahead n id s' := by
  cases ha with
  | returned hlog =>
    obtain ⟨new, hnew⟩ := hb.log
    exact .returned (hnew ▸ List.mem_append_right new hlog)
  | looking hcall hthere => exact .looking (hb.call _ hcall) (hpresent hthere)
  | listing hcall hfound =>
    have hpast : s.calls.lookup n ≠ some (.revoke id) := by
      rw [hcall]
      nofun
    refine .listing (hb.call _ hcall) ?_
    rcases hfound with hfound | ⟨htoken, hthere⟩
    · exact .inl hfound
    · exact .inr ⟨hnot hpast htoken, hpresent hthere⟩
  | removing hcall hfound =>
    have hpast : s.calls.lookup n ≠ some (.revoke id) := by
      rw [hcall]
      nofun
    refine .removing (hb.call _ hcall) ?_
    rcases hfound with hfound | ⟨htoken, name, hclaims, hname, hid⟩
    · exact .inl hfound
    · have hgone := hnot hpast htoken
      have hthere := hpresent ⟨name, AList.mem_keys.mp hname, hid⟩
      exact .inr ⟨hgone, name, hclaims,
        mem_of_fileStep hb.files hsingle hid hname htoken hthere hgone, hid⟩

private theorem Ahead.own {call : Call} {now : Int} {listing : List Name} (ha : Ahead n id s)
    (hcall : s.calls.lookup n = some call)
    (hlisting : call.lists = true → ∀ name ∈ s.files.keys, name ∈ listing) :
    Ahead n id (s.after n (call.next sha256 s.files now false listing)) := by
  cases ha with
  | returned hlog => exact .returned (List.mem_append_right _ hlog)
  | looking hrevoke hpresent =>
    rw [hrevoke] at hcall
    cases hcall
    simp only [Call.next, Bool.false_eq_true, if_false]
    split
    · exact .listing (AList.lookup_insert _) (.inl rfl)
    · next hnone =>
      refine .listing (AList.lookup_insert _) (.inr ⟨?_, hpresent⟩)
      rw [remove, Option.map_eq_none_iff] at hnone
      exact AList.lookup_eq_none.mp hnone
  | listing hlist hfound =>
    rw [hlist] at hcall
    cases hcall
    simp only [Call.next, Bool.false_eq_true, if_false]
    refine .removing (AList.lookup_insert _) ?_
    rcases hfound with hfound | ⟨htoken, name, hname, hid⟩
    · exact .inl hfound
    · refine .inr ⟨htoken, name, ?_, AList.mem_keys.mpr hname, hid⟩
      rw [List.mem_filter]
      refine ⟨hlisting rfl name hname, ?_⟩
      cases name with
      | token id' =>
        cases hid
        exact absurd (AList.mem_keys.mpr hname) htoken
      | claim id' time nonce => exact beq_iff_eq.mpr hid
  | removing hremove hfound =>
    rw [hremove] at hcall
    cases hcall
    next found claims =>
    cases claims with
    | nil =>
      rcases hfound with rfl | ⟨-, name, hname, -⟩
      · exact .returned (.head _)
      · cases hname
    | cons claim rest =>
      simp only [Call.next, Bool.false_eq_true, if_false]
      split
      · exact .removing (AList.lookup_insert _) (.inl rfl)
      · next hnone =>
        refine .removing (AList.lookup_insert _) ?_
        rw [remove, Option.map_eq_none_iff] at hnone
        rcases hfound with hfound | ⟨htoken, name, hname, hin, hid⟩
        · exact .inl hfound
        · refine .inr ⟨htoken, name, ?_, hin, hid⟩
          rcases List.mem_cons.mp hname with rfl | hrest
          · exact absurd hin (AList.lookup_eq_none.mp hnone)
          · exact hrest

private theorem Ahead.step {d : Directory sha256} {e : Event} (hi : Inv d s) (ha : Ahead n id s)
    (halone : Alone sha256 n id s e) (hnot : NotPutBack sha256 n id s e)
    (h : Tokens.step sha256 s e = some s') : Ahead n id s' := by
  have hother : (∀ now fails listing, e ≠ .next n now fails listing) →
      (∀ s' ∈ Tokens.step sha256 s e, Present s.files id → Present s'.files id) →
      Ahead n id s' := by
    intro hne hpresent
    exact ha.beside (beside_step hne h) hi.single (hpresent s' h)
      fun hpast htoken ↦ hnot hpast htoken s' h
  cases e with
  | next k now fails listing =>
    simp only [Alone] at halone
    split at halone
    · next hkn =>
      subst hkn
      obtain ⟨call, hcall, rfl⟩ := Option.map_eq_some_iff.mp h
      rw [halone.1]
      exact ha.own hcall (halone.2 call hcall)
    · next hkn =>
      refine hother ?_ halone
      intro now' fails' listing' heq
      cases heq
      exact hkn rfl
  | consume k c secret => exact hother nofun halone
  | revoke k id' => exact hother nofun halone
  | sweep k => exact hother nofun halone
  | done c fails => exact hother nofun halone
  | restore c fails => exact hother nofun halone

def Returns (sha256 : String → List UInt8) (n : Nat) (id : String) (s : State) : Prop :=
  ∃ own s', (∀ e ∈ own, ∃ now listing, e = .next n now false listing) ∧
    (machine sha256).run s own = some s' ∧ .revoked id ∈ s'.log

private theorem Returns.of_next {call : Call} (listing : List Name)
    (hcall : s.calls.lookup n = some call)
    (h : Returns sha256 n id (s.after n (call.next sha256 s.files 0 false listing))) :
    Returns sha256 n id s := by
  obtain ⟨own, s', hown, hrun, hlog⟩ := h
  refine ⟨.next n 0 false listing :: own, s', ?_, ?_, hlog⟩
  · intro e he
    rcases List.mem_cons.mp he with rfl | he
    · exact ⟨0, listing, rfl⟩
    · exact hown e he
  · simp only [Machine.run, machine, Tokens.step, hcall, Option.map_some]
    exact hrun

private theorem revoked_of_ended (ha : Ahead n id s) (hended : n ∉ s.calls) :
    .revoked id ∈ s.log := by
  have hnone := AList.lookup_eq_none.mpr hended
  cases ha with
  | returned hlog => exact hlog
  | looking hcall =>
    rw [hnone] at hcall
    cases hcall
  | listing hcall =>
    rw [hnone] at hcall
    cases hcall
  | removing hcall =>
    rw [hnone] at hcall
    cases hcall

private theorem returns_removing {found : Bool} {claims : List Name} (ha : Ahead n id s)
    (hcall : s.calls.lookup n = some (.removeClaims id found claims)) :
    Returns sha256 n id s := by
  induction claims generalizing s found with
  | nil =>
    apply Returns.of_next [] hcall
    have hended : n ∉ (s.after n ((Call.removeClaims id found []).next sha256 s.files 0 false
        [])).calls := fun hin ↦ (AList.mem_erase.mp hin).1 rfl
    exact ⟨[], _, nofun, rfl, revoked_of_ended (ha.own hcall nofun) hended⟩
  | cons name rest ih =>
    apply Returns.of_next [] hcall
    have hahead : Ahead n id (s.after n ((Call.removeClaims id found (name :: rest)).next sha256
        s.files 0 false [])) := ha.own hcall nofun
    have hnext : ∃ found', (s.after n ((Call.removeClaims id found (name :: rest)).next sha256
        s.files 0 false [])).calls.lookup n = some (.removeClaims id found' rest) := by
      simp only [Call.next, Bool.false_eq_true, if_false]
      split
      · exact ⟨true, AList.lookup_insert _⟩
      · exact ⟨found, AList.lookup_insert _⟩
    obtain ⟨found', hfound'⟩ := hnext
    exact ih hahead hfound'

private theorem returns_listing {found : Bool} (ha : Ahead n id s)
    (hcall : s.calls.lookup n = some (.listClaims id found)) : Returns sha256 n id s := by
  apply Returns.of_next s.files.keys hcall
  exact returns_removing (ha.own hcall fun _ _ hname ↦ hname) (AList.lookup_insert _)

private theorem Ahead.returns (ha : Ahead n id s) : Returns sha256 n id s := by
  cases ha with
  | returned hlog => exact ⟨[], s, nofun, rfl, hlog⟩
  | looking hcall hpresent =>
    apply Returns.of_next [] hcall
    have hahead : Ahead n id (s.after n ((Call.revoke id).next sha256 s.files 0 false [])) :=
      Ahead.own (.looking hcall hpresent) hcall nofun
    have hnext : ∃ found, (s.after n ((Call.revoke id).next sha256 s.files 0 false [])).calls.lookup
        n = some (.listClaims id found) := by
      simp only [Call.next, Bool.false_eq_true, if_false]
      split
      · exact ⟨true, AList.lookup_insert _⟩
      · exact ⟨false, AList.lookup_insert _⟩
    obtain ⟨found, hfound⟩ := hnext
    exact returns_listing hahead hfound
  | listing hcall hfound => exact returns_listing (.listing hcall hfound) hcall
  | removing hcall hfound => exact returns_removing (.removing hcall hfound) hcall

private theorem log_of_step {e : Event} (h : Tokens.step sha256 s e = some s') :
    ∃ new, s'.log = new ++ s.log := by
  cases e with
  | next k now fails listing =>
    obtain ⟨call, -, rfl⟩ := Option.map_eq_some_iff.mp h
    exact ⟨_, rfl⟩
  | consume k c secret => exact (beside_step (n := 0) (e := .consume k c secret) nofun h).log
  | revoke k id => exact (beside_step (n := 0) (e := .revoke k id) nofun h).log
  | sweep k => exact (beside_step (n := 0) (e := .sweep k) nofun h).log
  | done c fails => exact (beside_step (n := 0) (e := .done c fails) nofun h).log
  | restore c fails => exact (beside_step (n := 0) (e := .restore c fails) nofun h).log

private theorem log_of_run {es : List Event} (h : (machine sha256).run s es = some s') :
    ∃ new, s'.log = new ++ s.log := by
  have hstep : ∀ t e t', (∃ new, t.log = new ++ s.log) → (machine sha256).step t e = some t' →
      ∃ new, t'.log = new ++ s.log := by
    rintro t e t' ⟨new, hnew⟩ ht
    obtain ⟨more, hmore⟩ := log_of_step ht
    exact ⟨more ++ new, by rw [hmore, hnew, List.append_assoc]⟩
  exact (machine sha256).run_invariant_all hstep ⟨[], rfl⟩ h

/-- A token that has a file when its `Revoke` starts is revoked, as long as nothing else removes it
and it is not put back once its own file was looked for: the `Revoke` returns nil when it returns,
it can return at any time, and no `Done` of the token succeeds after it has. -/
theorem unredeemed_revoked {d : Directory sha256} {before during : List Event} {s₀ s₁ s : State}
    (hbefore : (machine sha256).run (start d) before = some s₀) (hvalid : validID id = true)
    (hminted : Present s₀.files id) (hstart : step sha256 s₀ (.revoke n id) = some s₁)
    (hduring : (machine sha256).run s₁ during = some s)
    (hw : (machine sha256).Within
      (fun s e ↦ Alone sha256 n id s e ∧ NotPutBack sha256 n id s e) s₁ during) :
    (n ∉ s.calls → .revoked id ∈ s.log) ∧ Returns sha256 n id s ∧
      (.revoked id ∈ s.log → ∀ later s', (machine sha256).run s later = some s' →
        ∃ new, s'.log = new ++ s.log ∧ ∀ o ∈ new, o.redeems id = false) := by
  have hstep : ∀ s e s', Inv d s → (machine sha256).step s e = some s' → Inv d s' :=
    fun _ _ _ hi h ↦ hi.step h
  have hinv₀ : Inv d s₀ := (machine sha256).run_invariant_all hstep (inv_start d) hbefore
  have hinv₁ : Inv d s₁ := hstep s₀ (.revoke n id) s₁ hinv₀ hstart
  have hahead₁ : Ahead n id s₁ := by
    simp only [step, hvalid, if_true] at hstart
    unfold State.begin at hstart
    split at hstart
    · cases hstart
    · cases hstart
      exact .looking (AList.lookup_insert _) hminted
  have hon : ∀ t e t', Inv d t ∧ Ahead n id t → Alone sha256 n id t e ∧ NotPutBack sha256 n id t e →
      (machine sha256).step t e = some t' → Inv d t' ∧ Ahead n id t' := by
    rintro t e t' ⟨hi, ha⟩ ⟨halone, hnot⟩ ht
    exact ⟨hi.step ht, ha.step hi halone hnot ht⟩
  have hboth : Inv d s ∧ Ahead n id s :=
    (machine sha256).run_invariant _ hon ⟨hinv₁, hahead₁⟩ hw hduring
  refine ⟨revoked_of_ended hboth.2, hboth.2.returns, ?_⟩
  intro hrevoked later s' hlater
  have hinv' : Inv d s' := (machine sha256).run_invariant_all hstep hboth.1 hlater
  obtain ⟨new, hnew⟩ := log_of_run hlater
  refine ⟨new, hnew, ?_⟩
  intro o ho
  have hordered := hinv'.ordered
  rw [hnew] at hordered
  have hne := (List.pairwise_append.mp hordered).2.2 o ho (.revoked id) hrevoked
  cases o with
  | redeemed c =>
    rw [Outcome.redeems, beq_eq_false_iff_ne]
    intro hid
    exact hne c rfl (congrArg some hid.symm)
  | consumed _ _ _ _ => rfl
  | revoked _ => rfl

def claimBoth : List Event :=
  [.consume 0 ⟨"aaaaaaaa", 1, "x"⟩ "s", .consume 1 ⟨"bbbbbbbb", 2, "y"⟩ "s",
    .next 0 3 false [], .next 1 3 false [], .next 0 4 false [], .next 1 4 false []]

def bothClaims : List Name := [.claim "aaaaaaaa" 1 "x", .claim "bbbbbbbb" 2 "y"]

/-- A claimed token is looked for, listed and removed. -/
def revokeClaimed : List Event :=
  [.next 2 5 false [], .next 2 5 false bothClaims, .next 2 5 false [], .next 2 5 false []]

/-- It is put back once its own file was looked for. -/
def revokePutBack : List Event :=
  [.next 2 5 false [], .restore ⟨"aaaaaaaa", 1, "x"⟩ false,
    .next 2 5 false [.token "aaaaaaaa", .claim "bbbbbbbb" 2 "y"], .next 2 5 false []]

theorem unredeemed_revoked_claimed :
    ∃ s₀ s₁ s, (machine charBytes).run (start twoTokens) claimBoth = some s₀ ∧
      step charBytes s₀ (.revoke 2 "aaaaaaaa") = some s₁ ∧
      (machine charBytes).run s₁ revokeClaimed = some s ∧ 2 ∉ s.calls ∧
      .revoked "aaaaaaaa" ∈ s.log := by
  obtain ⟨s₀, hs₀, hpresent, s₁, hs₁, hw, s, hs, hended⟩ : ∃ s₀,
      (machine charBytes).run (start twoTokens) claimBoth = some s₀ ∧
      Present s₀.files "aaaaaaaa" ∧ ∃ s₁, step charBytes s₀ (.revoke 2 "aaaaaaaa") = some s₁ ∧
      (machine charBytes).Within (fun s e ↦ Alone charBytes 2 "aaaaaaaa" s e ∧
        NotPutBack charBytes 2 "aaaaaaaa" s e) s₁ revokeClaimed ∧ ∃ s,
      (machine charBytes).run s₁ revokeClaimed = some s ∧ 2 ∉ s.calls := by
    decide +kernel
  exact ⟨s₀, s₁, s, hs₀, hs₁, hs, hended,
    (unredeemed_revoked hs₀ (by decide) hpresent hs₁ hs hw).1 hended⟩

/-- The `Revoke` returns with an error, and the token is there to be redeemed. -/
theorem unredeemed_not_revoked :
    ∃ s₀ s₁ s, (machine charBytes).run (start twoTokens) claimBoth = some s₀ ∧
      Present s₀.files "aaaaaaaa" ∧ step charBytes s₀ (.revoke 2 "aaaaaaaa") = some s₁ ∧
      (machine charBytes).Within (Alone charBytes 2 "aaaaaaaa") s₁ revokePutBack ∧
      (machine charBytes).run s₁ revokePutBack = some s ∧
      2 ∉ s.calls ∧ .revoked "aaaaaaaa" ∉ s.log ∧ .token "aaaaaaaa" ∈ s.files := by
  obtain ⟨s₀, hs₀, hpresent, s₁, hs₁, hw, s, hs, hend⟩ : ∃ s₀,
      (machine charBytes).run (start twoTokens) claimBoth = some s₀ ∧
      Present s₀.files "aaaaaaaa" ∧ ∃ s₁, step charBytes s₀ (.revoke 2 "aaaaaaaa") = some s₁ ∧
      (machine charBytes).Within (Alone charBytes 2 "aaaaaaaa") s₁ revokePutBack ∧ ∃ s,
      (machine charBytes).run s₁ revokePutBack = some s ∧
      2 ∉ s.calls ∧ .revoked "aaaaaaaa" ∉ s.log ∧ .token "aaaaaaaa" ∈ s.files := by
    decide +kernel
  exact ⟨s₀, s₁, s, hs₀, hpresent, hs₁, hw, hs, hend⟩

end RemoteDocker.Enrol.Tokens

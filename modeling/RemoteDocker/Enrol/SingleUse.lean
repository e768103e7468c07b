import RemoteDocker.Base.Table
import RemoteDocker.Enrol.Tokens

/-!
# A token is redeemed at most once

A token has one file, and every system call either leaves it, moves it to another name of its
id, or removes it. So whatever removes it, a `Done`, a `Revoke` or a `Sweep`, was the only one
to, and nothing of it is found afterwards.
-/

namespace RemoteDocker.Enrol.Tokens

open Base

def Single (files : Files) : Prop :=
  ∀ n m t u, files.lookup n = some t → files.lookup m = some u → n.id = m.id → n = m

def Gone (files : Files) (id : String) : Prop :=
  ∀ n, n.id = id → files.lookup n = none

/-- Every file is one from before, under a name of the same token, and a token with one file
still has one. -/
structure Follows (files files' : Files) : Prop where
  from_before : ∀ n t, files'.lookup n = some t → ∃ n', n'.id = n.id ∧ files.lookup n' = some t
  single : Single files → Single files'

section

variable {files files' : Files}

theorem Follows.refl (files : Files) : Follows files files where
  from_before := fun n _ hn ↦ ⟨n, rfl, hn⟩
  single := id

private theorem Gone.follows {id : String} (h : Gone files id) (hf : Follows files files') :
    Gone files' id := by
  intro n hn
  by_contra hsome
  obtain ⟨t, ht⟩ := Option.ne_none_iff_exists'.mp hsome
  obtain ⟨n', hid, hn'⟩ := hf.from_before n t ht
  rw [h n' (hid.trans hn)] at hn'
  cases hn'

variable {name : Name}

theorem lookup_of_remove (h : remove files name = some files') {n : Name} {t : Token}
    (hn : files'.lookup n = some t) : n ≠ name ∧ files.lookup n = some t := by
  obtain ⟨_, -, rfl⟩ := Option.map_eq_some_iff.mp h
  exact lookup_erase_eq_some.mp hn

theorem Follows.remove (h : remove files name = some files') : Follows files files' where
  from_before := fun n _ hn ↦ ⟨n, rfl, (lookup_of_remove h hn).2⟩
  single := by
    intro hs n m t u hn hm
    exact hs n m t u (lookup_of_remove h hn).2 (lookup_of_remove h hm).2

private theorem gone_of_remove (hs : Single files)
    (h : Tokens.remove files name = some files') : Gone files' name.id := by
  intro n hid
  by_contra hsome
  obtain ⟨t, ht⟩ := Option.ne_none_iff_exists'.mp hsome
  obtain ⟨hne, hn⟩ := lookup_of_remove h ht
  obtain ⟨u, hu, -⟩ := Option.map_eq_some_iff.mp h
  exact hne (hs n name t u hn hu hid)

theorem lookup_of_rename {old new : Name} (h : rename files old new = some files') {n : Name}
    {t : Token} (hn : files'.lookup n = some t) :
    (n = new ∧ files.lookup old = some t) ∨ (n ≠ new ∧ n ≠ old ∧ files.lookup n = some t) := by
  obtain ⟨u, hu, rfl⟩ := Option.map_eq_some_iff.mp h
  rcases lookup_insert_eq_some.mp hn with ⟨hnew, rfl⟩ | ⟨hnew, hn⟩
  · exact .inl ⟨hnew, hu⟩
  · exact .inr ⟨hnew, lookup_erase_eq_some.mp hn⟩

theorem Follows.rename {old new : Name} (hid : old.id = new.id)
    (h : rename files old new = some files') : Follows files files' where
  from_before := by
    intro n t hn
    rcases lookup_of_rename h hn with ⟨rfl, hold⟩ | ⟨-, -, hn⟩
    · exact ⟨old, hid, hold⟩
    · exact ⟨n, rfl, hn⟩
  single := by
    intro hs n m t u hn hm hnm
    rcases lookup_of_rename h hn with ⟨rfl, hold⟩ | ⟨-, hne, hn⟩
    · rcases lookup_of_rename h hm with ⟨rfl, -⟩ | ⟨-, hne', hm⟩
      · rfl
      · exact absurd (hs m old u t hm hold (hnm.symm.trans hid.symm)) hne'
    · rcases lookup_of_rename h hm with ⟨rfl, hold⟩ | ⟨-, -, hm⟩
      · exact absurd (hs n old t u hn hold (hnm.trans hid.symm)) hne
      · exact hs n m t u hn hm hnm

private theorem Follows.claim (c : Claim) (h : Tokens.rename files c.home c.place = some files') :
    Follows files files' :=
  Follows.rename (show c.home.id = c.place.id from rfl) h

private theorem Follows.restore (c : Claim) (h : Tokens.rename files c.place c.home = some files') :
    Follows files files' :=
  Follows.rename (show c.place.id = c.home.id from rfl) h

end

def Call.found : Call → Option String
  | .listClaims id true => some id
  | .removeClaims id true _ => some id
  | _ => none

def Outcome.settles : Outcome → Option String
  | .consumed _ _ _ _ => none
  | .redeemed c => some c.id
  | .revoked id => some id

def Outcome.redeems (id : String) : Outcome → Bool
  | .redeemed c => c.id == id
  | _ => false

def Call.WellFormed : Call → Prop
  | .removeClaims id _ claims => ∀ name ∈ claims, name.id = id
  | _ => True

private theorem id_of_isClaimOf {id : String} {name : Name} (h : name.isClaimOf id = true) :
    name.id = id := by
  cases name with
  | token id' => cases h
  | claim id' time nonce => exact beq_iff_eq.mp h

/-- What a system call of a call does: it ends the call or goes on, the token's file left, moved
or removed; it goes on having found the token of a `Revoke`, whose file is gone; it gives out a
claim of what it read under the claim's name; or it ends a `Revoke` that found its token. -/
inductive Effect (sha256 : String → List UInt8) (files : Files) (now : Int) (call : Call) :
    Progress → Prop
  | ends {files' : Files} (hf : Follows files files') :
    Effect sha256 files now call { files := files' }
  | goesOn {files' : Files} {call' : Call} (hf : Follows files files') (hw : call'.WellFormed)
      (hfound : call'.found = none) :
      Effect sha256 files now call { files := files', call := some call' }
  | found {files' : Files} {call' : Call} {id : String} (hf : Follows files files')
      (hw : call'.WellFormed) (hfound : call'.found = some id) (hgone : Gone files' id) :
      Effect sha256 files now call { files := files', call := some call' }
  | consumed {c : Claim} {t : Token} {secret : String} (ht : files.lookup c.place = some t)
      (hmatches : matchesToken sha256 t secret now = true) :
      Effect sha256 files now call { files := files, outcome := some (.consumed c t secret now) }
  | revoked {id : String} (hfound : call.found = some id) :
      Effect sha256 files now call { files := files, outcome := some (.revoked id) }

section

variable {sha256 : String → List UInt8} {files : Files} {now : Int} {fails : Bool}
  {listing : List Name}

private theorem effect_removeClaims {call : Call} {id : String} {found : Bool} {claims : List Name}
    {files' : Files} (hf : Follows files files') (hclaims : ∀ name ∈ claims, name.id = id)
    (hfound : found = true → Gone files' id) :
    Effect sha256 files now call
      { files := files', call := some (.removeClaims id found claims) } := by
  cases found with
  | true => exact .found hf hclaims rfl (hfound rfl)
  | false => exact .goesOn hf hclaims rfl

private theorem next_effect {call : Call} (hw : call.WellFormed) (hs : Single files)
    (hfound : ∀ id, call.found = some id → Gone files id) :
    Effect sha256 files now call (call.next sha256 files now fails listing) := by
  have hsame := Follows.refl files
  fun_cases Call.next sha256 files now fails listing call
  case case2 c secret files' h =>
    exact .goesOn (Follows.claim c (Option.ite_none_left_eq_some.mp h).2) trivial rfl
  case case4 c secret t ht hmatches =>
    exact .consumed (Option.ite_none_left_eq_some.mp ht).2 hmatches
  case case7 c files' h => exact .ends (Follows.restore c (Option.ite_none_left_eq_some.mp h).2)
  case case9 id hfails files' h => exact .found (Follows.remove h) trivial rfl (gone_of_remove hs h)
  case case12 id found hfails =>
    refine effect_removeClaims hsame ?_ ?_
    · intro name hname
      exact id_of_isClaimOf (List.mem_filter.mp hname).2
    · rintro rfl
      exact hfound id rfl
  case case13 id found =>
    cases found with
    | true => exact .revoked rfl
    | false => exact .ends hsame
  case case15 id found name rest hfails files' h =>
    have hid : name.id = id := hw name (.head _)
    exact effect_removeClaims (Follows.remove h) (fun n hn ↦ hw n (.tail _ hn)) fun _ ↦
      hid ▸ gone_of_remove hs h
  case case16 id found name rest hfails h =>
    refine effect_removeClaims hsame (fun n hn ↦ hw n (.tail _ hn)) ?_
    rintro rfl
    exact hfound id rfl
  case case21 id time nonce rest files' h =>
    exact .goesOn (Follows.remove (Option.ite_none_right_eq_some.mp h).2) trivial rfl
  case case26 id rest files' h =>
    exact .goesOn (Follows.remove (Option.ite_none_left_eq_some.mp h).2) trivial rfl
  -- The other calls fail, or read and go on.
  all_goals first | exact .ends hsame | exact .goesOn hsame trivial rfl

end

/-- What a claim that was given out rests on: the minted token, its secret by the hash, and a
time before its expiry. -/
structure Directory.Vouches {sha256 : String → List UInt8} (d : Directory sha256) (c : Claim)
    (t : Token) (secret : String) (now : Int) : Prop where
  minted : ∃ name, name.id = c.id ∧ d.files.lookup name = some t
  secret : sha256 secret = sha256 (d.secret c.id)
  live : now < t.expires

structure Inv {sha256 : String → List UInt8} (d : Directory sha256) (s : State) : Prop where
  single : Single s.files
  minted : ∀ n t, s.files.lookup n = some t → ∃ n', n'.id = n.id ∧ d.files.lookup n' = some t
  calls : ∀ k call, s.calls.lookup k = some call →
    call.WellFormed ∧ ∀ id, call.found = some id → Gone s.files id
  settled : ∀ o ∈ s.log, ∀ id, o.settles = some id → Gone s.files id
  ordered : s.log.Pairwise fun newer older ↦ ∀ c, newer = .redeemed c → older.settles ≠ some c.id
  vouched : ∀ c t secret now, .consumed c t secret now ∈ s.log → d.Vouches c t secret now
  given : ∀ c, .redeemed c ∈ s.log → ∃ t secret now, .consumed c t secret now ∈ s.log

section

variable {sha256 : String → List UInt8} {d : Directory sha256} {s : State}

theorem inv_start (d : Directory sha256) : Inv d (start d) where
  single := by
    intro n m t u hn hm
    exact d.single n m (AList.lookup_isSome.mp (by rw [start] at hn; simp [hn]))
      (AList.lookup_isSome.mp (by rw [start] at hm; simp [hm]))
  minted := fun n _ hn ↦ ⟨n, rfl, hn⟩
  calls := by
    intro k call hk
    cases hk
  settled := by
    intro o ho
    cases ho
  ordered := List.Pairwise.nil
  vouched := by
    intro c t secret now hc
    cases hc
  given := by
    intro c hc
    cases hc

variable {files' : Files} {call : Call} {c : Claim}

section

variable (h : Inv d s)

include h

/-- The files move on, and the calls with them. -/
theorem Inv.move (hf : Follows s.files files') {calls' : AList fun _ : Nat ↦ Call}
    (hcalls : ∀ k call, calls'.lookup k = some call → s.calls.lookup k = some call ∨
      call.WellFormed ∧ ∀ id, call.found = some id → Gone files' id) :
    Inv d { s with files := files', calls := calls' } where
  single := hf.single h.single
  minted := by
    intro n t hn
    obtain ⟨n', hid, hn'⟩ := hf.from_before n t hn
    obtain ⟨n₀, hid₀, hn₀⟩ := h.minted n' t hn'
    exact ⟨n₀, hid₀.trans hid, hn₀⟩
  calls := by
    intro k call hk
    rcases hcalls k call hk with hold | hnew
    · obtain ⟨hw, hfound⟩ := h.calls k call hold
      exact ⟨hw, fun id hid ↦ (hfound id hid).follows hf⟩
    · exact hnew
  settled := fun o ho id hid ↦ (h.settled o ho id hid).follows hf
  ordered := h.ordered
  vouched := h.vouched
  given := h.given

private theorem Inv.goOn (hf : Follows s.files files') (n : Nat) (hw : call.WellFormed)
    (hfound : ∀ id, call.found = some id → Gone files' id) :
    Inv d { s with files := files', calls := s.calls.insert n call } := by
  refine h.move hf ?_
  intro k call' hk
  rcases lookup_insert_eq_some.mp hk with ⟨-, rfl⟩ | ⟨-, hold⟩
  · exact .inr ⟨hw, hfound⟩
  · exact .inl hold

private theorem Inv.ends (hf : Follows s.files files') (n : Nat) :
    Inv d { s with files := files', calls := s.calls.erase n } :=
  h.move hf fun _ _ hk ↦ .inl (lookup_erase_eq_some.mp hk).2

private theorem Inv.begin {n : Nat} {s' : State}
    (hs : s.begin n call = some s') (hw : call.WellFormed) (hfound : call.found = none) :
    Inv d s' := by
  unfold State.begin at hs
  split at hs
  · cases hs
  · cases hs
    refine h.goOn (Follows.refl s.files) n hw ?_
    intro id hid
    rw [hfound] at hid
    cases hid

/-- What matched was read under the claim's name, and is the minted token's. -/
theorem Inv.vouches {t : Token} {secret : String} {now : Int}
    (ht : s.files.lookup c.place = some t) (hmatches : matchesToken sha256 t secret now = true) :
    d.Vouches c t secret now := by
  obtain ⟨n, hid, hn⟩ := h.minted _ t ht
  have hhash := d.hashed n t hn
  rw [matchesToken, Bool.and_eq_true, beq_iff_eq, decide_eq_true_eq, hhash, hash,
    Hex.decodeString_encodeToString, Option.some.injEq] at hmatches
  rw [hid] at hmatches
  exact ⟨⟨n, hid, hn⟩, hmatches.1.symm, hmatches.2⟩

private theorem Inv.note {o : Outcome} (hnot : ∀ c, o ≠ .redeemed c)
    (hsettled : ∀ id, o.settles = some id → Gone s.files id)
    (hvouched : ∀ c t secret now, o = .consumed c t secret now → d.Vouches c t secret now) :
    Inv d { s with log := o :: s.log } where
  single := h.single
  minted := h.minted
  calls := h.calls
  settled := by
    intro o' ho' id hid
    rcases List.mem_cons.mp ho' with rfl | ho'
    · exact hsettled id hid
    · exact h.settled o' ho' id hid
  ordered := List.pairwise_cons.mpr ⟨fun _ _ c hc ↦ absurd hc (hnot c), h.ordered⟩
  vouched := by
    intro c t secret now hc
    rcases List.mem_cons.mp hc with heq | hc
    · exact hvouched c t secret now heq.symm
    · exact h.vouched c t secret now hc
  given := by
    intro c hc
    rcases List.mem_cons.mp hc with heq | hc
    · exact absurd heq.symm (hnot c)
    · obtain ⟨t, secret, now, hmem⟩ := h.given c hc
      exact ⟨t, secret, now, .tail _ hmem⟩

private theorem Inv.next {n : Nat} (hcall : s.calls.lookup n = some call)
    {now : Int} {p : Progress} (hp : Effect sha256 s.files now call p) : Inv d (s.after n p) := by
  have hended := h.ends (Follows.refl s.files) n
  cases hp with
  | ends hf => exact h.ends hf n
  | goesOn hf hw hfound =>
    refine h.goOn hf n hw ?_
    intro id hid
    rw [hfound] at hid
    cases hid
  | found hf hw hfound hgone =>
    refine h.goOn hf n hw ?_
    intro id hid
    rw [hfound] at hid
    cases hid
    exact hgone
  | consumed ht hmatches =>
    refine hended.note ?_ ?_ ?_
    · intro c hc
      cases hc
    · intro id hid
      cases hid
    · intro c t secret now heq
      cases heq
      exact h.vouches ht hmatches
  | revoked hfound =>
    refine hended.note ?_ ?_ ?_
    · intro c hc
      cases hc
    · intro id hid
      cases hid
      exact (h.calls n call hcall).2 _ hfound
    · intro c t secret now heq
      cases heq

end

private theorem exists_of_gaveOut (h : s.gaveOut c = true) :
    ∃ t secret now, .consumed c t secret now ∈ s.log := by
  obtain ⟨o, ho, hc⟩ := List.any_eq_true.mp h
  cases o with
  | consumed c' t secret now =>
    rw [beq_iff_eq] at hc
    subst hc
    exact ⟨t, secret, now, ho⟩
  | redeemed _ | revoked _ => cases hc

/-- A `Done` that succeeds is the first thing to settle its token. -/
theorem Inv.done (h : Inv d s) (hgave : s.gaveOut c = true)
    (hremove : remove s.files c.place = some files') :
    Inv d { s with files := files', log := .redeemed c :: s.log } := by
  have hmoved := h.move (Follows.remove hremove) (fun _ _ hk ↦ .inl hk)
  have hgone : Gone files' c.id := gone_of_remove h.single hremove
  obtain ⟨t, hthere, -⟩ := Option.map_eq_some_iff.mp hremove
  refine ⟨hmoved.single, hmoved.minted, hmoved.calls, ?_, ?_, ?_, ?_⟩
  · intro o ho id hid
    rcases List.mem_cons.mp ho with rfl | ho
    · cases hid
      exact hgone
    · exact hmoved.settled o ho id hid
  · refine List.pairwise_cons.mpr ⟨?_, h.ordered⟩
    intro o ho c' hc' hsettles
    cases hc'
    -- What settled the token before left no file of it to remove.
    have hnone := h.settled o ho c.id hsettles c.place rfl
    rw [hnone] at hthere
    cases hthere
  · intro c' t' secret now hc'
    rcases List.mem_cons.mp hc' with heq | hc'
    · cases heq
    · exact h.vouched c' t' secret now hc'
  · intro c' hc'
    have hin : ∃ t secret now, .consumed c' t secret now ∈ s.log := by
      rcases List.mem_cons.mp hc' with heq | hc'
      · cases heq
        exact exists_of_gaveOut hgave
      · exact h.given c' hc'
    obtain ⟨t', secret, now, hmem⟩ := hin
    exact ⟨t', secret, now, .tail _ hmem⟩

theorem Inv.step (h : Inv d s) {e : Event} {s' : State}
    (hstep : (machine sha256).step s e = some s') : Inv d s' := by
  change Tokens.step sha256 s e = some s' at hstep
  revert hstep
  fun_cases Tokens.step sha256 s e <;> intro hstep
  case case1 | case3 | case5 => exact h.begin hstep trivial rfl
  case case6 n now fails listing =>
    obtain ⟨call, hcall, rfl⟩ := Option.map_eq_some_iff.mp hstep
    obtain ⟨hw, hfound⟩ := h.calls n call hcall
    exact h.next hcall (next_effect hw h.single hfound)
  all_goals cases hstep
  case case8 c fails hgave files' hremove =>
    exact h.done hgave (Option.ite_none_left_eq_some.mp hremove).2
  case case11 c fails hgave files' hrename =>
    have hfollows := Follows.restore c (Option.ite_none_left_eq_some.mp hrename).2
    exact h.move hfollows (fun _ _ hk ↦ .inl hk)
  all_goals exact h

/-- Outcomes of which no later one redeems what an earlier one settled redeem a token once. -/
theorem redeems_le_one {log : List Outcome}
    (h : log.Pairwise fun newer older ↦ ∀ c, newer = .redeemed c → older.settles ≠ some c.id)
    (id : String) : (log.filter (·.redeems id)).length ≤ 1 := by
  have hfilter := h.filter (·.redeems id)
  have hmem : ∀ o ∈ log.filter (·.redeems id), ∃ c, o = .redeemed c ∧ c.id = id := by
    intro o ho
    have hredeems := (List.mem_filter.mp ho).2
    cases o with
    | redeemed c => exact ⟨c, rfl, beq_iff_eq.mp hredeems⟩
    | consumed _ _ _ _ | revoked _ => cases hredeems
  cases hlog : log.filter (·.redeems id) with
  | nil => exact Nat.zero_le 1
  | cons o rest =>
    cases rest with
    | nil => exact le_refl 1
    | cons o' rest =>
      rw [hlog] at hfilter hmem
      obtain ⟨c, hc, hid⟩ := hmem o (.head _)
      obtain ⟨c', rfl, hid'⟩ := hmem o' (.tail _ (.head _))
      have hne := (List.pairwise_cons.mp hfilter).1 _ (.head _) c hc
      exact absurd (congrArg some (hid'.trans hid.symm)) hne

end

/-- Whatever any number of agents do with a directory of minted tokens: at most one `Done` of a
token succeeds; none succeeds once a `Revoke` of it has returned nil; and every claim that is
given out, so every claim that reaches `Done`, was made with a secret of the token's hash at a
time before its expiry. -/
theorem redeemed_at_most_once (sha256 : String → List UInt8) (d : Directory sha256)
    (events : List Event) (s : State) (hrun : (machine sha256).run (start d) events = some s) :
    (∀ id, (s.log.filter (·.redeems id)).length ≤ 1) ∧
      (∀ newer older id, s.log = newer ++ .revoked id :: older →
        ∀ o ∈ newer, o.redeems id = false) ∧
      (∀ c, .redeemed c ∈ s.log → ∃ t secret now, .consumed c t secret now ∈ s.log) ∧
      ∀ c t secret now, .consumed c t secret now ∈ s.log → d.Vouches c t secret now := by
  have hstep : ∀ s e s', Inv d s → (machine sha256).step s e = some s' → Inv d s' :=
    fun _ _ _ h hs ↦ h.step hs
  have h := (machine sha256).run_invariant_all hstep (inv_start d) hrun
  refine ⟨redeems_le_one h.ordered, ?_, h.given, h.vouched⟩
  intro newer older id hlog o ho
  have hordered := h.ordered
  rw [hlog] at hordered
  have hne := (List.pairwise_append.mp hordered).2.2 o ho (.revoked id) (.head _)
  cases o with
  | redeemed c =>
    rw [Outcome.redeems, beq_eq_false_iff_ne]
    intro hid
    exact hne c rfl (congrArg some hid.symm)
  | consumed _ _ _ _ | revoked _ => rfl

def twoTokens : Directory charBytes where
  files := (AList.singleton (.token "aaaaaaaa") { hash := "73", expires := 100 }).insert
    (.token "bbbbbbbb") { hash := "73", expires := 100 }
  secret := fun _ ↦ "s"
  hashed := by
    intro name t hname
    have ht : t.hash = "73" := by
      rcases lookup_insert_eq_some.mp hname with ⟨-, rfl⟩ | ⟨-, hname⟩
      · rfl
      · have hmem := List.mem_singleton.mp (AList.mem_lookup_iff.mp hname)
        cases hmem
        rfl
    rw [ht]
    decide
  single := by
    intro n m hn hm hid
    have hin : ∀ k, k ∈ (AList.singleton (Name.token "aaaaaaaa")
        ({ hash := "73", expires := 100 } : Token) : Files) → k = .token "aaaaaaaa" :=
      fun _ hk ↦ List.mem_singleton.mp hk
    rw [AList.mem_insert] at hn hm
    rcases hn with rfl | hn <;> rcases hm with rfl | hm
    · rfl
    · rw [hin m hm] at hid
      exact absurd hid (by decide)
    · rw [hin n hn] at hid
      exact absurd hid (by decide)
    · rw [hin n hn, hin m hm]

/-- Both tokens are claimed; one is redeemed, the other put back and revoked. -/
def redeemAndRevoke : List Event :=
  [.consume 0 ⟨"aaaaaaaa", 1, "x"⟩ "s", .consume 1 ⟨"bbbbbbbb", 2, "y"⟩ "s",
    .next 0 3 false [], .next 1 3 false [], .next 0 4 false [], .next 1 4 false [],
    .done ⟨"aaaaaaaa", 1, "x"⟩ false, .restore ⟨"bbbbbbbb", 2, "y"⟩ false,
    .revoke 2 "bbbbbbbb", .next 2 5 false [], .next 2 5 false [], .next 2 5 false [],
    .done ⟨"bbbbbbbb", 2, "y"⟩ false]

/-- The claim of the redeemed token was vouched for; the revoked one is not redeemed by the claim
that was given out of it before. -/
theorem redeemed_at_most_once_two :
    ∃ s, (machine charBytes).run (start twoTokens) redeemAndRevoke = some s ∧
      .redeemed ⟨"aaaaaaaa", 1, "x"⟩ ∈ s.log ∧ .revoked "bbbbbbbb" ∈ s.log ∧
      (s.log.filter (·.redeems "aaaaaaaa")).length ≤ 1 ∧
      ∃ t secret now, .consumed ⟨"aaaaaaaa", 1, "x"⟩ t secret now ∈ s.log ∧
        twoTokens.Vouches ⟨"aaaaaaaa", 1, "x"⟩ t secret now := by
  obtain ⟨s, hrun, hredeemed, hrevoked⟩ : ∃ s, (machine charBytes).run (start twoTokens)
      redeemAndRevoke = some s ∧ .redeemed ⟨"aaaaaaaa", 1, "x"⟩ ∈ s.log ∧
      .revoked "bbbbbbbb" ∈ s.log := by
    decide
  obtain ⟨honce, -, hgiven, hvouched⟩ := redeemed_at_most_once charBytes twoTokens _ s hrun
  obtain ⟨t, secret, now, hmem⟩ := hgiven _ hredeemed
  exact ⟨s, hrun, hredeemed, hrevoked, honce _, t, secret, now, hmem,
    hvouched _ t secret now hmem⟩

/-- Whatever the agents do, a token that was minted is in one file at most, under its name or under
that of a claim, and the file says what was minted. -/
theorem one_file_a_token (sha256 : String → List UInt8) (d : Directory sha256)
    (events : List Event) (s : State) (hrun : (machine sha256).run (start d) events = some s) :
    (∀ n m t u, s.files.lookup n = some t → s.files.lookup m = some u → n.id = m.id → n = m) ∧
      ∀ n t, s.files.lookup n = some t → ∃ n', n'.id = n.id ∧ d.files.lookup n' = some t := by
  have h : Inv d s :=
    (machine sha256).run_invariant_all (fun _ _ _ h hs ↦ h.step hs) (inv_start d) hrun
  exact ⟨h.single, h.minted⟩

/-- A token that is claimed is under the claim's name and no other. -/
theorem one_file_a_token_claimed : ∃ s t, (machine charBytes).run (start twoTokens)
      [.consume 0 ⟨"aaaaaaaa", 1, "x"⟩ "s", .next 0 3 false []] = some s ∧
      s.files.lookup (.claim "aaaaaaaa" 1 "x") = some t ∧
      ∀ n u, s.files.lookup n = some u → n.id = "aaaaaaaa" → n = .claim "aaaaaaaa" 1 "x" := by
  obtain ⟨s, hrun, t, ht, -⟩ : ∃ s, (machine charBytes).run (start twoTokens)
      [.consume 0 ⟨"aaaaaaaa", 1, "x"⟩ "s", .next 0 3 false []] = some s ∧
      ∃ t, s.files.lookup (.claim "aaaaaaaa" 1 "x") = some t ∧ t.hash = "73" := by
    decide
  refine ⟨s, t, hrun, ht, ?_⟩
  intro n u hu hid
  exact (one_file_a_token charBytes twoTokens _ s hrun).1 n _ u t hu ht hid

end RemoteDocker.Enrol.Tokens

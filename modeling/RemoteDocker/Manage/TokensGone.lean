import RemoteDocker.Enrol.SingleUse
import RemoteDocker.Manage.Withdrawal

/-!
# The tokens of a removed account

What the removal knows of each token bound to the account, from its listing of the directory to its
last `Revoke`: a token whose file is not renamed while the removal has its name to read, nor while
it is being revoked, is gone when the account's file is deleted.
-/

namespace RemoteDocker.Manage.Withdrawal

open Base Enrol
open RemoteDocker.Enrol.Tokens (Files Name Token Claim Gone Single Follows)

variable {Key : Type} {w : Setting Key} {s s' : State Key} {files files' : Files} {id : String}

/-- What the `Revoke` of a token knows of it. -/
def Revokes (files : Files) (id : String) : Tokens.Call → Prop
  | .revoke id' => id' = id
  | .listClaims id' _ => id' = id ∧ files.lookup (.token id) = none
  | .removeClaims id' _ claims =>
    id' = id ∧ ∀ n, n.id = id → (files.lookup n).isSome = true → n ∈ claims
  | _ => False

/-- What the removal knows of a token bound to the account: it has read it, or has its name to read;
it has it to revoke, or the token is gone. -/
def Removal.Tracks (files : Files) (id : String) : Removal → Prop
  | .idle | .asked | .failed _ => True
  | .reading todo found =>
    (∃ t, (id, t) ∈ found) ∨ ∀ n, n.id = id → (files.lookup n).isSome = true → n ∈ todo
  | .revoking todo => id ∈ todo ∨ Gone files id
  | .withdrawing id' call todo => id ∈ todo ∨ Gone files id ∨ id' = id ∧ Revokes files id call
  | .removing | .removed => Gone files id

/-- A token's file has no name that it did not have. -/
def Shrinks (files files' : Files) (id : String) : Prop :=
  ∀ n, n.id = id → (files'.lookup n).isSome = true → (files.lookup n).isSome = true

private theorem Shrinks.gone (h : Shrinks files files' id) (hgone : Gone files id) :
    Gone files' id := by
  intro n hn
  by_contra hsome
  have hbefore := h n hn (Option.isSome_iff_ne_none.mpr hsome)
  rw [hgone n hn] at hbefore
  cases hbefore

private theorem Shrinks.lookup (h : Shrinks files files' id) {n : Name} (hn : n.id = id)
    (hnone : files.lookup n = none) : files'.lookup n = none := by
  by_contra hsome
  have hbefore := h n hn (Option.isSome_iff_ne_none.mpr hsome)
  rw [hnone] at hbefore
  cases hbefore

private theorem Revokes.shrinks {call : Tokens.Call} (hs : Shrinks files files' id)
    (h : Revokes files id call) : Revokes files' id call := by
  cases call with
  | revoke id' => exact h
  | listClaims id' found => exact ⟨h.1, hs.lookup rfl h.2⟩
  | removeClaims id' found claims => exact ⟨h.1, fun n hn hsome ↦ h.2 n hn (hs n hn hsome)⟩
  | _ => exact h.elim

variable {removal : Removal} {name : Name}

private theorem Removal.Tracks.shrinks (hs : Shrinks files files' id)
    (h : removal.Tracks files id) : removal.Tracks files' id := by
  cases removal with
  | idle => trivial
  | asked => trivial
  | failed e => trivial
  | reading todo found => exact h.imp_right fun hall n hn hsome ↦ hall n hn (hs n hn hsome)
  | revoking todo => exact h.imp_right hs.gone
  | withdrawing id' call todo => exact h.imp_right (Or.imp hs.gone (And.imp_right (.shrinks hs)))
  | removing => exact hs.gone h
  | removed => exact hs.gone h

private theorem Removal.Tracks.rename {old new : Name} (hspares : removal.spares id = true)
    (hold : old.id = id) (hren : Tokens.rename files old new = some files')
    (h : removal.Tracks files id) : removal.Tracks files' id := by
  obtain ⟨t, ht, -⟩ := Option.map_eq_some_iff.mp hren
  -- The token has a file, so it is not gone.
  have hthere : ¬ Gone files id := by
    intro hgone
    rw [hgone old hold] at ht
    cases ht
  cases removal with
  | idle => trivial
  | asked => trivial
  | failed e => trivial
  | reading todo found =>
    rcases h with hfound | hall
    · exact .inl hfound
    · have hmem : old ∈ todo := hall old hold (by rw [ht]; rfl)
      have hne := List.all_eq_true.mp hspares old hmem
      rw [bne_iff_ne] at hne
      exact absurd hold hne
  | revoking todo => exact .inl (h.resolve_right hthere)
  | withdrawing id' call todo =>
    rcases h with hmem | hgone | ⟨hid, -⟩
    · exact .inl hmem
    · exact absurd hgone hthere
    · exact absurd hid (bne_iff_ne.mp hspares)
  | removing => exact absurd h hthere
  | removed => exact absurd h hthere

private theorem shrinks_remove (h : Tokens.remove files name = some files') (id : String) :
    Shrinks files files' id := by
  intro n _ hsome
  obtain ⟨t, ht⟩ := Option.isSome_iff_exists.mp hsome
  rw [(Tokens.lookup_of_remove h ht).2]
  rfl

private theorem shrinks_rename {old new : Name} (hid : new.id ≠ id)
    (h : Tokens.rename files old new = some files') : Shrinks files files' id := by
  intro n hn hsome
  obtain ⟨t, ht⟩ := Option.isSome_iff_exists.mp hsome
  rcases Tokens.lookup_of_rename h ht with ⟨rfl, -⟩ | ⟨-, -, hbefore⟩
  · exact absurd hn hid
  · rw [hbefore]
    rfl

/-- The stage is one of a redemption of the claim. -/
def Stage.Of (c : Claim) : Stage → Prop
  | .taking (.consume c' _) | .taking (.reread c' _) | .taking (.putBack c') => c' = c
  | .taking _ => False
  | _ => True

/-- The call is one of a `Revoke`. -/
def IsRevoke : Tokens.Call → Prop
  | .revoke _ | .listClaims _ _ | .removeClaims _ _ _ => True
  | _ => False

def Renames (id : String) (files files' : Files) : Prop :=
  ∃ old new : Name, old.id = id ∧ new.id = id ∧ Tokens.rename files old new = some files'

private theorem Renames.follows (h : Renames id files files') : Follows files files' := by
  obtain ⟨old, new, hold, hnew, hren⟩ := h
  exact Follows.rename (hold.trans hnew.symm) hren

/-- A rename is of a token the removal is not looking at, or of one it does not care for. -/
theorem Removal.Tracks.renames {moved : String}
    (hspares : moved = id → removal.spares id = true) (hren : Renames moved files files')
    (h : removal.Tracks files id) : removal.Tracks files' id := by
  obtain ⟨old, new, hold, hnew, hren⟩ := hren
  by_cases hid : moved = id
  · exact h.rename (hspares hid) (hold.trans hid) hren
  · apply h.shrinks
    apply shrinks_rename _ hren
    rw [hnew]
    exact hid

/-- A system call of `Consume` leaves the files, or is one of its renames. -/
theorem next_taking (sha256 : String → List UInt8) (files : Files) {call : Tokens.Call} {c : Claim}
    (now : Int) (fails : Bool) (h : (Stage.taking call).Of c) :
    ((call.next sha256 files now fails []).files = files ∨
        (Stage.taking call).renames = true ∧
          Renames c.id files (call.next sha256 files now fails []).files) ∧
      (State.taken (call.next sha256 files now fails [])).Of c := by
  fun_cases Tokens.Call.next sha256 files now fails [] call
  case case2 hren =>
    cases h
    exact ⟨.inr ⟨rfl, _, _, rfl, rfl, (Option.ite_none_left_eq_some.mp hren).2⟩, rfl⟩
  case case7 hren =>
    cases h
    exact ⟨.inr ⟨rfl, _, _, rfl, rfl, (Option.ite_none_left_eq_some.mp hren).2⟩, trivial⟩
  case case1 | case4 | case6 => exact ⟨.inl rfl, trivial⟩
  case case3 | case5 => exact ⟨.inl rfl, h⟩
  all_goals exact h.elim

/-- What a system call of a `Revoke` comes to. -/
structure Revoking (files : Files) (p : Tokens.Progress) : Prop where
  follows : Follows files p.files
  shrinks : ∀ id, Shrinks files p.files id
  goesOn : ∀ call, p.call = some call → IsRevoke call

private theorem revoking_same {p : Tokens.Progress} (hfiles : p.files = files)
    (hcall : ∀ call, p.call = some call → IsRevoke call) : Revoking files p := by
  refine ⟨?_, ?_, hcall⟩
  · rw [hfiles]
    exact Follows.refl files
  · intro id n _ hsome
    rw [hfiles] at hsome
    exact hsome

private theorem revoking_remove {p : Tokens.Progress}
    (hfiles : Tokens.remove files name = some p.files)
    (hcall : ∀ call, p.call = some call → IsRevoke call) : Revoking files p :=
  ⟨Follows.remove hfiles, shrinks_remove hfiles, hcall⟩

private theorem next_revoking (sha256 : String → List UInt8) (files : Files) {call : Tokens.Call}
    (now : Int)
    (fails : Bool) (listing : List Name) (h : IsRevoke call) :
    Revoking files (call.next sha256 files now fails listing) := by
  fun_cases Tokens.Call.next sha256 files now fails listing call
  case case9 hrem | case15 hrem =>
    exact revoking_remove hrem fun _ hc ↦ Option.some.inj hc ▸ trivial
  case case10 | case12 | case16 =>
    exact revoking_same rfl fun _ hc ↦ Option.some.inj hc ▸ trivial
  case case8 | case11 | case13 | case14 => exact revoking_same rfl (by simp)
  all_goals exact h.elim

private theorem lookup_of_remove_eq_none (h : Tokens.remove files name = none) :
    files.lookup name = none :=
  Option.map_eq_none_iff.mp h

private theorem lookup_removed (h : Tokens.remove files name = some files') :
    files'.lookup name = none := by
  obtain ⟨-, -, rfl⟩ := Option.map_eq_some_iff.mp h
  exact AList.lookup_erase _ _

private theorem mem_rest {todo : List Name}
    (hall : ∀ n, n.id = id → (files.lookup n).isSome = true → n ∈ name :: todo)
    (hne : name.id = id → files.lookup name = none) :
    ∀ n, n.id = id → (files.lookup n).isSome = true → n ∈ todo := by
  intro n hn hsome
  rcases List.mem_cons.mp (hall n hn hsome) with rfl | hmem
  · rw [hne hn] at hsome
    cases hsome
  · exact hmem

/-- A `Revoke` that meets no error, and that lists the claims there are, goes on knowing of its
token, and ends when the token is gone. -/
theorem revokes_next (sha256 : String → List UInt8) {call : Tokens.Call} (now : Int)
    {listing : List Name}
    (hlist : ∀ id' found, call = .listClaims id' found →
      ∀ n, n.id = id → (files.lookup n).isSome = true → n ∈ listing)
    (h : Revokes files id call) :
    match (call.next sha256 files now false listing).call with
    | some call' => Revokes (call.next sha256 files now false listing).files id call'
    | none => Gone (call.next sha256 files now false listing).files id := by
  cases call with
  | revoke id' =>
    cases h
    simp only [Tokens.Call.next, Bool.false_eq_true, if_false]
    cases hrem : Tokens.remove files (.token id) with
    | some files' => exact ⟨rfl, lookup_removed hrem⟩
    | none => exact ⟨rfl, lookup_of_remove_eq_none hrem⟩
  | listClaims id' found =>
    obtain ⟨rfl, hhome⟩ := h
    simp only [Tokens.Call.next, Bool.false_eq_true, if_false]
    refine ⟨rfl, ?_⟩
    intro n hn hsome
    apply List.mem_filter.mpr
    refine ⟨hlist _ _ rfl n hn hsome, ?_⟩
    cases n with
    | token id'' =>
      have hid : id'' = id' := hn
      rw [hid, hhome] at hsome
      cases hsome
    | claim id'' time nonce => exact beq_iff_eq.mpr hn
  | removeClaims id' found claims =>
    obtain ⟨rfl, hall⟩ := h
    cases claims with
    | nil =>
      intro n hn
      by_contra hsome
      cases hall n hn (Option.isSome_iff_ne_none.mpr hsome)
    | cons name rest =>
      simp only [Tokens.Call.next, Bool.false_eq_true, if_false]
      cases hrem : Tokens.remove files name with
      | some files' =>
        refine ⟨rfl, mem_rest ?_ fun _ ↦ lookup_removed hrem⟩
        intro n hn hsome
        exact hall n hn (shrinks_remove hrem id' n hn hsome)
      | none => exact ⟨rfl, mem_rest hall fun _ ↦ lookup_of_remove_eq_none hrem⟩
  | _ => exact h.elim

def Bound (w : Setting Key) (minted : AList fun _ : String ↦ Token) (id : String) : Prop :=
  Tokens.validID id = true ∧ ∃ t, minted.lookup id = some t ∧ t.account = w.target

/-- What the removal has read is what was minted, and it calls `Revoke` only. -/
def Removal.WF (minted : AList fun _ : String ↦ Token) : Removal → Prop
  | .reading _ found => ∀ e ∈ found, minted.lookup e.1 = some e.2
  | .withdrawing _ call _ => IsRevoke call
  | _ => True

def Redeeming.WF (w : Setting Key) (minted : AList fun _ : String ↦ Token) (r : Redeeming Key) :
    Prop :=
  Bound w minted r.claim.id ∧ r.stage.Of r.claim

namespace State

/-- What holds of the tokens in every state that is reached. -/
structure Sound (w : Setting Key) (s : State Key) : Prop where
  single : Single s.tokens
  minted : ∀ n t, s.tokens.lookup n = some t → s.minted.lookup n.id = some t
  known : ∀ id ∈ s.before, (s.minted.lookup id).isSome = true
  redemptions : ∀ i r, s.redemptions.lookup i = some r → r.WF w s.minted
  removal : s.removal.WF s.minted
  tracks : ∀ id ∈ s.before, Bound w s.minted id → s.removal.Tracks s.tokens id

theorem Sound.change (h : s.Sound w) (hminted : s'.minted = s.minted)
    (hbefore : s'.before = s.before)
    (hf : Follows s.tokens s'.tokens)
    (hreds : ∀ i r, s'.redemptions.lookup i = some r → r.WF w s.minted)
    (hwf : s'.removal.WF s.minted)
    (htracks : ∀ id ∈ s.before, Bound w s.minted id → s'.removal.Tracks s'.tokens id) :
    s'.Sound w where
  single := hf.single h.single
  minted := by
    intro n t hn
    obtain ⟨n', hid, hn'⟩ := hf.from_before n t hn
    rw [hminted, ← hid]
    exact h.minted n' t hn'
  known := by
    rw [hminted, hbefore]
    exact h.known
  redemptions := by
    rw [hminted]
    exact hreds
  removal := by
    rw [hminted]
    exact hwf
  tracks := by
    rw [hminted, hbefore]
    exact htracks

variable {i : Nat} {r : Redeeming Key} {stage : Stage} {now : Int} {fails : Bool}

section

variable (h : s.Sound w)

include h

private theorem Sound.wf_goto
    (hi : s.redemptions.lookup i = some r) (hstage : stage.Of r.claim) :
    ∀ j r', (s.redemptions.insert i { r with stage }).lookup j = some r' → r'.WF w s.minted := by
  intro j r' hj
  rcases lookup_insert_eq_some.mp hj with ⟨-, rfl⟩ | ⟨-, hj⟩
  · exact ⟨(h.redemptions i r hi).1, hstage⟩
  · exact h.redemptions j r' hj

private theorem Sound.proceed {removal : Removal} (hwf : removal.WF s.minted)
    (htracks : ∀ id ∈ s.before, Bound w s.minted id → removal.Tracks s.tokens id) :
    { s with removal }.Sound w :=
  h.change rfl rfl (Follows.refl _) h.redemptions hwf htracks

/-- Files are removed, or renamed under names of a token the removal is not looking at, and a
redemption goes on. -/
theorem Sound.moved {tokens : Files}
    (hi : s.redemptions.lookup i = some r) (hstage : stage.Of r.claim)
    (hmay : s.mayRename r = true) (hren : Renames r.claim.id s.tokens tokens) :
    ({ s with tokens }.goto i r stage).Sound w := by
  refine h.change rfl rfl hren.follows (h.wf_goto hi hstage) h.removal ?_
  intro id hid hbound
  refine (h.tracks id hid hbound).renames ?_ hren
  rintro rfl
  rw [mayRename, Bool.or_eq_true, Bool.not_eq_true', List.contains_eq_mem,
    decide_eq_false_iff_not] at hmay
  exact hmay.resolve_left (not_not_intro hid)

private theorem Sound.still
    (hi : s.redemptions.lookup i = some r) (hstage : stage.Of r.claim) :
    (s.goto i r stage).Sound w :=
  h.change rfl rfl (Follows.refl _) (h.wf_goto hi hstage) h.removal h.tracks

theorem Sound.mint {id : String} {t : Token} (hnew : s.minted.lookup id = none) :
    { s with
      tokens := s.tokens.insert (.token id) t
      minted := s.minted.insert id t }.Sound w := by
  -- What was minted before has another id.
  have hne : ∀ {id' : String} {u : Token}, s.minted.lookup id' = some u → id' ≠ id := by
    rintro id' u hu rfl
    rw [hnew] at hu
    cases hu
  have hkeeps : ∀ {id' : String} {u : Token}, s.minted.lookup id' = some u →
      (s.minted.insert id t).lookup id' = some u := by
    intro id' u hu
    rw [AList.lookup_insert_ne (hne hu)]
    exact hu
  have hbound : ∀ {id' : String}, Bound w s.minted id' → Bound w (s.minted.insert id t) id' := by
    rintro id' ⟨hvalid, u, hu, haccount⟩
    exact ⟨hvalid, u, hkeeps hu, haccount⟩
  refine ⟨?_, ?_, ?_, ?_, ?_, ?_⟩
  · intro n m u v hn hm hid
    rcases lookup_insert_eq_some.mp hn with ⟨rfl, -⟩ | ⟨-, hn⟩
    · rcases lookup_insert_eq_some.mp hm with ⟨rfl, -⟩ | ⟨-, hm⟩
      · rfl
      · exact absurd hid.symm (hne (h.minted m v hm))
    · rcases lookup_insert_eq_some.mp hm with ⟨rfl, -⟩ | ⟨-, hm⟩
      · exact absurd hid (hne (h.minted n u hn))
      · exact h.single n m u v hn hm hid
  · intro n u hn
    rcases lookup_insert_eq_some.mp hn with ⟨rfl, rfl⟩ | ⟨-, hn⟩
    · exact AList.lookup_insert _
    · exact hkeeps (h.minted n u hn)
  · intro id' hid'
    obtain ⟨u, hu⟩ := Option.isSome_iff_exists.mp (h.known id' hid')
    dsimp only
    rw [hkeeps hu]
    rfl
  · intro i r hi
    obtain ⟨hb, hstage⟩ := h.redemptions i r hi
    exact ⟨hbound hb, hstage⟩
  · have hwf := h.removal
    dsimp only
    cases hrem : s.removal with
    | reading todo found =>
      rw [hrem] at hwf
      exact fun e he ↦ hkeeps (hwf e he)
    | withdrawing id' call todo =>
      rw [hrem] at hwf
      exact hwf
    | _ => trivial
  · rintro id' hid' ⟨hvalid, u, hu, haccount⟩
    obtain ⟨v, hv⟩ := Option.isSome_iff_exists.mp (h.known id' hid')
    dsimp only at hu ⊢
    rw [AList.lookup_insert_ne (hne hv)] at hu
    refine (h.tracks id' hid' ⟨hvalid, u, hu, haccount⟩).shrinks ?_
    intro n hn hsome
    rw [AList.lookup_insert_ne] at hsome
    · exact hsome
    · rintro rfl
      exact hne hv hn.symm

theorem Sound.ask (hask : s.step w .ask = some s') : s'.Sound w := by
  obtain ⟨-, ⟨⟩⟩ := Option.ite_none_right_eq_some.mp hask
  refine ⟨h.single, h.minted, ?_, h.redemptions, trivial, fun _ _ _ ↦ trivial⟩
  intro id hid
  exact AList.lookup_isSome.mpr (AList.mem_keys.mp hid)

/-- A file of a token of the account is in the directory with that token in it. -/
theorem Sound.account {id : String} (hbound : Bound w s.minted id) {n : Name}
    (hn : n.id = id) (hsome : (s.tokens.lookup n).isSome = true) :
    ∃ t, s.tokens.lookup n = some t ∧ t.account = w.target := by
  obtain ⟨t, ht⟩ := Option.isSome_iff_exists.mp hsome
  obtain ⟨-, u, hu, haccount⟩ := hbound
  have hminted := h.minted n t ht
  rw [hn, hu] at hminted
  cases hminted
  exact ⟨t, ht, haccount⟩

theorem Sound.list {names : List Name}
    (hnames : (s.tokens.entries.all fun e ↦
      e.2.account != w.target || names.contains e.1) = true) :
    { s with removal := .reading names [] }.Sound w := by
  refine h.proceed nofun ?_
  intro id _ hbound
  right
  intro n hn hsome
  obtain ⟨t, ht, haccount⟩ := h.account hbound hn hsome
  have hentry := List.all_eq_true.mp hnames ⟨n, t⟩ (AList.mem_lookup_iff.mp ht)
  simpa [haccount] using hentry

theorem Sound.read (hread : s.readNext w false = some s') : s'.Sound w := by
  unfold readNext at hread
  cases hrem : s.removal with
  | reading todo found =>
    have hwf := h.removal
    have htracks := h.tracks
    rw [hrem] at hread hwf htracks
    cases todo with
    | nil =>
      cases hread
      refine h.proceed trivial ?_
      intro id hid hbound
      rcases htracks id hid hbound with ⟨t, ht⟩ | hnone
      · left
        obtain ⟨-, u, hu, haccount⟩ := hbound
        have hsame := hwf _ ht
        rw [hu] at hsame
        cases hsame
        exact List.mem_map.mpr ⟨_, List.mem_filter.mpr ⟨ht, beq_iff_eq.mpr haccount⟩, rfl⟩
      · right
        intro n hn
        by_contra hsome
        cases hnone n hn (Option.isSome_iff_ne_none.mpr hsome)
    | cons name todo =>
      dsimp only at hread
      split at hread
      · next hskip =>
        cases hread
        refine h.proceed hwf ?_
        intro id hid hbound
        rcases htracks id hid hbound with hfound | hall
        · exact .inl hfound
        · by_cases hname : name.id = id
          · left
            rw [hname, hbound.1, Bool.not_true, Bool.false_or, List.any_eq_true] at hskip
            obtain ⟨⟨id', t⟩, he, heq⟩ := hskip
            cases beq_iff_eq.mp heq
            exact ⟨t, he⟩
          · exact .inr (mem_rest hall fun heq ↦ absurd heq hname)
      · simp only [Bool.false_eq_true, if_false] at hread
        split at hread
        · next hnone =>
          cases hread
          refine h.proceed hwf ?_
          intro id hid hbound
          exact (htracks id hid hbound).imp_right fun hall ↦ mem_rest hall fun _ ↦ hnone
        · next t ht =>
          cases hread
          refine h.proceed ?_ ?_
          · intro e he
            rcases List.mem_cons.mp he with rfl | he
            · exact h.minted name t ht
            · exact hwf e he
          · intro id hid hbound
            by_cases hname : name.id = id
            · exact .inl ⟨t, by rw [← hname]; exact (.head _)⟩
            · rcases htracks id hid hbound with ⟨u, hu⟩ | hall
              · exact .inl ⟨u, .tail _ hu⟩
              · exact .inr (mem_rest hall fun heq ↦ absurd heq hname)
  | _ =>
    rw [hrem] at hread
    cases hread

theorem Sound.revoke {id' : String}
    (hrevoke : s.step w (.revoke id') = some s') : s'.Sound w := by
  simp only [step] at hrevoke
  cases hrem : s.removal with
  | revoking todo =>
    have htracks := h.tracks
    rw [hrem] at hrevoke htracks
    dsimp only at hrevoke
    obtain ⟨-, ⟨⟩⟩ := Option.ite_none_right_eq_some.mp hrevoke
    refine h.proceed trivial ?_
    intro id hid hbound
    rcases htracks id hid hbound with hmem | hgone
    · by_cases heq : id = id'
      · exact .inr (.inr ⟨heq.symm, heq.symm⟩)
      · exact .inl (List.mem_filter.mpr ⟨hmem, bne_iff_ne.mpr heq⟩)
    · exact .inr (.inl hgone)
  | _ =>
    rw [hrem] at hrevoke
    cases hrevoke

theorem Sound.revokeNext {listing : List Name}
    (hcareful : s.careful w (.revokeNext now false listing) = true)
    (hnext : s.revokeNext w now false listing = some s') : s'.Sound w := by
  unfold State.revokeNext at hnext
  cases hrem : s.removal with
  | withdrawing cur call todo =>
    have hwf := h.removal
    have htracks := h.tracks
    rw [hrem] at hnext hwf htracks
    cases hnext
    have hp := next_revoking w.sha256 s.tokens now false listing hwf
    have hlist : ∀ id' found, call = .listClaims id' found →
        ∀ n, n.id = cur → (s.tokens.lookup n).isSome = true → n ∈ listing := by
      rintro id' found rfl n hn hsome
      obtain ⟨t, ht⟩ := Option.isSome_iff_exists.mp hsome
      simp only [careful, hrem, Bool.not_false, Bool.true_and, List.all_eq_true] at hcareful
      have hentry := hcareful ⟨n, t⟩ (AList.mem_lookup_iff.mp ht)
      simpa [hn] using hentry
    have hrevokes := fun hrev ↦ revokes_next w.sha256 now hlist hrev
    generalize call.next w.sha256 s.tokens now false listing = p at hp hrevokes
    refine h.change rfl rfl hp.follows h.redemptions ?_ ?_
    · cases hcall : p.call with
      | some call' => exact hp.goesOn call' hcall
      | none => trivial
    · intro id hid hbound
      rcases htracks id hid hbound with hmem | hgone | ⟨rfl, hrev⟩
      · cases hcall : p.call with
        | some call' => exact .inl hmem
        | none => exact .inl hmem
      · have hgone' := (hp.shrinks id).gone hgone
        cases hcall : p.call with
        | some call' => exact .inr (.inl hgone')
        | none => exact .inr hgone'
      · have hafter := hrevokes hrev
        cases hcall : p.call with
        | some call' =>
          rw [hcall] at hafter
          exact .inr (.inr ⟨rfl, hafter⟩)
        | none =>
          rw [hcall] at hafter
          exact .inr hafter
  | _ =>
    rw [hrem] at hnext
    cases hnext

theorem Sound.revoked (hrevoked : s.step w .revoked = some s') : s'.Sound w := by
  obtain ⟨hrem, ⟨⟩⟩ := Option.ite_none_right_eq_some.mp hrevoked
  refine h.proceed trivial ?_
  intro id hid hbound
  have htracks := h.tracks id hid hbound
  rw [hrem] at htracks
  exact htracks.resolve_left List.not_mem_nil

theorem Sound.remove {env : EditEnv}
    {operatorFiles : Option (List (Option (List String)))}
    (hremove : s.remove w env operatorFiles = some s') : s'.Sound w := by
  unfold State.remove at hremove
  cases hrem : s.removal with
  | removing =>
    have htracks := h.tracks
    rw [hrem] at hremove htracks
    dsimp only at hremove
    split at hremove
    · cases hremove
      exact h.change rfl rfl (Follows.refl _) h.redemptions trivial htracks
    · cases hremove
      exact h.change rfl rfl (Follows.refl _) h.redemptions trivial fun _ _ _ ↦ trivial
  | _ =>
    rw [hrem] at hremove
    cases hremove

theorem Sound.redeem {claim : Claim} {secret comment : String} {key : Key}
    (hredeem : s.redeem w i claim secret key comment now = some s') : s'.Sound w := by
  obtain ⟨-, hredeem⟩ := Option.ite_none_left_eq_some.mp hredeem
  split at hredeem
  · cases hredeem
  · next t hcheck =>
    split at hredeem
    · next haccount =>
      cases hredeem
      refine h.change rfl rfl (Follows.refl _) ?_ h.removal h.tracks
      intro j r hj
      rcases lookup_insert_eq_some.mp hj with ⟨-, rfl⟩ | ⟨-, hj⟩
      · unfold Tokens.check at hcheck
        split at hcheck
        · next hvalid =>
          have ht := (Option.filter_eq_some_iff.mp hcheck).1
          exact ⟨⟨hvalid, t, h.minted _ t ht, haccount⟩, rfl⟩
        · cases hcheck
      · exact h.redemptions j r hj
    · cases hredeem

theorem Sound.take (hi : s.redemptions.lookup i = some r)
    (hcareful : r.stage.renames = true → s.mayRename r = true)
    (htake : s.take w i r now fails = some s') : s'.Sound w := by
  have hstage := (h.redemptions i r hi).2
  unfold State.take at htake
  cases hr : r.stage with
  | taking call =>
    rw [hr] at htake hstage hcareful
    cases htake
    obtain ⟨hfiles, htaken⟩ := next_taking w.sha256 s.tokens now fails hstage
    rcases hfiles with hsame | ⟨hrenames, hren⟩
    · rw [hsame]
      exact h.still hi htaken
    · exact h.moved hi htaken (hcareful hrenames) hren
  | _ =>
    rw [hr] at htake
    cases htake

end

private theorem of_after (phase : Addition.Phase) (c : Claim) : (Stage.after phase).Of c := by
  cases phase with
  | failed why => cases why <;> trivial
  | _ => trivial

theorem Sound.call (h : s.Sound w) {c : Addition.Call}
    (hi : s.redemptions.lookup i = some r) (hcall : s.call w i r c = some s') : s'.Sound w := by
  unfold State.call at hcall
  split at hcall
  · obtain ⟨⟨file, phase⟩, -, hcall⟩ := Option.bind_eq_some_iff.mp hcall
    cases hcall
    exact h.change rfl rfl (Follows.refl _) (h.wf_goto hi (of_after phase _)) h.removal h.tracks
  · cases hcall

theorem Sound.vanish (h : s.Sound w) {name : Name} {tokens : Files}
    (hremove : Tokens.remove s.tokens name = some tokens) : { s with tokens }.Sound w :=
  h.change rfl rfl (Follows.remove hremove) h.redemptions h.removal fun id hid hbound ↦
    (h.tracks id hid hbound).shrinks (shrinks_remove hremove id)

theorem Sound.done (h : s.Sound w)
    (hi : s.redemptions.lookup i = some r) (hdone : s.done w i r fails = some s') : s'.Sound w := by
  unfold State.done at hdone
  split at hdone
  · exact h.call hi hdone
  · split at hdone
    · exact h.call hi hdone
    · next tokens hremove => exact (h.vanish hremove).call hi hdone

theorem Sound.restore (h : s.Sound w)
    (hi : s.redemptions.lookup i = some r) (hmay : s.mayRename r = true)
    (hrestore : s.restore i r fails = some s') : s'.Sound w := by
  unfold State.restore at hrestore
  split at hrestore
  · split at hrestore
    · cases hrestore
      exact h.still hi trivial
    · next tokens hren =>
      split at hren
      · cases hren
      · cases hrestore
        exact h.moved hi trivial hmay ⟨_, _, rfl, rfl, hren⟩
  · cases hrestore

end State

end RemoteDocker.Manage.Withdrawal

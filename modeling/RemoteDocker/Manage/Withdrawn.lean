import RemoteDocker.Enrol.OneKey
import RemoteDocker.Manage.TokensGone

/-!
# The keys of a removed account

`List` skips a file that is not there when it comes to read it, and `Revoke` looks for a token under
its own name first and under its claims' names after. A token that is renamed in between is missed
by both, and is redeemed after the account is removed (`redeemed_after_removal`). Where no token is
renamed at those moments and nothing fails half way, a redemption of a token minted before the
removal finds its claim gone and takes out the key that it added.
-/

namespace RemoteDocker.Manage.Withdrawal

open Base Enrol
open RemoteDocker.Enrol.Tokens (Files Name Token Claim Gone Single Follows)

variable {Key : Type} {w : Setting Key} {s s' : State Key}

namespace State

variable {i j : Nat} {fp : String}

private theorem left_iff :
    s.left w i fp = true ↔ holds w.format s.file fp = true ∧ s.writer.lookup fp = some i := by
  rw [left, Bool.and_eq_true, beq_iff_eq]

/-- Who added a key that was there before somebody changed the file. -/
theorem lookup_restrict_writer
    (h : (restrict s.writer (holds w.format s.file)).lookup fp = some i) :
    s.left w i fp = true := by
  rw [lookup_restrict] at h
  split at h
  · next hin => exact left_iff.mpr ⟨hin, h⟩
  · cases h

private theorem left_setFile {file : KeyFile} (h : (s.setFile w file).left w i fp = true) :
    s.left w i fp = true :=
  lookup_restrict_writer (left_iff.mp h).2

private theorem left_setFileBy_ne {fp' : String} {file : KeyFile} (hne : j ≠ i)
    (h : (s.setFileBy w i fp' file).left w j fp = true) : s.left w j fp = true := by
  have hwriter := (left_iff.mp h).2
  simp only [setFileBy] at hwriter
  split at hwriter
  · exact lookup_restrict_writer hwriter
  · rcases lookup_insert_eq_some.mp hwriter with ⟨-, heq⟩ | ⟨-, hwriter⟩
    · exact absurd heq.symm hne
    · exact lookup_restrict_writer hwriter

@[simp] theorem writer_goto (r : Redeeming Key) (stage : Stage) :
    (s.goto i r stage).writer = s.writer := rfl

@[simp] theorem left_goto (r : Redeeming Key) (stage : Stage) :
    (s.goto i r stage).left w j fp = s.left w j fp := rfl

private theorem left_setFileBy_same (h : (s.setFileBy w i fp s.file).left w i fp = true) :
    s.left w i fp = true := by
  obtain ⟨hin, hwriter⟩ := left_iff.mp h
  have hbefore : holds w.format s.file fp = true := hin
  simp only [setFileBy, hbefore, if_true] at hwriter
  exact lookup_restrict_writer hwriter

end State

/-- The redemption added its key, and takes it out again if its claim is gone. -/
def Stage.holding : Stage → Bool
  | .adding (.waiting true) | .adding .withdrawing | .adding (.checking .removeKey)
  | .adding (.committing .removeKey _) | .adding (.undoing .removeKey _) => true
  | _ => false

/-- A call of a redemption that meets no error half way and whose claim is gone: it has its key to
take out, or its key is not in the file, or it has left the file. -/
inductive Safe (F : KeyFormat Key) (o : Addition Key) (file file' : KeyFile)
    (phase : Addition.Phase) : Prop
  | holds (h : (Stage.after phase).holding = true)
  | out (h : Enrol.holds F file' (F.fingerprint o.key) = false)
  | same (hfile : file' = file)
      (hphase : (Stage.adding o.phase).holding = true → (Stage.after phase).holding = true)

section

variable {F : KeyFormat Key} {cfg : Enrol.Config} {o : Addition Key} {file file' : KeyFile}
  {phase : Addition.Phase}

private theorem appendLine_found {env : EditEnv} {comment : String} {key : Key}
    (h : appendLine F env key comment file = .ok (file', false)) : file' = file := by
  have happends := appends_appendLine (F := F) env key comment file
  rw [h] at happends
  cases happends with
  | there => rfl

private theorem safe_append {env : EditEnv} (hphase : o.phase = .writing)
    (hreread : env.rereadFails = false) (h : o.append F cfg env file = (file', phase)) :
    Safe F o file file' phase := by
  unfold Addition.append at h
  split at h
  · next written e hedit =>
    cases h
    refine .same (file_of_edit_error hreread hedit) ?_
    rw [hphase]
    nofun
  · next written added hedit =>
    cases h
    cases added with
    | true => exact .holds rfl
    | false =>
      refine .same (appendLine_found (change_of_edit hedit)) ?_
      rw [hphase]
      nofun

private theorem safe_write {env : EditEnv} {known : Option Bool} (hadder : o.adder = .append)
    (hphase : o.phase = .writing) (hreread : env.rereadFails = false)
    (h : o.write F cfg env known file = (file', phase)) : Safe F o file file' phase := by
  unfold Addition.write at h
  rw [hadder] at h
  cases known with
  | none =>
    cases h
    refine .same rfl ?_
    rw [hphase]
    nofun
  | some known => exact safe_append hphase hreread h

private theorem holding_await {added : Bool} (hadder : o.adder = .append) (a : Await)
    (h : (Stage.adding (.waiting added)).holding = true) :
    (Stage.after (o.await added a)).holding = true := by
  cases added with
  | false => cases h
  | true => cases a <;> simp [Addition.await, Addition.undo, hadder, Stage.after, Stage.holding]

private theorem safe_takeOut {undo : Undo} {why : Failure} {env : EditEnv}
    {operatorFiles : Option (List (Option (List String)))} (hphase : o.phase = .undoing undo why)
    (hdir : cfg.enrolledDir ≠ "") (henv : env.changes = true)
    (hoperator : (operatorFiles.any fun files ↦ !files.any fun lines ↦ lines.any fun lines ↦
      (withoutKey F lines (F.fingerprint o.key)).2) = true) :
    Safe F o file (undo.takeOut F cfg env operatorFiles o.key file) (.failed why) := by
  cases undo with
  | nothing =>
    refine .same rfl ?_
    rw [hphase]
    nofun
  | removeKey => exact .out (holds_removeKey_self hdir henv hoperator file)
  | removeAccountFile =>
    rcases removeAccountFile_file cfg env operatorFiles file with hsame | hnone
    · refine .same hsame ?_
      rw [hphase]
      nofun
    · apply Safe.out
      simp only [Undo.takeOut, hnone, holds_none]

private theorem safe_next {c : Addition.Call} (hadder : o.adder = .append)
    (hdir : cfg.enrolledDir ≠ "")
    (hcommit : c ≠ .commit false)
    (hmay : finishes F o.key c = true)
    (h : o.next F cfg c file = some (file', phase)) : Safe F o file file' phase := by
  unfold Addition.next at h
  split at h
  · next env known hphase =>
    rw [finishes, Bool.not_eq_true'] at hmay
    exact safe_write hadder hphase hmay (Option.some.inj h)
  · next added a hphase =>
    cases h
    refine .same rfl ?_
    rw [hphase]
    exact holding_await hadder a
  · next env hphase =>
    cases h
    exact .out (holds_edit_removeKeyLine hdir hmay _ file)
  · next undo authorized hphase =>
    cases h
    refine .same rfl ?_
    rw [hphase]
    cases authorized <;> cases undo <;> exact id
  · next undo pending withdrawn hphase =>
    cases withdrawn with
    | false => exact absurd rfl hcommit
    | true =>
      cases h
      refine .same rfl ?_
      rw [hphase]
      cases undo <;> exact id
  · next undo why env operatorFiles hphase =>
    cases h
    obtain ⟨henv, hoperator⟩ := Bool.and_eq_true_iff.mp hmay
    exact safe_takeOut hphase hdir henv hoperator
  · cases h

end

namespace State

variable {i : Nat} {r : Redeeming Key} {stage : Stage}

/-- What holds of the keys in every state that is reached. -/
structure Clean (w : Setting Key) (s : State Key) : Prop where
  writers : ∀ fp i, s.writer.lookup fp = some i → (s.redemptions.lookup i).isSome = true
  dir : s.removal = .removed → w.config.enrolledDir ≠ ""
  keys : s.removal = .removed → ∀ i r, s.redemptions.lookup i = some r → r.claim.id ∈ s.before →
    s.left w i (w.format.fingerprint r.key) = true → r.stage.holding = true

section

variable (h : s.Clean w)

include h

/-- A step that is no redemption's, and not the one that deletes the file. -/
theorem Clean.frame (hreds : s'.redemptions = s.redemptions)
    (hremoval : s'.removal = .removed → s.removal = .removed ∧ s'.before = s.before)
    (hwriter : ∀ fp i, s'.writer.lookup fp = some i → s.writer.lookup fp = some i)
    (hleft : ∀ i fp, s'.left w i fp = true → s.left w i fp = true) : s'.Clean w where
  writers := by
    intro fp i hi
    rw [hreds]
    exact h.writers fp i (hwriter fp i hi)
  dir := fun hrem ↦ h.dir (hremoval hrem).1
  keys := by
    intro hrem i r hi hbefore hl
    obtain ⟨hrem, heq⟩ := hremoval hrem
    rw [hreds] at hi
    rw [heq] at hbefore
    exact h.keys hrem i r hi hbefore (hleft i _ hl)

private theorem Clean.proceed {tokens : Files} {removal : Removal} {before : List String}
    {minted : AList fun _ : String ↦ Token} (hne : removal ≠ .removed) :
    { s with tokens, removal, before, minted }.Clean w :=
  h.frame rfl (fun hrem ↦ absurd hrem hne) (fun _ _ ↦ id) fun _ _ ↦ id

private theorem Clean.tokens (tokens : Files) (minted : AList fun _ : String ↦ Token) :
    { s with tokens, minted }.Clean w :=
  h.frame rfl (fun hrem ↦ ⟨hrem, rfl⟩) (fun _ _ ↦ id) fun _ _ ↦ id

private theorem Clean.setFile (file : KeyFile) : (s.setFile w file).Clean w := by
  refine h.frame rfl (fun hrem ↦ ⟨hrem, rfl⟩) ?_ fun _ _ ↦ left_setFile
  intro fp i hi
  exact (left_iff.mp (lookup_restrict_writer hi)).2

private theorem Clean.step (hremoval : s'.removal = s.removal) (hbefore : s'.before = s.before)
    (hreds : s'.redemptions = s.redemptions.insert i { r with stage })
    (hwriters : ∀ fp j, s'.writer.lookup fp = some j → j = i ∨ s.writer.lookup fp = some j)
    (hother : ∀ j fp, j ≠ i → s'.left w j fp = true → s.left w j fp = true)
    (hown : s.removal = .removed → r.claim.id ∈ s.before →
      s'.left w i (w.format.fingerprint r.key) = true → stage.holding = true) : s'.Clean w where
  writers := by
    intro fp j hj
    rw [hreds]
    by_cases heq : j = i
    · subst heq
      rw [AList.lookup_insert]
      rfl
    · rw [AList.lookup_insert_ne heq]
      exact h.writers fp j ((hwriters fp j hj).resolve_left heq)
  dir := fun hrem ↦ h.dir (hremoval ▸ hrem)
  keys := by
    intro hrem j r' hj hmem hl
    rw [hremoval] at hrem
    rw [hbefore] at hmem
    rw [hreds] at hj
    rcases lookup_insert_eq_some.mp hj with ⟨rfl, rfl⟩ | ⟨hne, hj⟩
    · exact hown hrem hmem hl
    · exact h.keys hrem j r' hj hmem (hother j _ hne hl)

private theorem Clean.goto (hi : s.redemptions.lookup i = some r)
    (hstage : r.stage.holding = true → stage.holding = true) : (s.goto i r stage).Clean w :=
  h.step rfl rfl rfl (fun _ _ ↦ .inr) (fun _ _ _ ↦ id) fun hrem hmem hl ↦
    hstage (h.keys hrem i r hi hmem hl)

end

private theorem lookup_writer_setFileBy {j : Nat} {fp fp' : String} (file : KeyFile)
    (h : (s.setFileBy w i fp' file).writer.lookup fp = some j) :
    j = i ∨ s.writer.lookup fp = some j := by
  simp only [setFileBy] at h
  split at h
  · exact .inr (left_iff.mp (lookup_restrict_writer h)).2
  · rcases lookup_insert_eq_some.mp h with ⟨-, heq⟩ | ⟨-, h⟩
    · exact .inl heq.symm
    · exact .inr (left_iff.mp (lookup_restrict_writer h)).2

section

variable (h : s.Clean w)

include h

private theorem Clean.call {c : Addition.Call} (hi : s.redemptions.lookup i = some r)
    (hcommit : s.removal = .removed → r.claim.id ∈ s.before → c ≠ .commit false)
    (hmay : s.mayCall w r c = true) (hcall : s.call w i r c = some s') : s'.Clean w := by
  unfold State.call at hcall
  split at hcall
  · next phase hr =>
    obtain ⟨⟨file, phase'⟩, hnext, hcall⟩ := Option.bind_eq_some_iff.mp hcall
    cases hcall
    refine h.step (r := r) rfl rfl rfl ?_ ?_ ?_
    · intro fp j hj
      rw [writer_goto] at hj
      exact lookup_writer_setFileBy file hj
    · intro j fp hne hl
      rw [left_goto] at hl
      exact left_setFileBy_ne hne hl
    intro hrem hmem hl
    rw [left_goto] at hl
    simp only [mayCall, hrem, beq_self_eq_true, List.contains_eq_mem, hmem, decide_true,
      Bool.and_self, Bool.not_true, Bool.false_or] at hmay
    have hsafe : Safe w.format ⟨.append, r.key, r.comment, phase⟩ s.file file phase' :=
      safe_next rfl (h.dir hrem) (hcommit hrem hmem) hmay hnext
    cases hsafe with
    | holds hholds => exact hholds
    | out hout =>
      have hin : holds w.format file (w.format.fingerprint r.key) = true := (left_iff.mp hl).1
      rw [hout] at hin
      cases hin
    | same hfile hphase =>
      subst hfile
      apply hphase
      have hbefore := h.keys hrem i r hi hmem (left_setFileBy_same hl)
      rw [hr] at hbefore
      exact hbefore
  · cases hcall

private theorem Clean.done (hsound : s.Sound w) {fails : Bool}
    (hi : s.redemptions.lookup i = some r)
    (hfails : s.removal = .removed → r.claim.id ∈ s.before → fails = false)
    (hdone : s.done w i r fails = some s') : s'.Clean w := by
  have hmay : ∀ {s₀ : State Key} {b : Bool}, s₀.mayCall w r (.commit b) = true := by
    intro s₀ b
    rw [mayCall, finishes, Bool.or_true]
  unfold State.done at hdone
  split at hdone
  · next hf =>
    refine h.call hi ?_ hmay hdone
    intro hrem hmem
    rw [hfails hrem hmem] at hf
    cases hf
  · split at hdone
    · exact h.call hi (fun _ _ ↦ by decide) hmay hdone
    · next tokens hremove =>
      refine (h.tokens tokens s.minted).call hi ?_ hmay hdone
      intro hrem hmem
      -- The tokens from before the removal are gone, and there is no claim to delete.
      have hgone := hsound.tracks _ hmem (hsound.redemptions i r hi).1
      rw [show s.removal = .removed from hrem] at hgone
      obtain ⟨t, ht, -⟩ := Option.map_eq_some_iff.mp hremove
      rw [hgone r.claim.place rfl] at ht
      cases ht

private theorem Clean.redeem {claim : Claim} {secret comment : String} {key : Key}
    {now : Int} (hredeem : s.redeem w i claim secret key comment now = some s') : s'.Clean w := by
  revert hredeem
  fun_cases State.redeem w s i claim secret key comment now <;> rintro ⟨⟩
  next hnew _ _ _ _ =>
  refine h.step (r := ⟨claim, key, comment, .restoring⟩) rfl rfl rfl (fun _ _ ↦ .inr)
    (fun _ _ _ ↦ id) ?_
  intro _ _ hl
  exact absurd (h.writers _ i (left_iff.mp hl).2) hnew

private theorem Clean.take {now : Int} {fails : Bool} (hi : s.redemptions.lookup i = some r)
    (htake : s.take w i r now fails = some s') : s'.Clean w := by
  revert htake
  fun_cases State.take w s i r now fails <;> rintro ⟨⟩
  next call hr _ =>
  refine (h.tokens _ s.minted).goto hi ?_
  rw [hr]
  nofun

private theorem Clean.restore {fails : Bool} (hi : s.redemptions.lookup i = some r)
    (hrestore : s.restore i r fails = some s') : s'.Clean w := by
  have hstage : r.stage = .restoring →
      r.stage.holding = true → (Stage.ended false).holding = true := by
    intro hr
    rw [hr]
    nofun
  revert hrestore
  fun_cases State.restore s i r fails <;> rintro ⟨⟩
  · next hr _ => exact h.goto hi (hstage hr)
  · next hr _ _ => exact (h.tokens _ s.minted).goto hi (hstage hr)

/-- The file that is deleted held every key that was added. -/
theorem Clean.remove {env : EditEnv}
    {operatorFiles : Option (List (Option (List String)))}
    (hremove : s.remove w env operatorFiles = some s') : s'.Clean w := by
  revert hremove
  fun_cases State.remove w s env operatorFiles <;> rintro ⟨⟩
  · next file hok =>
    obtain ⟨hdir, rfl⟩ := of_removeAccountFile_ok hok
    refine ⟨(h.setFile none).writers, fun _ ↦ hdir, ?_⟩
    intro _ i r _ _ hl
    cases (left_iff.mp hl).1
  · exact (h.setFile _).proceed nofun

end

private theorem ne_removed_of_readNext {fails : Bool} (h : s.readNext w fails = some s') :
    ∃ removal, removal ≠ .removed ∧ s' = { s with removal } := by
  revert h
  fun_cases readNext w s fails <;> rintro ⟨⟩ <;> exact ⟨_, by nofun, rfl⟩

structure Inv (w : Setting Key) (s : State Key) : Prop where
  sound : s.Sound w
  clean : s.Clean w

private theorem Inv.act {e : Event Key} (h : s.Inv w) (hcareful : s.careful w e = true)
    (hstep : s.step w e = some s') : s'.Inv w := by
  cases e with
  | mint id t =>
    obtain ⟨hnew, ⟨⟩⟩ := Option.ite_none_left_eq_some.mp hstep
    rw [Bool.or_eq_true, not_or, Bool.not_eq_true, Option.isSome_eq_false_iff,
      Option.isNone_iff_eq_none] at hnew
    exact ⟨h.sound.mint hnew.1, h.clean.tokens _ _⟩
  | vanish name =>
    obtain ⟨tokens, hremove, rfl⟩ := Option.map_eq_some_iff.mp hstep
    exact ⟨h.sound.vanish hremove, h.clean.tokens _ _⟩
  | other file =>
    cases hstep
    have hs := h.sound
    exact
      ⟨hs.change rfl rfl (Follows.refl _) hs.redemptions hs.removal hs.tracks, h.clean.setFile file⟩
  | redeem i claim secret key comment now => exact ⟨h.sound.redeem hstep, h.clean.redeem hstep⟩
  | take i now fails =>
    obtain ⟨r, hi, htake⟩ := Option.bind_eq_some_iff.mp hstep
    simp only [careful, hi, Option.all_some, Bool.or_eq_true, Bool.not_eq_true'] at hcareful
    refine ⟨h.sound.take hi ?_ htake, h.clean.take hi htake⟩
    intro hren
    exact hcareful.resolve_left (by rw [hren]; exact Bool.noConfusion)
  | add i c =>
    have hcall : (s.redemptions.lookup i).bind (fun r ↦ s.call w i r c) = some s' ∧
        c ≠ .commit false := by
      cases c with
      | commit withdrawn => cases hstep
      | _ => exact ⟨hstep, by simp⟩
    obtain ⟨r, hi, hcall'⟩ := Option.bind_eq_some_iff.mp hcall.1
    simp only [careful, hi, Option.all_some] at hcareful
    exact ⟨h.sound.call hi hcall', h.clean.call hi (fun _ _ ↦ hcall.2) hcareful hcall'⟩
  | done i fails =>
    obtain ⟨r, hi, hdone⟩ := Option.bind_eq_some_iff.mp hstep
    refine ⟨h.sound.done hi hdone, h.clean.done h.sound hi ?_ hdone⟩
    intro hrem hmem
    simpa [careful, hi, hrem, hmem] using hcareful
  | restore i fails =>
    obtain ⟨r, hi, hrestore⟩ := Option.bind_eq_some_iff.mp hstep
    simp only [careful, hi, Option.all_some] at hcareful
    exact ⟨h.sound.restore hi hcareful hrestore, h.clean.restore hi hrestore⟩
  | ask =>
    refine ⟨h.sound.ask hstep, ?_⟩
    obtain ⟨-, ⟨⟩⟩ := Option.ite_none_right_eq_some.mp hstep
    exact h.clean.proceed (by simp)
  | list names fails =>
    simp only [careful, Bool.and_eq_true, Bool.not_eq_true'] at hcareful
    obtain ⟨rfl, hnames⟩ := hcareful
    obtain ⟨-, ⟨⟩⟩ := Option.ite_none_right_eq_some.mp hstep
    exact ⟨h.sound.list hnames, h.clean.proceed (by simp)⟩
  | read fails =>
    simp only [careful, Bool.not_eq_true'] at hcareful
    subst hcareful
    refine ⟨h.sound.read hstep, ?_⟩
    obtain ⟨removal, hne, rfl⟩ := ne_removed_of_readNext hstep
    exact h.clean.proceed hne
  | revoke id =>
    refine ⟨h.sound.revoke hstep, ?_⟩
    simp only [step] at hstep
    split at hstep
    · obtain ⟨-, ⟨⟩⟩ := Option.ite_none_right_eq_some.mp hstep
      exact h.clean.proceed (by simp)
    · cases hstep
  | revokeNext now fails listing =>
    have hfails : fails = false := by
      simp only [careful, Bool.and_eq_true, Bool.not_eq_true'] at hcareful
      exact hcareful.1
    subst hfails
    refine ⟨h.sound.revokeNext hcareful hstep, ?_⟩
    simp only [step, State.revokeNext] at hstep
    split at hstep
    · cases hstep
      apply h.clean.proceed
      split <;> simp
    · cases hstep
  | revoked =>
    refine ⟨h.sound.revoked hstep, ?_⟩
    obtain ⟨-, ⟨⟩⟩ := Option.ite_none_right_eq_some.mp hstep
    exact h.clean.proceed (by simp)
  | remove env operatorFiles => exact ⟨h.sound.remove hstep, h.clean.remove hstep⟩

/-- A state before any redemption and any removal: every token has one file, with what was minted
in it. -/
structure Start (s : State Key) : Prop where
  single : Single s.tokens
  minted : ∀ n t, s.tokens.lookup n = some t → s.minted.lookup n.id = some t
  redemptions : s.redemptions = ∅
  removal : s.removal = .idle
  before : s.before = []
  writer : s.writer = ∅

private theorem Start.inv (h : s.Start) : s.Inv w := by
  refine ⟨⟨h.single, h.minted, ?_, ?_, ?_, ?_⟩, ⟨?_, ?_, ?_⟩⟩
  · rw [h.before]
    nofun
  · intro i r hi
    rw [h.redemptions] at hi
    cases hi
  · rw [h.removal]
    trivial
  · rw [h.before]
    nofun
  · intro fp i hi
    rw [h.writer] at hi
    cases hi
  · rw [h.removal]
    nofun
  · rw [h.removal]
    nofun

end State

/-- Once an account is removed, no redemption of a token that was minted before the removal started
and that has ended has left a key of its own in the account's file: whatever the order of their
calls and of what others do, as long as no token is renamed while the removal has its name to read
or is revoking it, what the removal lists, reads and revokes does not fail, and what these
redemptions do afterwards does not fail half way. -/
theorem removed_account_without_keys {s₀ : State Key} {es : List (Event Key)} (hstart : s₀.Start)
    (hw : (machine w).Within (fun s e ↦ s.careful w e = true) s₀ es)
    (hr : (machine w).run s₀ es = some s) (hremoved : s.removal = .removed) {i : Nat}
    {r : Redeeming Key} (hi : s.redemptions.lookup i = some r) (hbefore : r.claim.id ∈ s.before)
    {enrolled : Bool} (hended : r.stage = .ended enrolled) :
    s.left w i (w.format.fingerprint r.key) = false := by
  have hinv : s.Inv w :=
    (machine w).run_invariant _ (fun _ _ _ hi hok h ↦ hi.act hok h) hstart.inv hw hr
  rw [Bool.eq_false_iff]
  intro hleft
  have hholding := hinv.clean.keys hremoved i r hi hbefore hleft
  rw [hended] at hholding
  cases hholding

/-- The account `alice`. -/
def alice : Setting Bool where
  sha256 := Tokens.charBytes
  format := twoKeys
  config := plainConfig
  target := "alice"

def aliceToken : Token where
  hash := "73"
  account := "alice"
  expires := 100

/-- A token for `alice`, who has a key. -/
def oneToken : State Bool where
  tokens := AList.singleton (.token "aaaaaaaa") aliceToken
  minted := AList.singleton "aaaaaaaa" aliceToken
  file := some ["k2"]

def aliceClaim (time : Int) : Claim := ⟨"aaaaaaaa", time, "n"⟩

/-- What is left of a redemption's calls once it has claimed its token. -/
def enrols (i : Nat) : List (Event Bool) :=
  [.add i (.write {} (some true)), .add i (.await .ready), .add i (.check true), .done i false]

/-- The removal, the stage of a redemption, and whether it left its key. -/
def outcome (i : Nat) (s : State Bool) : Removal × Option Stage × Bool :=
  (s.removal, (s.redemptions.lookup i).map (·.stage), s.left alice i "f1")

/-- The token is claimed after the removal has listed its name, and is not there to be read. -/
def missedByList : List (Event Bool) :=
  [.redeem 0 (aliceClaim 1) "s" true "" 1, .ask, .list [.token "aaaaaaaa"] false, .take 0 1 false,
    .read false, .read false, .revoked, .remove {} (some []), .take 0 1 false]

/-- The token is put back while the removal revokes it, after its own name was tried and before the
claims are listed, and is claimed again. -/
def missedByRevoke : List (Event Bool) :=
  [.redeem 0 (aliceClaim 1) "s" true "" 1, .take 0 1 false, .take 0 1 false, .ask,
    .list [(aliceClaim 1).place] false, .read false, .read false, .revoke "aaaaaaaa",
    .revokeNext 1 false [], .add 0 (.write { lockFails := true } (some true)), .restore 0 false,
    .revokeNext 1 false [.token "aaaaaaaa"], .revokeNext 1 false [], .revoked,
    .remove {} (some []), .redeem 1 (aliceClaim 2) "s" true "" 1, .take 1 1 false, .take 1 1 false]

/-- The token is claimed before the removal, and its claim is revoked. -/
def claimRevoked : List (Event Bool) :=
  [.redeem 0 (aliceClaim 1) "s" true "" 1, .take 0 1 false, .take 0 1 false, .ask,
    .list [(aliceClaim 1).place] false, .read false, .read false, .revoke "aaaaaaaa",
    .revokeNext 1 false [], .revokeNext 1 false [(aliceClaim 1).place], .revokeNext 1 false [],
    .revokeNext 1 false [], .revoked, .remove {} (some [])]

/-- The token is missed, and redeemed after the account was removed: its key is left. -/
theorem redeemed_after_removal :
    ((machine alice).run oneToken (missedByList ++ enrols 0)).map (outcome 0) =
        some (.removed, some (.ended true), true) ∧
      ((machine alice).run oneToken (missedByRevoke ++ enrols 1)).map (outcome 1) =
        some (.removed, some (.ended true), true) := by
  decide +kernel

/-- A claim that stays where it is is revoked, and the redemption takes its key out again. -/
theorem removed_account_without_keys_claimed :
    ∃ s r, (machine alice).run oneToken
        (claimRevoked ++ enrols 0 ++ [.add 0 (.undo {} (some []))]) = some s ∧
      s.removal = .removed ∧ s.redemptions.lookup 0 = some r ∧ r.stage = .ended false ∧
      s.left alice 0 "f1" = false := by
  obtain ⟨s, hs, hremoved, hbefore, hi⟩ : ∃ s, (machine alice).run oneToken
      (claimRevoked ++ enrols 0 ++ [.add 0 (.undo {} (some []))]) = some s ∧
      s.removal = .removed ∧ s.before = ["aaaaaaaa"] ∧
      s.redemptions.lookup 0 = some ⟨aliceClaim 1, true, "", .ended false⟩ := by
    decide +kernel
  have hsingleton : ∀ {n : Name} {t : Token}, oneToken.tokens.lookup n = some t →
      n = .token "aaaaaaaa" ∧ aliceToken = t := by
    intro n t hn
    have hmem : (⟨n, t⟩ : (_ : Name) × Token) ∈ [⟨.token "aaaaaaaa", aliceToken⟩] :=
      AList.mem_lookup_iff.mp hn
    cases List.mem_singleton.mp hmem
    exact ⟨rfl, rfl⟩
  have hstart : oneToken.Start := by
    refine ⟨?_, ?_, rfl, rfl, rfl, rfl⟩
    · intro n m t u hn hm _
      rw [(hsingleton hn).1, (hsingleton hm).1]
    · intro n t hn
      obtain ⟨rfl, rfl⟩ := hsingleton hn
      rfl
  refine ⟨s, _, hs, hremoved, hi, rfl, ?_⟩
  refine removed_account_without_keys (w := alice) hstart (by decide +kernel) hs hremoved hi ?_ rfl
  rw [hbefore]
  decide

end RemoteDocker.Manage.Withdrawal

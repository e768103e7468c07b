import RemoteDocker.Enrol.Redeem

/-!
# A redemption is all or nothing

What a write of a key comes to, whether it fails, succeeds or is not re-read, and what the rest
of a redemption makes of it.
-/

namespace RemoteDocker.Enrol

open Base

section

variable {Key : Type} {F : KeyFormat Key} {cfg : Config}

/-- What adding a key came to. `unread` is that the key was written and the accounts were not
re-read. -/
inductive Adds (F : KeyFormat Key) (fp : String) (unread : Bool) (file : KeyFile) (o : Written) :
    Prop
  | failed (e : Err) (herr : o.err = some e) (hne : e ≠ .provisioning) (hread : unread = false)
      (hsame : holds F o.file fp = holds F file fp)
  | unread (herr : o.err = some .notReread) (hread : unread = true)
      (hbefore : holds F file fp = false) (hafter : holds F o.file fp = true)
  | added (herr : o.err = none ∨ o.err = some .provisioning) (hread : unread = false)
      (hbefore : o.added = true → holds F file fp = false)
      (hkept : o.added = false → o.file = file) (hafter : holds F o.file fp = true)

variable {withdraw : EditEnv} {file : KeyFile} {r : Redemption Key} {w : World}

private theorem adds_awaitOrWithdraw {fp : String} (hdir : cfg.enrolledDir ≠ "")
    (hwithdraw : withdraw.changes = true) (await : Await) {written : KeyFile}
    (hbefore : holds F file fp = false) (hafter : holds F written fp = true) : Adds F fp false file
      { file := (awaitOrWithdraw F cfg await withdraw fp written).1, added := true
        err := (awaitOrWithdraw F cfg await withdraw fp written).2 } := by
  cases await with
  | ready => exact .added (.inl rfl) rfl (fun _ ↦ hbefore) (fun h ↦ by cases h) hafter
  | waiting => exact .added (.inr rfl) rfl (fun _ ↦ hbefore) (fun h ↦ by cases h) hafter
  | never =>
    refine .failed .notProvisioned rfl (by decide) rfl ?_
    rw [hbefore]
    exact holds_edit_removeKeyLine hdir hwithdraw fp written

private theorem holds_appended (key : Key) (comment : String) (lines : List String) :
    (lines ++ [keyLineFor F key comment]).any (lineHolds F (F.fingerprint key)) = true := by
  rw [List.any_append, List.any_cons, lineHolds_keyLineFor, Bool.true_or, Bool.or_true]

inductive Appends (F : KeyFormat Key) (env : EditEnv) (fp : String) (file : KeyFile) :
    Except Err (KeyFile × Bool) → Prop
  | failed (e : Err) (hne : e ≠ .provisioning) (henv : env.changes = false) :
      Appends F env fp file (.error e)
  | there (hin : holds F file fp = true) : Appends F env fp file (.ok (file, false))
  | appended (written : KeyFile) (hread : env.readFails = false) (hwrite : env.writeFails = false)
      (hout : holds F file fp = false) (hin : holds F written fp = true) :
      Appends F env fp file (.ok (written, true))

theorem appends_appendLine (env : EditEnv) (key : Key) (comment : String) (file : KeyFile) :
    Appends F env (F.fingerprint key) file (appendLine F env key comment file) := by
  cases hread : env.readFails with
  | true =>
    have hline : appendLine F env key comment file = .error .read := by
      simp only [appendLine, readLines, hread, if_true, bind, Except.bind]
    rw [hline]
    exact .failed .read (by decide) (by simp [EditEnv.changes, hread])
  | false =>
    have hlines : readLines env file = .ok (file.getD []) := by
      rw [readLines, hread, if_neg Bool.false_ne_true]
    cases hfound : (withoutKey F (file.getD []) (F.fingerprint key)).2 with
    | true =>
      have hline : appendLine F env key comment file = .ok (file, false) := by
        simp only [appendLine, hlines, bind, Except.bind, hfound, if_true]
      rw [hline]
      exact .there hfound
    | false =>
      cases hwrite : env.writeFails with
      | true =>
        have hline : appendLine F env key comment file = .error .write := by
          simp only [appendLine, hlines, bind, Except.bind, hfound, Bool.false_eq_true, if_false,
            writeKeyFile, hwrite, if_true]
        rw [hline]
        exact .failed .write (by decide) (by simp [EditEnv.changes, hwrite])
      | false =>
        have hholds := holds_appended (F := F) key comment (file.getD [])
        have hline : appendLine F env key comment file =
            .ok (some (file.getD [] ++ [keyLineFor F key comment]), true) := by
          simp only [appendLine, hlines, bind, Except.bind, hfound, Bool.false_eq_true, if_false,
            writeKeyFile_of_holds hwrite hholds]
        rw [hline]
        exact .appended _ hread hwrite hfound hholds

private theorem adds_appendKey (env : EditEnv) (hdir : cfg.enrolledDir ≠ "")
    (hwithdraw : withdraw.changes = true) (await : Await) (key : Key) (comment : String)
    (file : KeyFile) : Adds F (F.fingerprint key)
      (env.changes && !holds F file (F.fingerprint key) && env.rereadFails) file
      (appendKey F cfg env withdraw await key comment file) := by
  have hline := appends_appendLine (F := F) env key comment file
  unfold appendKey
  cases hlock : env.lockFails with
  | true =>
    rw [edit_of_lock hdir hlock]
    exact .failed .lock rfl (by decide) (by simp [EditEnv.changes, hlock]) rfl
  | false =>
    generalize hout : appendLine F env key comment file = out at hline
    cases hline with
    | failed e hne henv =>
      rw [edit_of_error hdir hlock hout]
      exact .failed e rfl hne (by rw [henv]; rfl) rfl
    | there hin =>
      -- The key is in the file already, which is left whatever else fails.
      rw [edit_of_ok hdir hlock hout, hin]
      cases env.rereadFails with
      | true => exact .failed .notReread rfl (by decide) (by simp) rfl
      | false =>
        cases await with
        | ready => exact .added (.inl rfl) (by simp) (fun h ↦ by cases h) (fun _ ↦ rfl) hin
        | waiting => exact .added (.inr rfl) (by simp) (fun h ↦ by cases h) (fun _ ↦ rfl) hin
        | never => exact .failed .notProvisioned rfl (by decide) (by simp) rfl
    | appended written hread hwrite hbefore hin =>
      rw [edit_of_ok hdir hlock hout, hbefore]
      cases hreread : env.rereadFails with
      | true => exact .unread rfl (by simp [EditEnv.changes, hlock, hread, hwrite]) hbefore hin
      | false =>
        simp only [Bool.false_eq_true, if_false, Bool.and_false]
        exact adds_awaitOrWithdraw hdir hwithdraw await hbefore hin

def createUnread (env : EditEnv) (known : Option Bool) (file : KeyFile) : Bool :=
  !env.lockFails && known == some false && !env.writeFails && file.isNone && env.rereadFails

inductive Creates (line : String) (env : EditEnv) (known : Option Bool) (file : KeyFile) :
    Except Err (KeyFile × Unit) → Prop
  | failed (e : Err) (hne : e ≠ .provisioning) (hread : createUnread env known file = false) :
      Creates line env known file (.error e)
  | created (hknown : known = some false) (hwrite : env.writeFails = false) (hnone : file = none) :
      Creates line env known file (.ok (some [line], ()))

theorem creates_createFile (env : EditEnv) (known : Option Bool) (key : Key) (comment : String)
    (file : KeyFile) :
    Creates (keyLineFor F key comment) env known file
      (createFile F env known key comment file) := by
  unfold createFile
  split
  · exact .failed .known (by decide) (by simp [createUnread])
  · exact .failed .accountExists (by decide) (by simp [createUnread])
  · split
    · next hwrite => exact .failed .write (by decide) (by simp [createUnread, hwrite])
    · next hwrite =>
      cases file with
      | some lines => exact .failed .accountExists (by decide) (by simp [createUnread])
      | none => exact .created rfl (Bool.eq_false_iff.mpr hwrite) rfl

private theorem adds_createAccount (env : EditEnv) (hdir : cfg.enrolledDir ≠ "")
    (hwithdraw : withdraw.changes = true) (known : Option Bool) (await : Await) (key : Key)
    (comment : String) (file : KeyFile) :
    Adds F (F.fingerprint key) (createUnread env known file) file
        (createAccount F cfg env withdraw known await key comment file) ∧
      ((createAccount F cfg env withdraw known await key comment file).err = none ∨
        (createAccount F cfg env withdraw known await key comment file).err = some .provisioning →
        file = none) := by
  have hfile := creates_createFile (F := F) env known key comment file
  unfold createAccount
  cases hlock : env.lockFails with
  | true =>
    rw [edit_of_lock hdir hlock]
    exact ⟨.failed .lock rfl (by decide) (by simp [createUnread, hlock]) rfl, by simp⟩
  | false =>
    generalize hout : createFile F env known key comment file = out at hfile
    cases hfile with
    | failed e hne hread =>
      rw [edit_of_error hdir hlock hout]
      refine ⟨.failed e rfl hne hread rfl, ?_⟩
      rintro (h | h)
      · cases h
      · exact absurd (Option.some.inj h) hne
    | created hknown hwrite hnone =>
      refine ⟨?_, fun _ ↦ hnone⟩
      have hholds : holds F (some [keyLineFor F key comment]) (F.fingerprint key) = true :=
        holds_appended key comment []
      rw [edit_of_ok hdir hlock hout, hknown, hnone]
      cases hreread : env.rereadFails with
      | true => exact .unread rfl (by simp [createUnread, hlock, hwrite, hreread]) rfl hholds
      | false =>
        have hun : createUnread env (some false) none = false := by simp [createUnread, hreread]
        rw [hun]
        exact adds_awaitOrWithdraw hdir hwithdraw await rfl hholds

def unread (F : KeyFormat Key) (create : Bool) (r : Redemption Key) (file : KeyFile) : Bool :=
  if create then createUnread r.edit r.knownLocked file
  else r.known.isSome &&
    (r.edit.changes && !holds F file (F.fingerprint r.key) && r.edit.rereadFails)

/-- What takes the key and the token back meets nothing that fails: the withdrawal of a key whose
account was not created, the undo, which an operator's file for the account or with the key in
it keeps from being made, and the token's return. -/
def undoable (F : KeyFormat Key) (create : Bool) (r : Redemption Key) : Bool :=
  r.withdraw.changes && r.undo.changes && !r.restoreFails &&
    match r.operatorFiles with
    | none => false
    | some files =>
      if create then files.isEmpty
      else !files.any fun lines ↦ lines.any fun lines ↦
        (withoutKey F lines (F.fingerprint r.key)).2

inductive Enrols (F : KeyFormat Key) (cfg : Config) (r : Redemption Key) (unread : Bool)
    (file : KeyFile) (e : Enrolled) : Prop
  | failed (err : Err) (herr : e.err = some err) (hne : err ≠ .provisioning)
      (hread : unread = false)
      (hsame : holds F e.file (F.fingerprint r.key) = holds F file (F.fingerprint r.key))
  | unread (herr : e.err = some .notReread) (hread : unread = true)
      (hbefore : holds F file (F.fingerprint r.key) = false)
      (hafter : holds F e.file (F.fingerprint r.key) = true)
  | enrolled (herr : e.err = none ∨ e.err = some .provisioning) (hread : unread = false)
      (hafter : holds F e.file (F.fingerprint r.key) = true)
      (hundo : holds F (runUndo F cfg e.undo r e.file) (F.fingerprint r.key) =
        holds F file (F.fingerprint r.key))

private theorem holds_removeKey (hdir : cfg.enrolledDir ≠ "")
    (hundo : undoable F false r = true) (file : KeyFile) :
    holds F (removeKey F cfg r.undo r.operatorFiles (F.fingerprint r.key) file).1
      (F.fingerprint r.key) = false := by
  simp only [undoable, Bool.and_eq_true, Bool.false_eq_true, if_false] at hundo
  obtain ⟨⟨⟨-, hchanges⟩, -⟩, hoperator⟩ := hundo
  apply holds_removeKey_self hdir hchanges
  cases hfiles : r.operatorFiles with
  | none =>
    rw [hfiles] at hoperator
    cases hoperator
  | some files =>
    rw [hfiles] at hoperator
    exact hoperator

private theorem removeAccountFile_eq (hdir : cfg.enrolledDir ≠ "")
    (hundo : undoable F true r = true) (file : KeyFile) :
    (removeAccountFile cfg r.undo r.operatorFiles file).1 = none := by
  simp only [undoable, Bool.and_eq_true, if_true] at hundo
  obtain ⟨⟨⟨-, hchanges⟩, -⟩, hoperator⟩ := hundo
  obtain ⟨hlock, -, hwrite⟩ := EditEnv.changes_iff.mp hchanges
  unfold removeAccountFile
  cases hfiles : r.operatorFiles with
  | none =>
    rw [hfiles] at hoperator
    cases hoperator
  | some files =>
    rw [hfiles] at hoperator
    simp only [hoperator, Bool.not_true, Bool.false_eq_true, if_false]
    rw [edit_of_ok hdir hlock (by rw [hwrite, if_neg Bool.false_ne_true])]

private theorem Adds.enrols {unread : Bool} {o : Written}
    (h : Adds F (F.fingerprint r.key) unread file o) (created : Bool) {undo : Undo}
    (hundo : o.err = none ∨ o.err = some .provisioning →
      (o.added = true → holds F file (F.fingerprint r.key) = false) →
      (o.added = false → o.file = file) →
      holds F (runUndo F cfg undo r o.file) (F.fingerprint r.key) =
        holds F file (F.fingerprint r.key)) : Enrols F cfg r unread file
      (if o.err = none ∨ o.err = some .provisioning then
        { file := o.file, created, undo, err := o.err } else { file := o.file, err := o.err }) := by
  cases h with
  | failed e herr hne hread hsame =>
    rw [if_neg (by rw [herr]; simpa using hne)]
    exact .failed e herr hne hread hsame
  | unread herr hread hbefore hafter =>
    rw [if_neg (by rw [herr]; decide)]
    exact .unread herr hread hbefore hafter
  | added herr hread hbefore hkept hafter =>
    rw [if_pos herr]
    exact .enrolled herr hread hafter (hundo herr hbefore hkept)

private theorem enrols_enrolKey {create : Bool} (hdir : cfg.enrolledDir ≠ "")
    (hundo : undoable F create r = true) (file : KeyFile) :
    Enrols F cfg r (unread F create r file) file (enrolKey F cfg create r file) := by
  have hwithdraw : r.withdraw.changes = true := by
    simp only [undoable, Bool.and_eq_true] at hundo
    exact hundo.1.1.1
  cases create with
  | true =>
    obtain ⟨hadds, hnone⟩ := adds_createAccount (F := F) r.edit hdir hwithdraw
      r.knownLocked r.await r.key r.comment file
    simp only [enrolKey, unread, if_true]
    apply hadds.enrols
    intro herr _ _
    rw [hnone herr]
    exact congrArg (holds F · (F.fingerprint r.key)) (removeAccountFile_eq hdir hundo _)
  | false =>
    cases hknown : r.known with
    | none =>
      simp only [enrolKey, hknown, Bool.false_eq_true, if_false]
      exact .failed .known rfl (by decide) (by simp [unread, hknown]) rfl
    | some known =>
      have hadds := adds_appendKey (F := F) r.edit hdir hwithdraw r.await r.key r.comment file
      simp only [enrolKey, hknown, unread, Bool.false_eq_true, if_false, Option.isSome_some,
        Bool.true_and]
      apply hadds.enrols
      intro _ hbefore hkept
      cases hadded : (appendKey F cfg r.edit r.withdraw r.await r.key r.comment file).added with
      | true =>
        simp only [if_true, runUndo, Undo.takeOut]
        rw [holds_removeKey hdir hundo, hbefore hadded]
      | false =>
        simp only [Bool.false_eq_true, if_false, runUndo, Undo.takeOut]
        rw [hkept hadded]

def World.enrols (F : KeyFormat Key) (w : World) (name fp : String) : Bool :=
  holds F (w.enrolled.lookup name) fp

private theorem enrols_write (w : World) (account : String) (file : KeyFile) (name fp : String) :
    (w.write account file).enrols F name fp =
      if name = account then holds F file fp else w.enrols F name fp := by
  unfold World.enrols World.write
  by_cases hname : name = account
  · subst hname
    rw [if_pos rfl]
    cases file with
    | none => rw [AList.lookup_erase]
    | some lines => rw [AList.lookup_insert]
  · rw [if_neg hname]
    cases file with
    | none => rw [AList.lookup_erase_ne hname]
    | some lines => rw [AList.lookup_insert_ne hname]

private theorem enrols_write_of_same {account : String} {fp : String}
    (h : holds F file fp = holds F (w.enrolled.lookup account) fp) (name : String) :
    (w.write account file).enrols F name fp = w.enrols F name fp := by
  rw [enrols_write]
  split
  · next hname => rw [h, hname, World.enrols]
  · rfl

variable (sha256 : String → List UInt8)

/-- The accounts are re-read after the key is written, or it is not written: the redemption is
refused before, the file cannot be changed, or the key is in it. -/
def rereads (F : KeyFormat Key) (cfg : Config) (w : World) (r : Redemption Key) : Bool :=
  match (takeToken sha256 cfg w r).2 with
  | .error _ => true
  | .ok (name, create) =>
    match cfg.accountName name with
    | .error _ => true
    | .ok account => !unread F create r (w.enrolled.lookup account)

/-- What takes the key and the token back, if it comes to that, works. -/
def UndoWorks (F : KeyFormat Key) (cfg : Config) (w : World) (r : Redemption Key) : Prop :=
  ∀ name create, (takeToken sha256 cfg w r).2 = .ok (name, create) → undoable F create r = true

/-- What a redemption came to: the key is where it was and the token not consumed; the key is
enrolled and the token consumed; or the key is enrolled and the token not consumed. -/
inductive Redeems (F : KeyFormat Key) (cfg : Config) (w : World) (r : Redemption Key)
    (rereads : Bool) : World × Except Refusal Reply → Prop
  | refused {w' : World} {e : Refusal} (hread : rereads = true)
      (hsame : ∀ name, w'.enrols F name (F.fingerprint r.key) =
        w.enrols F name (F.fingerprint r.key)) : Redeems F cfg w r rereads (w', .error e)
  | redeemed {w' : World} {reply : Reply} {account : String} (hread : rereads = true)
      (haccount : cfg.accountName reply.account = .ok account)
      (hin : w'.enrols F account (F.fingerprint r.key) = true)
      (hother : ∀ name, name ≠ account → w'.enrols F name (F.fingerprint r.key) =
        w.enrols F name (F.fingerprint r.key)) : Redeems F cfg w r rereads (w', .ok reply)
  | half {w' : World} {e : Refusal} {account : String} (hread : rereads = false)
      (hout : w.enrols F account (F.fingerprint r.key) = false)
      (hin : w'.enrols F account (F.fingerprint r.key) = true) :
      Redeems F cfg w r rereads (w', .error e)

private theorem dir_of_takeToken {target : String × Bool}
    (h : (takeToken sha256 cfg w r).2 = .ok target) : cfg.enrolledDir ≠ "" := by
  unfold takeToken at h
  split at h
  · cases h
  · split at h
    · cases h
    · next hdir =>
      intro hempty
      simp [hempty] at hdir

private theorem redeems_commit {w₀ : World} {name account : String} {e : Enrolled}
    {pending : Bool} (hw : w.enrolled = w₀.enrolled) (haccount : cfg.accountName name = .ok account)
    (hafter : holds F e.file (F.fingerprint r.key) = true)
    (hundo : holds F (runUndo F cfg e.undo r e.file) (F.fingerprint r.key) =
      holds F (w₀.enrolled.lookup account) (F.fingerprint r.key)) :
    Redeems F cfg w₀ r true (commit F cfg w r name account e pending) := by
  simp only [commit]
  split
  · refine .refused rfl ?_
    intro n
    rw [enrols_write_of_same (by rw [hw]; exact hundo)]
    exact congrArg (fun enrolled ↦ holds F (enrolled.lookup n) (F.fingerprint r.key)) hw
  · refine .redeemed rfl haccount ?_ ?_
    · rw [enrols_write, if_pos rfl]
      exact hafter
    · intro n hn
      rw [enrols_write, if_neg hn]
      exact congrArg (fun enrolled ↦ holds F (enrolled.lookup n) (F.fingerprint r.key)) hw

private theorem redeems_redeem (hundo : UndoWorks sha256 F cfg w r) :
    Redeems F cfg w r (rereads sha256 F cfg w r) (redeem sha256 F cfg w r) := by
  unfold redeem rereads
  cases htake : takeToken sha256 cfg w r with
  | mk files res =>
    cases res with
    | error e => exact .refused rfl fun _ ↦ rfl
    | ok target =>
      obtain ⟨name, create⟩ := target
      have hres : (takeToken sha256 cfg w r).2 = .ok (name, create) := by rw [htake]
      have hdir := dir_of_takeToken sha256 hres
      dsimp only
      cases haccount : cfg.accountName name with
      | error msg => exact .refused rfl fun _ ↦ rfl
      | ok account =>
        have henrols := enrols_enrolKey hdir (hundo name create hres) (w.enrolled.lookup account)
        dsimp only
        cases henrols with
        | failed err herr hne hread hsame =>
          rw [hread, herr, if_neg (by simpa using hne), if_neg (Option.some_ne_none err)]
          exact .refused rfl fun n ↦
            enrols_write_of_same (w := { w with tokens := files }) hsame n
        | unread herr hread hbefore hafter =>
          rw [hread, herr, if_neg (by decide), if_neg (by decide)]
          refine .half rfl hbefore ?_
          have hin := enrols_write (F := F) { w with tokens := files } account
            (enrolKey F cfg create r (w.enrolled.lookup account)).file account (F.fingerprint r.key)
          rw [if_pos rfl] at hin
          exact hin.trans hafter
        | enrolled herr hread hafter hundo' =>
          rw [hread]
          rcases herr with herr | herr
          · rw [herr, if_neg (by decide), if_pos rfl]
            split
            · exact redeems_commit rfl haccount hafter hundo'
            · exact .refused rfl fun n ↦
                enrols_write_of_same (w := { w with tokens := files }) hundo' n
          · rw [herr, if_pos rfl]
            exact redeems_commit rfl haccount hafter hundo'

/-- The key a redemption presented is in an enrolled file exactly if it was there or the
redemption consumed the token, for that account. -/
def AllOrNothing (F : KeyFormat Key) (cfg : Config) (w : World) (r : Redemption Key) : Prop :=
  ∀ name, (redeem sha256 F cfg w r).1.enrols F name (F.fingerprint r.key) = true ↔
    w.enrols F name (F.fingerprint r.key) = true ∨
      ∃ reply, (redeem sha256 F cfg w r).2 = .ok reply ∧ cfg.accountName reply.account = .ok name

/-- A redemption is all or nothing exactly if the accounts are re-read after a key is written. -/
theorem allOrNothing_iff (hundo : UndoWorks sha256 F cfg w r) :
    AllOrNothing sha256 F cfg w r ↔ rereads sha256 F cfg w r = true := by
  have hredeems := redeems_redeem sha256 hundo
  unfold AllOrNothing
  generalize redeem sha256 F cfg w r = out at hredeems
  cases hredeems with
  | refused hread hsame =>
    refine iff_of_true ?_ hread
    intro name
    rw [hsame name]
    simp
  | @redeemed w' reply account hread haccount hin hother =>
    refine iff_of_true ?_ hread
    intro name
    constructor
    · intro hthere
      by_cases hname : name = account
      · exact .inr ⟨reply, rfl, hname ▸ haccount⟩
      · exact .inl ((hother name hname).symm.trans hthere)
    · rintro (hbefore | ⟨reply, hreply, hname⟩)
      · by_cases hname : name = account
        · rw [hname]
          exact hin
        · exact (hother name hname).trans hbefore
      · cases hreply
        rw [haccount] at hname
        cases hname
        exact hin
  | half hread hout hin =>
    refine iff_of_false ?_ (by rw [hread]; decide)
    intro hall
    rcases (hall _).mp hin with hbefore | ⟨reply, hreply, -⟩
    · rw [hout] at hbefore
      cases hbefore
    · cases hreply

end

end RemoteDocker.Enrol

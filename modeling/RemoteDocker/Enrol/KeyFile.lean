import Mathlib.Data.List.AList
import RemoteDocker.Base.Record

/-!
# The enrolled keys

One file an account, of lines of which some hold a key. Every change takes the file's lock,
rewrites the file whole, and re-reads the accounts before it returns
(`src/core-agent/accounts/keyfile_write.go`). What each step meets is an input: whether it fails,
whether a name is known, how the wait for an account ends. A file here is its lines, and no file
is `none`; a file is either replaced or left, since its contents are put in place by one rename
or link.
-/

namespace RemoteDocker.Enrol

def oneLine (comment : String) : String :=
  String.ofList ([' '].intercalate (Base.Record.spaced comment))

/-- Keys and the lines that hold them: `parseKeyLine` of a line, `ssh.MarshalAuthorizedKey`, and
`ssh.FingerprintSHA256`. A marshalled key reads back, also with a comment after it that is on the
same line. -/
structure KeyFormat (Key : Type) where
  parseKeyLine : String → Option Key
  marshal : Key → String
  fingerprint : Key → String
  parse_marshal : ∀ key, parseKeyLine (marshal key) = some key
  parse_comment : ∀ key comment, '\n' ∉ comment.toList →
    parseKeyLine (marshal key ++ (" " ++ comment)) = some key

structure Config where
  lower : Char → Char
  quote : String → String
  enrolledDir : String
  admins : String → Bool

def Config.accountName (cfg : Config) (base : String) : Except String String :=
  let safe := base.toList.map fun c ↦
    let r := cfg.lower c
    if ('a' ≤ r ∧ r ≤ 'z') ∨ ('0' ≤ r ∧ r ≤ '9') ∨ r = '_' ∨ r = '-' then r else '-'
  let name := safe.dropWhile fun c ↦ ('0' ≤ c ∧ c ≤ '9') ∨ c = '-'
  if name.isEmpty then
    .error ("no usable account name can be derived from " ++ cfg.quote base)
  else .ok (String.ofList (name.take 30))

inductive Err where
  | noEnrolledDir
  | name (msg : String)
  | lock
  | read
  | write
  | known
  | notReread
  | accountExists
  | provisioning
  | notProvisioned
  | operatorKey
  deriving DecidableEq, Repr

abbrev KeyFile := Option (List String)

structure EditEnv where
  lockFails : Bool := false
  readFails : Bool := false
  writeFails : Bool := false
  rereadFails : Bool := false
  deriving DecidableEq, Repr

/-- The change itself is not kept from being made. -/
def EditEnv.changes (env : EditEnv) : Bool :=
  !env.lockFails && !env.readFails && !env.writeFails

/-- How the wait for an account to be created ends, `awaitProvisioning`. -/
inductive Await where
  | ready
  | waiting
  | never
  deriving DecidableEq, Repr

section

variable {Key : Type} (F : KeyFormat Key) (cfg : Config)

def keyLineFor (key : Key) (comment : String) : String :=
  let comment := oneLine comment
  if comment != "" then F.marshal key ++ (" " ++ comment) else F.marshal key

def lineHolds (fp line : String) : Bool :=
  (F.parseKeyLine line).any fun k ↦ F.fingerprint k == fp

def withoutKey (lines : List String) (fp : String) : List String × Bool :=
  (lines.filter fun line ↦ !lineHolds F fp line, lines.any (lineHolds F fp))

def holds (file : KeyFile) (fp : String) : Bool := (withoutKey F (file.getD []) fp).2

def readLines (env : EditEnv) (file : KeyFile) : Except Err (List String) :=
  if env.readFails then .error .read else .ok (file.getD [])

/-- A file without a key is deleted. -/
def writeKeyFile (env : EditEnv) (lines : List String) : Except Err KeyFile :=
  if env.writeFails then .error .write
  else if lines.any fun line ↦ (F.parseKeyLine line).isSome then .ok (some lines)
  else .ok none

def removeKeyLine (env : EditEnv) (fp : String) (file : KeyFile) : Except Err (KeyFile × Bool) := do
  let lines ← readLines env file
  let (kept, found) := withoutKey F lines fp
  if !found then .ok (file, false)
  else do
    let file ← writeKeyFile F env kept
    .ok (file, true)

/-- The file after it, and what it returns. A re-read that fails comes after the file is written. -/
def edit {α : Type} (env : EditEnv) (change : KeyFile → Except Err (KeyFile × α)) (file : KeyFile) :
    KeyFile × Except Err α :=
  if cfg.enrolledDir == "" then (file, .error .noEnrolledDir)
  else if env.lockFails then (file, .error .lock)
  else
    match change file with
    | .error e => (file, .error e)
    | .ok (file, a) => (file, if env.rereadFails then .error .notReread else .ok a)

/-- The error of a withdrawal that fails is wrapped, and is still that no account was created. -/
def awaitOrWithdraw (await : Await) (withdraw : EditEnv) (fp : String) (file : KeyFile) :
    KeyFile × Option Err :=
  match await with
  | .ready => (file, none)
  | .waiting => (file, some .provisioning)
  | .never => ((edit cfg withdraw (removeKeyLine F withdraw fp) file).1, some .notProvisioned)

structure Written where
  file : KeyFile
  added : Bool := false
  err : Option Err := none
  deriving DecidableEq

/-- The change `AppendKey` makes, and whether it added the key. -/
def appendLine (env : EditEnv) (key : Key) (comment : String) (file : KeyFile) :
    Except Err (KeyFile × Bool) := do
  let lines ← readLines env file
  if (withoutKey F lines (F.fingerprint key)).2 then .ok (file, false)
  else do
    let file ← writeKeyFile F env (lines ++ [keyLineFor F key comment])
    .ok (file, true)

/-- `Store.AppendKey`, past the folding of the name. -/
def appendKey (env withdraw : EditEnv) (await : Await) (key : Key) (comment : String)
    (file : KeyFile) : Written :=
  match edit cfg env (appendLine F env key comment) file with
  | (file, .error e) => { file, err := some e }
  | (file, .ok false) =>
    { file, err := match await with
        | .ready => none
        | .waiting => some .provisioning
        | .never => some .notProvisioned }
  | (file, .ok true) =>
    let (file, err) := awaitOrWithdraw F cfg await withdraw (F.fingerprint key) file
    { file, added := true, err }

/-- The change `CreateAccount` makes: the link refuses a file that is there. `known` is what
`Known` answers under the lock. -/
def createFile (env : EditEnv) (known : Option Bool) (key : Key) (comment : String)
    (file : KeyFile) : Except Err (KeyFile × Unit) :=
  match known with
  | none => .error .known
  | some true => .error .accountExists
  | some false =>
    if env.writeFails then .error .write
    else if file.isSome then .error .accountExists
    else .ok (some [keyLineFor F key comment], ())

/-- `Store.CreateAccount`, past the folding of the name. -/
def createAccount (env withdraw : EditEnv) (known : Option Bool) (await : Await) (key : Key)
    (comment : String) (file : KeyFile) : Written :=
  match edit cfg env (createFile F env known key comment) file with
  | (file, .error e) => { file, err := some e }
  | (file, .ok ()) =>
    let (file, err) := awaitOrWithdraw F cfg await withdraw (F.fingerprint key) file
    { file, added := true, err }

/-- `Store.RemoveKey`, past the folding of the name. `operatorFiles` is what `operatorFiles`
answers: each file's lines, if they can be read. -/
def removeKey (env : EditEnv) (operatorFiles : Option (List (Option (List String)))) (fp : String)
    (file : KeyFile) : KeyFile × Except Err Bool :=
  match operatorFiles with
  | none => (file, .error .read)
  | some files =>
    if files.any fun lines ↦ lines.any fun lines ↦ (withoutKey F lines fp).2 then
      (file, .error .operatorKey)
    else edit cfg env (removeKeyLine F env fp) file

/-- `Store.RemoveAccountFile`, past the folding of the name. -/
def removeAccountFile (env : EditEnv) (operatorFiles : Option (List (Option (List String))))
    (file : KeyFile) : KeyFile × Except Err Unit :=
  match operatorFiles with
  | none => (file, .error .read)
  | some files =>
    if !files.isEmpty then (file, .error .operatorKey)
    else edit cfg env (fun _ ↦ if env.writeFails then .error .write else .ok (none, ())) file

end

private theorem newline_notMem_oneLine (comment : String) : '\n' ∉ (oneLine comment).toList := by
  rw [oneLine, String.toList_ofList]
  intro hmem
  rcases Base.Record.mem_intercalate hmem with hc | ⟨part, hfield, hin⟩
  · exact absurd hc (by decide)
  · have hspace := (Base.Record.of_mem_splitOnP (List.mem_filter.mp hfield).1 hin).2
    exact absurd hspace (by decide)

section

variable {Key : Type} {F : KeyFormat Key} {cfg : Config}

/-- The line written for a key holds it, whatever the comment. -/
theorem parse_keyLineFor (F : KeyFormat Key) (key : Key) (comment : String) :
    F.parseKeyLine (keyLineFor F key comment) = some key := by
  simp only [keyLineFor]
  split
  · exact F.parse_comment key _ (newline_notMem_oneLine comment)
  · exact F.parse_marshal key

theorem lineHolds_keyLineFor (F : KeyFormat Key) (key : Key) (comment : String) :
    lineHolds F (F.fingerprint key) (keyLineFor F key comment) = true := by
  rw [lineHolds, parse_keyLineFor]
  exact beq_self_eq_true _

@[simp] theorem holds_none (fp : String) : holds F none fp = false := rfl

variable {env : EditEnv} {fp fp' : String} {α : Type} {change : KeyFile → Except Err (KeyFile × α)}
  {file file' : KeyFile}

theorem writeKeyFile_of_holds (hwrite : env.writeFails = false)
    {lines : List String} (h : lines.any (lineHolds F fp) = true) :
    writeKeyFile F env lines = .ok (some lines) := by
  obtain ⟨line, hline, hholds⟩ := List.any_eq_true.mp h
  obtain ⟨k, hk, -⟩ := (Option.any_eq_true _ _).mp hholds
  have hkey : (lines.any fun line ↦ (F.parseKeyLine line).isSome) = true := by
    rw [List.any_eq_true]
    exact ⟨line, hline, by rw [hk]; rfl⟩
  rw [writeKeyFile, hwrite, if_neg Bool.false_ne_true, if_pos hkey]

private theorem holds_of_removeKeyLine (hread : env.readFails = false)
    (hwrite : env.writeFails = false) (fp : String) (file : KeyFile) :
    ∃ file' found, removeKeyLine F env fp file = .ok (file', found) ∧ holds F file' fp = false := by
  have hlines : readLines env file = .ok (file.getD []) := by
    rw [readLines, hread, if_neg Bool.false_ne_true]
  cases hfound : (withoutKey F (file.getD []) fp).2 with
  | false =>
    refine ⟨file, false, ?_, hfound⟩
    simp only [removeKeyLine, hlines, bind, Except.bind, hfound, Bool.not_false, if_true]
  | true =>
    have hkept : (withoutKey F (file.getD []) fp).1.any (lineHolds F fp) = false := by
      rw [List.any_eq_false]
      intro line hline
      have hnot := (List.mem_filter.mp hline).2
      rw [Bool.not_eq_true'] at hnot
      rw [hnot]
      exact Bool.false_ne_true
    obtain ⟨file', hfile', hholds⟩ : ∃ file', writeKeyFile F env
        (withoutKey F (file.getD []) fp).1 = .ok file' ∧ holds F file' fp = false := by
      unfold writeKeyFile
      rw [hwrite, if_neg Bool.false_ne_true]
      split
      · exact ⟨_, rfl, hkept⟩
      · exact ⟨none, rfl, rfl⟩
    refine ⟨file', true, ?_, hholds⟩
    simp only [removeKeyLine, hlines, bind, Except.bind, hfound, Bool.not_true,
      Bool.false_eq_true, if_false, hfile']

theorem edit_of_ok {a : α} (hdir : cfg.enrolledDir ≠ "") (hlock : env.lockFails = false)
    (h : change file = .ok (file', a)) : edit cfg env change file =
      (file', if env.rereadFails then .error .notReread else .ok a) := by
  rw [edit, if_neg (by simpa using hdir), if_neg (by rw [hlock]; exact Bool.false_ne_true), h]

theorem edit_of_error {e : Err} (hdir : cfg.enrolledDir ≠ "") (hlock : env.lockFails = false)
    (h : change file = .error e) : edit cfg env change file = (file, .error e) := by
  rw [edit, if_neg (by simpa using hdir), if_neg (by rw [hlock]; exact Bool.false_ne_true), h]

theorem edit_of_lock (hdir : cfg.enrolledDir ≠ "") (hlock : env.lockFails = true) :
    edit cfg env change file = (file, .error .lock) := by
  rw [edit, if_neg (by simpa using hdir), if_pos hlock]

theorem EditEnv.changes_iff : env.changes = true ↔
      env.lockFails = false ∧ env.readFails = false ∧ env.writeFails = false := by
  simp [EditEnv.changes, and_assoc]

theorem holds_edit_removeKeyLine (hdir : cfg.enrolledDir ≠ "")
    (henv : env.changes = true) (fp : String) (file : KeyFile) :
    holds F (edit cfg env (removeKeyLine F env fp) file).1 fp = false := by
  obtain ⟨hlock, hread, hwrite⟩ := EditEnv.changes_iff.mp henv
  obtain ⟨file', found, hremove, hholds⟩ := holds_of_removeKeyLine (F := F) hread hwrite fp file
  rw [edit_of_ok hdir hlock hremove]
  exact hholds

theorem holds_removeKey_self {operatorFiles : Option (List (Option (List String)))}
    (hdir : cfg.enrolledDir ≠ "") (henv : env.changes = true)
    (hoperator : (operatorFiles.any fun files ↦
      !files.any fun lines ↦ lines.any fun lines ↦ (withoutKey F lines fp).2) = true)
    (file : KeyFile) : holds F (removeKey F cfg env operatorFiles fp file).1 fp = false := by
  cases operatorFiles with
  | none => cases hoperator
  | some files =>
    rw [Option.any_some, Bool.not_eq_true'] at hoperator
    rw [removeKey, if_neg (by rw [hoperator]; exact Bool.false_ne_true)]
    exact holds_edit_removeKeyLine hdir henv fp file

private theorem lineHolds_unique {line : String} (h : lineHolds F fp line = true)
    (h' : lineHolds F fp' line = true) : fp' = fp := by
  rw [lineHolds, Option.any_eq_true] at h h'
  obtain ⟨k, hk, hfp⟩ := h
  obtain ⟨k', hk', hfp'⟩ := h'
  cases hk.symm.trans hk'
  exact (beq_iff_eq.mp hfp').symm.trans (beq_iff_eq.mp hfp)

private theorem holds_writeKeyFile {lines : List String}
    (h : writeKeyFile F env lines = .ok file) (fp : String) :
    holds F file fp = lines.any (lineHolds F fp) := by
  unfold writeKeyFile at h
  split at h
  · cases h
  · split at h
    · cases h
      rfl
    · rename_i hnone
      cases h
      symm
      apply List.any_eq_false.mpr
      intro line hline hholds
      apply hnone
      obtain ⟨k, hk, -⟩ := (Option.any_eq_true _ _).mp hholds
      exact List.any_eq_true.mpr ⟨line, hline, by rw [hk]; rfl⟩

private theorem holds_removeKeyLine_ne
    {found : Bool} (hne : fp' ≠ fp) (h : removeKeyLine F env fp file = .ok (file', found))
    (hin : holds F file fp' = true) : holds F file' fp' = true := by
  unfold removeKeyLine readLines at h
  split at h
  · cases h
  · simp only [bind, Except.bind] at h
    split at h
    · cases h
      exact hin
    · split at h
      · cases h
      · rename_i written hwrite
        cases h
        rw [holds_writeKeyFile hwrite]
        obtain ⟨line, hline, hholds⟩ := List.any_eq_true.mp hin
        refine List.any_eq_true.mpr ⟨line, List.mem_filter.mpr ⟨hline, ?_⟩, hholds⟩
        rw [Bool.not_eq_true', Bool.eq_false_iff]
        intro hfp
        exact hne (lineHolds_unique hfp hholds)

theorem edit_file (cfg : Config) (env : EditEnv)
    (change : KeyFile → Except Err (KeyFile × α)) (file : KeyFile) :
    (edit cfg env change file).1 = file ∨
      ∃ a, change file = .ok ((edit cfg env change file).1, a) := by
  unfold edit
  split
  · exact .inl rfl
  · split
    · exact .inl rfl
    · split
      · exact .inl rfl
      · rename_i file' a hchange
        exact .inr ⟨a, hchange⟩

theorem change_of_edit {a : α} (h : edit cfg env change file = (file', .ok a)) :
    change file = .ok (file', a) := by
  unfold edit at h
  split at h
  · cases h
  · split at h
    · cases h
    · split at h
      · cases h
      · rename_i written b hchange
        split at h
        · cases h
        · cases h
          exact hchange

/-- An edit that fails leaves the file, unless it is the re-read that fails. -/
theorem file_of_edit_error {e : Err}
    (hreread : env.rereadFails = false) (h : edit cfg env change file = (file', .error e)) :
    file' = file := by
  unfold edit at h
  split at h
  · cases h
    rfl
  · split at h
    · cases h
      rfl
    · split at h
      · cases h
        rfl
      · rw [hreread, if_neg Bool.false_ne_true] at h
        cases h

theorem removeAccountFile_file (cfg : Config) (env : EditEnv)
    (operatorFiles : Option (List (Option (List String)))) (file : KeyFile) :
    (removeAccountFile cfg env operatorFiles file).1 = file ∨
      (removeAccountFile cfg env operatorFiles file).1 = none := by
  unfold removeAccountFile
  split
  · exact .inl rfl
  · split
    · exact .inl rfl
    · have hedit := edit_file cfg env
        (fun _ ↦ if env.writeFails then .error .write else .ok (none, ())) file
      generalize (edit cfg env _ file).1 = out at hedit ⊢
      rcases hedit with hsame | ⟨a, hchange⟩
      · exact .inl hsame
      · split at hchange
        · cases hchange
        · cases hchange
          exact .inr rfl

theorem of_removeAccountFile_ok {operatorFiles : Option (List (Option (List String)))}
    (h : removeAccountFile cfg env operatorFiles file = (file', .ok ())) :
    cfg.enrolledDir ≠ "" ∧ file' = none := by
  unfold removeAccountFile at h
  split at h
  · cases h
  · split at h
    · cases h
    · have hchange := change_of_edit h
      split at hchange
      · cases hchange
      · cases hchange
        refine ⟨?_, rfl⟩
        intro hdir
        rw [edit, if_pos (beq_iff_eq.mpr hdir)] at h
        cases h

theorem holds_edit_removeKeyLine_ne (cfg : Config) (env : EditEnv) (hne : fp' ≠ fp)
    (hin : holds F file fp' = true) :
    holds F (edit cfg env (removeKeyLine F env fp) file).1 fp' = true := by
  rcases edit_file cfg env (removeKeyLine F env fp) file with h | ⟨found, h⟩
  · rw [h]
    exact hin
  · exact holds_removeKeyLine_ne hne h hin

theorem holds_removeKey_ne (cfg : Config) (env : EditEnv)
    (answer : Option (List (Option (List String))))
    (hne : fp' ≠ fp) (hin : holds F file fp' = true) :
    holds F (removeKey F cfg env answer fp file).1 fp' = true := by
  unfold removeKey
  split
  · exact hin
  · split
    · exact hin
    · exact holds_edit_removeKeyLine_ne cfg env hne hin

theorem holds_appendLine {key : Key} {comment : String}
    {added : Bool} (h : appendLine F env key comment file = .ok (file', added))
    (hin : holds F file fp = true ∨ fp = F.fingerprint key) : holds F file' fp = true := by
  unfold appendLine readLines at h
  split at h
  · cases h
  · simp only [bind, Except.bind] at h
    split at h
    · rename_i hfound
      cases h
      rcases hin with hin | rfl
      · exact hin
      · exact hfound
    · split at h
      · cases h
      · rename_i written hwrite
        cases h
        rw [holds_writeKeyFile hwrite, List.any_append, Bool.or_eq_true]
        rcases hin with hin | rfl
        · exact .inl hin
        · right
          rw [List.any_cons, lineHolds_keyLineFor, Bool.true_or]

theorem holds_createFile {known : Option Bool} {key : Key} {comment : String}
    (h : createFile F env known key comment file = .ok (file', ()))
    (hin : holds F file fp = true ∨ fp = F.fingerprint key) :
    holds F file' fp = true := by
  unfold createFile at h
  split at h
  · cases h
  · cases h
  · split at h
    · cases h
    · cases file with
      | some lines => cases h
      | none =>
        cases h
        rcases hin with hin | rfl
        · cases hin
        · rw [holds, withoutKey, Option.getD_some, List.any_cons, lineHolds_keyLineFor,
            Bool.true_or]

end

end RemoteDocker.Enrol

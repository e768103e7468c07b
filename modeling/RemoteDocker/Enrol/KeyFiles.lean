import Mathlib.Data.List.Sort
import Mathlib.Data.String.Basic
import RemoteDocker.Enrol.KeyFile
import RemoteDocker.Workspace.Identity

/-!
# Which file enrols an account

`src/core-agent/accounts/accounts.go:335-390`. A file enrols the account its name folds to, and a
name many files fold to is claimed by one of them. The files are sorted, and those whose name is the
account's go first, so who claims a name is decided by the names alone.
-/

namespace RemoteDocker.Enrol

structure DirEntry where
  name : String
  isDir : Bool
  deriving DecidableEq

structure NamedFile where
  file : String
  account : String
  deriving DecidableEq

/-- How `os.ReadDir` fails. -/
structure ReadError where
  isNotExist : Bool
  text : String

def suffixPub : List Char := ".pub".toList

def isKeyFile (e : DirEntry) : Bool :=
  !(e.isDir || ['.'].isPrefixOf e.name.toList || !suffixPub.isSuffixOf e.name.toList)

/-- The name of a file without its suffix. -/
def baseOf (file : String) : String := String.ofList (Workspace.trimSuffix suffixPub file.toList)

def Config.isExact (cfg : Config) (file : String) : Bool :=
  match cfg.accountName (baseOf file) with
  | .ok name => name == baseOf file
  | .error _ => false

/-- One turn of the loop that claims. `claimed` has the accounts of `out`. -/
def Config.claim (cfg : Config) (out : List NamedFile) (file : String) : List NamedFile :=
  match cfg.accountName (baseOf file) with
  | .error _ => out
  | .ok name => if out.any (·.account == name) then out else out ++ [⟨file, name⟩]

def Config.keyFiles (cfg : Config) (dir : String) (read : Except ReadError (List DirEntry)) :
    Except String (List NamedFile) :=
  match read with
  | .error err =>
    if err.isNotExist && dir == cfg.enrolledDir then .ok []
    else .error ("accounts: reading " ++ dir ++ ": " ++ err.text)
  | .ok entries =>
    let files := (entries.filter isKeyFile).map (·.name)
    let exact := (files.filter cfg.isExact).insertionSort (· ≤ ·)
    let folded := (files.filter (!cfg.isExact ·)).insertionSort (· ≤ ·)
    .ok ((exact ++ folded).foldl cfg.claim [])

section

variable {cfg : Config} {out : List NamedFile} {files : List String} {file name : String}

/-- What holds of those who have claimed, after some files. -/
structure Claimed (cfg : Config) (files : List String) (out : List NamedFile) : Prop where
  nodup : (out.map (·.account)).Nodup
  from_files : ∀ f ∈ out, f.file ∈ files ∧ cfg.accountName (baseOf f.file) = .ok f.account
  all : ∀ file ∈ files, ∀ name, cfg.accountName (baseOf file) = .ok name →
    ∃ f ∈ out, f.account = name

private theorem Claimed.claim (h : Claimed cfg files out) (file : String) :
    Claimed cfg (files ++ [file]) (cfg.claim out file) := by
  have hfrom : ∀ f ∈ out,
      f.file ∈ files ++ [file] ∧ cfg.accountName (baseOf f.file) = .ok f.account :=
    fun f hf ↦ (h.from_files f hf).imp_left (List.mem_append_left _)
  fun_cases Config.claim cfg out file
  · next err herr =>
    refine ⟨h.nodup, hfrom, List.forall_mem_append.mpr ⟨h.all, ?_⟩⟩
    refine List.forall_mem_singleton.mpr fun name hname ↦ ?_
    cases herr.symm.trans hname
  · next account haccount htaken =>
    refine ⟨h.nodup, hfrom, List.forall_mem_append.mpr ⟨h.all, ?_⟩⟩
    refine List.forall_mem_singleton.mpr fun name hname ↦ ?_
    cases haccount.symm.trans hname
    obtain ⟨f, hf, hsame⟩ := List.any_eq_true.mp htaken
    exact ⟨f, hf, beq_iff_eq.mp hsame⟩
  · next account haccount hfree =>
    refine ⟨?_, List.forall_mem_append.mpr ⟨hfrom, ?_⟩, List.forall_mem_append.mpr ⟨?_, ?_⟩⟩
    · rw [List.map_append, List.map_singleton, List.nodup_append_comm, List.singleton_append,
        List.nodup_cons]
      refine ⟨fun hmem ↦ hfree ?_, h.nodup⟩
      obtain ⟨f, hf, hsame⟩ := List.mem_map.mp hmem
      exact List.any_eq_true.mpr ⟨f, hf, beq_iff_eq.mpr hsame⟩
    · exact List.forall_mem_singleton.mpr ⟨List.mem_append_right _ (.head _), haccount⟩
    · intro file' hfile' name hname
      obtain ⟨f, hf, hsame⟩ := h.all file' hfile' name hname
      exact ⟨f, List.mem_append_left _ hf, hsame⟩
    · refine List.forall_mem_singleton.mpr fun name hname ↦ ?_
      cases haccount.symm.trans hname
      exact ⟨_, List.mem_append_right _ (.head _), rfl⟩

private theorem Claimed.foldl (h : Claimed cfg files out) (more : List String) :
    Claimed cfg (files ++ more) (more.foldl cfg.claim out) ∧
      ∀ f ∈ out, f ∈ more.foldl cfg.claim out := by
  induction more generalizing files out with
  | nil => exact ⟨(List.append_nil files).symm ▸ h, fun _ ↦ id⟩
  | cons file more ih =>
    obtain ⟨hrest, hkept⟩ := ih (h.claim file)
    rw [List.append_assoc, List.singleton_append] at hrest
    refine ⟨hrest, fun f hf ↦ hkept f ?_⟩
    fun_cases Config.claim cfg out file
    · exact hf
    · exact hf
    · exact List.mem_append_left _ hf

private theorem Claimed.unique (h : Claimed cfg files out) {f f' : NamedFile} (hf : f ∈ out)
    (hf' : f' ∈ out) (hsame : f.account = f'.account) : f = f' :=
  List.inj_on_of_nodup_map h.nodup hf hf' hsame

private theorem isExact_iff :
    cfg.isExact file = true ↔ cfg.accountName (baseOf file) = .ok (baseOf file) := by
  unfold Config.isExact
  cases cfg.accountName (baseOf file) with
  | error => simp
  | ok name => simp

private theorem name_eq {e : DirEntry} (h : isKeyFile e = true) :
    e.name = String.ofList ((baseOf e.name).toList ++ suffixPub) := by
  simp only [isKeyFile, Bool.not_eq_true', Bool.or_eq_false_iff, Bool.not_eq_false'] at h
  obtain ⟨base, hbase⟩ := List.isSuffixOf_iff_suffix.mp h.2
  rw [baseOf, String.toList_ofList, Workspace.trimSuffix, if_pos h.2, ← hbase, List.length_append,
    Nat.add_sub_cancel, List.take_left, hbase, String.ofList_toList]

end

private theorem insertionSort_congr {files files' : List String} (h : files.Perm files') :
    files.insertionSort (· ≤ ·) = files'.insertionSort (· ≤ ·) := by
  have hperm := (List.perm_insertionSort (· ≤ ·) files).trans
    (h.trans (List.perm_insertionSort (· ≤ ·) files').symm)
  exact hperm.eq_of_sortedLE List.sortedLE_insertionSort List.sortedLE_insertionSort

/-- Who a key file enrols does not depend on the order of the directory: there is at most one file
for an account, the one of its name where there is such a file, and one for the account of every
usable name. -/
theorem keyFiles_any_order (cfg : Config) (dir : String) {entries order : List DirEntry}
    (hperm : order.Perm entries) :
    cfg.keyFiles dir (.ok order) = cfg.keyFiles dir (.ok entries) ∧
      ∃ files, cfg.keyFiles dir (.ok entries) = .ok files ∧ (files.map (·.account)).Nodup ∧
        (∀ f ∈ files, (∃ e ∈ entries, isKeyFile e = true ∧ e.name = f.file) ∧
          cfg.accountName (baseOf f.file) = .ok f.account) ∧
        ∀ e ∈ entries, isKeyFile e = true →
          (∀ name, cfg.accountName (baseOf e.name) = .ok name →
            ∃ f ∈ files, f.account = name) ∧
          (cfg.accountName (baseOf e.name) = .ok (baseOf e.name) →
            ∀ f ∈ files, f.account = baseOf e.name → f.file = e.name) := by
  have hfiles := (hperm.filter isKeyFile).map (·.name)
  constructor
  · simp only [Config.keyFiles, insertionSort_congr (hfiles.filter _)]
  have hnil : Claimed cfg [] [] := ⟨.nil, List.forall_mem_nil _, List.forall_mem_nil _⟩
  set files := (entries.filter isKeyFile).map (·.name) with hdef
  set exact := (files.filter cfg.isExact).insertionSort (· ≤ ·)
  set folded := (files.filter (!cfg.isExact ·)).insertionSort (· ≤ ·)
  have hexact : Claimed cfg exact (exact.foldl cfg.claim []) := (hnil.foldl exact).1
  obtain ⟨hall, hkept⟩ := hexact.foldl folded
  have hmem : ∀ file, file ∈ exact ++ folded ↔ file ∈ files := by
    intro file
    simp only [exact, folded, List.mem_append, List.mem_insertionSort, List.mem_filter]
    cases cfg.isExact file <;> simp
  have hentry : ∀ file, file ∈ files ↔ ∃ e ∈ entries, isKeyFile e = true ∧ e.name = file := by
    simp [hdef, and_assoc]
  refine ⟨(exact ++ folded).foldl cfg.claim [], rfl, ?_, ?_, ?_⟩
  all_goals rw [List.foldl_append]
  · exact hall.nodup
  · intro f hf
    obtain ⟨hfile, haccount⟩ := hall.from_files f hf
    exact ⟨(hentry _).mp ((hmem _).mp hfile), haccount⟩
  · intro e he hkey
    have hfile : e.name ∈ files := (hentry _).mpr ⟨e, he, hkey, rfl⟩
    refine ⟨hall.all _ ((hmem _).mpr hfile), ?_⟩
    intro hname f hf haccount
    have hin : e.name ∈ exact := by
      rw [List.mem_insertionSort, List.mem_filter]
      exact ⟨hfile, isExact_iff.mpr hname⟩
    -- the file of the name claims among those that go first, and nobody claims it again
    obtain ⟨f', hf', haccount'⟩ := hexact.all _ hin _ hname
    obtain rfl := hall.unique hf (hkept f' hf') (haccount.trans haccount'.symm)
    obtain ⟨hfirst, hfolds⟩ := hexact.from_files f hf'
    rw [List.mem_insertionSort, List.mem_filter] at hfirst
    obtain ⟨e', -, hkey', hfile'⟩ := (hentry _).mp hfirst.1
    have hsame := (isExact_iff.mp hfirst.2).symm.trans hfolds
    rw [haccount, ← hfile'] at hsame
    rw [← hfile', name_eq hkey', Except.ok.inj hsame, ← name_eq hkey]

def asciiOnly : Config where
  lower := Char.toLower
  quote := id
  enrolledDir := "/enrolled"
  admins _ := false

/-- The file of the name is taken, also where another one sorts before it. -/
theorem keyFiles_any_order_folded :
    asciiOnly.keyFiles "/keys" (.ok [⟨"alice.pub", false⟩, ⟨"Alice.pub", false⟩,
        ⟨"Bob.pub", false⟩]) = .ok [⟨"alice.pub", "alice"⟩, ⟨"Bob.pub", "bob"⟩] ∧
      asciiOnly.keyFiles "/keys" (.ok [⟨"Alice.pub", false⟩, ⟨"alice.pub", false⟩,
        ⟨"Bob.pub", false⟩]) = .ok [⟨"alice.pub", "alice"⟩, ⟨"Bob.pub", "bob"⟩] := by
  have hsorted : asciiOnly.keyFiles "/keys" (.ok [⟨"alice.pub", false⟩, ⟨"Alice.pub", false⟩,
      ⟨"Bob.pub", false⟩]) = .ok [⟨"alice.pub", "alice"⟩, ⟨"Bob.pub", "bob"⟩] := by
    decide +kernel
  exact ⟨hsorted, (keyFiles_any_order asciiOnly "/keys" (.swap _ _ _)).1.trans hsorted⟩

end RemoteDocker.Enrol

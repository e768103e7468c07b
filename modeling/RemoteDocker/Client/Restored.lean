import RemoteDocker.Client.Shares

/-!
# A remembered share is restored

What a session records of a directory reads back as the words it was registered with, so the export
derived from them is the one recorded, and the share that is brought back is the one there was. Only
a directory is believed: the record of a single file is dropped.
-/

namespace RemoteDocker.Client

open Base Workspace NfsServe

/-- What a session does to its registry: a mount names both axes of its mode; a share is brought
back with what a record says. -/
inductive Registering where
  | mount (files : Files) (localPath : Text) (read : Read) (write : Write) (w : ShareWords)
  | restore (files : Files) (exportPath : Text) (rec : ShareRecord) (watch : FsWatch.Watch)
    (prefetch : Prefetch)

def registerStep (h : Host) (r : Registry) : Registering → Option Registry
  | .mount files localPath read write w =>
    match r.register h files localPath [] ⟨some read, some write⟩ w with
    | .ok (r', _) => some r'
    | .error _ => some r
  | .restore files exportPath rec watch prefetch =>
    match r.restored h files (normalizeExport exportPath)
        (some (rec.path, rec.mode, restoreDefaults watch prefetch rec.words)) with
    | some (r', _) => some r'
    | none => some r

def registering (h : Host) : Machine Registry Registering := ⟨registerStep h⟩

/-- A mode that is named on both axes, or on neither. -/
def Whole (mode : Mode) : Prop := mode = {} ∨ ∃ read write, mode = ⟨some read, some write⟩

private theorem whole_mode (rec : ShareRecord) : Whole rec.mode := by
  rw [ShareRecord.mode]
  split_ifs
  · exact .inl rfl
  · cases hparse : parseMode ("read=".toList ++ rec.read ++ ",write=".toList ++ rec.write) with
    | error e => exact .inl rfl
    | ok m =>
      obtain ⟨hread, hwrite⟩ := parseMode_both hparse
      obtain ⟨read, hread⟩ := Option.isSome_iff_exists.mp hread
      obtain ⟨write, hwrite⟩ := Option.isSome_iff_exists.mp hwrite
      refine .inr ⟨read, write, ?_⟩
      cases m with
      | mk r w =>
        cases hread
        cases hwrite
        rfl

section

variable {h : Host} {r r' : Registry} {x : Text} {share : Share}

def Modes (r : Registry) : Prop := ∀ x share, r.shares.lookup x = some share → Whole share.mode

private theorem modes_register {files : Files} {localPath recorded : Text} {mode : Mode}
    {w : ShareWords}
    (hmodes : Modes r) (hmode : Whole mode)
    (hreg : r.register h files localPath recorded mode w = .ok (r', share)) : Modes r' := by
  obtain ⟨rfl, hshare⟩ := register_cases hreg
  have hnew : Whole share.mode := by
    rcases hshare with ⟨existing, hlookup, rfl⟩ | ⟨-, kind, -, rfl⟩
    · exact hmodes _ existing hlookup
    · exact hmode
  intro x share' hlookup
  rcases lookup_insert_eq_some.mp hlookup with ⟨-, rfl⟩ | ⟨-, hold⟩
  · exact hnew
  · exact hmodes x share' hold

private theorem sound_step {e : Registering} (hinv : r.Sound h ∧ Modes r)
    (ht : registerStep h r e = some r') : r'.Sound h ∧ Modes r' := by
  cases e with
  | mount files localPath read write w =>
    simp only [registerStep] at ht
    split at ht
    · next r₁ share hreg =>
      cases ht
      have hexport := exportFor_of_modes (h := h) r localPath read write w
      exact ⟨(sound_register hinv.1 hexport hreg).1,
        modes_register hinv.2 (.inr ⟨read, write, rfl⟩) hreg⟩
    · cases ht
      exact hinv
  | restore files exportPath rec watch prefetch =>
    simp only [registerStep] at ht
    split at ht
    · next r₁ share hres =>
      cases ht
      obtain ⟨localPath, mode, w, hanswer, -, hreg⟩ := restored_cases hres
      cases hanswer
      exact ⟨(sound_restored (normalizeExport_ne_nil exportPath) hinv.1 hres).1,
        modes_register hinv.2 (whole_mode rec) hreg⟩
    · cases ht
      exact hinv

private theorem registered_of_run {attrs : Attrs} {es : List Registering}
    (hr : (registering h).run { attrs } es = some r) (hlookup : r.shares.lookup x = some share) :
    Registered h x share ∧ Whole share.mode := by
  have hstart : Registry.Sound h { attrs } ∧ Modes { attrs } := by
    constructor
    · intro x share hnone
      cases hnone
    · intro x share hnone
      cases hnone
  obtain ⟨hsound, hmodes⟩ :=
    (registering h).run_invariant_all (fun _ _ _ hinv ht ↦ sound_step hinv ht) hstart hr
  exact ⟨hsound x share hlookup, hmodes x share hlookup⟩

end

section

variable {h : Host} {x : Text} {share : Share}

private theorem mode_of_text {rec : ShareRecord} {read : Read} {write : Write}
    (hread : rec.read = read.text) (hwrite : rec.write = write.text) :
    rec.mode = ⟨some read, some write⟩ := by
  have hnamed : ¬(read.text = [] ∨ write.text = []) := by
    cases read <;> cases write <;> decide
  rw [ShareRecord.mode, hread, hwrite, if_neg hnamed, parseMode_text]

private theorem mode_recordFor (hwhole : Whole share.mode) (now : Int) :
    (recordFor share now).mode = share.mode := by
  rcases hwhole with hmode | ⟨read, write, hmode⟩
  · rw [ShareRecord.mode, recordFor, hmode]
    rfl
  · rw [hmode]
    apply mode_of_text
    · rw [recordFor, hmode]
      rfl
    · rw [recordFor, hmode]
      rfl

/-- A mask that clears nothing is not recorded, and one that is not recorded is zero. -/
theorem fmask_recorded (m : Mask) :
    (parseFileMask (maskText (some m))).toOption.getD ⟨0⟩ = m := by
  by_cases hzero : m.bits = 0
  · have hnone : (parseFileMask []).toOption = none := by decide +kernel
    rw [maskText, if_pos hzero, hnone, Option.getD_none, ← hzero]
  · rw [maskText, if_neg hzero, parseFileMask_text]
    rfl

private theorem dmask_recorded (m : DirMask) :
    (parseDirMask (maskText (some m.toMask))).toOption.getD ⟨⟨0⟩, rfl⟩ = m := by
  by_cases hzero : m.bits = 0
  · have hnone : (parseDirMask []).toOption = none := by decide +kernel
    rw [maskText, if_pos hzero, hnone, Option.getD_none]
    obtain ⟨⟨bits⟩, enterable⟩ := m
    cases hzero
    rfl
  · rw [maskText, if_neg hzero, parseDirMask_text]
    rfl

variable (hreg : Registered h x share)

include hreg

/-- The words of a record are those of the share, but for a mask of zero. -/
theorem masked_recordFor (now : Int) :
    masked (recordFor share now).words = share.words := by
  obtain ⟨attrs, watch, prefetch, hwords, -⟩ := hreg.words
  rw [hwords]
  simp only [masked, ShareRecord.words, recordFor, hwords, Option.elim_some, Option.map_some,
    parseOwner_text, parseWatch_text, parsePrefetch_text, fmask_recorded, dmask_recorded]
  rfl

/-- The session's defaults change nothing of what is recorded. -/
theorem restoreDefaults_recordFor (now : Int)
    (watch : FsWatch.Watch) (prefetch : Prefetch) :
    restoreDefaults watch prefetch (recordFor share now).words = (recordFor share now).words := by
  obtain ⟨attrs, watch', prefetch', hwords, -⟩ := hreg.words
  simp only [restoreDefaults, ShareRecord.words, recordFor, hwords, Option.elim_some,
    parseWatch_text, parsePrefetch_text]
  rfl

private theorem recordedExport_recordFor (hwhole : Whole share.mode)
    (now : Int) :
    recordedExport h share.localPath (recordFor share now).mode (recordFor share now).words =
      x := by
  have hmasked : ∀ w : ShareWords,
      recordedExport h share.localPath share.mode (masked w) =
        recordedExport h share.localPath share.mode w := fun w ↦ rfl
  rw [mode_recordFor hwhole, ← hmasked, masked_recordFor hreg, hreg.derived]

end

/-- What happens to a session's record, and to the one the next session has of it. -/
inductive Recording where
  | remember (now : Int) (share : Share)
  | touch (now : Int) (exportPath : Text)
  | forget (keep : Text → Bool)
  /-- The process ends, and the next one reads what was saved. -/
  | restart (files : Files) (now : Int)

def recordStep (h : Host) (this : Bound) (s : ShareStore) : Recording → Option ShareStore
  | .remember now share => some (s.remember now share)
  | .touch now exportPath => some (s.touch now exportPath)
  | .forget keep => some (s.forget keep)
  | .restart files now => some (ShareStore.load h files now this (some (s.save this)))

def recording (h : Host) (this : Bound) : Machine ShareStore Recording := ⟨recordStep h this⟩

/-- The record of an export is not older than its limit. -/
def ShareStore.Fresh (s : ShareStore) (now : Int) (x : Text) : Prop :=
  ∀ rec, s.records.lookup x = some rec → rec.lastUsed.all (fun t ↦ now - t ≤ shareUnused) = true

/-- What a share's record outlasts: the export is kept and not remembered as something else, and
when the record is read it is not too old and the path is what it was. -/
def Outlasts (share : Share) (s : ShareStore) : Recording → Prop
  | .remember _ other => other.exportPath = share.exportPath → other = share
  | .touch _ _ => True
  | .forget keep => keep share.exportPath = true
  | .restart files now =>
    files.stat share.localPath = some share.kind ∧ s.Fresh now share.exportPath

/-- The share's record is in the store, whatever its stamp. -/
def Remembers (share : Share) (s : ShareStore) : Prop :=
  ∃ t, s.records.lookup share.exportPath = some { recordFor share 0 with lastUsed := t }

section

variable {h : Host} {this : Bound} {x : Text} {share : Share} {s s' : ShareStore} {files : Files}
  {now : Int}

private theorem lookup_put (rec : ShareRecord) (hx : x = rec.exportPath) :
    (s.put rec).records.lookup x = some rec := by
  subst hx
  exact AList.lookup_insert _

private theorem lookup_put_ne (rec : ShareRecord) (hx : x ≠ rec.exportPath) :
    (s.put rec).records.lookup x = s.records.lookup x :=
  AList.lookup_insert_ne hx

theorem remembers_remember (s : ShareStore) (now : Int) (share : Share) :
    Remembers share (s.remember now share) := by
  fun_cases ShareStore.remember now s share
  · exact ⟨some now, lookup_put _ rfl⟩
  · next next rec hlookup hsame =>
    refine ⟨rec.lastUsed, ?_⟩
    rw [hlookup]
    congr 1
    have hfields : { recordFor share 0 with lastUsed := rec.lastUsed } =
        { ({ rec with lastUsed := next.lastUsed } : ShareRecord) with
          lastUsed := rec.lastUsed } := by
      rw [hsame.1]
      rfl
    exact hfields.symm
  · exact ⟨some now, lookup_put _ rfl⟩

private theorem remembers_remember_ne {other : Share} (hne : share.exportPath ≠ other.exportPath)
    (hin : Remembers share s) : Remembers share (s.remember now other) := by
  obtain ⟨t, ht⟩ := hin
  fun_cases ShareStore.remember now s other
  · exact ⟨t, (lookup_put_ne _ hne).trans ht⟩
  · exact ⟨t, ht⟩
  · exact ⟨t, (lookup_put_ne _ hne).trans ht⟩

private theorem remembers_touch (hin : Remembers share s) (y : Text) :
    Remembers share (s.touch now y) := by
  obtain ⟨t, ht⟩ := hin
  fun_cases ShareStore.touch now s y
  · exact ⟨t, ht⟩
  · next rec hlookup =>
    by_cases hy : share.exportPath = y
    · subst hy
      rw [ht] at hlookup
      cases hlookup
      exact ⟨some now, lookup_put _ rfl⟩
    · have hne :
          share.exportPath ≠ ({ rec with lastUsed := some now } : ShareRecord).exportPath := by
        rw [show ({ rec with lastUsed := some now } : ShareRecord).exportPath = y from
          s.keyed y rec hlookup]
        exact hy
      exact ⟨t, (lookup_put_ne _ hne).trans ht⟩

private theorem remembers_forget {keep : Text → Bool} (hkeep : keep share.exportPath = true)
    (hin : Remembers share s) : Remembers share (s.forget keep) := by
  obtain ⟨t, ht⟩ := hin
  refine ⟨t, ?_⟩
  rw [ShareStore.forget, lookup_restrict, if_pos hkeep, ht]

private theorem lookup_load_save {rec : ShareRecord} :
    (ShareStore.load h files now this (some (s.save this))).records.lookup x = some rec ↔
      s.records.lookup x = some rec ∧ ShareStore.usable h files now rec = true := by
  let saved := (s.save this).shares
  have hperm : saved.Perm (s.records.entries.map (·.2)) := List.perm_insertionSort _ _
  have hkeys : (s.records.entries.map (·.2)).map ShareRecord.exportPath = s.records.keys := by
    rw [List.map_map]
    apply List.map_congr_left
    rintro ⟨y, rec⟩ hmem
    exact s.keyed y rec (AList.mem_lookup_iff.mpr hmem)
  have hnodup : (((saved.filter (ShareStore.usable h files now)).map fun rec ↦
      (rec.exportPath, rec)).map (·.1)).Nodup := by
    have hall : (saved.map ShareRecord.exportPath).Nodup := by
      rw [(hperm.map ShareRecord.exportPath).nodup_iff, hkeys]
      exact s.records.keys_nodup
    rw [List.map_map]
    exact hall.sublist (List.filter_sublist.map _)
  have hload : (ShareStore.load h files now this (some (s.save this))).records =
      tableOf
        ((saved.filter (ShareStore.usable h files now)).map fun rec ↦ (rec.exportPath, rec)) :=
    if_pos rfl
  rw [hload, lookup_tableOf hnodup]
  constructor
  · intro hmem
    obtain ⟨rec', hrec', heq⟩ := List.mem_map.mp hmem
    cases heq
    obtain ⟨hsaved, husable⟩ := List.mem_filter.mp hrec'
    obtain ⟨⟨y, rec⟩, hentry, rfl⟩ := List.mem_map.mp (hperm.mem_iff.mp hsaved)
    have hlookup : s.records.lookup y = some rec := AList.mem_lookup_iff.mpr hentry
    exact ⟨(s.keyed y rec hlookup).symm ▸ hlookup, husable⟩
  · rintro ⟨hlookup, husable⟩
    have hentry : rec ∈ saved :=
      hperm.mem_iff.mpr (List.mem_map.mpr ⟨⟨x, rec⟩, AList.mem_lookup_iff.mp hlookup, rfl⟩)
    exact List.mem_map.mpr
      ⟨rec, List.mem_filter.mpr ⟨hentry, husable⟩, by rw [s.keyed x rec hlookup]⟩

section

variable (hreg : Registered h x share)

include hreg

/-- A share's record holds as long as it is not too old and the directory is there. -/
theorem usable_recordFor {t : Option Int} (hwhole : Whole share.mode)
    (hstat : files.stat share.localPath = some .directory)
    (hfresh : t.all (fun t ↦ now - t ≤ shareUnused) = true) :
    ShareStore.usable h files now { recordFor share 0 with lastUsed := t } = true := by
  have hexport : share.exportPath ≠ [] := by
    rw [hreg.exportPath]
    intro hnil
    have hlength := hreg.isExport.length
    rw [hnil] at hlength
    cases hlength
  have hpath : share.localPath ≠ [] := by
    intro hnil
    rw [hnil, files.nowhere] at hstat
    cases hstat
  have hderived := recordedExport_recordFor hreg hwhole 0
  simp only [ShareStore.usable, Bool.and_eq_true, decide_eq_true_eq]
  exact ⟨⟨⟨⟨hexport, hpath⟩, hreg.exportPath.trans hderived.symm⟩, hfresh⟩, hstat⟩

/-- A record outlasts every event it is said to. -/
theorem remembers_step {e : Recording} (hwhole : Whole share.mode)
    (hdir : share.kind = .directory) (hin : Remembers share s) (hok : Outlasts share s e)
    (ht : recordStep h this s e = some s') : Remembers share s' := by
  cases e with
  | remember now other =>
    cases ht
    by_cases hsame : other.exportPath = share.exportPath
    · rw [hok hsame]
      exact remembers_remember s now share
    · exact remembers_remember_ne (Ne.symm hsame) hin
  | touch now y =>
    cases ht
    exact remembers_touch hin y
  | forget keep =>
    cases ht
    exact remembers_forget hok hin
  | restart files now =>
    cases ht
    obtain ⟨t, hlookup⟩ := hin
    obtain ⟨hstat, hfresh⟩ := hok
    rw [hdir] at hstat
    exact ⟨t, lookup_load_save.mpr
      ⟨hlookup, usable_recordFor hreg hwhole hstat (hfresh _ hlookup)⟩⟩

private theorem share_of_registered (hfile : share.file = []) (attrs : Attrs) :
    attrs.share h .directory share.localPath x share.mode share.words = share := by
  cases share with
  | mk exportPath localPath file mode words fs =>
    obtain ⟨rfl, -, attrs', watch, prefetch, hwords, hfs⟩ := hreg
    simp only at hfile hwords hfs
    subst hfile
    subst hwords
    subst hfs
    rfl

private theorem restored_recordFor {r : Registry} (hwhole : Whole share.mode)
    (hfile : share.file = []) (hstat : files.stat share.localPath = some .directory)
    (hnone : r.shares.lookup x = none) :
    r.restored h files x (some (share.localPath, share.mode, (recordFor share 0).words)) =
      some ({ r with shares := r.shares.insert x share }, share) := by
  have hderived := recordedExport_recordFor hreg hwhole 0
  rw [mode_recordFor hwhole] at hderived
  have hx : x ≠ [] := by
    intro hnil
    have hlength := hreg.isExport.length
    rw [hnil] at hlength
    cases hlength
  have hregister : r.register h files share.localPath x share.mode share.words =
      .ok ({ r with shares := r.shares.insert x share }, share) := by
    have hfor : r.exportFor h share.localPath x share.mode share.words = x := if_neg hx
    rw [register_of_none hstat nofun (hfor.symm ▸ hnone), hfor, share_of_registered hreg hfile]
  simp only [Registry.restored, hderived, ne_eq, not_true_eq_false, if_false,
    masked_recordFor hreg, hregister, hreg.exportPath, if_true]

end

/-- Only a directory is believed. -/
theorem stat_of_restore {path : Text} {mode : Mode} {w : ShareWords}
    (hanswer : (s.restore h files now x).2 = some (path, mode, w)) :
    files.stat path = some .directory := by
  revert hanswer
  fun_cases ShareStore.restore h files now s x <;> intro hanswer
  · cases hanswer
  · next rec hlookup husable =>
    cases hanswer
    simp only [ShareStore.usable, Bool.and_eq_true, decide_eq_true_eq] at husable
    exact husable.2
  · cases hanswer

end

/-- A share that a session registered and remembered is restored just if it is of a directory: the
store of a later session answers with its path, its mode and its words, and the session exports it
as the share it was. -/
theorem remembered_restored {h : Host} {this : Bound} {attrs attrs' : Attrs}
    {es es' : List Registering} {later : List Recording} {r : Registry} {share : Share}
    {s : ShareStore} {session : Session} {files : Files} {now now' : Int}
    (hr : (registering h).run { attrs } es = some r)
    (hshare : r.shares.lookup share.exportPath = some share)
    (hs : (recording h this).run (s.remember now share) later = some session.store)
    (hlater : (recording h this).Within (Outlasts share) (s.remember now share) later)
    (hr' : (registering h).run { attrs := attrs' } es' = some session.registry)
    (hnew : session.registry.shares.lookup share.exportPath = none)
    (hstat : files.stat share.localPath = some share.kind)
    (hfresh : session.store.Fresh now' share.exportPath) :
    ((∃ w, (session.store.restore h files now' share.exportPath).2 =
        some (share.localPath, share.mode, w) ∧ masked w = share.words) ∧
      (session.lookupOrRestore h files now' share.exportPath).2 = some (share, ['/'])) ↔
    share.kind = .directory := by
  constructor
  · rintro ⟨⟨w, hanswer, -⟩, -⟩
    exact Option.some.inj (hstat.symm.trans (stat_of_restore hanswer))
  intro hdir
  obtain ⟨hreg, hwhole⟩ := registered_of_run hr hshare
  have hsound : session.registry.Sound h := fun x other hother ↦ (registered_of_run hr' hother).1
  have hfile : share.file = [] := by
    by_contra hne
    rw [Share.kind, if_neg hne] at hdir
    cases hdir
  rw [hdir] at hstat
  -- The record is still there, and what it says is what the share is.
  obtain ⟨t, hlookup⟩ := (recording h this).run_invariant (Outlasts share)
    (fun _ _ _ hin hok ht ↦ remembers_step hreg hwhole hdir hin hok ht)
    (remembers_remember s now share) hlater hs
  have husable := usable_recordFor hreg hwhole hstat (hfresh _ hlookup)
  have hrestore : (session.store.restore h files now' share.exportPath).2 =
      some (share.localPath, share.mode, (recordFor share 0).words) := by
    unfold ShareStore.restore
    rw [hlookup]
    simp only [if_pos husable]
    rw [← mode_recordFor hwhole 0]
    rfl
  refine ⟨⟨_, hrestore, masked_recordFor hreg 0⟩, ?_⟩
  have hmissing := lookup_eq_none hsound hreg.isExport hnew
  have hback := restored_recordFor hreg hwhole hfile hstat hnew
  unfold Session.lookupOrRestore
  rw [hmissing]
  simp only [normalizeExport_of_isExport hreg.isExport, hrestore, Option.map_some,
    restoreDefaults_recordFor hreg, hback]

/-- A platform of slashes, with a digest that tells nothing apart. -/
def posix : Host where
  goos := .linux
  letters := ⟨id, id⟩
  sha256 _ := Vector.replicate 32 0
  dir _ := ['/']
  base p := p.getLastD '.' :: []
  base_ne _ := List.cons_ne_nil _ _

def onlyPath (kind : Kind) : Files where
  stat p := if p = "/x".toList then some kind else none
  nowhere := rfl

def rootAttrs : Attrs := ⟨⟨0, 0⟩, ⟨0⟩, ⟨⟨0⟩, zero_enterable⟩⟩

def thisMachine : Bound := ⟨1, "here".toList, "me".toList⟩

def emptyStore : ShareStore := ⟨∅, nofun⟩

def shareOf (kind : Kind) : Share :=
  rootAttrs.share posix kind "/x".toList (exportPathForID (posix.digestID [])) defaultMode {}

private theorem run_shareOf (kind : Kind) (hcontent : kind ≠ .special) :
    ∃ r, (registering posix).run { attrs := rootAttrs }
        [.mount (onlyPath kind) "/x".toList .direct .through {}] = some r ∧
      r.shares.lookup (shareOf kind).exportPath = some (shareOf kind) := by
  refine ⟨{ attrs := rootAttrs, shares := AList.insert _ (shareOf kind) ∅ }, ?_,
    AList.lookup_insert _⟩
  cases kind with
  | directory => rfl
  | regular => rfl
  | special => exact absurd rfl hcontent

theorem remembered_restored_directory :
    ∃ (r : Registry) (session : Session), (registering posix).run { attrs := rootAttrs }
        [.mount (onlyPath .directory) "/x".toList .direct .through {}] = some r ∧
      r.shares.lookup (shareOf .directory).exportPath = some (shareOf .directory) ∧
      (recording posix thisMachine).run (emptyStore.remember 0 (shareOf .directory))
        [.restart (onlyPath .directory) 10] = some session.store ∧
      session.registry = { attrs := rootAttrs } ∧
      (session.lookupOrRestore posix (onlyPath .directory) 20
        (shareOf .directory).exportPath).2 = some (shareOf .directory, ['/']) := by
  obtain ⟨r, hr, hshare⟩ := run_shareOf .directory nofun
  have hfresh : ∀ now ≤ 20, ∀ s : ShareStore,
      s.records.lookup (shareOf .directory).exportPath = some (recordFor (shareOf .directory) 0) →
      s.Fresh now (shareOf .directory).exportPath := by
    intro now hnow s hlookup rec hrec
    rw [hlookup] at hrec
    cases hrec
    have hnear : now - 0 ≤ shareUnused := by
      rw [shareUnused]
      omega
    exact decide_eq_true hnear
  have hsaved : (emptyStore.remember 0 (shareOf .directory)).records.lookup
      (shareOf .directory).exportPath = some (recordFor (shareOf .directory) 0) := rfl
  let session : Session :=
    { registry := { attrs := rootAttrs }
      store := ShareStore.load posix (onlyPath .directory) 10 thisMachine
        (some ((emptyStore.remember 0 (shareOf .directory)).save thisMachine)) }
  have hloaded : session.store.records.lookup (shareOf .directory).exportPath =
      some (recordFor (shareOf .directory) 0) :=
    lookup_load_save.mpr ⟨hsaved, by decide +kernel⟩
  refine ⟨r, session, hr, hshare, rfl, rfl, ?_⟩
  have hs : (recording posix thisMachine).run (emptyStore.remember 0 (shareOf .directory))
      [.restart (onlyPath .directory) 10] = some session.store := rfl
  have hr' : (registering posix).run { attrs := rootAttrs } [] = some session.registry := rfl
  have hstat : (onlyPath .directory).stat (shareOf .directory).localPath =
      some (shareOf .directory).kind := rfl
  have hrestored := remembered_restored hr hshare hs
    ⟨⟨rfl, hfresh 10 (by omega) _ hsaved⟩, True.intro⟩
    hr' rfl hstat (hfresh 20 (by omega) _ hloaded)
  exact (hrestored.mpr rfl).2

/-- A single file is registered and remembered, and is not restored, though it is still there. -/
theorem file_not_restored :
    ∃ r, (registering posix).run { attrs := rootAttrs }
        [.mount (onlyPath .regular) "/x".toList .direct .through {}] = some r ∧
      r.shares.lookup (shareOf .regular).exportPath = some (shareOf .regular) ∧
      (onlyPath .regular).stat (shareOf .regular).localPath = some (shareOf .regular).kind ∧
      ((ShareStore.load posix (onlyPath .regular) 10 thisMachine
        (some ((emptyStore.remember 0 (shareOf .regular)).save thisMachine))).restore posix
          (onlyPath .regular) 20 (shareOf .regular).exportPath).2 = none := by
  obtain ⟨r, hr, hshare⟩ := run_shareOf .regular nofun
  refine ⟨r, hr, hshare, by decide +kernel, ?_⟩
  refine Option.eq_none_iff_forall_ne_some.mpr fun answer hanswer ↦ ?_
  have hstat := stat_of_restore hanswer
  simp only [onlyPath] at hstat
  split_ifs at hstat
  cases hstat

end RemoteDocker.Client

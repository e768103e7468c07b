import RemoteDocker.NfsServe.Registry

/-!
# What a workspace was asked to export

`src/client/internal/session/shares.go`. A session records every share it registers, and a later
session may restore an export from the record. A record is read back word by word, and one that
does not parse is left unset. Every entry is checked before it is believed: the export is derived
again from the path and the variant.

Times are seconds. The JSON of the file is taken to be read as it was written.
-/

namespace RemoteDocker.Client

open Base Workspace NfsServe

structure ShareRecord where
  exportPath : Text
  path : Text
  /-- `none` is the zero time. -/
  lastUsed : Option Int := none
  read : Text := []
  write : Text := []
  owner : Text := []
  fmask : Text := []
  dmask : Text := []
  watch : Text := []
  prefetch : Text := []
  deriving DecidableEq

namespace ShareRecord

def mode (rec : ShareRecord) : Mode :=
  if rec.read = [] ∨ rec.write = [] then {}
  else
    match parseMode ("read=".toList ++ rec.read ++ ",write=".toList ++ rec.write) with
    | .ok m => m
    | .error _ => {}

def words (rec : ShareRecord) : ShareWords where
  owner := (parseOwner rec.owner).toOption
  fmask := (parseFileMask rec.fmask).toOption
  dmask := (parseDirMask rec.dmask).toOption
  watch := (parseWatch rec.watch).toOption
  prefetch := (parsePrefetch rec.prefetch).toOption

end ShareRecord

/-- The text of a mask, which is recorded only where it clears something. -/
def maskText (m : Option Mask) : Text :=
  match m with
  | none => []
  | some m => if m.bits = 0 then [] else m.text

def recordFor (share : Share) (now : Int) : ShareRecord where
  exportPath := share.exportPath
  path := share.localPath
  lastUsed := some now
  read := share.mode.read.elim [] Read.text
  write := share.mode.write.elim [] Write.text
  owner := share.words.owner.elim [] Owner.text
  fmask := maskText share.words.fmask
  dmask := maskText (share.words.dmask.map (·.toMask))
  watch := share.words.watch.elim [] watchText
  prefetch := share.words.prefetch.elim [] Prefetch.text

def shareUnused : Int := 30 * 24 * 3600

/-- The machine and the account a record belongs to. -/
structure Bound where
  version : Int
  machine : Text
  user : Text
  deriving DecidableEq

structure ShareFile where
  bound : Bound
  shares : List ShareRecord

/-- The records by the export each is of. -/
structure ShareStore where
  records : AList fun _ : Text ↦ ShareRecord
  keyed : ∀ x rec, records.lookup x = some rec → rec.exportPath = x

namespace ShareStore

variable (h : Host) (files : Files) (now : Int)

def usable (rec : ShareRecord) : Bool :=
  rec.exportPath ≠ [] && rec.path ≠ [] &&
    rec.exportPath = recordedExport h rec.path rec.mode rec.words &&
    rec.lastUsed.all (fun t ↦ now - t ≤ shareUnused) &&
    files.stat rec.path = some .directory

/-- `newShareStore`: the records of a file that is this machine's, as far as each still holds. -/
def load (this : Bound) (file : Option ShareFile) : ShareStore where
  records :=
    match file with
    | none => ∅
    | some file =>
      if file.bound = this then
        tableOf ((file.shares.filter (usable h files now)).map fun rec ↦ (rec.exportPath, rec))
      else ∅
  keyed := by
    intro x rec hlookup
    cases file with
    | none => cases hlookup
    | some file =>
      simp only at hlookup
      split at hlookup
      · obtain ⟨rec', -, heq⟩ := List.mem_map.mp (mem_of_lookup_tableOf hlookup)
        cases heq
        rfl
      · cases hlookup

def save (this : Bound) (s : ShareStore) : ShareFile where
  bound := this
  shares := (s.records.entries.map (·.2)).insertionSort fun a b ↦ a.exportPath ≤ b.exportPath

variable (s : ShareStore)

def put (rec : ShareRecord) : ShareStore where
  records := s.records.insert rec.exportPath rec
  keyed := by
    intro x rec' hlookup
    rcases lookup_insert_eq_some.mp hlookup with ⟨rfl, rfl⟩ | ⟨-, hold⟩
    · rfl
    · exact s.keyed x rec' hold

/-- A record is written again only where it changed, or its stamp is an hour old. -/
def remember (share : Share) : ShareStore :=
  let next := recordFor share now
  match s.records.lookup share.exportPath with
  | none => s.put next
  | some rec =>
    if { rec with lastUsed := next.lastUsed } = next ∧
      rec.lastUsed.any (fun t ↦ now - t ≤ 3600) then s
    else s.put next

def touch (exportPath : Text) : ShareStore :=
  match s.records.lookup exportPath with
  | none => s
  | some rec => s.put { rec with lastUsed := some now }

def restore (exportPath : Text) : ShareStore × Option (Text × Mode × ShareWords) :=
  match s.records.lookup exportPath with
  | none => (s, none)
  | some rec =>
    if usable h files now rec then (s.touch now exportPath, some (rec.path, rec.mode, rec.words))
    else (s, none)

def exports : List Text := s.records.keys.insertionSort (· ≤ ·)

def forget (keep : Text → Bool) : ShareStore where
  records := restrict s.records keep
  keyed := by
    intro x rec hlookup
    rw [lookup_restrict] at hlookup
    split at hlookup
    · exact s.keyed x rec hlookup
    · cases hlookup

end ShareStore

/-- `Session.restoreShare`: what the record does not say is the session's default. -/
def restoreDefaults (watch : FsWatch.Watch) (prefetch : Prefetch) (w : ShareWords) : ShareWords :=
  { w with watch := some (w.watch.getD watch), prefetch := some (w.prefetch.getD prefetch) }

/-- A session, as far as shares go: its registry, its record and its defaults. -/
structure Session where
  registry : Registry
  store : ShareStore
  watch : FsWatch.Watch := .watchOff
  prefetch : Prefetch := .off

/-- `Registry.LookupOrRestore`, with the session's record behind it (`registry.go:285-314`). -/
def Session.lookupOrRestore (h : Host) (files : Files) (now : Int) (s : Session)
    (exportPath : Text) :
    Session × Option (Share × Text) :=
  match s.registry.lookup exportPath with
  | some found => (s, some found)
  | none =>
    let clean := normalizeExport exportPath
    let (store, answer) := s.store.restore h files now clean
    let answer := answer.map fun (path, mode, w) ↦
      (path, mode, restoreDefaults s.watch s.prefetch w)
    match s.registry.restored h files clean answer with
    | none => ({ s with store }, none)
    | some (registry, share) => ({ s with store, registry }, some (share, ['/']))

end RemoteDocker.Client

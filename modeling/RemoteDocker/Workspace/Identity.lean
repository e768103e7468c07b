import RemoteDocker.Base.GoPath
import RemoteDocker.Base.Hex
import RemoteDocker.Workspace.Words

/-!
# What a share is exported as

`src/core/workspace/export.go:33-241`. The id of a share is a digest of its directory and of how it
is mounted, so the same mount has the same export on every run. The digest is left open, and so are
the case tables of the platform.
-/

namespace RemoteDocker.Workspace

open Base FsWatch

structure Host where
  goos : Goos
  letters : CaseTables
  sha256 : Text → Vector UInt8 32
  /-- `filepath.Dir`. -/
  dir : Text → Text
  /-- `filepath.Base`, which is never empty. -/
  base : Text → Text
  base_ne : ∀ p, base p ≠ []

def cutPrefix (start s : Text) : Option Text :=
  if start.isPrefixOf s then some (s.drop start.length) else none

def isDriveLetter (c : Char) : Bool := ('a' ≤ c && c ≤ 'z') || ('A' ≤ c && c ≤ 'Z')

def withoutExtended (p : Text) : Text :=
  match cutPrefix "//?/".toList p with
  | none => p
  | some rest =>
    match cutPrefix "UNC/".toList rest with
    | some unc => '/' :: '/' :: unc
    | none => rest

/-- `canonicalKeyFor`: when two bind sources are the same directory. -/
def Host.canonicalKey (h : Host) (path : Text) : Text :=
  if h.goos ≠ .windows then GoPath.clean path
  else
    let p := withoutExtended (path.map fun c ↦ if c = '\\' then '/' else c)
    let lowered :=
      match cutPrefix "//".toList p with
      | some rest => '/' :: '/' :: (GoPath.clean ('/' :: rest)).drop 1
      | none =>
        match p with
        | d :: ':' :: rest =>
          if isDriveLetter d then
            if rest = [] then [d, ':'] else d :: ':' :: GoPath.clean rest
          else GoPath.clean p
        | _ => GoPath.clean p
    lowered.map h.letters.lower

structure ShareVariant where
  mode : Mode
  owner : Owner
  fmask : Mask
  dmask : DirMask
  deriving DecidableEq

/-- `ShareWords.Variant`. A word that is not set counts as zero. -/
def ShareWords.variant (w : ShareWords) (mode : Mode) : ShareVariant where
  mode := mode
  owner := w.owner.getD ⟨0, 0⟩
  fmask := w.fmask.getD ⟨0⟩
  dmask := w.dmask.getD ⟨⟨0⟩, rfl⟩

def Host.digestID (h : Host) (key : Text) : Text :=
  (Hex.encodeDigits (h.sha256 key).toList).take 16

/-- `ShareIDFor`. A mask counts only where it clears something. -/
def Host.shareIDFor (h : Host) (localPath : Text) (v : ShareVariant) : Text :=
  h.digestID
    (h.canonicalKey localPath ++ '\x00' :: v.mode.read.elim [] Read.text ++
      '\x00' :: v.mode.write.elim [] Write.text ++ '\x00' :: v.owner.text ++
      (if v.fmask.bits ≠ 0 then '\x00' :: 'f' :: v.fmask.text else []) ++
      (if v.dmask.bits ≠ 0 then '\x00' :: 'd' :: v.dmask.text else []))

def Host.legacyShareID (h : Host) (localPath : Text) : Text := h.digestID (h.canonicalKey localPath)

def exportPathForID (id : Text) : Text := '/' :: 'm' :: '/' :: id

/-- An export path: sixteen hexadecimal digits, as they are written. -/
def IsExport (x : Text) : Prop :=
  ∃ bytes : List UInt8, bytes.length = 8 ∧ x = exportPathForID (Hex.encodeDigits bytes)

private theorem isExport_digestID (h : Host) (key : Text) :
    IsExport (exportPathForID (h.digestID key)) := by
  refine ⟨(h.sha256 key).toList.take 8, ?_, ?_⟩
  · rw [List.length_take, Vector.length_toList]
    omega
  · rw [Host.digestID, Hex.take_encodeDigits]

theorem isExport_shareIDFor (h : Host) (localPath : Text) (v : ShareVariant) :
    IsExport (exportPathForID (h.shareIDFor localPath v)) := isExport_digestID h _

theorem isExport_legacyShareID (h : Host) (localPath : Text) :
    IsExport (exportPathForID (h.legacyShareID localPath)) := isExport_digestID h _

namespace IsExport

variable {x : Text}

theorem length (h : IsExport x) : x.length = 19 := by
  obtain ⟨bytes, hlength, rfl⟩ := h
  simp only [exportPathForID, List.length_cons, Hex.length_encodeDigits, hlength]

end IsExport

def trimSuffix (ending s : Text) : Text :=
  if ending.isSuffixOf s then s.take (s.length - ending.length) else s

/-- Sixteen hexadecimal digits. -/
def validShare (share : Text) : Bool := share.length = 16 && (Hex.decodeDigits share).isSome

def validClient (s : Text) : Bool := s.length = 8 && (Hex.decodeDigits s).isSome

/-- The client that created a managed volume and the share it backs. A name from before clients were
named has no client, and a cache volume is its share's. -/
def parseVolumeName (name : Text) : Option (Text × Text) := do
  let rest ← cutPrefix "rd-".toList name
  let rest := trimSuffix "-cache".toList rest
  match rest.dropWhile (· ≠ '-') with
  | [] => if validShare rest then some ([], rest) else none
  | _ :: share =>
    let client := rest.takeWhile (· ≠ '-')
    if validClient client && validShare share then some (client, share) else none

/-- `VolumeNameForID`. -/
def volumeNameForID (client id : Text) : Text :=
  if client = [] then "rd-".toList ++ id else "rd-".toList ++ client ++ '-' :: id

def cacheVolumeName (share : Text) : Text := share ++ "-cache".toList

/-- `parseID`: the id of an export path or of a managed volume. -/
def idOf (s : Text) : Option Text := do
  let id ← cutPrefix "/m/".toList s <|> cutPrefix "rd-".toList s
  if validShare id then some id else none

def volumeNameForExport (client exportPath : Text) : Option Text :=
  (idOf exportPath).map (volumeNameForID client)

def isManagedVolume (name : Text) : Bool := "rd-".toList.isPrefixOf name

def isCacheVolume (name : Text) : Bool := isManagedVolume name && "-cache".toList.isSuffixOf name

end RemoteDocker.Workspace

import RemoteDocker.DirCache.LastWriter
import RemoteDocker.DirCache.Shares

/-!
# Links the consumer makes and deletes

A link is made by a table of its own (`decideLinks`, `src/dircache/replace.go:102-129`), which
looks at the link, and its deletion is decided by the table for files, which looks through it
(`src/dircache/decide.go:289-417`). The disk here is what `os.Root` serves a pass from: a path
is looked up component by component inside the share, a link that leaves the share is an error,
and `Stat` follows a last link where `Lstat` and `Remove` do not.
-/

namespace RemoteDocker.DirCache

open Base

def whyLinkElsewhere : String :=
  "the container made a link here that points elsewhere than yours; yours is kept"

def whyFileForLink : String :=
  "the container made a link where you have a file; your file is kept"

/-- One turn of `decideLinks`. A missing baseline reads as the zero one. -/
def decideLink (manifest : Manifest) (linkAt : SharePath → LinkState) (ch : Change) :
    Option Action :=
  let here := linkAt ch.path
  let base := (manifest.lookup ch.path).getD { size := 0, modTime := zeroTime }
  if ch.link == "" then none
  else if !here.present then
    some { path := ch.path, kind := .link, link := ch.link, linkSeen := here }
  else if here.isLink && here.target == ch.link then none
  else if here.isLink && base == Share.linkBaseline here.target here.modTime &&
      here.modTime != zeroTime then
    some { path := ch.path, kind := .link, link := ch.link, linkSeen := here }
  else if here.isLink then some (Deciding.keep ch.path whyLinkElsewhere)
  else some (Deciding.keep ch.path whyFileForLink)

/-- What to do about the links the consumer made. -/
def decideLinks (manifest : Manifest) (linkAt : SharePath → LinkState) (changes : List Change) :
    List Action :=
  changes.filterMap (decideLink manifest linkAt)

theorem of_decideLink {manifest : Manifest} {linkAt : SharePath → LinkState} {ch : Change}
    {a : Action} (h : decideLink manifest linkAt ch = some a) :
    ch.link ≠ "" ∧ a.path = ch.path ∧ a.takes = false ∧
      (a.kind = .conflict ∨ a.kind = .link ∧ a.link = ch.link) := by
  simp only [decideLink] at h
  split at h
  · simp at h
  · next hlink =>
    have hne : ch.link ≠ "" := by simpa using hlink
    split at h
    · cases h
      exact ⟨hne, rfl, rfl, .inr ⟨rfl, rfl⟩⟩
    · split at h
      · simp at h
      · split at h
        · cases h
          exact ⟨hne, rfl, rfl, .inr ⟨rfl, rfl⟩⟩
        · split at h
          · cases h
            exact ⟨hne, rfl, rfl, .inl rfl⟩
          · cases h
            exact ⟨hne, rfl, rfl, .inl rfl⟩

namespace Deciding

/-- What a round decides: the files and directories, then the links. -/
def decideAll (d : Deciding) (linkAt : SharePath → LinkState) (changes : List Change) :
    List Action :=
  d.decide changes ++ decideLinks d.manifest linkAt changes

/-- What one change comes to, in whichever table it is decided. -/
def decideEach (d : Deciding) (linkAt : SharePath → LinkState) (ch : Change) : Option Action :=
  if ch.link = "" then d.decideChange ch else decideLink d.manifest linkAt ch

variable {d : Deciding} {linkAt : SharePath → LinkState} {changes : List Change} {ch : Change}
  {a : Action}

theorem path_of_decideEach (h : d.decideEach linkAt ch = some a) : a.path = ch.path := by
  rw [decideEach] at h
  split at h
  · exact path_of_decideChange h
  · exact (of_decideLink h).2.1

theorem exists_of_mem_decideAll (h : a ∈ d.decideAll linkAt changes) :
    ∃ ch ∈ changes, ∃ a₀, d.decideEach linkAt ch = some a₀ ∧ a = { a₀ with seen := a.seen } := by
  rw [decideAll, List.mem_append, mem_decide, decideLinks, List.mem_filterMap] at h
  rcases h with ⟨ch, hch, a₀, ha₀, rfl⟩ | ⟨ch, hch, ha⟩
  · have hlink : ch.link = "" := by
      by_contra hne
      simp [decideChange, hne] at ha₀
    refine ⟨ch, hch, a₀, ?_, rfl⟩
    rw [decideEach, if_pos hlink]
    exact ha₀
  · refine ⟨ch, hch, a, ?_, rfl⟩
    rw [decideEach, if_neg (of_decideLink ha).1]
    exact ha

theorem exists_mem_decideAll (hch : ch ∈ changes) (h : d.decideEach linkAt ch = some a) :
    ∃ b ∈ d.decideAll linkAt changes, b = { a with seen := b.seen } := by
  rw [decideEach] at h
  split at h
  · refine ⟨_, List.mem_append_left _ (mem_decide.mpr ⟨ch, hch, a, h, rfl⟩), rfl⟩
  · refine ⟨a, List.mem_append_right _ ?_, rfl⟩
    exact List.mem_filterMap.mpr ⟨ch, hch, h⟩

/-- An action of a round at the path of a change, the only one for that path, is what that
change came to, with what was seen. -/
theorem of_mem_decideAll (hnodup : (changes.map (·.path)).Nodup) (hch : ch ∈ changes)
    (ha : a ∈ d.decideAll linkAt changes) (hpath : a.path = ch.path) :
    ∃ a₀, d.decideEach linkAt ch = some a₀ ∧ a = { a₀ with seen := a.seen } := by
  obtain ⟨c, hc, a₀, ha₀, hsame⟩ := exists_of_mem_decideAll ha
  have hcp : c.path = ch.path := by
    rw [← path_of_decideEach ha₀, ← hpath, hsame]
  have hcc : c = ch := List.inj_on_of_nodup_map hnodup hc hch hcp
  rw [hcc] at ha₀
  exact ⟨a₀, ha₀, hsame⟩

end Deciding

/-- A decision about a share, of what this machine has. -/
def Sight.deciding (here : Sight) (share : Share) (skew margin : Int) (exec : UInt32) :
    Deciding where
  toSight := here
  manifest := share.manifest
  recorded := share.recorded
  skew := skew
  margin := margin
  exec := exec

/-- The target of a link by its components. -/
structure Target where
  absolute : Bool := false
  parts : List String
  deriving DecidableEq, Repr

/-- The target as `Readlink` spells it. -/
def Target.text (t : Target) : String :=
  (if t.absolute then "/" else "") ++ "/".intercalate t.parts

/-- What one name stands for: a file or directory by what is read of it, or a link, whose size
and times are its own. -/
structure DiskNode where
  info : FileInfo
  ctime : Int
  link : Option Target := none
  deriving DecidableEq

/-- The names inside the share, each under the real path of its directory. -/
abbrev Disk := AList fun _ : SharePath ↦ DiskNode

namespace Disk

/-- One pass over the components left, from the real directory `dir`. `onLink` takes over at a
link that is to be followed, with the components of its target in the link's place. -/
def walkParts (disk : Disk) (follow : Bool) (onLink : SharePath → List String → Option SharePath) :
    SharePath → List String → Option SharePath
  | dir, [] => some dir
  | dir, name :: rest =>
    if name = "" ∨ name = "." then walkParts disk follow onLink dir rest
    else if name = ".." then
      -- A parent of the share's root is outside it.
      if dir = [] then none else walkParts disk follow onLink dir.dropLast rest
    else
      match disk.lookup (dir ++ [name]) with
      | none => none
      | some node =>
        match node.link with
        | none =>
          if rest.isEmpty || node.info.isDir then walkParts disk follow onLink (dir ++ [name]) rest
          else none
        | some target =>
          if rest.isEmpty && !follow then some (dir ++ [name])
          else if target.absolute then none
          else onLink dir (target.parts ++ rest)

/-- The real path of a share path, through at most `limit` links. -/
def resolve (disk : Disk) (follow : Bool) : (limit : Nat) → SharePath → List String →
    Option SharePath
  | 0 => disk.walkParts follow fun _ _ ↦ none
  | limit + 1 => disk.walkParts follow (resolve disk follow limit)

variable (limit : Nat) (disk : Disk)

/-- Where `Lstat` and `Remove` find a path: its last name, not followed. -/
def nameOf (p : SharePath) : Option SharePath := disk.resolve false limit [] p

def lstat (p : SharePath) : Option DiskNode := (disk.nameOf limit p).bind disk.lookup

/-- What `Root.Stat` and the change time read, following the last link. -/
def statNode (p : SharePath) : Option DiskNode := (disk.resolve true limit [] p).bind disk.lookup

/-- `localAtRoot`. A link leaving the share reads as absent. -/
def localAt (p : SharePath) : Option FileInfo := (disk.statNode limit p).map (·.info)

/-- `ctimeAtRoot`, where this machine can say. -/
def ctimeAt (p : SharePath) : Option Int := (disk.statNode limit p).map (·.ctime)

def sight : Sight := ⟨disk.localAt limit, disk.ctimeAt limit⟩

/-- A directory has no names in it, which is when it can be removed. -/
def emptyDir (dir : SharePath) : Bool := disk.keys.all fun p ↦ !Decidable.decide (dir.Above p)

/-- Takes out a name, and a directory only while it is empty. -/
def remove (p : SharePath) : Option Disk :=
  (disk.nameOf limit p).bind fun name ↦
    match disk.lookup name with
    | none => none
    | some node =>
      if node.link.isNone && node.info.isDir && !disk.emptyDir name then none
      else some (disk.erase name)

/-- `writePass.remove` on the disk as it is: the disk it leaves, or none where it leaves the
path alone. -/
def passRemove (a : Action) : Option Disk :=
  if a.dir then
    -- `removeDir` looks at the path itself: what is no directory has changed here.
    match disk.lstat limit a.path with
    | none => none
    | some node => if node.link.isNone && node.info.isDir then disk.remove limit a.path else none
  else if stillAsSeen a.seen (disk.lstat limit a.path).isSome (disk.localAt limit a.path)
      (disk.ctimeAt limit a.path) then
    disk.remove limit a.path
  else none

def deciding (share : Share) (skew margin : Int) (exec : UInt32) : Deciding :=
  (disk.sight limit).deciding share skew margin exec

variable {limit disk}

private theorem lstat_eq {p name : SharePath} {node : DiskNode}
    (hname : disk.nameOf limit p = some name) (hnode : disk.lookup name = some node) :
    disk.lstat limit p = some node := by
  rw [lstat, hname, Option.bind_some, hnode]

private theorem remove_link {p name : SharePath} {node : DiskNode} {target : Target}
    (hname : disk.nameOf limit p = some name) (hnode : disk.lookup name = some node)
    (hlink : node.link = some target) : disk.remove limit p = some (disk.erase name) := by
  rw [remove, hname, Option.bind_some, hnode]
  simp [hlink]

private theorem passRemove_dir {a : Action} {name : SharePath} {node : DiskNode} {target : Target}
    (hdir : a.dir = true) (hname : disk.nameOf limit a.path = some name)
    (hnode : disk.lookup name = some node) (hlink : node.link = some target) :
    disk.passRemove limit a = none := by
  rw [passRemove, if_pos hdir, lstat_eq hname hnode]
  simp [hlink]

/-- What is decided about a directory here that the consumer removed is a directory
deletion. -/
theorem dir_of_decideChange {d : Deciding} {ch : Change} {a : Action} {i : FileInfo}
    (h : d.decideChange ch = some a) (hlink : ch.link = "") (hop : ch.isOpaque = false)
    (hdir : ch.dir = false) (hdel : ch.deleted = true) (hi : d.localAt ch.path = some i)
    (hid : i.isDir = true) : a.dir = true := by
  have hdec : (d.decideDirHere ch).action = some a := by
    simpa [Deciding.decideChange, hlink, hop, Deciding.decideFile, hdir, hi, hid] using h
  simp only [Deciding.decideDirHere, hdel, Bool.not_true, Bool.false_eq_true, if_false] at hdec
  split at hdec
  · cases hdec
    rfl
  · simp at hdec
  · simp at hdec

private theorem decideChange_held {d : Deciding} {ch : Change} {i : FileInfo} {b : Baseline}
    (hlink : ch.link = "") (hop : ch.isOpaque = false) (hdir : ch.dir = false)
    (hdel : ch.deleted = true) (hi : d.localAt ch.path = some i) (hid : i.isDir = false)
    (hb : d.manifest.lookup ch.path = some b) (hsize : i.size = b.size)
    (hmod : i.modTime = b.modTime) :
    d.decideChange ch = some { path := ch.path, kind := .delete } ∧
      (d.decideFile ch).read = none := by
  constructor
  · simp [Deciding.decideChange, hlink, hop, Deciding.decideFile, hdir, hi, hid, hdel, hb,
      Deciding.decideHeld, hsize, hmod]
  · simp [Deciding.decideFile, hdir, hi, hid, hdel, hb, Deciding.decideHeld, hsize, hmod]

/-- What a look finds right after a decision that read no change time is what it saw. -/
theorem stillAsSeen_of_seenOf {there : Bool} {info : FileInfo} {ctime : Option Int} :
    stillAsSeen { seenOf (some info) with ctime := none } there (some info) ctime = true := by
  simp [stillAsSeen, seenOf, SeenState.same]

/-- A link that write-back made and nobody touched since goes with the consumer's deletion of
it, whatever its time, exactly when following it finds a file whose size is the length of the
link's target and whose modification time is the link's own: the decision compares the
baseline, which is of the link, with what the link points at. -/
theorem link_deletion_carried_iff (limit : Nat) (disk : Disk) (share : Share) (skew margin : Int)
    (exec : UInt32) (changes : List Change) (ch : Change) (name : SharePath) (node : DiskNode)
    (target : Target) (hch : ch ∈ changes) (honce : ∀ c ∈ changes, c.path = ch.path → c = ch)
    (hdel : ch.deleted = true) (hlink : ch.link = "") (hop : ch.isOpaque = false)
    (hdir : ch.dir = false) (hname : disk.nameOf limit ch.path = some name)
    (hnode : disk.lookup name = some node) (htarget : node.link = some target)
    (hbase : share.manifest.lookup ch.path =
      some (Share.linkBaseline target.text node.info.modTime)) :
    (∃ a ∈ (disk.deciding limit share skew margin exec).decide changes, a.path = ch.path ∧
        a.kind = .delete ∧ disk.passRemove limit a = some (disk.erase name)) ↔
      ∃ info, disk.localAt limit ch.path = some info ∧ info.isDir = false ∧
        info.size = target.text.utf8ByteSize ∧ info.modTime = node.info.modTime := by
  constructor
  · rintro ⟨a, ha, hpath, hkind, hremoved⟩
    obtain ⟨c, hc, a₀, ha₀, rfl⟩ := Deciding.mem_decide.mp ha
    have hcpath : c.path = ch.path := by
      rw [← Deciding.path_of_decideChange ha₀]
      exact hpath
    have hcc : c = ch := honce c hc hcpath
    subst hcc
    have htakes : a₀.takes = true := by
      have hk : a₀.kind = .delete := hkind
      simp [Action.takes, Action.carries, hk]
    have hway := (Deciding.takes_of_decideChange ha₀ htakes).2
    have hk : a₀.kind = .delete := hkind
    rw [hk] at hway
    cases hway with
    | removedDir i hi hid _ _ =>
      -- The link points at a directory: the pass sees a link where it wants a directory.
      have had : a₀.dir = true := dir_of_decideChange ha₀ hlink hop hdir hdel hi hid
      have hnone : ∀ seen, disk.passRemove limit { a₀ with seen := seen } = none := by
        intro seen
        apply passRemove_dir (a := { a₀ with seen := seen }) had _ hnode htarget
        rw [← hname]
        exact congrArg (disk.nameOf limit) hpath
      rw [hnone] at hremoved
      simp at hremoved
    | unheldDeleted i _ _ hsent _ _ =>
      have hsome : share.manifest.lookup c.path = none := hsent
      rw [hbase] at hsome
      simp at hsome
    | heldDeleted i b hi hfile hsent _ hsize hmod =>
      have hb : share.manifest.lookup c.path = some b := hsent
      rw [hbase, Option.some.injEq] at hb
      rw [← hb] at hsize hmod
      exact ⟨i, hi, hfile, hsize, hmod⟩
  · rintro ⟨info, hinfo, hfile, hsize, hmod⟩
    obtain ⟨hdec, hread⟩ := decideChange_held (d := disk.deciding limit share skew margin exec)
      hlink hop hdir hdel hinfo hfile hbase hsize hmod
    refine ⟨_, Deciding.mem_decide.mpr ⟨ch, hch, _, hdec, rfl⟩, rfl, rfl, ?_⟩
    rw [Deciding.seenAt_of_once hch honce hlink hop, hread]
    have hloc : (disk.deciding limit share skew margin exec).localAt ch.path = some info := hinfo
    rw [hloc, passRemove]
    simp only [Bool.false_eq_true, if_false, hinfo, stillAsSeen_of_seenOf, if_true]
    exact remove_link hname hnode htarget

/-- A share with a file, a directory and a link, all of time 5 and changed at 5. -/
def withLink (target : Target) : Disk :=
  ((AList.singleton ["l"] ⟨⟨target.text.utf8ByteSize, 5, 0o777, false⟩, 5, some target⟩).insert
    ["f"] ⟨⟨9, 5, 0o644, false⟩, 5, none⟩).insert ["d"] ⟨⟨4096, 5, 0o755, true⟩, 5, none⟩

def linkShare (target : Target) : Share where
  recorded := {["l"]}
  manifest := AList.singleton ["l"] (Share.linkBaseline target.text 5)

/-- The consumer deletes a link a second after it was made. Whether it points at a file, at a
directory, at nothing or out of the share, the round and its pass leave it. -/
theorem deleted_link_stays :
    (([⟨false, ["f"]⟩, ⟨false, ["d"]⟩, ⟨false, ["gone"]⟩, ⟨true, ["etc"]⟩] : List Target).all
      fun target ↦
        ((withLink target).lstat 8 ["l"]).map (·.link) == some (some target) &&
          (linkShare target).manifest.lookup ["l"] == some (Share.linkBaseline target.text 5) &&
          (((withLink target).deciding 8 (linkShare target) 0 0 0).decide
            [{ path := ["l"], deleted := true, changed := 1000000005 }]).all fun a ↦
              a.kind != .delete || ((withLink target).passRemove 8 a).isNone) = true := by
  decide

/-- A link to a file as long as the target's spelling, and of the same time, does go. -/
theorem link_deletion_carried_iff_nine :
    ∃ a ∈ ((withLink ⟨false, [".", ".", ".", ".", "f"]⟩).deciding 8
        (linkShare ⟨false, [".", ".", ".", ".", "f"]⟩) 0 0 0).decide
          [{ path := ["l"], deleted := true, changed := 1000000005 }],
      a.path = ["l"] ∧ a.kind = .delete ∧
        (withLink ⟨false, [".", ".", ".", ".", "f"]⟩).passRemove 8 a =
          some ((withLink ⟨false, [".", ".", ".", ".", "f"]⟩).erase ["l"]) :=
  (link_deletion_carried_iff 8 (withLink ⟨false, [".", ".", ".", ".", "f"]⟩)
    (linkShare ⟨false, [".", ".", ".", ".", "f"]⟩) 0 0 0
    [{ path := ["l"], deleted := true, changed := 1000000005 }]
    { path := ["l"], deleted := true, changed := 1000000005 } ["l"]
    ⟨⟨9, 5, 0o777, false⟩, 5, some ⟨false, [".", ".", ".", ".", "f"]⟩⟩
    ⟨false, [".", ".", ".", ".", "f"]⟩ (.head _) (by decide) rfl rfl rfl rfl (by decide)
    (by decide) rfl (by decide)).mpr ⟨⟨9, 5, 0o644, false⟩, by decide, rfl, by decide, rfl⟩

end Disk
end RemoteDocker.DirCache

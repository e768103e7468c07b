import RemoteDocker.Client.Restored

/-!
# Garbage collection beside container-create

`src/client/internal/rewrite/gc.go:53-146` beside `src/client/internal/rewrite/rewrite.go:606-682`.
A rewrite registers a share and creates its volume under a guard, and a collection decides about a
volume and deletes it under the same guard. Everything else of a collection is done without it. What
the daemon and the workspace answer is open, so it does not matter when they do; shares are also
registered without the guard, when a mount of an earlier session comes back.
-/

namespace RemoteDocker.Client.Collected

open Base Workspace NfsServe

/-- A volume, with the labels that are read. -/
structure Volume where
  name : Text
  managed : Text
  owner : Text
  client : Text

/-- The `Collector` and the `Rewriter` of a connection. -/
structure Setting where
  owner : Text
  client : Text
  orphans : Bool
  /-- Whether the workspace can be asked which caches are mounted. -/
  caches : Bool
  /-- `supportsSubpath`. -/
  subpath : Bool

namespace Setting

variable (cfg : Setting)

/-- `Collector.ours`. -/
def ours (v : Volume) : Bool :=
  isManagedVolume v.name && v.managed = "share".toList &&
    (cfg.owner = [] || v.owner = cfg.owner) &&
    (cfg.client = [] || v.client = cfg.client || (v.client = [] && cfg.orphans))

/-- `cacheHeld`, with what the workspace answers, if it does. -/
def cacheHeld (mounted : Option (List Text)) (name : Text) : Bool :=
  isCacheVolume name && (!cfg.caches || mounted.all (name ∈ ·))

/-- `exportsVolume`, of a registry. -/
def exportsVolume (r : Registry) (volume : Text) : Bool :=
  r.shares.entries.any fun e ↦
    (volumeNameForExport cfg.client e.2.exportPath).any fun name ↦
      volume = name || volume = cacheVolumeName name

end Setting

/-- Who holds the guard, and how far they are. -/
inductive Holder where
  /-- `volumeFor`. -/
  | mount (localPath : Text) (mode : Mode) (words : ShareWords)
  /-- The share is registered. -/
  | shared (exportPath name : Text) (union : Bool)
  /-- The cache volume of a union is created. -/
  | cached (exportPath cache : Text)
  /-- `Collector.remove`. -/
  | remove (volume : Text)
  /-- It has found that nothing exports the volume. -/
  | deleting (volume : Text)
  deriving DecidableEq

structure State where
  registry : Registry
  guard : Option Holder := none
  /-- The volumes each collection has still to look at, and those that are in use. -/
  collections : AList fun _ : Nat ↦ List Volume × List Text := ∅
  /-- The volumes `volumeFor` has returned, with the export of each. -/
  given : List (Text × Text) := []

inductive Event where
  | mount (localPath : Text) (mode : Mode) (words : ShareWords)
  | share (files : Files)
  | ensure (ok : Bool)
  | prepare (ok : Bool)
  | collect (collection : Nat) (volumes : List Volume) (inUse : List Text)
  | next (collection : Nat) (mounted : Option (List Text))
  | check
  | delete
  /-- A share comes back, without the guard. -/
  | register (files : Files) (localPath recorded : Text) (mode : Mode) (w : ShareWords)

variable (h : Host) (cfg : Setting)

/-- `volumeFor`, after `Share`. -/
def afterShare (share : Share) (union : Bool) : Option Holder :=
  if share.file ≠ [] ∧ (union = true ∨ cfg.subpath = false) then none
  else (volumeNameForExport cfg.client share.exportPath).map (.shared share.exportPath · union)

def step (s : State) : Event → Option State
  | .mount localPath mode words =>
    if s.guard.isSome then none else some { s with guard := some (.mount localPath mode words) }
  | .share files =>
    match s.guard with
    | some (.mount localPath mode words) =>
      match s.registry.register h files localPath [] mode words with
      | .error _ => some { s with guard := none }
      | .ok (registry, share) =>
        some { s with registry, guard := afterShare cfg share mode.union }
    | _ => none
  | .ensure ok =>
    match s.guard with
    | some (.shared exportPath name union) =>
      if !ok then some { s with guard := none }
      else if union then some { s with guard := some (.cached exportPath (cacheVolumeName name)) }
      else some { s with guard := none, given := (name, exportPath) :: s.given }
    | _ => none
  | .prepare ok =>
    match s.guard with
    | some (.cached exportPath cache) =>
      if ok then some { s with guard := none, given := (cache, exportPath) :: s.given }
      else some { s with guard := none }
    | _ => none
  | .collect collection volumes inUse =>
    some { s with collections := s.collections.insert collection (volumes, inUse) }
  | .next collection mounted =>
    match s.collections.lookup collection with
    | some (v :: volumes, inUse) =>
      let s' := { s with collections := s.collections.insert collection (volumes, inUse) }
      if !cfg.ours v || v.name ∈ inUse || cfg.cacheHeld mounted v.name then some s'
      else if s.guard.isSome then none
      else some { s' with guard := some (.remove v.name) }
    | _ => none
  | .check =>
    match s.guard with
    | some (.remove volume) =>
      some { s with guard := if cfg.exportsVolume s.registry volume then none
                             else some (.deleting volume) }
    | _ => none
  | .delete =>
    match s.guard with
    | some (.deleting _) => some { s with guard := none }
    | _ => none
  | .register files localPath recorded mode w =>
    match s.registry.register h files localPath recorded mode w with
    | .error _ => some s
    | .ok (registry, _) => some { s with registry }

def machine : Machine State Event := ⟨step h cfg⟩

/-- The volume is the export's own, or the cache over it. -/
def Backs (client volume exportPath : Text) : Prop :=
  ∃ name, volumeNameForExport client exportPath = some name ∧
    (volume = name ∨ volume = cacheVolumeName name)

/-- What a holder of the guard can rely on. -/
def Holder.Sound (s : State) : Holder → Prop
  | .shared exportPath name _ =>
    exportPath ∈ s.registry.shares ∧ volumeNameForExport cfg.client exportPath = some name
  | .cached exportPath cache =>
    exportPath ∈ s.registry.shares ∧ Backs cfg.client cache exportPath
  | .deleting volume => ∀ exportPath, (volume, exportPath) ∉ s.given
  | _ => True

structure Inv (s : State) : Prop where
  keyed : ∀ x share, s.registry.shares.lookup x = some share → share.exportPath = x
  given : ∀ volume x, (volume, x) ∈ s.given → x ∈ s.registry.shares ∧ Backs cfg.client volume x
  guard : ∀ holder, s.guard = some holder → holder.Sound cfg s

variable {h cfg} {s s' : State}

namespace Inv

/-- The registry grows, and a holder has what it relies on in the new one. -/
theorem grows {registry : Registry} {guard : Option Holder} (hi : Inv cfg s)
    (hkeyed : ∀ x share, registry.shares.lookup x = some share → share.exportPath = x)
    (hmem : ∀ x, x ∈ s.registry.shares → x ∈ registry.shares)
    (hguard : ∀ holder, guard = some holder → holder.Sound cfg { s with registry, guard }) :
    Inv cfg { s with registry, guard } where
  keyed := hkeyed
  given volume x hgiven := ⟨hmem x (hi.given volume x hgiven).1, (hi.given volume x hgiven).2⟩
  guard := hguard

private theorem passes {guard : Option Holder} (hi : Inv cfg s)
    (hguard : ∀ holder, guard = some holder → holder.Sound cfg s) : Inv cfg { s with guard } := by
  refine hi.grows hi.keyed (fun _ hx ↦ hx) ?_
  intro holder hholder
  have hsound := hguard holder hholder
  cases holder <;> exact hsound

private theorem releases (hi : Inv cfg s) : Inv cfg { s with guard := none } := by
  apply hi.passes
  rintro _ ⟨⟩

private theorem gives {volume x : Text} (hi : Inv cfg s) (hx : x ∈ s.registry.shares)
    (hbacks : Backs cfg.client volume x) :
    Inv cfg { s with guard := none, given := (volume, x) :: s.given } where
  keyed := hi.keyed
  given := by
    intro other y hgiven
    rcases List.mem_cons.mp hgiven with heq | hold
    · cases heq
      exact ⟨hx, hbacks⟩
    · exact hi.given other y hold
  guard := by rintro _ ⟨⟩

private theorem share {localPath : Text} {mode : Mode} {words : ShareWords} {files : Files}
    {registry : Registry} {share : Share} (hi : Inv cfg s)
    (hreg : s.registry.register h files localPath [] mode words = .ok (registry, share)) :
    Inv cfg { s with registry, guard := afterShare cfg share mode.union } := by
  refine hi.grows (register_keyed hi.keyed hreg) (fun _ ↦ mem_register hreg) ?_
  intro holder hholder
  rw [afterShare] at hholder
  split at hholder
  · cases hholder
  · obtain ⟨name, hname, rfl⟩ := Option.map_eq_some_iff.mp hholder
    exact ⟨exportPath_mem_register hi.keyed hreg, hname⟩

private theorem register {files : Files} {localPath recorded : Text} {mode : Mode} {w : ShareWords}
    {registry : Registry} {share : Share} (hi : Inv cfg s)
    (hreg : s.registry.register h files localPath recorded mode w = .ok (registry, share)) :
    Inv cfg { s with registry } := by
  refine hi.grows (register_keyed hi.keyed hreg) (fun _ ↦ mem_register hreg) ?_
  intro holder hholder
  have hsound := hi.guard holder hholder
  cases holder with
  | shared exportPath name union => exact ⟨mem_register hreg hsound.1, hsound.2⟩
  | cached exportPath cache => exact ⟨mem_register hreg hsound.1, hsound.2⟩
  | deleting volume => exact hsound
  | mount localPath mode words => exact True.intro
  | remove volume => exact True.intro

/-- A volume that was given is found to be exported. -/
theorem exportsVolume_of_given {volume x : Text} (hi : Inv cfg s) (hgiven : (volume, x) ∈ s.given) :
    cfg.exportsVolume s.registry volume = true := by
  obtain ⟨hx, name, hname, hvolume⟩ := hi.given volume x hgiven
  obtain ⟨share, hshare⟩ := exists_lookup hx
  rw [Setting.exportsVolume, List.any_eq_true]
  refine ⟨⟨x, share⟩, AList.mem_lookup_iff.mp hshare, ?_⟩
  simpa [hi.keyed x share hshare, hname] using hvolume

private theorem step {e : Event} (hi : Inv cfg s) (ht : Collected.step h cfg s e = some s') :
    Inv cfg s' := by
  cases e with
  | mount localPath mode words =>
    simp only [Collected.step] at ht
    split at ht
    · cases ht
    · cases ht
      apply hi.passes
      rintro _ ⟨⟩
      exact True.intro
  | share files =>
    simp only [Collected.step] at ht
    split at ht
    · split at ht
      · cases ht
        exact hi.releases
      · next hreg =>
        cases ht
        exact hi.share hreg
    · cases ht
  | ensure ok =>
    simp only [Collected.step] at ht
    split at ht
    · next exportPath name union hguard =>
      obtain ⟨hx, hname⟩ := hi.guard _ hguard
      split_ifs at ht
      · cases ht
        exact hi.releases
      · cases ht
        apply hi.passes
        rintro _ ⟨⟩
        exact ⟨hx, name, hname, Or.inr rfl⟩
      · cases ht
        exact hi.gives hx ⟨name, hname, Or.inl rfl⟩
    · cases ht
  | prepare ok =>
    simp only [Collected.step] at ht
    split at ht
    · next exportPath cache hguard =>
      obtain ⟨hx, hbacks⟩ := hi.guard _ hguard
      split_ifs at ht
      · cases ht
        exact hi.gives hx hbacks
      · cases ht
        exact hi.releases
    · cases ht
  | collect collection volumes inUse =>
    cases ht
    exact ⟨hi.keyed, hi.given, hi.guard⟩
  | next collection mounted =>
    simp only [Collected.step] at ht
    split at ht
    · split_ifs at ht
      · cases ht
        exact ⟨hi.keyed, hi.given, hi.guard⟩
      · cases ht
        refine ⟨hi.keyed, hi.given, ?_⟩
        rintro _ ⟨⟩
        exact True.intro
    · cases ht
  | check =>
    simp only [Collected.step] at ht
    split at ht
    · next volume hguard =>
      cases ht
      apply hi.passes
      intro holder hholder
      split at hholder
      · cases hholder
      · next hexports =>
        cases hholder
        intro x hgiven
        exact hexports (hi.exportsVolume_of_given hgiven)
    · cases ht
  | delete =>
    simp only [Collected.step] at ht
    split at ht
    · cases ht
      exact hi.releases
    · cases ht
  | register files localPath recorded mode w =>
    simp only [Collected.step] at ht
    split at ht
    · cases ht
      exact hi
    · next hreg =>
      cases ht
      exact hi.register hreg

end Inv

/-- The share of a volume that was given stays exported, and no collection is about to delete the
volume, whatever the daemon and the workspace answer. -/
theorem given_not_collected {r : Registry} {es : List Event}
    (hkeyed : ∀ x share, r.shares.lookup x = some share → share.exportPath = x)
    (hr : (machine h cfg).run { registry := r } es = some s) :
    ∀ volume x, (volume, x) ∈ s.given →
      x ∈ s.registry.shares ∧ s.guard ≠ some (.deleting volume) := by
  have hinv : Inv cfg s := by
    apply (machine h cfg).run_invariant_all (fun _ _ _ hi ht ↦ hi.step ht) _ hr
    exact ⟨hkeyed, nofun, by rintro _ ⟨⟩⟩
  intro volume x hgiven
  exact ⟨(hinv.given volume x hgiven).1, fun hdeleting ↦ hinv.guard _ hdeleting x hgiven⟩

/-! ### A collection beside a mount -/

def thisClient : Setting :=
  { owner := [], client := [], orphans := false, caches := false, subpath := true }

def volumeX : Text := (volumeNameForExport [] (shareOf .directory).exportPath).getD []

/-- A volume that no share backs is deleted, and the one a mount was given is not, though the daemon
lists both as unused. -/
def collectsBoth : List Event :=
  [.mount "/x".toList defaultMode {}, .share (onlyPath .directory), .ensure true,
    .collect 0 [⟨volumeX, "share".toList, [], []⟩, ⟨"rd-y".toList, "share".toList, [], []⟩] [],
    .next 0 none, .check, .next 0 none, .check]

theorem given_not_collected_beside :
    ∃ s, (machine posix thisClient).run { registry := { attrs := rootAttrs } } collectsBoth =
      some s ∧
      s.guard = some (.deleting "rd-y".toList) ∧ s.guard ≠ some (.deleting volumeX) := by
  obtain ⟨s, hr, hguard, hgiven⟩ : ∃ s, (machine posix thisClient).run
      { registry := { attrs := rootAttrs } } collectsBoth = some s ∧
      s.guard = some (.deleting "rd-y".toList) ∧ volumeX ∈ s.given.map (·.1) := by
    decide +kernel
  obtain ⟨⟨volume, x⟩, hmem, hvolume⟩ := List.mem_map.mp hgiven
  cases hvolume
  exact ⟨s, hr, hguard, (given_not_collected (by rintro _ _ ⟨⟩) hr _ _ hmem).2⟩

end RemoteDocker.Client.Collected

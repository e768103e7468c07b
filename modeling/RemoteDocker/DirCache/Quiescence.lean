import RemoteDocker.DirCache.Links

/-!
# Write-back reaches quiescence

One round decides (`decide` and `decideLinks`), its pass carries the actions out and commits
each (`src/dircache/writepass.go:72-109,414-427`), and the next round decides the same changes
on the disk and the share that leaves. What landing an action means for the disk is assumed,
path by path (`LandsAt`); what it means for the manifest and the record is the source's own
`rebase` and `editRecord`.
-/

namespace RemoteDocker.DirCache

open Base

/-- What `moving` counts: the action changes something here. -/
def Action.moving (a : Action) : Bool := a.kind != .adopt && (a.kind != .conflict || a.wins)

/-- What this machine has at every path, as `Stat`, the change time and `Lstat` answer. A path
that is there has its directories. -/
structure View extends Sight where
  linkAt : SharePath → LinkState
  above : ∀ p d : SharePath, d ≠ [] → d.Above p → (localAt p).isSome → (localAt d).isSome

namespace View

def decideRound (view : View) (share : Share) (skew margin : Int) (exec : UInt32)
    (changes : List Change) : List Action :=
  (view.deciding share skew margin exec).decideAll view.linkAt changes

def decideOne (view : View) (share : Share) (skew margin : Int) (exec : UInt32) (ch : Change) :
    Option Action :=
  (view.deciding share skew margin exec).decideEach view.linkAt ch

/-- The modification time `Lstat` reads, for a link's baseline. -/
def lstat (view : View) (p : SharePath) : Option Int :=
  if (view.linkAt p).present then some (view.linkAt p).modTime else none

/-- What the pass commits for an action that landed: the baseline both sides now agree on and
the record. A directory and a mode need neither, and a version kept changes neither. -/
def commitAction (view : View) (s : Share) (a : Action) : Share :=
  if a.kind == .delete && !a.dir then
    (s.rebase view.localAt view.lstat [a]).editRecord {a.path} false
  else if a.kind == .link || a.kind == .adopt || a.fetches then
    (s.rebase view.localAt view.lstat [a]).editRecord {a.path} true
  else s

/-- The share once every action has landed and was committed. -/
def committed (view : View) (s : Share) (acts : List Action) : Share :=
  acts.foldl view.commitAction s

end View

/-! ### What landing leaves on the disk -/

/-- The change time of a touched path is no earlier than the consumer's, less the skew. -/
def TimeMoved (skew : Int) (view' : View) (ch : Change) : Prop :=
  ∀ ours, view'.ctimeAt ch.path = some ours → ch.changed - skew ≤ ours

/-- What the landings leave at a path none of them is for. -/
inductive Stays (skew : Int) (view view' : View) (ch : Change) : Prop where
  /-- Nothing touched it. -/
  | untouched (hlocal : view'.localAt ch.path = view.localAt ch.path)
      (hctime : view'.ctimeAt ch.path = view.ctimeAt ch.path)
      (hlink : view'.linkAt ch.path = view.linkAt ch.path)
  /-- A directory that something landed under, perhaps made for it. -/
  | directory (i : FileInfo) (hi : view'.localAt ch.path = some i) (hdir : i.isDir = true)
      (htime : TimeMoved skew view' ch) (hlink : (view'.linkAt ch.path).present = true)
      (hno : (view'.linkAt ch.path).isLink = false)
  /-- A file touched under another of its names, as a hard link is. -/
  | otherName (i i' : FileInfo) (hi : view.localAt ch.path = some i)
      (hi' : view'.localAt ch.path = some i') (hsize : i'.size = i.size)
      (hmod : i'.modTime = i.modTime) (hdir : i'.isDir = i.isDir)
      (htime : TimeMoved skew view' ch)
      (hknown : (view'.ctimeAt ch.path).isSome = (view.ctimeAt ch.path).isSome)
      (hlater : ∀ c c', view.ctimeAt ch.path = some c → view'.ctimeAt ch.path = some c' → c ≤ c')
      (hlink : view'.linkAt ch.path = view.linkAt ch.path)

/-- What a change's decision leaves at its path once it has landed. The bytes written and the
bit asked for play no part in what is decided next. -/
inductive LandsAt (skew : Int) (view view' : View) (ch : Change) : Option Action → Prop where
  | fetched (a : Action) (i : FileInfo) (hk : a.fetches = true)
      (hi : view'.localAt ch.path = some i) (hfile : i.isDir = false) (hsize : i.size = ch.size)
      (htime : TimeMoved skew view' ch) : LandsAt skew view view' ch (some a)
  | removed (a : Action) (hk : a.kind = .delete) (hgone : view'.localAt ch.path = none) :
      LandsAt skew view view' ch (some a)
  /-- What was removed is a directory again, made for what landed under it. -/
  | remade (a : Action) (i : FileInfo) (hk : a.kind = .delete)
      (hi : view'.localAt ch.path = some i) (hdir : i.isDir = true)
      (htime : TimeMoved skew view' ch) : LandsAt skew view view' ch (some a)
  | linked (a : Action) (hk : a.kind = .link) (hpresent : (view'.linkAt ch.path).present = true)
      (hlink : (view'.linkAt ch.path).isLink = true)
      (htarget : (view'.linkAt ch.path).target = a.link) : LandsAt skew view view' ch (some a)
  | made (a : Action) (i : FileInfo) (hk : a.kind = .mkdir)
      (hi : view'.localAt ch.path = some i) (hdir : i.isDir = true) :
      LandsAt skew view view' ch (some a)
  | chmodded (a : Action) (i i' : FileInfo) (hk : a.kind = .chmod)
      (hi : view.localAt ch.path = some i) (hi' : view'.localAt ch.path = some i')
      (hsize : i'.size = i.size) (hmod : i'.modTime = i.modTime) (hfile : i'.isDir = i.isDir)
      (htime : TimeMoved skew view' ch) : LandsAt skew view view' ch (some a)
  | stays (act : Option Action) (hk : ∀ a, act = some a → a.moving = false)
      (hs : Stays skew view view' ch) : LandsAt skew view view' ch act

/-! ### What is committed -/

namespace View

variable {view : View} {s : Share} {a : Action} {acts : List Action} {p : SharePath}

private theorem commitAction_eq_self (hm : a.moving = false) (ha : a.kind ≠ .adopt) :
    view.commitAction s a = s := by
  simp only [Action.moving, Bool.and_eq_false_iff, bne_eq_false_iff_eq, Bool.or_eq_false_iff] at hm
  obtain ⟨hk, hw⟩ := hm.resolve_left ha
  simp [commitAction, Action.fetches, hk, hw]

private theorem lookup_commitAction_ne (h : p ≠ a.path) :
    (view.commitAction s a).manifest.lookup p = s.manifest.lookup p := by
  simp only [commitAction]
  split
  · rw [Share.lookup_editRecord_false, if_neg, Share.lookup_rebase_of_ne h]
    rw [Finset.mem_singleton]
    exact fun hp ↦ h hp.1
  · split
    · rw [Share.manifest_editRecord_true, Share.lookup_rebase_of_ne h]
    · rfl

private theorem mem_recorded_commitAction (h : p ∈ s.recorded)
    (hd : a.path = p → a.kind ≠ .delete) :
    p ∈ (view.commitAction s a).recorded := by
  simp only [commitAction]
  split
  · next hk =>
    have hdel : a.kind = .delete := by
      rw [Bool.and_eq_true, beq_iff_eq] at hk
      exact hk.1
    rw [Share.recorded_editRecord_false, Finset.mem_sdiff, Finset.mem_singleton]
    exact ⟨h, fun hp ↦ hd hp.symm hdel⟩
  · split
    · rw [Share.recorded_editRecord_true]
      exact Finset.mem_union_left _ h
    · exact h

private theorem lookup_commitAction_self {i : FileInfo} (hk : a.kind = .adopt ∨ a.fetches = true)
    (hi : view.localAt a.path = some i) :
    (view.commitAction s a).manifest.lookup a.path =
      some { size := i.size, modTime := i.modTime, consumer := a.consumer } := by
  have hnot : (a.kind == .delete && !a.dir) = false := by
    rcases hk with hk | hk
    · simp [hk]
    · have hkind : a.kind = .write ∨ a.kind = .conflict ∧ a.wins = true := by
        simpa [Action.fetches] using hk
      rcases hkind with hkind | hkind
      · simp [hkind]
      · simp [hkind.1]
  have hadd : (a.kind == .link || a.kind == .adopt || a.fetches) = true := by
    rcases hk with hk | hk
    · simp [hk]
    · simp [hk]
  rw [commitAction, hnot, if_neg Bool.false_ne_true, if_pos hadd, Share.manifest_editRecord_true]
  rcases hk with hk | hk
  · simp [Share.rebase, Share.rebaseAction, hk, Share.baselineOf, hi]
  · exact Share.lookup_rebase_of_fetches hk hi

private theorem lookup_committed_of_stays
    (h : ∀ a ∈ acts, a.path = p → a.moving = false ∧ a.kind ≠ .adopt) :
    (view.committed s acts).manifest.lookup p = s.manifest.lookup p := by
  induction acts generalizing s with
  | nil => rfl
  | cons a acts ih =>
    have hrest := ih (s := view.commitAction s a) fun b hb ↦ h b (.tail _ hb)
    rw [committed, List.foldl_cons]
    rw [committed] at hrest
    rw [hrest]
    by_cases hp : p = a.path
    · obtain ⟨hm, ha⟩ := h a (.head _) hp.symm
      rw [commitAction_eq_self hm ha]
    · exact lookup_commitAction_ne hp

private theorem lookup_committed_of_mem {i : FileInfo} {consumer : Int}
    (hi : view.localAt p = some i)
    (hall : ∀ a ∈ acts, a.path = p → (a.kind = .adopt ∨ a.fetches = true) ∧ a.consumer = consumer)
    (hex : ∃ a ∈ acts, a.path = p) :
    (view.committed s acts).manifest.lookup p =
      some { size := i.size, modTime := i.modTime, consumer := consumer } := by
  -- The last action for the path decides, so the induction is from the end.
  induction acts using List.reverseRecOn with
  | nil => simp at hex
  | append_singleton acts a ih =>
    rw [committed, List.foldl_append, List.foldl_cons, List.foldl_nil]
    by_cases hp : a.path = p
    · obtain ⟨hk, hc⟩ := hall a (by simp) hp
      rw [← hc]
      subst hp
      exact lookup_commitAction_self hk hi
    · rw [lookup_commitAction_ne (Ne.symm hp)]
      apply ih
      · exact fun b hb ↦ hall b (List.mem_append_left _ hb)
      · obtain ⟨b, hb, hbp⟩ := hex
        rcases List.mem_append.mp hb with hb | hb
        · exact ⟨b, hb, hbp⟩
        · rw [List.mem_singleton.mp hb] at hbp
          exact absurd hbp hp

private theorem mem_recorded_committed (h : p ∈ s.recorded)
    (hd : ∀ a ∈ acts, a.path = p → a.kind ≠ .delete) : p ∈ (view.committed s acts).recorded := by
  induction acts generalizing s with
  | nil => exact h
  | cons a acts ih =>
    apply ih
    · exact mem_recorded_commitAction h (hd a (.head _))
    · exact fun b hb ↦ hd b (.tail _ hb)

end View

/-! ### When nothing more is taken -/

namespace Deciding

variable {d : Deciding} {ch : Change} {k : Kind}

private theorem not_later {theirs lead : Int} {p : SharePath}
    (h : ∀ ours, d.ctimeAt p = some ours → theirs - d.skew ≤ ours) (hlead : 0 ≤ lead) :
    ¬ d.Later p theirs lead := by
  rintro ⟨-, ours, hours, hlt⟩
  have := h ours hours
  omega

private theorem not_takes_of_gone (hi : d.localAt ch.path = none) (hdel : ch.deleted = true) :
    ¬ Takes d ch k := by
  intro h
  cases h with
  | removedDir i hi' | execBit i hi' | unheldDeleted i hi' | unheldWritten i hi'
  | heldDeleted i _ hi' | heldWritten i _ hi' | heldBoth i _ hi' =>
    rw [hi] at hi'
    simp at hi'
  | newFile _ _ hkept | heldGone _ _ _ hkept =>
    rw [hdel] at hkept
    simp at hkept

/-- Nothing is taken from a directory here that changed no earlier than the consumer removed
it. -/
theorem not_takes_of_dir {i : FileInfo} (hi : d.localAt ch.path = some i) (hdir : i.isDir = true)
    (hlate : ¬ d.Later ch.path ch.changed d.margin) : ¬ Takes d ch k := by
  intro h
  cases h with
  | removedDir _ _ _ _ hl => exact hlate hl
  | newFile hgone | heldGone _ hgone =>
    rw [hi] at hgone
    simp at hgone
  | execBit j hj hfile | unheldDeleted j hj hfile | unheldWritten j hj hfile
  | heldDeleted j _ hj hfile | heldWritten j _ hj hfile | heldBoth j _ hj hfile =>
    rw [hi, Option.some.injEq] at hj
    rw [← hj, hdir] at hfile
    simp at hfile

private theorem not_takes_of_copy {i : FileInfo} (hi : d.localAt ch.path = some i)
    (hkept : ch.deleted = false) (hsame : sameContent ch i = true)
    (hexec : execFlip ch (some i) d.exec = 0 ∨ ¬ d.Later ch.path ch.changed d.margin) :
    ¬ Takes d ch k := by
  intro h
  cases h with
  | removedDir _ _ _ hdel | unheldDeleted _ _ _ _ hdel | heldDeleted _ _ _ _ _ hdel =>
    rw [hkept] at hdel
    simp at hdel
  | execBit j hj _ _ _ hflip hlate =>
    rw [hi, Option.some.injEq] at hj
    rw [← hj] at hflip
    exact hexec.elim hflip fun hno ↦ hno hlate
  | newFile hgone | heldGone _ hgone =>
    rw [hi] at hgone
    simp at hgone
  | unheldWritten j hj _ _ _ hdiff | heldWritten j _ hj _ _ _ hdiff
  | heldBoth j _ hj _ _ _ hdiff =>
    rw [hi, Option.some.injEq] at hj
    rw [← hj, hsame] at hdiff
    simp at hdiff

/-- Nothing is taken from the version a baseline carries, but for the execute bit of a copy. -/
theorem not_takes_of_carried {i : FileInfo} {b : Baseline} (hi : d.localAt ch.path = some i)
    (hkept : ch.deleted = false) (hb : d.manifest.lookup ch.path = some b)
    (hcarries : b.carries ch = true)
    (hlate : ¬ d.Later ch.path ch.changed d.margin) : ¬ Takes d ch k := by
  by_cases hsame : sameContent ch i = true
  · exact not_takes_of_copy hi hkept hsame (.inr hlate)
  · intro h
    cases h with
    | removedDir _ _ _ hdel | unheldDeleted _ _ _ _ hdel | heldDeleted _ _ _ _ _ hdel =>
      rw [hkept] at hdel
      simp at hdel
    | execBit _ _ _ _ _ _ hl => exact hlate hl
    | newFile hgone | heldGone _ hgone =>
      rw [hi] at hgone
      simp at hgone
    | unheldWritten _ _ _ hsent =>
      rw [hb] at hsent
      simp at hsent
    | heldWritten _ b' _ _ hsent _ _ hnew | heldBoth _ b' _ _ hsent _ _ hnew =>
      rw [hb, Option.some.injEq] at hsent
      rw [← hsent, hcarries] at hnew
      simp at hnew

private theorem sameContent_congr {i i' : FileInfo} (hsize : i'.size = i.size)
    (hmod : i'.modTime = i.modTime) : sameContent ch i' = sameContent ch i := by
  rw [sameContent, sameContent, hsize, hmod]

/-- Who wins a file both sides changed does not turn to the consumer when only the change
time here has moved on. -/
theorem heldWins_back {d' : Deciding} {i i' : FileInfo} (hmod : i'.modTime = i.modTime)
    (hskew : d'.skew = d.skew)
    (hknown : (d'.ctimeAt ch.path).isSome = (d.ctimeAt ch.path).isSome)
    (htime : ∀ ours, d'.ctimeAt ch.path = some ours → ch.changed - d'.skew ≤ ours)
    (h : d'.heldWins ch i' = true) : d.heldWins ch i = true := by
  simp only [heldWins] at h ⊢
  by_cases hz : ch.changed = 0
  · simp only [lastWriter, hz, beq_self_eq_true, if_true] at h ⊢
    rw [← hmod, ← hskew]
    exact h
  · cases hc' : d'.ctimeAt ch.path with
    | some ours =>
      have hlt := htime ours hc'
      simp only [lastWriter, beq_iff_eq, hz, if_false, hc', Option.map_some, consumerLater,
        decide_eq_true_eq] at h
      omega
    | none =>
      have hc : d.ctimeAt ch.path = none := by
        rw [hc', Option.isSome_none] at hknown
        exact Option.isSome_eq_false_iff.mp hknown.symm |> Option.isNone_iff_eq_none.mp
      simp only [lastWriter, beq_iff_eq, hz, if_false, hc', hc, Option.map_none] at h ⊢
      rw [← hmod, ← hskew]
      exact h

end Deciding

/-- The two rounds of one share decide against the same clock and bits. -/
structure SameRules (d d' : Deciding) : Prop where
  skew : d'.skew = d.skew
  margin : d'.margin = d.margin
  exec : d'.exec = d.exec

namespace Deciding

variable {d d' : Deciding} {ch : Change} {k : Kind}

/-- What would be taken from a path whose file has only moved on in its change time was there to
be taken before. -/
theorem takes_back {i i' : FileInfo} (hsame : SameRules d d') (hmargin : 0 ≤ d.margin)
    (hi : d.localAt ch.path = some i) (hi' : d'.localAt ch.path = some i')
    (hsize : i'.size = i.size) (hmod : i'.modTime = i.modTime) (hdir : i'.isDir = i.isDir)
    (hbase : d'.manifest.lookup ch.path = d.manifest.lookup ch.path)
    (htime : ∀ ours, d'.ctimeAt ch.path = some ours → ch.changed - d.skew ≤ ours)
    (hknown : (d'.ctimeAt ch.path).isSome = (d.ctimeAt ch.path).isSome)
    (hlater : ∀ c c', d.ctimeAt ch.path = some c → d'.ctimeAt ch.path = some c' → c ≤ c')
    (h : Takes d' ch k) : ∃ k', Takes d ch k' := by
  have hno : ¬ d'.Later ch.path ch.changed d'.margin := by
    apply not_later
    · rw [hsame.skew]
      exact htime
    · rw [hsame.margin]
      exact hmargin
  cases h with
  | removedDir _ _ _ _ hl | execBit _ _ _ _ _ _ hl | unheldDeleted _ _ _ _ _ hl =>
    exact absurd hl hno
  | newFile hgone | heldGone _ hgone =>
    rw [hi'] at hgone
    simp at hgone
  | unheldWritten j hj hfile hsent hkept hdiff hl =>
    rw [hi', Option.some.injEq] at hj
    subst hj
    refine ⟨.write, .unheldWritten i hi (hdir ▸ hfile) (hbase ▸ hsent)
      hkept (sameContent_congr hsize hmod ▸ hdiff) ?_⟩
    -- An older consumer's write goes by its modification time, against a time that only moved on.
    by_cases hz : ch.changed = 0
    · obtain ⟨hne, ours', hours', hlt⟩ := hl
      have hsome : (d.ctimeAt ch.path).isSome = true := by
        rw [← hknown, hours', Option.isSome_some]
      obtain ⟨ours, hours⟩ := Option.isSome_iff_exists.mp hsome
      have hle := hlater ours ours' hours hours'
      refine ⟨hne, ours, hours, ?_⟩
      rw [← hsame.skew, ← hsame.margin]
      omega
    · have hchanged : ch.writtenAt = ch.changed := by simp [Change.writtenAt, hz]
      rw [hchanged] at hl
      exact absurd hl hno
  | heldDeleted j b hj hfile hsent hdel hbs hbm =>
    rw [hi', Option.some.injEq] at hj
    subst hj
    exact ⟨.delete, .heldDeleted i b hi (hdir ▸ hfile) (hbase ▸ hsent)
      hdel (hsize ▸ hbs) (hmod ▸ hbm)⟩
  | heldWritten j b hj hfile hsent hkept hdiff hnew hbs hbm =>
    rw [hi', Option.some.injEq] at hj
    subst hj
    exact ⟨.write, .heldWritten i b hi (hdir ▸ hfile) (hbase ▸ hsent)
      hkept (sameContent_congr hsize hmod ▸ hdiff) hnew (hsize ▸ hbs)
      (hmod ▸ hbm)⟩
  | heldBoth j b hj hfile hsent hkept hdiff hnew hyou hwins =>
    rw [hi', Option.some.injEq] at hj
    subst hj
    refine ⟨.conflict, .heldBoth i b hi (hdir ▸ hfile)
      (hbase ▸ hsent) hkept (sameContent_congr hsize hmod ▸ hdiff)
      hnew (by rw [← hsize, ← hmod]; exact hyou) ?_⟩
    apply heldWins_back hmod hsame.skew hknown _ hwins
    rw [hsame.skew]
    exact htime

/-- What would be taken from a path that nothing touched was there to be taken before. -/
theorem takes_of_untouched (hsame : SameRules d d')
    (hlocal : d'.localAt ch.path = d.localAt ch.path)
    (hctime : d'.ctimeAt ch.path = d.ctimeAt ch.path)
    (hbase : d'.manifest.lookup ch.path = d.manifest.lookup ch.path)
    (hrec : ch.path ∈ d.recorded → ch.path ∈ d'.recorded) (h : Takes d' ch k) : Takes d ch k := by
  have hlast : ∀ theirs lead, d'.Later ch.path theirs lead → d.Later ch.path theirs lead := by
    intro theirs lead
    rw [Later, Later, hctime, hsame.skew]
    exact id
  cases h with
  | removedDir i hi hdir hdel hl =>
    exact .removedDir i (hlocal ▸ hi) hdir hdel (hlast _ _ (hsame.margin ▸ hl))
  | execBit i hi hfile hkept hcopy hflip hl =>
    exact .execBit i (hlocal ▸ hi) hfile hkept hcopy (hsame.exec ▸ hflip)
      (hlast _ _ (hsame.margin ▸ hl))
  | newFile hgone hsent hkept hnot =>
    exact .newFile (hlocal ▸ hgone) (hbase ▸ hsent) hkept fun h ↦ hnot (hrec h)
  | unheldDeleted i hi hfile hsent hdel hl =>
    exact .unheldDeleted i (hlocal ▸ hi) hfile (hbase ▸ hsent) hdel (hlast _ _ (hsame.margin ▸ hl))
  | unheldWritten i hi hfile hsent hkept hdiff hl =>
    exact .unheldWritten i (hlocal ▸ hi) hfile (hbase ▸ hsent) hkept hdiff
      (hlast _ _ (hsame.margin ▸ hl))
  | heldDeleted i b hi hfile hsent hdel hsize hmod =>
    exact .heldDeleted i b (hlocal ▸ hi) hfile (hbase ▸ hsent) hdel hsize hmod
  | heldWritten i b hi hfile hsent hkept hdiff hnew hsize hmod =>
    exact .heldWritten i b (hlocal ▸ hi) hfile (hbase ▸ hsent) hkept hdiff hnew hsize hmod
  | heldGone b hgone hsent hkept hnew =>
    exact .heldGone b (hlocal ▸ hgone) (hbase ▸ hsent) hkept hnew
  | heldBoth i b hi hfile hsent hkept hdiff hnew hyou hwins =>
    refine .heldBoth i b (hlocal ▸ hi) hfile (hbase ▸ hsent) hkept hdiff hnew hyou ?_
    have hw : d.heldWins ch i = d'.heldWins ch i := by
      simp only [heldWins, lastWriter, hctime, hsame.skew]
    rw [hw]
    exact hwins

/-! ### What a decision is, by its kind -/

/-- Everything a decision about a file or directory can be: it takes the file here, keeps it,
makes a directory that is missing here and was not held, or adopts a copy. -/
inductive Decided (d : Deciding) (ch : Change) (a : Action) : Prop where
  | taken (ht : a.takes = true) (hc : a.fetches = true → a.consumer = ch.modTime)
  | kept (hk : a.kind = .conflict) (hw : a.wins = false)
  | made (hk : a.kind = .mkdir) (hi : d.localAt ch.path = none) (hheld : d.held ch.path = false)
      (hdir : ch.dir = true ∨ ch.isOpaque = true)
  | adopted (i : FileInfo) (hk : a.kind = .adopt) (hi : d.localAt ch.path = some i)
      (hkept : ch.deleted = false) (hsame : sameContent ch i = true)
      (hflip : execFlip ch (some i) d.exec = 0)

variable {a : Action}

private theorem decided_decideDir (hdir : ch.dir = true)
    (h : (d.decideDir ch.path (d.localAt ch.path)).action = some a) : Decided d ch a := by
  cases hi : d.localAt ch.path with
  | none =>
    rw [hi, decideDir] at h
    split at h
    · simp at h
    · next hheld =>
      cases h
      exact .made rfl hi (by simpa using hheld) (.inl hdir)
  | some i =>
    rw [hi, decideDir] at h
    split at h
    · simp at h
    · cases h
      exact .kept rfl rfl

private theorem decided_decideDirHere (h : (d.decideDirHere ch).action = some a) :
    Decided d ch a := by
  revert h
  fun_cases decideDirHere d ch <;> rintro ⟨⟩
  · exact .kept rfl rfl
  · exact .taken rfl fun hf ↦ by simp [Action.fetches] at hf

private theorem decided_decideCopy {i : FileInfo} (hi : d.localAt ch.path = some i)
    (hkept : ch.deleted = false) (hsame : sameContent ch i = true)
    (h : (d.decideCopy ch (some i)).action = some a) : Decided d ch a := by
  revert h
  fun_cases decideCopy d ch (some i) <;> rintro ⟨⟩
  · exact .kept rfl rfl
  · exact .taken rfl fun hf ↦ by simp [Action.fetches] at hf
  · exact .kept rfl rfl
  · next hflip _ => exact .adopted i rfl hi hkept hsame (by simpa using hflip)

private theorem decided_decideUnheld (h : (d.decideUnheld ch (d.localAt ch.path)).action = some a) :
    Decided d ch a := by
  revert h
  fun_cases decideUnheld d ch (d.localAt ch.path) <;> rintro ⟨⟩
  · exact .taken rfl fun _ ↦ rfl
  · exact .kept rfl rfl
  · exact .kept rfl rfl
  · exact .taken rfl fun hf ↦ by simp [Action.fetches] at hf
  · exact .kept rfl rfl
  · exact .kept rfl rfl
  · exact .taken rfl fun _ ↦ rfl
  · exact .kept rfl rfl

private theorem decided_decideHeld {b : Baseline}
    (h : (d.decideHeld ch b (d.localAt ch.path)).action = some a) : Decided d ch a := by
  cases hi : d.localAt ch.path with
  | none =>
    simp only [hi, decideHeld, Option.isNone_none, if_true, Bool.not_true, Bool.false_eq_true,
      if_false] at h
    split at h
    · simp at h
    · cases h
      exact .taken rfl fun _ ↦ rfl
  | some i =>
    simp only [hi, decideHeld, Option.isNone_some, Bool.false_eq_true, if_false] at h
    split at h
    · split at h
      · cases h
        exact .kept rfl rfl
      · cases h
        exact .taken rfl fun hf ↦ by simp [Action.fetches] at hf
    · split at h
      · cases h
        exact .taken rfl fun _ ↦ rfl
      · cases h
        cases hw : d.heldWins ch i with
        | true => exact .taken (by simp [Action.takes, Action.carries, Action.fetches]) fun _ ↦ rfl
        | false => exact .kept rfl rfl

private theorem decided_of_decideChange (h : d.decideChange ch = some a) : Decided d ch a := by
  revert h
  fun_cases decideChange d ch
  case case2 hop hmk =>
    rintro ⟨⟩
    rw [Bool.and_eq_true, Option.isNone_iff_eq_none, Bool.not_eq_true'] at hmk
    exact .made rfl hmk.1 hmk.2 (.inr hop)
  case case4 =>
    fun_cases decideFile d ch <;> intro h
    case case1 hdir => exact decided_decideDir hdir h
    case case2 => exact decided_decideDirHere h
    case case3 hsame =>
      rw [Bool.and_eq_true, Bool.not_eq_true', Option.any_eq_true] at hsame
      obtain ⟨hkept, i, hi, hsame⟩ := hsame
      rw [hi] at h
      exact decided_decideCopy hi hkept hsame h
    case case4 => cases h
    case case5 => exact decided_decideUnheld h
    case case6 => exact decided_decideHeld h
  all_goals simp

/-- No link is made for a file or directory, and a directory only for one. -/
theorem kind_of_decideChange (h : d.decideChange ch = some a) :
    a.kind ≠ .link ∧ (a.kind = .mkdir → ch.dir = true ∨ ch.isOpaque = true) := by
  cases decided_of_decideChange h with
  | taken ht =>
    constructor <;> rintro hk <;> simp [Action.takes, Action.carries, Action.fetches, hk] at ht
  | kept hk | adopted _ hk => simp [hk]
  | made hk _ _ hdir => simp [hk, hdir]

private theorem decideChange_of_missing (hlink : ch.link = "") (hi : d.localAt ch.path = none)
    (hheld : d.held ch.path = false) (hdir : ch.dir = true ∨ ch.isOpaque = true) :
    d.decideChange ch = some { path := ch.path, kind := .mkdir } := by
  by_cases hop : ch.isOpaque = true
  · simp [decideChange, hlink, hop, hi, hheld]
  · have hd : ch.dir = true := hdir.resolve_right hop
    simp [decideChange, hlink, hop, decideFile, hd, hi, decideDir, hheld]

end Deciding

/-! ### Two rounds over one share -/

namespace View

variable {view view' : View} {share : Share} {skew margin : Int} {exec : UInt32}
  {changes : List Change} {ch : Change} {a : Action}

private theorem decideOne_file (hlink : ch.link = "") : view.decideOne share skew margin exec ch =
    (view.deciding share skew margin exec).decideChange ch := by
  rw [decideOne, Deciding.decideEach, if_pos hlink]

private theorem decideOne_link (hlink : ch.link ≠ "") : view.decideOne share skew margin exec ch =
    decideLink share.manifest view.linkAt ch := by
  rw [decideOne, Deciding.decideEach, if_neg hlink]
  rfl

/-- What was seen of an action does not tell whether it moves anything. -/
theorem moving_of_eq {a₀ : Action} (h : a = { a₀ with seen := a.seen }) : a.moving = a₀.moving := by
  rw [h]
  rfl

private theorem moving_of_takes (h : a.takes = true) : a.moving = true := by
  cases hk : a.kind <;>
    simp_all [Action.takes, Action.carries, Action.fetches, Action.moving]

private theorem lookup_of_quiet (view' : View) {acts : List Action}
    (hnodup : (changes.map (·.path)).Nodup)
    (hacts : acts.Perm (view.decideRound share skew margin exec changes)) (hch : ch ∈ changes)
    (hq : ∀ a, view.decideOne share skew margin exec ch = some a →
      a.moving = false ∧ a.kind ≠ .adopt) :
    (view'.committed share acts).manifest.lookup ch.path = share.manifest.lookup ch.path := by
  apply lookup_committed_of_stays
  intro a ha hpath
  obtain ⟨a₀, ha₀, hsame⟩ := Deciding.of_mem_decideAll hnodup hch (hacts.mem_iff.mp ha) hpath
  obtain ⟨hm, hk⟩ := hq a₀ ha₀
  rw [moving_of_eq hsame, hsame]
  exact ⟨hm, hk⟩

private theorem lookup_of_agreed {acts : List Action} {i : FileInfo}
    (hnodup : (changes.map (·.path)).Nodup)
    (hacts : acts.Perm (view.decideRound share skew margin exec changes)) (hch : ch ∈ changes)
    (ha : view.decideOne share skew margin exec ch = some a)
    (hk : a.kind = .adopt ∨ a.fetches = true) (hi : view'.localAt ch.path = some i) :
    (view'.committed share acts).manifest.lookup ch.path =
      some { size := i.size, modTime := i.modTime, consumer := a.consumer } := by
  apply lookup_committed_of_mem hi
  · intro b hb hpath
    obtain ⟨a₀, ha₀, hsame⟩ := Deciding.of_mem_decideAll hnodup hch (hacts.mem_iff.mp hb) hpath
    have hsome : a = a₀ := Option.some.inj (ha.symm.trans ha₀)
    rw [hsame, ← hsome]
    exact ⟨hk, rfl⟩
  · obtain ⟨b, hb, hsame⟩ := Deciding.exists_mem_decideAll hch ha
    refine ⟨b, hacts.mem_iff.mpr hb, ?_⟩
    rw [hsame, ← Deciding.path_of_decideEach ha]

private theorem takes_of_decideOne (hlink : ch.link = "")
    (ha : view.decideOne share skew margin exec ch = some a) (ht : a.takes = true) :
    Deciding.Takes (view.deciding share skew margin exec) ch a.kind := by
  rw [decideOne_file hlink] at ha
  exact (Deciding.takes_of_decideChange ha ht).2

private theorem takes_of_delete (hk : a.kind = .delete) : a.takes = true := by
  simp [Action.takes, Action.carries, hk]

private theorem isSome_of_delete (ha : view.decideOne share skew margin exec ch = some a)
    (hk : a.kind = .delete) : (view.localAt ch.path).isSome := by
  by_cases hlink : ch.link = ""
  · have hway := takes_of_decideOne hlink ha (takes_of_delete hk)
    rw [hk] at hway
    cases hway with
    | removedDir i hi | unheldDeleted i hi | heldDeleted i _ hi =>
      exact Option.isSome_of_eq_some hi
  · rw [decideOne_link hlink] at ha
    have hno := (of_decideLink ha).2.2.1
    rw [takes_of_delete hk] at hno
    cases hno

private theorem recorded_of_gone {acts : List Action} {p : SharePath}
    (hacts : acts.Perm (view.decideRound share skew margin exec changes))
    (hp : p ∈ share.recorded) (hgone : view.localAt p = none) :
    p ∈ (view'.committed share acts).recorded := by
  apply mem_recorded_committed hp
  intro a ha hpath hk
  obtain ⟨c, hc, a₀, ha₀, hsame⟩ := Deciding.exists_of_mem_decideAll (hacts.mem_iff.mp ha)
  have hk₀ : a₀.kind = .delete := by
    rw [hsame] at hk
    exact hk
  have hsome := isSome_of_delete ha₀ hk₀
  have hcp : c.path = p := by
    rw [← Deciding.path_of_decideEach ha₀, ← hpath, hsame]
  rw [hcp, hgone] at hsome
  simp at hsome

/-- A directory that is not here stays held: nothing under it is here to be deleted. -/
theorem held_of_gone {acts : List Action} {p : SharePath}
    (hacts : acts.Perm (view.decideRound share skew margin exec changes))
    (hgone : view.localAt p = none)
    (hheld : (view.deciding share skew margin exec).held p = true) :
    (view'.deciding (view'.committed share acts) skew margin exec).held p = true := by
  rw [Deciding.held, Bool.and_eq_true, bne_iff_ne, decide_eq_true_eq] at hheld ⊢
  obtain ⟨hne, r, hr, hunder⟩ := hheld
  refine ⟨hne, r, ?_, hunder⟩
  apply recorded_of_gone hacts hr
  by_contra hsome
  rw [← ne_eq, Option.ne_none_iff_isSome] at hsome
  rcases SharePath.atOrUnder_iff.mp hunder with rfl | habove
  · rw [hgone] at hsome
    simp at hsome
  · have hdir := view.above r p hne habove hsome
    rw [hgone] at hdir
    simp at hdir

private theorem of_fetches (hlink : ch.link = "")
    (ha : view.decideOne share skew margin exec ch = some a) (hf : a.fetches = true) :
    ch.deleted = false ∧ a.consumer = ch.modTime := by
  constructor
  · have hway := takes_of_decideOne hlink ha (by simp [Action.takes, Action.carries, hf])
    generalize hk : a.kind = k at hway
    cases hway with
    | removedDir | unheldDeleted | heldDeleted | execBit => simp [Action.fetches, hk] at hf
    | newFile _ _ hkept | unheldWritten _ _ _ _ hkept | heldWritten _ _ _ _ _ hkept
    | heldGone _ _ _ hkept | heldBoth _ _ _ _ _ hkept => exact hkept
  · rw [decideOne_file hlink] at ha
    cases Deciding.decided_of_decideChange ha with
    | taken _ hc => exact hc hf
    | kept hk hw => simp [Action.fetches, hk, hw] at hf
    | made hk | adopted _ hk => simp [Action.fetches, hk] at hf

private theorem of_chmod (hlink : ch.link = "")
    (ha : view.decideOne share skew margin exec ch = some a)
    (hk : a.kind = .chmod) :
    ∃ i, view.localAt ch.path = some i ∧ ch.deleted = false ∧ sameContent ch i = true := by
  have hway := takes_of_decideOne hlink ha (by simp [Action.takes, hk])
  rw [hk] at hway
  cases hway with
  | execBit i hi _ hkept hsame => exact ⟨i, hi, hkept, hsame⟩

private theorem of_delete (hlink : ch.link = "")
    (ha : view.decideOne share skew margin exec ch = some a)
    (hk : a.kind = .delete) : ch.deleted = true := by
  have hway := takes_of_decideOne hlink ha (takes_of_delete hk)
  rw [hk] at hway
  cases hway with
  | removedDir _ _ _ hdel | unheldDeleted _ _ _ _ hdel | heldDeleted _ _ _ _ _ hdel => exact hdel

variable {acts : List Action} (hnodup : (changes.map (·.path)).Nodup)
  (hacts : acts.Perm (view.decideRound share skew margin exec changes)) (hch : ch ∈ changes)
  (hland : LandsAt skew view view' ch (view.decideOne share skew margin exec ch))

include hnodup hacts hch hland

private theorem quiet_link
    (h : decideLink (view'.committed share acts).manifest view'.linkAt ch = some a) :
    a.moving = false := by
  obtain ⟨hlink, -, -, hk | ⟨hk, -⟩⟩ := of_decideLink h
  · have htakes := (of_decideLink h).2.2.1
    simpa [Action.moving, Action.takes, Action.carries, Action.fetches, hk] using htakes
  · exfalso
    have hone : view.decideOne share skew margin exec ch =
        decideLink share.manifest view.linkAt ch := decideOne_link hlink
    generalize hact : view.decideOne share skew margin exec ch = act at hland
    rw [hone] at hact
    cases hland with
    | fetched b _ hb =>
      have htakes := (of_decideLink hact).2.2.1
      rw [Action.takes, Action.carries, hb] at htakes
      simp at htakes
    | removed b hb | remade b _ hb | made b _ hb | chmodded b _ _ hb =>
      have hkind := (of_decideLink hact).2.2.2
      simp [hb] at hkind
    | linked b hb hpresent hislink htarget =>
      -- The link is there as the consumer made it.
      have hsame : b.link = ch.link := by
        rcases (of_decideLink hact).2.2.2 with hkind | ⟨-, heq⟩
        · rw [hb] at hkind
          simp at hkind
        · exact heq
      rw [hsame] at htarget
      simp [decideLink, hlink, hpresent, hislink, htarget] at h
    | stays _ hq hs =>
      have hquiet : ∀ b, view.decideOne share skew margin exec ch = some b →
          b.moving = false ∧ b.kind ≠ .adopt := by
        intro b hb
        rw [hone, hact] at hb
        refine ⟨hq b hb, ?_⟩
        rw [hb] at hact
        rcases (of_decideLink hact).2.2.2 with hkind | ⟨hkind, -⟩
        · simp [hkind]
        · simp [hkind]
      have hbase := lookup_of_quiet view' hnodup hacts hch hquiet
      cases hs with
      | untouched _ _ hl | otherName _ _ _ _ _ _ _ _ _ _ hl =>
        have hagain : decideLink (view'.committed share acts).manifest view'.linkAt ch =
            decideLink share.manifest view.linkAt ch := by
          simp only [decideLink, hbase, hl]
        rw [hagain, hact] at h
        have := hq a h
        simp [Action.moving, hk] at this
      | directory _ _ _ _ hpresent hno =>
        simp only [decideLink, hpresent, hno] at h
        simp [hlink] at h
        rw [← h] at hk
        simp [Deciding.keep] at hk

omit hland in
/-- What is still to be taken at a path that stayed as it was would have been taken already. -/
theorem quiet_stays {k : Kind} (hmargin : 0 ≤ margin) (hlink : ch.link = "")
    (hop : ch.isOpaque = false) (hdir : ch.dir = false)
    (hq : ∀ b, view.decideOne share skew margin exec ch = some b → b.moving = false)
    (hs : Stays skew view view' ch) :
    ¬ Deciding.Takes (view'.deciding (view'.committed share acts) skew margin exec) ch k := by
  have hone : view.decideOne share skew margin exec ch =
      (view.deciding share skew margin exec).decideChange ch := decideOne_file hlink
  have hnone : ∀ k', ¬ Deciding.Takes (view.deciding share skew margin exec) ch k' := by
    intro k' hway
    obtain ⟨b, hb, htakes, -⟩ := Deciding.decideChange_of_takes hlink hop hdir hway
    have hstill := hq b (hone.trans hb)
    rw [moving_of_takes htakes] at hstill
    simp at hstill
  have hsame : SameRules (view.deciding share skew margin exec)
      (view'.deciding (view'.committed share acts) skew margin exec) := ⟨rfl, rfl, rfl⟩
  have hnot : TimeMoved skew view' ch →
      ¬ (view'.deciding (view'.committed share acts) skew margin exec).Later ch.path ch.changed
        margin := fun htime ↦ Deciding.not_later htime hmargin
  by_cases hadopt : ∃ b, view.decideOne share skew margin exec ch = some b ∧ b.kind = .adopt
  · -- A copy: all that could be taken of it is the execute bit, which is as it was.
    obtain ⟨b, hb, hk⟩ := hadopt
    rw [hone] at hb
    cases Deciding.decided_of_decideChange hb with
    | taken htakes => simp [Action.takes, Action.carries, Action.fetches, hk] at htakes
    | kept hkind | made hkind =>
      rw [hk] at hkind
      simp at hkind
    | adopted i _ hi hkept hcopy hflip =>
      cases hs with
      | untouched hlocal =>
        exact Deciding.not_takes_of_copy (hlocal.trans hi) hkept hcopy (.inl hflip)
      | directory _ hi' hisdir htime => exact Deciding.not_takes_of_dir hi' hisdir (hnot htime)
      | otherName j j' hj hj' hsize hmod _ htime =>
        have hij : i = j := Option.some.inj (hi.symm.trans hj)
        rw [hij, ← Deciding.sameContent_congr hsize hmod] at hcopy
        exact Deciding.not_takes_of_copy hj' hkept hcopy (.inr (hnot htime))
  · have hbase := lookup_of_quiet view' hnodup hacts hch fun b hb ↦
      ⟨hq b hb, fun hk ↦ hadopt ⟨b, hb, hk⟩⟩
    intro hway
    cases hs with
    | untouched hlocal hctime =>
      refine hnone k (Deciding.takes_of_untouched hsame hlocal hctime hbase ?_ hway)
      intro hrec
      apply mem_recorded_committed hrec
      intro b hb hpath hk
      obtain ⟨b₀, hb₀, heq⟩ := Deciding.of_mem_decideAll hnodup hch (hacts.mem_iff.mp hb) hpath
      have hstill := hq b₀ hb₀
      rw [← moving_of_eq heq] at hstill
      simp [Action.moving, hk] at hstill
    | directory _ hi' hisdir htime =>
      exact Deciding.not_takes_of_dir hi' hisdir (hnot htime) hway
    | otherName i i' hi hi' hsize hmod hisdir htime hknown hlater =>
      obtain ⟨k', hbefore⟩ := Deciding.takes_back hsame hmargin hi hi' hsize hmod hisdir hbase htime
        hknown hlater hway
      exact hnone k' hbefore

private theorem quiet_file {k : Kind} (hmod : ch.modTime ≠ 0) (hmargin : 0 ≤ margin)
    (hlink : ch.link = "")
    (hop : ch.isOpaque = false) (hdir : ch.dir = false) :
    ¬ Deciding.Takes (view'.deciding (view'.committed share acts) skew margin exec) ch k := by
  have hnot : TimeMoved skew view' ch →
      ¬ (view'.deciding (view'.committed share acts) skew margin exec).Later ch.path ch.changed
        margin := fun htime ↦ Deciding.not_later htime hmargin
  generalize hact : view.decideOne share skew margin exec ch = act at hland
  cases hland with
  | fetched b i hb hi _ hsize htime =>
    obtain ⟨hkept, hconsumer⟩ := of_fetches hlink hact hb
    have hbase := lookup_of_agreed hnodup hacts hch hact (.inr hb) hi
    refine Deciding.not_takes_of_carried hi hkept hbase ?_ (hnot htime)
    simp [Baseline.carries, hsize, hconsumer, hmod]
  | removed b hb hgone => exact Deciding.not_takes_of_gone hgone (of_delete hlink hact hb)
  | remade b i hb hi hisdir htime => exact Deciding.not_takes_of_dir hi hisdir (hnot htime)
  | linked b hb =>
    rw [decideOne_file hlink] at hact
    exact absurd hb (Deciding.kind_of_decideChange hact).1
  | made b i hb =>
    rw [decideOne_file hlink] at hact
    have hmade := (Deciding.kind_of_decideChange hact).2 hb
    simp [hop, hdir] at hmade
  | chmodded b i i' hb hi hi' hsize hmtime _ htime =>
    obtain ⟨j, hj, hkept, hcopy⟩ := of_chmod hlink hact hb
    have hij : j = i := Option.some.inj (hj.symm.trans hi)
    rw [hij, ← Deciding.sameContent_congr hsize hmtime] at hcopy
    exact Deciding.not_takes_of_copy hi' hkept hcopy (.inr (hnot htime))
  | stays _ hq hs =>
    apply quiet_stays hnodup hacts hch hmargin hlink hop hdir _ hs
    rw [hact]
    exact hq

omit hnodup hch in
/-- No directory is made again: one that stayed away was held before, and still is. -/
theorem quiet_mkdir (hlink : ch.link = "") (hdir : ch.dir = true ∨ ch.isOpaque = true)
    (hgone : view'.localAt ch.path = none) :
    (view'.deciding (view'.committed share acts) skew margin exec).held ch.path = true := by
  generalize hact : view.decideOne share skew margin exec ch = act at hland
  rw [decideOne_file hlink] at hact
  cases hland with
  | fetched _ _ _ hi | remade _ _ _ hi | made _ _ _ hi | chmodded _ _ _ _ _ hi =>
    rw [hgone] at hi
    simp at hi
  | removed b hb =>
    obtain ⟨-, hop, hno⟩ := (Deciding.takes_of_decideChange hact (takes_of_delete hb)).1
    simp [hop, hno] at hdir
  | linked b hb => exact absurd hb (Deciding.kind_of_decideChange hact).1
  | stays _ hq hs =>
    cases hs with
    | directory _ hi | otherName _ _ _ hi =>
      rw [hgone] at hi
      simp at hi
    | untouched hlocal =>
      have hbefore : view.localAt ch.path = none := hlocal.symm.trans hgone
      apply held_of_gone hacts hbefore
      by_contra hheld
      rw [Bool.not_eq_true] at hheld
      have hmade := Deciding.decideChange_of_missing hlink hbefore hheld hdir
      have hstill := hq _ (hact.symm.trans hmade)
      simp [Action.moving] at hstill

end View

section

variable {view view' : View} {share : Share} {skew margin : Int} {exec : UInt32}
  {changes : List Change} {acts : List Action}

/-- Once everything a round decided has landed and was committed, deciding the same changes
again moves nothing. -/
theorem quiescent_after_round (hnodup : (changes.map (·.path)).Nodup)
    (hmod : ∀ ch ∈ changes, ch.modTime ≠ 0) (hmargin : 0 ≤ margin)
    (hacts : acts.Perm (view.decideRound share skew margin exec changes))
    (hland : ∀ ch ∈ changes,
      LandsAt skew view view' ch (view.decideOne share skew margin exec ch)) :
    ∀ a ∈ view'.decideRound (view'.committed share acts) skew margin exec changes,
      a.moving = false := by
  intro a ha
  obtain ⟨ch, hch, a₀, ha₀, hsame⟩ := Deciding.exists_of_mem_decideAll ha
  rw [View.moving_of_eq hsame]
  by_cases hlink : ch.link = ""
  · rw [Deciding.decideEach, if_pos hlink] at ha₀
    cases Deciding.decided_of_decideChange ha₀ with
    | taken htakes =>
      obtain ⟨⟨-, hop, hdir⟩, hway⟩ := Deciding.takes_of_decideChange ha₀ htakes
      have hquiet := View.quiet_file (k := a₀.kind) hnodup hacts hch (hland ch hch) (hmod ch hch)
        hmargin hlink hop hdir
      exact absurd hway hquiet
    | kept hk hw => simp [Action.moving, hk, hw]
    | made _ hgone hheld hdir =>
      have hstill := View.quiet_mkdir hacts (hland ch hch) hlink hdir hgone
      rw [hheld] at hstill
      simp at hstill
    | adopted _ hk => simp [Action.moving, hk]
  · rw [Deciding.decideEach, if_neg hlink] at ha₀
    exact View.quiet_link hnodup hacts hch (hland ch hch) ha₀

end

/-- A share whose paths are all directly under its root, nothing changed but by its content. -/
private def flat (names : List (String × FileInfo)) (links : List (String × String)) : View where
  localAt
    | [name] => names.lookup name
    | _ => none
  ctimeAt
    | [name] => (names.lookup name).map (·.modTime)
    | _ => none
  linkAt
    | [name] =>
      match names.lookup name, links.lookup name with
      | some i, _ => { present := true, modTime := i.modTime }
      | none, some target => { present := true, isLink := true, target := target, modTime := 70 }
      | none, none => {}
    | _ => {}
  above := by
    rintro p d hne ⟨hunder, hdp⟩ hsome
    match p, hsome with
    | [name], _ =>
      rcases List.prefix_cons_iff.mp hunder with h | ⟨t, rfl, ht⟩
      · exact absurd h hne
      · rw [List.prefix_nil.mp ht] at hdp
        exact absurd rfl hdp

private def flatChanges : List Change :=
  [{ path := ["new"], size := 3, modTime := 50, changed := 60 },
   { path := ["gone"], modTime := 50, deleted := true, changed := 60 },
   { path := ["dir"], modTime := 50, dir := true, changed := 60 },
   { path := ["kept"], size := 5, modTime := 5, changed := 5 },
   { path := ["link"], size := 3, modTime := 50, link := "new", changed := 60 }]

private def flatBefore : View :=
  flat [("gone", { size := 1, modTime := 10 }), ("kept", { size := 4, modTime := 10 })] []

private def flatAfter : View :=
  flat [("new", { size := 3, modTime := 70 }), ("dir", { size := 0, modTime := 70, isDir := true }),
    ("kept", { size := 4, modTime := 10 })] [("link", "new")]

/-- A new file, a deletion, a directory, a version that lost and a link: all land at 70. -/
theorem quiescent_after_round_flat :
    (flatBefore.decideRound {} 0 0 0 flatChanges).map (·.kind) =
        [.write, .delete, .mkdir, .conflict, .link] ∧
      ∀ a ∈ flatAfter.decideRound
          (flatAfter.committed {} (flatBefore.decideRound {} 0 0 0 flatChanges)) 0 0 0 flatChanges,
        a.moving = false := by
  refine ⟨by decide, ?_⟩
  apply @quiescent_after_round flatBefore flatAfter {} 0 0 0 flatChanges _ (by decide) (by decide)
    (by decide) (List.Perm.refl _)
  have hmoved : ∀ ch : Change, flatAfter.ctimeAt ch.path = some 70 → ch.changed = 60 →
      TimeMoved 0 flatAfter ch := by
    intro ch hc hchanged ours hours
    rw [hc, Option.some.injEq] at hours
    omega
  have hlands : ∀ {ch a}, flatBefore.decideOne {} 0 0 0 ch = some a →
      LandsAt 0 flatBefore flatAfter ch (some a) →
      LandsAt 0 flatBefore flatAfter ch (flatBefore.decideOne {} 0 0 0 ch) := by
    intro ch a hact h
    rw [hact]
    exact h
  intro ch hch
  simp only [flatChanges, List.mem_cons, List.not_mem_nil, or_false] at hch
  rcases hch with rfl | rfl | rfl | rfl | rfl
  · exact hlands (by decide) (.fetched { path := ["new"], kind := .write, consumer := 50 }
      { size := 3, modTime := 70 } (by decide) (by decide) rfl rfl (hmoved _ (by decide) rfl))
  · exact hlands (by decide) (.removed { path := ["gone"], kind := .delete } rfl (by decide))
  · exact hlands (by decide) (.made { path := ["dir"], kind := .mkdir }
      { size := 0, modTime := 70, isDir := true } rfl (by decide) rfl)
  · refine .stays _ ?_ (.untouched (by decide) (by decide) (by decide))
    intro a ha
    have hkept : (flatBefore.decideOne {} 0 0 0
        { path := ["kept"], size := 5, modTime := 5, changed := 5 }).all (!·.moving) = true := by
      decide
    rw [ha] at hkept
    simpa using hkept
  · exact hlands (by decide) (.linked { path := ["link"], kind := .link, link := "new" } rfl
      (by decide) (by decide) (by decide))

end RemoteDocker.DirCache

import RemoteDocker.DirCache.CaseNames

/-!
# What a new file replaces

A new file of the consumer's that is later than another file found at its path is landed over it
unless the last name clashes. What is replaced is what the decision saw, by its change time, so
its spelling is the one the round started with; whether that is the consumer's spelling of the
whole path is nowhere asked.
-/

namespace RemoteDocker.DirCache.CaseNames

open Base

namespace Round

variable {fold : String → String} (r : Round fold)

/-- The consumer's new file is later than another file found at its path. -/
structure Overwrites (ch : Change) (n : Node) (i : FileInfo) : Prop where
  reported : ch ∈ r.reported
  asked : r.asksAbout ch = true
  notDir : ch.dir = false
  found : r.here.nodes.lookup (key fold ch.path) = some n
  stat : n.stat = some i
  file : i.isDir = false
  differs : sameContent ch i = false
  later : r.deciding.Later ch.path ch.writtenAt r.margin

variable {ch : Change} {n : Node} {i : FileInfo}

private theorem asksAbout_iff :
    r.asksAbout ch = true ↔ r.manifest.lookup ch.path = none ∧ ch.deleted = false ∧
      ch.isOpaque = false ∧ ch.link = "" := by
  unfold asksAbout
  simp [and_assoc]

variable {r}

section

variable (h : r.Overwrites ch n i)

include h

private theorem Overwrites.exists_last :
    ∃ base, ch.path.getLast? = some base := by
  rw [← Option.ne_none_iff_exists', Ne, List.getLast?_eq_none_iff]
  intro hroot
  obtain ⟨above, habove⟩ := r.here.named _ n h.found
  rw [hroot] at habove
  simp [key] at habove

private theorem Overwrites.localAt : r.deciding.localAt ch.path = some i := by
  show (r.here.nodes.lookup (key fold ch.path)).bind (·.stat) = some i
  rw [h.found]
  exact h.stat

private theorem Overwrites.unclashed_iff : r.unclashed ch.path = true ↔
      ch.path.getLast? = some n.name ∨ r.listable ch.path.dropLast = false := by
  obtain ⟨base, hbase⟩ := h.exists_last
  unfold unclashed
  rw [h.found, hbase, Bool.or_eq_true, beq_iff_eq, Bool.not_eq_true', Option.some.injEq, eq_comm]

/-- A file found here that the consumer's is later than is decided for the consumer, by a change
time that was read. -/
theorem Overwrites.decided :
    ∃ ours, n.ctime = some ours ∧ (r.deciding.decideFile ch).read = some ours ∧
      r.deciding.decideChange ch = some
        { path := ch.path, kind := .write, consumer := ch.modTime
          exec := execFlip ch (some i) r.exec } := by
  obtain ⟨hsent, hkept, hop, hlink⟩ := r.asksAbout_iff.mp h.asked
  obtain ⟨ours, hlast⟩ := Deciding.later_iff.mp h.later
  have hlocal := h.localAt
  have hctime : r.deciding.ctimeAt ch.path = some ours := Deciding.ctimeAt_of_lastWriter hlast
  have hmargin : r.deciding.margin = r.margin := rfl
  have hexec : r.deciding.exec = r.exec := rfl
  have hsent' : r.deciding.manifest.lookup ch.path = none := hsent
  refine ⟨ours, ?_, ?_, ?_⟩
  · have : (r.here.nodes.lookup (key fold ch.path)).bind (·.ctime) = some ours := hctime
    rw [h.found] at this
    exact this
  · simp [Deciding.decideFile, h.notDir, hlocal, h.file, hkept, h.differs, hsent',
      Deciding.decideUnheld, hmargin, hlast]
  · simp [Deciding.decideChange, hlink, hop, Deciding.decideFile, h.notDir, hlocal, h.file, hkept,
      h.differs, hsent', Deciding.decideUnheld, hmargin, hexec, hlast]

end

private theorem eq_of_path_eq {ch' : Change} (h : ch ∈ r.changes) (h' : ch' ∈ r.changes)
    (hpath : ch'.path = ch.path) : ch' = ch :=
  List.inj_on_of_nodup_map r.nodup_changes h' h hpath

private theorem Overwrites.mem_actions (h : r.Overwrites ch n i)
    (hun : r.unclashed ch.path = true) :
    ∃ a ∈ r.actions, a.path = ch.path ∧ a.fetches = true ∧
      a.seen = { seenOf (some i) with ctime := n.ctime } := by
  obtain ⟨hsent, hkept, hop, hlink⟩ := r.asksAbout_iff.mp h.asked
  obtain ⟨ours, hours, hread, hdecided⟩ := h.decided
  have hch : ch ∈ r.changes := r.mem_changes.mpr (.inl ⟨h.reported, fun _ ↦ hun⟩)
  refine ⟨_, Deciding.mem_decide.mpr ⟨ch, hch, _, hdecided, rfl⟩, rfl, rfl, ?_⟩
  dsimp only
  rw [Deciding.seenAt_of_once hch (fun _ h' hpath ↦ eq_of_path_eq hch h' hpath) hlink hop, hread,
    h.localAt, hours]

/-- A fetch of a file the cache never held: nothing was here, or it is taken over what was, seen
with its change time. -/
theorem fetched_new {a : Action} (ha : a ∈ r.actions) (hf : a.fetches = true)
    (hnew : r.manifest.lookup a.path = none) :
    a.seen.here = false ∨ ∃ ch n i ours, r.Overwrites ch n i ∧ ch.path = a.path ∧
      r.unclashed ch.path = true ∧ n.ctime = some ours ∧ a.seen.here = true ∧
      a.seen.ctime = some ours := by
  obtain ⟨ch, hch, a₀, ha₀, rfl⟩ := Deciding.mem_decide.mp ha
  have hpath : a₀.path = ch.path := Deciding.path_of_decideChange ha₀
  have hf₀ : a₀.fetches = true := hf
  have hnew₀ : r.manifest.lookup ch.path = none := hpath ▸ hnew
  have htakes : a₀.takes = true := by
    rw [Action.takes, Action.carries, hf₀]
    rfl
  obtain ⟨⟨hlink, hop, hdir⟩, hway⟩ := Deciding.takes_of_decideChange ha₀ htakes
  have hseen := Deciding.seenAt_of_once (d := r.deciding) hch
    (fun _ h' hp ↦ eq_of_path_eq hch h' hp) hlink hop
  dsimp only
  rw [hseen]
  generalize hkind : a₀.kind = kind at hway
  cases hway with
  | removedDir | execBit | unheldDeleted | heldDeleted =>
    rw [Action.fetches, hkind] at hf₀
    simp at hf₀
  | newFile hgone =>
    rw [hgone]
    exact .inl rfl
  | unheldWritten i hi hfile _ hkept hdiff hlate =>
    right
    have hasked : r.asksAbout ch = true := r.asksAbout_iff.mpr ⟨hnew₀, hkept, hop, hlink⟩
    have hreported : ch ∈ r.reported ∧ r.unclashed ch.path = true := by
      rcases r.mem_changes.mp hch with ⟨hmem, hun⟩ | ⟨p, time, -, rfl⟩
      · exact ⟨hmem, hun hasked⟩
      · simp at hkept
    obtain ⟨n, hn, hstat⟩ := Option.bind_eq_some_iff.mp hi
    have hover : r.Overwrites ch n i :=
      ⟨hreported.1, hasked, hdir, hn, hstat, hfile, hdiff, hlate⟩
    obtain ⟨ours, hours, hread, -⟩ := hover.decided
    refine ⟨ch, n, i, ours, hover, hpath.symm, hreported.2, hours, ?_, hread⟩
    rw [hi]
    rfl
  | heldWritten _ _ _ _ hsent | heldBoth _ _ _ _ hsent | heldGone _ _ hsent =>
    exact absurd (hsent.symm.trans hnew₀) (Option.some_ne_none _)

end Round

section

variable {fold : String → String} {r : Round fold}

private theorem not_there_of_stillAsSeen {seen : SeenState} {there : Bool} {stat : Option FileInfo}
    {ctime : Option Int} (hseen : seen.here = false)
    (h : stillAsSeen seen there stat ctime = true) : there = false := by
  unfold stillAsSeen at h
  rw [if_pos (by rw [hseen]; rfl)] at h
  exact Bool.not_eq_true' there ▸ h

private theorem ctime_of_stillAsSeen {seen : SeenState} {there : Bool} {stat : Option FileInfo}
    {ctime : Option Int} {ours : Int} (hhere : seen.here = true) (hours : seen.ctime = some ours)
    (h : stillAsSeen seen there stat ctime = true) : ctime = some ours := by
  unfold stillAsSeen at h
  rw [if_neg (by simp [hhere])] at h
  cases stat with
  | none => simp [SeenState.same, seenOf, hhere] at h
  | some i =>
    simp only [SeenState.same, hours, Option.isSome_some, Bool.and_true, if_true,
      Option.isNone_some, Bool.false_or, Bool.and_eq_true, beq_iff_eq] at h
    exact h.2.symm

/-- What holds along a pass: what has an old change time has not moved, and no new file has
replaced one under another spelling. -/
structure Inv (r : Round fold) (s : State) : Prop where
  unmoved : Unmoved r.here.nodes s.nodes r.here.now
  clock : r.here.now ≤ s.clock
  spelled : ∀ x ∈ s.replaced, r.manifest.lookup x.path = none → x.here = x.path.map some

private theorem inv_start (r : Round fold) : Inv r (start r) where
  unmoved := fun _ _ _ hn _ _ ↦ r.here.along hn
  clock := le_refl _
  spelled := by
    intro x hx
    cases hx

/-- The condition under which no new file replaces one under another spelling: where it is later
than a file here with its last name, or in a directory that cannot be listed, every directory
above is spelled as here too. -/
def SpelledAsHere (r : Round fold) : Prop :=
  ∀ ch n i, r.Overwrites ch n i →
    (ch.path.getLast? = some n.name ∨ r.listable ch.path.dropLast = false) →
    spelling fold r.here.nodes ch.path = ch.path.map some

/-- What a landing replaces by a new file is what the decision saw, spelled as it was then. -/
theorem spelled_of_landing (hr : SpelledAsHere r) {made : Nodes}
    (hmade : Unmoved r.here.nodes made r.here.now) {a : Action} (ha : a ∈ r.actions)
    (hf : a.fetches = true) (hnew : r.manifest.lookup a.path = none) {target : Node}
    (htarget : made.lookup (key fold a.path) = some target)
    (hstill : stillAsSeen a.seen true target.stat target.ctime = true) :
    spelling fold made a.path = a.path.map some := by
  rcases Round.fetched_new ha hf hnew with hgone | ⟨ch, n, i, ours, hover, hpath, hun, hours,
    hhere, hctime⟩
  · exact absurd (not_there_of_stillAsSeen hgone hstill) (by decide)
  · have hold : target.ctime = some ours := ctime_of_stillAsSeen hhere hctime hstill
    have hle : ours ≤ r.here.now := r.here.past _ n ours hover.found hours
    rw [(hmade _ target ours htarget hold hle).spelling_eq, ← hpath]
    exact hr ch n i hover (hover.unclashed_iff.mp hun)

private theorem Inv.land (hr : SpelledAsHere r) {s : State} (h : Inv r s) {a : Action}
    {listable : Bool}
    {stat : FileInfo} {time : Int} (htime : s.clock < time) (ha : a ∈ r.actions)
    (hf : a.fetches = true) : Inv r (stepLand fold s a listable stat time) := by
  have hnow : r.here.now < time := lt_of_le_of_lt h.clock htime
  simp only [stepLand]
  split
  · exact ⟨h.unmoved, hnow.le, h.spelled⟩
  · split
    · exact ⟨h.unmoved, hnow.le, h.spelled⟩
    · next made hmade =>
      have hunmoved := h.unmoved.mkdirAll hnow hmade
      split
      · next hstill =>
        split
        · exact ⟨hunmoved, hnow.le, h.spelled⟩
        · next nodes hput =>
          refine ⟨hunmoved.put hnow rfl hput, hnow.le, ?_⟩
          cases htarget : made.lookup (key fold a.path) with
          | none => exact h.spelled
          | some target =>
            rw [htarget] at hstill
            intro x hx hnew
            rcases List.mem_cons.mp hx with rfl | hx
            · exact spelled_of_landing hr hunmoved ha hf hnew htarget hstill
            · exact h.spelled x hx hnew
      · exact ⟨hunmoved, hnow.le, h.spelled⟩

private theorem Inv.step (hr : SpelledAsHere r) {s s' : State} {e : Event} (h : Inv r s)
    (hstep : (machine r).step s e = some s') : Inv r s' := by
  cases e with
  | remove p =>
    obtain ⟨nodes, hnodes, rfl⟩ := Option.map_eq_some_iff.mp hstep
    exact ⟨h.unmoved.remove hnodes, h.clock, h.spelled⟩
  | mkdir p time =>
    obtain ⟨htime, hstep⟩ := Option.ite_none_right_eq_some.mp hstep
    obtain ⟨nodes, hnodes, rfl⟩ := Option.map_eq_some_iff.mp hstep
    have hnow : r.here.now < time := lt_of_le_of_lt h.clock htime
    exact ⟨h.unmoved.mkdirAll hnow hnodes, hnow.le, h.spelled⟩
  | link p stat time =>
    obtain ⟨htime, hstep⟩ := Option.ite_none_right_eq_some.mp hstep
    obtain ⟨made, hmade, hstep⟩ := Option.bind_eq_some_iff.mp hstep
    obtain ⟨nodes, hput, hstep⟩ := Option.bind_eq_some_iff.mp hstep
    cases hstep
    have hnow : r.here.now < time := lt_of_le_of_lt h.clock htime
    exact ⟨(h.unmoved.mkdirAll hnow hmade).put hnow rfl hput, hnow.le, h.spelled⟩
  | chmod p mode time =>
    obtain ⟨htime, hstep⟩ := Option.ite_none_right_eq_some.mp hstep
    obtain ⟨n, hn, rfl⟩ := Option.map_eq_some_iff.mp hstep
    have hnow : r.here.now < time := lt_of_le_of_lt h.clock htime
    refine ⟨h.unmoved.insert hnow rfl ?_, hnow.le, h.spelled⟩
    intro m hm hdir
    rw [hn] at hm
    cases hm
    exact ⟨rfl, hdir⟩
  | land a listable stat time =>
    obtain ⟨hguard, ⟨⟩⟩ := Option.ite_none_right_eq_some.mp hstep
    exact h.land hr hguard.1 hguard.2.1 hguard.2.2

private theorem replaced_of_landing {ch : Change} {n : Node} {i : FileInfo}
    (h : r.Overwrites ch n i)
    (hun : r.unclashed ch.path = true) :
    ∃ events s, (machine r).run (start r) events = some s ∧
      s.replaced = [⟨ch.path, spelling fold r.here.nodes ch.path⟩] := by
  obtain ⟨a, ha, hpath, hf, hseen⟩ := h.mem_actions hun
  have hclash := r.clash_unlistable (r.listed_dropClashes r.listed_empty r.reported) hun
  have hmade : mkdirAll fold (r.here.now + 1) [] ch.path.dropLast r.here.nodes =
      some r.here.nodes := by
    obtain ⟨base, hbase⟩ := h.exists_last
    have hfound := h.found
    rw [key_eq hbase] at hfound
    exact r.here.mkdirAll_eq hfound
  have hfile : n.dir = false := by
    rw [← Bool.not_eq_true]
    intro hdir
    exact absurd (r.here.dirs _ n i h.found hdir h.stat) (by rw [h.file]; decide)
  have hstill : stillAsSeen a.seen true (some i) n.ctime = true := by
    rw [hseen]
    cases n.ctime <;> simp [stillAsSeen, seenOf, SeenState.same]
  refine ⟨[.land a false i (r.here.now + 1)], stepLand fold (start r) a false i (r.here.now + 1),
    ?_, ?_⟩
  · have hguard : (start r).clock < r.here.now + 1 ∧ a ∈ r.actions ∧ a.fetches = true :=
      ⟨Int.lt_succ _, ha, hf⟩
    simp only [Machine.run, machine, CaseNames.step, if_pos hguard]
  · have hfound : r.here.nodes.lookup (key fold a.path) = some n := by
      rw [hpath]
      exact h.found
    rw [← hpath] at hclash hmade ⊢
    simp only [stepLand, start, hclash, Option.isSome_none, Bool.false_eq_true, if_false, hmade,
      hfound, Option.isSome_some, Option.bind_some, h.stat, hstill, if_true, put, hfile]

/-- No pass lands a new file of the consumer's onto a file here that is spelled otherwise in any
component, exactly when every new file that is later than a file here with its last name, or in
a directory that cannot be listed, finds the directories above it spelled as its own. -/
theorem no_other_file_replaced_iff (fold : String → String) (r : Round fold) :
    (∀ events s, (machine r).run (start r) events = some s → ∀ x ∈ s.replaced,
        r.manifest.lookup x.path = none → x.here = x.path.map some) ↔
      SpelledAsHere r := by
  constructor
  · intro hall ch n i hover hor
    obtain ⟨events, s, hrun, hreplaced⟩ := replaced_of_landing hover (hover.unclashed_iff.mpr hor)
    have hnew : r.manifest.lookup ch.path = none := (r.asksAbout_iff.mp hover.asked).1
    exact hall events s hrun ⟨ch.path, _⟩ (by rw [hreplaced]; exact List.mem_singleton_self _) hnew
  · intro hr events s hrun
    have hstep : ∀ s e s', Inv r s → (machine r).step s e = some s' → Inv r s' :=
      fun _ _ _ h hs ↦ h.step hr hs
    exact ((machine r).run_invariant_all hstep (inv_start r) hrun).spelled

end

def lowered (name : String) : String := String.ofList (name.toList.map Char.toLower)

/-- A share with one file, `Src/a.txt`, of time 5 and changed at 5. -/
def srcNodes : Nodes :=
  (AList.singleton ["src"]
    { name := "Src", dir := true, stat := some { size := 4096, modTime := 5, isDir := true }
      ctime := some 5 }).insert ["src", "a.txt"]
    { name := "a.txt", stat := some { size := 1, modTime := 5 }, ctime := some 5 }

private theorem mem_srcNodes {k : SharePath} {n : Node} (h : srcNodes.lookup k = some n) :
    (k = ["src", "a.txt"] ∧
      n = { name := "a.txt", stat := some { size := 1, modTime := 5 }, ctime := some 5 }) ∨
    (k = ["src"] ∧
      n = { name := "Src", dir := true, stat := some { size := 4096, modTime := 5, isDir := true }
            ctime := some 5 }) := by
  rcases lookup_insert_eq_some.mp h with ⟨hk, hn⟩ | ⟨-, h⟩
  · exact .inl ⟨hk, hn.symm⟩
  · have hmem := AList.mem_lookup_iff.mp h
    simp only [AList.singleton_entries, List.mem_singleton, Sigma.mk.injEq, heq_eq_eq] at hmem
    exact .inr hmem

def srcDisk : Disk lowered where
  nodes := srcNodes
  now := 10
  named := by
    intro k n h
    rcases mem_srcNodes h with ⟨rfl, rfl⟩ | ⟨rfl, rfl⟩
    · exact ⟨["src"], by decide⟩
    · exact ⟨[], by decide⟩
  closed := by
    intro above c n h
    rcases mem_srcNodes h with ⟨hk, -⟩ | ⟨hk, -⟩
    · obtain ⟨rfl, -⟩ := List.append_inj' (hk.trans (List.singleton_append).symm) rfl
      exact .inr ⟨_, rfl, rfl⟩
    · obtain ⟨rfl, -⟩ := List.append_inj' (hk.trans (List.nil_append _).symm) rfl
      exact .inl rfl
  dirs := by
    intro k n i h
    rcases mem_srcNodes h with ⟨-, rfl⟩ | ⟨-, rfl⟩
    · intro hdir
      cases hdir
    · rintro - hstat
      cases hstat
      rfl
  past := by
    intro k n c h hc
    rcases mem_srcNodes h with ⟨-, rfl⟩ | ⟨-, rfl⟩
    · cases hc
      decide
    · cases hc
      decide

/-- The consumer wrote `src/a.txt` at 20. -/
def srcRound : Round lowered where
  here := srcDisk
  manifest := ∅
  recorded := ∅
  reported := [{ path := ["src", "a.txt"], size := 9, modTime := 20, changed := 20 }]
  implied := []
  once := by decide
  listable := fun _ ↦ true
  skew := 0
  margin := 0
  exec := 0

/-- The consumer's new `src/a.txt` replaces `Src/a.txt`, every directory listed when asked. -/
theorem other_directory_replaced :
    srcRound.manifest.lookup ["src", "a.txt"] = none ∧
      ((machine srcRound).run (start srcRound)
        [.land { path := ["src", "a.txt"], kind := .write, consumer := 20,
                 seen := { here := true, size := 1, mod := 5, ctime := some 5 } }
          true { size := 9, modTime := 20 } 11]).map (·.replaced) =
        some [⟨["src", "a.txt"], [some "Src", some "a.txt"]⟩] := by
  decide

end RemoteDocker.DirCache.CaseNames

import RemoteDocker.DirCache.Implied
import RemoteDocker.DirCache.Invalidate
import RemoteDocker.DirCache.Links
import RemoteDocker.DirCache.Sending

/-!
# What write-back gives up on, and what it keeps

What a share's write-back remembers between rounds (`src/dircache/wbstate.go`), and the part of
a round that moves it (`src/dircache/writeback.go:255-331,469-502`, `src/dircache/writepass.go`).
One map holds four kinds of path given up on until it changes, and the paths a round kept, which
are decided again every round.

A path given up on whose change then differs is decided again. If that decision goes against it,
`keptNow` leaves the old entry, its kind and its reason (`kept_not_listed`): the change that lost
is nowhere in status. `kept_listed_iff` says when each change that lost is listed.

What a pass does with an action is open here: it may land, be given up on, or be left. What is
only said in the log, and when a share may be tried again, is left out.
-/

namespace RemoteDocker.DirCache

open Base

/-- Why write-back gave up on a path. -/
inductive SkipKind where
  | name
  | link
  | clash
  | marker
  | kept
  deriving DecidableEq, Repr

/-- One path write-back will not retry, as status lists it. -/
structure Skipped where
  path : SharePath
  why : String
  kind : SkipKind
  deriving DecidableEq, Repr

/-- A path given up on and the change that was refused. -/
structure Skip where
  change : Change
  why : String
  kind : SkipKind
  deriving DecidableEq, Repr

/-- The change is the one that was refused. -/
def Skip.same (s : Skip) (c : Change) : Bool :=
  s.change.size == c.size && s.change.modTime == c.modTime && s.change.deleted == c.deleted &&
    s.change.link == c.link && s.change.changed == c.changed && s.change.mode == c.mode

/-- `wbState`: what is given up on, and the listings made for removals. -/
structure WriteBacks where
  skipped : AList fun _ : SharePath ↦ Skip := ∅
  walks : Walks := ∅

namespace WriteBacks

def skip (wb : WriteBacks) (ch : Change) (why : String) (kind : SkipKind) : WriteBacks :=
  { wb with skipped := wb.skipped.insert ch.path { change := ch, why, kind } }

/-- What `unskipped` leaves out: a change given up on that has not changed since. -/
def setsAside (wb : WriteBacks) (ch : Change) : Bool :=
  (wb.skipped.lookup ch.path).any fun sk ↦ sk.kind != .kept && sk.same ch

/-- Forgets every path no longer pending. -/
def forget (wb : WriteBacks) (pending : List Change) : WriteBacks :=
  { wb with skipped := restrict wb.skipped fun p ↦ pending.any (·.path == p) }

/-- Forgets a path that has landed. -/
def landed (wb : WriteBacks) (p : SharePath) : WriteBacks :=
  { wb with skipped := wb.skipped.erase p }

/-- One turn of `keptNow`'s loop: a path given up on for another reason is left. -/
def keepOne (change : SharePath → Option Change) (skipped : AList fun _ : SharePath ↦ Skip)
    (p : SharePath) (why : String) : AList fun _ : SharePath ↦ Skip :=
  if (skipped.lookup p).any (·.kind != .kept) then skipped
  else skipped.insert p { change := (change p).getD { path := [] }, why, kind := .kept }

/-- Makes kept the paths this round kept, each with the change that lost. -/
def keptNow (wb : WriteBacks) (kept : AList fun _ : SharePath ↦ String)
    (change : SharePath → Option Change) : WriteBacks :=
  let still := restrict wb.skipped fun p ↦
    !(wb.skipped.lookup p).any (·.kind == .kept) || (kept.lookup p).isSome
  { wb with skipped := kept.entries.foldl (fun m e ↦ keepOne change m e.1 e.2) still }

/-- The paths given up on and kept, as status shows them. -/
def report (wb : WriteBacks) : List Skipped :=
  (wb.skipped.entries.map fun e ↦ ({ path := e.1, why := e.2.why, kind := e.2.kind } : Skipped)
    ).insertionSort fun a b ↦ a.path.render ≤ b.path.render

end WriteBacks

/-- What a pass did with an action: it landed, the path is given up on, or it is left for the
next round. -/
inductive Outcome where
  | landed
  | givenUp (why : String) (kind : SkipKind)
  | left
  deriving DecidableEq, Repr

/-- What one round of a share reads, beside what `RoundInput` has: what is at a path without
following it, which names clash here, and how each action goes. -/
structure WriteRound where
  input : RoundInput
  linkAt : SharePath → LinkState
  clash : SharePath → Option String
  outcome : Action → Outcome

def whyMarker : String := "an overlay marker, which is never a file of yours; it is safe to delete"

namespace WriteRound

/-- What `dropClashes` asks about: a file the cache never held. -/
def clashOf (r : WriteRound) (ch : Change) : Option String :=
  if (r.input.manifest.lookup ch.path).isNone && !ch.deleted && !ch.isOpaque && ch.link == "" then
    r.clash ch.path
  else none

/-- The round with what it sets aside: what was given up on, the union's markers, and names
that clash. -/
def taken (r : WriteRound) (wb : WriteBacks) : RoundInput :=
  { r.input with
    aside := fun ch ↦ wb.setsAside ch || Invalidate.overlayMarker ch.path
    clashes := fun ch ↦ (r.clashOf ch).isSome }

def changes (r : WriteRound) (wb : WriteBacks) : List Change := (r.taken wb).changes wb.walks

def actions (r : WriteRound) (wb : WriteBacks) : List Action :=
  (r.taken wb).deciding.decideAll r.linkAt (r.changes wb)

/-- What it gives up on. -/
def dropMarkers (r : WriteRound) (wb : WriteBacks) : WriteBacks :=
  (r.input.reported.filter fun ch ↦ !wb.setsAside ch && Invalidate.overlayMarker ch.path).foldl
    (fun w ch ↦ w.skip ch whyMarker .marker) wb

/-- What it gives up on, of what is left of `wb`. -/
def dropClashes (r : WriteRound) (wb w : WriteBacks) : WriteBacks :=
  (r.input.reported.filter fun ch ↦ !(r.taken wb).aside ch).foldl
    (fun w ch ↦
      match r.clashOf ch with
      | some why => w.skip ch why .clash
      | none => w) w

/-- The actions that lost to this machine's version. -/
def lost (r : WriteRound) (wb : WriteBacks) : List Action :=
  (r.actions wb).filter fun a ↦ a.kind == .conflict && !a.wins

/-- The map of what a round keeps, by path, the last decision standing. -/
def keptMap (lost : List Action) : AList fun _ : SharePath ↦ String :=
  lost.foldl (fun m a ↦ m.insert a.path a.why) ∅

/-- One action of a pass: what lost changes nothing. -/
def carry (r : WriteRound) (change : SharePath → Option Change) (w : WriteBacks) (a : Action) :
    WriteBacks :=
  if a.kind == .conflict && !a.wins then w
  else
    match r.outcome a with
    | .landed => w.landed a.path
    | .givenUp why kind => w.skip ((change a.path).getD { path := [] }) why kind
    | .left => w

/-- One round of an attached share. A round with nothing left after what is set aside ends
there. -/
def after (r : WriteRound) (wb : WriteBacks) : WriteBacks :=
  let marked := r.dropMarkers wb
  if (r.input.reported.filter fun ch ↦ !(r.taken wb).aside ch).isEmpty then
    { marked.forget r.input.reported with walks := (r.taken wb).walksAfter wb.walks }
  else
    let changes := r.changes wb
    let pending := (r.dropClashes wb marked).forget (r.input.reported ++ changes)
    let kept := pending.keptNow (keptMap (r.lost wb)) (byPath changes)
    { (r.actions wb).foldl (r.carry (byPath changes)) kept with
      walks := (r.taken wb).walksAfter wb.walks }

end WriteRound

/-- What write-back remembers of a share after rounds. -/
def writeBacksOf (rounds : List WriteRound) : WriteBacks :=
  rounds.foldl (fun wb r ↦ r.after wb) {}

namespace WriteBacks

variable {wb : WriteBacks} {p : SharePath}

private theorem lookup_skip_ne {ch : Change} {why : String} {kind : SkipKind} (h : ch.path ≠ p) :
    (wb.skip ch why kind).skipped.lookup p = wb.skipped.lookup p := by
  rw [skip, AList.lookup_insert_ne (Ne.symm h)]

private theorem lookup_landed_ne {q : SharePath} (h : q ≠ p) :
    (wb.landed q).skipped.lookup p = wb.skipped.lookup p := by
  rw [landed, AList.lookup_erase_ne (Ne.symm h)]

private theorem lookup_forget {pending : List Change} {ch : Change} (h : ch ∈ pending) :
    (wb.forget pending).skipped.lookup ch.path = wb.skipped.lookup ch.path := by
  have hany : pending.any (·.path == ch.path) = true :=
    List.any_eq_true.mpr ⟨ch, h, beq_self_eq_true _⟩
  rw [forget, lookup_restrict, if_pos hany]

private theorem lookup_keepOne (change : SharePath → Option Change)
    (m : AList fun _ : SharePath ↦ Skip) (q : SharePath) (why : String) :
    (keepOne change m q why).lookup p =
      if p = q ∧ (m.lookup p).any (·.kind != .kept) = false then
        some { change := (change p).getD { path := [] }, why, kind := .kept }
      else m.lookup p := by
  rw [keepOne]
  by_cases hp : p = q
  · subst hp
    cases hany : (m.lookup p).any (·.kind != .kept) with
    | true => simp
    | false => simp [AList.lookup_insert]
  · have hno : ¬ (p = q ∧ (m.lookup p).any (·.kind != .kept) = false) := fun h ↦ hp h.1
    rw [if_neg hno]
    split
    · rfl
    · rw [AList.lookup_insert_ne hp]

/-- Where the loop of `keptNow` leaves a path: kept, unless it was given up on for another
reason. -/
theorem lookup_foldl_keepOne (change : SharePath → Option Change)
    (l : List (Sigma fun _ : SharePath ↦ String)) (hl : l.NodupKeys)
    (m : AList fun _ : SharePath ↦ Skip) {why : String} (hwhy : l.dlookup p = some why) :
    (l.foldl (fun m e ↦ keepOne change m e.1 e.2) m).lookup p =
      if (m.lookup p).any (·.kind != .kept) then m.lookup p
      else some { change := (change p).getD { path := [] }, why, kind := .kept } := by
  -- After its own turn a path has none.
  have hrest : ∀ (l : List (Sigma fun _ : SharePath ↦ String)) (m : AList fun _ ↦ Skip),
      p ∉ l.keys →
        (l.foldl (fun m e ↦ keepOne change m e.1 e.2) m).lookup p = m.lookup p := by
    intro l
    induction l with
    | nil => exact fun m _ ↦ rfl
    | cons e l ih =>
      intro m hp
      rw [List.keys_cons, List.mem_cons, not_or] at hp
      rw [List.foldl_cons, ih _ hp.2, lookup_keepOne, if_neg (fun h ↦ hp.1 h.1)]
  induction l generalizing m with
  | nil => simp at hwhy
  | cons e l ih =>
    obtain ⟨q, w⟩ := e
    rw [List.nodupKeys_cons] at hl
    rw [List.foldl_cons]
    by_cases hq : q = p
    · subst hq
      rw [List.dlookup_cons_eq, Option.some.injEq] at hwhy
      rw [hrest _ _ hl.1, lookup_keepOne, hwhy]
      cases (m.lookup q).any (·.kind != .kept) with
      | true => simp
      | false => simp
    · rw [List.dlookup_cons_ne _ _ (Ne.symm hq)] at hwhy
      have hone : (keepOne change m q w).lookup p = m.lookup p := by
        rw [lookup_keepOne, if_neg (fun h ↦ hq h.1.symm)]
      rw [ih hl.2 _ hwhy, hone]

/-- A path this round kept is listed as kept, unless it was given up on for another reason. -/
theorem lookup_keptNow {kept : AList fun _ : SharePath ↦ String} {why : String}
    (change : SharePath → Option Change) (hwhy : kept.lookup p = some why) :
    (wb.keptNow kept change).skipped.lookup p =
      if (wb.skipped.lookup p).any (·.kind != .kept) then wb.skipped.lookup p
      else some { change := (change p).getD { path := [] }, why, kind := .kept } := by
  simp only [keptNow]
  rw [lookup_foldl_keepOne change _ kept.nodupKeys _ hwhy, lookup_restrict, hwhy,
    Option.isSome_some, Bool.or_true, if_pos rfl]

private theorem mem_report {sk : Skipped} :
    sk ∈ wb.report ↔
      ∃ s, wb.skipped.lookup sk.path = some s ∧ s.why = sk.why ∧ s.kind = sk.kind := by
  rw [report, List.mem_insertionSort, List.mem_map]
  constructor
  · rintro ⟨e, he, rfl⟩
    exact ⟨e.2, AList.mem_lookup_iff.mpr he, rfl, rfl⟩
  · rintro ⟨s, hs, hwhy, hkind⟩
    refine ⟨⟨sk.path, s⟩, AList.mem_lookup_iff.mp hs, ?_⟩
    rw [hwhy, hkind]

end WriteBacks

namespace WriteRound

variable {r : WriteRound} {wb : WriteBacks}

private theorem lookup_keptMap {lost : List Action} {p : SharePath} {why : String}
    (hex : ∃ a ∈ lost, a.path = p) (hall : ∀ a ∈ lost, a.path = p → a.why = why) :
    (keptMap lost).lookup p = some why := by
  -- The last decision stands, so the induction is from the end.
  induction lost using List.reverseRecOn with
  | nil => simp at hex
  | append_singleton lost a ih =>
    rw [keptMap, List.foldl_append, List.foldl_cons, List.foldl_nil]
    by_cases hp : a.path = p
    · have hwhy := hall a (by simp) hp
      rw [hp, hwhy, AList.lookup_insert]
    · rw [AList.lookup_insert_ne (Ne.symm hp)]
      apply ih
      · obtain ⟨b, hb, hbp⟩ := hex
        rcases List.mem_append.mp hb with hb | hb
        · exact ⟨b, hb, hbp⟩
        · rw [List.mem_singleton.mp hb] at hbp
          exact absurd hbp hp
      · exact fun b hb ↦ hall b (List.mem_append_left _ hb)

private theorem lookup_carried {change : SharePath → Option Change} {acts : List Action}
    {p : SharePath}
    (hall : ∀ a ∈ acts, a.path = p → a.kind = .conflict ∧ a.wins = false)
    (hchange : ∀ q ch, change q = some ch → ch.path = q)
    (hsome : ∀ a ∈ acts, (change a.path).isSome) (w : WriteBacks) :
    (acts.foldl (r.carry change) w).skipped.lookup p = w.skipped.lookup p := by
  induction acts generalizing w with
  | nil => rfl
  | cons a acts ih =>
    rw [List.foldl_cons, ih (fun b hb ↦ hall b (.tail _ hb))
      (fun b hb ↦ hsome b (.tail _ hb))]
    by_cases hp : a.path = p
    · obtain ⟨hk, hw⟩ := hall a (.head _) hp
      simp [carry, hk, hw]
    · rw [carry]
      split
      · rfl
      · split
        · exact WriteBacks.lookup_landed_ne hp
        · obtain ⟨ch, hch⟩ := Option.isSome_iff_exists.mp (hsome a (.head _))
          rw [hch, Option.getD_some, WriteBacks.lookup_skip_ne]
          rw [hchange _ _ hch]
          exact hp
        · rfl

private theorem mem_changes {ch : Change} (h : ch ∈ r.changes wb) :
    (ch ∈ r.input.reported ∧ (r.taken wb).aside ch = false ∧ r.clashOf ch = none) ∨
      ch ∈ (r.taken wb).impliedDeletions wb.walks := by
  simp only [changes, RoundInput.changes] at h
  split at h
  · simp at h
  · rw [List.mem_append, List.mem_filter, List.mem_filter] at h
    rcases h with ⟨⟨hrep, haside⟩, hclash⟩ | himp
    · left
      refine ⟨hrep, by simpa using haside, ?_⟩
      simpa [taken] using hclash
    · exact .inr himp

/-- Each path is reported once, the implied deletions included. -/
def ReportedOnce (r : WriteRound) (wb : WriteBacks) : Prop :=
  ((r.input.reported ++ (r.taken wb).impliedDeletions wb.walks).map (·.path)).Nodup

private theorem path_ne_of_dropped (honce : r.ReportedOnce wb) {ch c : Change}
    (hch : ch ∈ r.changes wb)
    (hc : c ∈ r.input.reported) (hdropped : (r.taken wb).aside c = true ∨ r.clashOf c ≠ none) :
    c.path ≠ ch.path := by
  intro hpath
  rw [ReportedOnce] at honce
  rcases mem_changes hch with ⟨hrep, haside, hclash⟩ | himp
  · have hcc : c = ch := List.inj_on_of_nodup_map honce (List.mem_append_left _ hc)
      (List.mem_append_left _ hrep) hpath
    subst hcc
    rcases hdropped with h | h
    · rw [haside] at h
      simp at h
    · exact h hclash
  · rw [List.map_append, List.nodup_append] at honce
    exact honce.2.2 c.path (List.mem_map_of_mem hc) ch.path (List.mem_map_of_mem himp) hpath

private theorem nodup_changes (honce : r.ReportedOnce wb) :
    ((r.changes wb).map (·.path)).Nodup := by
  rw [ReportedOnce] at honce
  simp only [changes, RoundInput.changes]
  split
  · simp
  · refine List.Nodup.sublist ?_ honce
    rw [List.map_append, List.map_append]
    apply List.Sublist.append
    · exact (List.filter_sublist.trans List.filter_sublist).map _
    · exact List.Sublist.refl _

private theorem lookup_dropped (honce : r.ReportedOnce wb) {ch : Change} (hch : ch ∈ r.changes wb) :
    (r.dropClashes wb (r.dropMarkers wb)).skipped.lookup ch.path =
      wb.skipped.lookup ch.path := by
  have hmarkers : ∀ (l : List Change) (w : WriteBacks), (∀ c ∈ l, c.path ≠ ch.path) →
      (l.foldl (fun w c ↦ w.skip c whyMarker .marker) w).skipped.lookup ch.path =
        w.skipped.lookup ch.path := by
    intro l
    induction l with
    | nil => exact fun w _ ↦ rfl
    | cons c l ih =>
      intro w hl
      rw [List.foldl_cons, ih _ (fun b hb ↦ hl b (.tail _ hb))]
      exact WriteBacks.lookup_skip_ne (hl c (.head _))
  have hclashes : ∀ (l : List Change) (w : WriteBacks),
      (∀ c ∈ l, r.clashOf c ≠ none → c.path ≠ ch.path) →
      (l.foldl (fun w c ↦
        match r.clashOf c with
        | some why => w.skip c why .clash
        | none => w) w).skipped.lookup ch.path = w.skipped.lookup ch.path := by
    intro l
    induction l with
    | nil => exact fun w _ ↦ rfl
    | cons c l ih =>
      intro w hl
      rw [List.foldl_cons, ih _ (fun b hb ↦ hl b (.tail _ hb))]
      split
      · next why hwhy =>
        apply WriteBacks.lookup_skip_ne
        exact hl c (.head _) (by rw [hwhy]; simp)
      · rfl
  rw [dropClashes, hclashes, dropMarkers, hmarkers]
  · intro c hc
    obtain ⟨hrep, hmark⟩ := List.mem_filter.mp hc
    rw [Bool.and_eq_true] at hmark
    apply path_ne_of_dropped honce hch hrep
    left
    simp [taken, hmark.2]
  · intro c hc hclash
    exact path_ne_of_dropped honce hch (List.mem_filter.mp hc).1 (.inr hclash)

private theorem exists_change {a : Action} (ha : a ∈ r.actions wb) :
    ∃ ch ∈ r.changes wb, a.path = ch.path := by
  obtain ⟨ch, hch, a₀, ha₀, hsame⟩ := Deciding.exists_of_mem_decideAll ha
  refine ⟨ch, hch, ?_⟩
  rw [hsame, ← Deciding.path_of_decideEach ha₀]

private theorem same_of_path (honce : r.ReportedOnce wb) {a b : Action} (ha : a ∈ r.actions wb)
    (hb : b ∈ r.actions wb) (hpath : b.path = a.path) :
    b.kind = a.kind ∧ b.wins = a.wins ∧ b.why = a.why := by
  obtain ⟨ch, hch, hap⟩ := exists_change ha
  obtain ⟨a₀, ha₀, hsame⟩ := Deciding.of_mem_decideAll (nodup_changes honce) hch ha hap
  obtain ⟨b₀, hb₀, hbsame⟩ :=
    Deciding.of_mem_decideAll (nodup_changes honce) hch hb (hpath.trans hap)
  have heq : b₀ = a₀ := Option.some.inj (hb₀.symm.trans ha₀)
  rw [hbsame, heq, hsame]
  exact ⟨rfl, rfl, rfl⟩

private theorem isEmpty_of_mem_changes {ch : Change} (hch : ch ∈ r.changes wb) :
    (r.input.reported.filter fun ch ↦ !(r.taken wb).aside ch).isEmpty = false := by
  by_contra hempty
  rw [Bool.not_eq_false] at hempty
  have hreported : (r.taken wb).reported = r.input.reported := rfl
  simp [changes, RoundInput.changes, hreported, hempty] at hch

/-- What decided against a change leaves: the entry of another kind that was there, else kept
for this round's reason. -/
theorem lookup_after (honce : r.ReportedOnce wb) {a : Action} (ha : a ∈ r.lost wb) :
    (r.after wb).skipped.lookup a.path =
      if (wb.skipped.lookup a.path).any (·.kind != .kept) then wb.skipped.lookup a.path
      else some
        { change := (byPath (r.changes wb) a.path).getD { path := [] }
          why := a.why
          kind := .kept } := by
  obtain ⟨hact, hlost⟩ := List.mem_filter.mp ha
  rw [Bool.and_eq_true, beq_iff_eq, Bool.not_eq_true'] at hlost
  obtain ⟨ch, hch, hpath⟩ := exists_change hact
  have hby : ∀ b ∈ r.actions wb, (byPath (r.changes wb) b.path).isSome := by
    intro b hb
    obtain ⟨c, hc, hbp⟩ := exists_change hb
    rw [hbp, Deciding.byPath_of_mem (nodup_changes honce) hc]
    rfl
  have hbypath : ∀ q c, byPath (r.changes wb) q = some c → c.path = q := by
    intro q c hc
    simpa using List.find?_some hc
  have hkept : (keptMap (r.lost wb)).lookup a.path = some a.why := by
    apply lookup_keptMap ⟨a, ha, rfl⟩
    intro b hb hbp
    exact (same_of_path honce hact (List.mem_filter.mp hb).1 hbp).2.2
  have hbefore : ((r.dropClashes wb (r.dropMarkers wb)).forget
      (r.input.reported ++ r.changes wb)).skipped.lookup a.path = wb.skipped.lookup a.path := by
    rw [hpath, WriteBacks.lookup_forget (List.mem_append_right _ hch), lookup_dropped honce hch]
  simp only [after, isEmpty_of_mem_changes hch, Bool.false_eq_true, if_false]
  rw [lookup_carried _ hbypath hby, WriteBacks.lookup_keptNow _ hkept, hbefore]
  intro b hb hbp
  obtain ⟨hk, hw, -⟩ := same_of_path honce hact hb hbp
  rw [hk, hw]
  exact hlost

/-- A change that lost is listed as kept, for this round's reason, unless its path was given up
on for another. -/
theorem listed_iff (honce : r.ReportedOnce wb) {a : Action} (ha : a ∈ r.lost wb) :
    ({ path := a.path, why := a.why, kind := .kept } : Skipped) ∈ (r.after wb).report ↔
      ∀ sk, wb.skipped.lookup a.path = some sk → sk.kind = .kept := by
  rw [WriteBacks.mem_report, lookup_after honce ha]
  cases hbefore : wb.skipped.lookup a.path with
  | none => simp
  | some sk =>
    by_cases hk : sk.kind = .kept
    · simp [hk]
    · simp [hk]

end WriteRound

/-- After any rounds, a round lists every change it decided against as kept, for its own reason,
exactly when none of them is at a path an earlier round gave up on for another reason. -/
theorem kept_listed_iff (rounds : List WriteRound) (r : WriteRound)
    (honce : r.ReportedOnce (writeBacksOf rounds)) :
    (∀ a ∈ r.actions (writeBacksOf rounds), a.kind = .conflict → a.wins = false →
        ({ path := a.path, why := a.why, kind := .kept } : Skipped) ∈
          (writeBacksOf (rounds ++ [r])).report) ↔
      ∀ a ∈ r.actions (writeBacksOf rounds), a.kind = .conflict → a.wins = false →
        ∀ sk, (writeBacksOf rounds).skipped.lookup a.path = some sk → sk.kind = .kept := by
  have hlast : writeBacksOf (rounds ++ [r]) = r.after (writeBacksOf rounds) := by
    rw [writeBacksOf, List.foldl_append]
    rfl
  have hlost : ∀ a ∈ r.actions (writeBacksOf rounds), a.kind = .conflict → a.wins = false →
      a ∈ r.lost (writeBacksOf rounds) := by
    intro a ha hk hw
    exact List.mem_filter.mpr ⟨ha, by simp [hk, hw]⟩
  rw [hlast]
  constructor
  · intro h a ha hk hw
    exact (WriteRound.listed_iff honce (hlost a ha hk hw)).mp (h a ha hk hw)
  · intro h a ha hk hw
    exact (WriteRound.listed_iff honce (hlost a ha hk hw)).mpr (h a ha hk hw)

private def noFile : Tree where
  nodes := ∅
  closed := by simp

private def fileHere : Tree where
  nodes := (∅ : AList fun _ : SharePath ↦ Node).insert ["f"]
    { stat := some { size := 5, modTime := 100 }, ctime := some 100 }
  closed := by decide

/-- The container's file could not be read, and is given up on. -/
private def unreadable : WriteRound where
  input :=
    { tree := noFile
      reported := [{ path := ["f"], size := 1, modTime := 1, changed := 1 }]
      present := none }
  linkAt := fun _ ↦ {}
  clash := fun _ ↦ none
  outcome := fun _ ↦ .givenUp "the workspace could not read it" .name

private def changedLater : WriteRound where
  input :=
    { tree := fileHere
      reported := [{ path := ["f"], size := 2, modTime := 2, changed := 2 }]
      present := none }
  linkAt := fun _ ↦ {}
  clash := fun _ ↦ none
  outcome := fun _ ↦ .landed

/-- A change that lost at a path given up on before stays listed for the old reason. -/
theorem kept_not_listed :
    ((changedLater.lost (writeBacksOf [unreadable])).map fun a ↦ (a.path, a.kind, a.wins)) =
        [(["f"], .conflict, false)] ∧
      (writeBacksOf [unreadable, changedLater]).report =
        [{ path := ["f"], why := "the workspace could not read it", kind := .name }] := by
  decide

/-- At a path never given up on, it is listed. -/
theorem kept_listed_iff_fresh :
    ((changedLater.lost (writeBacksOf [])).map fun a ↦ (a.path, a.kind, a.wins)) =
        [(["f"], .conflict, false)] ∧
      ∀ a ∈ changedLater.actions (writeBacksOf []), a.kind = .conflict → a.wins = false →
        ({ path := a.path, why := a.why, kind := .kept } : Skipped) ∈
          (writeBacksOf [changedLater]).report := by
  refine ⟨by decide, (kept_listed_iff [] changedLater ?_).mpr ?_⟩
  · show List.Nodup _
    decide
  · intro a _ _ _ sk hsk
    simp [writeBacksOf] at hsk

end RemoteDocker.DirCache

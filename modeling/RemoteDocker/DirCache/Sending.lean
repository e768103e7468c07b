import RemoteDocker.DirCache.LastWriter

/-!
# What may be sent over a consumer's change

The fill and an invalidation each leave out the entries the consumer changed
(`src/dircache/cache.go:404-530`, `src/dircache/invalidate.go:277-324`). Both read the
same share a round decides on, so they are given the same `Deciding`: a `ChangeTime` that
is nil, or a root that cannot be opened, is a change time that is not known. What is said
once about a conflict is left out.

`decideHeld` ends on "so the two never disagree about one file". They do wherever a
decision needs less of a lead than sending does: `sends_and_carries_iff` says exactly where.
-/

namespace RemoteDocker.DirCache

open Base

/-- `rememberChanges`: an answer by path, the last report of a path standing. -/
def byPath (changes : List Change) (p : SharePath) : Option Change :=
  changes.reverse.find? (·.path == p)

namespace Deciding

/-- Sending this machine's file over a listed change loses nothing of the consumer's. -/
def fillsOwn (d : Deciding) (p : SharePath) (ch : Change) : Bool :=
  if ch.link != "" then false
  else if ch.deleted && ch.changed == 0 then (d.manifest.lookup p).isNone
  else if ch.deleted then
    match d.ctimeAt p with
    | some ours => !consumerLater ch.changed ours d.skew d.margin
    | none => false
  else
    match d.manifest.lookup p with
    | some base => base.carries ch
    | none => (d.localAt p).any (sameContent ch)

/-- What the consumer changed among entries, by path. -/
def consumersOwn (d : Deciding) (ephemeral : Bool) (answer : Except String (List Change))
    (entries : List Entry) : Except String (SharePath → Option Change) :=
  if entries.isEmpty || ephemeral then .ok fun _ ↦ none
  else do
    let changed ← answer
    .ok fun p ↦
      if entries.any (·.path == p) then
        (byPath changed p).filter fun ch ↦ !ch.isOpaque && !ch.dir && !d.fillsOwn p ch
      else none

/-- What the fill sends. -/
def withoutConsumerChanges (d : Deciding) (ephemeral : Bool)
    (answer : Except String (List Change)) (entries : List Entry) :
    Except String (List Entry) := do
  let theirs ← d.consumersOwn ephemeral answer entries
  .ok (entries.filter fun e ↦ (theirs e.path).isNone)

/-- What an invalidation sends. -/
def withoutLaterConsumerChanges (d : Deciding) (ephemeral : Bool)
    (answer : Except String (List Change)) (entries : List Entry) : List Entry :=
  match d.consumersOwn ephemeral answer entries with
  | .error _ => entries
  | .ok theirs =>
    entries.filter fun e ↦
      match theirs e.path with
      | none => true
      | some ch =>
        if ch.changed == 0 then true
        else
          match d.ctimeAt e.path with
          | none => true
          | some ours => !consumerLater ch.changed ours d.skew d.margin

/-- What a round decides about a share; an ephemeral one is never written back. -/
def roundActions (d : Deciding) (ephemeral : Bool) (changes : List Change) : List Action :=
  if ephemeral then [] else d.decide changes

variable {changes : List Change} {ch : Change} {d : Deciding} {entries : List Entry} {e : Entry}
  {ours : Int}

section

variable (hdistinct : (changes.map (·.path)).Nodup)

include hdistinct

theorem byPath_of_mem (hch : ch ∈ changes) : byPath changes ch.path = some ch := by
  cases hf : byPath changes ch.path with
  | none =>
    have hnot := List.find?_eq_none.mp hf ch (List.mem_reverse.mpr hch)
    simp at hnot
  | some c =>
    have hmem : c ∈ changes := List.mem_reverse.mp (List.mem_of_find?_eq_some hf)
    have hpath : c.path = ch.path := by simpa using List.find?_some hf
    rw [List.inj_on_of_nodup_map hdistinct hmem hch hpath]

private theorem consumersOwn_of_mem (he : e ∈ entries)
    (hch : ch ∈ changes) (hp : ch.path = e.path) :
    ∃ theirs, d.consumersOwn false (.ok changes) entries = .ok theirs ∧ theirs e.path =
        if !ch.isOpaque && !ch.dir && !d.fillsOwn e.path ch then some ch else none := by
  have hne : entries.isEmpty = false := by
    rw [List.isEmpty_eq_false_iff]
    exact List.ne_nil_of_mem he
  have hany : entries.any (fun x ↦ x.path == ch.path) = true :=
    List.any_eq_true.mpr ⟨e, he, by simp [hp]⟩
  refine ⟨_, by simp only [consumersOwn, hne, Bool.or_self, Bool.false_eq_true, if_false]; rfl, ?_⟩
  simp only [← hp, hany, if_true, byPath_of_mem hdistinct hch, Option.filter]

private theorem mem_withoutConsumerChanges
    (he : e ∈ entries) (hch : ch ∈ changes) (hp : ch.path = e.path) :
    (∃ sent, d.withoutConsumerChanges false (.ok changes) entries = .ok sent ∧ e ∈ sent) ↔
      (ch.isOpaque = true ∨ ch.dir = true ∨ d.fillsOwn e.path ch = true) := by
  obtain ⟨theirs, htheirs, hat⟩ := consumersOwn_of_mem (d := d) hdistinct he hch hp
  have hsent : d.withoutConsumerChanges false (.ok changes) entries =
      .ok (entries.filter fun e ↦ (theirs e.path).isNone) := by
    rw [withoutConsumerChanges, htheirs]
    rfl
  rw [hsent]
  simp only [Except.ok.injEq, exists_eq_left', List.mem_filter, he, true_and, hat]
  cases ch.isOpaque <;> cases ch.dir <;> cases d.fillsOwn e.path ch <;> simp

/-- An invalidation sends what the fill sends, and beside it what the consumer did not
change later by more than the margin. -/
theorem mem_withoutLaterConsumerChanges
    (he : e ∈ entries) (hch : ch ∈ changes) (hp : ch.path = e.path)
    (hours : d.ctimeAt e.path = some ours) (hknown : ch.changed ≠ 0) :
    e ∈ d.withoutLaterConsumerChanges false (.ok changes) entries ↔
      (ch.isOpaque = true ∨ ch.dir = true ∨ d.fillsOwn e.path ch = true) ∨
        consumerLater ch.changed ours d.skew d.margin = false := by
  obtain ⟨theirs, htheirs, hat⟩ := consumersOwn_of_mem (d := d) hdistinct he hch hp
  simp only [withoutLaterConsumerChanges, htheirs, List.mem_filter, he, true_and, hat]
  cases ch.isOpaque <;> cases ch.dir <;> cases d.fillsOwn e.path ch <;> simp [hknown, hours]

end

/-- Short of a lead by more than the margin, a decision carries nothing of the change: the
consumer's change is of a file held and changed here since, or of one that is here and not
held, or it is no version of its own. -/
def NeedsLead (d : Deciding) (ch : Change) (ours : Int) : Prop :=
  match d.manifest.lookup ch.path, d.localAt ch.path with
  | none, none => ch.deleted = true ∨ ch.path ∈ d.recorded
  | none, some _ => True
  | some b, none => ch.deleted = true ∨ b.carries ch = true
  | some b, some i =>
    let youChanged := i.size ≠ b.size ∨ i.modTime ≠ b.modTime
    i.isDir = true ∨
      if ch.deleted then youChanged
      else sameContent ch i = true ∨ b.carries ch = true ∨
        (youChanged ∧ consumerLater ch.changed ours d.skew 0 = false)

/-- With both times known, the consumer's lead is the comparison of the two. -/
theorem later_iff_consumerLater {p : SharePath} {theirs lead : Int}
    (hours : d.ctimeAt p = some ours) (hknown : theirs ≠ 0) :
    d.Later p theirs lead ↔ consumerLater theirs ours d.skew lead = true := by
  simp [Later, hours, hknown, consumerLater]

/-- Without the lead, what a decision carries is what does not need one. -/
theorem exists_takes_iff_not_needsLead
    (hours : d.ctimeAt ch.path = some ours) (hknown : ch.changed ≠ 0)
    (hlead : consumerLater ch.changed ours d.skew d.margin = false) :
    (∃ k, k ≠ .chmod ∧ Takes d ch k) ↔ ¬ d.NeedsLead ch ours := by
  have hnot : ¬ d.Later ch.path ch.changed d.margin := by
    rw [later_iff_consumerLater hours hknown, hlead]
    simp
  have hwritten : ch.writtenAt = ch.changed := by simp [Change.writtenAt, hknown]
  have hwins : ∀ i, d.heldWins ch i = consumerLater ch.changed ours d.skew 0 := by
    intro i
    simp [heldWins, lastWriter, hknown, hours]
  constructor
  · rintro ⟨k, hk, ht⟩
    cases ht with
    | removedDir _ _ _ _ hlate => exact absurd hlate hnot
    | execBit => exact absurd rfl hk
    | newFile hgone hsent hkept hrec => simp [NeedsLead, hgone, hsent, hkept, hrec]
    | unheldDeleted _ _ _ _ _ hlate => exact absurd hlate hnot
    | unheldWritten _ _ _ _ _ _ hlate => exact absurd (hwritten ▸ hlate) hnot
    | heldDeleted i b hi hf hsent hdel hsize hmod =>
      simp [NeedsLead, hi, hsent, hf, hdel, hsize, hmod]
    | heldWritten i b hi hf hsent hkept hdiff hnew hsize hmod =>
      simp [NeedsLead, hi, hsent, hf, hkept, hdiff, hnew, hsize, hmod]
    | heldGone b hgone hsent hkept hnew => simp [NeedsLead, hgone, hsent, hkept, hnew]
    | heldBoth i b hi hf hsent hkept hdiff hnew hyou hw =>
      rw [hwins] at hw
      simp [NeedsLead, hi, hsent, hf, hkept, hdiff, hnew, hw]
  · intro hno
    unfold NeedsLead at hno
    split at hno
    · next hsent hgone =>
      rw [not_or, Bool.not_eq_true] at hno
      exact ⟨.write, by simp, .newFile hgone hsent hno.1 hno.2⟩
    · simp at hno
    · next b hsent hgone =>
      rw [not_or, Bool.not_eq_true, Bool.not_eq_true] at hno
      exact ⟨.conflict, by simp, .heldGone b hgone hsent hno.1 hno.2⟩
    · next b i hsent hi =>
      rw [not_or, Bool.not_eq_true] at hno
      obtain ⟨hf, hno⟩ := hno
      cases hdel : ch.deleted with
      | true =>
        simp only [hdel, if_true, not_or, not_not] at hno
        exact ⟨.delete, by simp, .heldDeleted i b hi hf hsent hdel hno.1 hno.2⟩
      | false =>
        simp only [hdel, Bool.false_eq_true, if_false, not_or, Bool.not_eq_true, not_and,
          Bool.not_eq_false] at hno
        obtain ⟨hdiff, hnew, hboth⟩ := hno
        by_cases hyou : i.size ≠ b.size ∨ i.modTime ≠ b.modTime
        · exact ⟨.conflict, by simp, .heldBoth i b hi hf hsent hdel hdiff hnew hyou
            ((hwins i).trans (hboth hyou))⟩
        · rw [not_or, not_not, not_not] at hyou
          exact ⟨.write, by simp, .heldWritten i b hi hf hsent hdel hdiff hnew hyou.1 hyou.2⟩

private theorem exists_carries_iff (hdistinct : (changes.map (·.path)).Nodup) (hch : ch ∈ changes) :
    (∃ a ∈ d.decide changes, a.path = ch.path ∧ a.carries = true) ↔
      (ch.link = "" ∧ ch.isOpaque = false ∧ ch.dir = false) ∧ ∃ k, k ≠ .chmod ∧ Takes d ch k := by
  constructor
  · rintro ⟨a, ha, hpath, hcarries⟩
    have ht : a.takes = true := by simp [Action.takes, hcarries]
    obtain ⟨ch', hch', hp, hplain, htakes⟩ := takes_of_mem_decide ha ht
    have heq : ch' = ch := List.inj_on_of_nodup_map hdistinct hch' hch (hp.trans hpath)
    subst heq
    refine ⟨hplain, a.kind, ?_, htakes⟩
    intro hk
    simp [Action.carries, Action.fetches, hk] at hcarries
  · rintro ⟨⟨hlink, hop, hdir⟩, k, hk, htakes⟩
    obtain ⟨a, ha, ht, rfl⟩ := decideChange_of_takes hlink hop hdir htakes
    refine ⟨_, mem_decide.mpr ⟨ch, hch, a, ha, rfl⟩, ?_, ?_⟩
    · show a.path = ch.path
      exact path_of_decideChange ha
    · show a.carries = true
      simpa [Action.takes, hk] using ht

/-- With the lead, a change that a decision carries is one sending leaves out. -/
theorem fillsOwn_eq_false_of_takes {k : Kind}
    (hours : d.ctimeAt ch.path = some ours) (hknown : ch.changed ≠ 0)
    (hlead : consumerLater ch.changed ours d.skew d.margin = true) (hk : k ≠ .chmod)
    (ht : Takes d ch k) : d.fillsOwn ch.path ch = false := by
  cases ht with
  | removedDir _ _ _ hdel => simp [fillsOwn, hdel, hknown, hours, hlead]
  | execBit => exact absurd rfl hk
  | newFile hgone hsent hkept => simp [fillsOwn, hkept, hsent, hgone]
  | unheldDeleted _ _ _ _ hdel => simp [fillsOwn, hdel, hknown, hours, hlead]
  | unheldWritten i hi _ hsent hkept hdiff => simp [fillsOwn, hkept, hsent, hi, hdiff]
  | heldDeleted _ _ _ _ _ hdel => simp [fillsOwn, hdel, hknown, hours, hlead]
  | heldWritten _ _ _ _ hsent hkept _ hnew => simp [fillsOwn, hkept, hsent, hnew]
  | heldGone _ _ hsent hkept hnew => simp [fillsOwn, hkept, hsent, hnew]
  | heldBoth _ _ _ _ hsent hkept _ hnew => simp [fillsOwn, hkept, hsent, hnew]

/-- Sending and write-back agree about one change, with both times known, exactly where
the share is not written back, the consumer leads by more than the margin, the change is
not one of a file, or a decision needs that lead too. -/
theorem sends_and_carries_iff (d : Deciding) (ephemeral : Bool) (changes : List Change)
    (hdistinct : (changes.map (·.path)).Nodup) (entries : List Entry) (e : Entry)
    (he : e ∈ entries) (ch : Change) (hch : ch ∈ changes) (hp : ch.path = e.path) (ours : Int)
    (hours : d.ctimeAt e.path = some ours) (hknown : ch.changed ≠ 0) :
    (¬ ((e ∈ d.withoutLaterConsumerChanges ephemeral (.ok changes) entries ∨
          ∃ sent, d.withoutConsumerChanges ephemeral (.ok changes) entries = .ok sent ∧
            e ∈ sent) ∧
        ∃ a ∈ d.roundActions ephemeral changes, a.path = e.path ∧ a.carries = true)) ↔
      (ephemeral = true ∨ consumerLater ch.changed ours d.skew d.margin = true ∨
        ch.link ≠ "" ∨ ch.isOpaque = true ∨ ch.dir = true ∨ d.NeedsLead ch ours) := by
  cases ephemeral with
  | true => simp [roundActions]
  | false =>
    rw [mem_withoutLaterConsumerChanges hdistinct he hch hp hours hknown,
      mem_withoutConsumerChanges hdistinct he hch hp]
    simp only [roundActions, Bool.false_eq_true, if_false, false_or, ← hp]
    rw [exists_carries_iff hdistinct hch]
    rw [← hp] at hours
    by_cases hplain : ch.link = "" ∧ ch.isOpaque = false ∧ ch.dir = false
    · obtain ⟨hlink, hop, hdir⟩ := hplain
      cases hlead : consumerLater ch.changed ours d.skew d.margin with
      | true =>
        simp only [hop, hdir, Bool.false_eq_true, false_or, Bool.true_eq_false, or_false,
          or_self, true_or, iff_true]
        rintro ⟨hfills, -, k, hk, ht⟩
        rw [fillsOwn_eq_false_of_takes hours hknown hlead hk ht] at hfills
        simp at hfills
      | false =>
        rw [exists_takes_iff_not_needsLead hours hknown hlead]
        simp [hlink, hop, hdir]
    · have hnot : ch.link ≠ "" ∨ ch.isOpaque = true ∨ ch.dir = true := by
        simpa only [not_and_or, Bool.not_eq_false] using hplain
      simp only [hplain, false_and, and_false, not_false_eq_true, true_iff]
      tauto

/-- A held file edited here at 100, with a link whose round trip leaves a margin of 5. -/
def editedHere : Deciding :=
  { ofFile ["a"] { size := 2, modTime := 90 } 100 5 with
    manifest := AList.singleton ["a"] { size := 1, modTime := 5 }
    recorded := {["a"]} }

/-- The consumer edited it within the margin after: an invalidation sends the version here
over the consumer's, and a round carries the consumer's over the one here. -/
theorem editedHere_sent_and_carried :
    (⟨["a"], 2⟩ : Entry) ∈ editedHere.withoutLaterConsumerChanges false
        (.ok [{ path := ["a"], size := 3, modTime := 95, changed := 102 }]) [⟨["a"], 2⟩] ∧
      ∃ a ∈ editedHere.roundActions false
          [{ path := ["a"], size := 3, modTime := 95, changed := 102 }],
        a.path = ["a"] ∧ a.carries = true := by
  decide

/-- A consumer that edited it before is left to lose in both. -/
theorem sends_and_carries_iff_earlier :
    ¬ ((⟨["a"], 2⟩ : Entry) ∈ editedHere.withoutLaterConsumerChanges false
          (.ok [{ path := ["a"], size := 3, modTime := 95, changed := 98 }]) [⟨["a"], 2⟩] ∧
        ∃ a ∈ editedHere.roundActions false
            [{ path := ["a"], size := 3, modTime := 95, changed := 98 }],
          a.path = ["a"] ∧ a.carries = true) := by
  have hlead :
      editedHere.NeedsLead { path := ["a"], size := 3, modTime := 95, changed := 98 } 100 :=
    .inr (.inr (.inr ⟨.inl (by decide), by decide⟩))
  have h := (sends_and_carries_iff editedHere false
    [{ path := ["a"], size := 3, modTime := 95, changed := 98 }] (by decide) [⟨["a"], 2⟩]
    ⟨["a"], 2⟩ (by decide) { path := ["a"], size := 3, modTime := 95, changed := 98 } (by decide)
    rfl 100 (by decide) (by decide)).mpr (by simp [hlead])
  intro hboth
  exact h ⟨.inl hboth.1, hboth.2⟩

end Deciding
end RemoteDocker.DirCache

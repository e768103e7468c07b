import RemoteDocker.DirCache.Decide

/-!
# Who wrote last

Every way a decision of `src/dircache/decide.go` can change a file here is listed once, in
`Takes`: the ordered table goes into it (`takes_of_decideChange`) and comes out of it
(`decideChange_of_takes`), so later results case on it and never on the table. The
last-writer law of the file's own comment is the first of them.
-/

namespace RemoteDocker.DirCache

open Base

namespace Deciding

/-- Both times are known, and the consumer's is later by more than `lead` once the skew
is taken off. -/
def Later (d : Deciding) (p : SharePath) (theirs : Int) (lead : Int) : Prop :=
  theirs ≠ 0 ∧ ∃ ours, d.ctimeAt p = some ours ∧ ours + lead < theirs - d.skew

variable {d : Deciding} {p : SharePath} {ch : Change} {a : Action} {i : FileInfo} {k : Kind}

private theorem lastWriter_eq_true {theirs : Int} {lead : Int} {ours : Int} :
    d.lastWriter p theirs lead = some (ours, true) ↔
      theirs ≠ 0 ∧ d.ctimeAt p = some ours ∧ ours + lead < theirs - d.skew := by
  unfold lastWriter
  by_cases hz : theirs = 0
  · simp [hz]
  · cases hc : d.ctimeAt p with
    | none => simp [hz]
    | some c =>
      simp only [beq_iff_eq, hz, if_false, Option.map_some, Option.some.injEq, Prod.mk.injEq,
        consumerLater, decide_eq_true_eq, ne_eq, not_false_eq_true, true_and]
      constructor
      · rintro ⟨rfl, hlt⟩
        exact ⟨rfl, hlt⟩
      · rintro ⟨rfl, hlt⟩
        exact ⟨rfl, hlt⟩

theorem later_iff {theirs : Int} {lead : Int} :
    d.Later p theirs lead ↔ ∃ ours, d.lastWriter p theirs lead = some (ours, true) := by
  simp only [lastWriter_eq_true, Later, exists_and_left]

/-- The ways `decide` writes, deletes or changes the mode of a path, with the kind of
the action; a conflict here is one the consumer wins. -/
inductive Takes (d : Deciding) (ch : Change) : Kind → Prop where
  | removedDir (i : FileInfo) (hi : d.localAt ch.path = some i) (hdir : i.isDir = true)
      (hdel : ch.deleted = true) (hlate : d.Later ch.path ch.changed d.margin) :
      Takes d ch .delete
  | execBit (i : FileInfo) (hi : d.localAt ch.path = some i) (hfile : i.isDir = false)
      (hkept : ch.deleted = false) (hsame : sameContent ch i = true)
      (hflip : execFlip ch (some i) d.exec ≠ 0)
      (hlate : d.Later ch.path ch.changed d.margin) : Takes d ch .chmod
  | newFile (hgone : d.localAt ch.path = none) (hsent : d.manifest.lookup ch.path = none)
      (hkept : ch.deleted = false) (hrec : ch.path ∉ d.recorded) : Takes d ch .write
  | unheldDeleted (i : FileInfo) (hi : d.localAt ch.path = some i) (hfile : i.isDir = false)
      (hsent : d.manifest.lookup ch.path = none) (hdel : ch.deleted = true)
      (hlate : d.Later ch.path ch.changed d.margin) : Takes d ch .delete
  | unheldWritten (i : FileInfo) (hi : d.localAt ch.path = some i) (hfile : i.isDir = false)
      (hsent : d.manifest.lookup ch.path = none) (hkept : ch.deleted = false)
      (hdiff : sameContent ch i = false)
      (hlate : d.Later ch.path ch.writtenAt d.margin) : Takes d ch .write
  | heldDeleted (i : FileInfo) (b : Baseline) (hi : d.localAt ch.path = some i)
      (hfile : i.isDir = false) (hsent : d.manifest.lookup ch.path = some b)
      (hdel : ch.deleted = true) (hsize : i.size = b.size) (hmod : i.modTime = b.modTime) :
      Takes d ch .delete
  | heldWritten (i : FileInfo) (b : Baseline) (hi : d.localAt ch.path = some i)
      (hfile : i.isDir = false) (hsent : d.manifest.lookup ch.path = some b)
      (hkept : ch.deleted = false) (hdiff : sameContent ch i = false)
      (hnew : b.carries ch = false) (hsize : i.size = b.size) (hmod : i.modTime = b.modTime) :
      Takes d ch .write
  | heldGone (b : Baseline) (hgone : d.localAt ch.path = none)
      (hsent : d.manifest.lookup ch.path = some b) (hkept : ch.deleted = false)
      (hnew : b.carries ch = false) : Takes d ch .conflict
  | heldBoth (i : FileInfo) (b : Baseline) (hi : d.localAt ch.path = some i)
      (hfile : i.isDir = false) (hsent : d.manifest.lookup ch.path = some b)
      (hkept : ch.deleted = false) (hdiff : sameContent ch i = false)
      (hnew : b.carries ch = false) (hyou : i.size ≠ b.size ∨ i.modTime ≠ b.modTime)
      (hwins : d.heldWins ch i = true) : Takes d ch .conflict

@[simp] theorem takes_keep (p : SharePath) (why : String) : (keep p why).takes = false := rfl

private theorem decideHeld_takes {b : Baseline}
    (h : (d.decideHeld ch b (d.localAt ch.path)).action = some a) (ht : a.takes = true)
    (hfile : ∀ i, d.localAt ch.path = some i → i.isDir = false)
    (hsent : d.manifest.lookup ch.path = some b)
    (hdiff : ch.deleted = false → ∀ i, d.localAt ch.path = some i → sameContent ch i = false)
    (hnew : ch.deleted = false → b.carries ch = false) : Takes d ch a.kind := by
  unfold decideHeld at h
  cases hi : d.localAt ch.path with
  | none =>
    rw [hi] at h
    cases hdel : ch.deleted with
    | true => simp [hdel] at h
    | false =>
      simp only [hdel, Bool.false_eq_true, if_false, Bool.not_true, Option.some.injEq] at h
      subst h
      exact .heldGone b hi hsent hdel (hnew hdel)
  | some i =>
    rw [hi] at h
    by_cases hyou : i.size = b.size ∧ i.modTime = b.modTime
    · obtain ⟨hsize, hmod⟩ := hyou
      cases hdel : ch.deleted with
      | true =>
        simp [hdel, hsize, hmod] at h
        subst h
        exact .heldDeleted i b hi (hfile i hi) hsent hdel hsize hmod
      | false =>
        simp [hdel, hsize, hmod] at h
        subst h
        exact .heldWritten i b hi (hfile i hi) hsent hdel (hdiff hdel i hi) (hnew hdel) hsize hmod
    · have hor : (i.size != b.size || i.modTime != b.modTime) = true := by
        simp only [bne_iff_ne, ne_eq, Bool.or_eq_true]
        exact not_and_or.mp hyou
      cases hdel : ch.deleted with
      | true =>
        simp only [hdel, if_true, Option.isNone_some, Bool.false_eq_true, if_false, hor,
          Option.some.injEq] at h
        subst h
        simp at ht
      | false =>
        simp only [hdel, Bool.false_eq_true, if_false, hor, Bool.not_true, Option.some.injEq] at h
        subst h
        refine .heldBoth i b hi (hfile i hi) hsent hdel (hdiff hdel i hi) (hnew hdel)
          (not_and_or.mp hyou) ?_
        simpa [Action.takes, Action.carries, Action.fetches] using ht

private theorem decideUnheld_takes
    (h : (d.decideUnheld ch (d.localAt ch.path)).action = some a) (ht : a.takes = true)
    (hfile : ∀ i, d.localAt ch.path = some i → i.isDir = false)
    (hsent : d.manifest.lookup ch.path = none)
    (hdiff : ch.deleted = false → ∀ i, d.localAt ch.path = some i → sameContent ch i = false) :
    Takes d ch a.kind := by
  have hthere : ¬(d.localAt ch.path).isNone = true → ∃ i, d.localAt ch.path = some i := fun hsome ↦
    Option.ne_none_iff_exists'.mp (mt Option.isNone_iff_eq_none.mpr hsome)
  revert h
  fun_cases decideUnheld d ch (d.localAt ch.path) <;> rintro ⟨⟩
  case case1 hgone hnew =>
    rw [Bool.and_eq_true, Bool.not_eq_true', decide_eq_true_eq] at hnew
    exact .newFile (Option.isNone_iff_eq_none.mp hgone) hsent hnew.1 hnew.2
  case case5 hsome hdel ours hl =>
    obtain ⟨i, hi⟩ := hthere hsome
    exact .unheldDeleted i hi (hfile i hi) hsent hdel (later_iff.mpr ⟨ours, hl⟩)
  case case8 hsome hdel ours hl =>
    obtain ⟨i, hi⟩ := hthere hsome
    rw [Bool.not_eq_true] at hdel
    exact .unheldWritten i hi (hfile i hi) hsent hdel (hdiff hdel i hi) (later_iff.mpr ⟨ours, hl⟩)
  all_goals simp at ht

private theorem decideCopy_takes
    (h : (d.decideCopy ch (some i)).action = some a) (ht : a.takes = true)
    (hi : d.localAt ch.path = some i) (hfile : i.isDir = false) (hkept : ch.deleted = false)
    (hsame : sameContent ch i = true) : Takes d ch a.kind := by
  revert h
  fun_cases decideCopy d ch (some i) <;> rintro ⟨⟩
  case case2 hflip ours hl =>
    exact .execBit i hi hfile hkept hsame (by simpa using hflip) (later_iff.mpr ⟨ours, hl⟩)
  case case4 => simp [Action.takes, Action.carries, Action.fetches] at ht
  all_goals simp at ht

private theorem decideDirHere_takes (h : (d.decideDirHere ch).action = some a) (ht : a.takes = true)
    (hi : d.localAt ch.path = some i) (hdir : i.isDir = true) : Takes d ch a.kind := by
  revert h
  fun_cases decideDirHere d ch <;> rintro ⟨⟩
  · simp at ht
  · next hdel ours hl =>
    exact .removedDir i hi hdir (by simpa using hdel) (later_iff.mpr ⟨ours, hl⟩)

private theorem decideDir_takes {info : Option FileInfo}
    (h : (d.decideDir p info).action = some a) : a.takes = false := by
  revert h
  fun_cases decideDir d p info <;> rintro ⟨⟩
  · rfl
  · rfl

/-- A decision to change the file here has one of the reasons of `Takes`. -/
theorem takes_of_decideChange (h : d.decideChange ch = some a) (ht : a.takes = true) :
    (ch.link = "" ∧ ch.isOpaque = false ∧ ch.dir = false) ∧ Takes d ch a.kind := by
  have hfile : ¬(d.localAt ch.path).any (·.isDir) = true →
      ∀ i, d.localAt ch.path = some i → i.isDir = false := by
    intro hd i hi
    simpa [hi] using hd
  have hdiff : ¬(!ch.deleted && (d.localAt ch.path).any (sameContent ch)) = true →
      ch.deleted = false → ∀ i, d.localAt ch.path = some i → sameContent ch i = false := by
    intro hd hkept i hi
    simpa [hkept, hi] using hd
  revert h
  fun_cases decideChange d ch
  case case2 =>
    rintro ⟨⟩
    simp [Action.takes, Action.carries, Action.fetches] at ht
  case case4 hlink hop =>
    have hplain : ¬ch.dir = true → ch.link = "" ∧ ch.isOpaque = false ∧ ch.dir = false := by
      intro hdir
      exact ⟨by simpa using hlink, by simpa using hop, by simpa using hdir⟩
    fun_cases decideFile d ch <;> intro h
    case case1 =>
      rw [decideDir_takes h] at ht
      simp at ht
    case case2 hdir hd =>
      obtain ⟨i, hi, hid⟩ := (Option.any_eq_true _ _).mp hd
      exact ⟨hplain hdir, decideDirHere_takes h ht hi hid⟩
    case case3 hdir hd hsame =>
      rw [Bool.and_eq_true, Bool.not_eq_true', Option.any_eq_true] at hsame
      obtain ⟨hkept, i, hi, hsame⟩ := hsame
      rw [hi] at h
      exact ⟨hplain hdir, decideCopy_takes h ht hi (hfile hd i hi) hkept hsame⟩
    case case4 => cases h
    case case5 hdir hd hcopy hnew hb =>
      exact ⟨hplain hdir, decideUnheld_takes h ht (hfile hd) hb (hdiff hcopy)⟩
    case case6 hdir hd hcopy hnew b hb =>
      refine ⟨hplain hdir, decideHeld_takes h ht (hfile hd) hb (hdiff hcopy) ?_⟩
      intro hkept
      simpa [hkept, hb] using hnew
  all_goals simp

/-- Each reason is enough. -/
theorem decideChange_of_takes (hlink : ch.link = "")
    (hop : ch.isOpaque = false) (hdir : ch.dir = false) (h : Takes d ch k) :
    ∃ a, d.decideChange ch = some a ∧ a.takes = true ∧ a.kind = k := by
  have hfile : d.decideChange ch = (d.decideFile ch).action := by
    simp [decideChange, hlink, hop]
  rw [hfile]
  cases h with
  | removedDir i hi hd hdel hlate =>
    obtain ⟨ours, hl⟩ := later_iff.mp hlate
    simp [decideFile, hdir, hi, hd, decideDirHere, hdel, hl, Action.takes, Action.carries]
  | execBit i hi hf hkept hsame hflip hlate =>
    obtain ⟨ours, hl⟩ := later_iff.mp hlate
    simp [decideFile, hdir, hi, hf, hkept, hsame, decideCopy, hflip, hl, Action.takes]
  | newFile hgone hsent hkept hrec =>
    simp [decideFile, hdir, hgone, hsent, decideUnheld, hkept, hrec, Action.takes,
      Action.carries, Action.fetches]
  | unheldDeleted i hi hf hsent hdel hlate =>
    obtain ⟨ours, hl⟩ := later_iff.mp hlate
    simp [decideFile, hdir, hi, hf, hsent, hdel, decideUnheld, hl, Action.takes, Action.carries]
  | unheldWritten i hi hf hsent hkept hdiff hlate =>
    obtain ⟨ours, hl⟩ := later_iff.mp hlate
    simp [decideFile, hdir, hi, hf, hsent, hkept, hdiff, decideUnheld, hl, Action.takes,
      Action.carries, Action.fetches]
  | heldDeleted i b hi hf hsent hdel hsize hmod =>
    simp [decideFile, hdir, hi, hf, hsent, hdel, decideHeld, hsize, hmod, Action.takes,
      Action.carries]
  | heldWritten i b hi hf hsent hkept hdiff hnew hsize hmod =>
    simp [decideFile, hdir, hi, hf, hsent, hkept, hdiff, hnew, decideHeld, hsize, hmod,
      Action.takes, Action.carries, Action.fetches]
  | heldGone b hgone hsent hkept hnew =>
    simp [decideFile, hdir, hgone, hsent, hkept, hnew, decideHeld, Action.takes, Action.carries,
      Action.fetches]
  | heldBoth i b hi hf hsent hkept hdiff hnew hyou hwins =>
    have hor : (i.size != b.size || i.modTime != b.modTime) = true := by
      simpa only [Bool.or_eq_true, bne_iff_ne] using hyou
    simp [decideFile, hdir, hi, hf, hsent, hkept, hdiff, hnew, decideHeld, hor, hwins,
      Action.takes, Action.carries, Action.fetches]

theorem takes_of_mem_decide {changes : List Change}
    (h : a ∈ d.decide changes) (ht : a.takes = true) :
    ∃ ch ∈ changes, ch.path = a.path ∧ (ch.link = "" ∧ ch.isOpaque = false ∧ ch.dir = false) ∧
      Takes d ch a.kind := by
  obtain ⟨ch, hch, a₀, ha₀, rfl⟩ := mem_decide.mp h
  obtain ⟨hplain, htakes⟩ := takes_of_decideChange ha₀ ht
  exact ⟨ch, hch, (path_of_decideChange ha₀).symm, hplain, htakes⟩

/-- Without a lead of the consumer's over our change time, a file that is not held, or that
changed here since it was sent, is not changed by a decision. -/
theorem not_takes_of_not_later {ours : Int} (hmargin : 0 ≤ d.margin)
    (hi : d.localAt ch.path = some i)
    (hfile : i.isDir = false) (hours : d.ctimeAt ch.path = some ours)
    (hknown : ch.changed ≠ 0) (hlast : ch.changed - d.skew ≤ ours)
    (hyou : ∀ b, d.manifest.lookup ch.path = some b → i.size ≠ b.size ∨ i.modTime ≠ b.modTime) :
    ¬ Takes d ch k := by
  have hnot : ∀ lead, 0 ≤ lead → ¬ d.Later ch.path ch.changed lead := by
    rintro lead hlead ⟨-, c, hc, hlt⟩
    rw [hours, Option.some.injEq] at hc
    omega
  have hwritten : ch.writtenAt = ch.changed := by simp [Change.writtenAt, hknown]
  intro ht
  cases ht with
  | removedDir j hj hdir _ _ =>
    rw [hi, Option.some.injEq] at hj
    rw [← hj, hfile] at hdir
    simp at hdir
  | execBit _ _ _ _ _ _ hlate => exact hnot _ hmargin hlate
  | newFile hgone _ _ _ => simp [hi] at hgone
  | unheldDeleted _ _ _ _ _ hlate => exact hnot _ hmargin hlate
  | unheldWritten _ _ _ _ _ _ hlate =>
    rw [hwritten] at hlate
    exact hnot _ hmargin hlate
  | heldDeleted j b hj _ hb _ hsize hmod =>
    rw [hi, Option.some.injEq] at hj
    subst hj
    exact (hyou b hb).elim (· hsize) (· hmod)
  | heldWritten j b hj _ hb _ _ _ hsize hmod =>
    rw [hi, Option.some.injEq] at hj
    subst hj
    exact (hyou b hb).elim (· hsize) (· hmod)
  | heldGone _ hgone _ _ _ => simp [hi] at hgone
  | heldBoth j b hj _ _ _ _ _ _ hwins =>
    -- The change times are known on both sides, so the modification times are not asked.
    have hl : d.lastWriter ch.path ch.changed 0 = some (ours, false) := by
      simp only [lastWriter, beq_iff_eq, hknown, if_false, hours, Option.map_some, consumerLater,
        Option.some.injEq, Prod.mk.injEq, true_and, decide_eq_false_iff_not]
      omega
    simp [heldWins, hl] at hwins

/-- A file here that is not held is written or deleted only once the consumer leads our
change time by more than the margin. -/
theorem later_of_takes_unheld
    (hi : d.localAt ch.path = some i) (hsent : d.manifest.lookup ch.path = none)
    (hk : k = .write ∨ k = .delete)
    (ht : Takes d ch k) :
    d.Later ch.path (if ch.deleted then ch.changed else ch.writtenAt) d.margin := by
  cases ht with
  | removedDir _ _ _ hdel hlate => simpa [hdel] using hlate
  | execBit => simp at hk
  | newFile hgone _ _ _ => simp [hi] at hgone
  | unheldDeleted _ _ _ _ hdel hlate => simpa [hdel] using hlate
  | unheldWritten _ _ _ _ hkept _ hlate => simpa [hkept] using hlate
  | heldDeleted _ _ _ _ hb => simp [hsent] at hb
  | heldWritten _ _ _ _ hb => simp [hsent] at hb
  | heldGone _ _ hb => simp [hsent] at hb
  | heldBoth _ _ _ _ hb => simp [hsent] at hb

/-- A held version the baseline already stands for is not fetched. -/
theorem carries_eq_false_of_takes {b : Baseline}
    (hb : d.manifest.lookup ch.path = some b) (hk : k = .write ∨ k = .conflict)
    (ht : Takes d ch k) : b.carries ch = false := by
  cases ht with
  | removedDir => simp at hk
  | execBit => simp at hk
  | newFile _ hsent => simp [hb] at hsent
  | unheldDeleted => simp at hk
  | unheldWritten _ _ _ hsent => simp [hb] at hsent
  | heldDeleted => simp at hk
  | heldWritten _ b' _ _ hb' _ _ hnew => exact (Option.some.inj (hb'.symm.trans hb)) ▸ hnew
  | heldGone b' _ hb' _ hnew => exact (Option.some.inj (hb'.symm.trans hb)) ▸ hnew
  | heldBoth _ b' _ _ hb' _ _ hnew => exact (Option.some.inj (hb'.symm.trans hb)) ▸ hnew

/-- Last-writer safety. A file changed here no earlier than the consumer changed it, and
not the one the cache was sent, is left alone; a file the cache never held is written or
deleted only by a consumer that is later by more than the margin. -/
theorem decide_last_writer_wins (d : Deciding) (changes : List Change)
    (hdistinct : (changes.map (·.path)).Nodup) (hmargin : 0 ≤ d.margin) (ch : Change)
    (hch : ch ∈ changes) (i : FileInfo) (hi : d.localAt ch.path = some i)
    (hfile : i.isDir = false) (a : Action) (ha : a ∈ d.decide changes)
    (hpath : a.path = ch.path) :
    (∀ ours, d.ctimeAt ch.path = some ours → ch.changed ≠ 0 → ch.changed - d.skew ≤ ours →
      (∀ b, d.manifest.lookup ch.path = some b → i.size ≠ b.size ∨ i.modTime ≠ b.modTime) →
      a.kind ≠ .write ∧ a.kind ≠ .delete ∧ a.kind ≠ .chmod ∧
        ¬ (a.kind = .conflict ∧ a.wins = true)) ∧
    (d.manifest.lookup ch.path = none → a.kind = .write ∨ a.kind = .delete →
      ∃ ours, d.ctimeAt ch.path = some ours ∧
        (if ch.deleted then ch.changed else ch.writtenAt) ≠ 0 ∧
        ours + d.margin < (if ch.deleted then ch.changed else ch.writtenAt) - d.skew) := by
  have hfrom : a.takes = true → Takes d ch a.kind := by
    intro ht
    obtain ⟨ch', hch', hp, -, htakes⟩ := takes_of_mem_decide ha ht
    have heq : ch' = ch := List.inj_on_of_nodup_map hdistinct hch' hch (hp.trans hpath)
    exact heq ▸ htakes
  constructor
  · intro ours hours hknown hlast hyou
    have hnot : a.takes = false := by
      by_contra ht
      rw [Bool.not_eq_false] at ht
      exact not_takes_of_not_later hmargin hi hfile hours hknown hlast hyou (hfrom ht)
    exact Action.takes_eq_false.mp hnot
  · intro hsent hk
    have ht : a.takes = true := by
      rcases hk with hk | hk <;> simp [Action.takes, Action.carries, Action.fetches, hk]
    obtain ⟨hne, ours, hours, hlt⟩ := later_of_takes_unheld hi hsent hk (hfrom ht)
    exact ⟨ours, hours, hne, hlt⟩

/-- A file edited here after the consumer edited it is kept. -/
theorem decide_last_writer_wins_kept :
    ∃ a ∈ (ofFile ["a"] { size := 1, modTime := 5 } 20 3).decide
        [{ path := ["a"], size := 2, modTime := 7, changed := 10 }],
      a.kind ≠ .write ∧ a.kind ≠ .delete ∧ a.kind ≠ .chmod ∧
        ¬ (a.kind = .conflict ∧ a.wins = true) := by
  refine ⟨{ path := ["a"], kind := .conflict, why := whyYouLater,
            seen := { here := true, size := 1, mod := 5, ctime := some 20 } }, by decide, ?_⟩
  exact (decide_last_writer_wins (ofFile ["a"] { size := 1, modTime := 5 } 20 3)
    [{ path := ["a"], size := 2, modTime := 7, changed := 10 }]
    (by decide) (by decide) _ (List.mem_singleton_self _) { size := 1, modTime := 5 } (by decide)
    rfl _ (by decide) rfl).1 20 (by decide) (by decide) (by decide) (by simp [ofFile])

end Deciding
end RemoteDocker.DirCache

import RemoteDocker.Base.Chunks
import RemoteDocker.Base.LeastFirst
import RemoteDocker.Base.Machine
import RemoteDocker.Base.SharePath

/-!
# Which pending files a pass asks for

A pass takes the pending writes that were tried least, in chunks, and counts a try for each it
took that did not land (`src/dircache/writepass.go:88-109,278-337`,
`src/dircache/wbstate.go:237-284`). A chunk that fails is gone past; a full disk, three failures
in a row or a cancelled pass end it there, with the chunks behind never asked for.

The count is of what the pass took and not of what it asked the store for, so a pass that ends
early counts a try for files nobody asked for (`unasked_counted`): they keep their place behind
the chunk that ended it, pass after pass. `asked_evenly` is about the passes that get through.

The pending writes are those of `writes(actions)`, in its order. A file that lands or is given
up on is pending no more.
-/

namespace RemoteDocker.DirCache.Ranking

open Base

def writeBackRoundFiles : Nat := 2000

def pullChunk : Nat := 200

/-- How the pull of a chunk ended: the disk was full, the pull failed, perhaps for a pass that
is being cancelled, or it went through. -/
inductive ChunkEnd where
  | full
  | failed (cancelled : Bool)
  | fetched
  deriving DecidableEq, Repr

inductive FileEnd where
  | landed
  | givenUp
  | left
  deriving DecidableEq, Repr

/-- One pass: how its chunks end, in order, and what becomes of each file. -/
structure Pass where
  chunk : Nat → ChunkEnd
  file : SharePath → FileEnd

/-- What `pull` answers: the failures in a row if the pass can go on. -/
def goesOn (fails : Nat) : ChunkEnd → Option Nat
  | .full => none
  | .failed cancelled => if fails + 1 < 3 && !cancelled then some (fails + 1) else none
  | .fetched => some 0

/-- The chunks a pass asks the store for, from the `i`th on. -/
def pulls (chunk : Nat → ChunkEnd) : Nat → Nat → List (List SharePath) → List (List SharePath)
  | _, _, [] => []
  | i, fails, c :: rest =>
    match goesOn fails (chunk i) with
    | some fails => c :: pulls chunk (i + 1) fails rest
    | none => [c]

def getsThrough (chunk : Nat → ChunkEnd) : Nat → Nat → List (List SharePath) → Bool
  | _, _, [] => true
  | _, _, [_] => true
  | i, fails, _ :: c :: rest =>
    match goesOn fails (chunk i) with
    | some fails => getsThrough chunk (i + 1) fails (c :: rest)
    | none => false

/-- The pending writes of a share, `wbState.tried`, and how many passes asked the store for
each. -/
structure State where
  pending : List SharePath
  tried : SharePath → Nat := fun _ ↦ 0
  asked : SharePath → Nat := fun _ ↦ 0

namespace State

/-- What a pass takes up: the least tried, up to the cap. -/
def picked (s : State) : List SharePath :=
  (leastFirst s.tried s.pending).take writeBackRoundFiles

def chunks (s : State) : List (List SharePath) := s.picked.toChunks pullChunk

def askedBy (s : State) (pass : Pass) : List SharePath :=
  (pulls pass.chunk 0 0 s.chunks).flatten

def landedBy (s : State) (pass : Pass) : List SharePath :=
  (s.askedBy pass).filter fun p ↦ pass.file p == .landed

/-- What `try` counts: what the pass took up and did not land. -/
def counted (s : State) (pass : Pass) : List SharePath :=
  s.picked.filter fun p ↦ !(s.landedBy pass).contains p

def after (s : State) (pass : Pass) : State where
  pending := s.pending.filter fun p ↦ !((s.askedBy pass).contains p && pass.file p != .left)
  tried := fun p ↦
    if p ∈ s.landedBy pass then 0
    else if p ∈ s.counted pass then s.tried p + 1
    else s.tried p
  asked := fun p ↦ if p ∈ s.askedBy pass then s.asked p + 1 else s.asked p

end State

def machine : Machine State Pass where
  step s pass := some (s.after pass)

def careful (s : State) (pass : Pass) : Bool := getsThrough pass.chunk 0 0 s.chunks

/-- A pass asks for its first chunks, and for all exactly when it gets to the last. -/
theorem exists_unasked (chunk : Nat → ChunkEnd) (i fails : Nat) (cs : List (List SharePath)) :
    ∃ rest, cs = pulls chunk i fails cs ++ rest ∧
      (getsThrough chunk i fails cs = true ↔ rest = []) := by
  induction cs generalizing i fails with
  | nil => exact ⟨[], rfl, by simp [getsThrough]⟩
  | cons c cs ih =>
    rw [pulls]
    cases hgo : goesOn fails (chunk i) with
    | none =>
      refine ⟨cs, rfl, ?_⟩
      cases cs with
      | nil => simp [getsThrough]
      | cons d cs => simp [getsThrough, hgo]
    | some more =>
      obtain ⟨rest, heq, hiff⟩ := ih (i + 1) more
      refine ⟨rest, ?_, ?_⟩
      · rw [List.cons_append, ← heq]
      · cases cs with
        | nil =>
          have hnil : rest = [] := by simpa [pulls] using heq.symm
          simp [getsThrough, hnil]
        | cons d cs =>
          rw [getsThrough, hgo]
          exact hiff

variable {s : State} {pass : Pass} {p : SharePath}

private theorem asked_after_of_mem (h : p ∈ s.askedBy pass) :
    (s.after pass).asked p = s.asked p + 1 :=
  if_pos h

private theorem asked_after_of_notMem (h : p ∉ s.askedBy pass) :
    (s.after pass).asked p = s.asked p :=
  if_neg h

private theorem asked_of_careful (h : careful s pass = true) : s.askedBy pass = s.picked := by
  obtain ⟨rest, heq, hiff⟩ := exists_unasked pass.chunk 0 0 s.chunks
  rw [hiff.mp h, List.append_nil] at heq
  rw [State.askedBy, ← heq]
  exact flatten_toChunks pullChunk s.picked

private theorem exists_not_asked (hnodup : s.pending.Nodup) (h : careful s pass = false) :
    ∃ p ∈ s.picked, p ∉ s.askedBy pass := by
  obtain ⟨rest, heq, hiff⟩ := exists_unasked pass.chunk 0 0 s.chunks
  have hflat : s.askedBy pass ++ rest.flatten = s.picked := by
    rw [State.askedBy, ← List.flatten_append, ← heq]
    exact flatten_toChunks pullChunk s.picked
  have hpicked : s.picked.Nodup := (nodup_leastFirst hnodup).sublist (List.take_sublist _ _)
  cases rest with
  | nil =>
    rw [careful] at h
    rw [hiff.mpr rfl] at h
    simp at h
  | cons c rest =>
    -- The first chunk behind has a file, and the chunks share none.
    have hc : c ∈ s.chunks := by
      rw [heq]
      exact List.mem_append_right _ (.head _)
    have hne : c ≠ [] := by
      rintro rfl
      exact nil_notMem_toChunks pullChunk s.picked hc
    obtain ⟨p, hp⟩ := List.exists_mem_of_ne_nil c hne
    have hrest : p ∈ (c :: rest).flatten := List.mem_flatten.mpr ⟨c, (.head _), hp⟩
    refine ⟨p, ?_, ?_⟩
    · rw [← hflat]
      exact List.mem_append_right _ hrest
    · intro hasked
      rw [← hflat, List.nodup_append] at hpicked
      exact hpicked.2.2 p hasked p hrest rfl

/-- A pass counts a try for exactly what it asked for and did not land when it gets through. -/
theorem counts_exactly_iff (hnodup : s.pending.Nodup) :
    (∀ p, p ∈ s.counted pass ↔ p ∈ s.askedBy pass ∧ p ∉ s.landedBy pass) ↔
      careful s pass = true := by
  constructor
  · intro hexact
    by_contra hearly
    rw [Bool.not_eq_true] at hearly
    obtain ⟨p, hp, hnot⟩ := exists_not_asked hnodup hearly
    have hcounted : p ∈ s.counted pass := by
      refine List.mem_filter.mpr ⟨hp, ?_⟩
      have hnl : p ∉ s.landedBy pass := fun hl ↦ hnot (List.mem_filter.mp hl).1
      simpa using hnl
    exact hnot ((hexact p).mp hcounted).1
  · intro hc p
    rw [State.counted, List.mem_filter, asked_of_careful hc]
    simp

/-- The counts are of the passes that asked, and those differ by at most one. -/
structure Inv (s : State) : Prop where
  nodup : s.pending.Nodup
  counts : ∀ p ∈ s.pending, s.tried p = s.asked p
  even : WithinOne s.asked s.pending

private theorem not_landed_of_pending (h : p ∈ (s.after pass).pending) :
    p ∈ s.pending ∧ p ∉ s.landedBy pass := by
  obtain ⟨hp, hleft⟩ := List.mem_filter.mp h
  refine ⟨hp, fun hl ↦ ?_⟩
  obtain ⟨hasked, hland⟩ := List.mem_filter.mp hl
  have hfile : pass.file p = .landed := by simpa using hland
  rw [List.contains_iff_mem.mpr hasked, hfile] at hleft
  simp at hleft

private theorem inv_after (h : Inv s) (hc : careful s pass = true) : Inv (s.after pass) := by
  have hasked := asked_of_careful hc
  constructor
  case nodup => exact h.nodup.filter _
  case counts =>
    intro p hp
    obtain ⟨hpending, hland⟩ := not_landed_of_pending hp
    have hcounted : p ∈ s.counted pass ↔ p ∈ s.askedBy pass := by
      rw [State.counted, List.mem_filter, hasked]
      simp [hland]
    simp only [State.after, if_neg hland, hcounted, h.counts p hpending]
  case even =>
    apply WithinOne.mono _ fun p hp ↦ (not_landed_of_pending hp).1
    have htried : WithinOne s.tried s.pending := h.even.congr h.counts
    apply htried.serve writeBackRoundFiles
    · intro p hp hpicked
      rw [h.counts p hp]
      apply asked_after_of_mem
      rw [hasked]
      exact hpicked
    · intro p hp hpassed
      rw [h.counts p hp]
      apply asked_after_of_notMem
      rw [hasked]
      exact hpassed

/-- In every run of passes that each get to their last chunk, from nothing tried: the counts are
of the passes that asked the store, no two pending files were asked for a number of times that
differs by more than one, and a pass counts exactly what it asked for and did not land when it
gets to its last chunk. -/
theorem asked_evenly (pending : List SharePath) (hnodup : pending.Nodup) (passes : List Pass)
    (s : State) (hrun : machine.run { pending } passes = some s)
    (hcareful : machine.Within (fun s pass ↦ careful s pass = true) { pending } passes) :
    (∀ p ∈ s.pending, s.tried p = s.asked p) ∧
      (∀ p ∈ s.pending, ∀ q ∈ s.pending, s.asked p ≤ s.asked q + 1) ∧
      ∀ pass, (∀ p, p ∈ s.counted pass ↔ p ∈ s.askedBy pass ∧ p ∉ s.landedBy pass) ↔
        careful s pass = true := by
  have hstart : Inv { pending } :=
    ⟨hnodup, fun _ _ ↦ rfl, fun _ _ _ _ ↦ Nat.zero_le _⟩
  have hstep : ∀ s pass s', Inv s → careful s pass = true → machine.step s pass = some s' →
      Inv s' := by
    intro s pass s' hinv hc hs
    cases hs
    exact inv_after hinv hc
  have hinv := machine.run_invariant (fun s pass ↦ careful s pass = true) hstep hstart hcareful hrun
  exact ⟨hinv.counts, hinv.even, fun pass ↦ counts_exactly_iff hinv.nodup⟩

private def oneLands : Pass where
  chunk := fun _ ↦ .failed false
  file := fun p ↦ if p = ["b"] then .landed else .left

/-- Two passes over three files whose pull fails: one file lands, the others were asked for
twice each. -/
theorem asked_evenly_three :
    ∃ s, machine.run { pending := [["a"], ["b"], ["c"]] } [oneLands, oneLands] = some s ∧
      s.pending = [["a"], ["c"]] ∧ s.asked ["a"] = 2 ∧
      (∀ p ∈ s.pending, ∀ q ∈ s.pending, s.asked p ≤ s.asked q + 1) := by
  obtain ⟨s, hs, hpending, hasked⟩ : ∃ s, machine.run { pending := [["a"], ["b"], ["c"]] }
      [oneLands, oneLands] = some s ∧ s.pending = [["a"], ["c"]] ∧ s.asked ["a"] = 2 := by
    decide
  exact ⟨s, hs, hpending, hasked, (asked_evenly _ (by decide) _ s hs (by decide)).2.1⟩

/-- The disk is full at the first chunk, and nothing lands. -/
private def fullAtOnce : Pass where
  chunk := fun _ ↦ .full
  file := fun _ ↦ .left

/-- Pass after pass that ends at its first chunk asks for that chunk only, and counts a try for
all. -/
theorem ends_at_first {first rest : List SharePath} (hfirst : first.length = pullChunk)
    (hrest : rest ≠ []) (hcap : (first ++ rest).length ≤ writeBackRoundFiles) {n : Nat}
    (hpending : s.pending = first ++ rest) (htried : ∀ p ∈ s.pending, s.tried p = n) :
    s.askedBy fullAtOnce = first ∧ (s.after fullAtOnce).pending = s.pending ∧
      ∀ p ∈ s.pending, (s.after fullAtOnce).tried p = n + 1 := by
  have hpicked : s.picked = s.pending := by
    rw [State.picked, leastFirst_of_const htried]
    apply List.take_of_length_le
    rw [hpending]
    exact hcap
  have hasked : s.askedBy fullAtOnce = first := by
    rw [State.askedBy, State.chunks, hpicked, hpending, toChunks_append (by decide) hfirst hrest]
    simp [pulls, fullAtOnce, goesOn]
  have hlanded : s.landedBy fullAtOnce = [] := by
    rw [State.landedBy, List.filter_eq_nil_iff]
    simp [fullAtOnce]
  refine ⟨hasked, ?_, ?_⟩
  · simp [State.after, fullAtOnce]
  · intro p hp
    have hcounted : p ∈ s.counted fullAtOnce := by
      rw [State.counted, hlanded, hpicked]
      simpa using hp
    simp only [State.after, hlanded, List.not_mem_nil, if_false, if_pos hcounted, htried p hp]

private def nested (n : Nat) : SharePath := List.replicate n "d" ++ ["f"]

private theorem nested_injective : Function.Injective nested := by
  intro m n h
  have hlength := congrArg List.length h
  simpa [nested] using hlength

/-- 201 pending files, and two passes that find the disk full at once: the first file was asked
for twice, and the last one never, with two tries counted for it. -/
theorem unasked_counted :
    ∃ s, machine.run { pending := (List.range 201).map nested } [fullAtOnce, fullAtOnce] = some s ∧
      nested 0 ∈ s.pending ∧ nested 200 ∈ s.pending ∧ s.asked (nested 0) = 2 ∧
      s.asked (nested 200) = 0 ∧ s.tried (nested 200) = 2 := by
  have hsplit : (List.range 201).map nested = (List.range 200).map nested ++ [nested 200] := by
    rw [List.range_succ, List.map_append]
    rfl
  have hfirst : ((List.range 200).map nested).length = pullChunk := by
    rw [List.length_map, List.length_range]
    rfl
  have hcap : ((List.range 200).map nested ++ [nested 200]).length ≤ writeBackRoundFiles := by
    rw [List.length_append, hfirst]
    decide
  have hzero : nested 0 ∈ (List.range 200).map nested :=
    List.mem_map_of_mem (List.mem_range.mpr (by decide))
  have hlast : nested 200 ∉ (List.range 200).map nested := by
    intro h
    obtain ⟨n, hn, heq⟩ := List.mem_map.mp h
    have hlt := List.mem_range.mp hn
    have := nested_injective heq
    omega
  let s₀ : State := { pending := (List.range 201).map nested }
  obtain ⟨hasked₁, hpending₁, htried₁⟩ := ends_at_first (s := s₀) (n := 0) hfirst
    (List.cons_ne_nil _ _) hcap hsplit fun _ _ ↦ rfl
  obtain ⟨hasked₂, hpending₂, htried₂⟩ := ends_at_first (s := s₀.after fullAtOnce) (n := 1) hfirst
    (List.cons_ne_nil _ _) hcap (hpending₁.trans hsplit) (by rw [hpending₁]; exact htried₁)
  have hpending : ((s₀.after fullAtOnce).after fullAtOnce).pending =
      (List.range 200).map nested ++ [nested 200] := by
    rw [hpending₂, hpending₁]
    exact hsplit
  have hmem : nested 200 ∈ ((s₀.after fullAtOnce).after fullAtOnce).pending := by
    rw [hpending]
    exact List.mem_append_right _ (List.mem_singleton.mpr rfl)
  refine ⟨(s₀.after fullAtOnce).after fullAtOnce, rfl, ?_, hmem, ?_, ?_, ?_⟩
  · rw [hpending]
    exact List.mem_append_left _ hzero
  · rw [asked_after_of_mem (hasked₂ ▸ hzero), asked_after_of_mem (hasked₁ ▸ hzero)]
  · rw [asked_after_of_notMem (hasked₂ ▸ hlast), asked_after_of_notMem (hasked₁ ▸ hlast)]
  · rw [hpending₂] at hmem
    exact htried₂ _ hmem

end RemoteDocker.DirCache.Ranking

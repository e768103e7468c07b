import Mathlib.Data.List.Basic

/-!
# Instants, durations and rounding

Times are nanoseconds on one clock, counted from the Unix epoch, as `time.Time` and
`time.Duration` carry them. Both are unbounded here: the 64-bit arithmetic of the
source wraps only beyond 292 years.
-/

namespace RemoteDocker.Base

def second : Int := 1000000000

/-- The zero `time.Time`, the first second of the year 1. -/
def zeroTime : Int := -62135596800000000000

/-- To the nearest multiple of `d`, halfway values up. -/
def round (t : Int) (d : Int) : Int :=
  if d ≤ 0 then t
  else if t % d + t % d < d then t - t % d
  else t + (d - t % d)

/-- The earliest of the times that are known: the least that is not zero, and zero if none
is. -/
def earliest (ts : List Int) : Int :=
  ts.foldl (fun since t ↦ if t ≠ 0 ∧ (since = 0 ∨ t < since) then t else since) 0

private theorem earliest_go (ts : List Int) (since : Int) :
    let r := ts.foldl (fun since t ↦ if t ≠ 0 ∧ (since = 0 ∨ t < since) then t else since) since
    (r = since ∨ r ∈ ts) ∧ (r = 0 → since = 0 ∧ ∀ t ∈ ts, t = 0) ∧
      (since ≠ 0 → r ≤ since) ∧ ∀ t ∈ ts, t ≠ 0 → r ≤ t := by
  induction ts generalizing since with
  | nil => simp
  | cons t ts ih =>
    simp only [List.foldl_cons]
    by_cases hc : t ≠ 0 ∧ (since = 0 ∨ t < since)
    · obtain ⟨hmem, hzero, hle, hall⟩ := ih t
      rw [if_pos hc]
      refine ⟨?_, ?_, ?_, ?_⟩
      · rcases hmem with hmem | hmem
        · exact .inr (by simp [hmem])
        · exact .inr (.tail _ hmem)
      · exact fun hr ↦ absurd (hzero hr).1 hc.1
      · have := hle hc.1
        omega
      · intro u hu hne
        rcases List.mem_cons.mp hu with rfl | hu
        · exact hle hne
        · exact hall u hu hne
    · obtain ⟨hmem, hzero, hle, hall⟩ := ih since
      rw [if_neg hc]
      refine ⟨?_, ?_, hle, ?_⟩
      · exact hmem.imp_right (List.mem_cons_of_mem _)
      · intro hr
        obtain ⟨hs, hts⟩ := hzero hr
        refine ⟨hs, ?_⟩
        intro u hu
        rcases List.mem_cons.mp hu with rfl | hu
        · by_contra hne
          exact hc ⟨hne, .inl hs⟩
        · exact hts u hu
      · intro u hu hne
        rcases List.mem_cons.mp hu with rfl | hu
        · have hs : since ≠ 0 := fun hs ↦ hc ⟨hne, .inl hs⟩
          have := hle hs
          omega
        · exact hall u hu hne

theorem earliest_eq_zero {ts : List Int} : earliest ts = 0 ↔ ∀ t ∈ ts, t = 0 := by
  obtain ⟨hmem, hzero, -, -⟩ := earliest_go ts 0
  constructor
  · exact fun h ↦ (hzero h).2
  · intro h
    exact hmem.elim id (h _)

theorem earliest_mem {ts : List Int} (h : earliest ts ≠ 0) : earliest ts ∈ ts :=
  (earliest_go ts 0).1.resolve_left h

theorem earliest_le {ts : List Int} {t : Int} (ht : t ∈ ts) (hne : t ≠ 0) : earliest ts ≤ t :=
  (earliest_go ts 0).2.2.2 t ht hne

end RemoteDocker.Base

import Mathlib.Data.List.Basic

/-!
# Lines and counted payloads on one stream

A message is a header, on a line of its own, and a payload whose length the header tells. Nothing
else says where a message ends, so a reader that is off by one byte is lost for good.
-/

namespace RemoteDocker.Base.Frames

universe u

def newline : UInt8 := 10

/-- Headers as lines. -/
structure Lines (H : Type u) where
  encode : H → List UInt8
  decode : List UInt8 → Option H
  newline_notMem : ∀ h, newline ∉ encode h

variable {H : Type u} {size : H → Nat}

structure Message (size : H → Nat) where
  header : H
  payload : List UInt8
  fits : payload.length = size header
  deriving DecidableEq

/-- A line without its end, and what follows it, where there is an end. -/
def line : List UInt8 → Option (List UInt8 × List UInt8)
  | [] => none
  | b :: rest =>
    if b = newline then some ([], rest) else (line rest).map fun l ↦ (b :: l.1, l.2)

namespace Lines

variable (c : Lines H)

/-- The header is read as it was written. -/
def Whole (h : H) : Prop := c.decode (c.encode h) = some h

instance [DecidableEq H] (h : H) : Decidable (c.Whole h) :=
  inferInstanceAs (Decidable (c.decode (c.encode h) = some h))

def frame (m : Message size) : List UInt8 := c.encode m.header ++ newline :: m.payload

end Lines

variable {text : List UInt8}

theorem line_append (h : newline ∉ text) (rest : List UInt8) :
    line (text ++ newline :: rest) = some (text, rest) := by
  induction text with
  | nil => rfl
  | cons b text ih =>
    rw [List.mem_cons, not_or] at h
    rw [List.cons_append, line, if_neg (Ne.symm h.1), ih h.2]
    rfl

private theorem line_of_notMem (h : newline ∉ text) : line text = none := by
  induction text with
  | nil => rfl
  | cons b text ih =>
    rw [List.mem_cons, not_or] at h
    rw [line, if_neg (Ne.symm h.1), ih h.2]
    rfl

/-- As much of a message as has come has no line yet, or its line and some of the payload. -/
theorem line_take_frame (c : Lines H) (m : Message size) (n : Nat) :
    line ((c.frame m).take n) = none ∨
      ∃ k, line ((c.frame m).take n) = some (c.encode m.header, m.payload.take k) := by
  have hplain := c.newline_notMem m.header
  rw [Lines.frame, List.take_append]
  cases hk : n - (c.encode m.header).length with
  | zero =>
    left
    rw [List.take_zero, List.append_nil]
    exact line_of_notMem fun hmem ↦ hplain (List.mem_of_mem_take hmem)
  | succ k =>
    right
    refine ⟨k, ?_⟩
    rw [List.take_of_length_le (by omega), List.take_succ_cons]
    exact line_append hplain _

end RemoteDocker.Base.Frames

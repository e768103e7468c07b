import Mathlib.Data.Nat.Basic

/-!
# Hexadecimal text

`hex.EncodeToString` and `hex.DecodeString`: two lower-case digits a byte, and digits of either
case read back. What was written reads back as it was.
-/

namespace RemoteDocker.Base.Hex

def digit (n : Nat) : Char :=
  if n < 10 then Char.ofNat (48 + n) else Char.ofNat (87 + n)

def digitValue (c : Char) : Option Nat :=
  if '0' ≤ c ∧ c ≤ '9' then some (c.toNat - 48)
  else if 'a' ≤ c ∧ c ≤ 'f' then some (c.toNat - 87)
  else if 'A' ≤ c ∧ c ≤ 'F' then some (c.toNat - 55)
  else none

def encodeDigits : List UInt8 → List Char
  | [] => []
  | b :: rest => digit (b.toNat / 16) :: digit (b.toNat % 16) :: encodeDigits rest

/-- The bytes of a list of digits: they come in pairs. -/
def decodeDigits : List Char → Option (List UInt8)
  | [] => some []
  | [_] => none
  | hi :: lo :: rest => do
    let h ← digitValue hi
    let l ← digitValue lo
    let bytes ← decodeDigits rest
    some (UInt8.ofNat (h * 16 + l) :: bytes)

def encodeToString (bytes : List UInt8) : String := String.ofList (encodeDigits bytes)

def decodeString (s : String) : Option (List UInt8) := decodeDigits s.toList

private theorem digitValue_digit {n : Nat} (h : n < 16) : digitValue (digit n) = some n := by
  have hall : ∀ n < 16, digitValue (digit n) = some n := by decide
  exact hall n h

theorem decodeDigits_encodeDigits (bytes : List UInt8) :
    decodeDigits (encodeDigits bytes) = some bytes := by
  induction bytes with
  | nil => rfl
  | cons b rest ih =>
    have hlt := b.toNat_lt
    have hhi : digitValue (digit (b.toNat / 16)) = some (b.toNat / 16) :=
      digitValue_digit (by omega)
    have hlo : digitValue (digit (b.toNat % 16)) = some (b.toNat % 16) :=
      digitValue_digit (by omega)
    have hb : UInt8.ofNat (b.toNat / 16 * 16 + b.toNat % 16) = b := by
      rw [Nat.div_add_mod', UInt8.ofNat_toNat]
    simp only [encodeDigits, decodeDigits, hhi, hlo, ih, Option.bind_eq_bind, Option.bind_some, hb]

theorem length_encodeDigits (bytes : List UInt8) :
    (encodeDigits bytes).length = 2 * bytes.length := by
  induction bytes with
  | nil => rfl
  | cons b rest ih =>
    rw [encodeDigits, List.length_cons, List.length_cons, ih, List.length_cons]
    omega

theorem take_encodeDigits (bytes : List UInt8) (n : Nat) :
    encodeDigits (bytes.take n) = (encodeDigits bytes).take (2 * n) := by
  induction bytes generalizing n with
  | nil => simp [encodeDigits]
  | cons b rest ih =>
    cases n with
    | zero => rfl
    | succ n =>
      rw [List.take_succ_cons, encodeDigits, encodeDigits, ih]
      rfl

private theorem digit_mem {n : Nat} (h : n < 16) : digit n ∈ "0123456789abcdef".toList := by
  have hall : ∀ n < 16, digit n ∈ "0123456789abcdef".toList := by decide
  exact hall n h

theorem mem_encodeDigits {bytes : List UInt8} {c : Char} (h : c ∈ encodeDigits bytes) :
    c ∈ "0123456789abcdef".toList := by
  induction bytes with
  | nil => cases h
  | cons b rest ih =>
    have hlt := b.toNat_lt
    rcases List.mem_cons.mp h with rfl | h
    · exact digit_mem (by omega)
    · rcases List.mem_cons.mp h with rfl | h
      · exact digit_mem (by omega)
      · exact ih h

@[simp] theorem decodeString_encodeToString (bytes : List UInt8) :
    decodeString (encodeToString bytes) = some bytes := by
  rw [decodeString, encodeToString, String.toList_ofList]
  exact decodeDigits_encodeDigits bytes

end RemoteDocker.Base.Hex

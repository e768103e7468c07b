import Mathlib.Data.List.Basic
import Mathlib.Data.Nat.Digits.Defs

/-!
# Records of lines and fields

A line of a record is its fields with a separator between them, and a number is written in
decimal. What is written reads back as long as no field has the separator in it. Space is what
`unicode.IsSpace` takes for it.
-/

namespace RemoteDocker.Base.Record

def isSpace (c : Char) : Bool :=
  let n := c.toNat
  (9 ≤ n && n ≤ 13) || n == 0x20 || n == 0x85 || n == 0xa0 || n == 0x1680 ||
    (0x2000 ≤ n && n ≤ 0x200a) || n == 0x2028 || n == 0x2029 || n == 0x202f || n == 0x205f ||
    n == 0x3000

/-- `strings.Fields`. -/
def spaced (text : String) : List (List Char) :=
  (text.toList.splitOnP isSpace).filter (!·.isEmpty)

/-- `strings.TrimSpace`. -/
def trimSpace (text : List Char) : List Char :=
  ((text.dropWhile isSpace).reverse.dropWhile isSpace).reverse

theorem trimSpace_of_isSpace_eq_false {text : List Char} (h : ∀ c ∈ text, isSpace c = false) :
    trimSpace text = text := by
  have hkeep : ∀ l : List Char, (∀ c ∈ l, isSpace c = false) → l.dropWhile isSpace = l := by
    intro l hl
    cases l with
    | nil => rfl
    | cons c rest =>
      rw [List.dropWhile_cons_of_neg]
      rw [hl c (.head _)]
      exact Bool.false_ne_true
  rw [trimSpace, hkeep text h, hkeep text.reverse fun c hc ↦ h c (List.mem_reverse.mp hc),
    List.reverse_reverse]

/-- The fields with `sep` between them. -/
def joinFields (sep : Char) (fields : List String) : String :=
  String.ofList ([sep].intercalate (fields.map (·.toList)))

def splitFields (sep : Char) (line : String) : List String :=
  (line.toList.splitOn sep).map String.ofList

theorem splitFields_joinFields {sep : Char} {fields : List String} (hne : fields ≠ [])
    (hsep : ∀ f ∈ fields, sep ∉ f.toList) : splitFields sep (joinFields sep fields) = fields := by
  have hparts : ∀ part ∈ fields.map (·.toList), sep ∉ part := by
    intro part hpart
    obtain ⟨f, hf, rfl⟩ := List.mem_map.mp hpart
    exact hsep f hf
  rw [splitFields, joinFields, String.toList_ofList,
    List.splitOn_intercalate sep hparts (by simpa using hne), List.map_map]
  simp [Function.comp_def]

theorem of_mem_splitOnP {α : Type*} {p : α → Bool} {text f : List α} (hf : f ∈ text.splitOnP p)
    {c : α} (hc : c ∈ f) : c ∈ text ∧ p c = false := by
  induction text generalizing f with
  | nil =>
    rw [List.splitOnP_nil, List.mem_singleton] at hf
    subst hf
    cases hc
  | cons x rest ih =>
    rw [List.splitOnP_cons_eq_if_modifyHead] at hf
    split at hf
    · rcases List.mem_cons.mp hf with rfl | hf
      · cases hc
      · exact (ih hf hc).imp_left (List.mem_cons_of_mem x)
    · next hx =>
      cases hsplit : rest.splitOnP p with
      | nil => exact absurd hsplit (List.splitOnP_ne_nil _ _)
      | cons g gs =>
        rw [hsplit] at ih hf
        rw [List.modifyHead_cons, List.mem_cons] at hf
        rcases hf with rfl | hf
        · rcases List.mem_cons.mp hc with rfl | hc
          · exact ⟨(.head _), Bool.eq_false_iff.mpr hx⟩
          · exact (ih (.head _) hc).imp_left (List.mem_cons_of_mem x)
        · exact (ih (.tail _ hf) hc).imp_left (List.mem_cons_of_mem x)

/-- What is joined has the separator and the parts in it. -/
theorem mem_intercalate {α : Type*} {sep x : α} {parts : List (List α)}
    (h : x ∈ [sep].intercalate parts) : x = sep ∨ ∃ part ∈ parts, x ∈ part := by
  induction parts with
  | nil => simp at h
  | cons part parts ih =>
    cases parts with
    | nil => exact .inr ⟨part, (.head _), by simpa using h⟩
    | cons next rest =>
      rw [List.intercalate_cons_cons, List.append_assoc, List.mem_append, List.mem_append,
        List.mem_singleton] at h
      rcases h with h | h | h
      · exact .inr ⟨part, (.head _), h⟩
      · exact .inl h
      · exact (ih h).imp_right fun ⟨p, hp, hx⟩ ↦ ⟨p, .tail _ hp, hx⟩

theorem mem_joinFields {sep c : Char} {fields : List String}
    (h : c ∈ (joinFields sep fields).toList) : c = sep ∨ ∃ f ∈ fields, c ∈ f.toList := by
  rw [joinFields, String.toList_ofList] at h
  refine (mem_intercalate h).imp_right ?_
  rintro ⟨part, hpart, hc⟩
  obtain ⟨f, hf, rfl⟩ := List.mem_map.mp hpart
  exact ⟨f, hf, hc⟩

def itoa : Int → List Char
  | .ofNat n => Nat.toDigits 10 n
  | .negSucc n => '-' :: Nat.toDigits 10 (n + 1)

def atoiDigits (digits : List Char) : Option Nat :=
  if digits.isEmpty || !digits.all Char.isDigit then none
  else some (Nat.ofDigitChars 10 digits 0)

/-- A number in decimal, with a sign or without. -/
def atoi : List Char → Option Int
  | '-' :: digits => (atoiDigits digits).map fun n : Nat ↦ -(n : Int)
  | '+' :: digits => (atoiDigits digits).map fun n : Nat ↦ (n : Int)
  | digits => (atoiDigits digits).map fun n : Nat ↦ (n : Int)

theorem isDigit_of_mem_toDigits {n : Nat} {c : Char} (h : c ∈ Nat.toDigits 10 n) :
    c.isDigit = true :=
  Nat.isDigit_of_mem_toDigits (by decide) (by decide) h

theorem atoiDigits_toDigits (n : Nat) : atoiDigits (Nat.toDigits 10 n) = some n := by
  have hne : (Nat.toDigits 10 n).isEmpty = false := by
    rw [List.isEmpty_eq_false_iff]
    exact Nat.toDigits_ne_nil
  have hall : (Nat.toDigits 10 n).all Char.isDigit = true :=
    List.all_eq_true.mpr fun c hc ↦ isDigit_of_mem_toDigits hc
  rw [atoiDigits, hne, hall, Nat.ofDigitChars_ten_toDigits]
  rfl

private theorem atoi_of_isDigit {digits : List Char} (h : ∀ c ∈ digits, c.isDigit = true) :
    atoi digits = (atoiDigits digits).map fun n : Nat ↦ (n : Int) := by
  unfold atoi
  split
  · exact absurd (h '-' (.head _)) (by decide)
  · exact absurd (h '+' (.head _)) (by decide)
  · rfl

/-- A number that is written reads back. -/
theorem atoi_itoa (n : Int) : atoi (itoa n) = some n := by
  cases n with
  | ofNat n =>
    rw [itoa, atoi_of_isDigit fun c hc ↦ isDigit_of_mem_toDigits hc, atoiDigits_toDigits]
    rfl
  | negSucc n =>
    rw [itoa, atoi, atoiDigits_toDigits, Option.map_some, Option.some.injEq]
    exact (Int.negSucc_eq n).symm

theorem of_mem_itoa {n : Int} {c : Char} (h : c ∈ itoa n) : c = '-' ∨ c.isDigit = true := by
  cases n with
  | ofNat n => exact .inr (isDigit_of_mem_toDigits h)
  | negSucc n =>
    rcases List.mem_cons.mp h with hc | hc
    · exact .inl hc
    · exact .inr (isDigit_of_mem_toDigits hc)

end RemoteDocker.Base.Record

import Mathlib.Data.List.Basic

/-!
# Texts in Go's JSON

A Go string is any bytes. `encoding/json` takes it apart as UTF-8: a byte that is no part of a
rune is written as U+FFFD, some characters are escaped, and everything else is written as it is.
What is read back is the text with those bytes replaced.
-/

namespace RemoteDocker.Base.GoText

/-- The bytes of one rune past ASCII, as `utf8.DecodeRune` accepts them. -/
def isRune : List UInt8 → Bool
  | [b, c] => 0xC2 ≤ b && b ≤ 0xDF && cont c
  | [b, c, d] =>
    cont d && (b == 0xE0 && 0xA0 ≤ c && c ≤ 0xBF || b == 0xED && 0x80 ≤ c && c ≤ 0x9F ||
      b != 0xE0 && b != 0xED && 0xE0 ≤ b && b ≤ 0xEF && cont c)
  | [b, c, d, e] =>
    cont d && cont e && (b == 0xF0 && 0x90 ≤ c && c ≤ 0xBF || 0xF1 ≤ b && b ≤ 0xF3 && cont c ||
      b == 0xF4 && 0x80 ≤ c && c ≤ 0x8F)
  | _ => false
where
  cont (b : UInt8) : Bool := 0x80 ≤ b && b ≤ 0xBF

/-- A part of a text: a character of ASCII, another rune, or a byte that is neither. -/
inductive Piece where
  | ascii (b : UInt8)
  | rune (bytes : List UInt8)
  | bad (b : UInt8)
  deriving DecidableEq

namespace Piece

def bytes : Piece → List UInt8
  | ascii b | bad b => [b]
  | rune bytes => bytes

def back : Piece → List UInt8
  | bad _ => [0xEF, 0xBF, 0xBD]
  | p => p.bytes

end Piece

def pieceAt (b : UInt8) (rest : List UInt8) : Piece :=
  if b < 0x80 then .ascii b
  else
    match [1, 2, 3].find? fun n ↦ isRune (b :: rest.take n) with
    | some n => .rune (b :: rest.take n)
    | none => .bad b

/-- The pieces of a text, past so many bytes of it. -/
def piecesFrom : Nat → List UInt8 → List Piece
  | _, [] => []
  | skip + 1, _ :: rest => piecesFrom skip rest
  | 0, b :: rest => pieceAt b rest :: piecesFrom ((pieceAt b rest).bytes.length - 1) rest

def pieces (text : List UInt8) : List Piece := piecesFrom 0 text

/-- What `json.Marshal` and `json.Unmarshal` make of a text. -/
def throughJson (text : List UInt8) : List UInt8 := (pieces text).flatMap Piece.back

def Valid (text : List UInt8) : Prop := ∀ p ∈ pieces text, p.back = p.bytes

private theorem bytes_pieceAt (b : UInt8) (rest : List UInt8) :
    ∃ n, (pieceAt b rest).bytes = b :: rest.take n := by
  unfold pieceAt
  split
  · exact ⟨0, rfl⟩
  · split
    · next n _ => exact ⟨n, rfl⟩
    · exact ⟨0, rfl⟩

private theorem flatMap_bytes_piecesFrom (text : List UInt8) (skip : Nat) :
    (piecesFrom skip text).flatMap Piece.bytes = text.drop skip := by
  induction text generalizing skip with
  | nil => simp [piecesFrom]
  | cons b rest ih =>
    cases skip with
    | succ skip => exact ih skip
    | zero =>
      obtain ⟨n, hn⟩ := bytes_pieceAt b rest
      rw [piecesFrom, List.flatMap_cons, ih, hn]
      simp only [List.length_cons, Nat.add_sub_cancel, List.length_take, List.cons_append,
        List.drop_zero]
      rcases Nat.le_total n rest.length with hle | hle
      · rw [Nat.min_eq_left hle, List.take_append_drop]
      · simp [Nat.min_eq_right hle, List.take_of_length_le hle]

/-- What is read back of pieces is longer than they are, by every byte that was replaced. -/
theorem length_back (ps : List Piece) :
    (ps.flatMap Piece.bytes).length ≤ (ps.flatMap Piece.back).length ∧
      ((ps.flatMap Piece.bytes).length = (ps.flatMap Piece.back).length →
        ∀ p ∈ ps, p.back = p.bytes) := by
  induction ps with
  | nil => simp
  | cons p ps ih =>
    have hpiece : p.back = p.bytes ∨ p.bytes.length < p.back.length := by
      cases p <;> simp [Piece.back, Piece.bytes]
    simp only [List.flatMap_cons, List.length_append, List.forall_mem_cons]
    rcases hpiece with hsame | hlonger
    · rw [hsame]
      exact ⟨Nat.add_le_add_left ih.1 _, fun heq ↦ ⟨rfl, ih.2 (Nat.add_left_cancel heq)⟩⟩
    · exact ⟨by omega, fun heq ↦ absurd heq (by omega)⟩

theorem length_le_throughJson (text : List UInt8) : text.length ≤ (throughJson text).length := by
  have hlength := (length_back (pieces text)).1
  rw [pieces, flatMap_bytes_piecesFrom] at hlength
  exact hlength

theorem valid_of_length_throughJson {text : List UInt8}
    (h : text.length = (throughJson text).length) : Valid text := by
  apply (length_back (pieces text)).2
  rw [pieces, flatMap_bytes_piecesFrom]
  exact h

/-- A text is read back as it was, just if it is UTF-8. -/
theorem throughJson_eq_self {text : List UInt8} : throughJson text = text ↔ Valid text := by
  constructor
  · intro h
    exact valid_of_length_throughJson (congrArg List.length h).symm
  · intro h
    exact (List.flatMap_congr h).trans (flatMap_bytes_piecesFrom text 0)

end RemoteDocker.Base.GoText

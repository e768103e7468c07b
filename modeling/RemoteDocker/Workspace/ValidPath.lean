import RemoteDocker.Base.Record

/-!
# Paths on the wire

`ValidSharePath` (`src/core/workspace/sharepath.go:21-47`) reads a path byte by byte, so a path is
a list of bytes here, and a name one of its components.
-/

namespace RemoteDocker.Workspace.Bytes

def ascii (text : String) : List UInt8 := text.toList.map fun c ↦ c.toNat.toUInt8

def slash : UInt8 := 47

def renderPath (names : List (List UInt8)) : List UInt8 := slash :: [slash].intercalate names

/-- What `ValidSharePath` says against a path. -/
inductive PathFault where
  | empty
  | notAbsolute
  | backslash
  | nul
  | emptyComponent
  | dots (part : List UInt8)
  deriving DecidableEq

def partFault (part : List UInt8) : Option PathFault :=
  if part = [] then some .emptyComponent
  else if part = ascii "." ∨ part = ascii ".." then some (.dots part)
  else none

def validSharePath (p : List UInt8) : Except PathFault Unit :=
  if p = [] then .error .empty
  else if p.head? ≠ some slash then .error .notAbsolute
  else if 92 ∈ p then .error .backslash
  else if 0 ∈ p then .error .nul
  else if p = [slash] then .ok ()
  else
    match (p.tail.splitOn slash).findSome? partFault with
    | some fault => .error fault
    | none => .ok ()

/-- A name that can stand in a path: none of those with a meaning, and without the bytes that
have one. -/
structure IsComponent (name : List UInt8) : Prop where
  ne_nil : name ≠ []
  ne_dot : name ≠ ascii "."
  ne_dots : name ≠ ascii ".."
  slash : slash ∉ name
  backslash : 92 ∉ name
  nul : 0 ∉ name

instance (name : List UInt8) : Decidable (IsComponent name) :=
  decidable_of_iff (name ≠ [] ∧ name ≠ ascii "." ∧ name ≠ ascii ".." ∧ slash ∉ name ∧
      92 ∉ name ∧ 0 ∉ name)
    ⟨fun ⟨h₁, h₂, h₃, h₄, h₅, h₆⟩ ↦ ⟨h₁, h₂, h₃, h₄, h₅, h₆⟩,
      fun ⟨h₁, h₂, h₃, h₄, h₅, h₆⟩ ↦ ⟨h₁, h₂, h₃, h₄, h₅, h₆⟩⟩

theorem splitOn_renderPath {names : List (List UInt8)} (hne : names ≠ [])
    (h : ∀ name ∈ names, slash ∉ name) : (renderPath names).tail.splitOn slash = names :=
  List.splitOn_intercalate slash h hne

private theorem mem_renderPath {names : List (List UInt8)} {b : UInt8} (hb : b ∈ renderPath names) :
    b = slash ∨ ∃ name ∈ names, b ∈ name := by
  rcases List.mem_cons.mp hb with rfl | hb
  · exact .inl rfl
  · exact Base.Record.mem_intercalate hb

theorem renderPath_ne_root {names : List (List UInt8)} (hne : names ≠ [])
    (h : ∀ name ∈ names, IsComponent name) : renderPath names ≠ [slash] := by
  intro hroot
  have hsplit := splitOn_renderPath hne fun name hname ↦ (h name hname).slash
  rw [hroot] at hsplit
  have hempty : [] ∈ names := by
    rw [← hsplit]
    exact List.mem_singleton.mpr rfl
  exact (h [] hempty).ne_nil rfl

/-- Components that are such make a valid path. -/
theorem validSharePath_renderPath {names : List (List UInt8)} (hne : names ≠ [])
    (h : ∀ name ∈ names, IsComponent name) : validSharePath (renderPath names) = .ok () := by
  have hparts : names.findSome? partFault = none := by
    rw [List.findSome?_eq_none_iff]
    intro name hname
    have hname := h name hname
    simp [partFault, hname.ne_nil, hname.ne_dot, hname.ne_dots]
  have hbyte : ∀ b ∈ renderPath names, b ≠ 92 ∧ b ≠ 0 := by
    intro b hb
    rcases mem_renderPath hb with rfl | ⟨name, hname, hb⟩
    · decide
    · have hname := h name hname
      exact ⟨fun heq ↦ hname.backslash (heq ▸ hb), fun heq ↦ hname.nul (heq ▸ hb)⟩
  have hnil : renderPath names ≠ [] := List.cons_ne_nil _ _
  have hhead : (renderPath names).head? = some slash := rfl
  have hback : 92 ∉ renderPath names := fun hb ↦ (hbyte 92 hb).1 rfl
  have hnul : 0 ∉ renderPath names := fun hb ↦ (hbyte 0 hb).2 rfl
  rw [validSharePath, if_neg hnil, if_neg (not_not_intro hhead), if_neg hback, if_neg hnul,
    if_neg (renderPath_ne_root hne h),
    splitOn_renderPath hne fun name hname ↦ (h name hname).slash, hparts]

end RemoteDocker.Workspace.Bytes

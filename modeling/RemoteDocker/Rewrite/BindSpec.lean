import Mathlib.Data.List.TakeWhile
import RemoteDocker.Workspace.Words

/-!
# What a bind is read as

`src/client/internal/rewrite/bindspec.go:11-101`. A colon stands between the fields of a bind and
after the letter of a drive. `resolveFields` takes the reading whose target starts with a slash, the
one that knows drives first; a well-formed bind has one such reading, the one it was written for.
-/

namespace RemoteDocker.Rewrite

open Base Workspace

structure BindSpec where
  /-- Empty for an anonymous volume. -/
  source : Text := []
  target : Text
  options : Text := []
  deriving DecidableEq

inductive BindError where
  | empty
  | fields (spec : Text) (count : Nat)
  deriving DecidableEq

def isAlpha (c : Char) : Bool := ('a' ≤ c && c ≤ 'z') || ('A' ≤ c && c ≤ 'Z')

def isSeparator (c : Char) : Bool := c == '/' || c == '\\'

/-- One letter, which a colon and a separator make a drive. -/
def isLetter : Text → Bool
  | [c] => isAlpha c
  | _ => false

/-- The loop of `splitBind` with what it has of the current field. -/
def splitBindFrom : Text → Text → List Text
  | cur, [] => [cur]
  | cur, c :: rest =>
    if c ≠ ':' then splitBindFrom (cur ++ [c]) rest
    else if isLetter cur && rest.head?.any isSeparator then splitBindFrom (cur ++ [':']) rest
    else cur :: splitBindFrom [] rest

def splitBind (spec : Text) : List Text := splitBindFrom [] spec

/-- The second field starts with a slash, as a path in a container does. -/
def hasTarget (fields : List Text) : Bool :=
  match fields with
  | _ :: target :: _ => target.head? = some '/'
  | _ => false

def resolveFields (spec : Text) : List Text :=
  let drive := splitBind spec
  if hasTarget drive then drive
  else if hasTarget (spec.splitOn ':') then spec.splitOn ':'
  else drive

def parseBind (spec : Text) : Except BindError BindSpec :=
  if Record.trimSpace spec = [] then .error .empty
  else
    match resolveFields spec with
    | [target] => .ok { target }
    | [source, target] => .ok { source, target }
    | [source, target, options] => .ok { source, target, options }
    | fields => .error (.fields spec fields.length)

/-- The source of a bind: the name of a volume, a path of POSIX or UNC, none of which has a colon,
or a path on a drive. -/
inductive IsSource : Text → Prop
  | plain {s : Text} (h : ':' ∉ s) : IsSource s
  | drive {letter sep : Char} {rest : Text} (hletter : isAlpha letter = true)
      (hsep : isSeparator sep = true) (hrest : ':' ∉ rest) :
      IsSource (letter :: ':' :: sep :: rest)

section

variable {cur f g : Text} {fs : List Text}

private theorem splitBindFrom_append (hf : ':' ∉ f) (rest : Text) :
    splitBindFrom cur (f ++ rest) = splitBindFrom (cur ++ f) rest := by
  induction f generalizing cur with
  | nil => rw [List.append_nil, List.nil_append]
  | cons c f ih =>
    obtain ⟨hc, hf⟩ := List.ne_and_not_mem_of_not_mem_cons hf
    rw [List.cons_append, splitBindFrom, if_pos hc.symm, ih hf, List.append_assoc,
      List.singleton_append]

/-- A field ends at its colon, unless it is a letter and what follows makes it a drive. -/
theorem splitBindFrom_cons (hf : ':' ∉ f) (hcur : isLetter (cur ++ f) = false) :
    splitBindFrom cur ([':'].intercalate (f :: g :: fs)) =
      (cur ++ f) :: splitBindFrom [] ([':'].intercalate (g :: fs)) := by
  rw [List.intercalate_cons_cons, List.append_assoc, splitBindFrom_append hf,
    List.singleton_append, splitBindFrom, if_neg (not_not_intro rfl), hcur, Bool.false_and,
    if_neg Bool.false_ne_true]

private theorem splitBindFrom_singleton (hf : ':' ∉ f) :
    splitBindFrom cur ([':'].intercalate [f]) = [cur ++ f] := by
  rw [List.intercalate_singleton, ← List.append_nil f, splitBindFrom_append hf, List.append_nil]
  rfl

/-- The last field that has to be there, and the options that may follow. -/
theorem splitBindFrom_options {options : Option Text} (hf : ':' ∉ f)
    (hcur : isLetter (cur ++ f) = false) (hoptions : ∀ o ∈ options, ':' ∉ o) :
    splitBindFrom cur ([':'].intercalate (f :: options.toList)) =
      (cur ++ f) :: options.toList := by
  cases options with
  | none => exact splitBindFrom_singleton hf
  | some o =>
    rw [Option.toList_some, splitBindFrom_cons hf hcur, splitBindFrom_singleton (hoptions o rfl),
      List.nil_append]

private theorem isLetter_slash (t : Text) : isLetter ('/' :: t) = false := by
  cases t with
  | nil => decide
  | cons c t => rfl

private theorem intercalate_cons (c : Char) : [':'].intercalate ((c :: f) :: fs) =
    c :: [':'].intercalate (f :: fs) := by
  cases fs with
  | nil => rw [List.intercalate_singleton, List.intercalate_singleton]
  | cons g fs =>
    rw [List.intercalate_cons_cons, List.intercalate_cons_cons]
    rfl

private theorem splitBind_drive {c sep : Char} {rest : Text} (hc : isAlpha c = true)
    (hsep : isSeparator sep = true) :
    splitBind (c :: ':' :: sep :: rest) = splitBindFrom [c, ':'] (sep :: rest) := by
  have hne : c ≠ ':' := by
    rintro rfl
    revert hc
    decide
  rw [splitBind, splitBindFrom, if_pos hne, splitBindFrom, if_neg (not_not_intro rfl),
    List.nil_append, isLetter, hc, List.head?_cons, Option.any_some, hsep, Bool.and_self,
    if_pos rfl]
  rfl

private theorem isSpace_of_trimSpace_eq_nil {text : Text} {c : Char}
    (h : Record.trimSpace text = [])
    (hc : c ∈ text) : Record.isSpace c = true := by
  rw [Record.trimSpace, List.reverse_eq_nil_iff, List.dropWhile_eq_nil_iff] at h
  rw [← List.takeWhile_append_dropWhile (p := Record.isSpace) (l := text), List.mem_append] at hc
  rcases hc with hc | hc
  · exact List.mem_takeWhile_imp hc
  · exact h c (List.mem_reverse.mpr hc)

end

section

variable {source t : Text} {options : Option Text}

/-- The reading that knows drives has the right fields, except of a source of one letter. -/
theorem splitBind_joined (hsource : IsSource source) (hletter : isLetter source = false)
    (htarget : ':' ∉ '/' :: t) (hoptions : ∀ o ∈ options, ':' ∉ o) :
    splitBind ([':'].intercalate (source :: ('/' :: t) :: options.toList)) =
      source :: ('/' :: t) :: options.toList := by
  have hrest : splitBindFrom [] ([':'].intercalate (('/' :: t) :: options.toList)) =
      ('/' :: t) :: options.toList := splitBindFrom_options htarget (isLetter_slash t) hoptions
  cases hsource with
  | plain hs =>
    have hfirst : splitBind ([':'].intercalate (source :: ('/' :: t) :: options.toList)) =
        source :: _ := splitBindFrom_cons hs hletter
    rw [hfirst, hrest]
  | @drive letter sep rest hl hsep hr =>
    have hcolon : ':' ∉ sep :: rest := by
      refine List.not_mem_cons_of_ne_of_not_mem ?_ hr
      rintro rfl
      revert hsep
      decide
    rw [intercalate_cons, intercalate_cons, intercalate_cons, splitBind_drive hl hsep,
      ← intercalate_cons, splitBindFrom_cons hcolon rfl, hrest]
    rfl

/-- Of a source of one letter it makes a drive, and no target follows. -/
theorem hasTarget_letter {c : Char} (hc : isAlpha c = true) (htarget : ':' ∉ '/' :: t)
    (hoptions : ∀ o ∈ options, ':' ∉ o ∧ o.head? ≠ some '/') :
    hasTarget (splitBind ([':'].intercalate ([c] :: ('/' :: t) :: options.toList))) = false := by
  have hsplit : splitBind ([':'].intercalate ([c] :: ('/' :: t) :: options.toList)) =
      (c :: ':' :: '/' :: t) :: options.toList := by
    rw [List.intercalate_cons_cons, intercalate_cons]
    refine (splitBind_drive hc rfl).trans ?_
    rw [← intercalate_cons]
    exact splitBindFrom_options htarget rfl fun o ho ↦ (hoptions o ho).1
  rw [hsplit]
  cases options with
  | none => rfl
  | some o => exact decide_eq_false (hoptions o rfl).2

/-- A well-formed bind is read as the source, the target and the options it was put together from,
also where the source is one letter or the root of a drive. -/
theorem parseBind_joined (source target : Text) (options : Option Text)
    (hsource : IsSource source) (hslash : target.head? = some '/')
    (htarget : ':' ∉ target) (hoptions : ∀ o ∈ options, ':' ∉ o ∧ o.head? ≠ some '/') :
    parseBind ([':'].intercalate (source :: target :: options.toList)) =
      .ok ⟨source, target, options.getD []⟩ := by
  obtain ⟨t, rfl⟩ : ∃ t, target = '/' :: t := List.head?_eq_some_iff.mp hslash
  have hfields : resolveFields ([':'].intercalate (source :: ('/' :: t) :: options.toList)) =
      source :: ('/' :: t) :: options.toList := by
    rw [resolveFields]
    by_cases hletter : isLetter source = true
    · obtain ⟨c, rfl, hc⟩ : ∃ c, source = [c] ∧ isAlpha c = true := by
        revert hletter
        fun_cases isLetter source
        · exact fun hc ↦ ⟨_, rfl, hc⟩
        · nofun
      have hplain : ([':'].intercalate ([c] :: ('/' :: t) :: options.toList)).splitOn ':' =
          [c] :: ('/' :: t) :: options.toList := by
        refine List.splitOn_intercalate ':' ?_ (List.cons_ne_nil _ _)
        intro f hf
        rcases List.mem_cons.mp hf with rfl | hf
        · cases hsource with
          | plain h => exact h
        · rcases List.mem_cons.mp hf with rfl | hf
          · exact htarget
          · exact (hoptions f (Option.mem_toList.mp hf)).1
      rw [hasTarget_letter hc htarget hoptions, hplain, if_neg Bool.false_ne_true]
      rfl
    · rw [splitBind_joined hsource (Bool.eq_false_iff.mpr hletter) htarget
        fun o ho ↦ (hoptions o ho).1]
      rfl
  have hcolon : ':' ∈ [':'].intercalate (source :: ('/' :: t) :: options.toList) := by
    rw [List.intercalate_cons_cons]
    exact List.mem_append_left _ (List.mem_append_right _ (.head _))
  rw [parseBind, if_neg fun hnil ↦ absurd (isSpace_of_trimSpace_eq_nil hnil hcolon) (by decide),
    hfields]
  cases options with
  | none => rfl
  | some o => rfl

/-- A volume of one letter, and the root of a drive. -/
theorem parseBind_joined_letters :
    parseBind "c:/app:ro".toList = .ok ⟨['c'], "/app".toList, "ro".toList⟩ ∧
      parseBind "C:\\:/app".toList = .ok ⟨"C:\\".toList, "/app".toList, []⟩ :=
  ⟨parseBind_joined ['c'] "/app".toList (some "ro".toList) (.plain (by decide)) rfl (by decide)
      (by decide),
    parseBind_joined "C:\\".toList "/app".toList none (.drive rfl rfl (by decide)) rfl (by decide)
      (by decide)⟩

end

end RemoteDocker.Rewrite

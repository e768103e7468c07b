import Mathlib.Data.String.Basic
import RemoteDocker.FsWatch.Tree
import RemoteDocker.Tunnels.Allocator

/-!
# The words of a mount

`src/core/workspace/mode.go` and `src/core/workspace/mountwords.go`. A mount says how it is served
on two axes, and what its share is like. A word that was not named is `none` here. Each word has one
canonical text, and the text reads back as the word.
-/

namespace RemoteDocker.Workspace

open Base Base.Record Tunnels FsWatch

abbrev Text := List Char

instance : LawfulBEq Text := inferInstance

inductive Read where
  | direct
  | cached
  deriving DecidableEq, Repr

inductive Write where
  | through
  | back
  | ephemeral
  deriving DecidableEq, Repr

def Read.text : Read → Text
  | .direct => "direct".toList
  | .cached => "cached".toList

def Write.text : Write → Text
  | .through => "through".toList
  | .back => "back".toList
  | .ephemeral => "ephemeral".toList

structure Mode where
  read : Option Read := none
  write : Option Write := none
  deriving DecidableEq, Repr

def defaultMode : Mode := ⟨some .direct, some .through⟩

namespace Mode

/-- Each axis that is not named from the fallback. -/
def or (m fallback : Mode) : Mode := ⟨m.read <|> fallback.read, m.write <|> fallback.write⟩

/-- Writes are not synchronous. -/
def union (m : Mode) : Bool := m.write = some .back || m.write = some .ephemeral

end Mode

/-- Docker's consistency values, each naming both axes. -/
def dockerWords (word : Text) : Option Mode :=
  if word = "default".toList ∨ word = "consistent".toList then some defaultMode
  else if word = "cached".toList then some ⟨some .cached, some .through⟩
  else if word = "delegated".toList then some ⟨some .cached, some .back⟩
  else none

structure Owner where
  uid : UInt32
  gid : UInt32
  deriving DecidableEq, Repr

/-- Permission bits, of which there are nine. -/
structure Mask where
  bits : BitVec 9
  deriving DecidableEq, Repr

/-- A directory nobody can enter is a share nobody can use. -/
def Mask.closes (m : Mask) : Bool := m.bits &&& 0o111 = 0o111

theorem zero_enterable : Mask.closes ⟨0⟩ = false := rfl

/-- A mask for directories leaves an execute bit. -/
structure DirMask extends Mask where
  enterable : toMask.closes = false
  deriving DecidableEq

inductive Prefetch where
  | off
  | eager
  | tree
  deriving DecidableEq, Repr

def Prefetch.text : Prefetch → Text
  | .off => "off".toList
  | .eager => "eager".toList
  | .tree => "tree".toList

def watchText : Watch → Text
  | .watchOff => "off".toList
  | .watchPartial => "partial".toList
  | .watchCoarse => "coarse".toList

/-- `Owner.String`. -/
def Owner.text (o : Owner) : Text :=
  Nat.toDigits 10 o.uid.toNat ++ ':' :: Nat.toDigits 10 o.gid.toNat

/-- `Mask.String`: four octal digits. -/
def Mask.text (m : Mask) : Text := (Nat.toDigits 8 m.bits.toNat).leftpad 4 '0'

structure ShareWords where
  owner : Option Owner := none
  fmask : Option Mask := none
  dmask : Option DirMask := none
  watch : Option Watch := none
  prefetch : Option Prefetch := none
  deriving DecidableEq

def watchRank : Option Watch → Nat
  | some .watchPartial => 1
  | some .watchCoarse => 2
  | _ => 0

def prefetchRank : Option Prefetch → Nat
  | some .tree => 1
  | some .eager => 2
  | _ => 0

/-- `Watch.Max` and `Prefetch.Max`: the stronger of two answers. -/
def stronger {α : Type} (rank : Option α → Nat) (w other : Option α) : Option α :=
  if rank w < rank other then other
  else
    match w with
    | none => other
    | some _ => w

inductive Refusal where
  | namedTwice (s key : Text)
  | notMode (word : Text)
  | notAxis (axis : Text)
  | notPartOfMode (axis setting : Text)
  | notRead (s : Text)
  | notWrite (s : Text)
  | notOwner (s : Text)
  | notMask (name s : Text)
  | closesDirectories (m : Mask)
  | notWatch (s : Text)
  | notPrefetch (s : Text)
  deriving DecidableEq

def Refusal.text (quote : Text → Text) : Refusal → Text
  | .namedTwice s key =>
    "workspace: ".toList ++ quote s ++ " names ".toList ++ key ++ " twice".toList
  | .notMode word =>
    "workspace: ".toList ++ quote word ++ (" is not a mount mode; want read=<direct|cached>, " ++
      "write=<through|back|ephemeral>, or one of default, consistent, cached, delegated").toList
  | .notAxis axis =>
    "workspace: ".toList ++ quote axis ++ " is not a mount mode axis; want read= or write=".toList
  | .notPartOfMode axis setting =>
    "workspace: ".toList ++ axis ++ "= is a word for one mount, not part of a mode; set ".toList ++
      setting ++ " to change the default".toList
  | .notRead s =>
    "workspace: read=".toList ++ quote s ++ " is not a read mode; want one of direct|cached".toList
  | .notWrite s =>
    "workspace: write=".toList ++ quote s ++
      " is not a write mode; want one of through|back|ephemeral".toList
  | .notOwner s =>
    "workspace: owner ".toList ++ quote s ++ (" is not valid; want a uid, or a uid and a gid " ++
      "joined by one character that is not a digit, = or , (1000 or 1000.2000)").toList
  | .notMask name s =>
    "workspace: ".toList ++ name ++ " ".toList ++ quote s ++
      " is not valid; want 1 to 4 octal digits, at most 0777 (0111, 022)".toList
  | .closesDirectories m =>
    "workspace: dmask ".toList ++ m.text ++ (" clears every execute bit, so no directory in the " ++
      "share could be entered; leave at least one").toList
  | .notWatch s =>
    "workspace: watch=".toList ++ quote s ++
      " is not a watch mode; want one of off|partial|coarse".toList
  | .notPrefetch s =>
    "workspace: prefetch=".toList ++ quote s ++
      " is not a prefetch policy; want one of off|eager|tree".toList

/-- `strings.Cut` at a character. -/
def cutAt (c : Char) (s : Text) : Option (Text × Text) :=
  match s.dropWhile (· != c) with
  | [] => none
  | _ :: rest => some (s.takeWhile (· != c), rest)

def parseWord {α : Type} (all : List α) (text : α → Text) (refusal : Refusal) (s : Text) :
    Except Refusal α :=
  match all.find? (text · = trimSpace s) with
  | some a => .ok a
  | none => .error refusal

def parseRead (s : Text) : Except Refusal Read :=
  parseWord [.direct, .cached] Read.text (.notRead s) s

def parseWrite (s : Text) : Except Refusal Write :=
  parseWord [.through, .back, .ephemeral] Write.text (.notWrite s) s

def parseWatch (s : Text) : Except Refusal Watch :=
  parseWord [.watchOff, .watchPartial, .watchCoarse] watchText (.notWatch s) s

def parsePrefetch (s : Text) : Except Refusal Prefetch :=
  parseWord [.off, .eager, .tree] Prefetch.text (.notPrefetch s) s

/-- The keys beyond read and write, and the setting of each one's default. -/
def shareKeySetting (key : Text) : Option Text :=
  if key = "owner".toList then some "REMOTE_DOCKER_SHARE_OWNER".toList
  else if key = "fmask".toList then some "REMOTE_DOCKER_SHARE_FMASK".toList
  else if key = "dmask".toList then some "REMOTE_DOCKER_SHARE_DMASK".toList
  else if key = "watch".toList then some "REMOTE_DOCKER_WATCH".toList
  else if key = "prefetch".toList then some "REMOTE_DOCKER_PREFETCH".toList
  else none

def parseModeWord (word : Text) : Except Refusal Mode :=
  match dockerWords word with
  | some m => .ok m
  | none =>
    match cutAt '=' word with
    | none => .error (.notMode word)
    | some (axis, value) =>
      if axis = "read".toList then (parseRead value).map fun r ↦ { read := some r }
      else if axis = "write".toList then (parseWrite value).map fun w ↦ { write := some w }
      else
        match shareKeySetting axis with
        | some setting => .error (.notPartOfMode axis setting)
        | none => .error (.notAxis axis)

/-- The words of a list, without those that are empty. -/
def wordsOf (s : Text) : List Text := ((s.splitOn ',').map trimSpace).filter (· ≠ [])

/-- One more word of `s`: an axis named twice is refused. -/
def Mode.named (s : Text) (m got : Mode) : Except Refusal Mode :=
  if got.read.isSome ∧ m.read.isSome then .error (.namedTwice s "read".toList)
  else if got.write.isSome ∧ m.write.isSome then .error (.namedTwice s "write".toList)
  else .ok (got.or m)

def parseMode (s : Text) : Except Refusal Mode :=
  (wordsOf s).foldlM (fun m word ↦ do m.named s (← parseModeWord word)) {}

/-- `strconv.ParseUint` of at most 32 bits, in decimal. -/
def parseUint32 (digits : Text) : Option UInt32 :=
  (atoiDigits digits).bind fun n ↦ if n < 2 ^ 32 then some (UInt32.ofNat n) else none

/-- One number is both ids. -/
def parseOwner (text : Text) : Except Refusal Owner :=
  let s := trimSpace text
  let owner := do
    match s.dropWhile Char.isDigit with
    | [] =>
      let id ← parseUint32 s
      some (⟨id, id⟩ : Owner)
    | sep :: rest =>
      if sep = '=' ∨ sep = ',' ∨ sep = '�' then none
      else
        let uid ← parseUint32 (s.takeWhile Char.isDigit)
        let gid ← parseUint32 rest
        some ⟨uid, gid⟩
  match owner with
  | some o => .ok o
  | none => .error (.notOwner s)

def isOctal (c : Char) : Bool := '0' ≤ c && c ≤ '7'

def parseMask (name text : Text) : Except Refusal Mask :=
  let s := trimSpace text
  let n := Nat.ofDigitChars 8 s 0
  if s.length < 1 ∨ 4 < s.length ∨ s.all isOctal = false ∨ 0o777 < n then .error (.notMask name s)
  else .ok ⟨BitVec.ofNat 9 n⟩

def parseFileMask (s : Text) : Except Refusal Mask := parseMask "fmask".toList s

def parseDirMask (s : Text) : Except Refusal DirMask := do
  let m ← parseMask "dmask".toList s
  if h : m.closes = true then .error (.closesDirectories m)
  else .ok { m with enterable := Bool.eq_false_iff.mpr h }

theorem parseMode_text (r : Read) (w : Write) :
    parseMode ("read=".toList ++ r.text ++ ",write=".toList ++ w.text) =
      .ok ⟨some r, some w⟩ := by
  cases r <;> cases w <;> decide +kernel

theorem parseWatch_text (w : Watch) : parseWatch (watchText w) = .ok w := by
  cases w <;> decide +kernel

theorem parsePrefetch_text (p : Prefetch) : parsePrefetch p.text = .ok p := by
  cases p <;> decide +kernel

private theorem parseUint32_toDigits (n : UInt32) :
    parseUint32 (Nat.toDigits 10 n.toNat) = some n := by
  have hlt := n.toNat_lt
  rw [parseUint32, atoiDigits_toDigits, Option.bind_some, if_pos hlt, UInt32.ofNat_toNat]

private theorem isSpace_of_isDigit {c : Char} (h : c.isDigit = true) :
    Record.isSpace c = false := by
  have hrange : 48 ≤ c.toNat ∧ c.toNat ≤ 57 := by
    simp only [Char.isDigit, Bool.and_eq_true, decide_eq_true_eq] at h
    exact ⟨UInt32.le_iff_toNat_le.mp h.1, UInt32.le_iff_toNat_le.mp h.2⟩
  simp only [Record.isSpace, Bool.or_eq_false_iff, Bool.and_eq_false_iff, decide_eq_false_iff_not,
    beq_eq_false_iff_ne]
  omega

private theorem trimSpace_owner (o : Owner) : trimSpace o.text = o.text := by
  apply trimSpace_of_isSpace_eq_false
  intro c hc
  rcases List.mem_append.mp hc with hc | hc
  · exact isSpace_of_isDigit (isDigit_of_mem_toDigits hc)
  · rcases List.mem_cons.mp hc with rfl | hc
    · decide
    · exact isSpace_of_isDigit (isDigit_of_mem_toDigits hc)

theorem parseOwner_text (o : Owner) : parseOwner o.text = .ok o := by
  have hdigits : ∀ c ∈ Nat.toDigits 10 o.uid.toNat, c.isDigit = true :=
    fun c hc ↦ isDigit_of_mem_toDigits hc
  have hdrop : o.text.dropWhile Char.isDigit = ':' :: Nat.toDigits 10 o.gid.toNat := by
    rw [Owner.text, List.dropWhile_append_of_pos hdigits]
    rfl
  have htake : o.text.takeWhile Char.isDigit = Nat.toDigits 10 o.uid.toNat := by
    rw [Owner.text, List.takeWhile_append_of_pos hdigits]
    exact List.append_nil _
  simp only [parseOwner, trimSpace_owner, hdrop, htake, parseUint32_toDigits]
  rfl

private theorem isDigit_of_isOctal {c : Char} (h : isOctal c = true) : c.isDigit = true := by
  simp only [isOctal, Bool.and_eq_true, decide_eq_true_eq] at h
  simp only [Char.isDigit, Bool.and_eq_true, decide_eq_true_eq]
  exact ⟨h.1, UInt32.le_trans h.2 (by decide)⟩

private theorem Mask.text_spec (bits : BitVec 9) :
    (Mask.text ⟨bits⟩).length = 4 ∧ (Mask.text ⟨bits⟩).all isOctal = true ∧
      Nat.ofDigitChars 8 (Mask.text ⟨bits⟩) 0 = bits.toNat := by
  revert bits
  decide +kernel

private theorem parseMask_text (name : Text) (m : Mask) : parseMask name m.text = .ok m := by
  obtain ⟨hlength, hoctal, hvalue⟩ := Mask.text_spec m.bits
  have htrim : trimSpace m.text = m.text := by
    apply trimSpace_of_isSpace_eq_false
    intro c hc
    exact isSpace_of_isDigit (isDigit_of_isOctal (List.all_eq_true.mp hoctal c hc))
  have hlt := m.bits.isLt
  have hin : ¬0o777 < m.bits.toNat := by omega
  rw [parseMask, htrim, hlength, hoctal, hvalue, if_neg (by simp [hin]), BitVec.ofNat_toNat,
    BitVec.setWidth_eq]

theorem parseFileMask_text (m : Mask) : parseFileMask m.text = .ok m := parseMask_text _ m

theorem parseDirMask_text (m : DirMask) : parseDirMask m.text = .ok m := by
  have hopen : ¬m.closes = true := Bool.eq_false_iff.mp m.enterable
  rw [parseDirMask, parseMask_text]
  exact dif_neg hopen

private theorem dropWhile_append_of_last {p : Char → Bool} {c : Char} (hc : p c = false)
    (a b : Text) :
    ∃ a', (a ++ c :: b).dropWhile p = a' ++ c :: b := by
  induction a with
  | nil =>
    refine ⟨[], ?_⟩
    rw [List.nil_append, List.dropWhile_cons_of_neg (by simp [hc])]
  | cons x a ih =>
    obtain ⟨a', ha'⟩ := ih
    by_cases hx : p x = true
    · refine ⟨a', ?_⟩
      rw [List.cons_append, List.dropWhile_cons_of_pos hx, ha']
    · refine ⟨x :: a, ?_⟩
      rw [List.cons_append, List.dropWhile_cons_of_neg hx]

/-- What starts with a word and an equals sign still does when it is trimmed. -/
theorem trimSpace_assignment {c : Char} (hc : Record.isSpace c = false) (key v : Text) :
    ∃ v', trimSpace (c :: key ++ '=' :: v) = c :: key ++ '=' :: v' := by
  have hreverse : (c :: key ++ '=' :: v).reverse = v.reverse ++ '=' :: (c :: key).reverse := by
    simp
  obtain ⟨v', hv'⟩ := dropWhile_append_of_last (p := Record.isSpace) (c := '=') (by decide)
    v.reverse (c :: key).reverse
  refine ⟨v'.reverse, ?_⟩
  rw [trimSpace, List.cons_append, List.dropWhile_cons_of_neg (by simp [hc]), ← List.cons_append,
    hreverse, hv']
  simp

private theorem wordsOf_assignment {c : Char} (hc : Record.isSpace c = false) (key : Text)
    (hkey : ',' ∉ c :: key) (v : Text) :
    ∃ v' rest, wordsOf (c :: key ++ '=' :: v) = (c :: key ++ '=' :: v') :: rest := by
  have hone : ∀ v : Text, ',' ∉ v →
      (c :: key ++ '=' :: v).splitOn ',' = [c :: key ++ '=' :: v] := by
    intro v hv
    have hnot : ',' ∉ c :: key ++ '=' :: v := by
      intro hin
      rcases List.mem_append.mp hin with hin | hin
      · exact hkey hin
      · rcases List.mem_cons.mp hin with hin | hin
        · cases hin
        · exact hv hin
    have hjoin : ([','].intercalate [c :: key ++ '=' :: v]).splitOn ',' = [c :: key ++ '=' :: v] :=
      List.splitOn_intercalate ',' (fun l hl ↦ List.mem_singleton.mp hl ▸ hnot)
        (List.cons_ne_nil _ _)
    rwa [List.intercalate_singleton] at hjoin
  have hsplit :
      ∃ v' rest, (c :: key ++ '=' :: v).splitOn ',' = (c :: key ++ '=' :: v') :: rest := by
    by_cases hv : ',' ∈ v
    · obtain ⟨v₁, v₂, rfl, hv₁⟩ := List.eq_append_cons_of_mem hv
      refine ⟨v₁, v₂.splitOn ',', ?_⟩
      have hassoc :
          c :: key ++ '=' :: (v₁ ++ ',' :: v₂) = (c :: key ++ '=' :: v₁) ++ ',' :: v₂ := by
        simp
      rw [hassoc, List.splitOn_append_cons_self, hone v₁ hv₁, List.singleton_append]
    · exact ⟨v, [], hone v hv⟩
  obtain ⟨v', rest, hsplit⟩ := hsplit
  obtain ⟨v'', htrim⟩ := trimSpace_assignment hc key v'
  refine ⟨v'', ((rest.map trimSpace).filter (· ≠ [])), ?_⟩
  rw [wordsOf, hsplit, List.map_cons, htrim, List.filter_cons_of_pos (by simp)]


private theorem cutAt_assignment {key : Text} (hkey : '=' ∉ key) (v : Text) :
    cutAt '=' (key ++ '=' :: v) = some (key, v) := by
  have hne : ∀ c ∈ key, (c != '=') = true := by
    intro c hc
    rw [bne_iff_ne]
    rintro rfl
    exact hkey hc
  have hdrop : (key ++ '=' :: v).dropWhile (· != '=') = '=' :: v := by
    rw [List.dropWhile_append_of_pos hne]
    rfl
  have htake : (key ++ '=' :: v).takeWhile (· != '=') = key := by
    rw [List.takeWhile_append_of_pos hne]
    exact List.append_nil key
  rw [cutAt, hdrop, htake]

private theorem read_of_parseModeWord {v : Text} {got : Mode}
    (h : parseModeWord ("read".toList ++ '=' :: v) = .ok got) : got.read.isSome = true := by
  have hdocker : dockerWords ("read".toList ++ '=' :: v) = none := by
    simp [dockerWords]
  rw [parseModeWord, hdocker] at h
  simp only [cutAt_assignment (show '=' ∉ "read".toList by decide), if_true] at h
  cases hread : parseRead v with
  | error e =>
    rw [hread] at h
    cases h
  | ok r =>
    rw [hread] at h
    cases h
    rfl

private theorem write_of_parseModeWord {v : Text} {got : Mode}
    (h : parseModeWord ("write".toList ++ '=' :: v) = .ok got) : got.write.isSome = true := by
  have hdocker : dockerWords ("write".toList ++ '=' :: v) = none := by
    simp [dockerWords]
  have hread : "write".toList ≠ "read".toList := by decide
  rw [parseModeWord, hdocker] at h
  simp only [cutAt_assignment (show '=' ∉ "write".toList by decide), if_neg hread, if_true] at h
  cases hwrite : parseWrite v with
  | error e =>
    rw [hwrite] at h
    cases h
  | ok r =>
    rw [hwrite] at h
    cases h
    rfl

private theorem named_of_foldlM {s : Text} {words : List Text} {m m' : Mode}
    (h : words.foldlM (fun m word ↦ do Mode.named s m (← parseModeWord word)) m = .ok m') :
    (m.read.isSome = true → m'.read.isSome = true) ∧
      (m.write.isSome = true → m'.write.isSome = true) ∧
      ∀ word ∈ words, ∃ got, parseModeWord word = .ok got ∧
        (got.read.isSome = true → m'.read.isSome = true) ∧
        (got.write.isSome = true → m'.write.isSome = true) := by
  induction words generalizing m with
  | nil =>
    cases h
    exact ⟨id, id, nofun⟩
  | cons word words ih =>
    rw [List.foldlM_cons] at h
    cases hword : parseModeWord word with
    | error e =>
      rw [hword] at h
      cases h
    | ok got =>
      rw [hword] at h
      cases hnamed : Mode.named s m got with
      | error e =>
        simp only [bind, Except.bind, hnamed] at h
        cases h
      | ok m₁ =>
        simp only [bind, Except.bind, hnamed] at h
        have hor : m₁ = got.or m := by
          rw [Mode.named] at hnamed
          split_ifs at hnamed
          cases hnamed
          rfl
        obtain ⟨hread, hwrite, hall⟩ := ih h
        subst hor
        refine ⟨?_, ?_, ?_⟩
        · intro hm
          apply hread
          simp [Mode.or, hm]
        · intro hm
          apply hwrite
          simp [Mode.or, hm]
        · intro w hw
          rcases List.mem_cons.mp hw with rfl | hw
          · refine ⟨got, hword, ?_, ?_⟩
            · intro hgot
              apply hread
              simp [Mode.or, hgot]
            · intro hgot
              apply hwrite
              simp [Mode.or, hgot]
          · exact hall w hw

theorem parseMode_both {x y : Text} {m : Mode}
    (h : parseMode ("read=".toList ++ x ++ ",write=".toList ++ y) = .ok m) :
    m.read.isSome = true ∧ m.write.isSome = true := by
  obtain ⟨v, rest, hv⟩ := wordsOf_assignment (c := 'r') (by decide) "ead".toList (by decide) x
  obtain ⟨v', rest', hv'⟩ := wordsOf_assignment (c := 'w') (by decide) "rite".toList (by decide) y
  have hwords : wordsOf ("read=".toList ++ x ++ ",write=".toList ++ y) =
      wordsOf ('r' :: "ead".toList ++ '=' :: x) ++ wordsOf ('w' :: "rite".toList ++ '=' :: y) := by
    have hassoc : "read=".toList ++ x ++ ",write=".toList ++ y =
        ('r' :: "ead".toList ++ '=' :: x) ++ ',' :: ('w' :: "rite".toList ++ '=' :: y) := by
      simp
    rw [wordsOf, hassoc, List.splitOn_append_cons_self, List.map_append, List.filter_append]
    rfl
  rw [parseMode, hwords, hv, hv'] at h
  obtain ⟨-, -, hall⟩ := named_of_foldlM h
  constructor
  · obtain ⟨got, hgot, hread, -⟩ := hall ("read".toList ++ '=' :: v) (by simp)
    exact hread (read_of_parseModeWord hgot)
  · obtain ⟨got, hgot, -, hwrite⟩ := hall ("write".toList ++ '=' :: v') (by simp)
    exact hwrite (write_of_parseModeWord hgot)

end RemoteDocker.Workspace

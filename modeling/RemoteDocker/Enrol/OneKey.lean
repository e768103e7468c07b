import RemoteDocker.Enrol.AllOrNothing

/-!
# One token, one key

Redemptions one after another: a token whose redemption left a key has no file under its name
any more, so no later redemption of it gets as far as a key.
-/

namespace RemoteDocker.Enrol

open Base

section

variable {Key : Type} {F : KeyFormat Key} {cfg : Config} (sha256 : String → List UInt8)

private theorem lookup_rename_other (files : Tokens.Files) {old new name : Tokens.Name}
    (hold : name ≠ old)
    (hnew : name ≠ new) : ((Tokens.rename files old new).getD files).lookup name =
      files.lookup name := by
  unfold Tokens.rename
  cases files.lookup old with
  | none => rfl
  | some t =>
    rw [Option.map_some, Option.getD_some, AList.lookup_insert_ne hnew, AList.lookup_erase_ne hold]

private theorem lookup_consume_other (files : Tokens.Files) (c : Tokens.Claim) (secret : String)
    (now : Int)
    (takeFails readFails returnFails : Bool) {name : Tokens.Name} (hname : name.id ≠ c.id) :
    (consume sha256 files c secret now takeFails readFails returnFails).1.lookup name =
      files.lookup name := by
  have hhome : name ≠ c.home := fun h ↦ hname (congrArg Tokens.Name.id h)
  have hplace : name ≠ c.place := fun h ↦ hname (congrArg Tokens.Name.id h)
  have hlook : ∀ taken,
      (if takeFails then none else Tokens.rename files c.home c.place) = some taken →
      taken.lookup name = files.lookup name := by
    intro taken htaken
    have hother := lookup_rename_other files hhome hplace
    rw [(Option.ite_none_left_eq_some.mp htaken).2, Option.getD_some] at hother
    exact hother
  fun_cases consume sha256 files c secret now takeFails readFails returnFails
  case case3 taken htaken _ => exact hlook taken htaken
  case case4 taken htaken _ =>
    rw [← hlook taken htaken]
    cases returnFails with
    | true => rfl
    | false => exact lookup_rename_other taken hplace hhome
  all_goals rfl

private theorem lookup_of_consume {files taken : Tokens.Files} {c : Tokens.Claim} {secret : String}
    {now : Int} {takeFails readFails returnFails : Bool}
    (h : consume sha256 files c secret now takeFails readFails returnFails = (taken, true)) :
    files.lookup c.home ≠ none ∧ taken.lookup c.home = none := by
  have hne : c.home ≠ c.place := fun h ↦ by cases h
  revert h
  fun_cases consume sha256 files c secret now takeFails readFails returnFails <;> rintro ⟨⟩
  next hrename _ =>
    obtain ⟨t, ht, rfl⟩ := Option.map_eq_some_iff.mp (Option.ite_none_left_eq_some.mp hrename).2
    refine ⟨by rw [ht]; exact Option.some_ne_none t, ?_⟩
    rw [AList.lookup_insert_ne hne, AList.lookup_erase]

variable {w : World} {r : Redemption Key}

private theorem takeToken_cases (cfg : Config) (w : World) (r : Redemption Key) :
    (takeToken sha256 cfg w r).1 = w.tokens ∧ (∃ e, (takeToken sha256 cfg w r).2 = .error e) ∨
      w.tokens.lookup (.token r.id) ≠ none ∧ ∃ given,
        consume sha256 w.tokens r.claim r.secret r.consumeNow r.takeFails r.readFails
          r.returnFails =
          ((takeToken sha256 cfg w r).1, given) ∧
        (given = false → ∃ e, (takeToken sha256 cfg w r).2 = .error e) := by
  have hthere : ∀ tok, Tokens.check sha256 w.tokens r.id r.secret r.checkNow = some tok →
      w.tokens.lookup (.token r.id) ≠ none := by
    intro tok htok hnone
    rw [Tokens.check, hnone] at htok
    split at htok <;> cases htok
  fun_cases takeToken sha256 cfg w r
  case case5 tok htok _ _ _ hconsume =>
    exact .inr ⟨hthere tok htok, false, hconsume, fun _ ↦ ⟨_, rfl⟩⟩
  case case6 tok htok _ _ _ hconsume => exact .inr ⟨hthere tok htok, true, hconsume, by simp⟩
  all_goals exact .inl ⟨rfl, _, rfl⟩

private theorem redeem_of_none (F : KeyFormat Key) (cfg : Config)
    (hnone : w.tokens.lookup (.token r.id) = none) :
    (redeem sha256 F cfg w r).1 = w := by
  rcases takeToken_cases sha256 cfg w r with ⟨hfiles, e, herr⟩ | ⟨hthere, -⟩
  · unfold redeem
    rw [← Prod.eta (takeToken sha256 cfg w r), hfiles, herr]
  · exact absurd hnone hthere

/-- The rest of a redemption touches no token but its own, and no file of it under its name
unless it puts the token back. -/
theorem tokens_commit {w : World} {name account : String} {e : Enrolled} {pending : Bool}
    {n : Tokens.Name} (hn : n ≠ r.claim.place) :
    (commit F cfg w r name account e pending).1.tokens.lookup n = w.tokens.lookup n := by
  have hwithdrawn : (if r.withdrawn then w.tokens.erase r.claim.place else w.tokens).lookup n =
      w.tokens.lookup n := by
    split
    · exact AList.lookup_erase_ne hn
    · rfl
  simp only [commit]
  split
  · exact hwithdrawn
  · next done hdone =>
    simp only [World.write]
    split
    · exact hwithdrawn
    · obtain ⟨_, -, rfl⟩ := Option.map_eq_some_iff.mp hdone
      rw [AList.lookup_erase_ne hn]
      exact hwithdrawn

private theorem tokens_putBack {w : World} {name : String} {err : Option Err} {n : Tokens.Name}
    (hn : n.id ≠ r.id) : (putBack w r name err).1.tokens.lookup n = w.tokens.lookup n := by
  simp only [putBack]
  split
  · rfl
  · exact lookup_rename_other w.tokens (fun h ↦ hn (congrArg Tokens.Name.id h))
      (fun h ↦ hn (congrArg Tokens.Name.id h))

private theorem tokens_redeem_other {n : Tokens.Name} (hn : n.id ≠ r.id) :
    (redeem sha256 F cfg w r).1.tokens.lookup n = w.tokens.lookup n := by
  have htaken : (takeToken sha256 cfg w r).1.lookup n = w.tokens.lookup n := by
    rcases takeToken_cases sha256 cfg w r with ⟨hfiles, -⟩ | ⟨-, given, hconsume, -⟩
    · rw [hfiles]
    · have hother := lookup_consume_other sha256 w.tokens r.claim r.secret r.consumeNow
        r.takeFails r.readFails r.returnFails hn
      rw [hconsume] at hother
      exact hother
  have hplace : n ≠ r.claim.place := fun h ↦ hn (congrArg Tokens.Name.id h)
  fun_cases redeem sha256 F cfg w r
  all_goals rw [‹takeToken sha256 cfg w r = _›] at htaken
  case case1 => exact htaken
  case case3 | case4 => exact (tokens_commit hplace).trans htaken
  all_goals exact (tokens_putBack hn).trans htaken

private theorem tokens_of_redeemed {reply : Reply} (h : (redeem sha256 F cfg w r).2 = .ok reply) :
    (redeem sha256 F cfg w r).1.tokens.lookup (.token r.id) = none := by
  have hnone : ∀ files target, takeToken sha256 cfg w r = (files, .ok target) →
      files.lookup (.token r.id) = none := by
    intro files target htake
    rcases takeToken_cases sha256 cfg w r with ⟨-, e, herr⟩ | ⟨-, given, hconsume, hgiven⟩
    · rw [htake] at herr
      cases herr
    · rw [htake] at hconsume hgiven
      cases given with
      | true => exact (lookup_of_consume sha256 hconsume).2
      | false =>
        obtain ⟨e, he⟩ := hgiven rfl
        cases he
  have hplace : Tokens.Name.token r.id ≠ r.claim.place := fun h ↦ by cases h
  revert h
  fun_cases redeem sha256 F cfg w r <;> intro h
  case case3 htake _ _ _ _ _ | case4 htake _ _ _ _ _ _ _ =>
    exact (tokens_commit hplace).trans (hnone _ _ htake)
  all_goals cases h

end

/-- A key that a redemption of a token left in an account's file. -/
structure Left where
  token : String
  account : String
  fingerprint : String
  deriving DecidableEq, Repr

structure History where
  world : World
  left : List Left := []

section

variable {Key : Type} (sha256 : String → List UInt8) (F : KeyFormat Key) (cfg : Config)

def newlyLeft (w : World) (r : Redemption Key) : List Left :=
  let after := (redeem sha256 F cfg w r).1
  (after.enrolled.keys.filter fun name ↦
    after.enrols F name (F.fingerprint r.key) && !w.enrols F name (F.fingerprint r.key)).map
      fun name ↦ ⟨r.id, name, F.fingerprint r.key⟩

def machine : Machine History (Redemption Key) where
  step h r := some
    { world := (redeem sha256 F cfg h.world r).1
      left := newlyLeft sha256 F cfg h.world r ++ h.left }

variable {sha256 F cfg} {w : World} {r : Redemption Key}

private theorem length_le_one_of_nodup {α : Type} {l : List α} (hnodup : l.Nodup)
    (hall : ∀ a ∈ l, ∀ b ∈ l, a = b) : l.length ≤ 1 := by
  cases l with
  | nil => exact Nat.zero_le 1
  | cons a rest =>
    cases rest with
    | nil => exact le_refl 1
    | cons b rest =>
      have hab := hall a (.head _) b (.tail _ (.head _))
      exact absurd (hab ▸ (.head _)) (List.nodup_cons.mp hnodup).1

/-- A key is left only by a redemption that consumed its token, in one account's file. -/
theorem newlyLeft_of_allOrNothing (hall : AllOrNothing sha256 F cfg w r) :
    (newlyLeft sha256 F cfg w r).length ≤ 1 ∧
      (newlyLeft sha256 F cfg w r ≠ [] → ∃ reply, (redeem sha256 F cfg w r).2 = .ok reply) := by
  have hreply : ∀ name, ((redeem sha256 F cfg w r).1.enrols F name (F.fingerprint r.key) &&
      !w.enrols F name (F.fingerprint r.key)) = true →
      ∃ reply, (redeem sha256 F cfg w r).2 = .ok reply ∧
        cfg.accountName reply.account = .ok name := by
    intro name hname
    rw [Bool.and_eq_true, Bool.not_eq_true'] at hname
    rcases (hall name).mp hname.1 with hbefore | hconsumed
    · rw [hname.2] at hbefore
      cases hbefore
    · exact hconsumed
  unfold newlyLeft
  constructor
  · rw [List.length_map]
    refine length_le_one_of_nodup ((AList.keys_nodup _).filter _) ?_
    intro a ha b hb
    obtain ⟨reply, hok, haccount⟩ := hreply a (List.mem_filter.mp ha).2
    obtain ⟨reply', hok', haccount'⟩ := hreply b (List.mem_filter.mp hb).2
    rw [hok] at hok'
    cases hok'
    rw [haccount] at haccount'
    exact Except.ok.inj haccount'
  · intro hne
    obtain ⟨left, hleft⟩ := List.exists_mem_of_ne_nil _ hne
    obtain ⟨name, hname, -⟩ := List.mem_map.mp hleft
    obtain ⟨reply, hok, -⟩ := hreply name (List.mem_filter.mp hname).2
    exact ⟨reply, hok⟩

private theorem newlyLeft_of_same (h : (redeem sha256 F cfg w r).1 = w) :
    newlyLeft sha256 F cfg w r = [] := by
  simp only [newlyLeft, h, Bool.and_not_self, List.filter_false, List.map_nil]

/-- A token has left at most one key, and has no file under its name once it has. -/
def OneKeyEach (h : History) : Prop :=
  ∀ id, (h.left.filter (·.token == id)).length ≤ 1 ∧
    (h.left.filter (·.token == id) ≠ [] → h.world.tokens.lookup (.token id) = none)

private theorem filter_newlyLeft_other {id : String} (hid : id ≠ r.id) :
    (newlyLeft sha256 F cfg w r).filter (·.token == id) = [] := by
  rw [List.filter_eq_nil_iff]
  intro left hleft
  obtain ⟨name, -, rfl⟩ := List.mem_map.mp hleft
  rw [beq_iff_eq]
  exact fun h ↦ hid h.symm

private theorem filter_newlyLeft_self :
    (newlyLeft sha256 F cfg w r).filter (·.token == r.id) = newlyLeft sha256 F cfg w r := by
  rw [List.filter_eq_self]
  intro left hleft
  obtain ⟨name, -, rfl⟩ := List.mem_map.mp hleft
  exact beq_self_eq_true r.id

private theorem OneKeyEach.step {h h' : History} (hone : OneKeyEach h)
    (hall : AllOrNothing sha256 F cfg h.world r)
    (hstep : (machine sha256 F cfg).step h r = some h') : OneKeyEach h' := by
  cases hstep
  intro id
  rw [List.filter_append]
  by_cases hid : id = r.id
  · subst hid
    rw [filter_newlyLeft_self]
    by_cases hleft : h.left.filter (·.token == r.id) = []
    · rw [hleft, List.append_nil]
      obtain ⟨hlength, hreply⟩ := newlyLeft_of_allOrNothing hall
      refine ⟨hlength, ?_⟩
      intro hne
      obtain ⟨reply, hok⟩ := hreply hne
      exact tokens_of_redeemed sha256 hok
    · -- The token has left a key before: this redemption finds no token.
      have hnone := (hone r.id).2 hleft
      have hsame := redeem_of_none sha256 F cfg hnone
      rw [newlyLeft_of_same hsame, List.nil_append, hsame]
      exact hone r.id
  · rw [filter_newlyLeft_other hid, List.nil_append]
    refine ⟨(hone id).1, ?_⟩
    intro hne
    exact (tokens_redeem_other sha256 (n := .token id) hid).trans ((hone id).2 hne)

end

/-- A redemption whose undo works is all or nothing exactly if the accounts are re-read after its
key is written; and in every sequence of redemptions that all are, a token leaves at most one
key. -/
theorem redeem_all_or_nothing_iff {Key : Type} (sha256 : String → List UInt8) (F : KeyFormat Key)
    (cfg : Config) :
    (∀ w r, UndoWorks sha256 F cfg w r →
        (AllOrNothing sha256 F cfg w r ↔ rereads sha256 F cfg w r = true)) ∧
      ∀ w redemptions h, (machine sha256 F cfg).Within
          (fun h r ↦ UndoWorks sha256 F cfg h.world r ∧ rereads sha256 F cfg h.world r = true)
          { world := w } redemptions →
        (machine sha256 F cfg).run { world := w } redemptions = some h →
        ∀ id, (h.left.filter (·.token == id)).length ≤ 1 := by
  refine ⟨fun w r hundo ↦ allOrNothing_iff sha256 hundo, ?_⟩
  intro w redemptions h hwithin hrun id
  have hstep : ∀ h r h', OneKeyEach h →
      UndoWorks sha256 F cfg h.world r ∧ rereads sha256 F cfg h.world r = true →
      (machine sha256 F cfg).step h r = some h' → OneKeyEach h' :=
    fun _ _ _ hone hok hs ↦ hone.step ((allOrNothing_iff sha256 hok.1).mpr hok.2) hs
  have hstart : OneKeyEach { world := w } :=
    fun _ ↦ ⟨Nat.zero_le 1, fun hne ↦ absurd rfl hne⟩
  exact (((machine sha256 F cfg).run_invariant _ hstep hstart hwithin hrun) id).1

def twoKeys : KeyFormat Bool where
  parseKeyLine := fun line ↦
    match line.toList.take 2 with
    | ['k', '1'] => some true
    | ['k', '2'] => some false
    | _ => none
  marshal := fun key ↦ if key then "k1" else "k2"
  fingerprint := fun key ↦ if key then "f1" else "f2"
  parse_marshal := by decide
  parse_comment := by
    intro key comment _
    cases key
    · simp [String.toList_append]
    · simp [String.toList_append]

def plainConfig : Config where
  lower := Char.toLower
  quote := id
  enrolledDir := "/keys"
  admins := fun _ ↦ false

def aliceWorld : World where
  tokens := AList.singleton (.token "aaaaaaaa") { hash := "73", account := "alice", expires := 100 }
  enrolled := ∅

def redemption (key : Bool) (edit : EditEnv) : Redemption Bool where
  id := "aaaaaaaa"
  secret := "s"
  key := key
  checkNow := 1
  consumeNow := 2
  edit := edit

/-- The accounts are not re-read after the first key is written: the redemption fails, the token
is put back and the key stays. A second redemption with another key succeeds, and both keys are
in alice's file. -/
theorem two_keys_of_one_token :
    UndoWorks Tokens.charBytes twoKeys plainConfig aliceWorld
        (redemption true { rereadFails := true }) ∧
      (redeem Tokens.charBytes twoKeys plainConfig aliceWorld
        (redemption true { rereadFails := true })).2 = .error couldNotEnrol ∧
      ((machine Tokens.charBytes twoKeys plainConfig).run { world := aliceWorld }
        [redemption true { rereadFails := true }, redemption false {}]).map (fun h ↦
          (h.world.enrolled.lookup "alice", h.left)) =
        some (some ["k1", "k2"], [⟨"aaaaaaaa", "alice", "f2"⟩, ⟨"aaaaaaaa", "alice", "f1"⟩]) := by
  refine ⟨?_, by decide, by decide⟩
  intro name create _
  cases create <;> decide

/-- Where the accounts are re-read, the second redemption of the token is refused. -/
theorem redeem_all_or_nothing_iff_alice :
    AllOrNothing Tokens.charBytes twoKeys plainConfig aliceWorld (redemption true {}) ∧
      ∃ h, (machine Tokens.charBytes twoKeys plainConfig).run { world := aliceWorld }
          [redemption true {}, redemption false {}] = some h ∧
        h.left = [⟨"aaaaaaaa", "alice", "f1"⟩] ∧
        (h.left.filter (·.token == "aaaaaaaa")).length ≤ 1 := by
  obtain ⟨hiff, hruns⟩ := redeem_all_or_nothing_iff Tokens.charBytes twoKeys plainConfig
  have hundo : ∀ w key, UndoWorks Tokens.charBytes twoKeys plainConfig w (redemption key {}) := by
    intro w key name create _
    cases create <;> cases key <;> decide
  obtain ⟨h, hrun, hl⟩ : ∃ h, (machine Tokens.charBytes twoKeys plainConfig).run
      { world := aliceWorld } [redemption true {}, redemption false {}] = some h ∧
      h.left = [⟨"aaaaaaaa", "alice", "f1"⟩] := by
    decide
  refine ⟨(hiff _ _ (hundo _ _)).mpr (by decide), h, hrun, hl, ?_⟩
  refine hruns aliceWorld [redemption true {}, redemption false {}] h ?_ hrun _
  exact ⟨⟨hundo _ _, by decide⟩, ⟨hundo _ _, by decide⟩, trivial⟩

end RemoteDocker.Enrol

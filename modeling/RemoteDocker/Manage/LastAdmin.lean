import RemoteDocker.Enrol.OneKey
import RemoteDocker.Manage.Removal

/-!
# The last admin

A removal is allowed when what it counted leaves an admin with a key. It counts the accounts that
were published when it looked, and writes later: two admins that remove each other both count one
other admin, and none is left (`both_admins_removed`). While what a removal counted is still so when
it writes, an admin is left with a key.
-/

namespace RemoteDocker.Manage

open Base Enrol

variable {Key : Type} {F : KeyFormat Key} {cfg : Config} {s s' : State Key}

private theorem mem_lineKeys {file : KeyFile} {fp : String} :
    fp ∈ State.lineKeys F (file.getD []) ↔ holds F file fp = true := by
  rw [State.lineKeys, List.mem_filterMap, holds, withoutKey, List.any_eq_true]
  apply exists_congr
  intro line
  apply and_congr_right
  intro _
  rw [lineHolds, Option.any_eq_true, Option.map_eq_some_iff]
  apply exists_congr
  intro k
  rw [beq_iff_eq]

namespace State

variable {q : Request} {r : Nat} {name : String} {fp : String} {env : WriteEnv} {force : Bool}

private theorem mem_enrolledKeys : fp ∈ s.enrolledKeys F name ↔
      (∃ f ∈ (s.operator.lookup name).getD [], fp ∈ lineKeys F f.2) ∨
        holds F (s.files.lookup name) fp = true := by
  rw [enrolledKeys, List.mem_dedup, List.mem_append, List.mem_flatMap, mem_lineKeys]

private theorem lookup_setFile (file : KeyFile) : (s.setFile name file).lookup name = file := by
  cases file with
  | none => exact AList.lookup_erase _ _
  | some lines => exact AList.lookup_insert _

private theorem lookup_setFile_ne {k : String} (hk : k ≠ name) (file : KeyFile) :
    (s.setFile name file).lookup k = s.files.lookup k := by
  cases file with
  | none => exact AList.lookup_erase_ne hk
  | some lines => exact AList.lookup_insert_ne hk

private theorem written_key {fp' : String} (hq : q.removal = .key fp force) (hne : fp' ≠ fp)
    (hmem : holds F (s.files.lookup q.target) fp' = true) :
    holds F (s.written F cfg q env).1 fp' = true := by
  have hkept := holds_removeKey_ne cfg.names env.edit env.operatorFiles hne hmem
  unfold written
  rw [hq]
  dsimp only
  split <;> rename_i hres <;> rw [hres] at hkept <;> exact hkept

private theorem enrolledKeys_write (hother : name ≠ q.target)
    (h : s.write F cfg r q env = some s') : s'.enrolledKeys F name = s.enrolledKeys F name := by
  unfold write at h
  split at h
  · split at h
    · cases h
      rw [enrolledKeys, enrolledKeys]
      dsimp only
      rw [lookup_setFile_ne hother]
      rfl
    · cases h
      rfl
  · cases h

private theorem mem_enrolledKeys_write {fp' : String} (hq : q.removal = .key fp force)
    (hne : fp' ≠ fp)
    (hmem : fp' ∈ s.enrolledKeys F q.target) (h : s.write F cfg r q env = some s') :
    fp' ∈ s'.enrolledKeys F q.target := by
  unfold write at h
  split at h
  · split at h
    · cases h
      rcases mem_enrolledKeys.mp hmem with hop | hfile
      · exact mem_enrolledKeys.mpr (.inl hop)
      · refine mem_enrolledKeys.mpr (.inr ?_)
        dsimp only
        rw [lookup_setFile]
        exact written_key hq hne hfile
    · cases h
      exact hmem
  · cases h

private theorem adminEnrolled_iff :
    s.adminEnrolled F cfg = true ↔ ∃ a ∈ cfg.admins, s.enrolledKeys F a ≠ [] := by
  rw [adminEnrolled, List.any_eq_true]
  apply exists_congr
  intro a
  apply and_congr_right
  intro _
  rw [Bool.not_eq_true', List.isEmpty_eq_false_iff]

private theorem adminEnrolled_write {a : String} (ha : a ∈ cfg.admins)
    (hkeys : s.enrolledKeys F a ≠ []) (hother : a ≠ q.target)
    (h : s.write F cfg r q env = some s') : s'.adminEnrolled F cfg = true := by
  refine adminEnrolled_iff.mpr ⟨a, ha, ?_⟩
  rw [enrolledKeys_write hother h]
  exact hkeys

private theorem exists_other_key {keys : List String} (hnodup : keys.Nodup) (hlen : 2 ≤ keys.length)
    (fp : String) : ∃ fp' ∈ keys, fp' ≠ fp := by
  match keys, hnodup, hlen with
  | a :: b :: rest, hnodup, _ =>
    by_cases ha : a = fp
    · refine ⟨b, .tail _ (.head _), ?_⟩
      rintro rfl
      rw [ha] at hnodup
      exact (List.nodup_cons.mp hnodup).1 (.head _)
    · exact ⟨a, (.head _), ha⟩

/-- What an allowed removal counted: another admin, no key to lose, or a key it leaves. -/
theorem counted_of_authorize {f : Facts} (htarget : q.target ∈ cfg.admins)
    (h : authorize (q.check cfg f) = none) :
    0 < f.otherAdmins ∨ f.targetKeys = 0 ∨
      ∃ fp force, q.removal = .key fp force ∧ 2 ≤ f.targetKeys := by
  have hop : (q.check cfg f).op = .userRemove ∨ (q.check cfg f).op = .keyRemove := by
    cases hrem : q.removal <;> simp [Request.check, hrem, Request.checkFor, Removal.op]
  have hlast := lastAdmin_of_authorize hop h
  have hadmin : decide (q.target ∈ cfg.admins) = true := decide_eq_true htarget
  by_cases hothers : 0 < f.otherAdmins
  · exact .inl hothers
  by_cases hkeys : f.targetKeys = 0
  · exact .inr (.inl hkeys)
  cases hrem : q.removal with
  | user force =>
    simp only [Request.check, hrem, Request.checkFor, Check.lastAdmin, hadmin, Bool.true_and,
      Bool.and_eq_false_iff, decide_eq_false_iff_not, not_true_eq_false, or_false] at hlast
    omega
  | key fp force =>
    simp only [Request.check, hrem, Request.checkFor, Check.lastAdmin, hadmin, Bool.true_and,
      Bool.and_eq_false_iff, decide_eq_false_iff_not] at hlast
    exact .inr (.inr ⟨fp, force, rfl, by omega⟩)

private theorem adminEnrolled_of_write {f : Facts} (hadmin : s.adminEnrolled F cfg = true)
    (hauth : authorize (q.check cfg f) = none)
    (hcareful : q.target ∈ cfg.admins → f.targetKeys = (s.enrolledKeys F q.target).length ∧
      f.otherAdmins = s.otherAdmins F cfg q.target)
    (h : s.write F cfg r q env = some s') : s'.adminEnrolled F cfg = true := by
  obtain ⟨a, ha, hkeys⟩ := adminEnrolled_iff.mp hadmin
  by_cases hother : a = q.target
  · subst hother
    obtain ⟨htarget, hothers⟩ := hcareful ha
    rcases counted_of_authorize ha hauth with hpos | hnone | ⟨fp, force, hrem, htwo⟩
    · -- another admin was counted, and is still one
      rw [hothers, otherAdmins] at hpos
      obtain ⟨b, hb⟩ := List.exists_mem_of_length_pos hpos
      obtain ⟨hb, hholds⟩ := List.mem_filter.mp hb
      rw [Bool.and_eq_true, bne_iff_ne, Bool.not_eq_true', List.isEmpty_eq_false_iff] at hholds
      exact adminEnrolled_write hb hholds.2 hholds.1 h
    · rw [hnone] at htarget
      exact absurd (List.length_eq_zero_iff.mp htarget.symm) hkeys
    · -- one of the keys counted is not the one removed
      rw [htarget] at htwo
      obtain ⟨fp', hfp', hne⟩ := exists_other_key (List.nodup_dedup _) htwo fp
      have hleft := mem_enrolledKeys_write hrem hne hfp' h
      exact adminEnrolled_iff.mpr ⟨q.target, ha, List.ne_nil_of_mem hleft⟩
  · exact adminEnrolled_write ha hkeys hother h

/-- A removal that is about to write, or only to ask the daemon first, is allowed. -/
def Allowed (cfg : Config) (q : Request) : Prop :=
  ∀ f, q.phase = .asking f ∨ q.phase = .writing f → authorize (q.check cfg f) = none

structure Inv (F : KeyFormat Key) (cfg : Config) (s : State Key) : Prop where
  admin : s.adminEnrolled F cfg = true
  allowed : ∀ r q, s.requests.lookup r = some q → Allowed cfg q

private theorem Inv.goto {phase : Phase} (hi : s.Inv F cfg) (h : Allowed cfg { q with phase }) :
    Inv F cfg (s.goto r q phase) where
  admin := hi.admin
  allowed r₁ q₁ hq₁ := by
    rcases lookup_insert_eq_some.mp hq₁ with ⟨rfl, rfl⟩ | ⟨-, hq₁⟩
    · exact h
    · exact hi.allowed r₁ q₁ hq₁

private theorem allowed_of_ne {phase : Phase} (hasking : ∀ f, phase ≠ .asking f)
    (hwriting : ∀ f, phase ≠ .writing f) : Allowed cfg { q with phase } := by
  rintro f (h | h)
  · exact absurd h (hasking f)
  · exact absurd h (hwriting f)

private theorem allowed_settleUser {targetKeys otherAdmins : Nat} :
    Allowed cfg { q with phase := s.settleUser cfg q targetKeys otherAdmins force } := by
  unfold settleUser
  dsimp only
  split
  · exact allowed_of_ne (by nofun) (by nofun)
  · rename_i hauth
    split
    · exact allowed_of_ne (by nofun) (by nofun)
    · split
      · rintro f (hf | hf)
        · cases hf
        · cases hf
          exact hauth
      · rintro f (hf | hf)
        · cases hf
          exact hauth
        · cases hf

private theorem allowed_settleKey {targetKeys otherAdmins : Nat} :
    Allowed cfg { q with phase := s.settleKey F cfg q targetKeys otherAdmins fp } := by
  unfold settleKey
  split
  · exact allowed_of_ne (by nofun) (by nofun)
  · split
    · exact allowed_of_ne (by nofun) (by nofun)
    · split
      · dsimp only
        split
        · exact allowed_of_ne (by nofun) (by nofun)
        · rename_i hauth
          rintro f (hf | hf)
          · cases hf
          · cases hf
            exact hauth
      · exact allowed_of_ne (by nofun) (by nofun)

variable (hi : s.Inv F cfg)

include hi

private theorem Inv.ask {caller : Session} {account : String} {removal : Removal}
    (h : s.ask cfg r caller account removal = some s') : s'.Inv F cfg := by
  obtain ⟨-, h⟩ := Option.ite_none_left_eq_some.mp h
  dsimp only at h
  split at h
  · split at h <;> cases h <;> exact hi.goto (allowed_of_ne (by nofun) (by nofun))
  · split at h <;> cases h <;> exact hi.goto (allowed_of_ne (by nofun) (by nofun))

private theorem Inv.running {n : Int} (hq : s.requests.lookup r = some q)
    (h : s.running r q n = some s') : s'.Inv F cfg := by
  unfold State.running at h
  split at h
  · rename_i f hphase
    dsimp only at h
    split at h
    · cases h
      exact hi.goto (allowed_of_ne (by nofun) (by nofun))
    · split at h
      · cases h
        exact hi.goto (allowed_of_ne (by nofun) (by nofun))
      · cases h
        refine hi.goto ?_
        rintro f' (hf | hf)
        · cases hf
        · cases hf
          exact hi.allowed r q hq f (.inl hphase)
  · cases h

private theorem Inv.write (hq : s.requests.lookup r = some q)
    (hcareful : s.careful F cfg (.write r env) = true) (h : s.write F cfg r q env = some s') :
    s'.Inv F cfg := by
  have hadmin : s'.adminEnrolled F cfg = true := by
    cases hphase : q.phase with
    | writing f =>
      refine adminEnrolled_of_write hi.admin (hi.allowed r q hq f (.inr hphase)) ?_ h
      obtain ⟨caller, target, removal, phase⟩ := q
      subst hphase
      simp only [careful, hq, decide_eq_true_eq] at hcareful
      exact hcareful
    | _ =>
      rw [State.write, hphase] at h
      cases h
  refine ⟨hadmin, ?_⟩
  unfold State.write at h
  split at h
  · split at h
    · cases h
      exact (hi.goto (allowed_of_ne (by nofun) (by nofun))).allowed
    · cases h
      exact (hi.goto (allowed_of_ne (by nofun) (by nofun))).allowed
  · cases h

private theorem Inv.act {e : Event Key} (hcareful : s.careful F cfg e = true)
    (h : s.act F cfg e = some s') : s'.Inv F cfg := by
  cases e with
  | ask r caller account removal => exact hi.ask h
  | look r =>
    obtain ⟨q, -, h⟩ := Option.bind_eq_some_iff.mp h
    unfold State.look at h
    split at h
    · cases h
      exact hi.goto (allowed_of_ne (by nofun) (by nofun))
    · cases h
  | count r name =>
    obtain ⟨q, -, h⟩ := Option.bind_eq_some_iff.mp h
    unfold State.count at h
    split at h
    · split at h
      · cases h
        exact hi.goto (allowed_of_ne (by nofun) (by nofun))
      · cases h
    · cases h
  | settle r =>
    obtain ⟨q, -, h⟩ := Option.bind_eq_some_iff.mp h
    unfold State.settle at h
    split at h
    · cases h
      exact hi.goto allowed_settleUser
    · cases h
      exact hi.goto allowed_settleKey
    · cases h
  | running r n =>
    obtain ⟨q, hq, h⟩ := Option.bind_eq_some_iff.mp h
    exact hi.running hq h
  | write r env =>
    obtain ⟨q, hq, h⟩ := Option.bind_eq_some_iff.mp h
    exact hi.write hq hcareful h
  | publish published =>
    cases h
    exact ⟨hi.admin, hi.allowed⟩

end State

/-- An admin holds a key after any removals, from any files in which one does, whatever is published
meanwhile: as long as each removal on an admin's account writes while the keys it counted there, and
the other admins it counted, are those there are. -/
theorem admin_left {s₀ : State Key} {es : List (Event Key)} (hidle : s₀.requests = ∅)
    (hadmin : s₀.adminEnrolled F cfg = true)
    (hw : (machine F cfg).Within (fun s e ↦ s.careful F cfg e = true) s₀ es)
    (hr : (machine F cfg).run s₀ es = some s) : s.adminEnrolled F cfg = true := by
  have hstart : s₀.Inv F cfg := by
    refine ⟨hadmin, ?_⟩
    intro r q hq
    rw [hidle] at hq
    cases hq
  exact ((machine F cfg).run_invariant _ (fun _ _ _ hi hok h ↦ hi.act hok h) hstart hw hr).admin

def twoAdmins : Config where
  names :=
    { lower := Char.toLower, quote := id, enrolledDir := "/enrolled", admins := fun _ ↦ true }
  admins := ["alice", "bob"]
  nodup := by decide

def bothEnrolled : State Bool where
  files := (AList.singleton "bob" ["k2"]).insert "alice" ["k1"]
  operator := ∅
  published :=
    (AList.singleton "bob" ⟨[false], [⟨"/enrolled", [false]⟩]⟩).insert "alice"
      ⟨[true], [⟨"/enrolled", [true]⟩]⟩

/-- The removal of one by the other, up to its write. -/
def removes (r : Nat) (caller : Session) (target : String) : List (Event Bool) :=
  [.ask r caller target (.user true), .look r, .count r "alice", .count r "bob", .settle r]

/-- Each of the two admins removes the other, and each looks before the other writes. -/
theorem both_admins_removed :
    bothEnrolled.adminEnrolled twoKeys twoAdmins = true ∧
      ((machine twoKeys twoAdmins).run bothEnrolled
        (removes 0 ⟨"alice", "f1"⟩ "bob" ++ removes 1 ⟨"bob", "f2"⟩ "alice" ++
          [.write 0 {}, .write 1 {}])).map
        (fun s ↦ (s.adminEnrolled twoKeys twoAdmins, (s.requests.lookup 0).map (·.phase),
          (s.requests.lookup 1).map (·.phase))) =
      some (false, some (.done none), some (.done none)) := by
  decide +kernel

/-- When bob asks only after alice's removal has been published, bob is refused. -/
theorem admin_left_inTurn :
    ∃ s, (machine twoKeys twoAdmins).run bothEnrolled
        (removes 0 ⟨"alice", "f1"⟩ "bob" ++
          [.write 0 {}, .publish (AList.singleton "alice" ⟨[true], [⟨"/enrolled", [true]⟩]⟩)] ++
          removes 1 ⟨"bob", "f2"⟩ "alice") = some s ∧
      s.adminEnrolled twoKeys twoAdmins = true := by
  obtain ⟨s, hs⟩ : ∃ s, (machine twoKeys twoAdmins).run bothEnrolled
      (removes 0 ⟨"alice", "f1"⟩ "bob" ++
        [.write 0 {}, .publish (AList.singleton "alice" ⟨[true], [⟨"/enrolled", [true]⟩]⟩)] ++
        removes 1 ⟨"bob", "f2"⟩ "alice") = some s :=
    Option.isSome_iff_exists.mp (by decide +kernel)
  exact ⟨s, hs, admin_left rfl (by decide +kernel) (by decide +kernel) hs⟩

end RemoteDocker.Manage

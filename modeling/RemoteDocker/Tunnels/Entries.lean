import RemoteDocker.Tunnels.Unshared

/-!
# How entries come and go

Every assignment has a token of its own, one higher than any before it, and only that token frees
it. So what a call gives stays until it is freed with its token, and a token that frees nothing now
frees nothing later.
-/

namespace RemoteDocker.Tunnels.Ports

open Base

variable {p q : Ports} {k k' : Assignment} {t : Nat} {e : Entry}

def Spent (p : Ports) (k : Assignment) (t : Nat) : Prop :=
  t ≠ 0 → ∀ e, p.view.lookup k = some e → e.ephemeral = true → e.token ≠ t

structure Numbered (p : Ports) : Prop where
  port_ne : ∀ k e, p.view.lookup k = some e → e.port ≠ 0
  token_le : ∀ k e, p.view.lookup k = some e → e.token ≤ p.next

/-- No token that was given out frees anything it did not free before. -/
structure Ahead (p q : Ports) : Prop where
  next : p.next ≤ q.next
  spent : ∀ k t, t ≤ p.next → p.Spent k t → q.Spent k t

theorem Ahead.refl (p : Ports) : Ahead p p := ⟨le_rfl, fun _ _ _ h ↦ h⟩

section

variable {ephemeral : Bool} {fit : Int → Prop} (h : Grant p k ephemeral fit q)

include h

theorem Grant.keeps (he : p.view.lookup k' = some e) :
    q.view.lookup k' = some e := by
  cases h with
  | stays => exact he
  | reads => exact he
  | places port hnew hport hfit =>
    rw [view_placed]
    refine lookup_insert_eq_some.mpr (.inr ⟨?_, he⟩)
    rintro rfl
    rw [hnew] at he
    cases he

/-- What is assigned after it was assigned before, or has a new token. -/
theorem Grant.origin (he : q.view.lookup k' = some e) :
    p.view.lookup k' = some e ∨ fit e.port ∧ e.token = p.next + 1 ∧ q.next = p.next + 1 := by
  cases h with
  | stays => exact .inl he
  | reads => exact .inl he
  | places port hnew hport hfit =>
    rw [view_placed] at he
    rcases lookup_insert_eq_some.mp he with ⟨-, rfl⟩ | ⟨-, he⟩
    · exact .inr ⟨hfit, rfl, next_placed⟩
    · exact .inl he

private theorem Grant.next_le : p.next ≤ q.next := by
  cases h with
  | stays => exact le_rfl
  | reads => exact le_rfl
  | places port hnew hport hfit =>
    rw [next_placed]
    omega

theorem Grant.ahead : Ahead p q where
  next := h.next_le
  spent k' t ht hspent hne e he hrun := by
    rcases h.origin he with hold | ⟨-, htoken, -⟩
    · exact hspent hne e hold hrun
    · omega

theorem Grant.numbered (hfit : ∀ port, fit port → port ≠ 0)
    (hp : Numbered p) : Numbered q where
  port_ne k' e he := by
    rcases h.origin he with hold | ⟨hport, -, -⟩
    · exact hp.port_ne k' e hold
    · exact hfit _ hport
  token_le k' e he := by
    rcases h.origin he with hold | ⟨-, htoken, hnext⟩
    · exact (hp.token_le k' e hold).trans h.next_le
    · omega

end

/-- What `Free` does: nothing, because the token is spent, or take the entry of that token away. -/
inductive Released (p : Ports) (k : Assignment) (t : Nat) : Ports → Prop
  | spent (hspent : p.Spent k t) : Released p k t p
  | frees (e : Entry) (q : Ports) (he : p.view.lookup k = some e) (hrun : e.ephemeral = true)
      (hne : t ≠ 0) (htoken : e.token = t) (hnext : q.next = p.next)
      (hview : ∀ k' e', q.view.lookup k' = some e' ↔ k' ≠ k ∧ p.view.lookup k' = some e') :
      Released p k t q

/-- A record holds no run, so an agent that has not read it has none to free. -/
theorem ephemeral_of_unread (hi : Inv p) (hl : p.loaded = false)
    (he : p.view.lookup k = some e) : e.ephemeral = false := by
  have hview : p.view = readLines p.record := if_neg (Bool.eq_false_iff.mp hl)
  have hrecord := hi.recorded k
  rw [hview] at hrecord he
  rw [he, Option.bind_some] at hrecord
  unfold Entry.onRecord at hrecord
  split at hrecord
  · cases hrecord
  · next hrun => exact Bool.eq_false_iff.mpr hrun

/-- What a release leaves. -/
theorem released (hi : Inv p) (k : Assignment) (t : Nat) : Released p k t (p.release k t).1 := by
  unfold release
  split
  · next e he =>
    have hl := loaded_of_assigned hi he
    have hview := view_of_loaded hl
    split
    · next hfree =>
      refine .frees e _ (by rw [hview]; exact he) hfree.1 hfree.2.1 hfree.2.2 rfl ?_
      intro k' e'
      rw [view_of_loaded (p := { p with assigned := p.assigned.erase k }) hl, hview]
      exact lookup_erase_eq_some
    · next hkeep =>
      refine .spent fun hne e' he' hrun htoken ↦ hkeep ?_
      rw [hview] at he'
      cases he.symm.trans he'
      exact ⟨hrun, hne, htoken⟩
  · next hnone =>
    refine .spent fun _ e he hrun _ ↦ ?_
    cases hl : p.loaded with
    | true =>
      rw [view_of_loaded hl, hnone] at he
      cases he
    | false => exact absurd (hrun.symm.trans (ephemeral_of_unread hi hl he)) Bool.noConfusion

theorem release_eq_self (h : (p.release k t).2 = false) : (p.release k t).1 = p := by
  unfold release at h ⊢
  split
  · next e he =>
    rw [he] at h
    dsimp only at h
    split
    · next hfree =>
      rw [if_pos hfree] at h
      cases h
    · rfl
  · rfl

section

variable (h : Released p k t q)

include h

private theorem Released.sub (he : q.view.lookup k' = some e) :
    p.view.lookup k' = some e := by
  cases h with
  | spent _ => exact he
  | frees _ _ _ _ _ _ _ hview => exact ((hview k' e).mp he).2

theorem Released.lost (he : p.view.lookup k' = some e) :
    q.view.lookup k' = some e ∨ k' = k ∧ e.token = t ∧ e.ephemeral = true ∧ t ≠ 0 := by
  cases h with
  | spent _ => exact .inl he
  | frees e' _ he' hrun hne htoken _ hview =>
    by_cases hk : k' = k
    · subst hk
      cases he.symm.trans he'
      exact .inr ⟨rfl, htoken, hrun, hne⟩
    · exact .inl ((hview k' e).mpr ⟨hk, he⟩)

private theorem Released.next_eq : q.next = p.next := by
  cases h with
  | spent _ => rfl
  | frees _ _ _ _ _ _ hnext _ => exact hnext

theorem Released.ahead : Ahead p q where
  next := h.next_eq.ge
  spent _ _ _ hspent hne e he hrun := hspent hne e (h.sub he) hrun

theorem Released.numbered (hp : Numbered p) : Numbered q where
  port_ne k' e he := hp.port_ne k' e (h.sub he)
  token_le k' e he := by
    rw [h.next_eq]
    exact hp.token_le k' e (h.sub he)

theorem Released.after : q.Spent k t := by
  cases h with
  | spent hspent => exact hspent
  | frees e' _ _ _ _ _ _ hview =>
    intro _ e he
    exact absurd rfl ((hview k e).mp he).1

end

theorem numbered_restart (hi : Inv p) : Numbered p.restart := by
  have hold : ∀ k e, p.restart.view.lookup k = some e → 1 ≤ e.port ∧ e.token = 0 := by
    intro k e he
    have hfresh := (inv_restart hi).recorded k
    have hmachine := ephemeral_of_unread (inv_restart hi) rfl he
    have hrange := (inv_restart hi).sound.recordable k e he hmachine
    rw [he, Option.bind_some, Entry.onRecord, if_neg (Bool.eq_false_iff.mp hmachine)] at hfresh
    have hsame : e = { port := e.port } := Option.some.inj (he.symm.trans hfresh)
    exact ⟨hrange.2.1, congrArg Entry.token hsame⟩
  constructor
  · intro k e he
    have hport := (hold k e he).1
    omega
  · intro k e he
    rw [(hold k e he).2]
    exact Nat.zero_le _

end RemoteDocker.Tunnels.Ports

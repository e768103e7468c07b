import RemoteDocker.NfsServe.Ownership

/-!
# A descriptor is neither closed in use nor leaked

Every step of every call keeps each descriptor in one of its places, so in no run of the cache is a
descriptor closed that a request holds, handed out once it was evicted, or forgotten open.
-/

namespace RemoteDocker.NfsServe.Descriptors

open Base Base.FilePath

variable {s s' : State}

structure Inv (s : State) : Prop where
  safe : Safe s
  kept : Kept s

namespace Inv

variable {call : Nat} {c : Call} {work : List Work} {change : Option (List Path)}
  {fd since max : Nat} {name : Path} {ok : Bool}

private theorem of_lookup {old : Call} {P : Call → Prop} (hold : s.calls.lookup call = some old) :
    (∃ old', s.calls.lookup call = some old' ∧ P old') ↔ P old := by
  simp [hold]

private theorem moves (hi : Inv s) (hpends : c.pends = none)
    (hopening : c.opening = true → call ∉ s.files) (henters : ∀ fd ∈ c.enters, fd ∈ s.fds)
    (hshuts : ∀ fd, fd ∈ c.shuts ↔
      ∃ old, s.calls.lookup call = some old ∧ (old.pends = some fd ∨ fd ∈ old.shuts)) :
    Inv (s.goes call c) where
  safe := hi.safe.goes hpends hopening henters fun fd hfd ↦ .inl ((hshuts fd).mp hfd)
  kept := hi.kept.goes fun old hold fd hhand ↦ .inl ((hshuts fd).mpr ⟨old, hold, hhand⟩)

private theorem moves_idle {old : Call} (hi : Inv s) (hold : s.calls.lookup call = some old)
    (hidle : old.pends = none ∧ old.shuts = []) (hpends : c.pends = none) (hshuts : c.shuts = [])
    (hopening : c.opening = true → old.opening = true) (henters : ∀ fd ∈ c.enters, fd ∈ s.fds) :
    Inv (s.goes call c) := by
  refine hi.moves hpends (fun hopen ↦ hi.safe.unanswered call old hold (hopening hopen)) henters ?_
  intro fd
  rw [of_lookup hold, hidle.1, hidle.2, hshuts]
  simp

private theorem moves_work {work' : List Work} {change' : Option (List Path)} (hi : Inv s)
    (hold : s.calls.lookup call = some (.evicting work change))
    (hshuts : ∀ fd, Work.shut fd ∈ work' ↔ Work.shut fd ∈ work)
    (henters : ∀ fd, Work.entry fd ∈ work' → fd ∈ s.fds) :
    Inv (s.goes call (.evicting work' change')) := by
  refine hi.moves rfl nofun ?_ ?_
  · intro fd hfd
    exact henters fd (mem_enters.mp hfd)
  · intro fd
    rw [of_lookup hold, mem_shuts, mem_shuts, hshuts fd]
    exact ⟨.inr, fun hhand ↦ hhand.resolve_left nofun⟩

private theorem returns {old : Call} (hi : Inv s) (hold : s.calls.lookup call = some old)
    (hidle : old.pends = none ∧ old.shuts = []) : Inv (s.goes call .returned) :=
  hi.moves_idle hold hidle rfl rfl nofun nofun

private theorem hit {e : CachedFD} {stop : Bool} (hi : Inv s)
    (he : s.fds.lookup fd = some e) (hname : s.names.lookup name = some fd) (hfile : call ∉ s.files)
    (hanswered : ∀ c, s.calls.lookup call = some c → c.opening = false) :
    Inv (s.hit fd e call name since stop) :=
  ⟨hi.safe.hit he hname hfile hanswered, hi.kept.hit hfile⟩

private theorem outside {timers : AList fun _ : Nat ↦ Nat} {changes : List (List Path)} (hi : Inv s)
    (htimed : ∀ timer fd, timers.lookup timer = some fd → fd ∈ s.fds) :
    Inv { s with timers, changes } :=
  ⟨⟨hi.safe.known, hi.safe.mapped, hi.safe.counted, hi.safe.filed, hi.safe.pending, hi.safe.single,
    hi.safe.unanswered, hi.safe.entered, htimed, hi.safe.dead⟩, hi.kept⟩

private theorem answered (hc : c.opening = false) :
    ∀ c', (s.goes call c).calls.lookup call = some c' → c'.opening = false := by
  intro c' hc'
  rw [State.goes, AList.lookup_insert] at hc'
  cases hc'
  exact hc

variable (hi : Inv s)

include hi

private theorem entered {w : Work}
    (hold : s.calls.lookup call = some (.evicting (w :: work) change)) :
    ∀ k, Work.entry k ∈ work → k ∈ s.fds := fun k hk ↦
  hi.safe.entered call _ hold k (mem_enters.mpr (.tail _ hk))

private theorem take_store (hold : s.calls.lookup call = some (.insert name since fd))
    (hnone : s.names.lookup name = none) :
    Inv ((s.goes call .returned).store fd call name since) := by
  have hfile := hi.safe.unanswered call _ hold rfl
  obtain ⟨hlt, hnew, halive⟩ := hi.safe.pending fd ⟨call, _, hold, rfl⟩
  constructor
  · have hreturns : Safe (s.goes call .returned) := hi.safe.goes rfl nofun nofun nofun
    refine hreturns.store hlt hnew ?_ ?_ hnone hfile (answered rfl)
    · rintro (hclosed | hshutting)
      · exact halive (.inl hclosed)
      · rcases shutting_goes.mp hshutting with hnil | ⟨k, c, -, hc, hshut⟩
        · cases hnil
        · exact halive (.inr ⟨k, c, hc, hshut⟩)
    · intro hpending
      rcases pending_goes.mp hpending with hnil | ⟨k, c, hne, hc, hpended⟩
      · cases hnil
      · exact hne (hi.safe.single k call c _ fd hc hold hpended rfl)
  · have hstore : Kept (s.store fd call name since) := hi.kept.store hnone hfile
    refine hstore.goes ?_
    intro old hold' k hhand
    rw [show (s.store fd call name since).calls = s.calls from rfl, hold] at hold'
    cases hold'
    rcases hhand with hpended | hshut
    · cases hpended
      exact .inr (.inr ⟨name, AList.lookup_insert _⟩)
    · cases hshut

section

variable {e : CachedFD} (hold : s.calls.lookup call = some (.evicting (.entry fd :: work) change))
  (he : s.fds.lookup fd = some e)

include hold he

private theorem take_entry (hrefs : e.refs > 0) :
    Inv ((s.evictEntry fd e).goes call (.evicting work change)) := by
  have hcount := hi.safe.counted fd e he
  have hevict : Inv (s.evictEntry fd e) :=
    ⟨hi.safe.evictEntry he, hi.kept.evictEntry (.inl (by omega))⟩
  refine hevict.moves_work hold (fun k ↦ by simp) ?_
  exact fun k hk ↦ (AList.mem_insert _).mpr (.inr (hi.entered hold k hk))

private theorem take_last (hrefs : ¬e.refs > 0) :
    Inv ((s.evictEntry fd e).goes call (.evicting (.shut fd :: work) change)) := by
  have hcount := hi.safe.counted fd e he
  constructor
  · refine (hi.safe.evictEntry he).goes rfl nofun ?_ ?_
    · intro k hk
      rcases List.mem_cons.mp (mem_enters.mp hk) with heq | hin
      · cases heq
      · exact (AList.mem_insert _).mpr (.inr (hi.entered hold k hin))
    · intro k hk
      rcases List.mem_cons.mp (mem_shuts.mp hk) with heq | hin
      · cases heq
        refine .inr ⟨(AList.mem_insert _).mpr (.inl rfl), names_evictEntry_ne hi.safe he, ?_⟩
        change s.holders fd = 0
        omega
      · exact .inl ⟨_, hold, .inr (mem_shuts.mpr (.tail _ hin))⟩
  · have hgoes : Kept (s.goes call (.evicting (.shut fd :: work) change)) := by
      refine hi.kept.goes_work hold ?_
      intro k hk
      rcases List.mem_cons.mp hk with heq | hin
      · cases heq
      · exact .inl (mem_shuts.mpr (.tail _ hin))
    refine hgoes.evictEntry (.inr (.inr (shutting_goes.mpr (.inl ?_))))
    exact mem_shuts.mpr (.head _)

end

private theorem take_shut
    (hold : s.calls.lookup call = some (.evicting (.shut fd :: work) change)) :
    Inv ({ s with closed := fd :: s.closed }.goes call (.evicting work change)) := by
  have hshutting : s.Shutting fd := ⟨call, _, hold, mem_shuts.mpr (.head _)⟩
  constructor
  · refine (hi.safe.shut hshutting).goes rfl nofun ?_ ?_
    · intro k hk
      exact hi.safe.entered call _ hold k
        (mem_enters.mpr (.tail _ (mem_enters.mp hk)))
    · intro k hk
      exact .inl ⟨_, hold, .inr (mem_shuts.mpr (.tail _ (mem_shuts.mp hk)))⟩
  · have hshut : Kept { s with closed := fd :: s.closed } := hi.kept.shut
    refine hshut.goes_work hold ?_
    intro k hk
    rcases List.mem_cons.mp hk with heq | hin
    · cases heq
      exact .inr (.inl (.head _))
    · exact .inl (mem_shuts.mpr hin)

private theorem take (hold : s.calls.lookup call = some c) : Inv (s.take max call ok c) := by
  fun_cases State.take s max call ok c
  case case1 | case7 | case10 | case16 => exact hi
  case case3 | case6 | case12 => exact hi.returns hold ⟨rfl, rfl⟩
  case case2 name since fd hname e he =>
    exact (hi.returns hold ⟨rfl, rfl⟩).hit he hname (hi.safe.unanswered call _ hold rfl)
      (answered rfl)
  case case4 => exact hi.moves_idle hold ⟨rfl, rfl⟩ rfl rfl (fun _ ↦ rfl) nofun
  case case5 => exact ⟨hi.safe.opens hold rfl, hi.kept.opens hold⟩
  case case8 name since fd other hname e he =>
    -- The descriptor in hand is closed in place of the one that is shared.
    have hshuts : Inv (s.goes call (.evicting [.shut fd] none)) := by
      refine hi.moves rfl nofun nofun ?_
      intro k
      rw [of_lookup hold, mem_shuts, List.mem_singleton]
      simp [Call.pends, Call.shuts, eq_comm]
    exact hshuts.hit he hname (hi.safe.unanswered call _ hold rfl) (answered rfl)
  case case9 hnone => exact hi.take_store hold hnone
  case case11 names hok =>
    have hchanged : Inv { s with changes := names :: s.changes } := hi.outside hi.safe.timed
    exact hchanged.returns hold ⟨rfl, rfl⟩
  case case13 =>
    refine hi.moves_work hold (fun k ↦ by simp) ?_
    intro k hk
    rcases List.mem_append.mp hk with hheld | hin
    · obtain ⟨n, -, heq⟩ := List.mem_map.mp hheld
      cases heq
    · exact hi.entered hold k hin
  case case14 => exact hi.moves_work hold (fun k ↦ by simp) (hi.entered hold)
  case case15 name work change fd hname =>
    refine hi.moves_work hold (fun k ↦ by simp) ?_
    intro k hk
    rcases List.mem_cons.mp hk with heq | hin
    · cases heq
      obtain ⟨e, he, -⟩ := hi.safe.mapped name fd hname
      exact mem_of_lookup he
    · exact hi.entered hold k hin
  case case17 fd work change e he hrefs => exact hi.take_entry hold he hrefs
  case case18 fd work change e he hrefs => exact hi.take_last hold he hrefs
  case case19 => exact hi.take_shut hold

private theorem release {file : Nat} {f : SharedFile} {e : CachedFD}
    (hfile : s.files.lookup file = some f) (huse : f.use = .closed)
    (he : s.fds.lookup f.fd = some e) (hcall : call ∉ s.calls) :
    Inv ((s.gaveBack file f).release f.fd e call) := by
  have hcount := hi.safe.counted f.fd e he
  have hdrop : Safe ((s.gaveBack file f).dropRef f.fd e) := hi.safe.dropRef hfile huse he
  have hself := holders_gaveBack hfile huse f.fd
  rw [if_pos rfl] at hself
  simp only [State.release]
  split
  · next hrefs => exact ⟨hdrop, hi.kept.dropRef hfile huse (.inr (.inl (by omega)))⟩
  · next hrefs =>
    split
    · next hout =>
      constructor
      · refine hdrop.goes rfl nofun nofun ?_
        intro k hk
        rw [mem_shuts, List.mem_singleton] at hk
        cases hk
        refine .inr ⟨(AList.mem_insert _).mpr (.inl rfl), ?_, ?_⟩
        · intro n hn
          obtain ⟨e', he', rfl⟩ := hi.safe.mapped n f.fd hn
          rw [he] at he'
          cases he'
          exact hout hn
        · change countTable (SharedFile.holds f.fd)
            (s.files.insert file { f with use := .released }) = 0
          omega
      · have hgoes : Kept (s.goes call (.evicting [.shut f.fd] none)) := by
          refine hi.kept.goes ?_
          intro old hold
          exact absurd (mem_of_lookup hold) hcall
        refine hgoes.dropRef hfile huse (.inr (.inr (.inr (shutting_goes.mpr (.inl ?_)))))
        exact mem_shuts.mpr (.head _)
    · next hin =>
      have hlookup :
        ((s.gaveBack file f).dropRef f.fd e).fds.lookup f.fd = some { e with refs := e.refs - 1 } :=
        AList.lookup_insert _
      have hkept : Kept ((s.gaveBack file f).dropRef f.fd e) :=
        hi.kept.dropRef hfile huse (.inl ⟨e.path, not_not.mp hin⟩)
      have hcounted : e.refs - 1 = (((s.gaveBack file f).dropRef f.fd e).holders f.fd : Int) :=
        hdrop.counted f.fd _ hlookup
      refine ⟨?_, hkept⟩
      refine hdrop.updated hlookup rfl hcounted (fun _ _ ↦ rfl)
        (fun hd ↦ (hdrop.dead _ hd).2.2) hdrop.filed hdrop.unanswered ?_
      exact forall_lookup_insert (mem_of_lookup hlookup) (hdrop.timed_stopped e.timer)

private theorem start {req : Request} (hcall : call ∉ s.calls) (hfile : call ∉ s.files) :
    Inv (s.goes call (req.call s.changes)) := by
  have hcases : (req.call s.changes).pends = none ∧ (req.call s.changes).shuts = [] ∧
      (req.call s.changes).enters = [] := by
    cases req with
    | openFile name flags =>
      rw [Request.call]
      split
      · exact ⟨rfl, rfl, rfl⟩
      · exact ⟨rfl, rfl, rfl⟩
    | remove name => exact ⟨rfl, rfl, rfl⟩
    | rename source dest => exact ⟨rfl, rfl, rfl⟩
  obtain ⟨hpends, hshuts, henters⟩ := hcases
  refine hi.moves hpends (fun _ ↦ hfile) (by rw [henters]; nofun) ?_
  intro fd
  rw [hshuts]
  constructor
  · nofun
  · rintro ⟨old, hold, -⟩
    exact absurd (mem_of_lookup hold) hcall

private theorem fire {timer : Nat} (htimer : s.timers.lookup timer = some fd)
    (hcall : call ∉ s.calls) :
    Inv ({ s with timers := s.timers.erase timer }.goes call (.evicting [.entry fd] none)) := by
  have hunarmed : Inv { s with timers := s.timers.erase timer } :=
    hi.outside fun t k hk ↦ hi.safe.timed t k (lookup_erase_eq_some.mp hk).2
  refine hunarmed.moves rfl nofun ?_ ?_
  · intro k hk
    rw [mem_enters, List.mem_singleton] at hk
    cases hk
    exact hi.safe.timed timer fd htimer
  · intro k
    constructor
    · intro hk
      rw [mem_shuts, List.mem_singleton] at hk
      cases hk
    · rintro ⟨old, hold, -⟩
      exact absurd (mem_of_lookup hold) hcall

theorem step {e : Event} (ht : Descriptors.step max s e = some s') : Inv s' := by
  revert ht
  fun_cases Descriptors.step max s e <;> intro ht
  case case3 call ok =>
    obtain ⟨c, hc, rfl⟩ := Option.map_eq_some_iff.mp ht
    exact hi.take hc
  case case4 file =>
    obtain ⟨f, hfile, rfl⟩ := Option.map_eq_some_iff.mp ht
    split
    · next huse => exact ⟨hi.safe.close hfile huse, hi.kept.close hfile huse⟩
    · exact hi
  case case6 file call f hfile hok =>
    obtain ⟨e, he, rfl⟩ := Option.map_eq_some_iff.mp ht
    exact hi.release hfile hok.1 he hok.2
  all_goals cases ht
  · next hfresh =>
    rw [not_or] at hfresh
    exact hi.start hfresh.1 hfresh.2
  · next htimer hcall => exact hi.fire htimer hcall

end Inv

theorem inv_start : Inv {} where
  safe :=
    { known := nofun, mapped := nofun, counted := nofun, filed := nofun
      pending := by
        rintro fd ⟨call, c, hc, -⟩
        cases hc
      single := nofun, unanswered := nofun, entered := nofun, timed := nofun
      dead := by
        rintro fd (hclosed | ⟨call, c, hc, -⟩)
        · cases hclosed
        · cases hc }
  kept := nofun

private theorem inv_of_run {max : Nat} {es : List Event} (hr : (machine max).run {} es = some s) :
    Inv s :=
  (machine max).run_invariant_all (fun _ _ _ hi ht ↦ hi.step ht) inv_start hr

private theorem handed {max : Nat} {e : Event} (ht : step max s e = some s') {f : Nat}
    {file : SharedFile}
    (hnone : s.files.lookup f = none) (hfile : s'.files.lookup f = some file) :
    s'.names.lookup file.name = some file.fd ∧
      (s.names.lookup file.name = some file.fd ∨
        s.calls.lookup f = some (.insert file.name file.since file.fd)) := by
  have hsame : ∀ {t : State}, t.files = s.files → t.files.lookup f ≠ some file := by
    intro t ht hlookup
    rw [ht, hnone] at hlookup
    cases hlookup
  have hreplaced : ∀ {t : State} {k : Nat} {g g' : SharedFile}, s.files.lookup k = some g →
      t.files = s.files.insert k g' → t.files.lookup f ≠ some file := by
    intro t k g g' hk ht hlookup
    rw [ht] at hlookup
    rcases lookup_insert_eq_some.mp hlookup with ⟨rfl, -⟩ | ⟨-, hold⟩
    · rw [hnone] at hk
      cases hk
    · exact hsame rfl hold
  revert ht
  fun_cases step max s e <;> intro ht
  case case3 call ok =>
    obtain ⟨c, hc, rfl⟩ := Option.map_eq_some_iff.mp ht
    revert hfile
    fun_cases State.take s max call ok c <;> intro hfile
    case case2 name since fd hname e he =>
      rcases lookup_insert_eq_some.mp hfile with ⟨rfl, rfl⟩ | ⟨-, hold⟩
      · exact ⟨hname, .inl hname⟩
      · exact absurd hold (hsame rfl)
    case case8 name since fd other hname e he =>
      rcases lookup_insert_eq_some.mp hfile with ⟨rfl, rfl⟩ | ⟨-, hold⟩
      · exact ⟨hname, .inl hname⟩
      · exact absurd hold (hsame rfl)
    case case9 name since fd hname =>
      rcases lookup_insert_eq_some.mp hfile with ⟨rfl, rfl⟩ | ⟨-, hold⟩
      · exact ⟨AList.lookup_insert _, .inr hc⟩
      · exact absurd hold (hsame rfl)
    all_goals exact absurd hfile (hsame rfl)
  case case4 file' =>
    obtain ⟨g, hg, rfl⟩ := Option.map_eq_some_iff.mp ht
    split at hfile
    · exact absurd hfile (hreplaced hg rfl)
    · exact absurd hfile (hsame rfl)
  case case6 file' call g hg hok =>
    obtain ⟨e, he, rfl⟩ := Option.map_eq_some_iff.mp ht
    revert hfile
    fun_cases State.release (s.gaveBack file' g) g.fd e call
    all_goals exact fun hfile ↦ absurd hfile (hreplaced hg rfl)
  all_goals cases ht
  · exact absurd hfile (hsame rfl)
  · exact absurd hfile (hsame rfl)

/-- In every run of the cache: no descriptor is closed that an unclosed file of a request holds; a
request is handed a descriptor out of the map, or the one it has just opened and put there; and a
descriptor that was opened and that neither the map nor any request has is closed, or is being
closed. -/
theorem neither_closed_nor_leaked {max : Nat} {es : List Event}
    (hr : (machine max).run {} es = some s) :
    (∀ f file, s.files.lookup f = some file → file.use = .unclosed → file.fd ∉ s.closed) ∧
    (∀ e s', step max s e = some s' → ∀ f file, s.files.lookup f = none →
      s'.files.lookup f = some file →
      s'.names.lookup file.name = some file.fd ∧
        (s.names.lookup file.name = some file.fd ∨
          s.calls.lookup f = some (.insert file.name file.since file.fd))) ∧
    ∀ fd < s.opened.length, (∀ n, s.names.lookup n ≠ some fd) → ¬s.Pending fd →
      (∀ f file, s.files.lookup f = some file → file.fd = fd → file.use = .released) →
      fd ∈ s.closed ∨ s.Shutting fd := by
  have hi := inv_of_run hr
  refine ⟨?_, ?_, ?_⟩
  · intro f file hfile huse hclosed
    have hzero := (hi.safe.dead file.fd (.inl hclosed)).2.2
    have hheld := countTable_eq_zero.mp hzero f file hfile
    simp [SharedFile.holds, huse] at hheld
  · intro e s' ht f file hnone hfile
    exact handed ht hnone hfile
  · intro fd hlt hout hpending hreleased
    rcases hi.kept fd hlt with hin | ⟨n, hn⟩ | hheld | hdead
    · exact absurd hin hpending
    · exact absurd hn (hout n)
    · have hzero : s.holders fd = 0 := by
        rw [State.holders, countTable_eq_zero]
        intro f file hfile
        by_cases hfd : file.fd = fd
        · simp [SharedFile.holds, hreleased f file hfile hfd]
        · simp [SharedFile.holds, hfd]
      omega
    · exact hdead

/-- A timer fires, and before it takes the lock a second request is handed the descriptor. -/
def evictedInUse : List Event :=
  let name : Path := [['x']]
  [.start 0 (.openFile name plainFlags), .take 0 true, .take 0 true, .take 0 true, .close 0,
   .release 0 9,
    .fire 0 1, .start 2 (.openFile name plainFlags), .take 2 true, .take 1 true]

/-- The descriptor is out of the map, and is not closed under the second request. -/
theorem neither_closed_nor_leaked_evicted :
    ∃ s, (machine 64).run {} evictedInUse = some s ∧ s.names.lookup [['x']] = none ∧
      s.files.lookup 2 = some ⟨0, .unclosed, [['x']], 0⟩ ∧ 0 ∉ s.closed := by
  obtain ⟨s, hr, hnone, hfile⟩ : ∃ s, (machine 64).run {} evictedInUse = some s ∧
      s.names.lookup [['x']] = none ∧ s.files.lookup 2 = some ⟨0, .unclosed, [['x']], 0⟩ := by
    decide +kernel
  exact ⟨s, hr, hnone, hfile, (neither_closed_nor_leaked hr).1 2 _ hfile rfl⟩

end RemoteDocker.NfsServe.Descriptors

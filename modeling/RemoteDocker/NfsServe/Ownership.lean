import RemoteDocker.NfsServe.Descriptors

/-!
# Where a descriptor is

Every descriptor that was opened is in one of four places: an `OpenFile` has it in hand, the map has
it, requests hold it, or it is closed or about to be. The count of a descriptor is the number of
requests that have not given it back, so one whose count is zero and that is out of the map can be
reached by nobody. Here is what each change of the cache does to that.
-/

namespace RemoteDocker.NfsServe.Descriptors

open Base Base.FilePath

variable {s s' : State}

/-- A descriptor that is closed or about to be. -/
def State.Dead (s : State) (fd : Nat) : Prop := fd ∈ s.closed ∨ s.Shutting fd

/-- What holds of the map, the counts and the calls. -/
structure Safe (s : State) : Prop where
  known : ∀ fd e, s.fds.lookup fd = some e → fd < s.opened.length
  mapped : ∀ n fd, s.names.lookup n = some fd → ∃ e, s.fds.lookup fd = some e ∧ e.path = n
  counted : ∀ fd e, s.fds.lookup fd = some e → e.refs = s.holders fd
  filed : ∀ f file, s.files.lookup f = some file → file.fd ∈ s.fds
  pending : ∀ fd, s.Pending fd → fd < s.opened.length ∧ fd ∉ s.fds ∧ ¬s.Dead fd
  single : ∀ call call' c c' fd, s.calls.lookup call = some c → s.calls.lookup call' = some c' →
    c.pends = some fd → c'.pends = some fd → call = call'
  unanswered : ∀ call c, s.calls.lookup call = some c → c.opening = true → call ∉ s.files
  entered : ∀ call c, s.calls.lookup call = some c → ∀ fd ∈ c.enters, fd ∈ s.fds
  timed : ∀ timer fd, s.timers.lookup timer = some fd → fd ∈ s.fds
  dead : ∀ fd, s.Dead fd →
    fd < s.opened.length ∧ (∀ n, s.names.lookup n ≠ some fd) ∧ s.holders fd = 0

/-- Nothing that was opened is lost. -/
def Kept (s : State) : Prop :=
  ∀ fd < s.opened.length,
    s.Pending fd ∨ (∃ n, s.names.lookup n = some fd) ∨ 0 < s.holders fd ∨ s.Dead fd

variable {fd call since : Nat} {c : Call} {e : CachedFD} {name : Path}

theorem mem_shuts {work : List Work} {change : Option (List Path)} :
    fd ∈ (Call.evicting work change).shuts ↔ Work.shut fd ∈ work := by
  rw [Call.shuts, List.mem_filterMap]
  constructor
  · rintro ⟨w, hw, heq⟩
    cases w with
    | shut k =>
      cases heq
      exact hw
    | tree name => cases heq
    | evict name => cases heq
    | entry k => cases heq
  · intro hw
    exact ⟨.shut fd, hw, rfl⟩

theorem mem_enters {work : List Work} {change : Option (List Path)} :
    fd ∈ (Call.evicting work change).enters ↔ Work.entry fd ∈ work := by
  rw [Call.enters, List.mem_filterMap]
  constructor
  · rintro ⟨w, hw, heq⟩
    cases w with
    | entry k =>
      cases heq
      exact hw
    | tree name => cases heq
    | evict name => cases heq
    | shut k => cases heq
  · intro hw
    exact ⟨.entry fd, hw, rfl⟩

/-- Some call is such, once one call has gone on: it is that one, or it was another one. -/
theorem exists_goes {P : Call → Prop} : (∃ k c', (s.goes call c).calls.lookup k = some c' ∧ P c') ↔
    P c ∨ ∃ k c', k ≠ call ∧ s.calls.lookup k = some c' ∧ P c' := by
  constructor
  · rintro ⟨k, c', hk, hc'⟩
    rcases lookup_insert_eq_some.mp hk with ⟨-, rfl⟩ | ⟨hne, hold⟩
    · exact .inl hc'
    · exact .inr ⟨k, c', hne, hold, hc'⟩
  · rintro (hc | ⟨k, c', hne, hold, hc'⟩)
    · exact ⟨call, c, AList.lookup_insert _, hc⟩
    · exact ⟨k, c', lookup_insert_eq_some.mpr (.inr ⟨hne, hold⟩), hc'⟩

theorem pending_goes : (s.goes call c).Pending fd ↔
    c.pends = some fd ∨ ∃ k c', k ≠ call ∧ s.calls.lookup k = some c' ∧ c'.pends = some fd :=
  exists_goes

theorem shutting_goes : (s.goes call c).Shutting fd ↔
    fd ∈ c.shuts ∨ ∃ k c', k ≠ call ∧ s.calls.lookup k = some c' ∧ fd ∈ c'.shuts :=
  exists_goes

private theorem Safe.holders_eq_zero (hs : Safe s) (hnew : fd ∉ s.fds) : s.holders fd = 0 := by
  rw [State.holders, countTable_eq_zero]
  intro f file hfile
  rw [SharedFile.holds, Bool.and_eq_false_iff, decide_eq_false_iff_not]
  left
  rintro rfl
  exact hnew (hs.filed f file hfile)

private theorem Safe.unanswered_insert (hs : Safe s) {f : SharedFile}
    (hanswered : ∀ c, s.calls.lookup call = some c → c.opening = false) :
    ∀ k c, s.calls.lookup k = some c → c.opening = true → k ∉ s.files.insert call f := by
  intro k c hc hopening hin
  rcases (AList.mem_insert _).mp hin with rfl | hold
  · rw [hanswered c hc] at hopening
    cases hopening
  · exact hs.unanswered k c hc hopening hold

private theorem Safe.answered (hs : Safe s) {f : SharedFile}
    (hfile : s.files.lookup call = some f) :
    ∀ c, s.calls.lookup call = some c → c.opening = false := by
  intro c hc
  rw [← Bool.not_eq_true]
  exact fun hopening ↦ hs.unanswered call c hc hopening (mem_of_lookup hfile)

/-- A call that has no new descriptor in hand may go on to close what it had in hand, and what
nothing can reach. -/
theorem Safe.goes (hs : Safe s) (hpends : c.pends = none)
    (hopening : c.opening = true → call ∉ s.files) (henters : ∀ fd ∈ c.enters, fd ∈ s.fds)
    (hshuts : ∀ fd ∈ c.shuts,
      (∃ old, s.calls.lookup call = some old ∧ (old.pends = some fd ∨ fd ∈ old.shuts)) ∨
      fd ∈ s.fds ∧ (∀ n, s.names.lookup n ≠ some fd) ∧ s.holders fd = 0) :
    Safe (s.goes call c) := by
  have hpending : ∀ fd, (s.goes call c).Pending fd →
      ∃ k c', k ≠ call ∧ s.calls.lookup k = some c' ∧ c'.pends = some fd := by
    intro fd hfd
    rcases pending_goes.mp hfd with hnew | hold
    · rw [hpends] at hnew
      cases hnew
    · exact hold
  -- What the call is about to close is out of everyone's reach.
  have hfree : ∀ fd ∈ c.shuts, fd < s.opened.length ∧ (∀ n, s.names.lookup n ≠ some fd) ∧
      s.holders fd = 0 := by
    intro fd hfd
    rcases hshuts fd hfd with ⟨old, hold, hpended | hshut⟩ | ⟨hin, hout, hzero⟩
    · obtain ⟨hlt, hnotin, -⟩ := hs.pending fd ⟨call, old, hold, hpended⟩
      refine ⟨hlt, ?_, ?_⟩
      · intro n hn
        obtain ⟨e, he, -⟩ := hs.mapped n fd hn
        exact hnotin (mem_of_lookup he)
      · exact hs.holders_eq_zero hnotin
    · exact hs.dead fd (.inr ⟨call, old, hold, hshut⟩)
    · obtain ⟨e, he⟩ := exists_lookup hin
      exact ⟨hs.known fd e he, hout, hzero⟩
  have hdead : ∀ fd, (s.goes call c).Dead fd → s.Dead fd ∨ fd ∈ c.shuts := by
    rintro fd (hclosed | hshutting)
    · exact .inl (.inl hclosed)
    · rcases shutting_goes.mp hshutting with hnew | ⟨k, c', -, hk, hshut⟩
      · exact .inr hnew
      · exact .inl (.inr ⟨k, c', hk, hshut⟩)
  constructor
  case known => exact hs.known
  case mapped => exact hs.mapped
  case counted => exact hs.counted
  case filed => exact hs.filed
  case timed => exact hs.timed
  case pending =>
    intro fd hfd
    obtain ⟨k, c', hne, hk, hpended⟩ := hpending fd hfd
    obtain ⟨hlt, hnotin, halive⟩ := hs.pending fd ⟨k, c', hk, hpended⟩
    refine ⟨hlt, hnotin, ?_⟩
    intro hd
    rcases hdead fd hd with hold | hnew
    · exact halive hold
    · rcases hshuts fd hnew with ⟨old, hold, hpended' | hshut⟩ | ⟨hin, -, -⟩
      · exact hne (hs.single k call c' old fd hk hold hpended hpended')
      · exact halive (.inr ⟨call, old, hold, hshut⟩)
      · exact hnotin hin
  case single =>
    intro k k' c₁ c₂ fd hk hk' h₁ h₂
    rcases lookup_insert_eq_some.mp hk with ⟨-, rfl⟩ | ⟨-, hold⟩
    · rw [hpends] at h₁
      cases h₁
    · rcases lookup_insert_eq_some.mp hk' with ⟨-, rfl⟩ | ⟨-, hold'⟩
      · rw [hpends] at h₂
        cases h₂
      · exact hs.single k k' c₁ c₂ fd hold hold' h₁ h₂
  case unanswered => exact forall_lookup_insert hopening hs.unanswered
  case entered => exact forall_lookup_insert henters hs.entered
  case dead =>
    intro fd hd
    rcases hdead fd hd with hold | hnew
    · exact hs.dead fd hold
    · exact hfree fd hnew

/-- A call that keeps what it had in hand, or leaves it somewhere, loses nothing. -/
theorem Kept.goes (hk : Kept s)
    (hkeeps : ∀ old, s.calls.lookup call = some old → ∀ fd, old.pends = some fd ∨ fd ∈ old.shuts →
      fd ∈ c.shuts ∨ fd ∈ s.closed ∨ ∃ n, s.names.lookup n = some fd) : Kept (s.goes call c) := by
  have hcall : ∀ k old fd, s.calls.lookup k = some old → old.pends = some fd ∨ fd ∈ old.shuts →
      (s.goes call c).Pending fd ∨ (∃ n, s.names.lookup n = some fd) ∨ 0 < s.holders fd ∨
        (s.goes call c).Dead fd := by
    intro k old fd hold hhand
    by_cases hne : k = call
    · subst hne
      rcases hkeeps old hold fd hhand with hshut | hclosed | hmapped
      · exact .inr (.inr (.inr (.inr (shutting_goes.mpr (.inl hshut)))))
      · exact .inr (.inr (.inr (.inl hclosed)))
      · exact .inr (.inl hmapped)
    · rcases hhand with hpended | hshut
      · exact .inl (pending_goes.mpr (.inr ⟨k, old, hne, hold, hpended⟩))
      · exact .inr (.inr (.inr (.inr
          (shutting_goes.mpr (.inr ⟨k, old, hne, hold, hshut⟩)))))
  intro fd hlt
  rcases hk fd hlt with ⟨k, old, hold, hpended⟩ | hmapped | hheld | hclosed | ⟨k, old, hold, hshut⟩
  · exact hcall k old fd hold (.inl hpended)
  · exact .inr (.inl hmapped)
  · exact .inr (.inr (.inl hheld))
  · exact .inr (.inr (.inr (.inl hclosed)))
  · exact hcall k old fd hold (.inr hshut)

theorem Kept.goes_work {work : List Work} {change : Option (List Path)} (hk : Kept s)
    (hold : s.calls.lookup call = some (.evicting work change))
    (hkeeps : ∀ fd, Work.shut fd ∈ work →
      fd ∈ c.shuts ∨ fd ∈ s.closed ∨ ∃ n, s.names.lookup n = some fd) : Kept (s.goes call c) := by
  refine hk.goes ?_
  intro old hold' fd hhand
  rw [hold] at hold'
  cases hold'
  exact hkeeps fd (mem_shuts.mp (hhand.resolve_left nofun))

theorem Safe.updated {e' : CachedFD} {files : AList fun _ : Nat ↦ SharedFile}
    {timers : AList fun _ : Nat ↦ Nat} {nextTimer : Nat} (hs : Safe s)
    (he : s.fds.lookup fd = some e) (hpath : e'.path = e.path)
    (hcounted : e'.refs = countTable (SharedFile.holds fd) files)
    (hothers : ∀ k ≠ fd, countTable (SharedFile.holds k) files = s.holders k)
    (hdead : s.Dead fd → countTable (SharedFile.holds fd) files = 0)
    (hfiled : ∀ f file, files.lookup f = some file → file.fd ∈ s.fds)
    (hunanswered : ∀ call c, s.calls.lookup call = some c → c.opening = true → call ∉ files)
    (htimed : ∀ timer k, timers.lookup timer = some k → k ∈ s.fds) :
    Safe { s with fds := s.fds.insert fd e', files, timers, nextTimer } := by
  have hmem : ∀ {k}, k ∈ s.fds → k ∈ s.fds.insert fd e' := fun hk ↦
    (AList.mem_insert _).mpr (.inr hk)
  have hfd : fd ∈ s.fds := mem_of_lookup he
  constructor
  case known => exact forall_lookup_insert (hs.known fd e he) hs.known
  case mapped =>
    intro n k hn
    obtain ⟨e₁, he₁, hpath₁⟩ := hs.mapped n k hn
    by_cases hkfd : k = fd
    · subst hkfd
      rw [he] at he₁
      cases he₁
      exact ⟨e', AList.lookup_insert _, hpath.trans hpath₁⟩
    · exact ⟨e₁, lookup_insert_eq_some.mpr (.inr ⟨hkfd, he₁⟩), hpath₁⟩
  case counted =>
    intro k e₁ hk
    rcases lookup_insert_eq_some.mp hk with ⟨rfl, rfl⟩ | ⟨hne, hold⟩
    · exact hcounted
    · exact (hs.counted k e₁ hold).trans (by rw [← hothers k hne]; rfl)
  case filed => exact fun f file hfile ↦ hmem (hfiled f file hfile)
  case pending =>
    intro k hk
    obtain ⟨hlt, hnotin, halive⟩ := hs.pending k hk
    refine ⟨hlt, ?_, halive⟩
    intro hin
    rcases (AList.mem_insert _).mp hin with rfl | hold
    · exact hnotin hfd
    · exact hnotin hold
  case single => exact hs.single
  case unanswered => exact hunanswered
  case entered => exact fun call c hc k hk ↦ hmem (hs.entered call c hc k hk)
  case timed => exact fun timer k hk ↦ hmem (htimed timer k hk)
  case dead =>
    intro k hk
    obtain ⟨hlt, hout, hzero⟩ := hs.dead k hk
    refine ⟨hlt, hout, ?_⟩
    by_cases hkfd : k = fd
    · subst hkfd
      exact hdead hk
    · exact (hothers k hkfd).trans hzero

theorem Safe.timed_stopped (hs : Safe s) (t : Option Nat) :
    ∀ timer k, (stopped s.timers t).lookup timer = some k → k ∈ s.fds := by
  intro timer k hk
  cases t with
  | none => exact hs.timed timer k hk
  | some t => exact hs.timed timer k (lookup_erase_eq_some.mp hk).2

theorem Safe.hit {stop : Bool}
    (hs : Safe s) (he : s.fds.lookup fd = some e) (hname : s.names.lookup name = some fd)
    (hfile : call ∉ s.files) (hanswered : ∀ c, s.calls.lookup call = some c → c.opening = false) :
    Safe (s.hit fd e call name since stop) := by
  refine Safe.updated hs he rfl ?_ ?_ ?_ ?_ ?_ ?_
  · have hcount := hs.counted fd e he
    have hnew : SharedFile.holds fd ⟨fd, .unclosed, name, since⟩ = true := by
      simp [SharedFile.holds]
    rw [countTable_insert _ hfile, if_pos hnew]
    simp only [State.holders] at hcount
    simp only
    omega
  · intro k hne
    have hnew : ¬SharedFile.holds k ⟨fd, .unclosed, name, since⟩ = true := by
      simp [SharedFile.holds, hne.symm]
    rw [countTable_insert _ hfile, if_neg hnew]
    rfl
  · intro hdead
    exact absurd hname ((hs.dead fd hdead).2.1 name)
  · exact forall_lookup_insert (mem_of_lookup he) hs.filed
  · exact hs.unanswered_insert hanswered
  · cases stop with
    | false => exact hs.timed
    | true => exact hs.timed_stopped e.timer

private theorem holders_insert {files : AList fun _ : Nat ↦ SharedFile} {f : SharedFile}
    (hfile : call ∉ files) :
    countTable (SharedFile.holds fd) files ≤ countTable (SharedFile.holds fd)
      (files.insert call f) := by
  rw [countTable_insert _ hfile]
  exact Nat.le_add_right _ _

theorem Kept.hit {stop : Bool}
    (hk : Kept s) (hfile : call ∉ s.files) : Kept (s.hit fd e call name since stop) := by
  intro k hlt
  rcases hk k hlt with hpending | hmapped | hheld | hdead
  · exact .inl hpending
  · exact .inr (.inl hmapped)
  · exact .inr (.inr (.inl (Nat.lt_of_lt_of_le hheld (holders_insert hfile))))
  · exact .inr (.inr (.inr hdead))

theorem Safe.opens {stamp : Nat} {old : Call} (hs : Safe s)
    (hold : s.calls.lookup call = some old) (hopening : old.opening = true) :
    Safe ({ s with opened := s.opened ++ [stamp] }.goes call
      (.insert name since s.opened.length)) := by
  have hlonger : ∀ {k}, k < s.opened.length → k < (s.opened ++ [stamp]).length := by
    intro k hlt
    rw [List.length_append]
    exact Nat.lt_add_right _ hlt
  have hdead : ∀ {k}, ({ s with opened := s.opened ++ [stamp] }.goes call
      (.insert name since s.opened.length)).Dead k → s.Dead k := by
    rintro k (hclosed | hshutting)
    · exact .inl hclosed
    · rcases shutting_goes.mp hshutting with hnew | ⟨c, c', -, hc, hshut⟩
      · cases hnew
      · exact .inr ⟨c, c', hc, hshut⟩
  -- Another call's descriptor is an older one.
  have hother : ∀ k c fd, s.calls.lookup k = some c → c.pends = some fd → fd ≠ s.opened.length := by
    intro k c fd hc hpended heq
    have hlt := (hs.pending fd ⟨k, c, hc, hpended⟩).1
    omega
  constructor
  case known => exact fun fd e he ↦ hlonger (hs.known fd e he)
  case mapped => exact hs.mapped
  case counted => exact hs.counted
  case filed => exact hs.filed
  case timed => exact hs.timed
  case pending =>
    intro fd hfd
    rcases pending_goes.mp hfd with hnew | ⟨k, c, -, hc, hpended⟩
    · cases hnew
      refine ⟨by simp [State.goes], ?_, ?_⟩
      · intro hin
        obtain ⟨e, he⟩ := exists_lookup hin
        exact absurd (hs.known _ e he) (Nat.lt_irrefl _)
      · intro hd
        exact absurd (hs.dead _ (hdead hd)).1 (Nat.lt_irrefl _)
    · obtain ⟨hlt, hnotin, halive⟩ := hs.pending fd ⟨k, c, hc, hpended⟩
      exact ⟨hlonger hlt, hnotin, fun hd ↦ halive (hdead hd)⟩
  case single =>
    intro k k' c c' fd hc hc' hpended hpended'
    rcases lookup_insert_eq_some.mp hc with ⟨rfl, rfl⟩ | ⟨hne, hcold⟩
    · rcases lookup_insert_eq_some.mp hc' with ⟨rfl, -⟩ | ⟨-, hcold'⟩
      · rfl
      · cases hpended
        exact absurd rfl (hother k' c' _ hcold' hpended')
    · rcases lookup_insert_eq_some.mp hc' with ⟨rfl, rfl⟩ | ⟨-, hcold'⟩
      · cases hpended'
        exact absurd rfl (hother k c _ hcold hpended)
      · exact hs.single k k' c c' fd hcold hcold' hpended hpended'
  case unanswered =>
    exact forall_lookup_insert (fun _ ↦ hs.unanswered call old hold hopening) hs.unanswered
  case entered => exact forall_lookup_insert nofun hs.entered
  case dead =>
    intro fd hd
    obtain ⟨hlt, hrest⟩ := hs.dead fd (hdead hd)
    exact ⟨hlonger hlt, hrest⟩

theorem Kept.opens {stamp : Nat} (hk : Kept s)
    (hnone : s.calls.lookup call = some (.resolve name since)) :
    Kept ({ s with opened := s.opened ++ [stamp] }.goes call
      (.insert name since s.opened.length)) := by
  have hother : ∀ {k c}, s.calls.lookup k = some c → ∀ fd, c.pends = some fd ∨ fd ∈ c.shuts →
      k ≠ call := by
    rintro k c hc fd hhand rfl
    rw [hnone] at hc
    cases hc
    rcases hhand with hpended | hshut
    · cases hpended
    · cases hshut
  intro fd hlt
  change fd < (s.opened ++ [stamp]).length at hlt
  rw [List.length_append, List.length_singleton] at hlt
  rcases Nat.lt_succ_iff_lt_or_eq.mp hlt with hold | rfl
  · rcases hk fd hold with ⟨k, c, hc, hpended⟩ | hmapped | hheld | hclosed | ⟨k, c, hc, hshut⟩
    · exact .inl (pending_goes.mpr (.inr ⟨k, c, hother hc fd (.inl hpended), hc, hpended⟩))
    · exact .inr (.inl hmapped)
    · exact .inr (.inr (.inl hheld))
    · exact .inr (.inr (.inr (.inl hclosed)))
    · exact .inr (.inr (.inr (.inr (shutting_goes.mpr
        (.inr ⟨k, c, hother hc fd (.inr hshut), hc, hshut⟩)))))
  · exact .inl (pending_goes.mpr (.inl rfl))

/-- A descriptor nobody knows is put under a name that has none. -/
theorem Safe.store (hs : Safe s)
    (hlt : fd < s.opened.length) (hnew : fd ∉ s.fds) (halive : ¬s.Dead fd)
    (hpending : ¬s.Pending fd) (hnone : s.names.lookup name = none) (hfile : call ∉ s.files)
    (hanswered : ∀ c, s.calls.lookup call = some c → c.opening = false) :
    Safe (s.store fd call name since) := by
  have hmem : ∀ {k}, k ∈ s.fds → k ∈ s.fds.insert fd { path := name, refs := 1 } := fun hk ↦
    (AList.mem_insert _).mpr (.inr hk)
  have hne : ∀ {k e}, s.fds.lookup k = some e → k ≠ fd := by
    rintro k e he rfl
    exact hnew (mem_of_lookup he)
  have hzero := hs.holders_eq_zero hnew
  have hsame : ∀ k ≠ fd, (s.store fd call name since).holders k = s.holders k := by
    intro k hk
    rw [State.holders, State.store, countTable_insert _ hfile,
      if_neg (by simp [SharedFile.holds, hk.symm])]
    rfl
  constructor
  case known => exact forall_lookup_insert hlt hs.known
  case mapped =>
    intro n k hn
    rcases lookup_insert_eq_some.mp hn with ⟨rfl, rfl⟩ | ⟨-, hold⟩
    · exact ⟨_, AList.lookup_insert _, rfl⟩
    · obtain ⟨e, he, hpath⟩ := hs.mapped n k hold
      exact ⟨e, lookup_insert_eq_some.mpr (.inr ⟨hne he, he⟩), hpath⟩
  case counted =>
    intro k e hk
    rcases lookup_insert_eq_some.mp hk with ⟨rfl, rfl⟩ | ⟨hkfd, hold⟩
    · rw [State.holders, State.store, countTable_insert _ hfile,
        if_pos (by simp [SharedFile.holds])]
      simp only [State.holders] at hzero
      rw [hzero]
      rfl
    · rw [hsame k hkfd]
      exact hs.counted k e hold
  case filed =>
    exact forall_lookup_insert ((AList.mem_insert _).mpr (.inl rfl)) fun f file hfile ↦
      hmem (hs.filed f file hfile)
  case pending =>
    intro k hk
    obtain ⟨hklt, hnotin, hkalive⟩ := hs.pending k hk
    refine ⟨hklt, ?_, hkalive⟩
    intro hin
    rcases (AList.mem_insert _).mp hin with rfl | hold
    · exact hpending hk
    · exact hnotin hold
  case single => exact hs.single
  case unanswered => exact hs.unanswered_insert hanswered
  case entered => exact fun k c hc fd' hfd' ↦ hmem (hs.entered k c hc fd' hfd')
  case timed => exact fun timer k hk ↦ hmem (hs.timed timer k hk)
  case dead =>
    intro k hk
    obtain ⟨hklt, hout, hkzero⟩ := hs.dead k hk
    have hkfd : k ≠ fd := by
      rintro rfl
      exact halive hk
    refine ⟨hklt, ?_, (hsame k hkfd).trans hkzero⟩
    intro n hn
    rcases lookup_insert_eq_some.mp hn with ⟨-, rfl⟩ | ⟨-, hold⟩
    · exact hkfd rfl
    · exact hout n hold

theorem Kept.store (hk : Kept s) (hnone : s.names.lookup name = none) (hfile : call ∉ s.files) :
    Kept (s.store fd call name since) := by
  intro k hlt
  rcases hk k hlt with hpending | ⟨n, hn⟩ | hheld | hdead
  · exact .inl hpending
  · have hne : n ≠ name := by
      rintro rfl
      rw [hnone] at hn
      cases hn
    exact .inr (.inl ⟨n, lookup_insert_eq_some.mpr (.inr ⟨hne, hn⟩)⟩)
  · exact .inr (.inr (.inl (Nat.lt_of_lt_of_le hheld (holders_insert hfile))))
  · exact .inr (.inr (.inr hdead))

theorem Safe.evictEntry (hs : Safe s) (he : s.fds.lookup fd = some e) :
    Safe (s.evictEntry fd e) := by
  have htimer : Safe { s with fds := s.fds.insert fd { e with timer := none }
                              timers := stopped s.timers e.timer } :=
    Safe.updated hs he rfl (hs.counted fd e he) (fun _ _ ↦ rfl) (fun hd ↦ (hs.dead fd hd).2.2)
      hs.filed hs.unanswered (hs.timed_stopped e.timer)
  have hfewer : ∀ {n k}, (s.evictEntry fd e).names.lookup n = some k →
      s.names.lookup n = some k := by
    intro n k hn
    simp only [State.evictEntry] at hn
    split at hn
    · exact (lookup_erase_eq_some.mp hn).2
    · exact hn
  refine ⟨htimer.known, ?_, htimer.counted, htimer.filed, htimer.pending, htimer.single,
    htimer.unanswered, htimer.entered, htimer.timed, ?_⟩
  · exact fun n k hn ↦ htimer.mapped n k (hfewer hn)
  · intro k hk
    obtain ⟨hlt, hout, hzero⟩ := htimer.dead k hk
    exact ⟨hlt, fun n hn ↦ hout n (hfewer hn), hzero⟩

theorem names_evictEntry_ne (hs : Safe s)
    (he : s.fds.lookup fd = some e) (n : Path) : (s.evictEntry fd e).names.lookup n ≠ some fd := by
  intro hn
  have hpath : s.names.lookup n = some fd → n = e.path := by
    intro hold
    obtain ⟨e', he', rfl⟩ := hs.mapped n fd hold
    rw [he] at he'
    cases he'
    rfl
  simp only [State.evictEntry] at hn
  split at hn
  · obtain ⟨hne, hold⟩ := lookup_erase_eq_some.mp hn
    exact hne (hpath hold)
  · next hnot => exact hnot (hpath hn ▸ hn)

theorem Kept.evictEntry (hk : Kept s) (hplaced : 0 < s.holders fd ∨ s.Dead fd) :
    Kept (s.evictEntry fd e) := by
  intro k hlt
  rcases hk k hlt with hpending | ⟨n, hn⟩ | hheld | hdead
  · exact .inl hpending
  · by_cases hkfd : k = fd
    · subst hkfd
      exact .inr (.inr hplaced)
    · refine .inr (.inl ⟨n, ?_⟩)
      simp only [State.evictEntry]
      split
      · next hin =>
        refine lookup_erase_eq_some.mpr ⟨?_, hn⟩
        rintro rfl
        rw [hin] at hn
        exact hkfd (Option.some.inj hn).symm
      · exact hn
  · exact .inr (.inr (.inl hheld))
  · exact .inr (.inr (.inr hdead))

theorem Safe.shut (hs : Safe s) (hshutting : s.Shutting fd) :
    Safe { s with closed := fd :: s.closed } := by
  have hdead : ∀ {k}, ({ s with closed := fd :: s.closed } : State).Dead k → s.Dead k := by
    rintro k (hclosed | hold)
    · rcases List.mem_cons.mp hclosed with rfl | hold
      · exact .inr hshutting
      · exact .inl hold
    · exact .inr hold
  refine ⟨hs.known, hs.mapped, hs.counted, hs.filed, ?_, hs.single, hs.unanswered, hs.entered,
    hs.timed, fun k hk ↦ hs.dead k (hdead hk)⟩
  intro k hk
  obtain ⟨hlt, hnotin, halive⟩ := hs.pending k hk
  exact ⟨hlt, hnotin, fun hd ↦ halive (hdead hd)⟩

theorem Kept.shut (hk : Kept s) : Kept { s with closed := fd :: s.closed } := by
  intro k hlt
  rcases hk k hlt with hpending | hmapped | hheld | hclosed | hshutting
  · exact .inl hpending
  · exact .inr (.inl hmapped)
  · exact .inr (.inr (.inl hheld))
  · exact .inr (.inr (.inr (.inl (.tail _ hclosed))))
  · exact .inr (.inr (.inr (.inr hshutting)))

section

variable {file : Nat} {f : SharedFile} {e : CachedFD}

private theorem holders_close (hfile : s.files.lookup file = some f) (huse : f.use = .unclosed)
    (fd : Nat) :
    countTable (SharedFile.holds fd) (s.files.insert file { f with use := .closed }) =
      s.holders fd := by
  have hcount := countTable_replace (SharedFile.holds fd) hfile (c := { f with use := .closed })
  have hsame : SharedFile.holds fd { f with use := .closed } = f.holds fd := by
    simp [SharedFile.holds, huse]
  rw [hsame] at hcount
  exact Nat.add_right_cancel hcount

theorem holders_gaveBack (hfile : s.files.lookup file = some f) (huse : f.use = .closed)
    (fd : Nat) :
    countTable (SharedFile.holds fd) (s.files.insert file { f with use := .released }) +
      (if f.fd = fd then 1 else 0) = s.holders fd := by
  have hcount := countTable_replace (SharedFile.holds fd) hfile (c := { f with use := .released })
  have hgone : SharedFile.holds fd { f with use := .released } = false := by
    simp [SharedFile.holds]
  have hheld : f.holds fd = decide (f.fd = fd) := by simp [SharedFile.holds, huse]
  rw [hgone, hheld] at hcount
  simpa [State.holders] using hcount

theorem Safe.close (hs : Safe s) (hfile : s.files.lookup file = some f)
    (huse : f.use = .unclosed) :
    Safe { s with files := s.files.insert file { f with use := .closed } } := by
  have hcount := holders_close hfile huse
  refine ⟨hs.known, hs.mapped, ?_, ?_, hs.pending, hs.single, ?_, hs.entered, hs.timed, ?_⟩
  · intro fd e he
    rw [hs.counted fd e he, State.holders, State.holders, hcount fd]
    rfl
  · exact forall_lookup_insert (hs.filed file f hfile) hs.filed
  · exact hs.unanswered_insert (hs.answered hfile)
  · intro fd hd
    obtain ⟨hlt, hout, hzero⟩ := hs.dead fd hd
    exact ⟨hlt, hout, (hcount fd).trans hzero⟩

theorem Kept.close (hk : Kept s) (hfile : s.files.lookup file = some f)
    (huse : f.use = .unclosed) :
    Kept { s with files := s.files.insert file { f with use := .closed } } := by
  intro fd hlt
  rcases hk fd hlt with hpending | hmapped | hheld | hdead
  · exact .inl hpending
  · exact .inr (.inl hmapped)
  · exact .inr (.inr (.inl (Nat.lt_of_lt_of_eq hheld (holders_close hfile huse fd).symm)))
  · exact .inr (.inr (.inr hdead))

theorem Safe.dropRef (hs : Safe s) (hfile : s.files.lookup file = some f) (huse : f.use = .closed)
    (he : s.fds.lookup f.fd = some e) : Safe ((s.gaveBack file f).dropRef f.fd e) := by
  have hcount := holders_gaveBack hfile huse
  change Safe { s with
    files := s.files.insert file { f with use := .released }
    fds := s.fds.insert f.fd { e with refs := e.refs - 1 } }
  refine Safe.updated hs he rfl ?_ ?_ ?_ ?_ ?_ hs.timed
  · have hself := hcount f.fd
    rw [if_pos rfl] at hself
    have hrefs := hs.counted f.fd e he
    simp only
    omega
  · intro k hne
    have hother := hcount k
    rw [if_neg (Ne.symm hne)] at hother
    exact hother
  · intro hd
    have hself := hcount f.fd
    have hzero := (hs.dead f.fd hd).2.2
    rw [hzero] at hself
    omega
  · exact forall_lookup_insert (hs.filed file f hfile) hs.filed
  · exact hs.unanswered_insert (hs.answered hfile)

theorem Kept.dropRef (hk : Kept s) (hfile : s.files.lookup file = some f)
    (huse : f.use = .closed)
    (hplaced : (∃ n, s.names.lookup n = some f.fd) ∨ 1 < s.holders f.fd ∨ s.Dead f.fd) :
    Kept ((s.gaveBack file f).dropRef f.fd e) := by
  have hcount := holders_gaveBack hfile huse
  intro fd hlt
  by_cases hfd : f.fd = fd
  · subst hfd
    have hself := hcount f.fd
    rw [if_pos rfl] at hself
    rcases hplaced with hmapped | hheld | hdead
    · exact .inr (.inl hmapped)
    · refine .inr (.inr (.inl ?_))
      change 0 < countTable (SharedFile.holds f.fd)
        (s.files.insert file { f with use := .released })
      omega
    · exact .inr (.inr (.inr hdead))
  · have hother := hcount fd
    rw [if_neg hfd, Nat.add_zero] at hother
    rcases hk fd hlt with hpending | hmapped | hheld | hdead
    · exact .inl hpending
    · exact .inr (.inl hmapped)
    · exact .inr (.inr (.inl (Nat.lt_of_lt_of_eq hheld hother.symm)))
    · exact .inr (.inr (.inr hdead))

end

end RemoteDocker.NfsServe.Descriptors

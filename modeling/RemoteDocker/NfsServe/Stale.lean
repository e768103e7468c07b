import RemoteDocker.NfsServe.InUse

/-!
# A name that changed its meaning

`Remove` and `Rename` evict what the cache has of their names, and then change them. An `OpenFile`
that has found nothing opens the file outside the lock and puts it into the map afterwards, so it
may have opened what a change that has returned by then took away. Where no such `OpenFile` of a
name and no change of it are under way together, what the cache answers with is never older than the
change.
-/

namespace RemoteDocker.NfsServe.Descriptors

open Base Base.FilePath

def Call.change : Call → Option (List Path)
  | .evicting _ change => change
  | _ => none

/-- The name an `OpenFile` is about to look for. -/
def Call.looks : Call → Option Path
  | .look name _ => some name
  | _ => none

/-- The name an `OpenFile` found nothing for. -/
def Call.misses : Call → Option Path
  | .resolve name _ => some name
  | .insert name _ _ => some name
  | _ => none

/-- The name an `OpenFile` asks for, and its last change when the call started. -/
def Call.asks : Call → Option (Path × Nat)
  | .look name since => some (name, since)
  | .resolve name since => some (name, since)
  | .insert name since _ => some (name, since)
  | .evicting _ _ => none

/-- No change of a name starts while an `OpenFile` that found nothing for it is under way, and no
`OpenFile` finds nothing for a name while a change of it is under way. -/
def Apart (s : State) : Event → Prop
  | .start _ req =>
    ∀ names ∈ (req.call s.changes).change, ∀ e ∈ s.calls.entries, ∀ name ∈ e.2.misses,
      covers names name = false
  | .take call _ =>
    ∀ c ∈ s.calls.lookup call, ∀ name ∈ c.looks, s.names.lookup name = none →
      ∀ e ∈ s.calls.entries, ∀ names ∈ e.2.change, covers names name = false
  | _ => True

instance decidableApart (s : State) : (e : Event) → Decidable (Apart s e)
  | .start _ req => inferInstanceAs (Decidable
      (∀ names ∈ (req.call s.changes).change, ∀ e ∈ s.calls.entries, ∀ name ∈ e.2.misses,
        covers names name = false))
  | .take call _ => inferInstanceAs (Decidable
      (∀ c ∈ s.calls.lookup call, ∀ name ∈ c.looks, s.names.lookup name = none →
        ∀ e ∈ s.calls.entries, ∀ names ∈ e.2.change, covers names name = false))
  | .close _ => isTrue True.intro
  | .release _ _ => isTrue True.intro
  | .fire _ _ => isTrue True.intro

variable {s s' : State}

private theorem lastChange_le_length (changes : List (List Path)) (name : Path) :
    lastChange changes name ≤ changes.length := by
  induction changes with
  | nil => exact Nat.le_refl _
  | cons names earlier ih =>
    rw [lastChange]
    split
    · exact Nat.le_refl _
    · exact Nat.le_succ_of_le ih

variable {name : Path}

private theorem lastChange_cons_of_covers_eq_false {names : List Path}
    (h : covers names name = false) (changes : List (List Path)) :
    lastChange (names :: changes) name = lastChange changes name := by
  rw [lastChange, h]
  rfl

private theorem lastChange_le_cons (names : List Path) (name : Path) (changes : List (List Path)) :
    lastChange changes name ≤ lastChange (names :: changes) name := by
  rw [lastChange]
  split
  · exact Nat.le_succ_of_le (lastChange_le_length changes name)
  · exact Nat.le_refl _

/-- What is still to be done evicts the descriptor of a name. -/
def Evicts (work : List Work) (name : Path) (fd : Nat) : Prop :=
  (∃ n, .tree n ∈ work ∧ (name = n ∨ OneFile.Served.under n name = true)) ∨
    .evict name ∈ work ∨ .entry fd ∈ work

/-- What one thing to do evicts. -/
def Work.Evicts (name : Path) (fd : Nat) : Work → Prop
  | .tree n => name = n ∨ OneFile.Served.under n name = true
  | .evict n => name = n
  | .entry k => fd = k
  | .shut _ => False

private theorem evicts_cons {w : Work} {work : List Work} {fd : Nat}
    (h : Evicts (w :: work) name fd) :
    w.Evicts name fd ∨ Evicts work name fd := by
  rcases h with ⟨n, hn, hbelow⟩ | hn | hn
  · rcases List.mem_cons.mp hn with rfl | hin
    · exact .inl hbelow
    · exact .inr (.inl ⟨n, hin, hbelow⟩)
  · rcases List.mem_cons.mp hn with rfl | hin
    · exact .inl rfl
    · exact .inr (.inr (.inl hin))
  · rcases List.mem_cons.mp hn with rfl | hin
    · exact .inl rfl
    · exact .inr (.inr (.inr hin))

private theorem Evicts.append {work : List Work} {fd : Nat} (h : Evicts work name fd)
    (before : List Work) : Evicts (before ++ work) name fd := by
  rcases h with ⟨n, hn, hbelow⟩ | hn | hn
  · exact .inl ⟨n, List.mem_append_right before hn, hbelow⟩
  · exact .inr (.inl (List.mem_append_right before hn))
  · exact .inr (.inr (List.mem_append_right before hn))

/-- What holds of one call: it asks for no more than there was; what it opened is not older than the
last change; and a change has still to evict what it covers. -/
structure Fits (s : State) (c : Call) : Prop where
  asked : ∀ name since, c.asks = some (name, since) → since ≤ lastChange s.changes name
  pended : ∀ name since fd stamp, c = .insert name since fd → s.opened[fd]? = some stamp →
    lastChange s.changes name ≤ stamp
  evicts : ∀ work names, c = .evicting work (some names) → ∀ name fd,
    s.names.lookup name = some fd → covers names name = true → Evicts work name fd

/-- Nothing in the map is older than the last change of its name. -/
structure Fresh (s : State) : Prop where
  mapped : ∀ name fd stamp, s.names.lookup name = some fd → s.opened[fd]? = some stamp →
    lastChange s.changes name ≤ stamp
  given : ∀ f file stamp, s.files.lookup f = some file → s.opened[file.fd]? = some stamp →
    file.since ≤ stamp
  calls : ∀ call c, s.calls.lookup call = some c → Fits s c
  apart : ∀ call call' c c' names name, s.calls.lookup call = some c →
    s.calls.lookup call' = some c' → c.change = some names → c'.misses = some name →
    covers names name = false

namespace Fresh

variable {call : Nat}

private theorem goes {c : Call} (hf : Fresh s) (hfits : Fits s c)
    (hchange : ∀ names, c.change = some names → ∀ k c' name, k ≠ call →
      s.calls.lookup k = some c' → c'.misses = some name → covers names name = false)
    (hmisses : ∀ name, c.misses = some name → ∀ k c' names, k ≠ call →
      s.calls.lookup k = some c' → c'.change = some names → covers names name = false) :
    Fresh (s.goes call c) := by
  refine ⟨hf.mapped, hf.given, ?_, ?_⟩
  · intro k c' hc'
    have hfits' : Fits s c' := by
      rcases lookup_insert_eq_some.mp hc' with ⟨-, rfl⟩ | ⟨-, hold⟩
      · exact hfits
      · exact hf.calls k c' hold
    exact ⟨hfits'.asked, hfits'.pended, hfits'.evicts⟩
  · intro k k' c₁ c₂ names name h₁ h₂ hc₁ hc₂
    rcases lookup_insert_eq_some.mp h₁ with ⟨rfl, rfl⟩ | ⟨hne₁, hold₁⟩
    · rcases lookup_insert_eq_some.mp h₂ with ⟨rfl, rfl⟩ | ⟨hne₂, hold₂⟩
      · -- No call both changes names and opens one.
        cases c with
        | evicting work change => cases hc₂
        | look name since => cases hc₁
        | resolve name since => cases hc₁
        | insert name since fd => cases hc₁
      · exact hchange names hc₁ k' c₂ name hne₂ hold₂ hc₂
    · rcases lookup_insert_eq_some.mp h₂ with ⟨rfl, rfl⟩ | ⟨-, hold₂⟩
      · exact hmisses name hc₂ k c₁ names hne₁ hold₁ hc₁
      · exact hf.apart k k' c₁ c₂ names name hold₁ hold₂ hc₁ hc₂

variable {work : List Work} {fd since max : Nat} {name : Path}

private theorem goes_idle (hf : Fresh s) : Fresh (s.goes call (.evicting work none)) := by
  refine hf.goes ⟨nofun, nofun, ?_⟩ nofun nofun
  intro work' names heq
  cases heq

private theorem goes_work {work' : List Work} {change : Option (List Path)} (hf : Fresh s)
    (hold : s.calls.lookup call = some (.evicting work change))
    (hevicts : ∀ name fd, s.names.lookup name = some fd → Evicts work name fd →
      Evicts work' name fd) : Fresh (s.goes call (.evicting work' change)) := by
  refine hf.goes ⟨nofun, nofun, ?_⟩ ?_ nofun
  · intro w names heq name fd hname hcovers
    cases heq
    exact hevicts name fd hname ((hf.calls call _ hold).evicts work names rfl name fd hname hcovers)
  · intro names hchange k c' name _ hc' hmisses
    exact hf.apart call k _ c' names name hold hc' hchange hmisses

private theorem handed {files : AList fun _ : Nat ↦ SharedFile} {fds : AList fun _ : Nat ↦ CachedFD}
    {timers : AList fun _ : Nat ↦ Nat} {nextTimer : Nat} (hf : Fresh s)
    (hfiles : ∀ f file, files.lookup f = some file →
      (∃ g, s.files.lookup f = some g ∧ g.fd = file.fd ∧ g.since = file.since) ∨
      ∀ stamp, s.opened[file.fd]? = some stamp → file.since ≤ stamp) :
    Fresh { s with files, fds, timers, nextTimer } := by
  refine ⟨hf.mapped, ?_, ?_, hf.apart⟩
  · intro f file stamp hfile hstamp
    rcases hfiles f file hfile with ⟨g, hg, hfd, hsince⟩ | hnew
    · rw [← hsince]
      exact hf.given f g stamp hg (hfd ▸ hstamp)
    · exact hnew stamp hstamp
  · intro k c hc
    have hfits := hf.calls k c hc
    exact ⟨hfits.asked, hfits.pended, hfits.evicts⟩

private theorem hands (hsince : ∀ stamp, s.opened[fd]? = some stamp → since ≤ stamp) :
    ∀ f file, (s.files.insert call ⟨fd, .unclosed, name, since⟩).lookup f = some file →
      (∃ g, s.files.lookup f = some g ∧ g.fd = file.fd ∧ g.since = file.since) ∨
      ∀ stamp, s.opened[file.fd]? = some stamp → file.since ≤ stamp :=
  forall_lookup_insert (.inr hsince) fun _ file hold ↦ .inl ⟨file, hold, rfl, rfl⟩

private theorem hit {e : CachedFD} {stop : Bool} (hf : Fresh s)
    (hname : s.names.lookup name = some fd) (hsince : since ≤ lastChange s.changes name) :
    Fresh (s.hit fd e call name since stop) := by
  exact hf.handed (hands fun stamp hstamp ↦
    Nat.le_trans hsince (hf.mapped name fd stamp hname hstamp))

private theorem store (hf : Fresh s)
    (hstamp : ∀ stamp, s.opened[fd]? = some stamp → lastChange s.changes name ≤ stamp)
    (hsince : since ≤ lastChange s.changes name)
    (hapart : ∀ k c names, s.calls.lookup k = some c → c.change = some names →
      covers names name = false) : Fresh (s.store fd call name since) := by
  have hgiven : Fresh { s with fds := s.fds.insert fd { path := name, refs := 1 }
                               files := s.files.insert call ⟨fd, .unclosed, name, since⟩ } :=
    hf.handed (hands fun stamp hfd ↦ Nat.le_trans hsince (hstamp stamp hfd))
  refine ⟨?_, hgiven.given, ?_, hgiven.apart⟩
  · intro n k stamp hn hk
    rcases lookup_insert_eq_some.mp hn with ⟨rfl, rfl⟩ | ⟨-, hold⟩
    · exact hstamp stamp hk
    · exact hf.mapped n k stamp hold hk
  · intro k c hc
    have hfits := hf.calls k c hc
    refine ⟨hfits.asked, hfits.pended, ?_⟩
    intro work names heq n m hn hcovers
    rcases lookup_insert_eq_some.mp hn with ⟨rfl, -⟩ | ⟨-, hold⟩
    · rw [heq] at hc
      rw [hapart k _ names hc rfl] at hcovers
      cases hcovers
    · exact hfits.evicts work names heq n m hold hcovers

private theorem opens (hi : Inv s) (hf : Fresh s)
    (hold : s.calls.lookup call = some (.resolve name since)) :
    Fresh ({ s with opened := s.opened ++ [s.changes.length] }.goes call
      (.insert name since s.opened.length)) := by
  have hstamp : ∀ {fd stamp}, fd < s.opened.length →
      (s.opened ++ [s.changes.length])[fd]? = some stamp → s.opened[fd]? = some stamp := by
    intro fd stamp hlt hfd
    rw [List.getElem?_append_left hlt] at hfd
    exact hfd
  have hlater : Fresh { s with opened := s.opened ++ [s.changes.length] } := by
    refine ⟨?_, ?_, ?_, hf.apart⟩
    · intro n fd stamp hn hfd
      obtain ⟨e, he, -⟩ := hi.safe.mapped n fd hn
      exact hf.mapped n fd stamp hn (hstamp (hi.safe.known fd e he) hfd)
    · intro f file stamp hfile hfd
      obtain ⟨e, he⟩ :=
        exists_lookup (hi.safe.filed f file hfile)
      exact hf.given f file stamp hfile (hstamp (hi.safe.known file.fd e he) hfd)
    · intro k c hc
      have hfits := hf.calls k c hc
      refine ⟨hfits.asked, ?_, hfits.evicts⟩
      intro n since' fd stamp heq hfd
      have hpending : s.Pending fd := ⟨k, c, hc, by rw [heq]; rfl⟩
      exact hfits.pended n since' fd stamp heq (hstamp (hi.safe.pending fd hpending).1 hfd)
  have hfits := hf.calls call _ hold
  refine hlater.goes ⟨?_, ?_, nofun⟩ nofun ?_
  · intro n since' hasks
    cases hasks
    exact hfits.asked name since rfl
  · intro n since' fd stamp heq hfd
    cases heq
    change (s.opened ++ [s.changes.length])[s.opened.length]? = some stamp at hfd
    rw [List.getElem?_concat_length] at hfd
    cases hfd
    exact lastChange_le_length s.changes name
  · intro n hmisses k c' names _ hc' hchange
    cases hmisses
    exact hf.apart k call c' _ names name hc' hold hchange rfl

private theorem evictEntry {e : CachedFD} (hf : Fresh s) : Fresh (s.evictEntry fd e) := by
  have hfewer : ∀ {n k}, (s.evictEntry fd e).names.lookup n = some k →
      s.names.lookup n = some k := by
    intro n k hn
    simp only [State.evictEntry] at hn
    split at hn
    · exact (lookup_erase_eq_some.mp hn).2
    · exact hn
  refine ⟨fun n k stamp hn ↦ hf.mapped n k stamp (hfewer hn), hf.given, ?_, hf.apart⟩
  intro k c hc
  have hfits := hf.calls k c hc
  exact ⟨hfits.asked, hfits.pended, fun work names heq n m hn ↦
    hfits.evicts work names heq n m (hfewer hn)⟩

/-- A change takes effect once everything it covers is out of the map. -/
theorem changes {names : List Path} (hf : Fresh s)
    (hold : s.calls.lookup call = some (.evicting [] (some names))) :
    Fresh { s with changes := names :: s.changes } := by
  refine ⟨?_, hf.given, ?_, hf.apart⟩
  · intro n fd stamp hn hfd
    have huncovered : covers names n = false := by
      rw [← Bool.not_eq_true]
      intro hcovers
      rcases (hf.calls call _ hold).evicts [] names rfl n fd hn hcovers with ⟨m, hm, -⟩ | hm | hm
      · cases hm
      · cases hm
      · cases hm
    rw [lastChange_cons_of_covers_eq_false huncovered]
    exact hf.mapped n fd stamp hn hfd
  · intro k c hc
    have hfits := hf.calls k c hc
    refine ⟨?_, ?_, hfits.evicts⟩
    · intro n since hasks
      exact Nat.le_trans (hfits.asked n since hasks) (lastChange_le_cons names n s.changes)
    · intro n since fd stamp heq hfd
      have huncovered : covers names n = false :=
        hf.apart call k _ c names n hold hc rfl (by rw [heq]; rfl)
      rw [lastChange_cons_of_covers_eq_false huncovered]
      exact hfits.pended n since fd stamp heq hfd

private theorem used {files : AList fun _ : Nat ↦ SharedFile} {fds : AList fun _ : Nat ↦ CachedFD}
    {timers : AList fun _ : Nat ↦ Nat} {nextTimer : Nat} {f : Nat} {file : SharedFile} {use : Use}
    (hf : Fresh s) (hfile : s.files.lookup f = some file)
    (hfiles : files = s.files.insert f { file with use }) :
    Fresh { s with files, fds, timers, nextTimer } := by
  subst hfiles
  exact hf.handed (forall_lookup_insert (.inl ⟨file, hfile, rfl, rfl⟩) fun _ g hold ↦
    .inl ⟨g, hold, rfl, rfl⟩)

/-- An entry that is out of the map is nothing that is still to be evicted. -/
theorem evicts_rest {fd : Nat} {e : CachedFD} (hi : Inv s) (he : s.fds.lookup fd = some e) :
    ∀ n k, (s.evictEntry fd e).names.lookup n = some k →
      Evicts (.entry fd :: work) n k → Evicts work n k := by
  intro n k hn hevicts
  rcases evicts_cons hevicts with rfl | hin
  · exact absurd hn (names_evictEntry_ne hi.safe he n)
  · exact hin

private theorem take {ok : Bool} {c : Call} (hi : Inv s) (hf : Fresh s)
    (hold : s.calls.lookup call = some c) (hok : Apart s (.take call ok)) :
    Fresh (s.take max call ok c) := by
  have hfits := hf.calls call c hold
  fun_cases State.take s max call ok c
  case case1 | case7 | case10 | case16 => exact hf
  case case3 | case6 | case12 => exact hf.goes_idle
  case case2 name since fd hname e he => exact hf.goes_idle.hit hname (hfits.asked name since rfl)
  case case4 name since hnone hroom =>
    refine hf.goes ⟨?_, by simp, by simp⟩ (by simp [Call.change]) ?_
    · intro n since' hasks
      cases hasks
      exact hfits.asked name since rfl
    · intro n hmisses k c' names _ hc' hchange
      cases hmisses
      exact hok _ hold name rfl hnone ⟨k, c'⟩ (AList.mem_lookup_iff.mp hc') names hchange
  case case5 => exact hf.opens hi hold
  case case8 name since fd other hname e he =>
    exact hf.goes_idle.hit hname (hfits.asked name since rfl)
  case case9 name since fd hnone =>
    refine hf.goes_idle.store (fun stamp hfd ↦ hfits.pended name since fd stamp rfl hfd)
      (hfits.asked name since rfl) ?_
    intro k c' names hc' hchange
    rcases lookup_insert_eq_some.mp hc' with ⟨-, rfl⟩ | ⟨-, hcold⟩
    · cases hchange
    · exact hf.apart k call c' _ names name hcold hold hchange rfl
  case case11 => exact (hf.changes hold).goes_idle
  case case13 name work change held =>
    refine hf.goes_work hold ?_
    intro n fd hn hevicts
    rcases evicts_cons hevicts with hbelow | hin
    · have hkey : n ∈ s.names.keys := AList.mem_keys.mp (mem_of_lookup hn)
      refine .inr (.inl (List.mem_append_left _ (List.mem_map.mpr ⟨n, ?_, rfl⟩)))
      rw [List.mem_filter, Bool.or_eq_true, decide_eq_true_eq]
      exact ⟨hkey, hbelow⟩
    · exact hin.append _
  case case14 name work change hnone =>
    refine hf.goes_work hold ?_
    intro n fd hn hevicts
    rcases evicts_cons hevicts with rfl | hin
    · rw [hnone] at hn
      cases hn
    · exact hin
  case case15 name work change k hname =>
    refine hf.goes_work hold ?_
    intro n fd hn hevicts
    rcases evicts_cons hevicts with rfl | hin
    · rw [hname] at hn
      cases hn
      exact .inr (.inr (.head _))
    · exact hin.append [.entry k]
  case case17 fd work change e he hrefs => exact hf.evictEntry.goes_work hold (evicts_rest hi he)
  case case18 fd work change e he hrefs =>
    refine hf.evictEntry.goes_work hold ?_
    intro n k hn hevicts
    exact (evicts_rest hi he n k hn hevicts).append [.shut fd]
  case case19 fd work change =>
    have hshut : Fresh { s with closed := fd :: s.closed } :=
      ⟨hf.mapped, hf.given, fun k c hc ↦
        ⟨(hf.calls k c hc).asked, (hf.calls k c hc).pended, (hf.calls k c hc).evicts⟩, hf.apart⟩
    refine hshut.goes_work hold ?_
    exact fun n k _ hevicts ↦ (evicts_cons hevicts).resolve_left id

private theorem goes_evicting {work : List Work} {names : List Path} (hf : Fresh s)
    (htrees : ∀ n ∈ names, Work.tree n ∈ work)
    (hapart : ∀ k c' name, k ≠ call → s.calls.lookup k = some c' → c'.misses = some name →
      covers names name = false) : Fresh (s.goes call (.evicting work (some names))) := by
  refine hf.goes ⟨by simp [Call.asks], by simp, ?_⟩ ?_ (by simp [Call.misses])
  · intro work' names' heq name fd _ hcovers
    cases heq
    obtain ⟨n, hn, hbelow⟩ := List.any_eq_true.mp hcovers
    rw [Bool.or_eq_true, decide_eq_true_eq] at hbelow
    exact .inl ⟨n, htrees n hn, hbelow⟩
  · intro names' hchange
    cases hchange
    exact hapart

private theorem start {req : Request} (hf : Fresh s) (hok : Apart s (.start call req)) :
    Fresh (s.goes call (req.call s.changes)) := by
  have hapart : ∀ names, (req.call s.changes).change = some names → ∀ k c' name, k ≠ call →
      s.calls.lookup k = some c' → c'.misses = some name → covers names name = false := by
    intro names hchange k c' name _ hc' hmisses
    exact hok names hchange ⟨k, c'⟩ (AList.mem_lookup_iff.mp hc') name hmisses
  cases req with
  | openFile name flags =>
    simp only [Request.call]
    split
    · refine hf.goes ⟨?_, by simp, by simp⟩ (by simp [Call.change]) (by simp [Call.misses])
      intro n since hasks
      cases hasks
      exact Nat.le_refl _
    · exact hf.goes_idle
  | remove name => exact hf.goes_evicting (by simp) (hapart _ rfl)
  | rename source dest => exact hf.goes_evicting (by simp) (hapart _ rfl)

private theorem step {e : Event} (hi : Inv s) (hf : Fresh s) (hok : Apart s e)
    (ht : Descriptors.step max s e = some s') : Fresh s' := by
  revert ht
  fun_cases Descriptors.step max s e <;> intro ht
  case case3 call ok =>
    obtain ⟨c, hc, rfl⟩ := Option.map_eq_some_iff.mp ht
    exact hf.take hi hc hok
  case case4 file =>
    obtain ⟨f, hfile, rfl⟩ := Option.map_eq_some_iff.mp ht
    split
    · exact hf.used hfile rfl
    · exact hf
  case case6 file call f hfile hfree =>
    obtain ⟨e, he, rfl⟩ := Option.map_eq_some_iff.mp ht
    have hdrop : Fresh ((s.gaveBack file f).dropRef f.fd e) := hf.used hfile rfl
    simp only [State.release]
    split
    · exact hdrop
    · split
      · exact hdrop.goes_idle
      · exact hdrop.handed fun k g hk ↦ .inl ⟨g, hk, rfl, rfl⟩
  all_goals cases ht
  · exact hf.start hok
  · next timer call fd htimer hcall =>
    have hunarmed : Fresh { s with timers := s.timers.erase timer } :=
      hf.handed fun k g hk ↦ .inl ⟨g, hk, rfl, rfl⟩
    exact hunarmed.goes_idle

end Fresh

private theorem fresh_start : Fresh {} where
  mapped := nofun
  given := nofun
  calls := nofun
  apart := nofun

/-- A request is never answered with a descriptor that was opened before the last change of its name
that had taken effect when it started, as long as no `OpenFile` that found nothing for a name is
under way together with a change of it. -/
theorem never_stale {max : Nat} {es : List Event} (hr : (machine max).run {} es = some s)
    (hw : (machine max).Within Apart {} es) :
    ∀ f file stamp, s.files.lookup f = some file → s.opened[file.fd]? = some stamp →
      file.since ≤ stamp := by
  have hstep : ∀ s e s', Inv s ∧ Fresh s → Apart s e → (machine max).step s e = some s' →
      Inv s' ∧ Fresh s' := by
    rintro s e s' ⟨hi, hf⟩ hok ht
    exact ⟨hi.step ht, hf.step hi hok ht⟩
  have hstart : Inv {} ∧ Fresh {} := ⟨inv_start, fresh_start⟩
  exact ((machine max).run_invariant Apart hstep hstart hw hr).2.given

/-- `x` is opened, removed and opened again. -/
def openedAgain : List Event :=
  [.start 0 (.openFile [['x']] plainFlags), .take 0 true, .take 0 true, .take 0 true,
    .start 1 (.remove [['x']]), .take 1 true, .take 1 true, .take 1 true, .take 1 true,
    .start 2 (.openFile [['x']] plainFlags), .take 2 true, .take 2 true, .take 2 true]

/-- `x` is opened before it is removed, and put into the map after. -/
def openedAcross : List Event :=
  [.start 0 (.openFile [['x']] plainFlags), .take 0 true, .take 0 true,
    .start 1 (.remove [['x']]), .take 1 true, .take 1 true, .take 0 true,
    .start 2 (.openFile [['x']] plainFlags), .take 2 true]

theorem never_stale_openedAgain :
    ∃ s, (machine 64).run {} openedAgain = some s ∧
      s.files.lookup 2 = some ⟨1, .unclosed, [['x']], 1⟩ ∧ s.opened[1]? = some 1 ∧
      ∀ f file stamp, s.files.lookup f = some file → s.opened[file.fd]? = some stamp →
        file.since ≤ stamp := by
  obtain ⟨s, hr, hfile, hstamp⟩ : ∃ s, (machine 64).run {} openedAgain = some s ∧
      s.files.lookup 2 = some ⟨1, .unclosed, [['x']], 1⟩ ∧ s.opened[1]? = some 1 := by
    decide +kernel
  have hw : (machine 64).Within Apart {} openedAgain := by decide +kernel
  exact ⟨s, hr, hfile, hstamp, never_stale hr hw⟩

/-- The second request starts after the removal has returned, and is handed the descriptor that was
opened before it. -/
theorem stale_openedAcross :
    ∃ s, (machine 64).run {} openedAcross = some s ∧
      s.files.lookup 2 = some ⟨0, .unclosed, [['x']], 1⟩ ∧ s.opened[0]? = some 0 := by
  decide +kernel

end RemoteDocker.NfsServe.Descriptors

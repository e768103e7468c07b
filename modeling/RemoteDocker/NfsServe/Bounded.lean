import RemoteDocker.NfsServe.Descriptors

/-!
# How many descriptors are held

`OpenFile` compares the map with its maximum in one locked region and inserts in another, and opens
the file between the two. Misses of different names that come together all find room
(`two_misses_overfill`). The bound holds as long as no miss passes the check when the misses on
their way would fill what is left.
-/

namespace RemoteDocker.NfsServe.Descriptors

open Base Base.FilePath

/-- An `OpenFile` that has found room and not yet looked again. -/
def Call.missed : Call → Bool
  | .resolve _ _ => true
  | .insert _ _ _ => true
  | _ => false

def State.misses (s : State) : Nat := countTable Call.missed s.calls

/-- A miss that finds room leaves room for the misses on their way. -/
def roomy (max : Nat) (s : State) : Event → Bool
  | .take call _ =>
    match s.calls.lookup call with
    | some (.look name _) =>
      name ∈ s.names || max ≤ s.names.keys.length || s.names.keys.length + s.misses < max
    | _ => true
  | _ => true

/-- The descriptors in the map, with those on their way. -/
def Room (max : Nat) (s : State) : Prop := s.names.keys.length + s.misses ≤ max

section

variable {s s' : State} {max call : Nat} {old c : Call}

private theorem misses_goes (hold : s.calls.lookup call = some old) :
    (s.goes call c).misses + (if old.missed then 1 else 0) =
      s.misses + if c.missed then 1 else 0 :=
  countTable_replace Call.missed hold

private theorem Room.goes_new (h : Room max s) (hcall : call ∉ s.calls) (hc : c.missed = false) :
    Room max (s.goes call c) := by
  have hmisses : (s.goes call c).misses = s.misses := by
    rw [State.misses, State.goes, countTable_insert Call.missed hcall, hc]
    rfl
  rw [Room, hmisses]
  exact h

/-- A call goes on, and is no miss unless it was one. -/
theorem Room.goes (h : Room max s) (hold : s.calls.lookup call = some old)
    (hc : c.missed = true → old.missed = true) : Room max (s.goes call c) := by
  have hmisses := misses_goes (c := c) hold
  have hnames : (s.goes call c).names = s.names := rfl
  rw [Room] at h ⊢
  rw [hnames]
  by_cases hmissed : c.missed = true
  · simp only [hmissed, hc hmissed, if_true] at hmisses
    omega
  · simp only [hmissed, Bool.false_eq_true, if_false] at hmisses
    omega

private theorem length_keys_evictEntry (fd : Nat) (e : CachedFD) :
    (s.evictEntry fd e).names.keys.length ≤ s.names.keys.length := by
  rw [State.evictEntry]
  split
  · simp only [AList.keys, List.keys, List.length_map]
    exact (List.kerase_sublist e.path s.names.entries).length_le
  · exact le_rfl

private theorem Room.evictEntry (h : Room max s) (fd : Nat) (e : CachedFD) :
    Room max (s.evictEntry fd e) :=
  Nat.le_trans (Nat.add_le_add_right (length_keys_evictEntry fd e) s.misses) h

/-- A miss puts its descriptor into the map. -/
theorem Room.store {name : Path} {since fd : Nat} (h : Room max s)
    (hold : s.calls.lookup call = some (.insert name since fd))
    (hnone : s.names.lookup name = none) :
    Room max ((s.goes call .returned).store fd call name since) := by
  have hmisses := misses_goes (c := .returned) hold
  have hname : name ∉ s.names := AList.lookup_eq_none.mp hnone
  have hkeys : (s.names.insert name fd).keys.length = s.names.keys.length + 1 := by
    simp only [AList.keys, List.keys, List.length_map]
    rw [AList.entries_insert_of_notMem hname, List.length_cons]
  rw [Room] at h ⊢
  simp only [Call.missed, Call.returned, if_true, Bool.false_eq_true, if_false] at hmisses
  have hcount : ((s.goes call .returned).store fd call name since).misses =
      (s.goes call .returned).misses := rfl
  have hnames : ((s.goes call .returned).store fd call name since).names = s.names.insert name fd :=
    rfl
  rw [hcount, hnames, hkeys]
  simp only [Call.returned]
  omega

private theorem Room.take {ok : Bool} (h : Room max s) (hold : s.calls.lookup call = some c)
    (hok : roomy max s (.take call ok)) : Room max (s.take max call ok c) := by
  fun_cases State.take s max call ok c
  case case4 name since hnone hroom =>
    simp only [roomy, hold, AList.lookup_eq_none.mp hnone, hroom, decide_false, Bool.false_or,
      decide_eq_true_eq] at hok
    have hmisses := misses_goes (c := .resolve name since) hold
    simp only [Call.missed, if_true, Bool.false_eq_true, if_false] at hmisses
    have hnames : (s.goes call (.resolve name since)).names = s.names := rfl
    rw [Room, hnames]
    omega
  case case5 => exact h.goes hold fun _ ↦ rfl
  case case8 name since fd other hname e he =>
    have hshuts : Room max (s.goes call (.evicting [.shut fd] none)) := h.goes hold nofun
    exact hshuts
  case case9 hnone => exact h.store hold hnone
  case case17 e he hrefs => exact (h.evictEntry _ e).goes hold nofun
  case case18 e he hrefs => exact (h.evictEntry _ e).goes hold nofun
  all_goals first | exact h | exact h.goes hold nofun

private theorem Room.step {e : Event} (h : Room max s) (hok : roomy max s e)
    (ht : step max s e = some s') : Room max s' := by
  revert ht
  fun_cases Descriptors.step max s e <;> intro ht
  case case2 call req hfresh =>
    cases ht
    have hmissed : (req.call s.changes).missed = false := by
      cases req with
      | openFile name flags =>
        rw [Request.call]
        split <;> rfl
      | remove name => rfl
      | rename source dest => rfl
    exact h.goes_new (not_or.mp hfresh).1 hmissed
  case case3 call ok =>
    obtain ⟨c, hc, rfl⟩ := Option.map_eq_some_iff.mp ht
    exact h.take hc hok
  case case4 file =>
    obtain ⟨f, -, rfl⟩ := Option.map_eq_some_iff.mp ht
    split
    · exact h
    · exact h
  case case6 file call f hfile hfree =>
    obtain ⟨e, -, rfl⟩ := Option.map_eq_some_iff.mp ht
    rw [State.release]
    split_ifs
    · exact h
    · have hshuts : Room max (s.goes call (.evicting [.shut f.fd] none)) :=
        h.goes_new hfree.2 rfl
      exact hshuts
    · exact h
  all_goals cases ht
  next timer call fd htimer hcall =>
    have hentry : Room max (s.goes call (.evicting [.entry fd] none)) := h.goes_new hcall rfl
    exact hentry

/-- The map never has more descriptors than its maximum, as long as every miss that passes the check
leaves room for those on their way. -/
theorem descriptors_bounded {es : List Event} (hr : (machine max).run {} es = some s)
    (hw : (machine max).Within (fun s e ↦ roomy max s e) {} es) : s.names.keys.length ≤ max := by
  have hroom : Room max s := by
    apply (machine max).run_invariant (fun s e ↦ roomy max s e)
      (fun _ _ _ h hok ht ↦ h.step hok ht) _ hw hr
    exact Nat.zero_le max
  exact Nat.le_trans (Nat.le_add_right _ _) hroom

end

/-! ### Two misses -/

def opens (call : Nat) (name : Path) : Event := .start call (.openFile name plainFlags)

/-- Two requests for different files, one after the other. -/
def missesInTurn : List Event :=
  [opens 0 [['x']], .take 0 true, .take 0 true, .take 0 true, opens 1 [['y']], .take 1 true]

/-- Both look into the map before either inserts. -/
def missesTogether : List Event :=
  [opens 0 [['x']], opens 1 [['y']], .take 0 true, .take 1 true, .take 0 true, .take 1 true,
    .take 0 true, .take 1 true]

theorem descriptors_bounded_in_turn :
    ∃ s, (machine 1).run {} missesInTurn = some s ∧ s.names.keys.length ≤ 1 := by
  have hrun : ((machine 1).run {} missesInTurn).isSome := by decide +kernel
  obtain ⟨s, hr⟩ := Option.isSome_iff_exists.mp hrun
  exact ⟨s, hr, descriptors_bounded hr (by decide +kernel)⟩

/-- The second insertion finds the map full, and inserts all the same. -/
theorem two_misses_overfill :
    ((machine 1).run {} missesTogether).map (fun s ↦ s.names.keys.length) = some 2 := by
  decide +kernel

end RemoteDocker.NfsServe.Descriptors

import RemoteDocker.Base.Machine
import RemoteDocker.DirCache.LastWriter

/-!
# Landing a decided write or deletion

A pass touches a path minutes after it was decided about. A file is written to a temporary
beside its target and renamed over it (`src/dircache/writeback.go:580-646`), a deleted one
removed (`src/dircache/writepass.go:123-145`), both only while `stillAsSeen` finds what the
decision saw (`src/dircache/writepass.go:339-383`). Each system call is a step that may
fail, and the files here change between any two; the guard's look and the rename or the
remove right after it are one step.

The look is a system call too. Where nothing was seen, any error of `Lstat` is taken for nothing
being there still, and a file that was made since is replaced (`replaced_unseen`).
-/

namespace RemoteDocker.DirCache.Landing

open Base

/-- What `Lstat` finds at the target, and its contents. -/
structure Entry extends Looked where
  body : List UInt8
  deriving DecidableEq

structure Incoming where
  body : List UInt8
  modTime : Int
  mode : UInt32

/-- The next step of `land`, or of `remove` (`look`). -/
inductive Phase where
  | clash
  | mkdir
  | stat
  | openTemp
  | chmod
  | copy (rest : List UInt8)
  | close (copied : Bool)
  | chtimes
  | swap
  | cleanup
  | look
  | done (ok : Bool)
  deriving DecidableEq

/-- The target, the temporary and how far the pass is. `left` is the target as the last
change here left it, and `replaced` the target before and after the pass changed it. -/
structure State where
  target : Option Entry
  left : Option Entry
  temp : Option (List UInt8) := none
  perm : UInt32 := 0
  modTime : Int := 0
  phase : Phase
  replaced : Option (Option Entry × Option Entry) := none

/-- What a look at the target answers: `Lstat` or `Stat` may fail, or only `ChangeTime`. -/
inductive Look where
  | whole
  | noCtime
  | failed
  deriving DecidableEq

def Look.finds (look : Look) (target : Option Entry) : Option Entry :=
  match look with
  | .whole => target
  | .noCtime => target.map ({ · with ctime := none })
  | .failed => none

/-- A change here, or the next step, with whether its call succeeds, what its look at the target
answers and the time it is. -/
inductive Event where
  | here (target : Option Entry)
  | next (ok : Bool) (look : Look) (now : Int)

/-- What chmod +x and chmod -x leave a file with. -/
def withExec (perm : UInt32) (exec : Int) : UInt32 :=
  if 0 < exec then perm ||| ((perm &&& 0o444) >>> 2)
  else if exec < 0 then perm &&& ~~~0o111
  else perm

/-- `stillAsSeen` of what a look finds. -/
def asSeen (a : Action) (target : Option Entry) : Bool :=
  stillAsSeen a.seen target.isSome (target.bind (·.stat)) (target.bind (·.ctime))

/-- The permission bits to write with: a file already here keeps its own, and takes the
execute bit the consumer changed. -/
def permOf (a : Action) (file : Incoming) (target : Option Entry) : UInt32 :=
  match target.bind (·.stat) with
  | some info => if info.isDir then file.mode &&& 0o777 else withExec (info.mode &&& 0o777) a.exec
  | none => file.mode &&& 0o777

variable (a : Action) (file : Incoming)

def next (s : State) (ok : Bool) (look : Look) (now : Int) : Option State :=
  match s.phase with
  | .clash => some { s with phase := if ok then .mkdir else .done false }
  | .mkdir => some { s with phase := if ok then .stat else .done false }
  | .stat => some { s with phase := .openTemp, perm := permOf a file (look.finds s.target) }
  | .openTemp =>
    if ok then some { s with phase := .chmod, temp := some [], modTime := now }
    else some { s with phase := .done false }
  | .chmod => some { s with phase := .copy file.body }
  | .copy [] => some { s with phase := .close true }
  | .copy (b :: rest) =>
    if ok then some { s with phase := .copy rest, temp := s.temp.map (· ++ [b]), modTime := now }
    else some { s with phase := .close false }
  | .close copied => some { s with phase := if copied && ok then .chtimes else .cleanup }
  | .chtimes => some { s with phase := .swap, modTime := if ok then file.modTime else s.modTime }
  | .swap =>
    if asSeen a (look.finds s.target) && ok then
      let body := s.temp.getD []
      let landed : Entry :=
        { stat := some { size := body.length, modTime := s.modTime, mode := s.perm }
          ctime := some now
          body := body }
      some { s with phase := .done true, target := some landed, temp := none
                    replaced := some (s.target, some landed) }
    else some { s with phase := .cleanup }
  | .cleanup => some { s with phase := .done false, temp := none }
  | .look =>
    if asSeen a (look.finds s.target) && ok then
      some { s with phase := .done true, target := none, replaced := some (s.target, none) }
    else some { s with phase := .done false }
  | .done _ => none

def step (s : State) : Event → Option State
  | .here target => some { s with target := target, left := target }
  | .next ok look now => next a file s ok look now

def machine : Machine State Event := ⟨step a file⟩

def start (target : Option Entry) : State where
  target := target
  left := target
  phase := if a.kind = .delete then .look else .clash

/-- The guard's look at a path that was decided on as absent does not fail while something is
there. -/
def careful (s : State) : Event → Bool
  | .here _ => true
  | .next _ look _ =>
    (s.phase != .swap && s.phase != .look) || look != .failed || a.seen.here || s.target.isNone

/-- The temporary by phase: it is there from the open to the rename or the cleanup, and
whole once the body was copied. -/
def Phase.TempOk (temp : Option (List UInt8)) : Phase → Prop
  | clash | mkdir | stat | openTemp | look | done _ => temp = none
  | chmod => temp = some []
  | copy rest => ∃ written, temp = some written ∧ written ++ rest = file.body
  | close true | chtimes | swap => temp = some file.body
  | close false | cleanup => True

/-- Whether the path is on its way to be removed or to be written; `none` once it is over. -/
def Phase.deletes : Phase → Option Bool
  | look => some true
  | done _ => none
  | _ => some false

structure Inv (s : State) : Prop where
  temp : s.phase.TempOk file s.temp
  /-- Until the pass replaces it, the target is as the last change here left it. -/
  untouched : s.replaced = none → s.target = s.left
  /-- It is replaced by the last step only, -/
  undone : s.phase ≠ .done true → s.replaced = none
  /-- and by a whole file or by nothing. -/
  whole : ∀ before after, s.replaced = some (before, after) →
    after.map (·.body) = if a.kind = .delete then none else some file.body
  kind : ∀ deletes, s.phase.deletes = some deletes → (deletes = true ↔ a.kind = .delete)

variable {a file}

private theorem Inv.advance {s : State} (h : Inv a file s) {phase : Phase}
    {temp : Option (List UInt8)}
    {perm : UInt32} {modTime : Int} (hopen : s.phase ≠ .done true)
    (htemp : phase.TempOk file temp)
    (hkind : phase.deletes = none ∨ phase.deletes = s.phase.deletes) :
    Inv a file { s with phase := phase, temp := temp, perm := perm, modTime := modTime } where
  temp := htemp
  untouched := h.untouched
  undone := fun _ ↦ h.undone hopen
  whole := h.whole
  kind := by
    intro deletes hd
    rcases hkind with hk | hk
    · simp [hk] at hd
    · exact h.kind deletes (hk.symm.trans hd)

private theorem inv_replace {s : State} (after : Option Entry)
    (hafter : after.map (·.body) = if a.kind = .delete then none else some file.body) :
    Inv a file { s with phase := .done true, target := after, temp := none
                        replaced := some (s.target, after) } where
  temp := rfl
  untouched := by simp
  undone := by simp
  whole := by
    intro before after' hr
    rw [Option.some.injEq, Prod.mk.injEq] at hr
    exact hr.2 ▸ hafter
  kind := by simp [Phase.deletes]

private theorem inv_next {s s' : State} {ok : Bool} {look : Look} {now : Int} (h : Inv a file s)
    (hs : next a file s ok look now = some s') : Inv a file s' := by
  have htemp := h.temp
  have hkind := h.kind
  revert hs
  fun_cases next a file s ok look now <;> rintro ⟨⟩
  all_goals
    have hp : s.phase = _ := ‹_›
    have hopen : s.phase ≠ .done true := by simp [hp]
    rw [hp] at htemp
  case case1 | case2 => cases ok <;> exact h.advance hopen htemp (by simp [hp, Phase.deletes])
  case case3 | case5 | case11 | case16 =>
    exact h.advance hopen htemp (by simp [hp, Phase.deletes])
  case case4 | case14 => exact h.advance hopen rfl (by simp [hp, Phase.deletes])
  case case6 => exact h.advance hopen ⟨[], htemp, rfl⟩ (by simp [hp, Phase.deletes])
  case case7 =>
    -- The body is over: what was written is all of it.
    obtain ⟨written, hw, hbody⟩ := htemp
    rw [List.append_nil] at hbody
    exact h.advance hopen (hw.trans (by rw [hbody])) (by simp [hp, Phase.deletes])
  case case8 b rest _ _ =>
    obtain ⟨written, hw, hbody⟩ := htemp
    refine h.advance hopen ⟨written ++ [b], by simp [hw], ?_⟩ (by simp [hp, Phase.deletes])
    rw [List.append_assoc, List.singleton_append, hbody]
  case case9 | case13 => exact h.advance hopen trivial (by simp [hp, Phase.deletes])
  case case10 copied _ =>
    cases copied with
    | false => exact h.advance hopen trivial (by simp [hp, Phase.deletes])
    | true =>
      cases ok
      · exact h.advance hopen trivial (by simp [hp, Phase.deletes])
      · exact h.advance hopen htemp (by simp [hp, Phase.deletes])
  case case12 hc body landed =>
    have htemp : s.temp = some file.body := htemp
    have hwrite : a.kind ≠ .delete := by simpa [hp, Phase.deletes] using hkind
    exact inv_replace _ (by simp [hwrite, htemp, landed, body])
  case case15 hc =>
    have htemp : s.temp = none := htemp
    have hdelete : a.kind = .delete := by simpa [hp, Phase.deletes] using hkind
    rw [htemp]
    exact inv_replace none (by simp [hdelete])

private theorem Inv.here {s : State} (h : Inv a file s) (target : Option Entry) :
    Inv a file { s with target := target, left := target } where
  temp := h.temp
  untouched := fun _ ↦ rfl
  undone := h.undone
  whole := h.whole
  kind := h.kind

private theorem inv_step {s s' : State} {e : Event} (h : Inv a file s)
    (hs : step a file s e = some s') :
    Inv a file s' := by
  cases e with
  | here target =>
    simp only [step, Option.some.injEq] at hs
    exact hs ▸ h.here target
  | next ok look now => exact inv_next h hs

/-- What the pass replaced was as seen. -/
def Guarded (a : Action) (s : State) : Prop :=
  ∀ before after, s.replaced = some (before, after) → asSeen a before = true

/-- What a look finds as seen is as seen, unless it failed where nothing was seen. -/
theorem asSeen_of_finds {look : Look} {target : Option Entry}
    (hlook : look ≠ .failed ∨ a.seen.here = true ∨ target = none)
    (hseen : asSeen a (look.finds target) = true) : asSeen a target = true := by
  cases look with
  | whole => exact hseen
  | noCtime =>
    cases target with
    | none => exact hseen
    | some e =>
      simp only [asSeen, stillAsSeen, Look.finds, SeenState.same, Option.map_some,
        Option.bind_some, Option.isSome_some] at hseen ⊢
      grind
  | failed =>
    rcases hlook with hno | hhere | rfl
    · exact absurd rfl hno
    · simp [asSeen, stillAsSeen, Look.finds, SeenState.same, seenOf, hhere] at hseen
    · exact hseen

private theorem guarded_step {s s' : State} {e : Event} (h : Guarded a s)
    (hc : careful a s e = true)
    (hs : step a file s e = some s') : Guarded a s' := by
  cases e with
  | here target =>
    cases hs
    exact h
  | next ok look now =>
    have hlook : s.phase = .swap ∨ s.phase = .look →
        look ≠ .failed ∨ a.seen.here = true ∨ s.target = none := by
      intro hp
      rcases hp with hp | hp <;> simpa [careful, hp, or_assoc] using hc
    have hreplace : ∀ {target after : Option Entry} {s' : State}, asSeen a target = true →
        s'.replaced = some (target, after) → Guarded a s' := by
      intro target after s' hseen hreplaced before after' hr
      rw [hreplaced] at hr
      cases hr
      exact hseen
    simp only [step] at hs
    revert hs
    fun_cases next a file s ok look now <;> rintro ⟨⟩
    case case12 hp hok _ _ =>
      exact hreplace (asSeen_of_finds (hlook (.inl hp)) (Bool.and_eq_true_iff.mp hok).1) rfl
    case case15 hp hok =>
      exact hreplace (asSeen_of_finds (hlook (.inr hp)) (Bool.and_eq_true_iff.mp hok).1) rfl
    all_goals exact h

private theorem inv_start (target : Option Entry) : Inv a file (start a target) where
  temp := by
    unfold start
    split <;> rfl
  untouched := fun _ ↦ rfl
  undone := fun _ ↦ rfl
  whole := by simp [start]
  kind := by
    intro deletes hd
    by_cases hk : a.kind = .delete
    · simp only [start, hk, if_true, Phase.deletes, Option.some.injEq] at hd
      simp [← hd, hk]
    · simp only [start, hk, if_false, Phase.deletes, Option.some.injEq] at hd
      simp [← hd, hk]

/-- The target has the state the path was decided on: existence, size, modification time, and
the change time where the decision read one. -/
def AsDecided (d : Deciding) (a : Action) (target : Option Entry) : Prop :=
  match d.localAt a.path with
  | none => target = none
  | some i => ∃ e j, target = some e ∧ e.stat = some j ∧ j.size = i.size ∧
      j.modTime = i.modTime ∧
      ∀ ours, a.seen.ctime = some ours → d.ctimeAt a.path = some ours ∧ e.ctime = some ours

/-- What passes the guard of a decided action has the state it was decided on. -/
theorem asDecided_of_asSeen {d : Deciding} {changes : List Change} {a : Action}
    (ha : a ∈ d.decide changes) (ht : a.takes = true) {target : Option Entry}
    (hseen : asSeen a target = true) : AsDecided d a target := by
  obtain ⟨ch, hch, a₀, ha₀, rfl⟩ := Deciding.mem_decide.mp ha
  obtain ⟨⟨hlink, hop, -⟩, -⟩ := Deciding.takes_of_decideChange ha₀ ht
  obtain ⟨c, hc, hctime⟩ := Deciding.seenAt_eq (d := d) hch hlink hop
  have hpath := Deciding.path_of_decideChange ha₀
  simp only [AsDecided, asSeen, stillAsSeen, hc, hpath] at hseen ⊢
  cases hi : d.localAt ch.path with
  | none => simpa [hi, seenOf] using hseen
  | some i =>
    simp only [hi, seenOf, SeenState.same, Bool.not_true, Bool.false_eq_true, if_false,
      Bool.and_eq_true, beq_iff_eq] at hseen
    cases target with
    | none => simp at hseen
    | some e =>
      cases hj : e.stat with
      | none => simp [hj] at hseen
      | some j =>
        simp only [Option.bind_some, hj, Option.isSome_some, Bool.or_eq_true,
          Option.isNone_iff_eq_none, beq_iff_eq] at hseen
        obtain ⟨⟨⟨-, hsize⟩, hmod⟩, hread⟩ := hseen
        refine ⟨e, j, rfl, hj, hsize.symm, hmod.symm, ?_⟩
        intro ours hours
        have hours : c = some ours := hours
        refine ⟨hctime ours hours, ?_⟩
        simpa [hours, eq_comm] using hread

/-- The landing guard. Whatever happens here and whichever call fails, a target the pass
replaces is replaced whole; otherwise it is as the last change here left it; and a pass that is over
leaves no temporary, one that failed no change. A target it replaces or removes has the state the
action was decided on, as long as the look does not fail where nothing was seen and something is. -/
theorem landing_guard (d : Deciding) (changes : List Change) (a : Action)
    (ha : a ∈ d.decide changes) (hkind : a.fetches = true ∨ a.kind = .delete ∧ a.dir = false)
    (file : Incoming) (target : Option Entry) (es : List Event) (s : State)
    (hrun : (machine a file).run (start a target) es = some s) :
    ((machine a file).Within (fun s e ↦ careful a s e = true) (start a target) es →
      ∀ before after, s.replaced = some (before, after) → AsDecided d a before) ∧
    (∀ before after, s.replaced = some (before, after) →
      after.map (·.body) = if a.kind = .delete then none else some file.body) ∧
    (s.replaced = none → s.target = s.left) ∧
    ∀ ok, s.phase = .done ok → s.temp = none ∧ (ok = false → s.replaced = none) := by
  have ht : a.takes = true := by
    rcases hkind with hf | ⟨hk, -⟩
    · simp [Action.takes, Action.carries, hf]
    · simp [Action.takes, Action.carries, hk]
  have hinv : Inv a file s :=
    (machine a file).run_invariant_all (fun _ _ _ hi hs ↦ inv_step hi hs) (inv_start target) hrun
  refine ⟨?_, hinv.whole, hinv.untouched, ?_⟩
  · intro hcareful before after hr
    have hstart : Guarded a (start a target) := by
      intro before after hr
      cases hr
    have hguarded : Guarded a s :=
      (machine a file).run_invariant (fun s e ↦ careful a s e = true)
        (fun _ _ _ hi hc hs ↦ guarded_step hi hc hs) hstart hcareful hrun
    exact asDecided_of_asSeen ha ht (hguarded before after hr)
  · intro ok hp
    refine ⟨by simpa [hp, Phase.TempOk] using hinv.temp, ?_⟩
    rintro rfl
    exact hinv.undone (by simp [hp])

/-- The share of one file, decided about at 20 with a consumer's version from 40. -/
def earlier : Deciding := Deciding.ofFile ["a"] { size := 1, modTime := 5 } 20 3

def fetch : Action :=
  { path := ["a"], kind := .write, consumer := 39
    seen := { here := true, size := 1, mod := 5, ctime := some 20 } }

/-- The calls of a write of one byte up to its rename, with a change here before it is closed. -/
def changedMeanwhile (target : Option Entry) : List Event :=
  List.replicate 6 (.next true .whole 50) ++ [.here target] ++
    List.replicate 3 (.next true .whole 52)

def made (mode : UInt32) : Entry where
  stat := some { size := 1, modTime := 5, mode }
  ctime := some 51
  body := [7]

def seenEntry : Entry where
  stat := some { size := 1, modTime := 5 }
  ctime := some 20
  body := [7]

/-- The file here is changed to mode 0600 while the new body is written, and is left as it is, with
no temporary beside it. One that is not changed is replaced. -/
theorem landing_guard_chmodded :
    (∃ s, (machine fetch { body := [8], modTime := 39, mode := 0o644 }).run
        (start fetch (some seenEntry))
        (changedMeanwhile (some (made 0o600)) ++ List.replicate 2 (.next true .whole 52)) = some s ∧
      s.phase = .done false ∧ s.temp = none ∧ s.replaced = none ∧ s.target = s.left) ∧
    ∃ s before after, (machine fetch { body := [8], modTime := 39, mode := 0o644 }).run
        (start fetch (some seenEntry)) (List.replicate 10 (.next true .whole 50)) = some s ∧
      s.replaced = some (before, after) ∧ AsDecided earlier fetch before := by
  obtain ⟨s, hrun, hphase⟩ : ∃ s, (machine fetch { body := [8], modTime := 39, mode := 0o644 }).run
      (start fetch (some seenEntry))
      (changedMeanwhile (some (made 0o600)) ++ List.replicate 2 (.next true .whole 52)) = some s ∧
        s.phase = .done false := by
    decide
  obtain ⟨s', hrun', hsome⟩ : ∃ s, (machine fetch { body := [8], modTime := 39, mode := 0o644 }).run
      (start fetch (some seenEntry)) (List.replicate 10 (.next true .whole 50)) = some s ∧
        s.replaced.isSome = true := by
    decide
  have hguard := landing_guard earlier
    [{ path := ["a"], size := 2, modTime := 39, changed := 40 }] fetch (by decide) (.inl rfl)
    { body := [8], modTime := 39, mode := 0o644 } (some seenEntry)
  constructor
  · obtain ⟨-, -, huntouched, hdone⟩ := hguard _ s hrun
    obtain ⟨htemp, hnone⟩ := hdone false hphase
    exact ⟨s, hrun, hphase, htemp, hnone rfl, huntouched (hnone rfl)⟩
  · obtain ⟨⟨before, after⟩, hreplaced⟩ := Option.isSome_iff_exists.mp hsome
    exact ⟨s', before, after, hrun', hreplaced,
      (hguard _ s' hrun').1 (by decide) before after hreplaced⟩

/-- The same share with nothing at the path. -/
def nothingYet : Deciding := { earlier with localAt := fun _ ↦ none, ctimeAt := fun _ ↦ none }

/-- Nothing was at the path. A file is made there while the new body is written, the guard's `Lstat`
fails, and the file is replaced. -/
theorem replaced_unseen :
    ∃ a ∈ nothingYet.decide [{ path := ["a"], size := 2, modTime := 39, changed := 40 }],
      a.fetches = true ∧ nothingYet.localAt a.path = none ∧
      ((machine a { body := [8], modTime := 39, mode := 0o644 }).run (start a none)
          (changedMeanwhile (some (made 0o600)) ++ [.next true .failed 52])).map
        (·.replaced.map (·.1)) = some (some (some (made 0o600))) := by
  decide

end RemoteDocker.DirCache.Landing

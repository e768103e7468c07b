import RemoteDocker.FsWatch.Outbound

/-!
# What is lost without a sink is announced

Every event taken out of the coalescer was sent, was discarded or is on its way. One that was
discarded because there was no sink is tallied for its export, and the tally is announced before
anything else is sent. One that was discarded for another cause is not.
-/

namespace RemoteDocker.FsWatch.Outbound

open Base

variable {cfg : Config} {s t : Outbound}

def delivered (history : List Entry) : List FsWatch.Event :=
  history.flatMap fun
    | .sent frame => frame.changes
    | .discarded .. => []

def discarded (history : List Entry) : List FsWatch.Event :=
  history.flatMap fun
    | .sent _ => []
    | .discarded frame _ => frame.changes

/-- The events between the coalescer and the sink. -/
def onTheWay (s : Outbound) : List FsWatch.Event :=
  (s.emitting.elim [] (·.2)) ++ s.queue.flatMap Frame.changes ++
    (s.sending.elim [] (·.frame.changes))

/-- What the count of an event comes to over all the places it can be in. -/
def held (s : Outbound) (e : FsWatch.Event) : Nat :=
  (delivered s.history).count e + (discarded s.history).count e + (onTheWay s).count e

/-- What became of a loss of an export, by what happened after it. -/
inductive Fate (s : Outbound) (after : List Entry) (x : String) : Prop where
  | tallied (hmem : x ∈ s.disconnected) (hquiet : ∀ frame, Entry.sent frame ∉ after)
  | pending {sending : Sending} {n : Notice} (hsending : s.sending = some sending)
    (hn : n ∈ sending.pending) (hexport : n.exportPath = x) (hpath : n.path = [])
  | told {n : Notice} (hsent : Entry.sent (.notice n) ∈ after) (hexport : n.exportPath = x)
    (hpath : n.path = [])
  | refused {n : Notice} (hfailed : Entry.discarded (.notice n) .sendFailed ∈ after)
    (hexport : n.exportPath = x)

structure Inv (s : Outbound) : Prop where
  account : ∀ e, s.taken.count e = held s e
  fate : ∀ after frame before, s.history = after ++ .discarded frame .disconnected :: before →
    ∀ e ∈ frame.changes, Fate s after e.exportPath
  alone : s.sending.isSome → s.disconnected = ∅

private theorem inv_start (c : Coalescer) : Inv { coalescer := c } where
  account e := by rfl
  fate after frame before h := by
    rw [eq_comm, List.append_eq_nil_iff] at h
    cases h.2
  alone := nofun

@[simp] theorem delivered_cons_sent (frame : Frame) (history : List Entry) :
    delivered (.sent frame :: history) = frame.changes ++ delivered history := rfl

@[simp] theorem delivered_cons_discarded (frame : Frame) (cause : Cause) (history : List Entry) :
    delivered (.discarded frame cause :: history) = delivered history := rfl

@[simp] theorem discarded_cons_sent (frame : Frame) (history : List Entry) :
    discarded (.sent frame :: history) = discarded history := rfl

@[simp] theorem discarded_cons_discarded (frame : Frame) (cause : Cause) (history : List Entry) :
    discarded (.discarded frame cause :: history) = frame.changes ++ discarded history := rfl

private theorem held_note_attempt (frame : Frame) (ok : Bool) (e : FsWatch.Event) :
    held (s.note (attempt cfg frame ok)) e = held s e + frame.changes.count e := by
  have hway : onTheWay (s.note (attempt cfg frame ok)) = onTheWay s := rfl
  rw [held, held, hway]
  simp only [note, attempt]
  split_ifs
  · simp only [delivered_cons_sent, discarded_cons_sent, List.count_append]
    omega
  · simp only [delivered_cons_discarded, discarded_cons_discarded, List.count_append]
    omega

private theorem held_enqueue (frame : Frame) (e : FsWatch.Event) :
    held (s.enqueue cfg frame) e = held s e + frame.changes.count e := by
  rw [enqueue]
  split_ifs
  · simp only [held, onTheWay, List.flatMap_append, List.flatMap_singleton, List.count_append]
    omega
  · simp only [held, onTheWay, note, delivered_cons_discarded, discarded_cons_discarded,
      List.count_append]
    omega

private theorem held_leaveOut (events : List FsWatch.Event) (e : FsWatch.Event) :
    held (s.leaveOut events) e = held s e + events.count e := by
  rw [leaveOut]
  split_ifs with hnil
  · rw [hnil, List.count_nil, Nat.add_zero]
  · simp only [held, onTheWay, note, Frame.changes, delivered_cons_discarded,
      discarded_cons_discarded, List.count_append]
    omega

private theorem held_emit {notices : List Notice} {events : List FsWatch.Event}
    (hemitting : s.emitting = some (notices, events)) (e : FsWatch.Event) :
    held (s.emit cfg (notices, events)) e = held s e := by
  cases notices with
  | cons n notices =>
    rw [emit, held_enqueue]
    simp only [held, onTheWay, hemitting, Frame.changes, List.count_nil]
    rfl
  | nil =>
    have hsplit : events.count e =
        (events.filter (!·.valid)).count e + (events.filter (·.valid)).count e := by
      have hperm := (List.filter_append_perm (·.valid) events).count_eq e
      rw [List.count_append] at hperm
      omega
    have hbefore : held s e = held { s with emitting := none } e + events.count e := by
      simp only [held, onTheWay, hemitting, Option.elim_some, Option.elim_none, List.count_append,
        List.nil_append]
      omega
    simp only [emit]
    split_ifs with hkept
    · rw [held_leaveOut, hbefore, hsplit, hkept, List.count_nil, Nat.add_zero]
    · rw [held_enqueue, held_leaveOut, hbefore, hsplit]
      simp only [Frame.changes]
      omega

private theorem held_tick (now : Int) (hidle : s.emitting = none) (e : FsWatch.Event) :
    held (s.tick now) e = held s e + (s.coalescer.flush now).2.1.count e := by
  have hway : onTheWay (s.tick now) = (s.coalescer.flush now).2.1 ++
      s.queue.flatMap Frame.changes ++ (s.sending.elim [] (·.frame.changes)) := rfl
  have hhistory : (s.tick now).history = s.history := rfl
  rw [held, held, hway, hhistory]
  simp only [onTheWay, hidle, Option.elim_none, List.count_append, List.nil_append]
  omega

variable {order : List Notice} {ok : Bool} {frame : Frame} {x : String}

private theorem held_receive (hidle : s.sending = none)
    (ht : s.receive order = some t) (e : FsWatch.Event) : held t e = held s e := by
  revert ht
  fun_cases receive s order <;> intro ht <;> cases ht
  next frame rest hqueue hsink =>
    simp only [held, onTheWay, note, hqueue, List.flatMap_cons, List.count_append,
      delivered_cons_discarded, discarded_cons_discarded]
    omega
  next frame rest hqueue sink hsink hperm =>
    simp only [held, onTheWay, hqueue, hidle, List.flatMap_cons, List.count_append,
      Option.elim_some, Option.elim_none, List.count_nil]
    omega

private theorem held_deliver (ht : s.deliver cfg ok = some t) (e : FsWatch.Event) :
    held t e = held s e := by
  revert ht
  fun_cases deliver cfg s ok <;> intro ht <;> cases ht
  next sink n pending frame hsending =>
    rw [held_note_attempt]
    simp only [held, onTheWay, hsending, Frame.changes, List.count_nil, Option.elim_some]
    rfl
  next sink frame hsending =>
    rw [held_note_attempt]
    simp only [held, onTheWay, hsending, List.count_append, Option.elim_some, Option.elim_none,
      List.count_nil]
    omega

/-- What `emit` comes to for what was lost before: some frames may be discarded, none of them for
want of a sink. -/
structure Neutral (s t : Outbound) : Prop where
  taken : t.taken = s.taken
  sending : t.sending = s.sending
  disconnected : t.disconnected = s.disconnected
  history : ∃ more, t.history = more ++ s.history ∧
    ∀ entry ∈ more, ∃ frame cause, entry = .discarded frame cause ∧ cause ≠ .disconnected

private theorem Neutral.of_history (taken : t.taken = s.taken) (sending : t.sending = s.sending)
    (disconnected : t.disconnected = s.disconnected) (history : t.history = s.history) :
    Neutral s t :=
  ⟨taken, sending, disconnected, [], history, nofun⟩

private theorem Neutral.trans {u : Outbound} (h : Neutral s t) (h' : Neutral t u) :
    Neutral s u := by
  obtain ⟨more, hmore, hall⟩ := h.history
  obtain ⟨more', hmore', hall'⟩ := h'.history
  refine ⟨h'.taken.trans h.taken, h'.sending.trans h.sending,
    h'.disconnected.trans h.disconnected, more' ++ more, ?_, ?_⟩
  · rw [hmore', hmore, List.append_assoc]
  · intro entry hentry
    rcases List.mem_append.mp hentry with hin | hin
    · exact hall' entry hin
    · exact hall entry hin

private theorem neutral_note {cause : Cause} (h : cause ≠ .disconnected) :
    Neutral s (s.note (.discarded frame cause)) := by
  refine ⟨rfl, rfl, rfl, [.discarded frame cause], rfl, ?_⟩
  intro entry hentry
  exact ⟨frame, cause, List.mem_singleton.mp hentry, h⟩

private theorem neutral_enqueue (frame : Frame) : Neutral s (s.enqueue cfg frame) := by
  rw [enqueue]
  split_ifs
  · exact .of_history rfl rfl rfl rfl
  · exact neutral_note nofun

private theorem neutral_leaveOut (events : List FsWatch.Event) : Neutral s (s.leaveOut events) := by
  rw [leaveOut]
  split_ifs
  · exact .of_history rfl rfl rfl rfl
  · exact neutral_note nofun

private theorem neutral_emit (work : List Notice × List FsWatch.Event) :
    Neutral s (s.emit cfg work) := by
  obtain ⟨notices, events⟩ := work
  cases notices with
  | cons n notices =>
    have hfirst : Neutral s { s with emitting := some (notices, events) } :=
      .of_history rfl rfl rfl rfl
    exact hfirst.trans (neutral_enqueue (.notice n))
  | nil =>
    have hfirst : Neutral s { s with emitting := none } := .of_history rfl rfl rfl rfl
    have hleft := hfirst.trans (neutral_leaveOut (events.filter (!·.valid)))
    simp only [emit]
    split_ifs
    · exact hleft
    · exact hleft.trans (neutral_enqueue _)

/-- A loss that was announced, or whose notice was refused, stays so. -/
theorem Fate.mono {after : List Entry} (h : Fate s after x) (more : List Entry)
    (hsending : t.sending = s.sending) (hdisconnected : x ∈ s.disconnected → x ∈ t.disconnected)
    (hmore : ∀ frame, Entry.sent frame ∉ more) : Fate t (more ++ after) x := by
  cases h with
  | tallied hmem hquiet =>
    refine .tallied (hdisconnected hmem) ?_
    intro frame hframe
    rcases List.mem_append.mp hframe with hin | hin
    · exact hmore frame hin
    · exact hquiet frame hin
  | pending hs hn hexport hpath => exact .pending (hsending.trans hs) hn hexport hpath
  | told hsent hexport hpath => exact .told (List.mem_append_right more hsent) hexport hpath
  | refused hfailed hexport => exact .refused (List.mem_append_right more hfailed) hexport

private theorem Neutral.inv (hn : Neutral s t) (h : Inv s) (hheld : ∀ e, held t e = held s e) :
    Inv t := by
  obtain ⟨more, hhistory, hall⟩ := hn.history
  refine ⟨?_, ?_, ?_⟩
  · intro e
    rw [hn.taken, hheld, h.account]
  · intro after frame before hsplit e he
    -- What was lost for want of a sink was lost before.
    have hold : ∃ after', after = more ++ after' ∧
        s.history = after' ++ .discarded frame .disconnected :: before := by
      rw [hhistory] at hsplit
      rcases List.append_eq_append_iff.mp hsplit with ⟨after', hafter, hs⟩ | ⟨rest, hmore, hs⟩
      · exact ⟨after', hafter, hs⟩
      · cases rest with
        | nil =>
          refine ⟨[], ?_, ?_⟩
          · rw [hmore, List.append_nil, List.append_nil]
          · exact hs.symm
        | cons entry rest =>
          exfalso
          obtain ⟨frame', cause, hentry, hcause⟩ := hall entry (by
            rw [hmore]
            exact List.mem_append_right after (.head _))
          rw [List.cons_append] at hs
          have hhead := List.head_eq_of_cons_eq hs
          rw [hentry] at hhead
          cases hhead
          exact hcause rfl
    obtain ⟨after', rfl, hs⟩ := hold
    refine (h.fate after' frame before hs e he).mono more hn.sending (hn.disconnected ▸ id) ?_
    intro frame' hframe'
    obtain ⟨frame'', cause, hentry, -⟩ := hall _ hframe'
    cases hentry
  · rw [hn.sending, hn.disconnected]
    exact h.alone

private theorem mem_tally {m : AList fun _ : String ↦ Nat} {events : List FsWatch.Event} :
    x ∈ tally m events ↔ x ∈ m ∨ ∃ e ∈ events, e.exportPath = x := by
  induction events generalizing m with
  | nil => simp [tally]
  | cons e events ih =>
    rw [tally, List.foldl_cons, ← tally, ih, AList.mem_insert]
    simp only [List.mem_cons, exists_eq_or_imp]
    tauto

private theorem exists_announced (hperm : order.isPerm s.takeDisconnected = true)
    (hmem : x ∈ s.disconnected) :
    ∃ n ∈ order, n.exportPath = x ∧ n.path = [] := by
  obtain ⟨count, hcount⟩ := exists_lookup hmem
  refine ⟨⟨x, [], count, .disconnected⟩, ?_, rfl, rfl⟩
  rw [(List.isPerm_iff.mp hperm).mem_iff]
  exact List.mem_map.mpr ⟨⟨x, count⟩, AList.mem_lookup_iff.mp hcount, rfl⟩

private theorem Inv.receive (h : Inv s) (hidle : s.sending = none)
    (ht : s.receive order = some t) : Inv t := by
  have hheld := held_receive hidle ht
  revert ht hheld
  fun_cases Outbound.receive s order <;> intro ht hheld <;> cases ht
  next frame rest hqueue hsink =>
    refine ⟨fun e ↦ (h.account e).trans (hheld e).symm, ?_, ?_⟩
    · intro after frame' before hsplit e he
      rcases List.cons_eq_append_iff.mp hsplit with ⟨rfl, hnow⟩ | ⟨after', rfl, hs⟩
      · cases hnow
        exact .tallied (mem_tally.mpr (.inr ⟨e, he, rfl⟩)) fun _ ↦ List.not_mem_nil
      · have hold := h.fate after' frame' before hs e he
        refine hold.mono [.discarded frame .disconnected]
          rfl (fun hmem ↦ mem_tally.mpr (.inl hmem)) ?_
        simp
    · intro hsome
      change s.sending.isSome = true at hsome
      rw [hidle] at hsome
      cases hsome
  next frame rest hqueue sink hsink hperm =>
    refine ⟨fun e ↦ (h.account e).trans (hheld e).symm, ?_, fun _ ↦ rfl⟩
    intro after frame' before hsplit e he
    cases h.fate after frame' before hsplit e he with
    | tallied hmem hquiet =>
      obtain ⟨n, hn, hexport, hpath⟩ := exists_announced hperm hmem
      exact .pending rfl hn hexport hpath
    | pending hsending =>
      rw [hidle] at hsending
      cases hsending
    | told hsent hexport hpath => exact .told hsent hexport hpath
    | refused hfailed hexport => exact .refused hfailed hexport

/-- A frame that is sent or refused is not one that was lost for want of a sink. -/
theorem attempt_ne {frame' : Frame} : attempt cfg frame ok ≠ .discarded frame' .disconnected := by
  rw [attempt]
  split_ifs <;> nofun

/-- One more frame was sent or refused: of a loss whose notice it is, this is the announcement. -/
theorem Inv.sent (h : Inv s) {sending : Sending} (hsending : s.sending = some sending)
    {after : Option Sending}
    (hpending : ∀ n ∈ sending.pending, frame = .notice n ∨
      ∃ sending', after = some sending' ∧ n ∈ sending'.pending)
    (hheld : ∀ e, held ({ s with sending := after }.note (attempt cfg frame ok)) e = held s e) :
    Inv ({ s with sending := after }.note (attempt cfg frame ok)) where
  account e := (h.account e).trans (hheld e).symm
  fate := by
    intro later frame' before hsplit e he
    rcases List.cons_eq_append_iff.mp hsplit with ⟨rfl, hnow⟩ | ⟨later', rfl, hs⟩
    · exact absurd (List.head_eq_of_cons_eq hnow).symm attempt_ne
    · cases h.fate later' frame' before hs e he with
      | tallied hmem =>
        rw [h.alone (by rw [hsending]; rfl)] at hmem
        cases hmem
      | @pending sending' n hsending' hn hexport hpath =>
        rw [hsending] at hsending'
        cases hsending'
        rcases hpending n hn with rfl | ⟨rest, hrest, hin⟩
        · by_cases hok : cfg.size (.notice n) + 1 ≤ maxFrame ∧ ok = true
          · refine .told (n := n) ?_ hexport hpath
            rw [attempt, if_pos hok]
            exact (.head _)
          · refine .refused (n := n) ?_ hexport
            rw [attempt, if_neg hok]
            exact (.head _)
        · exact .pending hrest hin hexport hpath
      | told hsent hexport hpath => exact .told (.tail _ hsent) hexport hpath
      | refused hfailed hexport => exact .refused (.tail _ hfailed) hexport
  alone _ := h.alone (by rw [hsending]; rfl)

private theorem Inv.deliver (h : Inv s) (ht : s.deliver cfg ok = some t) : Inv t := by
  have hheld := held_deliver ht
  revert ht hheld
  fun_cases Outbound.deliver cfg s ok <;> intro ht hheld <;> cases ht
  next sink n pending frame hsending =>
    refine h.sent hsending ?_ hheld
    intro n' hn'
    rcases List.mem_cons.mp hn' with rfl | hin
    · exact .inl rfl
    · exact .inr ⟨_, rfl, hin⟩
  next sink frame hsending => exact h.sent hsending nofun hheld

private theorem Inv.step (h : Inv s) {e : Event} (ht : Outbound.step cfg s e = some t) : Inv t := by
  have hsame : ∀ u : Outbound, u.taken = s.taken → u.sending = s.sending →
      u.disconnected = s.disconnected → u.history = s.history → u.emitting = s.emitting →
      u.queue = s.queue → Inv u := by
    intro u htaken hsending hdisconnected hhistory hemitting hqueue
    refine (Neutral.of_history htaken hsending hdisconnected hhistory).inv h ?_
    intro e
    rw [held, held, onTheWay, onTheWay, hhistory, hemitting, hqueue, hsending]
  cases e with
  | add now e =>
    simp only [Outbound.step] at ht
    split_ifs at ht
    cases ht
    exact hsame _ rfl rfl rfl rfl rfl rfl
  | missed exports =>
    simp only [Outbound.step] at ht
    split_ifs at ht
    cases ht
    exact hsame _ rfl rfl rfl rfl rfl rfl
  | tick now =>
    simp only [Outbound.step] at ht
    split_ifs at ht with hbusy
    cases ht
    rw [not_or, Option.not_isSome_iff_eq_none] at hbusy
    refine ⟨?_, ?_, h.alone⟩
    · intro e
      rw [held_tick now hbusy.2, ← h.account]
      exact List.count_append
    · intro after frame before hsplit e he
      exact (h.fate after frame before hsplit e he).mono [] rfl id fun _ ↦ List.not_mem_nil
  | emit =>
    obtain ⟨⟨notices, events⟩, hemitting, rfl⟩ := Option.map_eq_some_iff.mp ht
    exact (neutral_emit _).inv h (held_emit hemitting)
  | setSink sink =>
    cases ht
    exact hsame _ rfl rfl rfl rfl rfl rfl
  | receive order =>
    simp only [Outbound.step] at ht
    split_ifs at ht with hbusy
    rw [not_or, Option.not_isSome_iff_eq_none] at hbusy
    exact h.receive hbusy.2 ht
  | deliver ok => exact h.deliver ht
  | close =>
    cases ht
    exact hsame _ rfl rfl rfl rfl rfl rfl
  | endProcess =>
    simp only [Outbound.step] at ht
    split_ifs at ht
    cases ht
    exact hsame _ rfl rfl rfl rfl rfl rfl
  | endSend =>
    simp only [Outbound.step] at ht
    split_ifs at ht
    cases ht
    exact hsame _ rfl rfl rfl rfl rfl rfl

/-- Every event taken out of the coalescer was sent, was discarded or is on its way. Where one was
discarded for want of a sink and something was sent since, a notice for all of its export was sent
since or is about to be, unless the sink refused it. -/
theorem loss_announced (cfg : Config) (c : Coalescer) {es : List Event} {s : Outbound}
    (hr : (machine cfg).run { coalescer := c } es = some s) :
    s.taken.Perm (delivered s.history ++ discarded s.history ++ onTheWay s) ∧
      ∀ after frame cause before, s.history = after ++ .discarded frame cause :: before →
        ∀ e ∈ frame.changes, cause = .disconnected →
          (∀ n : Notice, n.exportPath = e.exportPath →
            Entry.discarded (.notice n) .sendFailed ∉ after) →
          (∃ later, Entry.sent later ∈ after) →
          ∃ n : Notice, n.exportPath = e.exportPath ∧ n.path = [] ∧
            (Entry.sent (.notice n) ∈ after ∨
              ∃ sending, s.sending = some sending ∧ n ∈ sending.pending) := by
  have hinv : Inv s :=
    (machine cfg).run_invariant_all (fun _ _ _ h ht ↦ h.step ht) (inv_start c) hr
  constructor
  · rw [List.perm_iff_count]
    intro e
    rw [hinv.account, held, List.count_append, List.count_append]
  · rintro after frame cause before hsplit e he rfl htaken ⟨later, hlater⟩
    cases hinv.fate after frame before hsplit e he with
    | tallied hmem hquiet => exact absurd hlater (hquiet later)
    | @pending sending n hsending hn hexport hpath =>
      exact ⟨n, hexport, hpath, .inr ⟨sending, hsending, hn⟩⟩
    | @told n hsent hexport hpath => exact ⟨n, hexport, hpath, .inl hsent⟩
    | @refused n hfailed hexport => exact absurd hfailed (htaken n hexport)

def changed (name : String) : FsWatch.Event :=
  ⟨"/m/0123456789abcdef", [name], { write := true }, false⟩

/-- The changes are added and flushed, and what comes of them is queued. -/
def flushed (now : Int) (names : List String) : List Event :=
  names.map (fun name ↦ .add now (changed name)) ++ [.tick (now + 1000000000), .emit]

def roomy : Config := { size := fun _ ↦ 100 }

/-- A change is lost for want of a sink; the next is sent. -/
def reconnected : List Event :=
  List.flatten
    [flushed 0 ["a"], [.receive [], .setSink (some 1)], flushed 2000000000 ["b"],
      [.receive [⟨"/m/0123456789abcdef", [], 1, .disconnected⟩], .deliver true, .deliver true]]

theorem loss_announced_reconnected :
    ∃ s, (machine roomy).run {} reconnected = some s ∧
      ∃ n : Notice, n.exportPath = "/m/0123456789abcdef" ∧ n.path = [] ∧
        (Entry.sent (.notice n) ∈ s.history ∨
          ∃ sending, s.sending = some sending ∧ n ∈ sending.pending) := by
  obtain ⟨s, hs, hhistory⟩ : ∃ s, (machine roomy).run {} reconnected = some s ∧ s.history =
      [.sent (.events [changed "b"]),
        .sent (.notice ⟨"/m/0123456789abcdef", [], 1, .disconnected⟩)] ++
        .discarded (.events [changed "a"]) .disconnected :: [] := by decide +kernel
  obtain ⟨n, hexport, hpath, hn⟩ := (loss_announced roomy {} hs).2 _ _ _ _ hhistory (changed "a")
    (.head _) rfl (by simp) ⟨_, (.head _)⟩
  refine ⟨s, hs, n, hexport, hpath, ?_⟩
  rw [hhistory]
  exact hn.imp_left (List.mem_append_left _)

/-- What a run left: what was taken out of the coalescer, what became of it and what is yet to be
announced. -/
def outcome (s : Outbound) : List FsWatch.Event × List Entry × Option Sending × List String :=
  (s.taken, s.history, s.sending, s.disconnected.keys)

def refused : List Event :=
  List.flatten
    [[.setSink (some 1)], flushed 0 ["a"], [.receive [], .deliver false],
      flushed 2000000000 ["b"], [.receive [], .deliver true]]

def crowded : List Event :=
  List.flatten
    [[.setSink (some 1)], flushed 0 ["a"], flushed 2000000000 ["b"], [.receive [], .deliver true]]

def tooLong : List Event :=
  List.flatten
    [[.setSink (some 1)], flushed 0 ["a", "b"], [.receive [], .deliver true],
      flushed 2000000000 ["c"], [.receive [], .deliver true]]

/-- A frame the sink refuses, one the queue has no room for and one that is too long for the agent
are gone, and nothing says so: another frame is sent after them, and no notice with it. -/
theorem lost_silently :
    ((machine roomy).run {} refused).map outcome =
      some ([changed "a", changed "b"],
        [.sent (.events [changed "b"]), .discarded (.events [changed "a"]) .sendFailed], none, []) ∧
    ((machine { roomy with queueLen := 1 }).run {} crowded).map outcome =
      some ([changed "a", changed "b"],
        [.sent (.events [changed "a"]), .discarded (.events [changed "b"]) .queueFull], none, []) ∧
    ((machine { size := fun frame ↦ frame.changes.length * 600000 }).run {} tooLong).map outcome =
      some ([changed "a", changed "b", changed "c"],
        [.sent (.events [changed "c"]),
          .discarded (.events [changed "a", changed "b"]) .sendFailed], none, []) := by
  refine ⟨?_, ?_, ?_⟩
  · decide +kernel
  · decide +kernel
  · decide +kernel

end RemoteDocker.FsWatch.Outbound

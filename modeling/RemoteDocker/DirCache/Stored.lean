import RemoteDocker.DirCache.Prefetch

/-!
# A complete prefetch has sent what it marked

Three things are marked stored that went nowhere: a batch whose send found no store, since
`sendBatch` then reports no error, a file that the store could not read, and the demand batches
still waiting when the sender looks whether it is done (`done_without_sending`). `careful` keeps to
the runs without them. There every file marked stored is settled or on its way (`State.Accounted`),
and a share is reported complete only when nothing is on its way (`Figures`).
-/

namespace RemoteDocker.DirCache.Prefetch

open Base

/-! ### What becomes of what is stored -/

/-- The share says what became of the file at a path. -/
def State.Settled (s : State) (p : SharePath) : Prop := ∃ fate, (p, fate) ∈ s.settled

/-- A batch with the file at a path waits to be sent. -/
def State.Queued (s : State) (p : SharePath) : Prop :=
  ∃ batch ∈ s.queue, p ∈ batch.map (·.path)

def State.Sending (s : State) (p : SharePath) : Prop :=
  ∃ batch demand, s.sender = .sending batch demand ∧ p ∈ batch.map (·.path)

/-- Every file is stored, and nothing waits or is being sent. -/
structure State.AllIn (s : State) : Prop where
  walked : s.walked = true
  stored : ∀ f ∈ s.tree, f.stored = true
  queue : s.queue = []
  still : ∀ batch demand, s.sender ≠ .sending batch demand

/-- Every file marked stored is settled, or on its way. -/
def State.Accounted (s : State) : Prop :=
  ∀ f ∈ s.tree, f.stored = true →
    s.Settled f.entry.path ∨ s.Queued f.entry.path ∨ s.Sending f.entry.path

/-- The runs the property holds in: every send finds a store that reads what it is to send, and the
sender looks whether it is done while no demand batch waits. -/
def careful (cfg : Config) (s : State) : Event → Bool
  | .send _ .absent => false
  | .send _ (.present here changes apply) =>
    match s.sender with
    | .sending batch _ =>
      (sendBatch cfg s.share batch (.present here changes apply)).unread.isEmpty
    | _ => true
  | .look => s.queue.isEmpty
  | _ => true

variable {cfg : Config} {s s' : State} {e : Event}

private theorem State.AllIn.settled (h : s.AllIn) (hacc : s.Accounted) :
    ∀ f ∈ s.tree, f.stored = true → s.Settled f.entry.path := by
  intro f hf hst
  rcases hacc f hf hst with hset | ⟨batch, hb, -⟩ | ⟨batch, demand, hb, -⟩
  · exact hset
  · rw [h.queue] at hb
    simp at hb
  · exact absurd hb (h.still batch demand)

/-- A send that found a store, read everything and did not fail says what became of every entry. -/
theorem settled_of_sendBatch {share : Share} {batch : List Entry} {answer : Answer}
    (hanswer : answer ≠ .absent) (hread : (sendBatch cfg share batch answer).unread = [])
    (hok : (sendBatch cfg share batch answer).ok = true) :
    ∀ e ∈ batch, ∃ fate, (e.path, fate) ∈ (sendBatch cfg share batch answer).settled := by
  intro e he
  cases answer with
  | absent => exact absurd rfl hanswer
  | present here changes apply =>
    simp only [sendBatch] at hok hread ⊢
    split
    · next h => simp [h] at hok
    · next sendable h =>
      by_cases hsend : sendable.contains e = true
      · have hne : sendable.isEmpty = false := by
          rw [List.isEmpty_eq_false_iff]
          exact List.ne_nil_of_mem (List.contains_iff_mem.mp hsend)
        rw [hne, if_neg Bool.false_ne_true]
        simp only [h, hne, Bool.false_eq_true, if_false] at hok hread
        cases apply with
        | error m => simp at hok
        | ok applied =>
          have hmem := List.contains_iff_mem.mp hsend
          have hsome := List.filter_eq_nil_iff.mp (List.map_eq_nil_iff.mp hread) e hmem
          rw [Option.isNone_iff_eq_none] at hsome
          obtain ⟨fate, hfate⟩ := Option.ne_none_iff_exists'.mp hsome
          refine ⟨fate, List.mem_append_right _ ?_⟩
          exact List.mem_filterMap.mpr ⟨e, hmem, by rw [hfate]; rfl⟩
      · have hheld : (e.path, Fate.withheld) ∈
            (batch.filter (!sendable.contains ·)).map fun e ↦ (e.path, Fate.withheld) := by
          apply List.mem_map.mpr
          refine ⟨e, List.mem_filter.mpr ⟨he, ?_⟩, rfl⟩
          simpa using hsend
        refine ⟨.withheld, ?_⟩
        split
        · exact hheld
        · next hne =>
          cases apply with
          | error m => simp [h, hne] at hok
          | ok applied => exact List.mem_append_left _ hheld

/-! ### One step -/

section

variable (h : s.Accounted)

include h

private theorem accounted_touch (now : Int) (path : SharePath)
    (picked : List SharePath) : (s.touch now path picked).Accounted := by
  rw [State.touch]
  split
  · intro f hf hst
    rcases Tree.of_mem_read hf hst with hold | hgot
    · rcases h f hold hst with hset | ⟨batch, hb, hp⟩ | hsending
      · exact .inl hset
      · refine .inr (.inl ⟨batch, ?_, hp⟩)
        dsimp only
        split
        · exact hb
        · exact List.mem_append_left _ hb
      · exact .inr (.inr hsending)
    · refine .inr (.inl ⟨(s.tree.read path picked).2, ?_, List.mem_map_of_mem hgot⟩)
      have hne : (s.tree.read path picked).2.isEmpty = false := by
        rw [List.isEmpty_eq_false_iff]
        exact List.ne_nil_of_mem hgot
      dsimp only
      rw [hne, if_neg Bool.false_ne_true]
      exact List.mem_append_right _ (.head _)
  · exact h

private theorem accounted_flush (localAt : SharePath → Option FileInfo)
    (entries : List Entry) : (s.flush localAt entries).Accounted := by
  intro f hf hst
  rcases Tree.of_mem_mark hf hst with hadded | ⟨hheld, -⟩
  · rcases h f (Tree.of_mem_add hadded hst) hst with ⟨fate, hset⟩ | hrest
    · exact .inl ⟨fate, List.mem_append_left _ hset⟩
    · exact .inr hrest
  · left
    exact ⟨.held, List.mem_append_right _ (List.mem_map_of_mem hheld)⟩

private theorem accounted_next (hloop : s.sender = .loop) (now : Int) :
    (s.next cfg now).Accounted := by
  have hlooking : ({ s with sender := .looking } : State).Accounted := by
    intro f hf hst
    rcases h f hf hst with hset | hq | ⟨batch, demand, hb, -⟩
    · exact .inl hset
    · exact .inr (.inl hq)
    · rw [hloop] at hb
      simp at hb
  fun_cases State.next cfg s now
  case case2 batch queue hqueue =>
    intro f hf hst
    rcases h f hf hst with hset | ⟨b, hb, hp⟩ | ⟨b, demand, hb, -⟩
    · exact .inl hset
    · rw [hqueue, List.mem_cons] at hb
      rcases hb with rfl | hb
      · exact .inr (.inr ⟨b, true, rfl, hp⟩)
      · exact .inr (.inl ⟨b, hb, hp⟩)
    · rw [hloop] at hb
      simp at hb
  case case6 =>
    intro f hf hst
    rcases Tree.of_mem_unstored hf hst with hold | hgot
    · rcases hlooking f hold hst with hset | hq | ⟨b, demand, hb, -⟩
      · exact .inl hset
      · exact .inr (.inl hq)
      · cases hb
    · exact .inr (.inr ⟨_, false, rfl, hgot⟩)
  all_goals exact hlooking

private theorem accounted_send {batch : List Entry} {demand : Bool}
    (hsending : s.sender = .sending batch demand) (now : Int) {answer : Answer}
    (hanswer : answer ≠ .absent) (hread : (sendBatch cfg s.share batch answer).unread = []) :
    (s.send cfg now batch answer).Accounted := by
  simp only [State.send]
  split
  · next hok =>
    intro f hf hst
    rcases h f hf hst with ⟨fate, hset⟩ | hq | ⟨b, d, hb, hp⟩
    · exact .inl ⟨fate, List.mem_append_left _ hset⟩
    · exact .inr (.inl hq)
    · rw [hsending, Sender.sending.injEq] at hb
      rw [← hb.1, List.mem_map] at hp
      obtain ⟨e, he, hpath⟩ := hp
      obtain ⟨fate, hfate⟩ := settled_of_sendBatch hanswer hread hok e he
      rw [hpath] at hfate
      exact .inl ⟨fate, List.mem_append_right _ hfate⟩
  · intro f hf hst
    obtain ⟨hold, hnot⟩ := Tree.of_mem_unstore hf hst
    rcases h f hold hst with hset | hq | ⟨b, d, hb, hp⟩
    · exact .inl hset
    · exact .inr (.inl hq)
    · rw [hsending, Sender.sending.injEq] at hb
      rw [← hb.1] at hp
      exact absurd hp hnot

/-- A step of the sender that touches no file keeps the account, if it was not sending. -/
theorem State.Accounted.still (htree : s'.tree = s.tree)
    (hqueue : s'.queue = s.queue) (hsettled : s'.settled = s.settled)
    (hsender : (∀ batch demand, s.sender ≠ .sending batch demand) ∨ s'.sender = s.sender) :
    s'.Accounted := by
  intro f hf hst
  rw [htree] at hf
  rcases h f hf hst with ⟨fate, hset⟩ | ⟨batch, hb, hp⟩ | ⟨batch, demand, hb, hp⟩
  · left
    rw [← hsettled] at hset
    exact ⟨fate, hset⟩
  · right
    left
    rw [← hqueue] at hb
    exact ⟨batch, hb, hp⟩
  · right
    right
    rcases hsender with hno | hsame
    · exact absurd hb (hno batch demand)
    · rw [← hsame] at hb
      exact ⟨batch, demand, hb, hp⟩

/-- Where a later attach leaves the account. -/
theorem accounted_raise (policy : Policy) : (s.raise policy).Accounted := by
  fun_cases State.raise s policy
  case case1 | case2 => exact h
  case case3 => exact h.still rfl rfl rfl (.inr rfl)
  case case4 =>
    intro f hf
    simp at hf

end

private theorem look_eq (cfg : Config) (s : State) : ∃ sender, s.look cfg = { s with sender } ∧
    ∀ batch demand, sender ≠ .sending batch demand := by
  fun_cases State.look cfg s <;> exact ⟨_, rfl, by simp⟩

private theorem accounted_step (h : s.Accounted) (hc : careful cfg s e = true)
    (hs : Steps cfg s e s') :
    s'.Accounted := by
  cases hs with
  | raise policy => exact accounted_raise h policy
  | flush localAt entries => exact accounted_flush h localAt entries
  | walkOver | walkStats | elsewhere share => exact h.still rfl rfl rfl (.inr rfl)
  | touch now path picked => exact accounted_touch h now path picked
  | wake hstarted hwaiting =>
    refine h.still rfl rfl rfl (.inl ?_)
    rw [hwaiting]
    simp
  | next now hloop => exact accounted_next h hloop now
  | send now answer hsending =>
    cases answer with
    | absent => cases hc
    | present here changes apply =>
      simp only [careful, hsending] at hc
      exact accounted_send h hsending now nofun (List.isEmpty_iff.mp hc)
  | look hlooking =>
    obtain ⟨sender, heq, -⟩ := look_eq cfg s
    rw [heq]
    refine h.still rfl rfl rfl (.inl ?_)
    rw [hlooking]
    simp
  | note hnoting =>
    refine h.still rfl rfl rfl (.inl ?_)
    rw [hnoting]
    simp
  | finishAgain hfinishing | finish hfinishing =>
    refine h.still rfl rfl rfl (.inl ?_)
    rw [hfinishing]
    simp

private theorem allIn_step (h : s.AllIn) (hstarted : s.started = true) (hs : Steps cfg s e s') :
    s'.AllIn := by
  cases hs with
  | raise policy =>
    rw [State.raise, if_pos hstarted]
    split_ifs
    · exact h
    · exact h
    · exact ⟨h.walked, h.stored, h.queue, h.still⟩
  | flush localAt entries _ hwalking | walkOver _ hwalking =>
    exact absurd (hwalking.symm.trans h.walked) Bool.false_ne_true
  | walkStats | elsewhere share => exact ⟨h.walked, h.stored, h.queue, h.still⟩
  | touch now path picked =>
    simp only [State.touch, Tree.read_of_all h.stored]
    split
    · exact ⟨h.walked, h.stored, h.queue, h.still⟩
    · exact h
  | wake | note | finishAgain | finish => exact ⟨h.walked, h.stored, h.queue, by simp⟩
  | next now =>
    simp only [State.next, h.queue, Tree.unstored_of_all h.stored, List.isEmpty_nil, if_true,
      ite_self]
    exact ⟨h.walked, h.stored, rfl, by simp⟩
  | send now answer hsending => exact absurd hsending (h.still _ _)
  | look =>
    obtain ⟨sender, heq, hno⟩ := look_eq cfg s
    rw [heq]
    exact ⟨h.walked, h.stored, h.queue, hno⟩

/-! ### What is reported -/

def Sender.reporting : Sender → Bool
  | .noting .. | .finishing .. => true
  | _ => false

/-- What the figures say: a share is reported complete only with all in. -/
structure Figures (s : State) : Prop where
  sized : s.tree.length ≤ s.total
  total : s.stats.totalFiles = 0 ∨ s.walked = true ∧ s.stats.totalFiles = s.total
  idle : s.started = false → s.tree = [] ∧ s.stats.totalFiles = 0 ∧ s.sender = .waiting
  noting : ∀ left files, s.sender = .noting left files →
    (left = 0 → s.AllIn) ∧ (0 < left → 0 < files ∧ files < s.total)
  finishing : ∀ left, s.sender = .finishing left →
    (left = 0 → s.AllIn) ∧
      (0 < left → 0 < s.total ∧ (s.done = false → s.stats.complete = false))
  finished : s.done = true → s.started = true →
    s.AllIn ∨ s.cached = false ∧ 0 < s.total ∧ s.stats.complete = false

structure Unreported (s s' : State) : Prop where
  stats : s'.stats = s.stats
  done : s'.done = s.done
  cached : s'.cached = s.cached
  started : s'.started = s.started
  sender : s'.sender = s.sender ∨ s'.sender.reporting = false

private theorem Figures.keep (h : Figures s) (hu : Unreported s s')
    (hall : s.started = true → s.AllIn → s'.AllIn)
    (hidle : s.started = false → s'.tree = s.tree ∧ s'.sender = s.sender)
    (hsized : s'.tree.length ≤ s'.total) (hwalked : s.walked = true → s'.walked = true)
    (htotal : s.total ≤ s'.total) (hfixed : s.walked = true → s'.total = s.total) :
    Figures s' := by
  obtain ⟨hstats, hdone, hcached, hstarted, hsender⟩ := hu
  have hrun : s'.sender.reporting = true → s.started = true := by
    intro hrep
    by_contra hno
    rw [Bool.not_eq_true] at hno
    rw [(hidle hno).2, (h.idle hno).2.2] at hrep
    simp [Sender.reporting] at hrep
  have hsame : s'.sender.reporting = true → s.sender = s'.sender := by
    intro hrep
    rcases hsender with heq | hnot
    · exact heq.symm
    · rw [hnot] at hrep
      simp at hrep
  constructor
  case sized => exact hsized
  case total =>
    rw [hstats]
    rcases h.total with hzero | ⟨hw, heq⟩
    · exact .inl hzero
    · exact .inr ⟨hwalked hw, heq.trans (hfixed hw).symm⟩
  case idle =>
    intro hno
    rw [hstarted] at hno
    obtain ⟨htree, htot, hwait⟩ := h.idle hno
    rw [hstats, (hidle hno).1, (hidle hno).2]
    exact ⟨htree, htot, hwait⟩
  case noting =>
    intro left files hs
    have hrep : s'.sender.reporting = true := by
      rw [hs]
      rfl
    obtain ⟨hzero, hpos⟩ := h.noting left files ((hsame hrep).trans hs)
    refine ⟨fun hl ↦ hall (hrun hrep) (hzero hl), fun hl ↦ ?_⟩
    have := hpos hl
    omega
  case finishing =>
    intro left hs
    have hrep : s'.sender.reporting = true := by
      rw [hs]
      rfl
    obtain ⟨hzero, hpos⟩ := h.finishing left ((hsame hrep).trans hs)
    refine ⟨fun hl ↦ hall (hrun hrep) (hzero hl), fun hl ↦ ?_⟩
    obtain ⟨htot, hincomplete⟩ := hpos hl
    rw [hstats, hdone]
    exact ⟨by omega, hincomplete⟩
  case finished =>
    rw [hdone, hstarted, hstats, hcached]
    intro hd hst
    rcases h.finished hd hst with hin | ⟨hc, htot, hincomplete⟩
    · exact .inl (hall hst hin)
    · exact .inr ⟨hc, by omega, hincomplete⟩

private theorem Figures.same (h : Figures s) (hu : Unreported s s')
    (hall : s.started = true → s.AllIn → s'.AllIn) (hrun : s.started = true)
    (hlength : s'.tree.length = s.tree.length) (hwalked : s'.walked = s.walked)
    (htotal : s'.total = s.total) : Figures s' := by
  apply h.keep hu hall
  · intro hno
    exact absurd (hno.symm.trans hrun) Bool.false_ne_true
  · rw [hlength, htotal]
    exact h.sized
  · rw [hwalked]
    exact id
  · exact htotal.ge
  · exact fun _ ↦ htotal

private theorem next_frame (cfg : Config) (s : State) (now : Int) : Unreported s (s.next cfg now) ∧
    (s.next cfg now).tree.length = s.tree.length ∧ (s.next cfg now).walked = s.walked ∧
      (s.next cfg now).total = s.total := by
  fun_cases State.next cfg s now
  case case6 => exact ⟨⟨rfl, rfl, rfl, rfl, .inr rfl⟩, Tree.length_unstored _ _, rfl, rfl⟩
  all_goals exact ⟨⟨rfl, rfl, rfl, rfl, .inr rfl⟩, rfl, rfl, rfl⟩

private theorem send_frame (cfg : Config) (s : State) (now : Int) (batch : List Entry)
    (answer : Answer) :
    Unreported s (s.send cfg now batch answer) ∧
      (s.send cfg now batch answer).tree.length = s.tree.length ∧
      (s.send cfg now batch answer).walked = s.walked ∧
      (s.send cfg now batch answer).total = s.total := by
  simp only [State.send]
  split
  · exact ⟨⟨rfl, rfl, rfl, rfl, .inr rfl⟩, rfl, rfl, rfl⟩
  · exact ⟨⟨rfl, rfl, rfl, rfl, .inr rfl⟩, Tree.length_unstore _, rfl, rfl⟩

section

variable (h : Figures s)

include h

private theorem Figures.started_of_sender (hs : s.sender ≠ .waiting) :
    s.started = true := by
  by_contra hno
  rw [Bool.not_eq_true] at hno
  exact hs (h.idle hno).2.2

private theorem figures_look (hqueue : s.queue = []) (hlooking : s.sender = .looking) :
    Figures (s.look cfg) := by
  have hstarted : s.started = true := h.started_of_sender (by rw [hlooking]; simp)
  have hall : ∀ sender, (∀ batch demand, sender ≠ .sending batch demand) → s.AllIn →
      ({ s with sender } : State).AllIn := fun sender hno hin ↦
        ⟨hin.walked, hin.stored, hin.queue, hno⟩
  fun_cases State.look cfg s
  case case1 | case2 =>
    exact h.same ⟨rfl, rfl, rfl, rfl, .inr rfl⟩ (fun _ ↦ hall _ (by simp)) hstarted rfl rfl rfl
  case case3 left hwalked hleft =>
    rw [Bool.not_eq_true, Bool.not_eq_false'] at hwalked
    have hin : left = 0 →
        ({ s with sender := .noting left s.tree.storedFiles } : State).AllIn := by
      intro hzero
      exact ⟨hwalked, Tree.all_of_unstoredCount hzero, hqueue, by simp⟩
    have hcount := Tree.storedFiles_add_unstoredCount (t := s.tree)
    have hsized := h.sized
    constructor
    case sized => exact h.sized
    case total => exact h.total
    case idle => simp [hstarted]
    case noting =>
      intro left files hs
      rw [Sender.noting.injEq] at hs
      rw [← hs.1, ← hs.2]
      refine ⟨hin, fun hpos ↦ ?_⟩
      have hover : cfg.budget.over s.tree.storedBytes s.tree.storedFiles = true := by
        by_contra hnot
        rw [Bool.not_eq_true] at hnot
        simp [hpos, hnot] at hleft
      have hsome := Tree.storedFiles_pos_of_over hover
      show 0 < s.tree.storedFiles ∧ s.tree.storedFiles < s.total
      omega
    case finishing => simp
    case finished =>
      intro hd hst
      rcases h.finished hd hst with hin | hout
      · exact .inl (hall _ (by simp) hin)
      · exact .inr hout

private theorem figures_walkStats (hstarted : s.started = true)
    (hwalked : s.walked = true) :
    Figures { s with stats := { files := 0, totalFiles := s.total } } := by
  have hall : s.AllIn →
      ({ s with stats := { files := 0, totalFiles := s.total } } : State).AllIn := fun hin ↦
    ⟨hin.walked, hin.stored, hin.queue, hin.still⟩
  have hincomplete : 0 < s.total →
      (({ files := 0, totalFiles := s.total } : Stats).complete = false) := by
    intro hpos
    simp only [Stats.complete, beq_eq_false_iff_ne]
    omega
  constructor
  case sized => exact h.sized
  case total => exact .inr ⟨hwalked, rfl⟩
  case idle => simp [hstarted]
  case noting =>
    intro left files hs
    obtain ⟨hzero, hpos⟩ := h.noting left files hs
    exact ⟨fun hl ↦ hall (hzero hl), hpos⟩
  case finishing =>
    intro left hs
    obtain ⟨hzero, hpos⟩ := h.finishing left hs
    refine ⟨fun hl ↦ hall (hzero hl), fun hl ↦ ⟨(hpos hl).1, fun _ ↦ ?_⟩⟩
    exact hincomplete (hpos hl).1
  case finished =>
    intro hd hst
    rcases h.finished hd hst with hin | ⟨hc, hpos, -⟩
    · exact .inl (hall hin)
    · exact .inr ⟨hc, hpos, hincomplete hpos⟩

private theorem figures_note {left files : Nat} (hnoting : s.sender = .noting left files) :
    Figures
      { s with
        stats := if s.done then s.stats else { s.stats with files }
        sender := .finishing left } := by
  have hstarted : s.started = true := h.started_of_sender (by rw [hnoting]; simp)
  obtain ⟨hzero, hpos⟩ := h.noting left files hnoting
  constructor
  case sized => exact h.sized
  case total =>
    dsimp only
    split
    · exact h.total
    · exact h.total
  case idle => simp [hstarted]
  case noting => simp
  case finishing =>
    intro l hs
    rw [Sender.finishing.injEq] at hs
    subst hs
    refine ⟨fun hl ↦ ?_, fun hl ↦ ?_⟩
    · have hin := hzero hl
      exact ⟨hin.walked, hin.stored, hin.queue, by simp⟩
    · obtain ⟨hfiles, hlt⟩ := hpos hl
      refine ⟨by dsimp only; omega, fun hd ↦ ?_⟩
      have hnot : s.done = false := hd
      simp only [hnot, Bool.false_eq_true, if_false, Stats.complete, beq_eq_false_iff_ne]
      rcases h.total with htot | ⟨-, htot⟩
      · omega
      · omega
  case finished =>
    intro hd hst
    have hdone : s.done = true := hd
    rcases h.finished hd hst with hin | ⟨hc, htot, hincomplete⟩
    · exact .inl ⟨hin.walked, hin.stored, hin.queue, by simp⟩
    · right
      simp only [hdone, if_true]
      exact ⟨hc, htot, hincomplete⟩

private theorem figures_finish {left : Nat} (hfinishing : s.sender = .finishing left)
    (hnot : s.done = false) :
    Figures { s with done := true, cached := left == 0, sender := .waiting } := by
  have hstarted : s.started = true := h.started_of_sender (by rw [hfinishing]; simp)
  obtain ⟨hzero, hpos⟩ := h.finishing left hfinishing
  constructor
  case sized => exact h.sized
  case total => exact h.total
  case idle => simp [hstarted]
  case noting => simp
  case finishing => simp
  case finished =>
    intro _ _
    by_cases hl : left = 0
    · have hin := hzero hl
      exact .inl ⟨hin.walked, hin.stored, hin.queue, by simp⟩
    · obtain ⟨htot, hincomplete⟩ := hpos (by omega)
      exact .inr ⟨by simpa using hl, htot, hincomplete hnot⟩

private theorem figures_raise (policy : Policy) : Figures (s.raise policy) := by
  fun_cases State.raise s policy
  case case1 | case2 => exact h
  case case3 =>
    exact h.keep ⟨rfl, rfl, rfl, rfl, .inl rfl⟩
      (fun _ hin ↦ ⟨hin.walked, hin.stored, hin.queue, hin.still⟩) (fun _ ↦ ⟨rfl, rfl⟩) h.sized id
      le_rfl fun _ ↦ rfl
  case case4 hno =>
    rw [Bool.not_eq_true] at hno
    constructor
    case sized => exact Nat.zero_le _
    case total => exact .inl (h.idle hno).2.1
    all_goals simp

/-- Every step that looks with no demand batch waiting keeps the figures. -/
theorem figures_step (hc : careful cfg s e = true) (hs : Steps cfg s e s') :
    Figures s' := by
  have hall : s.started = true → s.AllIn → s'.AllIn := fun hst hin ↦ allIn_step hin hst hs
  cases hs with
  | raise policy => exact figures_raise h policy
  | flush localAt entries hstarted hwalking =>
    have hadd := Tree.length_add_le (t := s.tree) entries
    have hsized := h.sized
    refine h.keep ⟨rfl, rfl, rfl, rfl, .inl rfl⟩ hall ?_ ?_ id ?_ ?_
    · intro hno
      exact absurd (hno.symm.trans hstarted) Bool.false_ne_true
    · simp only [State.flush, Tree.length_mark]
      omega
    · exact Nat.le_add_right _ _
    · intro hw
      exact absurd (hwalking.symm.trans hw) Bool.false_ne_true
  | walkOver =>
    exact h.keep ⟨rfl, rfl, rfl, rfl, .inl rfl⟩ hall (fun _ ↦ ⟨rfl, rfl⟩) h.sized (fun _ ↦ rfl)
      le_rfl fun _ ↦ rfl
  | walkStats hstarted hwalked => exact figures_walkStats h hstarted hwalked
  | touch now path picked hstarted =>
    have hframe : Unreported s (s.touch now path picked) ∧
        (s.touch now path picked).tree.length = s.tree.length ∧
        (s.touch now path picked).walked = s.walked ∧
        (s.touch now path picked).total = s.total := by
      rw [State.touch]
      split
      · exact ⟨⟨rfl, rfl, rfl, rfl, .inl rfl⟩, Tree.length_read path picked, rfl, rfl⟩
      · exact ⟨⟨rfl, rfl, rfl, rfl, .inl rfl⟩, rfl, rfl, rfl⟩
    obtain ⟨hu, hlen, hwalked, htotal⟩ := hframe
    exact h.same hu hall hstarted hlen hwalked htotal
  | wake hstarted => exact h.same ⟨rfl, rfl, rfl, rfl, .inr rfl⟩ hall hstarted rfl rfl rfl
  | next now hloop =>
    have hrun := h.started_of_sender (by rw [hloop]; simp)
    obtain ⟨hu, hlen, hwalked, htotal⟩ := next_frame cfg s now
    exact h.same hu hall hrun hlen hwalked htotal
  | send now answer hsending =>
    have hrun := h.started_of_sender (by rw [hsending]; simp)
    obtain ⟨hu, hlen, hwalked, htotal⟩ := send_frame cfg s now _ answer
    exact h.same hu hall hrun hlen hwalked htotal
  | look hlooking => exact figures_look h (List.isEmpty_iff.mp hc) hlooking
  | note hnoting => exact figures_note h hnoting
  | finishAgain hfinishing =>
    have hrun := h.started_of_sender (by rw [hfinishing]; simp)
    exact h.same ⟨rfl, rfl, rfl, rfl, .inr rfl⟩ hall hrun rfl rfl rfl
  | finish hfinishing hdone => exact figures_finish h hfinishing hdone
  | elsewhere share =>
    exact h.keep ⟨rfl, rfl, rfl, rfl, .inl rfl⟩ hall (fun _ ↦ ⟨rfl, rfl⟩) h.sized id le_rfl
      fun _ ↦ rfl

end

/-! ### Whole runs -/

private theorem accounted_attach (policy : Policy) (share : Share) :
    (attach policy share).Accounted := by
  cases policy <;>
  · intro f hf
    simp [attach] at hf

/-- A share that was just attached reports nothing, or has nothing to fill. -/
theorem figures_attach (policy : Policy) (share : Share) : Figures (attach policy share) := by
  cases policy <;> constructor <;> simp [attach]

/-- In every run in which each send finds a store that can read the files, and the sender looks with
no demand batch waiting, a share reported done and complete has every file it marked stored
accounted for. -/
theorem settled_of_complete (cfg : Config) (policy : Policy) (share : Share) (events : List Event)
    (s : State) (hrun : (machine cfg).run (attach policy share) events = some s)
    (hcareful :
      (machine cfg).Within (fun s e ↦ careful cfg s e = true) (attach policy share) events)
    (hcomplete : s.reportedComplete = true) :
    ∀ f ∈ s.tree, f.stored = true → ∃ fate, (f.entry.path, fate) ∈ s.settled := by
  have hstep : ∀ s e s', s.Accounted ∧ Figures s → careful cfg s e = true →
      (machine cfg).step s e = some s' → s'.Accounted ∧ Figures s' := fun s e s' hi hc hs ↦
    ⟨accounted_step hi.1 hc (steps_of_step hs), figures_step hi.2 hc (steps_of_step hs)⟩
  obtain ⟨hacc, hfig⟩ := (machine cfg).run_invariant (fun s e ↦ careful cfg s e = true) hstep
    ⟨accounted_attach policy share, figures_attach policy share⟩ hcareful hrun
  rw [State.reportedComplete, Bool.and_eq_true, Bool.or_eq_true] at hcomplete
  obtain ⟨hdone, hsays⟩ := hcomplete
  cases hstarted : s.started with
  | false =>
    rw [(hfig.idle hstarted).1]
    simp
  | true =>
    have hin : s.AllIn := by
      apply (hfig.finished hdone hstarted).resolve_right
      rintro ⟨hc, -, hincomplete⟩
      rw [hc, hincomplete] at hsays
      simp at hsays
    exact hin.settled hacc

private def oneFile : Event := .flush (fun _ ↦ none) [{ path := ["a"], size := 3 }]

private def twoFiles : Event :=
  .flush (fun _ ↦ none) [{ path := ["a"], size := 3 }, { path := ["b"], size := 4 }]

private def nothingHere : Deciding where
  manifest := ∅
  recorded := ∅
  localAt := fun _ ↦ none
  ctimeAt := fun _ ↦ none
  skew := 0
  margin := 0
  exec := 0

/-- A share whose only send found no store is reported done and complete, its one file marked
stored and gone nowhere. So is one whose store could not read the file, and one whose read promoted
two files while a failed send was waited out: they are in the queue, and nobody sent them. -/
theorem done_without_sending :
    (((machine {}).run (attach .eager {}) [oneFile, .walkOver, .walkStats, .wake, .next 10,
        .send 10 .absent, .next 10, .look, .note, .finish]).map fun s ↦
          (s.reportedComplete, s.tree.map (·.stored), s.settled.length)) = some (true, [true], 0) ∧
      (((machine {}).run (attach .eager {}) [oneFile, .walkOver, .walkStats, .wake, .next 10,
        .send 10 (.present nothingHere (.ok []) (.ok {})), .next 10, .look, .note,
        .finish]).map fun s ↦
          (s.reportedComplete, s.tree.map (·.stored), s.settled.length)) = some (true, [true], 0) ∧
      (((machine {}).run (attach .tree {}) [twoFiles, .touch 1 ["a"] [["a"]], .wake, .next 1,
        .send 2 (.present nothingHere (.ok []) (.error "refused")), .touch 3 ["a"] [["a"], ["b"]],
        .walkOver, .walkStats, .look, .note, .finish]).map fun s ↦
          (s.reportedComplete, s.tree.map (·.stored), s.settled.length)) =
        some (true, [true, true], 0) := by
  decide

/-- A share whose file was sent to a store that took it. -/
theorem settled_of_complete_one :
    ∃ s, (machine {}).run (attach .eager {}) [oneFile, .walkOver, .walkStats, .wake, .next 10,
        .send 10 (.present nothingHere (.ok []) (.ok { read := [⟨["a"], 3, 5⟩] })), .next 10, .look,
        .note, .finish] = some s ∧ s.tree.map (·.stored) = [true] ∧
      ∀ f ∈ s.tree, f.stored = true → ∃ fate, (f.entry.path, fate) ∈ s.settled := by
  obtain ⟨s, hs, hcomplete, hstored⟩ : ∃ s, (machine {}).run (attach .eager {}) [oneFile,
      .walkOver, .walkStats, .wake, .next 10,
      .send 10 (.present nothingHere (.ok []) (.ok { read := [⟨["a"], 3, 5⟩] })), .next 10, .look,
      .note, .finish] = some s ∧ s.reportedComplete = true ∧ s.tree.map (·.stored) = [true] := by
    decide
  exact ⟨s, hs, hstored, settled_of_complete {} .eager {} _ s hs (by decide) hcomplete⟩

end RemoteDocker.DirCache.Prefetch

import Mathlib.Algebra.Ring.Int.Defs
import RemoteDocker.Base.Machine
import RemoteDocker.DirCache.Sending
import RemoteDocker.DirCache.Shares

/-!
# The prefetch of one share

The walk feeds a tree, reads promote parts of it into demand batches, and one sender sends
those first and the walk's leftovers when nothing is read
(`src/dircache/prefetch.go`, `src/dircache/tree.go:229-241,404-462,516-649`,
`src/dircache/cache.go:310-388,810-824`). A file is marked stored when it is put into a
batch, and unmarked when the batch fails.

The tree is known here by its files, in walk order. Which of them a read promotes is the
tree's own policy; here a read may promote any of them. The sender's turn is cut where it
takes or drops a lock, so reads, the walk and a later attach come in between anywhere.
-/

namespace RemoteDocker.DirCache.Prefetch

open Base

/-- Whether a share is filled, and how. -/
inductive Policy where
  | off
  | tree
  | eager
  deriving DecidableEq, Repr

/-- `rank` orders policies by how much they send. -/
def Policy.rank : Policy → Nat
  | .off => 0
  | .tree => 1
  | .eager => 2

/-- `Budget` bounds what one share copies across. -/
structure Budget where
  files : Int := 0
  bytes : Int := 0

/-- The files a share may hold, 20000 unless said. -/
def Budget.maxFiles (b : Budget) : Int := if b.files ≤ 0 then 20000 else b.files

/-- The bytes a share may hold, 2 GiB unless said. -/
def Budget.maxBytes (b : Budget) : Int := if b.bytes ≤ 0 then 2 * 2 ^ 30 else b.bytes

/-- `overBudget`: a share holding this much may take no more (`prefetch.go:381-383`). -/
def Budget.over (b : Budget) (bytes files : Int) : Bool :=
  decide (b.maxBytes ≤ bytes) || decide (b.maxFiles ≤ files)

theorem Budget.maxFiles_pos (b : Budget) : 0 < b.maxFiles := by
  rw [maxFiles]
  split
  · decide
  · omega

theorem Budget.maxBytes_pos (b : Budget) : 0 < b.maxBytes := by
  rw [maxBytes]
  split
  · decide
  · omega

/-- A file of the tree, and whether it is marked stored. -/
structure TreeFile where
  entry : Entry
  stored : Bool := false
  deriving DecidableEq, Repr

abbrev Tree := List TreeFile

namespace Tree

/-- `defaultLargeFile`: a larger file is left to the network. -/
def largeFile : Int := 2 ^ 20

/-- The files the walk has found since. -/
def add (t : Tree) (entries : List Entry) : Tree :=
  t ++ (entries.filter fun e ↦ decide (e.size ≤ largeFile)).map ({ entry := · })

def mark (t : Tree) (paths : List SharePath) : Tree :=
  t.map fun f ↦ if paths.contains f.entry.path then { f with stored := true } else f

/-- Puts the entries of a refused batch back as not sent. -/
def unstore (t : Tree) (batch : List Entry) : Tree :=
  t.map fun f ↦
    if (batch.map (·.path)).contains f.entry.path then { f with stored := false } else f

def unstoredAt (t : Tree) (paths : List SharePath) : List Entry :=
  (t.filter fun f ↦ !f.stored && paths.contains f.entry.path).map (·.entry)

/-- What a read of a path promotes, which is nothing where the path is not in the tree or is stored.
The files `picked` stand for the nodes it promotes. -/
def read (t : Tree) (path : SharePath) (picked : List SharePath) : Tree × List Entry :=
  if t.any (fun f ↦ f.entry.path == path && !f.stored) then (t.mark picked, t.unstoredAt picked)
  else (t, [])

/-- `Tree.Stored`: the files marked stored. -/
def storedFiles (t : Tree) : Nat := t.countP (·.stored)

/-- `Tree.Stored`: the bytes marked stored. -/
def storedBytes (t : Tree) : Int := ((t.filter (·.stored)).map (·.entry.size)).sum

def unstoredCount (t : Tree) : Nat := t.countP (!·.stored)

/-- Smallest first, path breaking ties. -/
def bySizePath (a b : Entry) : Prop :=
  a.size < b.size ∨ a.size = b.size ∧ a.path.render ≤ b.path.render

instance : DecidableRel bySizePath := fun _ _ ↦ inferInstanceAs (Decidable (_ ∨ _))

/-- The loop of `Unstored`: the first candidates within the limits, the first one whatever its
size. -/
def within (maxBytes maxFiles : Int) : Nat → Int → List Entry → List Entry
  | _, _, [] => []
  | n, size, e :: rest =>
    if decide (maxFiles ≤ n) || (decide (0 < n) && decide (maxBytes < size + e.size)) then []
    else e :: within maxBytes maxFiles (n + 1) (size + e.size) rest

/-- The smallest files that are not stored, up to the limits. -/
def unstored (t : Tree) (maxBytes maxFiles : Int) : Tree × List Entry :=
  if decide (maxFiles ≤ 0) || decide (maxBytes ≤ 0) then (t, [])
  else
    let candidates := ((t.filter (!·.stored)).map (·.entry)).insertionSort bySizePath
    let batch := within maxBytes maxFiles 0 0 candidates
    (t.mark (batch.map (·.path)), batch)

end Tree

/-- What became of a file that is marked stored. -/
inductive Fate where
  | applied
  | held
  | leftOut
  | kept
  | withheld
  deriving DecidableEq, Repr

/-- Where the sender is: waiting to be woken, about to take a batch, sending one, about to look
whether it is done, or, with what it saw, about to note the figures and to report. -/
inductive Sender where
  | waiting
  | loop
  | sending (batch : List Entry) (demand : Bool)
  | looking
  | noting (left files : Nat)
  | finishing (left : Nat)
  deriving DecidableEq, Repr

/-- What `Stats` says of what is cached. -/
structure Stats where
  files : Nat := 0
  totalFiles : Nat := 0
  deriving DecidableEq, Repr

def Stats.complete (s : Stats) : Bool := s.files == s.totalFiles

/-- One share. `started` says that it has a prefetch, `total` counts what its walk has found,
and `settled` says what became of each file that was ever settled. -/
structure State where
  policy : Policy
  share : Share := {}
  started : Bool := false
  tree : Tree := []
  queue : List (List Entry) := []
  lastRead : Int := zeroTime
  walked : Bool := false
  failures : Nat := 0
  retryAt : Int := zeroTime
  sender : Sender := .waiting
  total : Nat := 0
  stats : Stats := {}
  done : Bool := false
  cached : Bool := false
  settled : List (SharePath × Fate) := []

/-- `Attach` of a share with what was recorded of it (`cache.go:248-270`). -/
def attach (policy : Policy) (share : Share) : State :=
  match policy with
  | .off => { policy, share, done := true, cached := true }
  | .tree | .eager => { policy, share, started := true }

structure Config where
  budget : Budget := {}
  ephemeral : Bool := false
  fillBackoff : Int := 0

/-- What the store answers to a send: there is none, or what the consumer changed and how the
batch went, with what `withoutConsumerChanges` sees of this machine. -/
inductive Answer where
  | absent
  | present (here : Deciding) (changes : Except String (List Change))
    (apply : Except String Applied)

inductive Event where
  | raise (policy : Policy)
  | flush (localAt : SharePath → Option FileInfo) (entries : List Entry)
  | walkOver
  | walkStats
  | touch (now : Int) (path : SharePath) (picked : List SharePath)
  | wake
  | next (now : Int)
  | send (now : Int) (answer : Answer)
  | look
  | note
  | finish
  | elsewhere (share : Share)

/-- What a batch came to. `unread` is a record, for the statements, of what the store could not read
here and so did not send. -/
structure Sent where
  ok : Bool
  share : Share
  settled : List (SharePath × Fate) := []
  unread : List SharePath := []

/-- What `Applied` says of an entry (`src/dircache/cache.go:58-73`): a file the store could not read
is not in it. -/
def fateIn (applied : Applied) (e : Entry) : Option Fate :=
  if applied.skipped.contains e.path then some .leftOut
  else if applied.kept.contains e.path then some .kept
  else if applied.read.any (·.path == e.path) then some .applied
  else none

/-- The entries the cache holds from an earlier session (`cache.go:885-895`). -/
def alreadyHeld (share : Share) (localAt : SharePath → Option FileInfo) (entries : List Entry) :
    List SharePath :=
  (entries.map (·.path)).filter fun p ↦
    (share.manifest.lookup p).any fun b ↦ (Share.baselineOf localAt p).any (·.sameFile b)

/-- Applies one batch (`cache.go:316-370`). -/
def sendBatch (cfg : Config) (share : Share) (entries : List Entry) : Answer → Sent
  | .absent => { ok := true, share }
  | .present here changes apply =>
    let here := { here with manifest := share.manifest, recorded := share.recorded }
    match here.withoutConsumerChanges cfg.ephemeral changes entries with
    | .error _ => { ok := false, share }
    | .ok sendable =>
      let withheld := (entries.filter (!sendable.contains ·)).map fun e ↦ (e.path, Fate.withheld)
      if sendable.isEmpty then { ok := true, share, settled := withheld }
      else
        let recorded := share.editRecord (sendable.map (·.path)).toFinset true
        match apply with
        | .error _ => { ok := false, share := recorded }
        | .ok applied =>
          { ok := true
            share := recorded.noteApplied applied
            settled := withheld ++ sendable.filterMap fun e ↦ (fateIn applied e).map (e.path, ·)
            unread := (sendable.filter fun e ↦ (fateIn applied e).isNone).map (·.path) }

/-- The wait after failures in a row. -/
def backoff (minWait maxWait : Int) : Nat → Int
  | 0 => min minWait maxWait
  | n + 1 => if minWait < maxWait then backoff (minWait * 2) maxWait n else min minWait maxWait

/-- `fillBackoffMin` and `fillBackoffMax`, and the base a cache is set up with. -/
def Config.delay (cfg : Config) (failures : Nat) : Int :=
  let base := if cfg.fillBackoff ≤ 0 then 1000000000 else cfg.fillBackoff
  backoff base (300 * 1000000000) failures

def quietFor : Int := 2 * 1000000000

/-- `walkBatch`, and `batchBytes` for eager. -/
def batchLimit : Policy → Int
  | .eager => 16 * 2 ^ 20
  | _ => 2 ^ 20

namespace State

/-- A later attach asks for more (`prefetch.go:180-213`). -/
def raise (s : State) (policy : Policy) : State :=
  if policy.rank = 0 then s
  else if s.started then
    if policy.rank ≤ s.policy.rank then s else { s with policy }
  else
    { s with
      policy, started := true, done := false, cached := false, tree := [], queue := []
      walked := false, failures := 0, retryAt := zeroTime, lastRead := zeroTime
      sender := .waiting }

/-- One `flush` of `feedTree` (`prefetch.go:228-263`). -/
def flush (s : State) (localAt : SharePath → Option FileInfo) (entries : List Entry) : State :=
  let held := alreadyHeld s.share localAt entries
  { s with
    tree := (s.tree.add entries).mark held
    total := s.total + entries.length
    settled := s.settled ++ held.map (·, Fate.held) }

def touch (s : State) (now : Int) (path : SharePath) (picked : List SharePath) : State :=
  if s.policy = .tree then
    let got := s.tree.read path picked
    { s with
      lastRead := now, tree := got.1
      queue := if got.2.isEmpty then s.queue else s.queue ++ [got.2] }
  else s

/-- What `next` takes, and what it leaves: a demand batch, else the walk's leftovers if the
consumer is quiet and the budget allows (`prefetch.go:352-378`). -/
def next (cfg : Config) (s : State) (now : Int) : State :=
  if now < s.retryAt then { s with sender := .looking }
  else
    match s.queue with
    | batch :: queue => { s with queue, sender := .sending batch true }
    | [] =>
      if s.policy != .eager && decide (now - s.lastRead < quietFor) then
        { s with sender := .looking }
      else if cfg.budget.over s.tree.storedBytes s.tree.storedFiles then
        { s with sender := .looking }
      else
        let got := s.tree.unstored
          (min (batchLimit s.policy) (cfg.budget.maxBytes - s.tree.storedBytes))
          (cfg.budget.maxFiles - s.tree.storedFiles)
        if got.2.isEmpty then { s with sender := .looking }
        else { s with tree := got.1, sender := .sending got.2 false }

/-- A batch sent, then `batchSent` or `batchFailed` (`prefetch.go:272-305`). -/
def send (cfg : Config) (s : State) (now : Int) (batch : List Entry) (answer : Answer) : State :=
  let sent := sendBatch cfg s.share batch answer
  if sent.ok then
    { s with
      share := sent.share, settled := s.settled ++ sent.settled
      failures := 0, retryAt := zeroTime, sender := .loop }
  else
    { s with
      share := sent.share, tree := s.tree.unstore batch
      failures := s.failures + 1, retryAt := now + cfg.delay s.failures, sender := .looking }

/-- What `finishIfWalked` sees (`prefetch.go:387-408`). -/
def look (cfg : Config) (s : State) : State :=
  let left := s.tree.unstoredCount
  if !s.walked then { s with sender := .waiting }
  else if decide (0 < left) && !cfg.budget.over s.tree.storedBytes s.tree.storedFiles then
    { s with sender := .waiting }
  else { s with sender := .noting left s.tree.storedFiles }

end State

/-- One step. The walk ends once, and what belongs to a prefetch needs one. -/
def step (cfg : Config) (s : State) : Event → Option State
  | .raise policy => some (s.raise policy)
  | .flush localAt entries =>
    if s.started && !s.walked then some (s.flush localAt entries) else none
  | .walkOver => if s.started && !s.walked then some { s with walked := true } else none
  | .walkStats =>
    if s.started && s.walked then some { s with stats := { files := 0, totalFiles := s.total } }
    else none
  | .touch now path picked => if s.started then some (s.touch now path picked) else none
  | .wake => if s.started && s.sender == .waiting then some { s with sender := .loop } else none
  | .next now => if s.sender == .loop then some (s.next cfg now) else none
  | .send now answer =>
    match s.sender with
    | .sending batch _ => some (s.send cfg now batch answer)
    | _ => none
  | .look => if s.sender == .looking then some (s.look cfg) else none
  | .note =>
    match s.sender with
    | .noting left files =>
      some
        { s with
          stats := if s.done then s.stats else { s.stats with files }
          sender := .finishing left }
    | _ => none
  | .finish =>
    match s.sender with
    | .finishing left =>
      if s.done then some { s with sender := .waiting }
      else some { s with done := true, cached := left == 0, sender := .waiting }
    | _ => none
  | .elsewhere share => some { s with share }

/-- The prefetch of one share, with reads, the walk, attaches and answers in any order. -/
def machine (cfg : Config) : Machine State Event where
  step := step cfg

/-- The share is reported done and complete, by what it holds of its tree or by the figures
status reads. -/
def State.reportedComplete (s : State) : Bool := s.done && (s.cached || s.stats.complete)

inductive Steps (cfg : Config) (s : State) : Event → State → Prop
  | raise (policy : Policy) : Steps cfg s (.raise policy) (s.raise policy)
  | flush (localAt : SharePath → Option FileInfo) (entries : List Entry)
      (hstarted : s.started = true) (hwalking : s.walked = false) :
      Steps cfg s (.flush localAt entries) (s.flush localAt entries)
  | walkOver (hstarted : s.started = true) (hwalking : s.walked = false) :
      Steps cfg s .walkOver { s with walked := true }
  | walkStats (hstarted : s.started = true) (hwalked : s.walked = true) :
      Steps cfg s .walkStats { s with stats := { files := 0, totalFiles := s.total } }
  | touch (now : Int) (path : SharePath) (picked : List SharePath) (hstarted : s.started = true) :
      Steps cfg s (.touch now path picked) (s.touch now path picked)
  | wake (hstarted : s.started = true) (hwaiting : s.sender = .waiting) :
      Steps cfg s .wake { s with sender := .loop }
  | next (now : Int) (hloop : s.sender = .loop) : Steps cfg s (.next now) (s.next cfg now)
  | send (now : Int) (answer : Answer) {batch : List Entry} {demand : Bool}
      (hsending : s.sender = .sending batch demand) :
      Steps cfg s (.send now answer) (s.send cfg now batch answer)
  | look (hlooking : s.sender = .looking) : Steps cfg s .look (s.look cfg)
  | note {left files : Nat} (hnoting : s.sender = .noting left files) :
      Steps cfg s .note
        { s with
          stats := if s.done then s.stats else { s.stats with files }
          sender := .finishing left }
  | finishAgain {left : Nat} (hfinishing : s.sender = .finishing left) (hdone : s.done = true) :
      Steps cfg s .finish { s with sender := .waiting }
  | finish {left : Nat} (hfinishing : s.sender = .finishing left) (hdone : s.done = false) :
      Steps cfg s .finish { s with done := true, cached := left == 0, sender := .waiting }
  | elsewhere (share : Share) : Steps cfg s (.elsewhere share) { s with share }

/-- A step is one of the kinds of `Steps`. -/
theorem steps_of_step {cfg : Config} {s s' : State} {e : Event} (h : step cfg s e = some s') :
    Steps cfg s e s' := by
  revert h
  fun_cases step cfg s e <;> rintro ⟨⟩
  · exact .raise _
  · next hrun =>
    rw [Bool.and_eq_true, Bool.not_eq_true'] at hrun
    exact .flush _ _ hrun.1 hrun.2
  · next hrun =>
    rw [Bool.and_eq_true, Bool.not_eq_true'] at hrun
    exact .walkOver hrun.1 hrun.2
  · next hrun =>
    rw [Bool.and_eq_true] at hrun
    exact .walkStats hrun.1 hrun.2
  · next hstarted => exact .touch _ _ _ hstarted
  · next hrun =>
    rw [Bool.and_eq_true, beq_iff_eq] at hrun
    exact .wake hrun.1 hrun.2
  · next hloop => exact .next _ (beq_iff_eq.mp hloop)
  · next hsending => exact .send _ _ hsending
  · next hlooking => exact .look (beq_iff_eq.mp hlooking)
  · next hnoting => exact .note hnoting
  · next hfinishing hdone => exact .finishAgain hfinishing hdone
  · next hfinishing hdone => exact .finish hfinishing (Bool.not_eq_true _ ▸ hdone)
  · exact .elsewhere _

namespace Tree

variable {t : Tree} {f : TreeFile}

theorem of_mem_mark {paths : List SharePath} (hf : f ∈ t.mark paths) (hst : f.stored = true) :
    f ∈ t ∨ f.entry.path ∈ paths ∧ ∃ g ∈ t, g.entry = f.entry ∧ g.stored = false := by
  rw [mark, List.mem_map] at hf
  obtain ⟨g, hg, rfl⟩ := hf
  split
  · next hp =>
    cases hstored : g.stored with
    | true =>
      left
      rw [← hstored]
      exact hg
    | false => exact .inr ⟨List.contains_iff_mem.mp hp, g, hg, rfl, hstored⟩
  · exact .inl hg

theorem of_mem_unstore {batch : List Entry} (hf : f ∈ t.unstore batch) (hst : f.stored = true) :
    f ∈ t ∧ f.entry.path ∉ batch.map (·.path) := by
  rw [unstore, List.mem_map] at hf
  obtain ⟨g, hg, rfl⟩ := hf
  split at hst
  · simp at hst
  · next hp =>
    rw [if_neg hp]
    exact ⟨hg, fun hmem ↦ hp (List.contains_iff_mem.mpr hmem)⟩

theorem of_mem_add {entries : List Entry} (hf : f ∈ t.add entries) (hst : f.stored = true) :
    f ∈ t := by
  rw [add, List.mem_append] at hf
  apply hf.resolve_right
  intro hnew
  obtain ⟨e, -, rfl⟩ := List.mem_map.mp hnew
  simp at hst

theorem length_mark (paths : List SharePath) : (t.mark paths).length = t.length := by
  rw [mark, List.length_map]

theorem length_unstore (batch : List Entry) : (t.unstore batch).length = t.length := by
  rw [unstore, List.length_map]

theorem length_add_le (entries : List Entry) :
    (t.add entries).length ≤ t.length + entries.length := by
  rw [add, List.length_append, List.length_map]
  have := List.length_filter_le (fun e ↦ decide (e.size ≤ largeFile)) entries
  omega

theorem of_mem_read {path : SharePath} {picked : List SharePath}
    (hf : f ∈ (t.read path picked).1) (hst : f.stored = true) :
    f ∈ t ∨ f.entry ∈ (t.read path picked).2 := by
  rw [read] at hf ⊢
  split
  · next h =>
    rw [if_pos h] at hf
    rcases of_mem_mark hf hst with hold | ⟨hpath, g, hg, hentry, hun⟩
    · exact .inl hold
    · right
      show f.entry ∈ t.unstoredAt picked
      rw [unstoredAt, List.mem_map]
      refine ⟨g, List.mem_filter.mpr ⟨hg, ?_⟩, hentry⟩
      rw [hun, hentry]
      simpa using hpath
  · next h =>
    rw [if_neg h] at hf
    exact .inl hf

theorem length_read (path : SharePath) (picked : List SharePath) :
    (t.read path picked).1.length = t.length := by
  rw [read]
  split
  · exact length_mark picked
  · rfl

theorem of_mem_unstored {maxBytes maxFiles : Int} (hf : f ∈ (t.unstored maxBytes maxFiles).1)
    (hst : f.stored = true) :
    f ∈ t ∨ f.entry.path ∈ (t.unstored maxBytes maxFiles).2.map (·.path) := by
  rw [unstored] at hf ⊢
  split
  · next h =>
    rw [if_pos h] at hf
    exact .inl hf
  · next h =>
    rw [if_neg h] at hf
    exact (of_mem_mark hf hst).imp_right And.left

theorem length_unstored (maxBytes maxFiles : Int) :
    (t.unstored maxBytes maxFiles).1.length = t.length := by
  rw [unstored]
  split
  · rfl
  · exact length_mark _

theorem read_of_all (hall : ∀ f ∈ t, f.stored = true) (path : SharePath)
    (picked : List SharePath) : t.read path picked = (t, []) := by
  rw [read, if_neg]
  rw [List.any_eq_true]
  rintro ⟨f, hf, h⟩
  rw [hall f hf] at h
  simp at h

theorem unstored_of_all (hall : ∀ f ∈ t, f.stored = true) (maxBytes maxFiles : Int) :
    (t.unstored maxBytes maxFiles).2 = [] := by
  rw [unstored]
  split
  · rfl
  · have hnone : t.filter (fun f ↦ !f.stored) = [] := by
      rw [List.filter_eq_nil_iff]
      intro f hf
      simp [hall f hf]
    show within maxBytes maxFiles 0 0 _ = []
    rw [hnone]
    rfl

theorem all_of_unstoredCount (h : t.unstoredCount = 0) : ∀ f ∈ t, f.stored = true := by
  intro f hf
  have hnot := List.countP_eq_zero.mp h f hf
  simpa using hnot

theorem storedFiles_add_unstoredCount : t.storedFiles + t.unstoredCount = t.length := by
  rw [storedFiles, unstoredCount, List.length_eq_countP_add_countP (fun f : TreeFile ↦ f.stored)]
  congr 2
  funext f
  simp

theorem storedFiles_pos_of_over {b : Budget} (h : b.over t.storedBytes t.storedFiles = true) :
    0 < t.storedFiles := by
  by_contra hnone
  have hzero : t.storedFiles = 0 := by omega
  have hbytes : t.storedBytes = 0 := by
    have hfilter : t.filter (·.stored) = [] := by
      rw [List.filter_eq_nil_iff]
      exact List.countP_eq_zero.mp hzero
    rw [storedBytes, hfilter]
    rfl
  have hpos := b.maxFiles_pos
  have hposb := b.maxBytes_pos
  rw [Budget.over, hzero, hbytes, Bool.or_eq_true, decide_eq_true_eq, decide_eq_true_eq] at h
  omega

end Tree

end RemoteDocker.DirCache.Prefetch

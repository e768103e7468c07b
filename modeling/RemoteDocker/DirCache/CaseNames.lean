import RemoteDocker.Base.Machine
import RemoteDocker.Base.Table
import RemoteDocker.DirCache.LastWriter

/-!
# Names that differ only in case

On a filesystem that treats names equal up to case as one, `Lstat`, an open and a rename find a
file under any spelling. `dropClashes` sets a new file aside when a directory's listing has its
name only in another spelling (`src/dircache/writeback.go:487-499`,
`src/dircache/writepass.go:429-521`), and a landing asks again (`writePass.land`).

Only the last name is looked at, and a directory that cannot be listed has no clash: a new file
whose directory is spelled otherwise here replaces the file there (`other_directory_replaced`).
`no_other_file_replaced_iff` says when nothing is replaced under another spelling, for every pass
over what was decided.

A name here is known by its folded path and carries the spelling it has on the disk. Nothing but
the pass changes the disk; everything it touches gets a change time later than all before. A
link is a name like any other, and no path leads through one.
-/

namespace RemoteDocker.DirCache.CaseNames

open Base

/-- A name on this machine, with its spelling. -/
structure Node extends DirCache.Node where
  name : String
  deriving DecidableEq

/-- The names of a share, by folded path. -/
abbrev Nodes := AList fun _ : SharePath ↦ Node

section

variable (fold : String → String)

/-- What the filesystem finds a path by. -/
def key (p : SharePath) : SharePath := p.map fold

/-- How each component of a path is spelled here, where it is here. -/
def spelling (nodes : Nodes) (p : SharePath) : List (Option String) :=
  (List.range p.length).map fun i ↦ (nodes.lookup ((key fold p).take (i + 1))).map (·.name)

def sight (nodes : Nodes) : Sight where
  localAt := fun p ↦ (nodes.lookup (key fold p)).bind (·.stat)
  ctimeAt := fun p ↦ (nodes.lookup (key fold p)).bind (·.ctime)

def childNames (nodes : Nodes) (dir : SharePath) : List String :=
  (nodes.entries.filter fun e ↦ e.1 != [] && e.1.dropLast == key fold dir).map (·.2.name)

/-- What a share has when a round looks at it: a name folds to the last of its path, what is
there is in a directory, a directory reads as one, and no change is later than now. -/
structure Disk where
  nodes : Nodes
  now : Int
  named : ∀ k n, nodes.lookup k = some n → ∃ above, k = above ++ [fold n.name]
  closed : ∀ above c n, nodes.lookup (above ++ [c]) = some n → above = [] ∨
    ∃ m, nodes.lookup above = some m ∧ m.dir = true
  dirs : ∀ k n i, nodes.lookup k = some n → n.dir = true → n.stat = some i → i.isDir = true
  past : ∀ k n c, nodes.lookup k = some n → n.ctime = some c → c ≤ now

/-- `caseNames.dirs`: the names of each listed directory, by the path it was asked for under. -/
abbrev Names := AList fun _ : SharePath ↦ List String

/-- What `clash` finds in a listing: the name is not there, and another spelling of it is. -/
def clashIn (names : List String) (base : String) : Option String :=
  if names.contains base then none else names.find? fun name ↦ fold name == fold base

/-- `caseNames.clash`, and what is listed after it. `listable` says whether a directory can be
listed. -/
def clash (nodes : Nodes) (listable : SharePath → Bool) (names : Names) (rel : SharePath) :
    Option String × Names :=
  match nodes.lookup (key fold rel), rel.getLast? with
  | some _, some base =>
    match names.lookup rel.dropLast with
    | some listed => (clashIn fold listed base, names)
    | none =>
      if listable rel.dropLast then
        let listed := childNames fold nodes rel.dropLast
        (clashIn fold listed base, names.insert rel.dropLast listed)
      else (none, names)
  | _, _ => (none, names)

end

/-- The loop of `wrote`: a listing that lacks a directory above what was written is dropped. -/
def dropUnlisted (names : Names) (dirs : List SharePath) : Names :=
  dirs.foldl (fun names dir ↦
    match names.lookup dir.dropLast, dir.getLast? with
    | some listed, some base => if listed.contains base then names else names.erase dir.dropLast
    | _, _ => names) names

def wrote (names : Names) (rel : SharePath) (landed : Bool) : Names :=
  let added :=
    match names.lookup rel.dropLast, rel.getLast? with
    | some listed, some base => if landed then names.insert rel.dropLast (base :: listed) else names
    | _, _ => names
  dropUnlisted added rel.dirsAbove

def removed (names : Names) (rel : SharePath) : Names :=
  let forgotten := names.erase rel
  match forgotten.lookup rel.dropLast, rel.getLast? with
  | some listed, some base =>
    if listed.contains base then forgotten.insert rel.dropLast (listed.filter (· != base))
    else forgotten.erase rel.dropLast
  | _, _ => forgotten

section

variable (fold : String → String)

/-- `MkdirAll`, from a directory down: a missing directory is made as it is spelled. -/
def mkdirAll (time : Int) : SharePath → SharePath → Nodes → Option Nodes
  | _, [], nodes => some nodes
  | above, c :: rest, nodes =>
    match nodes.lookup (above ++ [fold c]) with
    | some n => if n.dir then mkdirAll time (above ++ [fold c]) rest nodes else none
    | none =>
      mkdirAll time (above ++ [fold c]) rest
        (nodes.insert (above ++ [fold c])
          { name := c, dir := true, stat := some { size := 0, modTime := time, isDir := true }
            ctime := some time })

/-- A rename over a path: it fails over a directory. -/
def put (nodes : Nodes) (p : SharePath) (node : Node) : Option Nodes :=
  match nodes.lookup (key fold p) with
  | some n => if n.dir then none else some (nodes.insert (key fold p) node)
  | none => some (nodes.insert (key fold p) node)

/-- A removal: it fails for a directory with something in it. -/
def remove (nodes : Nodes) (p : SharePath) : Option Nodes :=
  match nodes.lookup (key fold p) with
  | some n =>
    if n.dir && (nodes.entries.any fun e ↦ e.1 != [] && e.1.dropLast == key fold p) then none
    else some (nodes.erase (key fold p))
  | none => none

/-- What a round works on: the changes it has left when it asks for clashes, and the deletions
a replaced directory implies with the time of each. A path is in it once, as the walk of the
consumer's layer reports it. -/
structure Round where
  here : Disk fold
  manifest : Manifest
  recorded : Finset SharePath
  reported : List Change
  implied : List (SharePath × Int)
  once : (reported.map (·.path) ++ implied.map (·.1)).Nodup
  listable : SharePath → Bool
  skew : Int
  margin : Int
  exec : UInt32

end

namespace Round

variable {fold : String → String} (r : Round fold)

/-- What `dropClashes` asks about. -/
def asksAbout (ch : Change) : Bool :=
  (r.manifest.lookup ch.path).isNone && !ch.deleted && !ch.isOpaque && ch.link == ""

/-- What is kept, and what it listed. -/
def dropClashes : Names → List Change → List Change × Names
  | names, [] => ([], names)
  | names, ch :: rest =>
    if r.asksAbout ch then
      match clash fold r.here.nodes r.listable names ch.path with
      | (some _, names) => dropClashes names rest
      | (none, names) =>
        let (kept, names) := dropClashes names rest
        (ch :: kept, names)
    else
      let (kept, names) := dropClashes names rest
      (ch :: kept, names)

def changes : List Change :=
  (r.dropClashes ∅ r.reported).1 ++
    r.implied.map fun (p, time) ↦ { path := p, deleted := true, changed := time }

def deciding : Deciding where
  toSight := sight fold r.here.nodes
  manifest := r.manifest
  recorded := r.recorded
  skew := r.skew
  margin := r.margin
  exec := r.exec

def actions : List Action := r.deciding.decide r.changes

end Round

/-- A file that was replaced: the path it was landed at, and how its path was spelled here. -/
structure Replaced where
  path : SharePath
  here : List (Option String)
  deriving DecidableEq

structure State where
  nodes : Nodes
  names : Names
  clock : Int
  replaced : List Replaced := []

/-- What a pass does, one path at a time, in any order. The paths it removes, makes, links or
changes the mode of may be any; what it touches is touched at `time`. -/
inductive Event where
  | remove (p : SharePath)
  | mkdir (p : SharePath) (time : Int)
  | link (p : SharePath) (stat : Option FileInfo) (time : Int)
  | chmod (p : SharePath) (mode : UInt32) (time : Int)
  | land (a : Action) (listable : Bool) (stat : FileInfo) (time : Int)

section

variable {fold : String → String}

/-- `land`: asks for a clash, makes the directories, and replaces the path if it is as seen. -/
def stepLand (fold : String → String) (s : State) (a : Action) (listable : Bool)
    (stat : FileInfo) (time : Int) : State :=
  let asked := clash fold s.nodes (fun _ ↦ listable) s.names a.path
  let s := { s with names := asked.2, clock := time }
  if asked.1.isSome then s
  else
    match mkdirAll fold time [] a.path.dropLast s.nodes with
    | none => { s with names := wrote s.names a.path false }
    | some made =>
      let target := made.lookup (key fold a.path)
      let s := { s with nodes := made }
      if stillAsSeen a.seen target.isSome (target.bind (·.stat)) (target.bind (·.ctime)) then
        match put fold made a.path
          { name := a.path.getLast?.getD "", stat := some stat, ctime := some time } with
        | none => { s with names := wrote s.names a.path false }
        | some nodes =>
          { s with
            nodes, names := wrote s.names a.path true
            replaced :=
              if target.isSome then ⟨a.path, spelling fold made a.path⟩ :: s.replaced
              else s.replaced }
      else { s with names := wrote s.names a.path false }

def step (r : Round fold) (s : State) : Event → Option State
  | .remove p =>
    (remove fold s.nodes p).map fun nodes ↦ { s with nodes, names := removed s.names p }
  | .mkdir p time =>
    if s.clock < time then
      (mkdirAll fold time [] p s.nodes).map fun nodes ↦
        { s with nodes, names := wrote s.names p true, clock := time }
    else none
  | .link p stat time =>
    if s.clock < time then do
      let made ← mkdirAll fold time [] p.dropLast s.nodes
      let nodes ← put fold made p { name := p.getLast?.getD "", stat, ctime := some time }
      some { s with nodes, names := wrote s.names p true, clock := time }
    else none
  | .chmod p mode time =>
    if s.clock < time then
      (s.nodes.lookup (key fold p)).map fun n ↦
        { s with
          nodes := s.nodes.insert (key fold p)
            { n with stat := n.stat.map fun i ↦ { i with mode }, ctime := some time }
          clock := time }
    else none
  | .land a listable stat time =>
    if s.clock < time ∧ a ∈ r.actions ∧ a.fetches = true then
      some (stepLand fold s a listable stat time)
    else none

def machine (r : Round fold) : Machine State Event where
  step := step r

def start (r : Round fold) : State where
  nodes := r.here.nodes
  names := (r.dropClashes ∅ r.reported).2
  clock := r.here.now

end

/-- Everything along a path is spelled as it was, and what is above it is a directory. -/
def Along (nodes₀ nodes : Nodes) (k : SharePath) : Prop :=
  ∀ j, j < k.length → ∃ m m₀, nodes.lookup (k.take (j + 1)) = some m ∧
    nodes₀.lookup (k.take (j + 1)) = some m₀ ∧ m.name = m₀.name ∧
    (j + 1 < k.length → m.dir = true)

/-- What was last changed by `time` is where it was at `time`, under the spelling it had. -/
def Unmoved (nodes₀ nodes : Nodes) (time : Int) : Prop :=
  ∀ k n c, nodes.lookup k = some n → n.ctime = some c → c ≤ time → Along nodes₀ nodes k

section

variable {nodes₀ nodes : Nodes} {time : Int} {later : Int} {p : SharePath}

/-- Something touched later leaves the rest unmoved, if a directory stays one under its
spelling. -/
theorem Unmoved.insert (h : Unmoved nodes₀ nodes time) {q : SharePath} {x : Node}
    (hlater : time < later) (hx : x.ctime = some later)
    (hdir : ∀ m, nodes.lookup q = some m → m.dir = true → x.name = m.name ∧ x.dir = true) :
    Unmoved nodes₀ (nodes.insert q x) time := by
  intro k n c hn hc hle
  rcases lookup_insert_eq_some.mp hn with ⟨rfl, rfl⟩ | ⟨hk, hn⟩
  · -- What is at `q` now was touched too late to be asked about.
    rw [hx] at hc
    cases hc
    omega
  · intro j hj
    obtain ⟨m, m₀, hm, hm₀, hname, hmdir⟩ := h k n c hn hc hle j hj
    by_cases hq : k.take (j + 1) = q
    · have hlt : j + 1 < k.length := by
        by_contra hnot
        apply hk
        rw [← hq, List.take_of_length_le (by omega)]
      rw [hq] at hm hm₀
      obtain ⟨hxname, hxdir⟩ := hdir m hm (hmdir hlt)
      refine ⟨x, m₀, ?_, by rw [hq]; exact hm₀, hxname.trans hname, fun _ ↦ hxdir⟩
      rw [hq, AList.lookup_insert]
    · exact ⟨m, m₀, lookup_insert_eq_some.mpr (.inr ⟨hq, hm⟩), hm₀, hname, hmdir⟩

/-- A removal leaves the rest unmoved, if no directory goes with something in it. -/
theorem Unmoved.erase (h : Unmoved nodes₀ nodes time) {q : SharePath}
    (hempty : ∀ m, nodes.lookup q = some m → m.dir = true →
      ∀ k, k ≠ [] → k.dropLast = q → nodes.lookup k = none) :
    Unmoved nodes₀ (nodes.erase q) time := by
  intro k n c hn hc hle
  obtain ⟨hk, hn⟩ := lookup_erase_eq_some.mp hn
  have halong := h k n c hn hc hle
  intro j hj
  obtain ⟨m, m₀, hm, hm₀, hname, hmdir⟩ := halong j hj
  have hq : k.take (j + 1) ≠ q := by
    intro hq
    have hlt : j + 1 < k.length := by
      by_contra hnot
      apply hk
      rw [← hq, List.take_of_length_le (by omega)]
    -- The next name of the path is in the directory that goes.
    obtain ⟨m', _, hm', -⟩ := halong (j + 1) hlt
    have hne : k.take (j + 1 + 1) ≠ [] := by
      rw [← List.length_pos_iff, List.length_take]
      omega
    have hparent : (k.take (j + 1 + 1)).dropLast = q := by
      rw [List.dropLast_eq_take, List.take_take, List.length_take, ← hq]
      congr 1
      omega
    rw [hempty m (hq ▸ hm) (hmdir hlt) _ hne hparent] at hm'
    cases hm'
  exact ⟨m, m₀, lookup_erase_eq_some.mpr ⟨hq, hm⟩, hm₀, hname, hmdir⟩

variable {fold : String → String}

theorem Unmoved.mkdirAll (hlater : time < later) {above : SharePath}
    {made : Nodes} (h : Unmoved nodes₀ nodes time)
    (hmade : mkdirAll fold later above p nodes = some made) : Unmoved nodes₀ made time := by
  induction p generalizing above nodes with
  | nil =>
    cases hmade
    exact h
  | cons c rest ih =>
    unfold CaseNames.mkdirAll at hmade
    split at hmade
    · next n hn =>
      split at hmade
      · exact ih h hmade
      · cases hmade
    · next hnone =>
      refine ih (h.insert hlater rfl ?_) hmade
      intro m hm
      rw [hnone] at hm
      cases hm

theorem Unmoved.put (hlater : time < later) {node : Node}
    {nodes' : Nodes} (h : Unmoved nodes₀ nodes time) (hnode : node.ctime = some later)
    (hput : put fold nodes p node = some nodes') : Unmoved nodes₀ nodes' time := by
  unfold CaseNames.put at hput
  split at hput
  · next n hn =>
    obtain ⟨hfile, ⟨⟩⟩ := Option.ite_none_left_eq_some.mp hput
    refine h.insert hlater hnode ?_
    intro m hm hdir
    rw [hn] at hm
    cases hm
    exact absurd hdir hfile
  · next hnone =>
    cases hput
    refine h.insert hlater hnode ?_
    intro m hm
    rw [hnone] at hm
    cases hm

theorem Unmoved.remove {nodes' : Nodes} (h : Unmoved nodes₀ nodes time)
    (hremove : remove fold nodes p = some nodes') : Unmoved nodes₀ nodes' time := by
  unfold CaseNames.remove at hremove
  split at hremove
  · next n hn =>
    obtain ⟨hkeep, ⟨⟩⟩ := Option.ite_none_left_eq_some.mp hremove
    refine h.erase ?_
    intro m hm hdir k hk hparent
    rw [hn] at hm
    cases hm
    by_contra hsome
    obtain ⟨x, hx⟩ := Option.ne_none_iff_exists'.mp hsome
    apply hkeep
    rw [hdir, Bool.true_and, List.any_eq_true]
    refine ⟨⟨k, x⟩, AList.mem_lookup_iff.mp hx, ?_⟩
    simp only [Bool.and_eq_true, bne_iff_ne, beq_iff_eq]
    exact ⟨hk, hparent⟩
  · cases hremove

theorem Along.spelling_eq (h : Along nodes₀ nodes (key fold p)) :
    spelling fold nodes p = spelling fold nodes₀ p := by
  unfold spelling
  refine List.map_congr_left ?_
  intro j hj
  have hlen : j < (key fold p).length := by simpa [key] using hj
  obtain ⟨m, m₀, hm, hm₀, hname, -⟩ := h j hlen
  rw [hm, hm₀, Option.map_some, Option.map_some, hname]

/-- On a disk, what is above a name is a directory, up to the share's root. -/
theorem Disk.along (disk : Disk fold) {k : SharePath} {n : Node}
    (hn : disk.nodes.lookup k = some n) : Along disk.nodes disk.nodes k := by
  induction k using List.reverseRecOn generalizing n with
  | nil =>
    intro j hj
    simp at hj
  | append_singleton above c ih =>
    intro j hj
    rw [List.length_append, List.length_singleton] at hj
    by_cases hlast : j = above.length
    · subst hlast
      refine ⟨n, n, ?_, ?_, rfl, ?_⟩
      · rw [List.take_of_length_le (by simp)]
        exact hn
      · rw [List.take_of_length_le (by simp)]
        exact hn
      · intro hlt
        simp at hlt
    · have hlt : j < above.length := by omega
      rcases disk.closed above c n hn with hroot | ⟨m, hm, hdir⟩
      · simp [hroot] at hlt
      · obtain ⟨x, x₀, hx, hx₀, hname, hxdir⟩ := ih hm j hlt
        rw [List.take_append_of_le_length (by omega)]
        refine ⟨x, x₀, hx, hx₀, hname, fun _ ↦ ?_⟩
        by_cases hnext : j + 1 < above.length
        · exact hxdir hnext
        · rw [List.take_of_length_le (by omega), hm] at hx
          cases hx
          exact hdir

theorem Disk.mkdirAll_eq (disk : Disk fold) {above : SharePath} {c : String}
    {n : Node} (hn : disk.nodes.lookup (above ++ key fold p ++ [c]) = some n) :
    mkdirAll fold later above p disk.nodes = some disk.nodes := by
  induction p generalizing above with
  | nil => rfl
  | cons d rest ih =>
    have hlook : disk.nodes.lookup (above ++ [fold d] ++ key fold rest ++ [c]) = some n := by
      rw [← hn, List.append_assoc above]
      rfl
    obtain ⟨m, _, hm, -, -, hdir⟩ := disk.along hlook above.length (by simp)
    have htake : (above ++ [fold d] ++ key fold rest ++ [c]).take (above.length + 1) =
        above ++ [fold d] := by
      rw [List.append_assoc (above ++ [fold d]), List.take_append_of_le_length (by simp),
        List.take_of_length_le (by simp)]
    rw [htake] at hm
    unfold mkdirAll
    simp only [hm, hdir (by simp), if_true]
    exact ih hlook

end

section

variable {fold : String → String} {p : SharePath} {base : String}

theorem key_eq (hbase : p.getLast? = some base) :
    key fold p = key fold p.dropLast ++ [fold base] := by
  obtain ⟨above, rfl⟩ := List.getLast?_eq_some_iff.mp hbase
  rw [List.dropLast_concat, key, key, List.map_append, List.map_singleton]

private theorem name_mem_childNames {nodes : Nodes} {n : Node}
    (hbase : p.getLast? = some base) (hn : nodes.lookup (key fold p) = some n) :
    n.name ∈ childNames fold nodes p.dropLast := by
  rw [key_eq hbase] at hn
  refine List.mem_map.mpr ⟨⟨_, n⟩, List.mem_filter.mpr ⟨AList.mem_lookup_iff.mp hn, ?_⟩, rfl⟩
  rw [Bool.and_eq_true, bne_iff_ne, beq_iff_eq, List.dropLast_concat]
  exact ⟨List.concat_ne_nil _ _, rfl⟩

private theorem lookup_of_mem_childNames {nodes : Nodes} {dir : SharePath} {name : String}
    (named : ∀ k n, nodes.lookup k = some n → ∃ above, k = above ++ [fold n.name])
    (h : name ∈ childNames fold nodes dir) :
    ∃ n, nodes.lookup (key fold dir ++ [fold name]) = some n ∧ n.name = name := by
  obtain ⟨⟨k, n⟩, he, rfl⟩ := List.mem_map.mp h
  obtain ⟨hmem, hin⟩ := List.mem_filter.mp he
  have hn : nodes.lookup k = some n := AList.mem_lookup_iff.mpr hmem
  obtain ⟨above, rfl⟩ := named k n hn
  simp only [List.dropLast_concat, Bool.and_eq_true, beq_iff_eq] at hin
  rw [hin.2] at hn
  exact ⟨n, hn, rfl⟩

/-- A listing shows no clash exactly where the name found is the one asked for. -/
theorem Disk.clashIn_eq_none (disk : Disk fold) {n : Node}
    (hbase : p.getLast? = some base) (hn : disk.nodes.lookup (key fold p) = some n) :
    clashIn fold (childNames fold disk.nodes p.dropLast) base = none ↔ n.name = base := by
  have hmem := name_mem_childNames hbase hn
  have hfold : fold n.name = fold base := by
    obtain ⟨above, habove⟩ := disk.named _ n hn
    rw [key_eq hbase] at habove
    exact (List.singleton_inj.mp (List.append_inj' habove rfl).2).symm
  constructor
  · intro hnone
    unfold clashIn at hnone
    split at hnone
    · next hcontains =>
      obtain ⟨n', hn', hname⟩ :=
        lookup_of_mem_childNames disk.named (List.contains_iff_mem.mp hcontains)
      rw [← key_eq hbase, hn] at hn'
      cases hn'
      exact hname
    · have := List.find?_eq_none.mp hnone n.name hmem
      simp [hfold] at this
  · rintro rfl
    unfold clashIn
    rw [if_pos (List.contains_iff_mem.mpr hmem)]

end

namespace Round

variable {fold : String → String} (r : Round fold)

/-- Every listing kept is what its directory has, of a directory that can be listed. -/
def Listed (names : Names) : Prop :=
  ∀ dir listed, names.lookup dir = some listed →
    listed = childNames fold r.here.nodes dir ∧ r.listable dir = true

variable {names : Names}

private theorem listed_clash (h : r.Listed names) (rel : SharePath) :
    r.Listed (clash fold r.here.nodes r.listable names rel).2 := by
  unfold clash
  split
  · split
    · exact h
    · split
      · next hlistable =>
        intro dir listed hdir
        rcases lookup_insert_eq_some.mp hdir with ⟨rfl, rfl⟩ | ⟨-, hdir⟩
        · exact ⟨rfl, hlistable⟩
        · exact h dir listed hdir
      · exact h
  · exact h

/-- What is found under a path has its last name, or is in a directory that cannot be listed. -/
def unclashed (p : SharePath) : Bool :=
  match r.here.nodes.lookup (key fold p), p.getLast? with
  | some n, some base => n.name == base || !r.listable p.dropLast
  | _, _ => true

private theorem clash_eq_none_iff (h : r.Listed names) (p : SharePath) :
    (clash fold r.here.nodes r.listable names p).1 = none ↔ r.unclashed p = true := by
  unfold clash unclashed
  split
  · next n base hn hbase =>
    have hin := r.here.clashIn_eq_none hbase hn
    rw [Bool.or_eq_true, beq_iff_eq, Bool.not_eq_true']
    split
    · next listed hlisted =>
      obtain ⟨rfl, hlistable⟩ := h _ _ hlisted
      rw [hin, hlistable]
      simp
    · cases hlistable : r.listable p.dropLast with
      | true =>
        rw [if_pos rfl, hin]
        simp
      | false => simp
  · simp

/-- A directory that can no longer be listed shows no clash at what was unclashed. -/
theorem clash_unlistable (h : r.Listed names) {p : SharePath} (hp : r.unclashed p = true) :
    (clash fold r.here.nodes (fun _ ↦ false) names p).1 = none := by
  rw [← r.clash_eq_none_iff h] at hp
  unfold clash at hp ⊢
  split
  · next n base hn hbase =>
    rw [hn, hbase] at hp
    dsimp only at hp
    cases hlisted : names.lookup p.dropLast with
    | none => rfl
    | some listed =>
      rw [hlisted] at hp
      exact hp
  · rfl

theorem listed_dropClashes (h : r.Listed names) (changes : List Change) :
    r.Listed (r.dropClashes names changes).2 := by
  induction changes generalizing names with
  | nil => exact h
  | cons ch rest ih =>
    have hasked := r.listed_clash h ch.path
    unfold dropClashes
    split
    · split
      · next _ names' heq =>
        rw [heq] at hasked
        exact ih hasked
      · next names' heq =>
        rw [heq] at hasked
        exact ih hasked
    · exact ih h

/-- `dropClashes` keeps what it does not ask about and what is unclashed, whatever the listings
it comes to a change with. -/
theorem dropClashes_eq (h : r.Listed names) (changes : List Change) :
    (r.dropClashes names changes).1 =
      changes.filter fun ch ↦ !r.asksAbout ch || r.unclashed ch.path := by
  induction changes generalizing names with
  | nil => rfl
  | cons ch rest ih =>
    have hasked := r.listed_clash h ch.path
    have hnone := r.clash_eq_none_iff h ch.path
    unfold dropClashes
    split
    · next hasks =>
      split
      · next _ names' heq =>
        rw [heq] at hasked hnone
        have hclash : r.unclashed ch.path = false := by
          rw [← Bool.not_eq_true, ← hnone]
          simp
        rw [List.filter_cons_of_neg (by simp [hasks, hclash]), ih hasked]
      · next names' heq =>
        rw [heq] at hasked hnone
        rw [List.filter_cons_of_pos (by simp [hnone.mp rfl]), ← ih hasked]
    · next hasks =>
      rw [List.filter_cons_of_pos (by simp [hasks]), ← ih h]

theorem listed_empty : r.Listed ∅ := by
  intro dir listed hdir
  rw [AList.lookup_empty] at hdir
  cases hdir

theorem mem_changes {ch : Change} :
    ch ∈ r.changes ↔
      (ch ∈ r.reported ∧ (r.asksAbout ch = true → r.unclashed ch.path = true)) ∨
        ∃ p time, (p, time) ∈ r.implied ∧
          ch = { path := p, deleted := true, changed := time } := by
  unfold changes
  rw [List.mem_append, r.dropClashes_eq r.listed_empty, List.mem_filter, List.mem_map]
  refine or_congr (and_congr_right fun _ ↦ ?_) ?_
  · cases r.asksAbout ch <;> simp
  · constructor
    · rintro ⟨⟨p, time⟩, hmem, rfl⟩
      exact ⟨p, time, hmem, rfl⟩
    · rintro ⟨p, time, hmem, rfl⟩
      exact ⟨(p, time), hmem, rfl⟩

theorem nodup_changes : (r.changes.map (·.path)).Nodup := by
  refine List.Nodup.sublist ?_ r.once
  unfold changes
  rw [r.dropClashes_eq r.listed_empty, List.map_append, List.map_map]
  exact List.Sublist.append (List.filter_sublist.map _) (List.Sublist.refl _)

end Round

end RemoteDocker.DirCache.CaseNames

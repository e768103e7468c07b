import RemoteDocker.Channel.Wire

/-!
# The cache channel stays in frame

An exchange on an open stream begins with both sides having read all there is, and ends so: the
agent reads the payload of an apply to its end whatever became of it, and the client reads the
payload of a reply before it is done. One that comes to no answer leaves the stream closed, and
nothing of another request gets on it.

That is so as long as JSON keeps what is in the messages, and no request is too long for a line. One
that is marks the channel dead and closes nothing, and `do` does not look at the mark: a call that
waited for its turn sends its request on the dead channel (`dead_channel_used`).
-/

namespace RemoteDocker.Channel

open Base Base.Frames

variable {F E G : Type} {c : Codec F E G} {s t : State F E G} {call : Call F}
  {work : Request F → Work E G}

/-! ### One request -/

/-- An apply is read to the end of what has come of its payload, and no further. -/
theorem applyCache_take (work : Request F → Work E G) (call : Call F) (k : Nat) :
    (applyCache work call.header (call.payload.take k)).2 = [] := by
  have hfits : call.payload.length = call.header.size := call.fits
  have hlength : (call.payload.take k).length ≤ call.header.size := by
    rw [List.length_take, hfits]
    exact Nat.min_le_right _ _
  rw [Request.size] at hlength
  rw [applyCache]
  dsimp only
  split_ifs at hlength ⊢ with hop
  · rw [List.drop_drop, List.drop_eq_nil_iff]
    omega
  · exact List.length_eq_zero_iff.mp (Nat.le_zero.mp hlength)

private theorem serveCache_nil (turns : Nat) : serveCache c work turns [] = ([], []) := by
  cases turns with
  | zero => rfl
  | succ turns => rfl

/-- What has come of a request is nothing the agent can answer yet, or the request. -/
theorem serveCache_take (work : Request F → Work E G) (hwhole : c.requests.Whole call.header)
    (turns n : Nat) :
    (serveCache c work turns ((c.requests.frame call).take n)).1 = [] ∨
      serveCache c work turns ((c.requests.frame call).take n) =
        ([(some call.header, (work call.header).outcome.answer)], []) := by
  cases turns with
  | zero => exact .inl rfl
  | succ turns =>
    rcases line_take_frame c.requests call n with hnone | ⟨k, hline⟩
    · left
      rw [serveCache, serveOne, hnone]
    · right
      rw [serveCache, serveOne, hline]
      dsimp only
      rw [hwhole]
      dsimp only
      rw [applyCache_take work call k, serveCache_nil]
      rfl

private theorem serveCache_frame (hwhole : c.requests.Whole call.header) :
    serveCache c work (c.requests.frame call).length (c.requests.frame call) =
      ([(some call.header, (work call.header).outcome.answer)], []) := by
  have hline : line (c.requests.frame call) = some (c.requests.encode call.header, call.payload) :=
    line_append (c.requests.newline_notMem _) _
  have hlength : (c.requests.frame call).length =
      (c.requests.encode call.header).length + call.payload.length + 1 := by
    rw [Lines.frame, List.length_append, List.length_cons, Nat.add_assoc]
  have hrest := applyCache_take work call call.payload.length
  rw [List.take_length] at hrest
  rw [hlength, serveCache, serveOne, hline]
  dsimp only
  rw [hwhole]
  dsimp only
  rw [hrest, serveCache_nil]
  rfl

/-- The client reads an answer to its end, and no further. -/
theorem hear_frame {answer : Answer E G} (hwhole : c.replies.Whole answer.header) :
    hear c (c.replies.frame answer) = .got answer [] := by
  have hline : line (c.replies.frame answer) =
      some (c.replies.encode answer.header, answer.payload) :=
    line_append (c.replies.newline_notMem _) _
  have hfits : answer.payload.length = answer.header.size := answer.fits
  rw [hear, hline]
  dsimp only
  rw [hwhole]
  dsimp only
  rw [dif_pos (Nat.le_of_eq hfits.symm)]
  congr 1
  · cases answer with
    | mk header payload fits =>
      congr 1
      exact List.take_of_length_le (Nat.le_of_eq hfits)
  · exact List.drop_of_length_le (Nat.le_of_eq hfits)

/-! ### Every run -/

/-- The agent decoded the requests that were sent, in order, and nothing else; what the exchanges
returned are the agent's answers to their requests, in order; and on a stream that is open every
request that was sent has been decoded and come to its answer. -/
structure InFrame (s : State F E G) : Prop where
  decoded : s.decoded <+: s.begun.map (·.header)
  clean : s.garbled = false
  answers : s.answered.length = s.decoded.length
  calls : s.results.map (·.1) <+: s.begun
  returned : s.results.map (·.2) <+: s.answered
  ends : s.closed = false → s.begun = s.results.map (·.1) ∧
    s.decoded = s.begun.map (·.header) ∧ s.answered = s.results.map (·.2)

/-- The channel is in frame, nothing is left on an open stream, and a dead one is closed. -/
structure Inv (s : State F E G) : Prop extends InFrame s where
  dead : s.dead = true → s.closed = true
  quiet : s.closed = false → s.up = [] ∧ s.down = []
  lost : s.begun = s.results.map (·.1) ∨ s.dead = true

private theorem Inv.close (h : Inv s) {dead : Bool} (hdead : s.dead = true → dead = true) :
    Inv { s with dead, closed := true } :=
  ⟨⟨h.decoded, h.clean, h.answers, h.calls, h.returned, nofun⟩, fun _ ↦ rfl, nofun,
    h.lost.imp_right hdead⟩

/-- A request that comes to no answer. -/
theorem Inv.lose (h : Inv s) (hopen : s.closed = false) (hwhole : c.requests.Whole call.header)
    (n : Nat) : Inv (s.send c call work (some n)) := by
  obtain ⟨hbegun, hdecoded, hanswered⟩ := h.ends hopen
  have hcalls : s.results.map (·.1) <+: s.begun ++ [call] := h.calls.trans (List.prefix_append _ _)
  have hheaders : s.decoded <+: (s.begun ++ [call]).map (·.header) := by
    rw [List.map_append]
    exact h.decoded.trans (List.prefix_append _ _)
  have hserved := serveCache_take work hwhole
    ((c.requests.frame call).take n).length n
  rw [State.send, State.serve, (h.quiet hopen).1, List.nil_append]
  generalize serveCache c work _ _ = served at hserved
  rcases hserved with hnone | hone
  · rw [hnone]
    simp only [List.filterMap_nil, List.map_nil, List.append_nil, List.any_nil, Bool.or_false]
    exact ⟨⟨hheaders, h.clean, h.answers, hcalls, h.returned, nofun⟩, fun _ ↦ rfl, nofun, .inr rfl⟩
  · rw [hone]
    refine ⟨⟨?_, ?_, ?_, hcalls, ?_, nofun⟩, fun _ ↦ rfl, nofun, .inr rfl⟩
    · rw [hdecoded, List.map_append]
      exact List.prefix_rfl
    · exact Bool.or_eq_false_iff.mpr ⟨h.clean, rfl⟩
    · rw [List.length_append, List.length_append, h.answers]
      rfl
    · exact h.returned.trans (List.prefix_append _ _)

/-- A request that is answered. -/
theorem Inv.answer (h : Inv s) (hopen : s.closed = false) (hwhole : c.requests.Whole call.header)
    (hreply : c.replies.Whole (work call.header).outcome.answer.header) :
    Inv (s.send c call work none) := by
  obtain ⟨hbegun, hdecoded, hanswered⟩ := h.ends hopen
  obtain ⟨hup, hdown⟩ := h.quiet hopen
  simp only [State.send, State.serve, hup, hdown, List.nil_append, serveCache_frame hwhole,
    List.flatMap_singleton, hear_frame hreply]
  have hcalls : s.begun ++ [call] = (s.results ++
      [(call, (work call.header).outcome.answer)]).map (·.1) := by
    rw [List.map_append, hbegun]
    rfl
  refine ⟨⟨?_, ?_, ?_, ?_, ?_, ?_⟩, h.dead, fun _ ↦ ⟨rfl, rfl⟩, .inl hcalls⟩
  · rw [hdecoded, List.map_append]
    exact List.prefix_rfl
  · exact Bool.or_eq_false_iff.mpr ⟨h.clean, rfl⟩
  · rw [List.length_append, List.length_append, h.answers]
    rfl
  · exact hcalls ▸ List.prefix_rfl
  · rw [List.map_append, hanswered]
    exact List.prefix_rfl
  · intro _
    refine ⟨hcalls, ?_, ?_⟩
    · rw [hdecoded, List.map_append]
      rfl
    · rw [hanswered, List.map_append]
      rfl

private theorem Inv.step {e : Event F E G} (h : Inv s) (hok : careful c s e)
    (ht : Channel.step c s e = some t) : Inv t := by
  cases e with
  | take call work lost =>
    cases ht
    obtain ⟨hfits, hwhole, hreply⟩ := hok
    rw [State.take]
    split_ifs with hnot
    · have hclosed : s.closed = true := hnot.resolve_left (Nat.not_lt.mpr hfits)
      exact ⟨⟨h.decoded, h.clean, h.answers, h.calls, h.returned, h.ends⟩, fun _ ↦ hclosed, h.quiet,
        .inr rfl⟩
    · have hopen : s.closed = false := Bool.eq_false_iff.mpr (not_or.mp hnot).2
      cases lost with
      | some n => exact h.lose hopen hwhole n
      | none => exact h.answer hopen hwhole hreply
  | close =>
    cases ht
    exact h.close fun _ ↦ rfl
  | cut =>
    cases ht
    exact h.close id

/-- Nothing of a request gets on a closed stream. -/
theorem run_of_closed {es : List (Event F E G)} (hclosed : s.closed = true)
    (hr : (machine c).run s es = some t) : t.begun = s.begun := by
  have hstep : ∀ (u : State F E G) e u', (u.closed = true ∧ u.begun = s.begun) →
      (machine c).step u e = some u' → u'.closed = true ∧ u'.begun = s.begun := by
    rintro u e u' ⟨huclosed, hubegun⟩ hu'
    cases e with
    | take call work lost =>
      have htake : u.take c call work lost = { u with dead := true } := if_pos (.inr huclosed)
      cases hu'
      rw [htake]
      exact ⟨huclosed, hubegun⟩
    | close | cut =>
      cases hu'
      exact ⟨rfl, hubegun⟩
  exact ((machine c).run_invariant_all hstep ⟨hclosed, rfl⟩ hr).2

/-- Whatever the requests, their payloads and what the agent makes of them, and wherever the stream
breaks, as long as every request fits a line and JSON keeps what is in it and in the answers: the
channel is in frame; every request that was sent has come to its answer, or the channel is marked
dead; and once it is, no other request gets on its stream. -/
theorem stays_in_frame (c : Codec F E G) {es : List (Event F E G)} {s : State F E G}
    (hr : (machine c).run {} es = some s) (hw : (machine c).Within (careful c) {} es) :
    InFrame s ∧ (s.begun = s.results.map (·.1) ∨ s.dead = true) ∧
      (s.dead = true → ∀ es' s', (machine c).run s es' = some s' → s'.begun = s.begun) := by
  have hstart : Inv ({} : State F E G) := by
    refine ⟨⟨List.prefix_rfl, rfl, rfl, List.prefix_rfl, List.prefix_rfl, ?_⟩, nofun, ?_, .inl rfl⟩
    · exact fun _ ↦ ⟨rfl, rfl, rfl⟩
    · exact fun _ ↦ ⟨rfl, rfl⟩
  have hinv : Inv s :=
    (machine c).run_invariant (careful c) (fun _ _ _ h hok ht ↦ h.step hok ht) hstart hw hr
  exact ⟨hinv.toInFrame, hinv.lost, fun hdead es' s' hr' ↦ run_of_closed (hinv.dead hdead) hr'⟩

def opCode : Op → UInt8
  | .prepare => 20
  | .apply => 21
  | .drop => 22
  | .changes => 23
  | .pull => 24
  | .present => 25
  | .mounted => 26

def opOf (b : UInt8) : Option Op :=
  [Op.prepare, .apply, .drop, .changes, .pull, .present, .mounted].find? (opCode · = b)

/-- Lines that count the bytes of a payload on their fingers. -/
def unary : Codec Unit Unit Unit where
  requests :=
    { encode := fun r ↦ opCode r.op :: List.replicate r.bytes 1
      decode := fun
        | [] => none
        | b :: rest => (opOf b).map fun op ↦ { op, bytes := rest.length, fields := () }
      newline_notMem := by
        rintro ⟨op, bytes, -⟩
        cases op <;> simp [opCode, newline, List.mem_replicate] }
  replies :=
    { encode := fun r ↦ (if r.err.isSome then 1 else 2) :: List.replicate r.bytes 1
      decode := fun
        | [] => none
        | b :: rest =>
          some { err := if b = 1 then some () else none, bytes := rest.length, fields := () }
      newline_notMem := by
        rintro ⟨err, bytes, -⟩
        cases err <;> simp [newline, List.mem_replicate] }
  malformed := ()
  bare := ()

private theorem length_eq_size_apply (payload : List UInt8) : payload.length =
    Request.size { op := .apply, bytes := payload.length, fields := () } := rfl

def apply (payload : List UInt8) : Call Unit :=
  ⟨{ op := .apply, bytes := payload.length, fields := () }, payload, length_eq_size_apply payload⟩

private theorem length_eq_size_pull (n : Nat) : ([] : List UInt8).length =
    Request.size { op := .pull, bytes := n, fields := () } := rfl

/-- A pull, with a line of so many bytes and more. -/
def pull (n : Nat) : Call Unit :=
  ⟨{ op := .pull, bytes := n, fields := () }, [], length_eq_size_pull n⟩

/-- An apply that stops after a byte of its payload, and a pull. -/
def stopsPartWay : List (Event Unit Unit Unit) :=
  [.take (apply [10, 21]) (fun _ ↦ { read := 1, outcome := .refused () () }) none,
    .take (pull 0) (fun _ ↦ { outcome := .pulled () [10] }) none]

/-- The tar that was not read to its end holds a line, and what was pulled is one: both are read as
payloads, and the two requests have their answers. -/
theorem stays_in_frame_partWay :
    ∃ s, (machine unary).run {} stopsPartWay = some s ∧
      s.results.map (fun r ↦ (r.1.header.op, r.2.header.err, r.2.payload)) =
        [(.apply, some (), []), (.pull, none, [10])] ∧ InFrame s := by
  obtain ⟨s, hs, hresults⟩ : ∃ s, (machine unary).run {} stopsPartWay = some s ∧
      s.results.map (fun r ↦ (r.1.header.op, r.2.header.err, r.2.payload)) =
        [(.apply, some (), []), (.pull, none, [10])] := by decide +kernel
  exact ⟨s, hs, hresults, (stays_in_frame unary hs (by decide +kernel)).1⟩

private theorem length_pull (n : Nat) : (unary.requests.encode (pull n).header).length + 1 > n := by
  simp only [unary, pull, List.length_cons, List.length_replicate]
  omega

private theorem run_take_of_long (work : Request F → Work E G)
    (hlong : (c.requests.encode call.header).length + 1 > maxFrame) :
    (machine c).run {} [.take call work none] = some { dead := true } := by
  have htake : State.take c {} call work none = { dead := true } := if_pos (.inl hlong)
  simp only [Machine.run, machine, step, htake]

/-- A request too long to send marks the channel dead, and the next one is sent on it. -/
theorem dead_channel_used :
    ∃ (s t : State Unit Unit Unit) (call : Call Unit) (work : Request Unit → Work Unit Unit),
      (machine unary).run {} [.take (pull maxFrame) work none] = some s ∧
      s.dead = true ∧ (machine unary).run s [.take call work none] = some t ∧
      s.begun = [] ∧ t.begun = [call] := by
  let work : Request Unit → Work Unit Unit := fun _ ↦ { outcome := .answered () }
  obtain ⟨t, ht, hbegun⟩ : ∃ t, (machine unary).run { dead := true } [.take (pull 0) work none] =
      some t ∧ t.begun = [pull 0] := by
    decide +kernel
  exact ⟨_, t, pull 0, work, run_take_of_long work (length_pull _), rfl, ht, rfl, hbegun⟩

end RemoteDocker.Channel

import RemoteDocker.Tunnels.Allocator

/-!
# Ports are never shared

A port is given to one client at a time: what `decide` and `Hold` choose is assigned to nobody, so
two clients never have one port, and a port that is assigned is one account's only. A machine's
assignment is on record from the moment it is made, so a restart loses the runs and no machine.
-/

namespace RemoteDocker.Tunnels

open Base

/-! ### The mapping -/

section

variable {m : Mapping} {uid port : Int}

/-- A uid derives a port of the range, and the port is derived by no other. -/
theorem uidForPort_of_portForUID (h : m.portForUID uid = .ok port) :
    m.uidForPort port = .ok uid ∧ 1 ≤ m.portBase ∧ m.portBase ≤ port ∧ port ≤ maxPort := by
  unfold Mapping.portForUID at h
  unfold Mapping.uidForPort
  cases hvalid : m.validate with
  | error e => simp [hvalid] at h
  | ok u =>
    have hbase : 1 ≤ m.portBase := by
      unfold Mapping.validate at hvalid
      split at hvalid
      · cases hvalid
      · split at hvalid
        · cases hvalid
        · omega
    rw [hvalid] at h
    dsimp only at h ⊢
    split at h
    · cases h
    · split at h
      · cases h
      · cases h
        refine ⟨?_, hbase, by omega, by omega⟩
        rw [if_neg (by omega)]
        congr 1
        omega

end

/-! ### What is written reads back -/

def Assignment.Named (k : Assignment) : Prop :=
  (∀ c ∈ k.account.toList, plain c = true) ∧ ∀ c ∈ k.client.toList, plain c = true

theorem named_assignmentOf (account client : Name) : (assignmentOf account client).Named :=
  ⟨fun c hc ↦ List.all_eq_true.mp account.plain c hc,
    fun c hc ↦ List.all_eq_true.mp client.plain c hc⟩

def lineChar (c : Char) : Bool := plain c || c == ':'

private theorem plain_of_isDigit {c : Char} (h : c.isDigit = true) : plain c = true := by
  simp [plain, h]

private theorem of_lineChar {c : Char} (h : lineChar c = true) :
    Record.isSpace c = false ∧ c ≠ '#' := by
  have hcode : (97 ≤ c.toNat ∧ c.toNat ≤ 122) ∨ (48 ≤ c.toNat ∧ c.toNat ≤ 57) ∨ c.toNat = 95 ∨
      c.toNat = 45 ∨ c.toNat = 58 := by
    simp only [lineChar, plain, Char.isDigit, Bool.or_eq_true, Bool.and_eq_true, beq_iff_eq,
      decide_eq_true_eq] at h
    rcases h with (((⟨hlo, hhi⟩ | ⟨hlo, hhi⟩) | rfl) | rfl) | rfl
    · exact .inl ⟨hlo, hhi⟩
    · exact .inr (.inl ⟨hlo, hhi⟩)
    · exact .inr (.inr (.inl rfl))
    · exact .inr (.inr (.inr (.inl rfl)))
    · exact .inr (.inr (.inr (.inr rfl)))
  constructor
  · simp only [Record.isSpace, Bool.or_eq_false_iff, Bool.and_eq_false_iff, decide_eq_false_iff_not,
      beq_eq_false_iff_ne, ne_eq]
    omega
  · rintro rfl
    revert hcode
    decide

private theorem trimSpace_of_lineChar {text : List Char} (h : ∀ c ∈ text, lineChar c = true) :
    Record.trimSpace text = text :=
  Record.trimSpace_of_isSpace_eq_false fun c hc ↦ (of_lineChar (h c hc)).1

section

variable {k : Assignment} {port : Int}

private theorem plain_of_mem_itoa {c : Char} (h : c ∈ Record.itoa port) : plain c = true := by
  rcases Record.of_mem_itoa h with rfl | hdigit
  · decide
  · exact plain_of_isDigit hdigit

private theorem plain_of_mem_fields (hk : k.Named) {f : String}
    (hf : f ∈ [k.account, k.client, String.ofList (Record.itoa port)]) {c : Char}
    (hc : c ∈ f.toList) : plain c = true := by
  simp only [List.mem_cons, List.not_mem_nil, or_false] at hf
  rcases hf with rfl | rfl | rfl
  · exact hk.1 c hc
  · exact hk.2 c hc
  · rw [String.toList_ofList] at hc
    exact plain_of_mem_itoa hc

private theorem recordLine_lineOf (hk : k.Named) :
    recordLine (lineOf k port) = some (lineOf k port) := by
  have hchars : ∀ c ∈ (lineOf k port).toList, lineChar c = true := by
    intro c hc
    rw [lineChar, Bool.or_eq_true, beq_iff_eq]
    rcases Record.mem_joinFields hc with hsep | ⟨f, hf, hcf⟩
    · exact .inr hsep
    · exact .inl (plain_of_mem_fields hk hf hcf)
  have hne : (lineOf k port).toList ≠ [] := by
    simp [lineOf, Record.joinFields, List.intercalate_cons_cons]
  unfold recordLine
  rw [trimSpace_of_lineChar hchars]
  split
  · next hnil => exact absurd hnil hne
  · next rest hcomment =>
    have hhash := hchars '#' (by rw [hcomment]; exact (.head _))
    exact absurd rfl (of_lineChar hhash).2
  · rw [String.ofList_toList]

private theorem parseLine_lineOf (hk : k.Named) (hlo : 1 ≤ port) (hhi : port ≤ maxPort) :
    parseLine (lineOf k port) = some (k, { port }) := by
  have hsplit : Record.splitFields ':' (lineOf k port) =
      [k.account, k.client, String.ofList (Record.itoa port)] := by
    apply Record.splitFields_joinFields (List.cons_ne_nil _ _)
    intro f hf hcolon
    have hplain := plain_of_mem_fields hk hf hcolon
    revert hplain
    decide
  unfold parseLine
  rw [hsplit]
  dsimp only
  rw [String.toList_ofList, Record.atoi_itoa]
  dsimp only
  rw [if_neg (by omega)]

end

def Entry.onRecord (e : Entry) : Option Entry :=
  if e.ephemeral then none else some { port := e.port }

/-- What can be put on record: a machine's assignment has a name, an id and a port. -/
def Recordable (assigned : Assigned) : Prop :=
  ∀ k e, assigned.lookup k = some e → e.ephemeral = false →
    k.Named ∧ 1 ≤ e.port ∧ e.port ≤ maxPort

def machines (assigned : Assigned) : List (Assignment × Entry) :=
  (assigned.entries.filter fun e ↦ !e.2.ephemeral).map fun e ↦ (e.1, { port := e.2.port })

private theorem nodup_machines (assigned : Assigned) : ((machines assigned).map (·.1)).Nodup := by
  have hsub : ((machines assigned).map (·.1)).Sublist (assigned.entries.map (·.1)) := by
    rw [machines, List.map_map]
    exact List.filter_sublist.map _
  exact hsub.nodup assigned.nodupKeys

variable {assigned : Assigned}

private theorem mem_machines {k : Assignment} {c : Entry} :
    (k, c) ∈ machines assigned ↔ (assigned.lookup k).bind Entry.onRecord = some c := by
  simp only [machines, List.mem_map, List.mem_filter, Bool.not_eq_true', Prod.mk.injEq,
    Option.bind_eq_some_iff]
  constructor
  · rintro ⟨e, ⟨he, heph⟩, rfl, rfl⟩
    exact
      ⟨e.2, AList.mem_lookup_iff.mpr he, by rw [Entry.onRecord, heph, if_neg Bool.false_ne_true]⟩
  · rintro ⟨e, he, hrecord⟩
    unfold Entry.onRecord at hrecord
    split at hrecord
    · cases hrecord
    · next heph =>
      cases hrecord
      exact ⟨⟨k, e⟩, ⟨AList.mem_lookup_iff.mp he, Bool.eq_false_iff.mpr heph⟩, rfl, rfl⟩

private theorem filterMap_saveLines (h : Recordable assigned) :
    ((saveLines assigned).filterMap fun line ↦ (recordLine line).bind parseLine).Perm
      (machines assigned) := by
  have hlines : (assigned.entries.filterMap fun e ↦
      if e.2.ephemeral then none else some (lineOf e.1 e.2.port)).filterMap
        (fun line ↦ (recordLine line).bind parseLine) = machines assigned := by
    rw [machines, ← List.filterMap_eq_map, List.filterMap_filter, List.filterMap_filterMap]
    apply List.filterMap_congr
    intro e he
    cases heph : e.2.ephemeral with
    | true => simp
    | false =>
      obtain ⟨hnamed, hlo, hhi⟩ := h e.1 e.2 (AList.mem_lookup_iff.mpr he) heph
      simp [recordLine_lineOf hnamed, parseLine_lineOf hnamed hlo hhi]
  rw [← hlines]
  exact (List.perm_insertionSort _ _).filterMap _

private theorem lookup_readLines_saveLines (h : Recordable assigned) (k : Assignment) :
    (readLines (saveLines assigned)).lookup k = (assigned.lookup k).bind Entry.onRecord := by
  have hperm := filterMap_saveLines h
  have hnodup := ((hperm.map (·.1)).nodup_iff).mpr (nodup_machines assigned)
  ext c
  rw [readLines, lookup_tableOf hnodup, hperm.mem_iff, mem_machines]

/-! ### What is assigned -/

namespace Ports

def view (p : Ports) : Assigned := if p.loaded then p.assigned else readLines p.record

def reload (p : Ports) : Ports := { p with loaded := true, assigned := p.view }

def machinePort (p : Ports) (k : Assignment) : Option Int :=
  ((p.view.lookup k).bind Entry.onRecord).map (·.port)

def Unassigned (p : Ports) (port : Int) : Prop := ∀ k e, p.view.lookup k = some e → e.port ≠ port

variable {p : Ports} {m : Mapping} {reserved : Int → Bool}

theorem view_of_loaded (h : p.loaded = true) : p.view = p.assigned := by
  rw [view, if_pos h]

private theorem reload_of_loaded (h : p.loaded = true) : p.reload = p := by
  obtain ⟨loaded, assigned, next, record⟩ := p
  subst h
  rfl

private theorem eq_reload_of_load {q : Ports} {unreadable : Option String}
    (h : p.load unreadable = .ok q) : q = p.reload := by
  unfold load at h
  split at h
  · next hl =>
    cases h
    exact (reload_of_loaded hl).symm
  · next hl =>
    split at h
    · cases h
    · cases h
      rw [reload, view, if_neg hl]

variable {port : Int}

private theorem taken_eq_false_iff : p.reload.taken port = false ↔ p.Unassigned port := by
  simp only [taken, List.any_eq_false, beq_iff_eq, Unassigned]
  constructor
  · intro h k e hk
    exact h ⟨k, e⟩ (AList.mem_lookup_iff.mp hk)
  · intro h e he
    exact h e.1 e.2 (AList.mem_lookup_iff.mpr he)

/-! ### What is chosen -/

/-- A port in range that no uid in use derives. -/
structure Spare (m : Mapping) (reserved : Int → Bool) (port : Int) : Prop where
  lo : m.portBase ≤ port
  hi : port ≤ maxPort
  underived : ∀ uid, reserved uid = true → m.portForUID uid ≠ .ok port

private theorem underived_of_derived {uid : Int} (h : derived m reserved port = false)
    (hreserved : reserved uid = true) : m.portForUID uid ≠ .ok port := by
  intro hport
  rw [derived, (uidForPort_of_portForUID hport).1] at h
  exact absurd (hreserved.symm.trans h) Bool.noConfusion

private theorem spare_of_free (h : free m reserved port = true) : Spare m reserved port := by
  unfold free at h
  split at h
  · cases h
  · next hrange =>
    rw [Bool.not_eq_true'] at h
    exact ⟨by omega, by omega, fun uid hreserved ↦ underived_of_derived h hreserved⟩

private theorem allocateFrom_spec {n : Nat} (hlo : m.portBase ≤ port + 1 - n)
    (hhi : port ≤ maxPort) (hne : p.reload.allocateFrom m reserved port n ≠ 0) :
    p.Unassigned (p.reload.allocateFrom m reserved port n) ∧
      Spare m reserved (p.reload.allocateFrom m reserved port n) := by
  induction n generalizing port with
  | zero => exact absurd rfl hne
  | succ n ih =>
    unfold allocateFrom at hne ⊢
    split at hne
    · next hskip =>
      rw [if_pos hskip]
      exact ih (by omega) (by omega) hne
    · next hstop =>
      rw [if_neg hstop]
      rw [Bool.or_eq_true, not_or, Bool.not_eq_true, Bool.not_eq_true] at hstop
      exact ⟨taken_eq_false_iff.mp hstop.1, by omega, hhi,
        fun uid hreserved ↦ underived_of_derived hstop.2 hreserved⟩

private theorem allocate_spec (hne : p.reload.allocate m reserved ≠ 0) :
    p.Unassigned (p.reload.allocate m reserved) ∧
      Spare m reserved (p.reload.allocate m reserved) := by
  rw [allocate] at hne ⊢
  by_cases hbase : m.portBase ≤ maxPort
  · exact allocateFrom_spec (by omega) le_rfl hne
  · rw [show (maxPort + 1 - m.portBase).toNat = 0 by omega] at hne
    exact absurd rfl hne

private theorem choose_spec {base want : Int} {ephemeral : Bool}
    (hport : p.reload.choose m reserved base want ephemeral = port) (hne : port ≠ 0) :
    p.Unassigned port ∧ (ephemeral = false ∧ port = base ∨ Spare m reserved port) := by
  have hspare : p.reload.allocate m reserved = port →
      p.Unassigned port ∧ (ephemeral = false ∧ port = base ∨ Spare m reserved port) := by
    rintro rfl
    exact ⟨(allocate_spec hne).1, .inr (allocate_spec hne).2⟩
  unfold choose at hport
  by_cases hwant : want ≠ 0 ∧ !p.reload.taken want ∧ free m reserved want
  · have hkeep : (if want = 0 ∧ !ephemeral ∧ !p.reload.taken base then base else want) = want :=
      if_neg fun h ↦ hwant.1 h.1
    rw [if_pos hwant] at hport
    dsimp only at hport
    rw [hkeep, if_neg hwant.1] at hport
    subst hport
    exact ⟨taken_eq_false_iff.mp (by simpa using hwant.2.1), .inr (spare_of_free hwant.2.2)⟩
  · rw [if_neg hwant] at hport
    dsimp only at hport
    by_cases hbase : !ephemeral ∧ !p.reload.taken base
    · simp only [true_and, if_pos hbase] at hport
      by_cases hzero : base = 0
      · rw [if_pos hzero] at hport
        exact hspare hport
      · rw [if_neg hzero] at hport
        subst hport
        exact ⟨taken_eq_false_iff.mp (by simpa using hbase.2),
          .inl ⟨by simpa using hbase.1, rfl⟩⟩
    · simp only [true_and, if_neg hbase, if_true] at hport
      exact hspare hport

/-! ### What a call does -/

def placed (p : Ports) (k : Assignment) (port : Int) (ephemeral : Bool) : Ports :=
  let q := (p.reload.assign k port ephemeral).1
  if ephemeral then q else q.save

/-- What a call that may assign `k` a port does: nothing, read the record, or assign a port that
nobody has and that fits. -/
inductive Grant (p : Ports) (k : Assignment) (ephemeral : Bool) (fit : Int → Prop) : Ports → Prop
  | stays : Grant p k ephemeral fit p
  | reads : Grant p k ephemeral fit p.reload
  | places (port : Int) (hnew : p.view.lookup k = none) (hport : p.Unassigned port)
      (hfit : fit port) : Grant p k ephemeral fit (p.placed k port ephemeral)

section

variable {k : Assignment} {base want port : Int} {ephemeral : Bool} {unreadable : Option String}

private theorem loaded_placed : (p.placed k port ephemeral).loaded = true := by
  cases ephemeral <;> rfl

theorem next_placed : (p.placed k port ephemeral).next = p.next + 1 := by
  cases ephemeral <;> rfl

theorem view_placed : (p.placed k port ephemeral).view =
    p.view.insert k { port, ephemeral, token := p.next + 1 } := by
  cases ephemeral <;> rfl

private theorem lookup_placed :
    (p.placed k port ephemeral).view.lookup k = some { port, ephemeral, token := p.next + 1 } := by
  rw [view_placed, AList.lookup_insert]

/-- What `decide` grants, and that the grant is what it answers. -/
theorem decide_spec (p : Ports) (m : Mapping) (reserved : Int → Bool) (k : Assignment)
    (base want : Int) (ephemeral : Bool) (unreadable : Option String) :
    Grant p k ephemeral
        (fun port ↦ port ≠ 0 ∧ (ephemeral = false ∧ port = base ∨ Spare m reserved port))
        (p.decide m reserved k base want ephemeral unreadable).1 ∧
      ∀ e, (p.decide m reserved k base want ephemeral unreadable).2 = .ok e →
        (p.decide m reserved k base want ephemeral unreadable).1.loaded = true ∧
          (p.decide m reserved k base want ephemeral unreadable).1.view.lookup k = some e := by
  unfold decide
  split
  · refine ⟨Grant.stays, ?_⟩
    rintro e ⟨⟩
  · next q hload =>
    rw [eq_reload_of_load hload]
    split
    · next e hknown =>
      refine ⟨Grant.reads, ?_⟩
      rintro e' ⟨⟩
      exact ⟨rfl, hknown⟩
    · next hnew =>
      dsimp only
      by_cases hne : p.reload.choose m reserved base want ephemeral = 0
      · rw [if_pos hne]
        refine ⟨Grant.reads, ?_⟩
        rintro e ⟨⟩
      · rw [if_neg hne]
        obtain ⟨hport, hfit⟩ := choose_spec rfl hne
        refine ⟨Grant.places _ hnew hport ⟨hne, hfit⟩, ?_⟩
        rintro e ⟨⟩
        exact ⟨loaded_placed, lookup_placed⟩

theorem entry_spec (unreadable : Option String) :
    ((p.entry k unreadable).1 = p ∨ (p.entry k unreadable).1 = p.reload) ∧
      ∀ e, (p.entry k unreadable).2 = .ok (some e) →
        (p.entry k unreadable).1.loaded = true ∧
          (p.entry k unreadable).1.view.lookup k = some e := by
  unfold entry
  split
  · refine ⟨.inl rfl, ?_⟩
    rintro e ⟨⟩
  · next q hload =>
    rw [eq_reload_of_load hload]
    refine ⟨.inr rfl, ?_⟩
    intro e he
    exact ⟨rfl, Except.ok.inj he⟩

private theorem hold_grant (reserved : Int → Bool) (k : Assignment) (port : Int)
    (unreadable : Option String) :
    Grant p k true (fun q ↦ q = port ∧ Spare m reserved q)
      (p.hold m reserved k port unreadable).1 := by
  unfold hold
  split
  · exact Grant.stays
  · next q hload =>
    rw [eq_reload_of_load hload]
    split
    · exact Grant.reads
    · next hnew =>
      split
      · exact Grant.reads
      · next hok =>
        simp only [not_or, Bool.not_eq_true, Bool.not_eq_true', Bool.not_eq_false] at hok
        exact Grant.places port hnew (taken_eq_false_iff.mp hok.1) ⟨rfl, spare_of_free hok.2⟩

end

/-- What any call does, and the agent's restart; `gone` is the account that is forgotten. -/
inductive Effect (p : Ports) : Option String → Ports → Prop
  | stays : Effect p none p
  | reads : Effect p none p.reload
  | places (k : Assignment) (port : Int) (ephemeral : Bool) (hk : k.Named)
      (hnew : p.view.lookup k = none) (hport : p.Unassigned port)
      (hrange : ephemeral = false → 1 ≤ port ∧ port ≤ maxPort) :
      Effect p none (p.placed k port ephemeral)
  | frees (k : Assignment) (e : Entry) (he : p.assigned.lookup k = some e)
      (hrun : e.ephemeral = true) : Effect p none { p with assigned := p.assigned.erase k }
  | forgets (account : String) (kept : Assigned)
      (hkept : ∀ k e, kept.lookup k = some e ↔
        p.view.lookup k = some e ∧ ¬(k.account = account ∧ e.ephemeral = false)) :
      Effect p (some account) { p.reload with assigned := kept }.save
  | restarts : Effect p none p.restart

variable {k : Assignment}

theorem Grant.effect {ephemeral : Bool} {fit : Int → Prop} {q : Ports}
    (h : Grant p k ephemeral fit q) (hk : k.Named)
    (hrange : ∀ port, fit port → ephemeral = false → 1 ≤ port ∧ port ≤ maxPort) :
    Effect p none q := by
  cases h with
  | stays => exact .stays
  | reads => exact .reads
  | places port hnew hport hfit => exact .places k port ephemeral hk hnew hport (hrange port hfit)

private theorem entry_effect {unreadable : Option String} :
    Effect p none (p.entry k unreadable).1 := by
  rcases (entry_spec unreadable).1 with h | h
  · rw [h]
    exact .stays
  · rw [h]
    exact .reads

theorem release_effect {t : Nat} : Effect p none (p.release k t).1 := by
  unfold release
  split
  · next e he =>
    split
    · next hfree => exact .frees k e he hfree.1
    · exact .stays
  · exact .stays

private theorem forget_effect {account : String} {unreadable : Option String} :
    Effect p none (p.forget account unreadable).1 ∨
      Effect p (some account) (p.forget account unreadable).1 := by
  unfold forget
  split
  · exact .inl .stays
  · next q hload =>
    rw [eq_reload_of_load hload]
    split
    · refine .inr (.forgets account _ ?_)
      intro k e
      rw [← Option.mem_def, ← Option.mem_def, AList.mem_lookup_iff, List.mem_filter,
        ← AList.mem_lookup_iff, Option.mem_def, Option.mem_def]
      simp only [reload, Bool.not_eq_true', Bool.and_eq_false_iff, beq_eq_false_iff_ne,
        Bool.not_eq_false', not_and, Bool.not_eq_false, ne_eq]
      rw [imp_iff_not_or]
    · exact .inl .reads

/-! ### What stays true -/

structure Sound (assigned : Assigned) : Prop where
  /-- No two have one port. -/
  distinct : ∀ k k' e e', assigned.lookup k = some e → assigned.lookup k' = some e' →
    e.port = e'.port → k = k'
  recordable : Recordable assigned

structure Inv (p : Ports) : Prop where
  unread : p.loaded = false → p.assigned = ∅
  sound : Sound p.view
  /-- The record holds the machines, and no run. -/
  recorded : ∀ k, (readLines p.record).lookup k = (p.view.lookup k).bind Entry.onRecord

theorem inv_start : Inv {} where
  unread _ := rfl
  sound := { distinct := by rintro k k' e e' ⟨⟩, recordable := by rintro k e ⟨⟩ }
  recorded k := rfl

section

variable {q : Ports} {assigned kept : Assigned} {k : Assignment} {e : Entry}

private theorem Sound.insert (hs : Sound assigned) (hk : k.Named)
    (hport : ∀ k' e', assigned.lookup k' = some e' → e'.port ≠ e.port)
    (hrange : e.ephemeral = false → 1 ≤ e.port ∧ e.port ≤ maxPort) :
    Sound (assigned.insert k e) where
  distinct a b ea eb ha hb hab := by
    rw [lookup_insert_eq_some] at ha hb
    rcases ha with ⟨rfl, rfl⟩ | ⟨-, ha⟩ <;> rcases hb with ⟨rfl, rfl⟩ | ⟨-, hb⟩
    · rfl
    · exact absurd hab.symm (hport b eb hb)
    · exact absurd hab (hport a ea ha)
    · exact hs.distinct a b ea eb ha hb hab
  recordable := forall_lookup_insert (fun hmachine ↦ ⟨hk, hrange hmachine⟩) hs.recordable

private theorem Sound.mono (hs : Sound assigned)
    (hsub : ∀ k e, kept.lookup k = some e → ∃ e', assigned.lookup k = some e' ∧ e'.port = e.port ∧
      (e.ephemeral = false → e'.ephemeral = false)) : Sound kept where
  distinct a b ea eb ha hb hab := by
    obtain ⟨fa, hfa, hpa, -⟩ := hsub a ea ha
    obtain ⟨fb, hfb, hpb, -⟩ := hsub b eb hb
    exact hs.distinct a b fa fb hfa hfb (hpa.trans (hab.trans hpb.symm))
  recordable a ea ha hmachine := by
    obtain ⟨fa, hfa, hpa, hmachine'⟩ := hsub a ea ha
    rw [← hpa]
    exact hs.recordable a fa hfa (hmachine' hmachine)

private theorem inv_save (hl : q.loaded = true) (hs : Sound q.assigned) : Inv q.save where
  unread h := absurd (hl.symm.trans h) Bool.noConfusion
  sound := by
    rw [view_of_loaded (p := q.save) hl]
    exact hs
  recorded k := by
    rw [view_of_loaded (p := q.save) hl]
    exact lookup_readLines_saveLines hs.recordable k

private theorem onRecord_of_ephemeral (h : e.ephemeral = true) : e.onRecord = none := if_pos h

variable {port : Int}

private theorem inv_placed {ephemeral : Bool} (hi : Inv p) (hk : k.Named)
    (hnew : p.view.lookup k = none) (hport : p.Unassigned port)
    (hrange : ephemeral = false → 1 ≤ port ∧ port ≤ maxPort) : Inv (p.placed k port ephemeral) := by
  have hsound : Sound (p.view.insert k { port, ephemeral, token := p.next + 1 }) :=
    hi.sound.insert hk hport hrange
  cases ephemeral with
  | false => exact inv_save rfl hsound
  | true =>
    -- A run's assignment leaves the record as it is, and the record does not hold it.
    refine ⟨fun h ↦ Bool.noConfusion h, hsound, ?_⟩
    intro a
    rw [view_placed]
    by_cases ha : a = k
    · subst ha
      rw [AList.lookup_insert]
      exact (hi.recorded a).trans (by rw [hnew]; rfl)
    · rw [AList.lookup_insert_ne ha]
      exact hi.recorded a

theorem loaded_of_assigned (hi : Inv p) (he : p.assigned.lookup k = some e) :
    p.loaded = true := by
  cases hl : p.loaded with
  | true => rfl
  | false =>
    rw [hi.unread hl] at he
    cases he

private theorem inv_erase (hi : Inv p) (he : p.assigned.lookup k = some e)
    (hrun : e.ephemeral = true) :
    Inv { p with assigned := p.assigned.erase k } := by
  have hl := loaded_of_assigned hi he
  have hview := view_of_loaded hl
  have hview' : view { p with assigned := p.assigned.erase k } = p.assigned.erase k := if_pos hl
  constructor
  · intro h
    exact absurd (hl.symm.trans h) Bool.noConfusion
  · rw [hview']
    apply hi.sound.mono
    intro a ea ha
    rw [hview]
    exact ⟨ea, (lookup_erase_eq_some.mp ha).2, rfl, id⟩
  · intro a
    rw [hview']
    refine (hi.recorded a).trans ?_
    rw [hview]
    by_cases ha : a = k
    · subst ha
      rw [he, AList.lookup_erase]
      exact onRecord_of_ephemeral hrun
    · rw [AList.lookup_erase_ne ha]

private theorem onRecord_eq_some {c : Entry} :
    e.onRecord = some c ↔ e.ephemeral = false ∧ c = { port := e.port } := by
  cases heph : e.ephemeral <;> simp [Entry.onRecord, heph, eq_comm]

theorem inv_restart (hi : Inv p) : Inv p.restart where
  unread _ := rfl
  sound := by
    apply hi.sound.mono
    intro a ea ha
    obtain ⟨e, he, hrecord⟩ := Option.bind_eq_some_iff.mp ((hi.recorded a).symm.trans ha)
    obtain ⟨hmachine, rfl⟩ := onRecord_eq_some.mp hrecord
    exact ⟨e, he, rfl, fun _ ↦ hmachine⟩
  recorded a := by
    show (readLines p.record).lookup a = ((readLines p.record).lookup a).bind Entry.onRecord
    rw [hi.recorded a, Option.bind_assoc]
    congr 1
    funext e
    unfold Entry.onRecord
    split <;> rfl

theorem inv_effect {gone : Option String} (hi : Inv p) (h : Effect p gone q) : Inv q := by
  cases h with
  | stays => exact hi
  | reads => exact ⟨fun h ↦ Bool.noConfusion h, hi.sound, hi.recorded⟩
  | places k port ephemeral hk hnew hport hrange => exact inv_placed hi hk hnew hport hrange
  | frees k e he hrun => exact inv_erase hi he hrun
  | forgets account kept hkept =>
    apply inv_save rfl
    apply hi.sound.mono
    intro k e hk
    exact ⟨e, ((hkept k e).mp hk).1, rfl, id⟩
  | restarts => exact inv_restart hi

private theorem machinePort_eq (hi : Inv p) (k : Assignment) :
    p.machinePort k = ((readLines p.record).lookup k).map (·.port) := by
  rw [machinePort, hi.recorded k]

private theorem machinePort_eq_some : p.machinePort k = some port ↔
      ∃ e, p.view.lookup k = some e ∧ e.ephemeral = false ∧ e.port = port := by
  rw [machinePort, Option.map_eq_some_iff]
  constructor
  · rintro ⟨c, hc, rfl⟩
    obtain ⟨e, he, hrecord⟩ := Option.bind_eq_some_iff.mp hc
    obtain ⟨hmachine, rfl⟩ := onRecord_eq_some.mp hrecord
    exact ⟨e, he, hmachine, rfl⟩
  · rintro ⟨e, he, hmachine, rfl⟩
    refine ⟨{ port := e.port }, ?_, rfl⟩
    rw [he]
    exact onRecord_eq_some.mpr ⟨hmachine, rfl⟩

/-- A machine keeps its port until its account is forgotten. -/
theorem machinePort_effect {gone : Option String} (hi : Inv p)
    (h : Effect p gone q) (hgone : gone ≠ some k.account) (hk : p.machinePort k = some port) :
    q.machinePort k = some port := by
  obtain ⟨e, he, hmachine, hport⟩ := machinePort_eq_some.mp hk
  cases h with
  | stays => exact hk
  | reads => exact hk
  | places k' port' ephemeral hk' hnew =>
    refine machinePort_eq_some.mpr ⟨e, ?_, hmachine, hport⟩
    rw [view_placed]
    refine lookup_insert_eq_some.mpr (.inr ⟨?_, he⟩)
    rintro rfl
    rw [hnew] at he
    cases he
  | frees k' e' he' hrun =>
    have hl := loaded_of_assigned hi he'
    rw [view_of_loaded hl] at he
    refine machinePort_eq_some.mpr ⟨e, ?_, hmachine, hport⟩
    rw [view_of_loaded (p := { p with assigned := p.assigned.erase k' }) hl]
    refine lookup_erase_eq_some.mpr ⟨?_, he⟩
    rintro rfl
    rw [he'] at he
    cases he
    exact absurd (hrun.symm.trans hmachine) Bool.noConfusion
  | forgets account kept hkept =>
    refine machinePort_eq_some.mpr ⟨e, (hkept k e).mpr ⟨he, ?_⟩, hmachine, hport⟩
    rintro ⟨hsame, -⟩
    exact hgone (congrArg some hsame.symm)
  | restarts =>
    rw [machinePort_eq (inv_restart hi)]
    exact (machinePort_eq hi k).symm.trans hk

end

/-! ### Who owns a port -/

/-- An account owns the ports it is assigned, and its derived one while that is nobody's. -/
theorem owns_eq_true_iff {account : String} {uid port : Int} {unreadable : Option String}
    (hs : Sound p.view) :
    p.owns m account uid port unreadable = true ↔
      (∃ q, p.load unreadable = .ok q) ∧
        ((∃ client e, p.view.lookup ⟨account, client⟩ = some e ∧ e.port = port) ∨
          p.Unassigned port ∧ m.portForUID uid = .ok port) := by
  unfold owns
  split
  · next hload => simp [hload]
  · next q hload =>
    rw [hload, and_iff_right ⟨q, rfl⟩, eq_reload_of_load hload]
    split
    · next e hfind =>
      have hport : e.2.port = port := by simpa using List.find?_some hfind
      have hmem : p.view.lookup e.1 = some e.2 :=
        AList.mem_lookup_iff.mpr (List.mem_of_find?_eq_some hfind)
      rw [beq_iff_eq]
      constructor
      · rintro rfl
        exact .inl ⟨e.1.client, e.2, hmem, hport⟩
      · rintro (⟨client, e', he', hport'⟩ | ⟨hfree, -⟩)
        · rw [hs.distinct _ _ _ _ hmem he' (hport.trans hport'.symm)]
        · exact absurd hport (hfree _ _ hmem)
    · next hfind =>
      have hfree : p.Unassigned port := by
        intro k e hk hport
        have hnone := List.find?_eq_none.mp hfind ⟨k, e⟩ (AList.mem_lookup_iff.mp hk)
        exact hnone (beq_iff_eq.mpr hport)
      constructor
      · intro h
        refine .inr ⟨hfree, ?_⟩
        split at h
        · cases h
        · next base hbase =>
          rw [beq_iff_eq.mp h]
          exact hbase
      · rintro (⟨client, e, he, hport⟩ | ⟨-, hbase⟩)
        · exact absurd hport (hfree _ _ he)
        · rw [hbase]
          exact beq_self_eq_true port

/-! ### What a call begins with -/

/-- A call answered at once was answered with what is assigned, or a session without a name with
the derived port; one that asks goes on with the derived port. -/
theorem callBegin_spec (p : Ports) (m : Mapping) (account : Name) (uid : Int) (client : Name)
    (run : Bool) (unreadable : Option String) :
    Effect p none (p.callBegin m account uid client run unreadable).1 ∧
      (∀ e, (p.callBegin m account uid client run unreadable).2 = .known e →
        ((p.callBegin m account uid client run unreadable).1.loaded = true ∧
          (p.callBegin m account uid client run unreadable).1.view.lookup
            (assignmentOf account client) = some e) ∨
        client.text = "" ∧ m.portForUID uid = .ok e.port) ∧
      ∀ base, (p.callBegin m account uid client run unreadable).2 = .ask base → run = false →
        m.portForUID uid = .ok base := by
  have hknown : ∀ base e, begun base (p.entry (assignmentOf account client) unreadable).2 =
      .known e → (p.entry (assignmentOf account client) unreadable).2 = .ok (some e) := by
    intro base e h
    unfold begun at h
    split at h
    · cases h
    · next hentry =>
      cases h
      exact hentry
    · cases h
  cases run with
  | true =>
    refine ⟨entry_effect, ?_, ?_⟩
    · intro e he
      exact .inl ((entry_spec unreadable).2 e (hknown 0 e he))
    · rintro base - ⟨⟩
  | false =>
    simp only [callBegin, Bool.false_eq_true, if_false, forBegin]
    split
    · refine ⟨.stays, ?_, ?_⟩
      · rintro e ⟨⟩
      · rintro base ⟨⟩
    · next base hbase =>
      split
      · next hempty =>
        refine ⟨.stays, ?_, ?_⟩
        · rintro e ⟨⟩
          exact .inr ⟨hempty, hbase⟩
        · rintro base' ⟨⟩
      · refine ⟨entry_effect, ?_, ?_⟩
        · intro e he
          exact .inl ((entry_spec unreadable).2 e (hknown base e he))
        · intro base' hask _
          unfold begun at hask
          split at hask
          · cases hask
          · cases hask
          · cases hask
            exact hbase

end Ports

/-! ### The accounts and their calls -/

def Allocation.Derived (m : Mapping) (a : Allocation) : Prop :=
  ∃ uid, a.accounts.lookup a.key.account = some uid ∧ m.portForUID uid = .ok a.port

/-- A port given to somebody who does not derive it is in range and not derived by an account
that existed then. -/
def Allocation.Fair (m : Mapping) (a : Allocation) : Prop :=
  ¬a.Derived m → m.portBase ≤ a.port ∧ a.port ≤ maxPort ∧
    ∀ account uid, a.accounts.lookup account = some uid → m.portForUID uid ≠ .ok a.port

namespace State

variable {m : Mapping} {s s' : State} {e : Event} {told : Option (Except String Told)}
  {uid port : Int} {unreadable : Option String} {k : Assignment}

private theorem reserved_of_lookup {account : String}
    (h : s.accounts.lookup account = some uid) : s.reserved uid = true :=
  List.any_eq_true.mpr ⟨⟨account, uid⟩, AList.mem_lookup_iff.mp h, beq_self_eq_true uid⟩

def CallOf (m : Mapping) (s : State) (c : Call) : Prop :=
  c.run = false → ∃ uid, s.accounts.lookup c.account.text = some uid ∧ m.portForUID uid = .ok c.base

structure Inv (m : Mapping) (s : State) : Prop where
  ports : s.ports.Inv
  uids : ∀ a b uid, s.accounts.lookup a = some uid → s.accounts.lookup b = some uid → a = b
  calls : ∀ n c, s.calls.lookup n = some c → s.CallOf m c
  allocations : ∀ a ∈ s.allocations, a.Fair m

structure Change (m : Mapping) (s : State) (e : Event) (s' : State) : Prop where
  ports : ∃ gone, Ports.Effect s.ports gone s'.ports ∧ ∀ a, gone = some a → e.forgotten = some a
  accounts : s'.accounts = s.accounts ∨
    ∃ account uid, account ∉ s.accounts ∧ s.reserved uid = false ∧
      s'.accounts = s.accounts.insert account uid
  calls : ∀ n c, s'.calls.lookup n = some c → s.calls.lookup n = some c ∨ s.CallOf m c
  allocations : ∀ a ∈ s'.allocations, a ∈ s.allocations ∨ a.Fair m

private theorem Change.of_ports (hports : Ports.Effect s.ports none s'.ports)
    (haccounts : s'.accounts = s.accounts) (hcalls : s'.calls = s.calls)
    (hallocations : s'.allocations = s.allocations) : Change m s e s' where
  ports := ⟨none, hports, nofun⟩
  accounts := .inl haccounts
  calls _ _ hc := .inl (hcalls ▸ hc)
  allocations _ ha := .inl (hallocations ▸ ha)

private theorem change_begin {n : Nat} {account client : Name} {run : Bool}
    (h : s.begin m n account client run unreadable = some (s', told)) :
    Change m s (.begin n account client run unreadable) s' := by
  unfold begin at h
  split at h
  · cases h
  · next uid huid =>
    split at h
    · cases h
    · obtain ⟨heffect, -, hask⟩ :=
        Ports.callBegin_spec s.ports m account uid client run unreadable
      split at h
      iterate 2
        · next hcall =>
          rw [hcall] at heffect
          cases h
          exact .of_ports heffect rfl rfl rfl
      · next base hcall =>
        rw [hcall] at heffect hask
        cases h
        refine ⟨⟨none, heffect, nofun⟩, .inl rfl, ?_, fun a ha ↦ .inl ha⟩
        intro n' c hc
        rcases lookup_insert_eq_some.mp hc with ⟨rfl, rfl⟩ | ⟨-, hc⟩
        · exact .inr fun hrun ↦ ⟨uid, huid, hask base rfl hrun⟩
        · exact .inl hc

private theorem fair_withPorts {ephemeral : Bool} {fit : Int → Prop} {ports : Ports}
    (hgrant : Ports.Grant s.ports k ephemeral fit ports)
    (hfair : ∀ port', fit port' → ports = s.ports.placed k port' ephemeral →
      (⟨k, port, s.accounts⟩ : Allocation).Fair m) :
    ∀ a ∈ (s.withPorts k ports port).allocations, a ∈ s.allocations ∨ a.Fair m := by
  intro a ha
  unfold withPorts at ha
  split at ha
  · next hlt =>
    cases hgrant with
    | stays => exact absurd hlt (lt_irrefl _)
    | reads => exact absurd hlt (lt_irrefl _)
    | places port' hnew hport hfit =>
      rcases List.mem_cons.mp ha with rfl | ha
      · exact .inr (hfair port' hfit rfl)
      · exact .inl ha
  · exact .inl ha

private theorem fair_of_spare (h : Ports.Spare m s.reserved port) :
    (⟨k, port, s.accounts⟩ : Allocation).Fair m := fun _ ↦
  ⟨h.lo, h.hi, fun _ uid hlookup ↦ h.underived uid (reserved_of_lookup hlookup)⟩

private theorem change_answer {n : Nat} {want : Except String Int}
    (hi : Inv m s) (h : s.answer m n want unreadable = some (s', told)) :
    Change m s (.answer n want unreadable) s' := by
  unfold answer at h
  split at h
  · cases h
  · next c hc =>
    split at h
    · cases h
    · next uid huid =>
      have hcalls : ∀ n' c', (s.calls.erase n).lookup n' = some c' →
          s.calls.lookup n' = some c' ∨ s.CallOf m c' :=
        fun n' c' hc' ↦ .inl (lookup_erase_eq_some.mp hc').2
      dsimp only at h
      split at h
      · cases h
        exact ⟨⟨none, .stays, nofun⟩, .inl rfl, hcalls, fun a ha ↦ .inl ha⟩
      · next want =>
        obtain ⟨hgrant, hok⟩ := Ports.decide_spec s.ports m s.reserved
          (assignmentOf c.account c.client) c.base want c.run unreadable
        have hderives : c.run = false → ∀ port, port = c.base →
            (⟨assignmentOf c.account c.client, port, s.accounts⟩ : Allocation).Derived m := by
          intro hrun port hport
          obtain ⟨uid', huid', hbase⟩ := hi.calls n c hc hrun
          exact ⟨uid', huid', hport ▸ hbase⟩
        have hrange : ∀ port,
            port ≠ 0 ∧ (c.run = false ∧ port = c.base ∨ Ports.Spare m s.reserved port) →
            c.run = false → 1 ≤ port ∧ port ≤ maxPort := by
          rintro port ⟨-, hfit⟩ hrun
          obtain ⟨uid', -, hbase⟩ := hi.calls n c hc hrun
          obtain ⟨-, hlo, hle, hhi⟩ := uidForPort_of_portForUID hbase
          rcases hfit with ⟨-, rfl⟩ | hspare
          · omega
          · exact ⟨hlo.trans hspare.lo, hspare.hi⟩
        have heffect := hgrant.effect (named_assignmentOf c.account c.client) hrange
        split at h
        · next ports err hdecide =>
          rw [show s.ports.decide m s.reserved _ _ _ _ _ = (ports, .error err) from hdecide]
            at heffect
          cases h
          exact ⟨⟨none, heffect, nofun⟩, .inl rfl, hcalls, fun a ha ↦ .inl ha⟩
        · next ports e hdecide =>
          rw [show s.ports.decide m s.reserved _ _ _ _ _ = (ports, .ok e) from hdecide]
            at heffect hgrant hok
          cases h
          refine ⟨⟨none, heffect, nofun⟩, .inl rfl, hcalls, ?_⟩
          refine fair_withPorts (s := { s with calls := s.calls.erase n }) hgrant ?_
          intro port hfit hplaced
          -- What was placed is what `decide` answered.
          have hentry := (hok e rfl).2
          rw [hplaced, Ports.lookup_placed] at hentry
          cases hentry
          rcases hfit.2 with ⟨hrun, hport⟩ | hspare
          · intro hnot
            exact absurd (hderives hrun port hport) hnot
          · exact fair_of_spare hspare

theorem change_act (hi : Inv m s) (h : s.act m e = some (s', told)) : Change m s e s' := by
  cases e with
  | enrol account uid =>
    simp only [act] at h
    split at h
    · cases h
    · next hnew =>
      rw [not_or, Bool.not_eq_true] at hnew
      cases h
      exact ⟨⟨none, .stays, nofun⟩, .inr ⟨account.text, uid, hnew.1, hnew.2, rfl⟩,
        fun _ _ hc ↦ .inl hc, fun _ ha ↦ .inl ha⟩
  | begin n account client run unreadable => exact change_begin h
  | answer n want unreadable => exact change_answer hi h
  | hold account client port unreadable =>
    cases h
    have hgrant := Ports.hold_grant (p := s.ports) (m := m) s.reserved
      (assignmentOf account client) port unreadable
    refine ⟨⟨none, hgrant.effect (named_assignmentOf account client) nofun, nofun⟩, .inl rfl,
      fun _ _ hc ↦ .inl hc, ?_⟩
    apply fair_withPorts hgrant
    rintro port' ⟨rfl, hspare⟩ -
    exact fair_of_spare hspare
  | free account client token =>
    cases h
    exact .of_ports Ports.release_effect rfl rfl rfl
  | forget account unreadable =>
    cases h
    rcases Ports.forget_effect (p := s.ports) with heffect | heffect
    · exact .of_ports heffect rfl rfl rfl
    · exact ⟨⟨some account.text, heffect, fun _ ha ↦ ha⟩, .inl rfl, fun _ _ hc ↦ .inl hc,
        fun _ ha ↦ .inl ha⟩
  | restart =>
    cases h
    exact ⟨⟨none, .restarts, nofun⟩, .inl rfl, nofun, fun _ ha ↦ .inl ha⟩

private theorem Change.lookup_accounts {account : String} (h : Change m s e s')
    (huid : s.accounts.lookup account = some uid) : s'.accounts.lookup account = some uid := by
  rcases h.accounts with hsame | ⟨account', uid', hnew, -, hinsert⟩
  · rw [hsame]
    exact huid
  · rw [hinsert]
    refine lookup_insert_eq_some.mpr (.inr ⟨?_, huid⟩)
    rintro rfl
    exact hnew (mem_of_lookup huid)

private theorem uids_change (hi : Inv m s) (h : Change m s e s') {a b : String}
    (ha : s'.accounts.lookup a = some uid) (hb : s'.accounts.lookup b = some uid) : a = b := by
  rcases h.accounts with hsame | ⟨account, uid', -, hfresh, hinsert⟩
  · rw [hsame] at ha hb
    exact hi.uids a b uid ha hb
  · have hother : ∀ c, s.accounts.lookup c ≠ some uid' := by
      intro c hc
      rw [reserved_of_lookup hc] at hfresh
      cases hfresh
    rw [hinsert, lookup_insert_eq_some] at ha hb
    rcases ha with ⟨rfl, rfl⟩ | ⟨-, ha⟩ <;> rcases hb with ⟨rfl, hbe⟩ | ⟨-, hb⟩
    · rfl
    · exact absurd hb (hother b)
    · exact absurd (hbe ▸ ha) (hother a)
    · exact hi.uids a b uid ha hb

theorem inv_change (hi : Inv m s) (h : Change m s e s') : Inv m s' where
  ports := by
    obtain ⟨gone, heffect, -⟩ := h.ports
    exact Ports.inv_effect hi.ports heffect
  uids _ _ _ ha hb := uids_change hi h ha hb
  calls n c hc hrun := by
    have hcall : s.CallOf m c := by
      rcases h.calls n c hc with hold | hnew
      · exact hi.calls n c hold
      · exact hnew
    obtain ⟨uid, huid, hbase⟩ := hcall hrun
    exact ⟨uid, h.lookup_accounts huid, hbase⟩
  allocations a ha := by
    rcases h.allocations a ha with hold | hnew
    · exact hi.allocations a hold
    · exact hnew

private theorem act_of_step (h : (machine m).step s e = some s') :
    ∃ told, s.act m e = some (s', told) := by
  obtain ⟨⟨t, told⟩, hact, rfl⟩ := Option.map_eq_some_iff.mp h
  exact ⟨told, hact⟩

private theorem inv_step (hi : Inv m s) (h : (machine m).step s e = some s') : Inv m s' := by
  obtain ⟨told, hact⟩ := act_of_step h
  exact inv_change hi (change_act hi hact)

private theorem inv_start (m : Mapping) : Inv m {} where
  ports := Ports.inv_start
  uids := nofun
  calls := nofun
  allocations := nofun

theorem inv_run {es : List Event} (hr : (machine m).run {} es = some s) : Inv m s :=
  (machine m).run_invariant_all (fun _ _ _ hi h ↦ inv_step hi h) (inv_start m) hr

private theorem machinePort_run {es : List Event} (hi : Inv m s)
    (hk : s.ports.machinePort k = some port) (hkeep : ∀ e ∈ es, e.forgotten ≠ some k.account)
    (hr : (machine m).run s es = some s') : s'.ports.machinePort k = some port := by
  induction es generalizing s with
  | nil =>
    cases hr
    exact hk
  | cons e es ih =>
    obtain ⟨t, ht, hrest⟩ := (machine m).run_cons hr
    obtain ⟨told, hact⟩ := act_of_step ht
    have hchange := change_act hi hact
    obtain ⟨gone, heffect, hgone⟩ := hchange.ports
    have hother : gone ≠ some k.account := by
      intro h
      exact hkeep e (.head _) (hgone _ h)
    exact ih (inv_change hi hchange) (Ports.machinePort_effect hi.ports heffect hother hk)
      (fun e' he' ↦ hkeep e' (.tail _ he')) hrest

private theorem owner_unique (hi : Inv m s) {a b : String} {uid' : Int}
    {unreadable' : Option String} (ha : s.accounts.lookup a = some uid)
    (hb : s.accounts.lookup b = some uid') (hown : s.ports.owns m a uid port unreadable = true)
    (hown' : s.ports.owns m b uid' port unreadable' = true) : a = b := by
  obtain ⟨-, hown⟩ := (Ports.owns_eq_true_iff hi.ports.sound).mp hown
  obtain ⟨-, hown'⟩ := (Ports.owns_eq_true_iff hi.ports.sound).mp hown'
  rcases hown with ⟨client, e, he, hport⟩ | ⟨hfree, hbase⟩ <;>
    rcases hown' with ⟨client', e', he', hport'⟩ | ⟨hfree', hbase'⟩
  · have hkey := hi.ports.sound.distinct _ _ _ _ he he' (hport.trans hport'.symm)
    exact congrArg Assignment.account hkey
  · exact absurd hport (hfree' _ _ he)
  · exact absurd hport' (hfree _ _ he')
  · have huid := (uidForPort_of_portForUID hbase).1.symm.trans (uidForPort_of_portForUID hbase').1
    cases huid
    exact hi.uids a b uid ha hb

end State

/-- Ports are never shared: no two clients are assigned one, no two accounts own one, a machine
keeps its own until its account is forgotten, and what is allocated to somebody who does not
derive it was derived by no account there was. -/
theorem unshared_run (m : Mapping) (es : List Event) (s : State)
    (hr : (machine m).run {} es = some s) :
    (∀ k k' e e', s.ports.view.lookup k = some e → s.ports.view.lookup k' = some e' →
      e.port = e'.port → k = k') ∧
    (∀ a b uid uid' port unreadable unreadable', s.accounts.lookup a = some uid →
      s.accounts.lookup b = some uid' → s.ports.owns m a uid port unreadable = true →
      s.ports.owns m b uid' port unreadable' = true → a = b) ∧
    (∀ k port, s.ports.machinePort k = some port → ∀ es' s', (machine m).run s es' = some s' →
      (∀ e ∈ es', e.forgotten ≠ some k.account) → s'.ports.machinePort k = some port) ∧
    ∀ a ∈ s.allocations, ¬a.Derived m → m.portBase ≤ a.port ∧ a.port ≤ maxPort ∧
      ∀ account uid, a.accounts.lookup account = some uid → m.portForUID uid ≠ .ok a.port := by
  have hi := State.inv_run hr
  refine ⟨hi.ports.sound.distinct, ?_, ?_, hi.allocations⟩
  · intro a b uid uid' port unreadable unreadable' ha hb hown hown'
    exact State.owner_unique hi ha hb hown hown'
  · intro k port hk es' s' hr' hkeep
    exact State.machinePort_run hi hk hkeep hr'

def laptopAndDesk : List Event :=
  [.enrol ⟨"alice", by decide⟩ 10000,
    .begin 0 ⟨"alice", by decide⟩ ⟨"laptop", by decide⟩ false none, .answer 0 (.ok 0) none,
    .begin 1 ⟨"alice", by decide⟩ ⟨"desk", by decide⟩ false none, .answer 1 (.ok 0) none]

/-- The first has the derived port and the second the last one, which it keeps. -/
theorem unshared_run_laptopAndDesk :
    ∃ s, (machine ⟨10000, 65534⟩).run {} laptopAndDesk = some s ∧
      s.ports.machinePort ⟨"alice", "laptop"⟩ = some 65534 ∧
      s.ports.machinePort ⟨"alice", "desk"⟩ = some 65535 ∧
      ∀ es' s', (machine ⟨10000, 65534⟩).run s es' = some s' →
        (∀ e ∈ es', e.forgotten ≠ some "alice") →
        s'.ports.machinePort ⟨"alice", "desk"⟩ = some 65535 := by
  obtain ⟨s, hrun, hlaptop, hdesk⟩ : ∃ s, (machine ⟨10000, 65534⟩).run {} laptopAndDesk = some s ∧
      s.ports.machinePort ⟨"alice", "laptop"⟩ = some 65534 ∧
      s.ports.machinePort ⟨"alice", "desk"⟩ = some 65535 := by
    decide +kernel
  obtain ⟨-, -, hkept, -⟩ := unshared_run ⟨10000, 65534⟩ laptopAndDesk s hrun
  exact ⟨s, hrun, hlaptop, hdesk, fun es' s' ↦ hkept ⟨"alice", "desk"⟩ 65535 hdesk es' s'⟩

end RemoteDocker.Tunnels

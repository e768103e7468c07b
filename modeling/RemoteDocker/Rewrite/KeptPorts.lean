import RemoteDocker.Rewrite.Requested

/-!
# The bindings that are not taken over

`rewritePorts` puts one binding in place of a list that asks for a port by number, whatever else the
list has: a range of ports beside a number is lost (`range_beside_number_lost`). A list that has
nothing beside its numbers loses nothing, and a list without a number stays as it is.
-/

namespace RemoteDocker.Rewrite

open Base Ports

/-- The host port is missing, or has nothing but spaces. -/
def unspecified (b : Option Members) : Bool :=
  match member b "HostPort" with
  | none => true
  | some hostPort => hostPort.toText.any fun text ↦ (Record.trimSpace text.toList).isEmpty

/-- The host port is neither empty nor one number. -/
def notMoved (b : Option Members) : Bool := !unspecified b && (remappable b).isNone

section

variable {hostConfig hostConfig' : Members} {raw : Json} {bindings : Bindings}
  {requested : RequestedPorts} {changed : Bool} {key : String} {list : List (Option Members)}
  {localPortFree : Option (Nat → Option String)}

private theorem remap_eq (list : List (Option Members)) :
    remap list = if (fixedPorts list).1.isEmpty then list
      else [some (((fixedPorts list).2.getD ∅).insert "HostPort" (.str ""))] := rfl

private theorem notMoved_any (b : Members) :
    notMoved (some (b.insert "HostPort" (.str ""))) = false := by
  have hmember : member (some (b.insert "HostPort" (.str ""))) "HostPort" = some (.str "") := by
    simp [member]
  have hunspecified : unspecified (some (b.insert "HostPort" (.str ""))) = true := by
    rw [unspecified, hmember]
    decide
  simp [notMoved, hunspecified]

/-- None of what is not moved is lost, just if there is nothing beside the numbers. -/
theorem filter_notMoved_remap :
    (remap list).filter notMoved = list.filter notMoved ↔
      ((fixedPorts list).1 ≠ [] → ∀ b ∈ list, notMoved b = false) := by
  rw [remap_eq]
  split_ifs with hfixed
  · simp [List.isEmpty_iff.mp hfixed]
  · have hne : (fixedPorts list).1 ≠ [] := by simpa using hfixed
    simp only [List.filter_cons, notMoved_any, Bool.false_eq_true, if_false, List.filter_nil, ne_eq,
      hne, not_false_eq_true, true_implies]
    rw [eq_comm, List.filter_eq_nil_iff]
    simp only [Bool.not_eq_true]

/-- What is encoded under the port bindings has every list with the bindings that are not moved as
they were, and the lists without a number whole, just if no binding that is not moved stands beside
a number. -/
theorem not_moved_kept (hraw : hostConfig.lookup "PortBindings" = some raw)
    (hbindings : decodeBindings raw = some bindings)
    (hrewrite : rewritePorts localPortFree hostConfig = .ok (hostConfig', requested, changed)) :
    ∃ after : Bindings,
      (hostConfig'.lookup "PortBindings" = some raw ∧ after = bindings ∨
        hostConfig'.lookup "PortBindings" = some (encodeBindings after)) ∧
      ((∀ key list, bindings.lookup key = some list →
          ∃ list', after.lookup key = some list' ∧ list'.filter notMoved = list.filter notMoved ∧
            ((fixedPorts list).1 = [] → list' = list)) ↔
        ∀ key list, bindings.lookup key = some list → (fixedPorts list).1 ≠ [] →
          ∀ b ∈ list, notMoved b = false) := by
  obtain ⟨hsame, hnone⟩ | ⟨hafter, -⟩ := rewritePorts_cases hraw hbindings hrewrite
  · refine ⟨bindings, .inl ⟨hsame, rfl⟩, ?_, ?_⟩
    · intro _ key list hkey hfixed
      exact absurd (hnone key list hkey) hfixed
    · intro _ key list hkey
      exact ⟨list, hkey, rfl, fun _ ↦ rfl⟩
  · refine ⟨_, .inr hafter, ?_, ?_⟩
    · intro hkept key list hkey
      obtain ⟨list', hlist', hfilter, -⟩ := hkept key list hkey
      rw [lookup_mapTable, hkey] at hlist'
      cases hlist'
      exact filter_notMoved_remap.mp hfilter
    · intro halone key list hkey
      refine ⟨remap list, by rw [lookup_mapTable, hkey]; rfl,
        filter_notMoved_remap.mpr (halone key list hkey), ?_⟩
      intro hnone
      rw [remap_eq, hnone]
      rfl

end

/-- Port bindings with these host ports under one container port. -/
def publishes (hostPorts : List String) : Json :=
  .obj [("80/tcp", .arr (hostPorts.map fun port ↦ .obj [("HostPort", .str port)]))]

def requests (hostPorts : List String) : Members := tableOf [("PortBindings", publishes hostPorts)]

def numberAndAny : List (Option Members) :=
  [some (tableOf [("HostPort", .str "8080")]), some (tableOf [("HostPort", .str "")])]

/-- A number beside an empty host port is taken over, and the list has nothing to lose. -/
theorem not_moved_kept_number :
    ∃ result, rewritePorts none (requests ["8080", ""]) = .ok result ∧ ∃ after : Bindings,
      (result.1.lookup "PortBindings" = some (publishes ["8080", ""]) ∧
          after = tableOf [("80/tcp", numberAndAny)] ∨
        result.1.lookup "PortBindings" = some (encodeBindings after)) ∧
      ∃ list', after.lookup "80/tcp" = some list' ∧ list'.filter notMoved = [] := by
  have hraw : (requests ["8080", ""]).lookup "PortBindings" = some (publishes ["8080", ""]) :=
    (lookup_tableOf (by decide)).mpr (.head _)
  have hbindings : decodeBindings (publishes ["8080", ""]) =
      some (tableOf [("80/tcp", numberAndAny)]) := rfl
  have hkey : (tableOf [("80/tcp", numberAndAny)]).lookup "80/tcp" = some numberAndAny :=
    (lookup_tableOf (by decide)).mpr (.head _)
  have hmoved : ∀ b ∈ numberAndAny, notMoved b = false := by decide +kernel
  have hok : (rewritePorts none (requests ["8080", ""])).toBool = true := by decide +kernel
  cases hrewrite : rewritePorts none (requests ["8080", ""]) with
  | error err =>
    rw [hrewrite] at hok
    cases hok
  | ok result =>
    obtain ⟨after, hafter, hkept⟩ := not_moved_kept hraw hbindings hrewrite
    have halone : ∀ key list, (tableOf [("80/tcp", numberAndAny)]).lookup key = some list →
        (fixedPorts list).1 ≠ [] → ∀ b ∈ list, notMoved b = false := by
      intro key list hlookup _
      cases List.mem_singleton.mp (mem_of_lookup_tableOf hlookup)
      exact hmoved
    obtain ⟨list', hlookup, hfilter, -⟩ := hkept.mpr halone _ _ hkey
    refine ⟨result, rfl, after, hafter, list', hlookup, ?_⟩
    rw [hfilter, List.filter_eq_nil_iff]
    intro b hb
    simp [hmoved b hb]

/-- How many bindings that are not moved the rewrite leaves. -/
def leftOf (hostPorts : List String) : Option Nat :=
  (rewritePorts none (requests hostPorts)).toOption.bind fun result ↦
    ((result.1.lookup "PortBindings").bind decodeBindings).map fun bindings ↦
      ((bindings.lookup "80/tcp").getD []).countP notMoved

/-- A range alone is kept, and a range beside a number is lost. -/
theorem range_beside_number_lost :
    leftOf ["9000-9010"] = some 1 ∧ leftOf ["8080", "9000-9010"] = some 0 := by
  decide +kernel

end RemoteDocker.Rewrite

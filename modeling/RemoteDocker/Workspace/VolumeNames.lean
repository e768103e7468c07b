import RemoteDocker.Workspace.Identity

/-!
# The names of managed volumes

A volume's name is built from a client and a share's id, with an ending for the cache
(`src/core/workspace/export.go`). `ParseVolumeName` accepts the names that are built and no other.
-/

namespace RemoteDocker.Workspace

open Base

variable {client id text : Text}

private theorem dash_notMem_of_decodes (h : (Hex.decodeDigits text).isSome = true) :
    '-' ∉ text := by
  fun_induction Hex.decodeDigits text with
  | case1 => exact List.not_mem_nil
  | case2 => cases h
  | case3 hi lo rest ih =>
    simp only [Option.bind_eq_bind, Option.isSome_bind, Option.any_eq_true] at h
    obtain ⟨n, hn, m, hm, bs, hbs, -⟩ := h
    intro hmem
    rcases List.mem_cons.mp hmem with rfl | hmem
    · cases hn
    · rcases List.mem_cons.mp hmem with rfl | hmem
      · cases hm
      · exact ih (by rw [hbs]; rfl) hmem

private theorem validShare_spec (h : validShare id = true) : id.length = 16 ∧ '-' ∉ id := by
  rw [validShare, Bool.and_eq_true, decide_eq_true_eq] at h
  exact ⟨h.1, dash_notMem_of_decodes h.2⟩

private theorem validClient_spec (h : validClient client = true) : client ≠ [] ∧ '-' ∉ client := by
  rw [validClient, Bool.and_eq_true, decide_eq_true_eq] at h
  refine ⟨?_, dash_notMem_of_decodes h.2⟩
  rintro rfl
  cases h.1

/-- A name of either kind is read by what it is without the ending of a cache. -/
theorem parse_of_trimSuffix {rest t : Text} (ht : trimSuffix "-cache".toList rest = t) :
    parseVolumeName ("rd-".toList ++ rest) = some (client, id) ↔
      (client = [] ∨ validClient client = true) ∧ validShare id = true ∧
        "rd-".toList ++ t = volumeNameForID client id := by
  have hcut : cutPrefix "rd-".toList ("rd-".toList ++ rest) = some rest := rfl
  simp only [parseVolumeName, hcut, Option.bind_eq_bind, Option.bind_some, ht]
  constructor
  · intro h
    split at h
    · obtain ⟨hid, heq⟩ := Option.ite_none_right_eq_some.mp h
      cases heq
      exact ⟨.inl rfl, hid, rfl⟩
    · next c share hdrop =>
      obtain ⟨hvalid, heq⟩ := Option.ite_none_right_eq_some.mp h
      cases heq
      rw [Bool.and_eq_true] at hvalid
      have hhead := List.head?_dropWhile_not (fun c : Char ↦ decide (c ≠ '-')) t
      have hsplit := List.takeWhile_append_dropWhile (p := (· ≠ '-')) (l := t)
      rw [hdrop] at hhead hsplit
      obtain rfl : c = '-' := by simpa using hhead
      refine ⟨.inr hvalid.1, hvalid.2, ?_⟩
      rw [volumeNameForID, if_neg (validClient_spec hvalid.1).1, List.append_assoc, hsplit]
  · rintro ⟨hclient, hid, hname⟩
    have hnodash : ∀ {text : Text}, '-' ∉ text → ∀ c ∈ text, decide (c ≠ '-') = true := by
      intro text htext c hc
      exact decide_eq_true fun heq ↦ htext (heq ▸ hc)
    rw [volumeNameForID] at hname
    rcases hclient with rfl | hclient
    · rw [if_pos rfl, List.append_cancel_left_eq] at hname
      have hdrop := @List.dropWhile_append_of_pos _ _ _ [] (hnodash (validShare_spec hid).2)
      rw [List.append_nil] at hdrop
      simp only [hname, hdrop, List.dropWhile_nil, hid, if_true]
    · obtain ⟨hne, hdash⟩ := validClient_spec hclient
      rw [if_neg hne, List.append_assoc, List.append_cancel_left_eq] at hname
      have hdrop := @List.dropWhile_append_of_pos _ _ _ ('-' :: id) (hnodash hdash)
      have htake := @List.takeWhile_append_of_pos _ _ _ ('-' :: id) (hnodash hdash)
      rw [List.takeWhile_cons_of_neg (by decide), List.append_nil] at htake
      rw [List.dropWhile_cons_of_neg (by decide)] at hdrop
      simp only [hname, hdrop, htake, hclient, hid, Bool.and_self, if_true]

/-- A share's id has no dash, so what ends in one does not end as a cache does. -/
theorem not_cache_suffix (hid : validShare id = true) (start : Text) :
    ¬"-cache".toList <:+ start ++ id := by
  obtain ⟨hlength, hdash⟩ := validShare_spec hid
  intro hcache
  rcases List.suffix_or_suffix_of_suffix hcache (List.suffix_append start id) with hin | hin
  · exact hdash (hin.subset (by decide))
  · have hle := hin.length_le
    rw [hlength] at hle
    exact absurd hle (by decide)

private theorem trimSuffix_append (ending t : Text) : trimSuffix ending (t ++ ending) = t := by
  rw [trimSuffix, if_pos (List.isSuffixOf_iff_suffix.mpr (List.suffix_append _ _)),
    List.length_append, Nat.add_sub_cancel, List.take_left]

/-- A name reads back as a client and a share just if both are of their form and the name is the one
built from them for the share, or the one for its cache. -/
theorem parseVolumeName_eq_some (name client id : Text) :
    parseVolumeName name = some (client, id) ↔
      (client = [] ∨ validClient client = true) ∧ validShare id = true ∧
        (name = volumeNameForID client id ∨
          name = cacheVolumeName (volumeNameForID client id)) := by
  constructor
  · intro h
    obtain ⟨rest, hcut, -⟩ := Option.bind_eq_some_iff.mp h
    obtain ⟨hstart, -⟩ := Option.ite_none_right_eq_some.mp hcut
    obtain ⟨rest, rfl⟩ := List.isPrefixOf_iff_prefix.mp hstart
    obtain ⟨hclient, hid, hname⟩ := (parse_of_trimSuffix rfl).mp h
    refine ⟨hclient, hid, ?_⟩
    by_cases hends : "-cache".toList <:+ rest
    · obtain ⟨t, rfl⟩ := hends
      rw [trimSuffix_append] at hname
      rw [← hname, cacheVolumeName, List.append_assoc]
      exact .inr rfl
    · rw [trimSuffix, if_neg (mt List.isSuffixOf_iff_suffix.mp hends)] at hname
      exact .inl hname
  · rintro ⟨hclient, hid, hname⟩
    obtain ⟨start, hstart⟩ :
        ∃ start, volumeNameForID client id = "rd-".toList ++ (start ++ id) := by
      rw [volumeNameForID]
      split
      · exact ⟨[], rfl⟩
      · exact ⟨client ++ ['-'], by simp⟩
    rw [hstart] at hname
    rcases hname with rfl | rfl
    · have hends := mt List.isSuffixOf_iff_suffix.mp (not_cache_suffix hid start)
      exact (parse_of_trimSuffix (if_neg hends)).mpr ⟨hclient, hid, hstart.symm⟩
    · rw [cacheVolumeName, List.append_assoc]
      exact (parse_of_trimSuffix (trimSuffix_append _ _)).mpr ⟨hclient, hid, hstart.symm⟩

end RemoteDocker.Workspace

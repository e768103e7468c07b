import RemoteDocker.Client.Restored
import RemoteDocker.NfsServe.Handles

/-!
# A root handle keeps meaning its share

What the cache holds for the second half of a root handle is the root of its own share, or nothing;
without it the digest finds the share, registered or recorded, and no other. What was given for
anything else is never the root of a share.
-/

namespace RemoteDocker.NfsServe

open Base Workspace Client

/-! ### What a session keeps -/

def Recorded (s : ShareStore) : Prop := ∀ x rec, s.records.lookup x = some rec → IsExport x

/-- The shares there were are still there, with their filesystems. -/
def Extends (r r' : Registry) : Prop :=
  ∀ x share, r.shares.lookup x = some share →
    ∃ share', r'.shares.lookup x = some share' ∧ share'.fs = share.fs

section

variable {h : Host} {files : Files} {now : Int} {s : ShareStore} {x : Text} {share : Share}

section

variable (hs : Recorded s)

include hs

private theorem recorded_put {rec : ShareRecord} (hrec : IsExport rec.exportPath) :
    Recorded (s.put rec) := by
  intro x rec' hlookup
  rcases lookup_insert_eq_some.mp hlookup with ⟨rfl, -⟩ | ⟨-, hold⟩
  · exact hrec
  · exact hs x rec' hold

private theorem recorded_remember (hx : IsExport share.exportPath) :
    Recorded (s.remember now share) := by
  fun_cases ShareStore.remember now s share
  · exact recorded_put hs hx
  · exact hs
  · exact recorded_put hs hx

private theorem recorded_touch : Recorded (s.touch now x) := by
  fun_cases ShareStore.touch now s x
  · exact hs
  · next rec hlookup =>
    apply recorded_put hs
    rw [show ({ rec with lastUsed := some now } : ShareRecord).exportPath = x from
      s.keyed x rec hlookup]
    exact hs x rec hlookup

private theorem recorded_restore : Recorded (s.restore h files now x).1 := by
  fun_cases ShareStore.restore h files now s x
  · exact hs
  · exact recorded_touch hs
  · exact hs

private theorem recorded_forget {keep : Text → Bool} : Recorded (s.forget keep) := by
  intro x rec hlookup
  rw [ShareStore.forget, lookup_restrict] at hlookup
  split_ifs at hlookup
  exact hs x rec hlookup

end

private theorem recorded_load (this : Bound) (file : Option ShareFile) :
    Recorded (ShareStore.load h files now this file) := by
  intro x rec hlookup
  cases file with
  | none => cases hlookup
  | some file =>
    simp only [ShareStore.load] at hlookup
    split_ifs at hlookup
    · obtain ⟨rec', hmem, heq⟩ := List.mem_map.mp (mem_of_lookup_tableOf hlookup)
      cases heq
      have husable := (List.mem_filter.mp hmem).2
      simp only [ShareStore.usable, Bool.and_eq_true, decide_eq_true_eq] at husable
      obtain ⟨⟨⟨⟨hne, -⟩, hderived⟩, -⟩, -⟩ := husable
      rw [hderived]
      exact isExport_recordedExport (hderived ▸ hne)
    · cases hlookup

end

section

variable {h : Host} {files : Files} {now : Int} {r r' : Registry} {x : Text} {share : Share}

private theorem extends_refl (r : Registry) : Extends r r :=
  fun _ share hlookup ↦ ⟨share, hlookup, rfl⟩

private theorem extends_register {localPath recorded : Text} {mode : Mode} {w : ShareWords}
    (hreg : r.register h files localPath recorded mode w = .ok (r', share)) : Extends r r' := by
  obtain ⟨rfl, hshare⟩ := register_cases hreg
  intro x old hold
  by_cases hx : x = r.exportFor h localPath recorded mode w
  · refine ⟨share, hx ▸ AList.lookup_insert _, ?_⟩
    rcases hshare with ⟨existing, hlookup, rfl⟩ | ⟨hnone, -⟩
    · rw [← hx, hold] at hlookup
      cases hlookup
      rfl
    · rw [← hx, hold] at hnone
      cases hnone
  · exact ⟨old, (AList.lookup_insert_ne hx).trans hold, rfl⟩

end

section

variable {h : Host} {files : Files} {now : Int} {s : Session} {x : Text} {share : Share}

private theorem lookupOrRestore_keeps (files : Files) (now : Int) (hsound : s.registry.Sound h)
    (hrec : Recorded s.store) (p : Text) :
    (s.lookupOrRestore h files now p).1.registry.Sound h ∧
      Recorded (s.lookupOrRestore h files now p).1.store ∧
      Extends s.registry (s.lookupOrRestore h files now p).1.registry := by
  fun_cases Session.lookupOrRestore h files now s p
  · exact ⟨hsound, hrec, extends_refl _⟩
  · next store answer heq _ _ =>
    have hstore : store = (s.store.restore h files now (normalizeExport p)).1 := by rw [heq]
    exact ⟨hsound, hstore ▸ recorded_restore hrec, extends_refl _⟩
  · next store answer heq _ registry share hres =>
    have hstore : store = (s.store.restore h files now (normalizeExport p)).1 := by rw [heq]
    obtain ⟨localPath, mode, w, -, -, hreg⟩ := restored_cases hres
    exact ⟨(sound_restored (normalizeExport_ne_nil p) hsound hres).1,
      hstore ▸ recorded_restore hrec, extends_register hreg⟩

private theorem lookup_of_lookupOrRestore {rest : Text} (hsound : s.registry.Sound h)
    (hx : IsExport x)
    (hfound : (s.lookupOrRestore h files now x).2 = some (share, rest)) :
    rest = ['/'] ∧ (s.lookupOrRestore h files now x).1.registry.shares.lookup x = some share := by
  revert hfound
  fun_cases Session.lookupOrRestore h files now s x
  · next found hlookup =>
    intro hfound
    cases hfound
    cases hregistered : s.registry.shares.lookup x with
    | none =>
      rw [lookup_eq_none hsound hx hregistered] at hlookup
      cases hlookup
    | some share' =>
      rw [lookup_eq_some hx hregistered] at hlookup
      cases hlookup
      exact ⟨rfl, rfl⟩
  · nofun
  · next registry share' hres =>
    intro hfound
    cases hfound
    have hin := (sound_restored (normalizeExport_ne_nil x) hsound hres).2.2
    rw [normalizeExport_of_isExport hx] at hin
    exact ⟨rfl, hin⟩

private theorem lookupOrRestore_of_lookup (hx : IsExport x)
    (hsome : s.registry.shares.lookup x = some share) :
    s.lookupOrRestore h files now x = (s, some (share, ['/'])) := by
  rw [Session.lookupOrRestore, lookup_eq_some hx hsome]

private theorem lookupOrRestore_eq_none (hsound : s.registry.Sound h) (hx : IsExport x)
    (hnone : s.registry.shares.lookup x = none) (hunrecorded : s.store.records.lookup x = none) :
    (s.lookupOrRestore h files now x).2 = none := by
  have hrestore : s.store.restore h files now x = (s.store, none) := by
    rw [ShareStore.restore, hunrecorded]
  unfold Session.lookupOrRestore
  rw [lookup_eq_none hsound hx hnone]
  simp only [normalizeExport_of_isExport hx, hrestore]
  rfl

end

/-! ### By digest -/

/-- The digests of exports are told apart by their first eight bytes. -/
def DistinctKeys (h : Host) : Prop :=
  ∀ x y, IsExport x → IsExport y → exportKey h x = exportKey h y → x = y

private theorem length_exportKey (h : Host) (x : Text) :
    (exportKey h x).length = exportKeySize := by
  rw [exportKey, List.length_take, Vector.length_toList, exportKeySize]
  omega

section

variable {h : Host} {files : Files} {now : Int} {s : Session} {x : Text} {share : Share}

private theorem shareForKey_exportKey {r : Registry} (hdistinct : DistinctKeys h)
    (hsound : r.Sound h)
    (hx : IsExport x) : r.shareForKey h (exportKey h x) = r.shares.lookup x := by
  rw [Registry.shareForKey, if_neg (not_not.mpr (length_exportKey h x))]
  have hmem : ∀ share, share ∈ ((r.shares.entries.map (·.2)).insertionSort fun a b ↦
      a.exportPath ≤ b.exportPath) ↔ ∃ y, r.shares.lookup y = some share := by
    intro share
    rw [(List.perm_insertionSort _ _).mem_iff, List.mem_map]
    constructor
    · rintro ⟨⟨y, share⟩, hentry, rfl⟩
      exact ⟨y, AList.mem_lookup_iff.mpr hentry⟩
    · rintro ⟨y, hlookup⟩
      exact ⟨⟨y, share⟩, AList.mem_lookup_iff.mp hlookup, rfl⟩
  cases hfind : ((r.shares.entries.map (·.2)).insertionSort fun a b ↦
      a.exportPath ≤ b.exportPath).find? fun share ↦
        exportKey h share.exportPath = exportKey h x with
  | none =>
    cases hlookup : r.shares.lookup x with
    | none => rfl
    | some share =>
      have hnot := List.find?_eq_none.mp hfind share ((hmem share).mpr ⟨x, hlookup⟩)
      rw [(hsound x share hlookup).exportPath] at hnot
      simp at hnot
  | some share =>
    obtain ⟨y, hlookup⟩ := (hmem share).mp (List.mem_of_find?_eq_some hfind)
    have hkey := List.find?_some hfind
    rw [(hsound y share hlookup).exportPath, decide_eq_true_eq] at hkey
    rw [← hdistinct y x (hsound y share hlookup).isExport hx hkey, hlookup]

/-- An export that is not registered is restored by its digest as it is by its path. -/
theorem restoreMatching_exportKey (files : Files) (now : Int) (hdistinct : DistinctKeys h)
    (hsound : s.registry.Sound h) (hrec : Recorded s.store) (hx : IsExport x)
    (hnone : s.registry.shares.lookup x = none) :
    (restoreMatching h files now s fun y ↦ exportKey h y = exportKey h x).2 =
        ((s.lookupOrRestore h files now x).2).map (·.1) ∧
      ∀ share, (restoreMatching h files now s fun y ↦ exportKey h y = exportKey h x).2 =
        some share →
        (restoreMatching h files now s fun y ↦
          exportKey h y = exportKey h x).1.registry.shares.lookup x =
          some share := by
  have hmem : ∀ y, y ∈ s.store.exports ↔ ∃ rec, s.store.records.lookup y = some rec := by
    intro y
    rw [ShareStore.exports, (List.perm_insertionSort _ _).mem_iff, ← AList.mem_keys,
      ← AList.lookup_isSome, Option.isSome_iff_exists]
  cases hfind : s.store.exports.find? fun y ↦ exportKey h y = exportKey h x with
  | none =>
    have hunrecorded : s.store.records.lookup x = none := by
      rw [Option.eq_none_iff_forall_ne_some]
      intro rec hlookup
      have hnot := List.find?_eq_none.mp hfind x ((hmem x).mpr ⟨rec, hlookup⟩)
      simp at hnot
    have hnothing : (restoreMatching h files now s fun y ↦ exportKey h y = exportKey h x) =
        (s, none) := by
      rw [restoreMatching, hfind]
    rw [hnothing, lookupOrRestore_eq_none hsound hx hnone hunrecorded]
    refine ⟨rfl, ?_⟩
    intro share hshare
    cases hshare
  | some y =>
    obtain ⟨rec, hlookup⟩ := (hmem y).mp (List.mem_of_find?_eq_some hfind)
    have hkey := List.find?_some hfind
    simp only [decide_eq_true_eq] at hkey
    obtain rfl := hdistinct y x (hrec y rec hlookup) hx hkey
    simp only [restoreMatching, hfind]
    cases hfound : (s.lookupOrRestore h files now y).2 with
    | none =>
      refine ⟨rfl, ?_⟩
      intro share hshare
      cases hshare
    | some found =>
      obtain ⟨share, rest⟩ := found
      obtain ⟨rfl, hin⟩ := lookup_of_lookupOrRestore hsound hx hfound
      refine ⟨rfl, ?_⟩
      intro share' hshare
      cases hshare
      exact hin

end

namespace Handles

/-- An entry of the cache that is the root of a share. -/
def OfRoot (join : List Text → Text) (entry : Fs × List Text) : Prop :=
  entry.1.isRoot = true ∧ join entry.2 = join []

/-- What holds whatever happened: what the cache has is of this process; it has nothing for a root
handle but the root of that share, and for the others no root at all. -/
structure Inv (h : Host) (join : List Text → Text) (s : Handles) : Prop where
  sound : s.session.registry.Sound h
  recorded : Recorded s.session.store
  cached : ∀ c entry, s.cache.lookup c = some entry →
    c.length = cachedHandleSize ∧ c ∈ s.used ∧ s.Served entry.1
  roots : ∀ handle x, (handle, x) ∈ s.roots → IsExport x ∧ ∃ c, handle = exportKey h x ++ c ∧
    c.length = cachedHandleSize ∧ c ∈ s.used ∧
    ∀ entry, s.cache.lookup c = some entry → OfRoot join entry ∧ entry.1.exportPath = x
  others : ∀ o ∈ s.others, o.length = cachedHandleSize ∧ o ∈ s.used ∧
    ∀ entry, s.cache.lookup o = some entry → ¬OfRoot join entry

section

variable {h : Host} {join : List Text → Text} {s s' : Handles} {f g : Fs} {path : List Text}
  {c : Handle} {entry : Fs × List Text}

private theorem inv_start (b : Boot) : Inv h join (start h b) where
  sound := by
    intro x share hlookup
    cases hlookup
  recorded := recorded_load _ _
  cached := by
    intro c entry hlookup
    cases hlookup
  roots := nofun
  others := nofun

private theorem Served.mono {session : Session} (hext : Extends s.session.registry session.registry)
    (hf : s.Served f) : { s with session }.Served f := by
  intro hroot
  obtain ⟨share, hlookup, hfs⟩ := hf hroot
  obtain ⟨share', hlookup', hfs'⟩ := hext _ share hlookup
  exact ⟨share', hlookup', hfs'.trans hfs⟩

section

variable (hinv : Inv h join s)

include hinv

private theorem Inv.session {session : Session} (hsound : session.registry.Sound h)
    (hrec : Recorded session.store) (hext : Extends s.session.registry session.registry) :
    Inv h join { s with session } where
  sound := hsound
  recorded := hrec
  cached := by
    intro c entry hlookup
    obtain ⟨hlength, hused, hserved⟩ := hinv.cached c entry hlookup
    exact ⟨hlength, hused, hserved.mono hext⟩
  roots := hinv.roots
  others := hinv.others

private theorem Inv.erase (c : Handle) :
    Inv h join { s with cache := s.cache.erase c } where
  sound := hinv.sound
  recorded := hinv.recorded
  cached := fun c' entry hlookup ↦ hinv.cached c' entry (lookup_erase_eq_some.mp hlookup).2
  roots := by
    intro handle x hin
    obtain ⟨hx, c', hhandle, hlength, hused, hentry⟩ := hinv.roots handle x hin
    exact ⟨hx, c', hhandle, hlength, hused,
      fun entry hlookup ↦ hentry entry (lookup_erase_eq_some.mp hlookup).2⟩
  others := by
    intro o hin
    obtain ⟨hlength, hused, hentry⟩ := hinv.others o hin
    exact ⟨hlength, hused, fun entry hlookup ↦ hentry entry (lookup_erase_eq_some.mp hlookup).2⟩

private theorem Inv.restart (b : Boot) :
    Inv h join { s with session := b.session h, cache := ∅ } where
  sound := (inv_start b : Inv h join (start h b)).sound
  recorded := recorded_load _ _
  cached := by
    intro c entry hlookup
    cases hlookup
  roots := by
    intro handle x hin
    obtain ⟨hx, c, hhandle, hlength, hused, -⟩ := hinv.roots handle x hin
    refine ⟨hx, c, hhandle, hlength, hused, ?_⟩
    intro entry hlookup
    cases hlookup
  others := by
    intro o hin
    obtain ⟨hlength, hused, -⟩ := hinv.others o hin
    refine ⟨hlength, hused, ?_⟩
    intro entry hlookup
    cases hlookup

private theorem Inv.mint (hserved : s.Served f) (hlength : c.length = cachedHandleSize)
    (hfresh : c ∉ s.used) :
    Inv h join { s with cache := s.cache.insert c (f, path), used := c :: s.used } where
  sound := hinv.sound
  recorded := hinv.recorded
  cached := by
    intro c' entry hlookup
    rcases lookup_insert_eq_some.mp hlookup with ⟨rfl, rfl⟩ | ⟨-, hold⟩
    · exact ⟨hlength, (.head _), hserved⟩
    · obtain ⟨hlength', hused', hserved'⟩ := hinv.cached c' entry hold
      exact ⟨hlength', .tail _ hused', hserved'⟩
  roots := by
    intro handle x hin
    obtain ⟨hx, c', hhandle, hlength', hused, hentry⟩ := hinv.roots handle x hin
    refine ⟨hx, c', hhandle, hlength', .tail _ hused, ?_⟩
    intro entry hlookup
    rcases lookup_insert_eq_some.mp hlookup with ⟨rfl, -⟩ | ⟨-, hold⟩
    · exact absurd hused hfresh
    · exact hentry entry hold
  others := by
    intro o hin
    obtain ⟨hlength', hused, hentry⟩ := hinv.others o hin
    refine ⟨hlength', .tail _ hused, ?_⟩
    intro entry hlookup
    rcases lookup_insert_eq_some.mp hlookup with ⟨rfl, -⟩ | ⟨-, hold⟩
    · exact absurd hused hfresh
    · exact hentry entry hold

end

private theorem toHandle_root (hsound : s.session.registry.Sound h) (hserved : s.Served f)
    (hroot : f.isRoot = true) (hlength : c.length = cachedHandleSize) :
    IsExport f.exportPath ∧ NfsServe.toHandle h f [] c = exportKey h f.exportPath ++ c := by
  obtain ⟨share, hlookup, -⟩ := hserved hroot
  have hx : IsExport f.exportPath := (hsound _ share hlookup).isExport
  have hne : f.exportPath ≠ [] := by
    intro hnil
    have hnineteen := hx.length
    rw [hnil] at hnineteen
    cases hnineteen
  refine ⟨hx, ?_⟩
  rw [NfsServe.toHandle, exportRootOf, if_pos hroot, if_neg]
  simp [hne, hlength]

private theorem toHandle_other (hother : ¬(f.isRoot = true ∧ path = [])) :
    NfsServe.toHandle h f path c = c := by
  rw [NfsServe.toHandle, if_pos]
  by_cases hroot : f.isRoot = true
  · exact .inl fun hpath ↦ hother ⟨hroot, hpath⟩
  · exact .inr (.inl (by rw [exportRootOf, if_neg hroot]))

private theorem Inv.give (hinv : Inv h join s) (hlookup : s.cache.lookup c = some entry)
    (hf : entry.1 = f)
    (hpath : join entry.2 = join path) : Inv h join (s.give h join f path c) := by
  obtain ⟨hlength, hused, hserved⟩ := hinv.cached c entry hlookup
  rw [hf] at hserved
  simp only [Handles.give]
  split_ifs with hroot hatRoot
  · obtain ⟨hx, hhandle⟩ := toHandle_root hinv.sound hserved hroot.1 hlength
    refine { hinv with roots := ?_ }
    intro handle x hin
    rcases List.mem_cons.mp hin with heq | hin
    · obtain ⟨rfl, rfl⟩ := Prod.mk.inj heq
      refine ⟨hx, c, ?_, hlength, hused, ?_⟩
      · rw [hroot.2, hhandle]
      · intro entry' hlookup'
        rw [hlookup] at hlookup'
        cases hlookup'
        exact ⟨⟨hf ▸ hroot.1, hroot.2 ▸ hpath⟩, hf ▸ rfl⟩
    · exact hinv.roots handle x hin
  · exact hinv
  · refine { hinv with others := ?_ }
    intro o hin
    rcases List.mem_cons.mp hin with rfl | hin
    · rw [toHandle_other hroot]
      refine ⟨hlength, hused, ?_⟩
      rintro entry' hlookup' ⟨hroot', hjoin⟩
      rw [hlookup] at hlookup'
      cases hlookup'
      exact hatRoot ⟨hf ▸ hroot', hpath.symm.trans hjoin⟩
    · exact hinv.others o hin

private theorem Inv.rename {source dest : List Text} (hinv : Inv h join s) (hserved : s.Served g)
    (hbelow : ∀ e ∈ s.cache.entries, e.2.1 = f ∧ source <+: e.2.2 →
      join e.2.2 ≠ join [] ∧ join (dest ++ e.2.2.drop source.length) ≠ join []) :
    Inv h join { s with cache := mapTable (fun _ ↦ moved f source g dest) s.cache } := by
  -- An entry is as it was, or neither it nor what it was is a root.
  have hmoved :
      ∀ c entry', (mapTable (fun _ ↦ moved f source g dest) s.cache).lookup c = some entry' →
      ∃ entry, s.cache.lookup c = some entry ∧
        (entry' = entry ∨ entry'.1 = g ∧ ¬OfRoot join entry ∧ ¬OfRoot join entry') := by
    intro c entry' hlookup
    rw [lookup_mapTable, Option.map_eq_some_iff] at hlookup
    obtain ⟨entry, hlookup, rfl⟩ := hlookup
    refine ⟨entry, hlookup, ?_⟩
    rw [moved]
    split_ifs with hsource
    · obtain ⟨hwas, his⟩ := hbelow ⟨c, entry⟩ (AList.mem_lookup_iff.mp hlookup) hsource
      exact .inr ⟨rfl, fun hof ↦ hwas hof.2, fun hof ↦ his hof.2⟩
    · exact .inl rfl
  refine { sound := hinv.sound, recorded := hinv.recorded, cached := ?_, roots := ?_, others := ?_ }
  · intro c entry' hlookup'
    obtain ⟨entry, hlookup, hcases⟩ := hmoved c entry' hlookup'
    obtain ⟨hlength, hused, hold⟩ := hinv.cached c entry hlookup
    rcases hcases with rfl | ⟨rfl, -, -⟩
    · exact ⟨hlength, hused, hold⟩
    · exact ⟨hlength, hused, hserved⟩
  · intro handle x hin
    obtain ⟨hx, c, hhandle, hlength, hused, hentry⟩ := hinv.roots handle x hin
    refine ⟨hx, c, hhandle, hlength, hused, ?_⟩
    intro entry' hlookup'
    obtain ⟨entry, hlookup, hcases⟩ := hmoved c entry' hlookup'
    rcases hcases with rfl | ⟨-, hnot, -⟩
    · exact hentry _ hlookup
    · exact absurd (hentry entry hlookup).1 hnot
  · intro o hin
    obtain ⟨hlength, hused, hentry⟩ := hinv.others o hin
    refine ⟨hlength, hused, ?_⟩
    intro entry' hlookup'
    obtain ⟨entry, hlookup, hcases⟩ := hmoved o entry' hlookup'
    rcases hcases with rfl | ⟨-, -, hnot⟩
    · exact hentry _ hlookup
    · exact hnot

private theorem restoreMatching_keeps (files : Files) (now : Int) {session : Session}
    (hsound : session.registry.Sound h) (hrec : Recorded session.store) (accepts : Text → Bool) :
    (restoreMatching h files now session accepts).1.registry.Sound h ∧
      Recorded (restoreMatching h files now session accepts).1.store ∧
      Extends session.registry (restoreMatching h files now session accepts).1.registry := by
  fun_cases restoreMatching h files now session accepts
  · exact ⟨hsound, hrec, extends_refl _⟩
  · next x _ session' found heq =>
    have hkeeps := lookupOrRestore_keeps files now hsound hrec x
    rw [heq] at hkeeps
    exact hkeeps

private theorem Inv.fromHandle (hinv : Inv h join s) (files : Files) (now : Int) (handle : Handle) :
    Inv h join (s.fromHandle h files now handle).1 := by
  fun_cases Handles.fromHandle h files now s handle
  · exact hinv
  · exact hinv
  · exact hinv
  · next _ key _ _ _ session share heq =>
    obtain ⟨hsound, hrec, hext⟩ := restoreMatching_keeps files now hinv.sound
      hinv.recorded fun x ↦ exportKey h x = key
    rw [heq] at hsound hrec hext
    exact hinv.session hsound hrec hext

private theorem Inv.step {e : Event} (hinv : Inv h join s)
    (ht : Handles.step h join s e = some s') :
    Inv h join s' := by
  cases e with
  | register files localPath read write w =>
    simp only [Handles.step] at ht
    split at ht
    · next registry share hreg =>
      cases ht
      have hexport := exportFor_of_modes (h := h) s.session.registry localPath read write w
      exact hinv.session (sound_register hinv.sound hexport hreg).1 hinv.recorded
        (extends_register hreg)
    · cases ht
      exact hinv
  | mount files now exportPath =>
    cases ht
    obtain ⟨hsound, hrec, hext⟩ :=
      lookupOrRestore_keeps files now hinv.sound hinv.recorded exportPath
    exact hinv.session hsound hrec hext
  | remember now exportPath =>
    simp only [Handles.step] at ht
    split at ht
    · cases ht
    · next share hlookup =>
      cases ht
      have hx : IsExport share.exportPath := by
        rw [(hinv.sound _ share hlookup).exportPath]
        exact (hinv.sound _ share hlookup).isExport
      exact hinv.session hinv.sound (recorded_remember hinv.recorded hx) (extends_refl _)
  | forget keep =>
    cases ht
    exact hinv.session hinv.sound (recorded_forget hinv.recorded) (extends_refl _)
  | toHandle f path c =>
    obtain ⟨hserved, ht⟩ := Option.ite_none_right_eq_some.mp ht
    split at ht
    · next entry hlookup =>
      split_ifs at ht with hsame
      cases ht
      exact hinv.give hlookup hsame.1 hsame.2
    · split_ifs at ht with hfresh
      cases ht
      exact (hinv.mint hserved hfresh.1 hfresh.2).give (AList.lookup_insert _) rfl rfl
  | fromHandle files now handle =>
    cases ht
    exact hinv.fromHandle files now handle
  | invalidate handle =>
    cases ht
    exact hinv.erase _
  | evict c =>
    cases ht
    exact hinv.erase c
  | rename f source g dest =>
    simp only [Handles.step] at ht
    split_ifs at ht with hok
    cases ht
    exact hinv.rename hok.1 hok.2
  | restart b =>
    cases ht
    exact hinv.restart b

/-! ### What a handle resolves to -/

private theorem fromHandle_root (files : Files) (now : Int) {x : Text}
    (hlength : c.length = cachedHandleSize) :
    s.fromHandle h files now (exportKey h x ++ c) =
      match s.cache.lookup c with
      | some found => (s, some found)
      | none =>
        match s.session.registry.shareForKey h (exportKey h x) with
        | some share => (s, some (share.fs, []))
        | none =>
          let (session, share) :=
            restoreMatching h files now s.session fun y ↦ exportKey h y = exportKey h x
          ({ s with session }, share.map fun share ↦ (share.fs, [])) := by
  have hsize : (exportKey h x ++ c).length = rootHandleSize := by
    rw [List.length_append, length_exportKey, hlength, rootHandleSize]
  rw [Handles.fromHandle, if_neg (not_not.mpr hsize)]
  dsimp only
  generalize hkey : List.take _ _ = key
  generalize hcached : List.drop _ _ = cached
  rw [List.take_left' (length_exportKey h x)] at hkey
  rw [List.drop_left' (length_exportKey h x)] at hcached
  subst hkey hcached
  rfl

/-- A root handle resolves to the root of its share, and to nothing else. -/
theorem Inv.resolves {x : Text} {files : Files} {now : Int} (hinv : Inv h join s)
    (hdistinct : DistinctKeys h) (hx : IsExport x) (hlength : c.length = cachedHandleSize)
    (hentry : ∀ entry, s.cache.lookup c = some entry → OfRoot join entry ∧ entry.1.exportPath = x)
    (hfound : (s.fromHandle h files now (exportKey h x ++ c)).2 = some entry) :
    OfRoot join entry ∧
      ∃ share, (s.fromHandle h files now (exportKey h x ++ c)).1.session.registry.shares.lookup x =
      some share ∧ share.fs = entry.1 := by
  rw [fromHandle_root files now hlength] at hfound ⊢
  cases hcache : s.cache.lookup c with
  | some found =>
    simp only [hcache] at hfound ⊢
    cases hfound
    obtain ⟨hof, hexport⟩ := hentry entry hcache
    obtain ⟨share, hlookup, hfs⟩ := (hinv.cached c entry hcache).2.2 hof.1
    exact ⟨hof, share, hexport ▸ hlookup, hfs⟩
  | none =>
    simp only [hcache, shareForKey_exportKey hdistinct hinv.sound hx] at hfound ⊢
    cases hlookup : s.session.registry.shares.lookup x with
    | some share =>
      simp only [hlookup] at hfound ⊢
      cases hfound
      have hregistered := hinv.sound x share hlookup
      exact ⟨⟨hregistered.isRoot, rfl⟩, share, rfl, rfl⟩
    | none =>
      simp only [hlookup] at hfound ⊢
      obtain ⟨share, hshare, rfl⟩ := Option.map_eq_some_iff.mp hfound
      have hin := (restoreMatching_exportKey files now hdistinct hinv.sound hinv.recorded hx
        hlookup).2 share hshare
      have hsound := (restoreMatching_keeps files now hinv.sound hinv.recorded
        fun y ↦ exportKey h y = exportKey h x).1
      exact ⟨⟨(hsound x share hin).isRoot, rfl⟩, share, hin, rfl⟩

/-- A root handle does resolve where the export is registered or can be restored. -/
theorem Inv.resolved {x rest : Text} {files : Files} {now : Int} {share : Share}
    (hinv : Inv h join s) (hdistinct : DistinctKeys h) (hx : IsExport x)
    (hlength : c.length = cachedHandleSize)
    (hentry : ∀ entry, s.cache.lookup c = some entry → OfRoot join entry ∧ entry.1.exportPath = x)
    (hback : (s.session.lookupOrRestore h files now x).2 = some (share, rest)) :
    ∃ path, (s.fromHandle h files now (exportKey h x ++ c)).2 = some (share.fs, path) ∧
      join path = join [] := by
  rw [fromHandle_root files now hlength]
  cases hcache : s.cache.lookup c with
  | some entry =>
    obtain ⟨hof, hexport⟩ := hentry entry hcache
    obtain ⟨share', hlookup, hfs⟩ := (hinv.cached c entry hcache).2.2 hof.1
    rw [hexport] at hlookup
    rw [lookupOrRestore_of_lookup hx hlookup] at hback
    cases hback
    exact ⟨entry.2, by rw [hfs], hof.2⟩
  | none =>
    simp only [shareForKey_exportKey hdistinct hinv.sound hx]
    cases hlookup : s.session.registry.shares.lookup x with
    | some share' =>
      rw [lookupOrRestore_of_lookup hx hlookup] at hback
      cases hback
      exact ⟨[], rfl, rfl⟩
    | none =>
      have hrestored := (restoreMatching_exportKey files now hdistinct hinv.sound
        hinv.recorded hx hlookup).1
      rw [hback] at hrestored
      exact ⟨[], by simp only [hrestored, Option.map_some], rfl⟩

end

/-- The handle of a share's root resolves to that root, in every process, wherever its export is
registered or can be restored, and never to anything else; no other handle resolves to the root of a
share. -/
theorem root_handle_stable {h : Host} {join : List Text → Text} {b : Boot} {es : List Event}
    {s : Handles} (hdistinct : DistinctKeys h) (hr : (machine h join).run (start h b) es = some s)
    (files : Files) (now : Int) :
    (∀ handle x, (handle, x) ∈ s.roots →
      (∀ f path, (s.fromHandle h files now handle).2 = some (f, path) →
        f.isRoot = true ∧ f.exportPath = x ∧ join path = join [] ∧
        ∃ share, (s.fromHandle h files now handle).1.session.registry.shares.lookup x = some share ∧
          share.fs = f) ∧
      ∀ share, s.session.registry.shares.lookup x = some share ∨
          (s.session.lookupOrRestore h files now x).2 = some (share, ['/']) →
        ∃ path, (s.fromHandle h files now handle).2 = some (share.fs, path) ∧ join path = join []) ∧
    ∀ handle ∈ s.others, ∀ f path, (s.fromHandle h files now handle).2 = some (f, path) →
      ¬(f.isRoot = true ∧ join path = join []) := by
  have hinv : Inv h join s :=
    (machine h join).run_invariant_all (fun _ _ _ hinv ht ↦ hinv.step ht) (inv_start b) hr
  constructor
  · intro handle x hin
    obtain ⟨hx, c, rfl, hlength, -, hentry⟩ := hinv.roots handle x hin
    constructor
    · intro f path hfound
      obtain ⟨hof, share, hlookup, hfs⟩ := hinv.resolves hdistinct hx hlength hentry hfound
      have hexport :=
        ((hinv.fromHandle files now (exportKey h x ++ c)).sound x share hlookup).fs_exportPath
      rw [hfs] at hexport
      exact ⟨hof.1, hexport, hof.2, share, hlookup, hfs⟩
    · intro share hback
      have hfound : (s.session.lookupOrRestore h files now x).2 = some (share, ['/']) := by
        rcases hback with hlookup | hback
        · rw [lookupOrRestore_of_lookup hx hlookup]
        · exact hback
      exact hinv.resolved hdistinct hx hlength hentry hfound
  · intro o hin f path hfound
    obtain ⟨hlength, -, hentry⟩ := hinv.others o hin
    have hshort : o.length ≠ rootHandleSize := by
      rw [hlength]
      decide
    rw [Handles.fromHandle, if_pos hshort] at hfound
    exact hentry (f, path) hfound

/-! ### A root over a restart -/

/-- A digest of an export is the eight bytes it is written with. -/
def writtenDigest : Host :=
  { posix with sha256 := fun x ↦ Vector.ofFn fun i ↦
    ((Hex.decodeDigits (x.drop 3)).getD []).getD i 0 }

private theorem distinctKeys_writtenDigest : DistinctKeys writtenDigest := by
  have hkey : ∀ bytes : List UInt8, bytes.length = 8 →
      exportKey writtenDigest (exportPathForID (Hex.encodeDigits bytes)) = bytes := by
    intro bytes hlength
    have hdecode :
        Hex.decodeDigits ((exportPathForID (Hex.encodeDigits bytes)).drop 3) = some bytes :=
      Hex.decodeDigits_encodeDigits bytes
    apply List.ext_getElem
    · rw [length_exportKey, hlength, exportKeySize]
    · intro i hi hi'
      simp [exportKey, writtenDigest, hdecode, hi']
  rintro x y ⟨bx, hbx, rfl⟩ ⟨b_y, hby, rfl⟩ heq
  rw [hkey bx hbx, hkey b_y hby] at heq
  rw [heq]

/-- The export of the directory `/x`. -/
def shareX : Share :=
  rootAttrs.share writtenDigest .directory "/x".toList
    (exportPathForID (writtenDigest.digestID [])) defaultMode {}

/-- The first process finds no record, and the second that of the share. -/
def bootX (file : Option ShareFile) : Boot :=
  ⟨rootAttrs, .watchOff, .off, onlyPath .directory, 10, thisMachine, file⟩

/-- The root and a file below it are given handles, and the process restarts. -/
def restarted : List Event :=
  [.register (onlyPath .directory) "/x".toList .direct .through {},
    .toHandle shareX.fs [] (List.replicate 16 1),
    .toHandle shareX.fs ["a".toList] (List.replicate 16 2),
    .restart (bootX (some ⟨thisMachine, [recordFor shareX 0]⟩))]

theorem root_handle_stable_restarted :
    ∃ s, (machine writtenDigest List.flatten).run (start writtenDigest (bootX none)) restarted =
      some s ∧
      s.session.registry.shares.lookup shareX.exportPath = none ∧
      ∃ path, (s.fromHandle writtenDigest (onlyPath .directory) 20
        (exportKey writtenDigest shareX.exportPath ++ List.replicate 16 1)).2 =
          some (shareX.fs, path) ∧
        path.flatten = [] := by
  obtain ⟨s, hr, hin, hlookup, hback⟩ : ∃ s, (machine writtenDigest List.flatten).run
      (start writtenDigest (bootX none)) restarted = some s ∧
      (exportKey writtenDigest shareX.exportPath ++ List.replicate 16 1, shareX.exportPath) ∈
        s.roots ∧ s.session.registry.shares.lookup shareX.exportPath = none ∧
      (s.session.lookupOrRestore writtenDigest (onlyPath .directory) 20 shareX.exportPath).2 =
        some (shareX, ['/']) := by
    decide +kernel
  refine ⟨s, hr, hlookup, ?_⟩
  exact ((root_handle_stable distinctKeys_writtenDigest hr (onlyPath .directory) 20).1 _ _ hin).2
    shareX (.inr hback)

end Handles

end RemoteDocker.NfsServe

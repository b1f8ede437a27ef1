import Fum.Analysis.Ownership
import Fum.Analysis.Removal

/-!
# Addresses

Where in memory the element of a node lives: the chunk and the place in it. A chunk belongs to
one table, so two tables have no address in common.
-/

set_option autoImplicit false

namespace Fum.Analysis

open Fum.Model Effects

variable {τ : Traits} {w : World τ} {i j x y : ℕ} {t t' u : Table τ} {p : ℕ × ℕ}

/-- The chunk of a node and its place there. -/
def addressOf (t : Table τ) (x : ℕ) : Option (ℕ × ℕ) :=
  (chunkIds t)[x / kChunkSize]?.map fun chunk => (chunk, x % kChunkSize)

/-- A node that holds an element has an address. -/
theorem addressOf_isSome (hx : (t.nodeAt x).storage.isSome) : (addressOf t x).isSome := by
  have hlt : x / kChunkSize < t.chunks.length := by
    by_contra hge
    have hnone : t.chunks[x / kChunkSize]? = none := List.getElem?_eq_none (not_lt.mp hge)
    unfold Table.nodeAt at hx
    rw [hnone] at hx
    cases hx
  simp [addressOf, chunkIds, hlt]

/-- More chunks behind do not change the addresses in front. -/
theorem addressOf_prefix (h : chunkIds t <+: chunkIds t') (hp : addressOf t x = some p) :
    addressOf t' x = some p := by
  obtain ⟨rest, hrest⟩ := h
  unfold addressOf at hp ⊢
  obtain ⟨chunk, hchunk, rfl⟩ := Option.map_eq_some_iff.mp hp
  have hlt := (List.getElem?_eq_some_iff.mp hchunk).1
  rw [← hrest, List.getElem?_append_left hlt, hchunk]
  rfl

theorem addressOf_congr (h : chunkIds t' = chunkIds t) : addressOf t' x = addressOf t x := by
  unfold addressOf
  rw [h]

theorem chunk_of_addressOf (hp : addressOf t x = some p) : p.1 ∈ chunkIds t := by
  obtain ⟨chunk, hchunk, rfl⟩ := Option.map_eq_some_iff.mp hp
  exact List.mem_of_getElem? hchunk

/-- An address belongs to one table. -/
theorem Owned.same_table (h : Owned w) (hi : w.table? i = some t) (hj : w.table? j = some u)
    (hp : addressOf t x = some p) (hq : addressOf u y = some p) : i = j := by
  have hblock : ∀ v : Table τ, p.1 ∈ chunkIds v → p.1 ∈ (storageOf v).map Prod.fst := by
    intro v hv
    obtain ⟨chunk, hchunk, hid⟩ := List.mem_map.mp hv
    have hmem : (chunk.id, chunk.tag) ∈ storageOf v :=
      chunks_mem_storageOf (List.mem_map_of_mem hchunk)
    rw [← hid]
    exact List.mem_map_of_mem hmem
  exact h.unique i j p.1 ⟨t, hi, hblock t (chunk_of_addressOf hp)⟩
    ⟨u, hj, hblock u (chunk_of_addressOf hq)⟩

end Fum.Analysis

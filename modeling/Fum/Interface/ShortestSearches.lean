import Fum.Analysis.Searches
import Fum.Interface.EraseIf

/-!
# Searches are as short as they can be

Open addressing with linear probing may put the elements into the buckets in many ways; a
search for an element then walks from its home bucket to the one it is in. The displacement
of Robin Hood hashing is there to keep the longest of these walks short. It keeps it as short
as any way of putting the same elements into the same buckets could, and the sum of all of
them as well; and a search that finds nothing is no longer than one more bucket.
-/

set_option autoImplicit false

namespace Fum.Interface

open Fum.Model Fum.Analysis Effects RobinHood

variable {τ : Traits} {t : Table τ} {heap : Heap} {place : ℕ → ℕ}

/-- The buckets from the home of a node to the one that a placement gives it, both included. -/
def walkLength (t : Table τ) (place : ℕ → ℕ) (x : ℕ) : ℕ :=
  walk t.bucketCount (homeBucket t) place x + 1

/-- The searches are no longer than the walks of the placement. -/
structure SearchesWithin (t : Table τ) (heap : Heap) (place : ℕ → ℕ) : Prop where
  /-- Where no walk is longer than `n`, no search for an element is. -/
  longest : ∀ n, (∀ x ∈ t.iteration, walkLength t place x ≤ n) → ∀ v ∈ contents t,
    searchLength t heap (τ.keyOf v) ≤ n
  /-- Where no walk is longer than `n`, a search in vain takes at most one bucket more. -/
  inVain : ∀ n, (∀ x ∈ t.iteration, walkLength t place x ≤ n) → ∀ key,
    searchLength t heap key ≤ n + 1
  total : ((contents t).map fun v => searchLength t heap (τ.keyOf v)).sum ≤
    (t.iteration.map (walkLength t place)).sum

/-- What depends on the elements only may be read off the nodes. -/
theorem map_contents_eq {α : Type} (hc : Consistent t) {f : τ.Value → α} {g : ℕ → α}
    (h : ∀ x ∈ t.iteration, ∀ v, valueAt t x = some v → f v = g x) :
    (contents t).map f = t.iteration.map g := by
  have hread := congrArg (List.map (Option.map f)) hc.reads
  rw [List.map_map, List.map_map] at hread
  have hsome : (t.iteration.map g).map some = ((contents t).map f).map some := by
    calc (t.iteration.map g).map some
        = t.iteration.map (Option.map f ∘ valueAt t) := by
          rw [List.map_map]
          refine List.map_congr_left fun x hx => ?_
          obtain ⟨e, he⟩ := Option.isSome_iff_exists.mp (hc.live hx)
          have hv := valueAt_of_storage he
          rw [Function.comp_apply, Function.comp_apply, hv, ← h x hx _ hv]
          rfl
      _ = ((contents t).map f).map some := by
          rw [hread, List.map_map]
          rfl
  exact (List.map_injective_iff.mpr (Option.some_injective α) hsome).symm

/-- The searches of a table are the walks of its own layout, and no placement of the elements
has shorter ones. -/
theorem searches_shortest (h : Reachable t)
    (hquiet : heap.fault = none) :
    (∃ seat, Placement t.bucketCount t.iteration.toFinset seat ∧
      (contents t).map (fun v => searchLength t heap (τ.keyOf v)) =
        t.iteration.map (walkLength t seat)) ∧
      ∀ place, Placement t.bucketCount t.iteration.toFinset place →
        SearchesWithin t heap place := by
  obtain ⟨hwell, hroom⟩ := h.sturdy
  have hc := hwell.consistent
  have hL := hc.slots.iteration_nodup
  rcases hc.index with ⟨-, hzero, hnil⟩ | ⟨k, cells, I, hlt, -⟩
  · -- without buckets there are no elements, and nothing is searched
    have hnone : contents t = [] := by
      unfold contents
      rw [hnil]
      rfl
    have hshort : ∀ key, searchLength t heap key = 0 := by
      intro key
      unfold searchLength findBucketExamined
      rw [if_pos hzero]
      rfl
    refine ⟨⟨id, ⟨by simp [hnil], by simp [hnil]⟩, by rw [hnone, hnil]; rfl⟩, fun place _ => ?_⟩
    exact ⟨fun n _ v _ => by rw [hshort]; exact Nat.zero_le n,
      fun n _ key => by rw [hshort]; exact Nat.zero_le _, by rw [hnone]; exact Nat.zero_le _⟩
  obtain ⟨e, he, hempty⟩ := I.exists_empty hL hlt
  obtain ⟨seat, S⟩ := I.layout.exists_seats (X := t.iteration.toFinset) fun x =>
    List.mem_toFinset.trans (I.holds x).symm
  have hhome : ∀ x, homeBucket t x < 2 ^ k := by
    intro x
    rw [I.homeBucket_eq]
    exact homeOf_lt k (ownHash t) x
  have hlayout := I.layout
  unfold BucketLayout at hlayout
  rw [← I.homeBucket_eq] at hlayout
  have hwalks : (contents t).map (fun v => searchLength t heap (τ.keyOf v)) =
      t.iteration.map (walkLength t seat) := by
    refine map_contents_eq hc fun x hx v hv => ?_
    unfold walkLength
    rw [I.bucketCount]
    exact hwell.searchLength_eq h.lawful hroom I hlt S hquiet hx
      (matches_iff_valueAt.mpr ⟨v, hv, h.lawful.refl _⟩)
  refine ⟨⟨seat, by rw [I.bucketCount]; exact S.placement, hwalks⟩, fun place P => ?_⟩
  rw [I.bucketCount] at P
  have hwithin : ∀ n, (∀ x ∈ t.iteration, walkLength t place x ≤ n) → ∀ x ∈ t.iteration,
      walkLength t seat x ≤ n := by
    intro n hn x hx
    obtain ⟨y, hy, hle⟩ := hlayout.exists_walk_ge S (by decide) (fpOf_lt _) hhome he hempty P
      (List.mem_toFinset.mpr hx)
    have hny := hn y (List.mem_toFinset.mp hy)
    unfold walkLength at hny ⊢
    rw [I.bucketCount] at hny ⊢
    omega
  refine ⟨fun n hn v hv => ?_, fun n hn key => ?_, ?_⟩
  · have hmem : searchLength t heap (τ.keyOf v) ∈ t.iteration.map (walkLength t seat) := by
      rw [← hwalks]
      exact List.mem_map.mpr ⟨v, hv, rfl⟩
    obtain ⟨x, hx, heq⟩ := List.mem_map.mp hmem
    rw [← heq]
    exact hwithin n hn x hx
  · rcases I.searchLength_le hL hlt hroom S key heap with hone | ⟨x, hx, hle⟩
    · omega
    · have hnx := hwithin n hn x hx
      unfold walkLength at hnx
      rw [I.bucketCount] at hnx
      omega
  · have hsum := hlayout.sum_walk_le S (by decide) hhome he hempty P
    rw [hwalks, ← List.sum_toFinset _ hL, ← List.sum_toFinset _ hL]
    unfold walkLength
    rw [I.bucketCount, Finset.sum_add_distrib, Finset.sum_add_distrib]
    omega

theorem searches_shortest_five :
    SearchesWithin (((finish World.empty fiveSteps).table? 0).get five_made) Heap.empty
      fun x => x :=
  (searches_shortest five_reachable rfl).2 _
    ⟨by decide +kernel, fun _ _ _ _ h => h⟩

end Fum.Interface

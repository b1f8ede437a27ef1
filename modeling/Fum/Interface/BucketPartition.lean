import Fum.Analysis.Reachability
import Fum.Analysis.QuietCalls
import Fum.Model.Observers
import Fum.Model.Instances

/-!
# The bucket interface

A bucket is the set of the live elements with the same home. The scan of a local iterator
skips the others, so a local range is the iteration vector filtered by home, and the ranges
partition the elements.
-/

set_option autoImplicit false

namespace Fum.Interface

open Fum.Model Fum.Analysis Effects

variable {τ : Traits} {s : Store τ} {t : Table τ} {n : ℕ}

/-! ## Homes -/

/-- The home bucket of a live node. -/
def homeIn (t : Table τ) (x : ℕ) : ℕ := t.homeFromHash (ownHash t x)

/-- The live nodes whose home is the bucket `n`, in the order of the iteration. -/
def dwellers (t : Table τ) (n : ℕ) : List ℕ := t.iteration.filter fun x => homeIn t x = n

theorem run_homeBucketOf (hquiet : s.heap.fault = none) {x : ℕ}
    (hlive : (s.table.nodeAt x).storage.isSome) :
    (homeBucketOf x).run s = (.ok (homeIn s.table x), s) := by
  obtain ⟨e, he⟩ := Option.isSome_iff_exists.mp hlive
  unfold homeBucketOf
  rw [Action.run_bind_ok _ (run_keyAt he), Action.run_bind_ok _ (run_callMixedHash hquiet _)]
  unfold homeIn
  rw [ownHash_of_storage he]
  rfl

theorem run_bucket (hquiet : s.heap.fault = none) (key : τ.Key) :
    (bucket key).run s = (.ok (if s.table.bucketCount = 0 then 0
      else s.table.homeFromHash (s.table.mixedHash key)), s) := by
  show (if s.table.bucketCount = 0 then pure 0 else do
    let hash ← callMixedHash key
    pure (s.table.homeFromHash hash) : Exec τ ℕ).run s = _
  split
  · rfl
  · rw [Action.run_bind_ok _ (run_callMixedHash hquiet key)]
    rfl

/-- Every home is a bucket: the shift leaves as many bits as the count of the buckets has. -/
theorem homeFromHash_lt (h : Consistent t) (hne : t.bucketCount ≠ 0) (hash : UInt64) :
    t.homeFromHash hash < t.bucketCount := by
  rcases h.index with ⟨-, hzero, -⟩ | ⟨k, cells, I, -, -⟩
  · exact absurd hzero hne
  · rw [I.homeFromHash, I.bucketCount]
    exact shiftRight_lt k hash

/-! ## The scans -/

/-- `bucket_size` counts the dwellers. -/
theorem run_bucketSizeLoop (hquiet : s.heap.fault = none) (n : ℕ) :
    ∀ (nodes : List ℕ) (total : ℕ), (∀ x ∈ nodes, (s.table.nodeAt x).storage.isSome) →
      (bucketSizeLoop n nodes total).run s =
        (.ok (total + (nodes.filter fun x => homeIn s.table x = n).length), s) := by
  intro nodes
  induction nodes with
  | nil =>
      intro total _
      rfl
  | cons x rest ih =>
      intro total hlive
      have hrest : ∀ y ∈ rest, (s.table.nodeAt y).storage.isSome := fun y hy =>
        hlive y (List.mem_cons_of_mem x hy)
      rw [bucketSizeLoop,
        Action.run_bind_ok _ (run_homeBucketOf hquiet (hlive x List.mem_cons_self)), ih _ hrest]
      by_cases hx : homeIn s.table x = n
      · simp only [hx, if_true, List.filter_cons, decide_true, List.length_cons]
        rw [add_assoc, add_comm 1]
      · simp [hx]

theorem run_bucketSize (hquiet : s.heap.fault = none)
    (hlive : ∀ x ∈ s.table.iteration, (s.table.nodeAt x).storage.isSome) (n : ℕ) :
    (bucketSize n).run s = (.ok (dwellers s.table n).length, s) := by
  show (bucketSizeLoop n s.table.iteration 0).run s = _
  rw [run_bucketSizeLoop hquiet n _ 0 hlive, Nat.zero_add]
  rfl

/-- A scan from a position goes on behind it if the node there has another home. -/
theorem run_advanceToMatch (hquiet : s.heap.fault = none) {p x : ℕ} {rest : List ℕ}
    (hlive : (s.table.nodeAt x).storage.isSome) (hdrop : s.table.iteration.drop p = x :: rest) :
    (advanceToMatch ⟨n, p⟩).run s =
      if homeIn s.table x = n then (.ok ⟨n, p⟩, s) else (advanceToMatch ⟨n, p + 1⟩).run s := by
  have hnext : s.table.iteration.drop (p + 1) = rest := by
    rw [← List.drop_drop, hdrop]
    rfl
  have hrun : ∀ q, (advanceToMatch ⟨n, q⟩).run s = (advanceLoop n (s.table.iteration.drop q) q >>=
      fun position => pure (⟨n, position⟩ : LocalIterator) : Exec τ LocalIterator).run s :=
    fun _ => rfl
  rw [hrun, hrun, hdrop, hnext, advanceLoop, Action.bind_assoc,
    Action.run_bind_ok _ (run_homeBucketOf hquiet hlive)]
  by_cases hx : homeIn s.table x = n
  · simp [hx]
  · simp [hx]

/-- At the end of the vector there is nothing to skip. -/
theorem run_advanceToMatch_end {p : ℕ} (hdrop : s.table.iteration.drop p = []) :
    (advanceToMatch ⟨n, p⟩).run s = (.ok ⟨n, p⟩, s) := by
  show (advanceLoop n (s.table.iteration.drop p) p >>= fun position =>
    pure (⟨n, position⟩ : LocalIterator) : Exec τ LocalIterator).run s = _
  rw [hdrop]
  rfl

theorem run_nodeOfLocal {p x : ℕ} (hget : s.table.iteration[p]? = some x)
    (hlive : (s.table.nodeAt x).storage.isSome) : (nodeOfLocal ⟨n, p⟩).run s = (.ok x, s) := by
  obtain ⟨e, he⟩ := Option.isSome_iff_exists.mp hlive
  unfold nodeOfLocal
  have htable : (getTable : Exec τ (Table τ)).run s = (.ok s.table, s) := rfl
  rw [Action.run_bind_ok _ htable, hget]
  show (elementAt x >>= fun _ => pure x : Exec τ ℕ).run s = _
  rw [Action.run_bind_ok _ (run_elementAt he)]
  rfl

/-- A walk that starts with a scan visits the dwellers from there on. -/
theorem run_localRangeLoop (hquiet : s.heap.fault = none)
    (hlive : ∀ x ∈ s.table.iteration, (s.table.nodeAt x).storage.isSome) (n : ℕ) :
    ∀ (rest : List ℕ) (p fuel : ℕ), s.table.iteration.drop p = rest → p ≤ s.table.size →
      rest.length < fuel → ∃ it, (advanceToMatch ⟨n, p⟩).run s = (.ok it, s) ∧
        (localRangeLoop fuel it ⟨n, s.table.size⟩).run s =
          (.ok (rest.filter fun x => homeIn s.table x = n), s) := by
  intro rest
  induction rest with
  | nil =>
      intro p fuel hdrop hp hfuel
      obtain ⟨fuel, rfl⟩ : ∃ m, fuel = m + 1 := ⟨fuel - 1, by simp at hfuel; omega⟩
      have hlast : p = s.table.size := le_antisymm hp (List.drop_eq_nil_iff.mp hdrop)
      refine ⟨⟨n, p⟩, run_advanceToMatch_end hdrop, ?_⟩
      rw [localRangeLoop, if_pos hlast]
      rfl
  | cons x rest ih =>
      intro p fuel hdrop hp hfuel
      have hget : s.table.iteration[p]? = some x := by
        rw [← List.head?_drop, hdrop]
        rfl
      have hlt : p < s.table.size := (List.getElem?_eq_some_iff.mp hget).1
      have hx := hlive x (List.mem_of_getElem? hget)
      have hnext : s.table.iteration.drop (p + 1) = rest := by
        rw [← List.drop_drop, hdrop]
        rfl
      have hadvance := run_advanceToMatch (n := n) hquiet hx hdrop
      simp only [List.length_cons] at hfuel
      by_cases hhome : homeIn s.table x = n
      · obtain ⟨fuel, rfl⟩ : ∃ m, fuel = m + 1 := ⟨fuel - 1, by omega⟩
        obtain ⟨it, hit, hrest⟩ := ih (p + 1) fuel hnext hlt (by omega)
        rw [if_pos hhome] at hadvance
        refine ⟨⟨n, p⟩, hadvance, ?_⟩
        have hstep : (nextLocal ⟨n, p⟩).run s = (.ok it, s) := hit
        rw [localRangeLoop, if_neg (Nat.ne_of_lt hlt),
          Action.run_bind_ok _ (run_nodeOfLocal hget hx), Action.run_bind_ok _ hstep,
          Action.run_bind_ok _ hrest]
        simp [hhome]
      · obtain ⟨it, hit, hrest⟩ := ih (p + 1) fuel hnext hlt (by omega)
        rw [if_neg hhome] at hadvance
        refine ⟨it, hadvance.trans hit, ?_⟩
        rw [hrest]
        simp [hhome]

theorem run_localRange (hquiet : s.heap.fault = none)
    (hlive : ∀ x ∈ s.table.iteration, (s.table.nodeAt x).storage.isSome)
    (hsize : s.table.size ≤ kNullIndex) (n : ℕ) :
    (localRange n).run s = (.ok (dwellers s.table n), s) := by
  have hend : (endLocal n).run s = (.ok ⟨n, s.table.size⟩, s) :=
    run_advanceToMatch_end (List.drop_eq_nil_iff.mpr le_rfl)
  obtain ⟨it, hfirst, hloop⟩ := run_localRangeLoop hquiet hlive n s.table.iteration 0
    (kNullIndex + 1) rfl (Nat.zero_le _) (Nat.lt_succ_of_le hsize)
  have hbegin : (beginLocal n).run s = (.ok it, s) := hfirst
  unfold localRange
  rw [Action.run_bind_ok _ hbegin, Action.run_bind_ok _ hend, hloop]
  rfl

/-! ## The partition -/

/-- The bucket interface of a table with buckets: every key has a bucket; the local range of
a bucket visits exactly its elements, each once, and `bucket_size` counts them; and the ranges
partition the elements. -/
structure BucketsPartition (s : Store τ) (visited : ℕ → List ℕ) : Prop where
  bucket : ∀ key, ∃ b < s.table.bucketCount, (Model.bucket key).run s = (.ok b, s)
  range : ∀ n < s.table.bucketCount, (localRange n).run s = (.ok (visited n), s)
  once : ∀ n, (visited n).Nodup
  visits : ∀ n x, x ∈ visited n ↔ ∃ e, (s.table.nodeAt x).storage = some e ∧
    (Model.bucket (τ.keyOf e.value)).run s = (.ok n, s)
  bucketSize : ∀ n < s.table.bucketCount,
    (Model.bucketSize n).run s = (.ok (visited n).length, s)
  disjoint : ∀ m n, m ≠ n → List.Disjoint (visited m) (visited n)
  cover : ∀ x, (s.table.nodeAt x).storage.isSome →
    ∃ n < s.table.bucketCount, x ∈ visited n
  sizes : ∑ n ∈ Finset.range s.table.bucketCount, (visited n).length = s.table.size

theorem mem_dwellers {x : ℕ} : x ∈ dwellers t n ↔ x ∈ t.iteration ∧ homeIn t x = n := by
  simp [dwellers]

/-- The buckets below a bound on all homes hold as many elements as there are. -/
theorem sum_length_dwellers {count : ℕ} (hnodup : t.iteration.Nodup)
    (hlt : ∀ x ∈ t.iteration, homeIn t x < count) :
    ∑ n ∈ Finset.range count, (dwellers t n).length = t.size := by
  have hcard : ∀ n, (dwellers t n).length =
      (t.iteration.toFinset.filter fun x => homeIn t x = n).card := by
    intro n
    have hset : (dwellers t n).toFinset = t.iteration.toFinset.filter fun x => homeIn t x = n := by
      ext x
      simp [mem_dwellers]
    rw [← hset]
    exact (List.toFinset_card_of_nodup (hnodup.filter _)).symm
  have hmaps : ∀ x ∈ t.iteration.toFinset, homeIn t x ∈ Finset.range count := by
    intro x hx
    exact Finset.mem_range.mpr (hlt x (List.mem_toFinset.mp hx))
  rw [Finset.sum_congr rfl fun n _ => hcard n, ← Finset.card_eq_sum_card_fiberwise hmaps,
    List.toFinset_card_of_nodup hnodup]
  rfl

theorem bucketsPartition_dwellers (hc : Consistent s.table) (hquiet : s.heap.fault = none)
    (hne : s.table.bucketCount ≠ 0) : BucketsPartition s (dwellers s.table) := by
  have hlive : ∀ x ∈ s.table.iteration, (s.table.nodeAt x).storage.isSome := fun x hx =>
    hc.live hx
  have hbucket : ∀ key, (bucket key).run s =
      (.ok (s.table.homeFromHash (s.table.mixedHash key)), s) := by
    intro key
    rw [run_bucket hquiet key, if_neg hne]
  have hlt : ∀ x ∈ s.table.iteration, homeIn s.table x < s.table.bucketCount := fun x _ =>
    homeFromHash_lt hc hne _
  have hnodup := hc.slots.iteration_nodup
  constructor
  · intro key
    exact ⟨_, homeFromHash_lt hc hne _, hbucket key⟩
  · intro n _
    exact run_localRange hquiet hlive hc.slots.size_le_null n
  · intro n
    exact hnodup.filter _
  · intro n x
    rw [mem_dwellers]
    constructor
    · rintro ⟨hx, hhome⟩
      obtain ⟨e, he⟩ := Option.isSome_iff_exists.mp (hlive x hx)
      refine ⟨e, he, ?_⟩
      rw [hbucket, ← hhome]
      unfold homeIn
      rw [ownHash_of_storage he]
    · rintro ⟨e, he, hrun⟩
      rw [hbucket] at hrun
      have hhome : s.table.homeFromHash (s.table.mixedHash (τ.keyOf e.value)) = n := by
        simpa using hrun
      refine ⟨(hc.filled x).mp (by rw [he]; rfl), ?_⟩
      unfold homeIn
      rw [ownHash_of_storage he, hhome]
  · intro n _
    exact run_bucketSize hquiet hlive n
  · intro m n hmn x hm hn
    exact hmn ((mem_dwellers.mp hm).2.symm.trans (mem_dwellers.mp hn).2)
  · intro x hx
    have hmem := (hc.filled x).mp hx
    exact ⟨_, hlt x hmem, mem_dwellers.mpr ⟨hmem, rfl⟩⟩
  · exact sum_length_dwellers hnodup hlt

/-- In every table of a run in which nothing throws, the bucket interface partitions the
elements, and without buckets every local range is empty. -/
theorem buckets_partition_elements {w : World τ} {steps : List (Step τ)} {i : ℕ}
    (hrun : Run World.empty steps w) (hsteps : EachStep Calm World.empty steps)
    (hlaw : ∀ step ∈ steps, LawfulFunctors step.op)
    (hfactor : ∀ step ∈ steps, FactorAtMostOne step.op) (ht : w.table? i = some t) {heap : Heap}
    (hquiet : heap.fault = none) :
    (0 < t.bucketCount → ∃ visited, BucketsPartition ⟨t, heap⟩ visited) ∧
      (t.bucketCount = 0 → ∀ n, (localRange n).run ⟨t, heap⟩ = (.ok [], ⟨t, heap⟩)) := by
  have hc : Consistent t :=
    (run_sturdy hrun (regular_of_calm hrun hsteps hfactor) hlaw i t ht).1.consistent
  constructor
  · intro hpos
    exact ⟨_, bucketsPartition_dwellers (s := ⟨t, heap⟩) hc hquiet hpos.ne'⟩
  · intro hzero n
    have hempty : t.iteration = [] := by
      rcases hc.index with ⟨-, -, hnil⟩ | ⟨k, cells, I, -, -⟩
      · exact hnil
      · rw [I.bucketCount] at hzero
        exact absurd hzero (by positivity)
    have hlive : ∀ x ∈ t.iteration, (t.nodeAt x).storage.isSome := fun x hx => hc.live hx
    rw [run_localRange (s := ⟨t, heap⟩) hquiet hlive hc.slots.size_le_null n]
    unfold dwellers
    rw [hempty]
    rfl

/-- A map whose hasher leaves three keys in one bucket. -/
def crowdedSteps : List (Step NatMap) :=
  [⟨.construct 0 (fun k => UInt64.ofNat (k % 2)) (fun a b => a == b) (), none⟩,
    ⟨.table 0 (.insert (1, 10)), none⟩, ⟨.table 0 (.insert (2, 20)), none⟩,
    ⟨.table 0 (.insert (3, 30)), none⟩, ⟨.table 0 (.insert (5, 50)), none⟩,
    ⟨.table 0 (.eraseKey 1), none⟩, ⟨.table 0 (.insert (7, 70)), none⟩]

theorem buckets_partition_elements_crowded : ∃ visited, BucketsPartition
    ⟨((finish World.empty crowdedSteps).table? 0).get (by decide +kernel), Heap.empty⟩ visited := by
  have hcompletes : EachStep Step.Completes World.empty crowdedSteps := by decide +kernel
  have hcalm : EachStep Calm World.empty crowdedSteps := by decide +kernel
  have hfactor : ∀ step ∈ crowdedSteps, FactorAtMostOne step.op := by decide +kernel
  have hlaw : ∀ step ∈ crowdedSteps, LawfulFunctors step.op := by
    simp only [crowdedSteps, List.forall_mem_cons, List.not_mem_nil, LawfulFunctors]
    exact ⟨lawful_beq _, trivial, trivial, trivial, trivial, trivial, trivial, fun _ h => h.elim⟩
  exact (buckets_partition_elements (run_of_completes hcompletes) hcalm hlaw hfactor (i := 0)
    (Option.some_get (by decide +kernel)).symm (rfl : Heap.empty.fault = none)).1
      (by decide +kernel)

end Fum.Interface

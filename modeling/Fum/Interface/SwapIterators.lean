import Fum.Analysis.Addresses
import Fum.Analysis.Reachability
import Fum.Analysis.Contents
import Fum.Model.Instances

/-!
# Iterators and swap

An iterator is a pair of a table object and a node. `swap` exchanges what is behind the two
objects, so an iterator designates whatever the other table has in that node.
-/

set_option autoImplicit false

namespace Fum.Interface

open Fum.Model Fum.Analysis Effects

variable {τ : Traits} {w w' : World τ} {i j : ℕ} {a b : Table τ}

/-- `basic_iterator`: `table_` and `node_index_`. SOURCE: hash_table.hpp:140-146 -/
structure Iterator where
  table : ℕ
  node : ℕ
  deriving DecidableEq, Repr

/-- `*it`: the place of the element in memory, and its value. -/
def designated (w : World τ) (it : Iterator) : Option ((ℕ × ℕ) × τ.Value) :=
  (w.table? it.table).bind fun t =>
    (addressOf t it.node).bind fun p => (valueAt t it.node).map fun v => (p, v)

/-- What repeated `++` visits from `it` to `end()`. -/
def visitedBy (w : World τ) (it : Iterator) : Option (List (Option ((ℕ × ℕ) × τ.Value))) :=
  (w.table? it.table).bind fun t =>
    (t.range (kNullIndex + 1) it.node kNullIndex).map
      (List.map fun x => designated w ⟨it.table, x⟩)

/-- Every iterator into the tables `i` and `j` that can be dereferenced designates the same
element afterwards and goes on to the same elements. -/
def IteratorsSurvive (w w' : World τ) (i j : ℕ) : Prop :=
  ∀ it : Iterator, it.table = i ∨ it.table = j → (designated w it).isSome →
    designated w' it = designated w it ∧ visitedBy w' it = visitedBy w it

theorem designated_eq_some {t : Table τ} {x : ℕ} {p : ℕ × ℕ} {v : τ.Value}
    (ht : w.table? i = some t) :
    designated w ⟨i, x⟩ = some (p, v) ↔ addressOf t x = some p ∧ valueAt t x = some v := by
  simp [designated, ht, Option.bind_eq_some_iff, Option.map_eq_some_iff]

/-- A dereferenceable iterator designates a live node. -/
theorem live_of_designated {t : Table τ} {x : ℕ} (ht : w.table? i = some t)
    (h : (designated w ⟨i, x⟩).isSome) : (t.nodeAt x).storage.isSome := by
  obtain ⟨⟨p, v⟩, hpv⟩ := Option.isSome_iff_exists.mp h
  have hvalue := ((designated_eq_some ht).mp hpv).2
  unfold valueAt at hvalue
  obtain ⟨e, he, -⟩ := Option.map_eq_some_iff.mp hvalue
  rw [he]
  rfl

/-- What stands behind the objects after `swap`. -/
theorem swap_exchanges (ha : w.table? i = some a) (hb : w.table? j = some b) (hne : i ≠ j)
    (hexchange : Exchangeable a b) :
    Action.Post Stuck.never (swap i j) w
      (fun _ w' => w'.table? i = some b ∧ w'.table? j = some a) (fun _ => False) := by
  have hb' : (withStore w i ⟨b, w.heap⟩).table? j = some b :=
    (table?_withStore_of_ne hne _).trans hb
  refine post_swap ha hb hne (fun hnot => hnot hexchange) fun _ => ⟨?_, table?_withStore_self hb' _⟩
  exact (table?_withStore_of_ne (Ne.symm hne) _).trans (table?_withStore_self ha _)

/-- Without the allocators that it asks for, `swap` has undefined behaviour. -/
theorem swap_undefined (ha : w.table? i = some a) (hb : w.table? j = some b) (hne : i ≠ j)
    (hexchange : ¬ Exchangeable a b) : ((swap i j).run w).1 = .undefined :=
  (post_swap (U := Stuck.undefinedOnly) (Q := fun _ _ => False) ha hb hne (fun _ => rfl)
    fun h => absurd h hexchange).steps_outside

/-- An element of a table is not what its iterator designates once the other table is behind
the object. -/
theorem not_designated_after (hw : Owned w) (hi : w.table? i = some a) (hj : w.table? j = some b)
    (hne : i ≠ j) (hi' : w'.table? i = some b) {x : ℕ} (hlive : (a.nodeAt x).storage.isSome) :
    (designated w ⟨i, x⟩).isSome ∧ designated w' ⟨i, x⟩ ≠ designated w ⟨i, x⟩ := by
  obtain ⟨p, hp⟩ := Option.isSome_iff_exists.mp (addressOf_isSome hlive)
  obtain ⟨e, he⟩ := Option.isSome_iff_exists.mp hlive
  have hbefore : designated w ⟨i, x⟩ = some (p, e.value) :=
    (designated_eq_some hi).mpr ⟨hp, valueAt_of_storage he⟩
  rw [hbefore]
  refine ⟨rfl, fun hafter => hne ?_⟩
  have haddress := ((designated_eq_some hi').mp hafter).1
  exact hw.same_table hi hj hp haddress

/-- After a swap of two tables no iterator into either designates what it did before: iterators
survive only where there are none, or where a table is swapped with itself. -/
theorem iterators_survive_swap_iff {steps : List (Step τ)} (hrun : Run World.empty steps w)
    (hsteps : EachStep Regular World.empty steps) (hlaw : ∀ step ∈ steps, LawfulFunctors step.op)
    (ha : w.table? i = some a) (hb : w.table? j = some b) :
    (Exchangeable a b → ∃ w', (swap i j).run w = (.ok (), w')) ∧
      ((∃ w', (swap i j).run w = (.ok (), w') ∧ IteratorsSurvive w w' i j) ↔
        i = j ∨ Exchangeable a b ∧ a.size = 0 ∧ b.size = 0) := by
  have hsturdy := run_sturdy hrun hsteps hlaw
  have hca := (hsturdy i a ha).1.consistent
  have hcb := (hsturdy j b hb).1.consistent
  have howned := run_owned hrun
  by_cases hij : i = j
  · have hself : (swap i j).run w = (.ok (), w) := by
      unfold swap
      rw [if_pos hij]
      rfl
    exact ⟨fun _ => ⟨w, hself⟩, iff_of_true ⟨w, hself, fun _ _ _ => ⟨rfl, rfl⟩⟩ (Or.inl hij)⟩
  by_cases hexchange : Exchangeable a b
  swap
  · refine ⟨fun h => absurd h hexchange, iff_of_false ?_ ?_⟩
    · rintro ⟨w', hswap, -⟩
      have hundefined := swap_undefined ha hb hij hexchange
      rw [hswap] at hundefined
      cases hundefined
    · rintro (heq | ⟨h, -⟩)
      · exact hij heq
      · exact hexchange h
  obtain ⟨⟨⟩, w', hswap, hi', hj'⟩ := (swap_exchanges ha hb hij hexchange).returns
  refine ⟨fun _ => ⟨w', hswap⟩, ?_⟩
  constructor
  · rintro ⟨w'', hswap', hsurvive⟩
    obtain rfl : w' = w'' := congrArg Prod.snd (hswap.symm.trans hswap')
    refine Or.inr ⟨hexchange, ?_, ?_⟩
    · by_contra hsize
      obtain ⟨x, hx⟩ := List.exists_mem_of_length_pos (Nat.pos_of_ne_zero hsize)
      obtain ⟨hsome, hne⟩ := not_designated_after howned ha hb hij hi' (hca.live hx)
      exact hne (hsurvive ⟨i, x⟩ (Or.inl rfl) hsome).1
    · by_contra hsize
      obtain ⟨x, hx⟩ := List.exists_mem_of_length_pos (Nat.pos_of_ne_zero hsize)
      obtain ⟨hsome, hne⟩ := not_designated_after howned hb ha (Ne.symm hij) hj' (hcb.live hx)
      exact hne (hsurvive ⟨j, x⟩ (Or.inr rfl) hsome).1
  · rintro (heq | ⟨-, hemptya, hemptyb⟩)
    · exact absurd heq hij
    refine ⟨w', hswap, ?_⟩
    rintro ⟨k, x⟩ hk hsome
    -- an empty table has no iterator to dereference
    rcases hk with rfl | rfl
    · have hmem := (hca.filled x).mp (live_of_designated ha hsome)
      rw [List.eq_nil_of_length_eq_zero hemptya] at hmem
      cases hmem
    · have hmem := (hcb.filled x).mp (live_of_designated hb hsome)
      rw [List.eq_nil_of_length_eq_zero hemptyb] at hmem
      cases hmem

/-- Two maps with an element each. -/
def swappedSteps : List (Step NatMap) :=
  [⟨.construct 0 (fun k => UInt64.ofNat k) (fun a b => a == b) (), none⟩,
    ⟨.construct 0 (fun k => UInt64.ofNat k) (fun a b => a == b) (), none⟩,
    ⟨.table 0 (.insert (1, 10)), none⟩, ⟨.table 0 (.insert (2, 20)), none⟩,
    ⟨.table 1 (.insert (3, 30)), none⟩]

theorem swapped_lawful : ∀ step ∈ swappedSteps, LawfulFunctors step.op := by
  simp only [swappedSteps, List.forall_mem_cons, List.not_mem_nil, LawfulFunctors]
  exact ⟨lawful_beq _, lawful_beq _, trivial, trivial, trivial, fun _ h => h.elim⟩

theorem iterators_survive_swap_iff_swapped :
    ∃ w', (swap 0 1).run (finish World.empty swappedSteps) = (.ok (), w') ∧
      ¬ IteratorsSurvive (finish World.empty swappedSteps) w' 0 1 := by
  have hcompletes : EachStep Step.Completes World.empty swappedSteps := by decide +kernel
  obtain ⟨hreturns, hiff⟩ := iterators_survive_swap_iff (i := 0) (j := 1)
    (run_of_completes hcompletes) (by decide +kernel) swapped_lawful
    (Option.some_get (by decide +kernel)).symm (Option.some_get (by decide +kernel)).symm
  obtain ⟨w', hrun⟩ := hreturns (Or.inr ⟨rfl, rfl⟩)
  exact ⟨w', hrun, fun hsurvive => absurd (hiff.mp ⟨w', hrun, hsurvive⟩) (by decide +kernel)⟩

/-- The iterator to (1, 10) designates (3, 30) after the swap, and the iterator to (2, 20)
designates nothing. -/
theorem swapped_iterator_reads_other_table :
    (∃ t, (finish World.empty swappedSteps).table? 0 = some t ∧ Reachable t) ∧
    (∃ t, (finish World.empty swappedSteps).table? 1 = some t ∧ Reachable t) ∧
    ((swap 0 1).run (finish World.empty swappedSteps)).1 = .ok () ∧
    (designated (finish World.empty swappedSteps) ⟨0, 0⟩).map Prod.snd = some (1, 10) ∧
    (designated ((swap 0 1).run (finish World.empty swappedSteps)).2 ⟨0, 0⟩).map Prod.snd =
      some (3, 30) ∧
    (designated (finish World.empty swappedSteps) ⟨0, 1⟩).map Prod.snd = some (2, 20) ∧
    designated ((swap 0 1).run (finish World.empty swappedSteps)).2 ⟨0, 1⟩ = none ∧
    ¬ IteratorsSurvive (finish World.empty swappedSteps)
      ((swap 0 1).run (finish World.empty swappedSteps)).2 0 1 := by
  have hcompletes : EachStep Step.Completes World.empty swappedSteps := by decide +kernel
  have hregular : EachStep Regular World.empty swappedSteps := by decide +kernel
  have hreachable : ∀ n, ((finish World.empty swappedSteps).table? n).isSome →
      ∃ t, (finish World.empty swappedSteps).table? n = some t ∧ Reachable t :=
    fun n hsome => ⟨_, (Option.some_get hsome).symm,
      reachable_of_completes hcompletes hregular swapped_lawful hsome⟩
  refine ⟨hreachable 0 (by decide +kernel), hreachable 1 (by decide +kernel), by decide +kernel,
    by decide +kernel, by decide +kernel, by decide +kernel, by decide +kernel, ?_⟩
  intro hsurvive
  have hsame := (hsurvive ⟨0, 1⟩ (Or.inl rfl) (by decide +kernel)).1
  exact absurd (congrArg Option.isSome hsame) (by decide +kernel)

end Fum.Interface

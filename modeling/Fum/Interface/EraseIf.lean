import Fum.Analysis.Walks
import Fum.Model.Instances

/-!
# Erasure while iterating

The loop of `erase_if` asks its predicate about every element once, in the order in which
the erasures present them.
-/

set_option autoImplicit false

namespace Fum.Interface

open Fum.Model Fum.Analysis Effects SwapRemove

variable {τ : Traits} {t : Table τ} {heap : Heap} {predicate : List τ.Value → τ.Value → Bool}

/-- What `erase_if` promises of its result, the number of erased elements with the list of
values that the predicate was asked about. -/
structure ErasesExactly (predicate : List τ.Value → τ.Value → Bool) (t : Table τ)
    (r : ℕ × List τ.Value) (t' : Table τ) : Prop where
  /-- Every element that was there at the start has been asked about exactly once. -/
  asked : r.2.Perm (contents t)
  /-- The elements that were refused are there, with their values, and no others. -/
  kept : contents t' = answered predicate false [] r.2
  removed : (contents t' ++ answered predicate true [] r.2).Perm (contents t)
  count : r.1 = (answered predicate true [] r.2).length
  wellFormed : WellFormed t'
  findable : Findable t'

/-- For every table that a program can reach and every predicate, whatever it remembers,
`erase_if` returns and is exact. -/
theorem eraseIf_exact (hreach : Reachable t) (hquiet : heap.fault = none)
    (predicate : List τ.Value → τ.Value → Bool) :
    ∃ r s', (eraseIf predicate).run ⟨t, heap⟩ = (.ok r, s') ∧
      ErasesExactly predicate t r s'.table := by
  have hwalk : Walking ⟨t, heap⟩ 0 := Walking.start hreach hquiet (Nat.zero_le _)
  obtain ⟨r, s', hrun, hwalking, hasked, hkept, hcount⟩ :=
    (eraseIf_spec (U := Stuck.never) hwalk).returns
  refine ⟨r, s', hrun, hasked, hkept, ?_, hcount, hwalking.wellFormed,
    findable_of_wellFormed hwalking.wellFormed hwalking.room hwalking.lawful⟩
  rw [hkept]
  exact (answered_perm [] r.2).trans hasked

/-- A map with five elements whose growth has moved every bucket. -/
def fiveSteps : List (Step NatMap) :=
  [⟨.construct 0 (fun k => UInt64.ofNat k) (fun a b => a == b) (), none⟩,
    ⟨.table 0 (.insert (1, 10)), none⟩, ⟨.table 0 (.insert (2, 20)), none⟩,
    ⟨.table 0 (.insert (3, 30)), none⟩, ⟨.table 0 (.insert (4, 40)), none⟩,
    ⟨.table 0 (.insert (5, 50)), none⟩, ⟨.table 0 (.rehash 32), none⟩]

theorem five_made : ((finish World.empty fiveSteps).table? 0).isSome := by decide +kernel

theorem five_reachable : Reachable
    (((finish World.empty fiveSteps).table? 0).get five_made) := by
  refine reachable_of_completes (by decide +kernel) (by decide +kernel) ?_ _
  simp only [fiveSteps, List.forall_mem_cons, List.not_mem_nil, LawfulFunctors]
  exact ⟨lawful_beq _, trivial, trivial, trivial, trivial, trivial, trivial, fun _ h => h.elim⟩

/-- A predicate that says yes at every call with an even number: the elements come up in the
order 1, 5, 4, 2, 3, and 1, 4 and 3 go. -/
theorem eraseIf_exact_five :
    ∃ r s', (eraseIf fun asked _ => asked.length % 2 == 0).run
        ⟨((finish World.empty fiveSteps).table? 0).get five_made, Heap.empty⟩ =
          (.ok r, s') ∧
      ErasesExactly (fun asked _ => asked.length % 2 == 0)
        (((finish World.empty fiveSteps).table? 0).get five_made) r s'.table :=
  eraseIf_exact five_reachable rfl _

end Fum.Interface

import Fum.Interface.Moving
import Fum.Interface.ProgramRefinement

/-!
# What a move leaves

The receiver of a move has what the source had, and the source is as good as new: neither a
sequence of calls on it nor a program that goes on from there can tell it from a table that has
just been constructed with its functors. A table that moves the elements over asks for buckets
first, and that is the one thing that a move can fail for.
-/

set_option autoImplicit false

namespace Fum.Interface

open Fum.Model Fum.Analysis Effects

variable {τ : Traits} {w w' : World τ} {i j : ℕ} {t u : Table τ} {steps : List (Step τ)}

/-! ## An empty table and a new one -/

/-- Every sequence of calls whose arguments are valid is answered as a new map with the same
functors answers it, with the same contents after each call. Both answer as long as the bucket
counts that are asked for lie within `std::size_t`, which is at the same histories if the new map
has the same load factor. -/
def AsNew (t : Table τ) : Prop :=
  ∀ (events : List (Event τ)) (seen : List (Answer × List τ.Value)),
    (∀ e ∈ events, e.Modest) → denseHistory t.keyEqual (callsOf events) [] = some seen →
    (∀ o ∈ seen, o.2.length + 2 ≤ 2 ^ 24) → ∀ (heap heap' : Heap) (alloc : τ.Alloc),
      (SizableHistory events ⟨t, heap⟩ → ((observe events).run ⟨t, heap⟩).1 = .ok seen) ∧
      (∀ factor, LoadFactor.AtMostOne factor →
        SizableHistory events ⟨Table.initial factor t.hashFunction t.keyEqual alloc, heap'⟩ →
          ((observe events).run ⟨Table.initial factor t.hashFunction t.keyEqual alloc,
            heap'⟩).1 = .ok seen) ∧
      (SizableHistory events ⟨t, heap⟩ ↔ SizableHistory events
        ⟨Table.initial t.maxLoadFactor t.hashFunction t.keyEqual alloc, heap'⟩)

theorem playable_of_empty (hw : WellFormed t) (hlaw : LawfulTable t) (hmoderate : Moderate t)
    (hempty : contents t = []) : Playable t.keyEqual t := by
  refine ⟨hw, ?_, hlaw, hmoderate, rfl⟩
  unfold Room
  rw [← hw.consistent.length_contents, hempty]
  norm_num

theorem playable_initial {factor : LoadFactor τ.rounding} {hash : τ.Key → UInt64}
    {equal : τ.Key → τ.Key → Bool} (hfactor : LoadFactor.AtMostOne factor)
    (hlaw : Lawful hash equal) (alloc : τ.Alloc) :
    Playable equal (Table.initial factor hash equal alloc) :=
  playable_of_empty (initial_wellFormed _ _ _ _) hlaw hfactor rfl

theorem observe_empty (hp : Playable t.keyEqual t) (hempty : contents t = [])
    {events : List (Event τ)} {seen : List (Answer × List τ.Value)}
    (hmodest : ∀ e ∈ events, e.Modest)
    (hseen : denseHistory t.keyEqual (callsOf events) [] = some seen)
    (hroom : ∀ o ∈ seen, o.2.length + 2 ≤ 2 ^ 24) {heap : Heap}
    (hsized : SizableHistory events ⟨t, heap⟩) :
    ((observe events).run ⟨t, heap⟩).1 = .ok seen := by
  rw [← hempty] at hseen
  obtain ⟨seen', s', hrun, rfl, -⟩ := (observe_dense (U := Stuck.never) events ⟨t, heap⟩ seen hp
    hmodest hsized hseen hroom).returns
  rw [hrun]

theorem asNew_of_empty (hw : WellFormed t) (hlaw : LawfulTable t) (hmoderate : Moderate t)
    (hempty : contents t = []) : AsNew t := by
  intro events seen hmodest hseen hroom heap heap' alloc
  have hp := playable_of_empty hw hlaw hmoderate hempty
  refine ⟨observe_empty hp hempty hmodest hseen hroom, fun factor hfactor hsized => ?_, ?_⟩
  · exact observe_empty (t := Table.initial factor t.hashFunction t.keyEqual alloc)
      (playable_initial hfactor hlaw alloc) rfl hmodest hseen hroom hsized
  · refine sizableHistory_congr events ⟨t, heap⟩ ⟨Table.initial t.maxLoadFactor t.hashFunction
      t.keyEqual alloc, heap'⟩ seen hp (playable_initial hmoderate hlaw alloc) hempty rfl hmodest
      ?_ hroom
    rwa [← hempty] at hseen

/-! ## A program that goes on -/

/-- The world in which a new table stands in the place of `t`. -/
def renewed (w : World τ) (j : ℕ) (t : Table τ) (factor : LoadFactor τ.rounding) : World τ :=
  withStore w j ⟨Table.initial factor t.hashFunction t.keyEqual t.allocator, w.heap⟩

/-- A program that has a meaning for the maps of `w` ends with what it means for them, and so it
does with a new table in the place of `t`. -/
def GoesOnAsNew (w : World τ) (j : ℕ) (t : Table τ) : Prop :=
  ∀ (ops : List (WorldOp τ)) (m : MapWorld τ), (asMaps w).runs ops = some m →
    (∀ op ∈ ops, LawfulFunctors op) → (∀ op ∈ ops, FactorAtMostOne op) →
      (Feasible w ops →
        ∃ w1, (Action.forEach ops perform).run w = (.ok (), w1) ∧ asMaps w1 = m) ∧
      ∀ factor, LoadFactor.AtMostOne factor → Feasible (renewed w j t factor) ops →
        ∃ w1, (Action.forEach ops perform).run (renewed w j t factor) = (.ok (), w1) ∧
          asMaps w1 = m

theorem asMaps_renewed (hj : w.table? j = some t) (hempty : contents t = [])
    (factor : LoadFactor τ.rounding) : asMaps (renewed w j t factor) = asMaps w := by
  have hmap : asMap (Table.initial factor t.hashFunction t.keyEqual t.allocator) = asMap t := by
    unfold asMap
    rw [hempty]
    rfl
  calc asMaps (renewed w j t factor) = (asMaps w).setMap j (some (asMap t)) := by
        unfold renewed
        rw [asMaps_withStore, hmap]
    _ = asMaps (withStore w j ⟨t, w.heap⟩) := (asMaps_withStore w j ⟨t, w.heap⟩).symm
    _ = asMaps w := by rw [withStore_self hj]

theorem goesOnAsNew_of_empty (hw : Everywhere WellKept w) (hj : w.table? j = some t)
    (hempty : contents t = []) : GoesOnAsNew w j t := by
  intro ops m hruns hlaw hfactors
  refine ⟨fun hfeasible => ?_, fun factor hfactor hfeasible => ?_⟩
  · obtain ⟨w1, hrun, hmaps, -⟩ := perform_each ops hw hruns hlaw hfactors hfeasible
    exact ⟨w1, hrun, hmaps⟩
  · have hrenewed : Everywhere WellKept (renewed w j t factor) :=
      eachTable_withStore hj hw (playable_initial hfactor (hw j t hj).lawful t.allocator)
        fun _ _ _ h => h
    rw [← asMaps_renewed hj hempty factor] at hruns
    obtain ⟨w1, hrun, hmaps, -⟩ := perform_each ops hrenewed hruns hlaw hfactors hfeasible
    exact ⟨w1, hrun, hmaps⟩

/-! ## What a move promises -/

/-- The table `i` has the elements that `u` had, in the same order; what is left in the table
`j` is empty, well formed and as good as new. -/
structure Moved (w : World τ) (i j : ℕ) (u : Table τ) (w' : World τ) : Prop where
  dest : ∃ t, w'.table? i = some t ∧ CopyOf u t ∧ Findable t ∧ Reachable t
  source : ∃ u', w'.table? j = some u' ∧ u'.size = 0 ∧ WellFormed u' ∧ SamePolicy u u' ∧
    Reachable u' ∧ AsNew u' ∧ GoesOnAsNew w' j u'
  others : ∀ k, k ≠ i → k ≠ j → w'.table? k = w.table? k

/-- The elements that have been handed over were within limits before. -/
theorem Handed.room (h : Handed w i j u w') (hw : Everywhere Sturdy w) (hj : w.table? j = some u) :
    Everywhere Room w' := by
  obtain ⟨t, u', hpair, hcopy, hleft⟩ := h
  obtain ⟨hu, hroom⟩ := hw j u hj
  intro k t' ht'
  by_cases hki : k = i
  · subst hki
    cases hpair.left.symm.trans ht'
    unfold Room at hroom ⊢
    rwa [← hcopy.wellFormed.consistent.length_contents, hcopy.contents,
      hu.consistent.length_contents]
  by_cases hkj : k = j
  · subst hkj
    cases hpair.right.symm.trans ht'
    unfold Room
    rw [hleft.size]
    norm_num
  · rw [hpair.others k hki hkj] at ht'
    exact (hw k t' ht').2

theorem moved_of_handed {op : WorldOp τ} (hrun : Run World.empty steps w)
    (hsteps : EachStep Regular World.empty steps) (hlaw : ∀ step ∈ steps, LawfulFunctors step.op)
    (hfactor : ∀ step ∈ steps, FactorAtMostOne step.op) (hj : w.table? j = some u)
    (hok : (Step.exec ⟨op, none⟩).run w = (.ok (), w')) (hfits : Fits w op)
    (hlawop : LawfulFunctors op) (hfactorop : FactorAtMostOne op) (h : Handed w i j u w') :
    Moved w i j u w' := by
  have hrooms := h.room (run_sturdy hrun hsteps hlaw) hj
  obtain ⟨t, u', hpair, hcopy, hleft⟩ := h
  -- the move is one more step of the run
  have hrun' : Run World.empty (steps ++ [⟨op, none⟩]) w' := hrun.snoc (Or.inl hok)
  have hlaw' : ∀ step ∈ steps ++ [(⟨op, none⟩ : Step τ)], LawfulFunctors step.op := by
    intro step hstep
    rcases List.mem_append.mp hstep with hstep | hstep
    · exact hlaw step hstep
    · rw [List.mem_singleton.mp hstep]
      exact hlawop
  have hfactor' : ∀ step ∈ steps ++ [(⟨op, none⟩ : Step τ)], FactorAtMostOne step.op := by
    intro step hstep
    rcases List.mem_append.mp hstep with hstep | hstep
    · exact hfactor step hstep
    · rw [List.mem_singleton.mp hstep]
      exact hfactorop
  have hsteps' : EachStep Regular World.empty (steps ++ [⟨op, none⟩]) := by
    refine (eachStep_append _).mpr ⟨hsteps, ?_⟩
    rw [Run.finish hrun]
    refine ⟨⟨?_, hfits, fun hthrown => ?_⟩, trivial⟩
    · rw [hok]
      exact hrooms
    · rw [hok] at hthrown
      cases hthrown
  have hsturdy := run_sturdy hrun' hsteps' hlaw'
  have hlawful := run_lawful hrun' hlaw'
  have hmoderate := run_moderate hrun' hfactor'
  have hkept : Everywhere WellKept w' := fun k t' ht' =>
    ⟨(hsturdy k t' ht').1, (hsturdy k t' ht').2, hlawful k t' ht', hmoderate k t' ht', rfl⟩
  have hreach : ∀ {k t'}, w'.table? k = some t' → Reachable t' := fun {k _} ht' =>
    ⟨_, w', k, hrun', hsteps', hlaw', ht'⟩
  refine ⟨⟨t, hpair.left, hcopy, findable_of_wellFormed hcopy.wellFormed (hrooms i t hpair.left)
    (hlawful i t hpair.left), hreach hpair.left⟩, ⟨u', hpair.right, hleft.size, hleft.wellFormed,
    hleft.policy, hreach hpair.right, ?_, ?_⟩, hpair.others⟩
  · exact asNew_of_empty hleft.wellFormed (hlawful j u' hpair.right) (hmoderate j u' hpair.right)
      hleft.contents
  · exact goesOnAsNew_of_empty hkept hpair.right hleft.contents

/-- A move that gets stuck only for want of bucket counts. -/
theorem moved_iff {op : WorldOp τ} {C : Prop} (hrun : Run World.empty steps w)
    (hsteps : EachStep Regular World.empty steps) (hlaw : ∀ step ∈ steps, LawfulFunctors step.op)
    (hfactor : ∀ step ∈ steps, FactorAtMostOne step.op) (hj : w.table? j = some u)
    (hfits : Fits w op) (hlawop : LawfulFunctors op) (hfactorop : FactorAtMostOne op)
    (hpost : Action.Post (fun _ => ¬ C) op.exec (started ⟨op, none⟩ w)
      (fun _ w' => C ∧ Handed w i j u w') (fun _ => False)) :
    (∃ w', (Step.exec ⟨op, none⟩).run w = (.ok (), w') ∧ Moved w i j u w') ↔ C := by
  have hmoved : Action.Post (fun _ => ¬ C) op.exec (started ⟨op, none⟩ w)
      (fun _ w' => C ∧ Moved w i j u w') (fun _ => False) := by
    refine hpost.with_run.mono ?_ (fun _ h => h.1) fun _ h => h
    rintro ⟨⟩ w' ⟨⟨hC, hhanded⟩, hok⟩
    exact ⟨hC, moved_of_handed hrun hsteps hlaw hfactor hj hok hfits hlawop hfactorop hhanded⟩
  refine Iff.trans ⟨?_, ?_⟩ hmoved.returns_iff
  · exact fun ⟨w', hok, h⟩ => ⟨(), w', hok, h⟩
  · exact fun ⟨_, w', hok, h⟩ => ⟨w', hok, h⟩

/-- Where vectors that are moved from are left empty, move construction hands over what the
source has and leaves it as good as new. With an allocator, and by assignment, the storage is
stolen with the same result if the allocators allow that; otherwise the elements are moved one by
one, with the same result if and only if the bucket count that they need lies within
`std::size_t`. -/
theorem move_faithful_iff (hvectors : ∀ t u : Table τ, u.givesUpChunks t)
    (hrun : Run World.empty steps w) (hsteps : EachStep Regular World.empty steps)
    (hlaw : ∀ step ∈ steps, LawfulFunctors step.op)
    (hfactor : ∀ step ∈ steps, FactorAtMostOne step.op) (hj : w.table? j = some u) :
    (∃ w', (Step.exec ⟨.moveConstruct j, none⟩).run w = (.ok (), w') ∧
      Moved w w.tables.length j u w') ∧
    (∀ alloc, (∃ w', (Step.exec ⟨.moveConstructWith j alloc, none⟩).run w = (.ok (), w') ∧
      Moved w w.tables.length j u w') ↔ alloc = u.allocator ∨ Copyable u) ∧
    ∀ i t, i ≠ j → w.table? i = some t →
      ((∃ w', (Step.exec ⟨.moveAssign i j, none⟩).run w = (.ok (), w') ∧ Moved w i j u w') ↔
        (τ.pocma = true ∨ t.allocator = u.allocator) ∨ Copyable u) := by
  have hsturdy := run_sturdy hrun hsteps hlaw
  obtain ⟨hu, hroom⟩ := hsturdy j u hj
  have hlawu := run_lawful hrun hlaw j u hj
  refine ⟨?_, fun alloc => ?_, fun i t hij hi => ?_⟩
  · refine (moved_iff (C := True) hrun hsteps hlaw hfactor hj
      (show Fits w (.moveConstruct j) from trivial) trivial trivial
      (Action.Post.bind (moveConstruct_spec (w := started ⟨.moveConstruct j, none⟩ w) hj hu)
        (fun _ h => h) ?_)).mpr trivial
    rintro i w' ⟨rfl, hhanded⟩
    exact ⟨trivial, hhanded.of_started⟩
  · refine moved_iff hrun hsteps hlaw hfactor hj trivial trivial trivial
      (Action.Post.bind (moveConstructWith_spec (w := started ⟨.moveConstructWith j alloc, none⟩ w)
        alloc hj hu hroom hlawu (fun _ h => absurd (hvectors _ _) h) id rfl) (fun _ h => h) ?_)
    rintro i w' ⟨hC, rfl, hhanded⟩
    exact ⟨hC, hhanded.of_started⟩
  · refine moved_iff hrun hsteps hlaw hfactor hj trivial trivial trivial
      ((moveAssign_spec (w := started ⟨.moveAssign i j, none⟩ w) hij hi hj (hsturdy i t hi).1 hu
        hroom hlawu (fun _ h => absurd (hvectors _ _) h) id rfl).mono ?_ (fun _ h => h)
        fun _ h => h)
    rintro ⟨⟩ w' ⟨hC, hhanded⟩
    exact ⟨hC, hhanded.of_started⟩

/-- The second map steals what the first one has. -/
theorem move_faithful_coarse :
    ∃ w', (Step.exec ⟨.moveAssign 1 0, none⟩).run (finish World.empty coarseSteps) = (.ok (), w') ∧
      Moved (finish World.empty coarseSteps) 1 0
        (((finish World.empty coarseSteps).table? 0).get coarse_made) w' := by
  have hcompletes : EachStep Step.Completes World.empty coarseSteps := by decide +kernel
  have hregular : EachStep Regular World.empty coarseSteps := by decide +kernel
  have hfactor : ∀ step ∈ coarseSteps, FactorAtMostOne step.op := by decide +kernel
  exact ((move_faithful_iff (fun _ _ => Or.inl rfl) (run_of_completes hcompletes) hregular
    coarse_lawfulFunctors hfactor (j := 0) (Option.some_get coarse_made).symm).2.2 1 _ (by decide)
    (Option.some_get (by decide +kernel)).symm).mpr (Or.inl (Or.inl rfl))

/-- A map over allocators that stay with their tables, and vectors that a move leaves empty. -/
abbrev SettledMap : Traits := { CountedMap false false false with movedVectorEmpty := true }

/-- The map of nine elements and a tiny load factor, and an empty map with another allocator. -/
def tinyAndOther : List (Step SettledMap) :=
  ⟨.construct 0 (fun k => UInt64.ofNat k) (fun a b => a == b) (0 : ℕ), none⟩ ::
    (List.range 9).map (fun k => ⟨.table 0 (.insert (k, k)), none⟩) ++
    [⟨.table 0 (.maxLoadFactor (.finite (1 / 2 ^ 60) rfl)), none⟩,
      ⟨.construct 0 (fun k => UInt64.ofNat k) (fun a b => a == b) (1 : ℕ), none⟩]

theorem tinyAndOther_made : ((finish World.empty tinyAndOther).table? 0).isSome := by
  decide +kernel

theorem tinyAndOther_lawfulFunctors : ∀ step ∈ tinyAndOther, LawfulFunctors step.op := by
  intro step hstep
  simp only [tinyAndOther, List.mem_cons, List.mem_append, List.mem_map, List.not_mem_nil,
    or_false] at hstep
  rcases hstep with (rfl | ⟨k, -, rfl⟩) | rfl | rfl
  · exact lawful_beq _
  · trivial
  · trivial
  · exact lawful_beq _

/-- The other map cannot take the elements of the first one over. -/
theorem move_of_tiny_undefined :
    (∀ t u : Table SettledMap, u.givesUpChunks t) ∧
      EachStep Step.Completes World.empty tinyAndOther ∧
      EachStep Regular World.empty tinyAndOther ∧
      (∀ step ∈ tinyAndOther, LawfulFunctors step.op) ∧
      (∀ step ∈ tinyAndOther, FactorAtMostOne step.op) ∧
      ((Step.exec ⟨.moveAssign 1 0, none⟩).run (finish World.empty tinyAndOther)).1 =
        .undefined ∧
      ¬ ∃ w', (Step.exec ⟨.moveAssign 1 0, none⟩).run (finish World.empty tinyAndOther) =
          (.ok (), w') ∧
        Moved (finish World.empty tinyAndOther) 1 0
          (((finish World.empty tinyAndOther).table? 0).get tinyAndOther_made) w' := by
  have hundefined : ((Step.exec ⟨.moveAssign 1 0, none⟩).run
      (finish World.empty tinyAndOther)).1 = .undefined := by decide +kernel
  refine ⟨fun _ _ => Or.inr (Or.inr (Or.inl rfl)), by decide +kernel, by decide +kernel,
    tinyAndOther_lawfulFunctors, by decide +kernel, hundefined, ?_⟩
  rintro ⟨w', hok, -⟩
  rw [hok] at hundefined
  cases hundefined

end Fum.Interface

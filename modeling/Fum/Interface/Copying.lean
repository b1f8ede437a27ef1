import Fum.Analysis.Bystanders
import Fum.Analysis.Reachability
import Fum.Analysis.Refilling
import Fum.Analysis.Ownership
import Fum.Interface.MergeLaw

/-!
# Copies

A copy has the elements of its source in the same order, under the policy of the source, from
whatever state the receiver starts, and the two have nothing in common afterwards.
-/

set_option autoImplicit false

namespace Fum.Interface

open Fum.Model Fum.Analysis Effects

variable {τ : Traits} {U : Stuck → Prop} {w w' : World τ} {i j k : ℕ} {t u : Table τ}
  {steps : List (Step τ)}

/-! ## Statements about other tables -/

theorem untouched {step : Step τ} (h : Aside k step.op) (ht : w.table? k = some t) :
    (step.exec.run w).2.table? k = some t := by
  obtain ⟨t', ht', rfl⟩ := keeps_aside (I := fun t' => t' = t) h (started step w) ⟨t, ht, rfl⟩
  exact ht'

/-- Whatever happens to other tables leaves a table as it is. -/
theorem untouched_run (hsteps : ∀ step ∈ steps, Aside k step.op) (ht : w.table? k = some t) :
    (finish w steps).table? k = some t := by
  induction steps generalizing w with
  | nil => exact ht
  | cons step rest ih =>
      exact ih (fun step' hs => hsteps step' (List.mem_cons_of_mem _ hs))
        (untouched (hsteps step List.mem_cons_self) ht)

/-! ## The copies -/

theorem copyConstructWith_spec (alloc : τ.Alloc) (hj : w.table? j = some u) (hu : WellFormed u)
    (hroom : Room u) (hlaw : LawfulTable u) (hrange : ¬ Copyable u → U .undefined)
    (hquiet : w.heap.fault = none) :
    Action.Post U (copyConstructWith j alloc) w
      (fun i w' => Copyable u ∧ i = w.tables.length ∧ ∃ t, w'.table? i = some t ∧ CopyOf u t ∧
        ∀ k, k ≠ i → w'.table? k = w.table? k) (fun _ => False) := by
  have hne : w.tables.length ≠ j := (lt_of_join_eq_some hj).ne'
  unfold copyConstructWith
  refine post_readTable (fun other hother => ?_) fun hnone => absurd hnone (by rw [hj]; simp)
  rw [hj] at hother
  cases hother
  rw [post_newTable]
  have hcopy := copyContentsFrom_spec (U := U) hne (table?_newTable w _)
    (table?_append_of_some hj _)
    (initial_wellFormed u.maxLoadFactor u.hashFunction u.keyEqual alloc) rfl hlaw rfl rfl hu hroom
    hlaw hrange hquiet
  refine Action.Post.bind (Action.Post.cleanup hcopy fun _ h => h.elim) (fun _ h => h) ?_
  rintro ⟨⟩ w1 ⟨hcopyable, t, hpair, hrefilled, -⟩
  refine ⟨hcopyable, rfl, t, hpair.left, hrefilled.copyOf rfl rfl rfl, fun k hk => ?_⟩
  by_cases hkj : k = j
  · rw [hkj, hpair.right, hj]
  · rw [hpair.others k hk hkj, table?_append, if_neg hk]

theorem copyAssign_spec (hne : i ≠ j) (hi : w.table? i = some t) (hj : w.table? j = some u)
    (ht : WellFormed t) (hu : WellFormed u) (hroom : Room u) (hlaw : LawfulTable u)
    (hrange : ¬ Copyable u → U .undefined) (hquiet : w.heap.fault = none) :
    Action.Post U (copyAssign i j) w
      (fun _ w' => Copyable u ∧ ∃ t', w'.table? i = some t' ∧ CopyOf u t' ∧
        ∀ k, k ≠ i → w'.table? k = w.table? k) (fun _ => False) := by
  -- both paths end in the copy into an emptied table with the policy of the source
  have hcopy : ∀ (w1 : World τ) (t1 : Table τ), Pair w i j (t1.adoptPolicy u) u w1 →
      WellFormed t1 → t1.iteration = [] → w1.heap.fault = none →
      Action.Post U (copyContentsFrom i j) w1
        (fun _ w' => Copyable u ∧ ∃ t', w'.table? i = some t' ∧ CopyOf u t' ∧
          ∀ k, k ≠ i → w'.table? k = w.table? k) (fun _ => False) := by
    intro w1 t1 hp1 ht1 hempty hquiet1
    refine (copyContentsFrom_spec hne hp1.left hp1.right (ht1.adoptPolicy hempty u) hempty hlaw rfl
      rfl hu hroom hlaw hrange hquiet1).mono ?_ (fun _ h => h) fun _ h => h
    rintro ⟨⟩ w2 ⟨hcopyable, t2, hp2, hrefilled, -⟩
    refine ⟨hcopyable, t2, hp2.left, hrefilled.copyOf rfl rfl rfl, fun k hk => ?_⟩
    by_cases hkj : k = j
    · rw [hkj, hp2.right, hj]
    · rw [hp2.others k hk hkj, hp1.others k hk hkj]
  have hp0 := Pair.refl hne hi hj
  unfold copyAssign
  rw [if_neg hne]
  refine post_readTable (fun source hsource => ?_) fun hnone => absurd hnone (by rw [hj]; simp)
  refine post_readTable (fun this hthis => ?_) fun hnone => absurd hnone (by rw [hi]; simp)
  cases hj.symm.trans hsource
  cases hi.symm.trans hthis
  split
  · refine hp0.post_left ((destroyEverything_spec (s := ⟨t, w.heap⟩) ht.consistent.slots
      ht.consistent.filled hquiet).mono (fun _ s1 h1 hp1 => ?_) (fun _ h => h.elim) fun _ h => h)
    refine hp1.post_modifyLeft fun w2 hp2 hheap => ?_
    exact hcopy w2 _ hp2 ((reset_wellFormed h1.1).realloc u.allocator _) rfl
      (by rw [hheap]; exact h1.2.2)
  · refine hp0.post_modifyLeft fun w1 hp1 hheap => ?_
    have hrealloc : WellFormed (if τ.pocca then { t with allocator := u.allocator } else t) := by
      split
      · exact ht.realloc _ _
      · exact ht
    have hquiet1 : w1.heap.fault = none := by rw [hheap]; exact hquiet
    refine hp1.post_left ((clear_quiet (s := ⟨_, w1.heap⟩) hrealloc hquiet1).mono
      (fun _ s2 h2 hp2 => ?_) (fun _ h => h.elim) fun _ h => h)
    refine hp2.post_modifyLeft fun w3 hp3 hheap3 => ?_
    exact hcopy w3 _ hp3 h2.1 h2.2.1 (by rw [hheap3]; exact h2.2.2)

/-! ## What a copy promises -/

/-- The table `i` is a copy of `u`, which stands in `j` as before; the two share no storage,
and a statement that does not write to one of them leaves it alone, whatever it does to the
other. -/
structure Copied (w : World τ) (i j : ℕ) (u : Table τ) (w' : World τ) : Prop where
  copy : ∃ t, w'.table? i = some t ∧ CopyOf u t ∧ Findable t
  others : ∀ k, k ≠ i → w'.table? k = w.table? k
  source : w'.table? j = some u
  apart : ∀ x, ¬ (OwnsBlock w' i x ∧ OwnsBlock w' j x)
  sourceStays : ∀ steps : List (Step τ), (∀ step ∈ steps, Aside j step.op) →
    (finish w' steps).table? j = w'.table? j
  copyStays : ∀ steps : List (Step τ), (∀ step ∈ steps, Aside i step.op) →
    (finish w' steps).table? i = w'.table? i

theorem copied_of_copyOf (hne : i ≠ j) (hj : w.table? j = some u) (hu : WellFormed u)
    (hroom : Room u) (hlaw : LawfulTable u) (howned : Owned w') (hi : w'.table? i = some t)
    (hcopy : CopyOf u t) (hothers : ∀ k, k ≠ i → w'.table? k = w.table? k) :
    Copied w i j u w' where
  copy := by
    have hsize : Room t := by
      unfold Room at hroom ⊢
      rwa [← hcopy.wellFormed.consistent.length_contents, hcopy.contents,
        hu.consistent.length_contents]
    have hlaw' : LawfulTable t := by
      unfold LawfulTable
      rw [hcopy.hashFunction, hcopy.keyEqual]
      exact hlaw
    exact ⟨t, hi, hcopy, findable_of_wellFormed hcopy.wellFormed hsize hlaw'⟩
  others := hothers
  source := (hothers j (Ne.symm hne)).trans hj
  apart x h := hne (howned.unique i j x h.1 h.2)
  sourceStays steps hsteps := by
    have hsource := (hothers j (Ne.symm hne)).trans hj
    rw [untouched_run hsteps hsource, hsource]
  copyStays steps hsteps := by rw [untouched_run hsteps hi, hi]

/-- A copy that gets stuck only for want of bucket counts. -/
theorem copied_iff {op : WorldOp τ} (hrun : Run World.empty steps w)
    (hsteps : EachStep Regular World.empty steps)
    (hlaw : ∀ step ∈ steps, LawfulFunctors step.op) (hj : w.table? j = some u) (hne : i ≠ j)
    (hpost : Action.Post (fun _ => ¬ Copyable u) op.exec (started ⟨op, none⟩ w)
      (fun _ w' => Copyable u ∧ ∃ t, w'.table? i = some t ∧ CopyOf u t ∧
        ∀ k, k ≠ i → w'.table? k = w.table? k) (fun _ => False)) :
    (∃ w', (Step.exec ⟨op, none⟩).run w = (.ok (), w') ∧ Copied w i j u w') ↔ Copyable u := by
  obtain ⟨hu, hroom⟩ := run_sturdy hrun hsteps hlaw j u hj
  have hlawu := run_lawful hrun hlaw j u hj
  have hcopied : Action.Post (fun _ => ¬ Copyable u) op.exec (started ⟨op, none⟩ w)
      (fun _ w' => Copyable u ∧ Copied w i j u w') (fun _ => False) := by
    refine hpost.with_run.mono ?_ (fun _ h => h.1) fun _ h => h
    rintro ⟨⟩ w' ⟨⟨hcopyable, t, ht, hcopy, hothers⟩, hok⟩
    have hends : Step.Ends ⟨op, none⟩ w w' := Or.inl hok
    have howned : Owned w' := run_owned (hrun.snoc hends)
    exact ⟨hcopyable, copied_of_copyOf hne hj hu hroom hlawu howned ht hcopy hothers⟩
  refine Iff.trans ⟨?_, ?_⟩ hcopied.returns_iff
  · exact fun ⟨w', hok, h⟩ => ⟨(), w', hok, h⟩
  · exact fun ⟨_, w', hok, h⟩ => ⟨w', hok, h⟩

/-- For every source and receiver that a program can reach, copy construction and copy
assignment are faithful if and only if the bucket count that the elements of the source need
lies within `std::size_t`; self-assignment changes nothing. -/
theorem copy_faithful_iff (hrun : Run World.empty steps w)
    (hsteps : EachStep Regular World.empty steps)
    (hlaw : ∀ step ∈ steps, LawfulFunctors step.op) (hj : w.table? j = some u) :
    ((∃ w', (Step.exec ⟨.copyConstruct j, none⟩).run w = (.ok (), w') ∧
      Copied w w.tables.length j u w') ↔ Copyable u) ∧
    (∀ alloc, (∃ w', (Step.exec ⟨.copyConstructWith j alloc, none⟩).run w = (.ok (), w') ∧
      Copied w w.tables.length j u w') ↔ Copyable u) ∧
    (∀ i, i ≠ j → (w.table? i).isSome →
      ((∃ w', (Step.exec ⟨.copyAssign i j, none⟩).run w = (.ok (), w') ∧ Copied w i j u w') ↔
        Copyable u)) ∧
    ∃ w', (Step.exec ⟨.copyAssign j j, none⟩).run w = (.ok (), w') ∧ w'.tables = w.tables ∧
      w'.handles = w.handles := by
  have hsturdy := run_sturdy hrun hsteps hlaw
  obtain ⟨hu, hroom⟩ := hsturdy j u hj
  have hlawu := run_lawful hrun hlaw j u hj
  have hne : w.tables.length ≠ j := (lt_of_join_eq_some hj).ne'
  have hconstruct : ∀ (op : WorldOp τ) (alloc : τ.Alloc),
      Action.Post (fun _ => ¬ Copyable u) (copyConstructWith j alloc) (started ⟨op, none⟩ w)
        (fun _ w' => Copyable u ∧ ∃ t, w'.table? w.tables.length = some t ∧ CopyOf u t ∧
          ∀ k, k ≠ w.tables.length → w'.table? k = w.table? k) (fun _ => False) := by
    intro op alloc
    refine (copyConstructWith_spec (w := started ⟨op, none⟩ w) alloc hj hu hroom hlawu id
      rfl).mono ?_ (fun _ h => h) fun _ h => h
    rintro i w' ⟨hcopyable, rfl, hcopied⟩
    exact ⟨hcopyable, hcopied⟩
  refine ⟨?_, fun alloc => ?_, fun i hij hsome => ?_, ?_⟩
  · refine copied_iff hrun hsteps hlaw hj hne ?_
    refine Action.Post.bind (post_readTable (fun other hother => ?_) fun hnone => ?_)
      (fun _ h => h) fun _ _ h => h
    · cases hj.symm.trans hother
      exact hconstruct _ (τ.selectOnCopy u.allocator)
    · exact absurd hnone (by rw [show (started _ w).table? j = some u from hj]; simp)
  · exact copied_iff hrun hsteps hlaw hj hne
      (Action.Post.bind (hconstruct _ alloc) (fun _ h => h) fun _ _ h => h)
  · obtain ⟨t, hi⟩ := Option.isSome_iff_exists.mp hsome
    exact copied_iff hrun hsteps hlaw hj hij (copyAssign_spec
      (w := started ⟨.copyAssign i j, none⟩ w) hij hi hj (hsturdy i t hi).1 hu hroom hlawu id rfl)
  · refine ⟨started ⟨.copyAssign j j, none⟩ w, ?_, rfl, rfl⟩
    show (copyAssign j j).run (started ⟨.copyAssign j j, none⟩ w) = _
    unfold copyAssign
    rw [if_pos rfl]
    rfl

/-- The second map takes the elements and the functors of the first one. -/
theorem copy_faithful_coarse :
    ∃ w', (Step.exec ⟨.copyAssign 1 0, none⟩).run (finish World.empty coarseSteps) = (.ok (), w') ∧
      Copied (finish World.empty coarseSteps) 1 0
        (((finish World.empty coarseSteps).table? 0).get coarse_made) w' := by
  have hcompletes : EachStep Step.Completes World.empty coarseSteps := by decide +kernel
  have hregular : EachStep Regular World.empty coarseSteps := by decide +kernel
  exact ((copy_faithful_iff (run_of_completes hcompletes) hregular coarse_lawfulFunctors (j := 0)
    (Option.some_get (by decide +kernel)).symm).2.2.1 1 (by decide) (by decide +kernel)).mpr
      (by decide +kernel)

/-! ## What a small load factor asks for -/

/-- A map of nine elements with a load factor that asks for more buckets than `std::size_t`
counts. -/
def tinySteps : List (Step NatMap) :=
  ⟨.construct 0 (fun k => UInt64.ofNat k) (fun a b => a == b) (), none⟩ ::
    (List.range 9).map (fun k => ⟨.table 0 (.insert (k, k)), none⟩) ++
    [⟨.table 0 (.maxLoadFactor (.finite (1 / 2 ^ 60) rfl)), none⟩]

theorem tiny_made : ((finish World.empty tinySteps).table? 0).isSome := by decide +kernel

theorem tiny_lawfulFunctors : ∀ step ∈ tinySteps, LawfulFunctors step.op := by
  intro step hstep
  simp only [tinySteps, List.mem_cons, List.mem_append, List.mem_map, List.not_mem_nil,
    or_false] at hstep
  rcases hstep with (rfl | ⟨k, -, rfl⟩) | rfl
  · exact lawful_beq _
  · trivial
  · trivial

/-- Neither a copy of such a map nor its assignment to another one is faithful: `reserve` asks
`std::bit_ceil` for a power of two that `std::size_t` does not have. -/
theorem copy_of_tiny_undefined :
    EachStep Step.Completes World.empty tinySteps ∧ EachStep Regular World.empty tinySteps ∧
      (∀ step ∈ tinySteps, LawfulFunctors step.op) ∧
      (∀ step ∈ tinySteps, FactorAtMostOne step.op) ∧
      ((Step.exec ⟨.copyConstruct 0, none⟩).run (finish World.empty tinySteps)).1 = .undefined ∧
      ¬ ∃ w', (Step.exec ⟨.copyConstruct 0, none⟩).run (finish World.empty tinySteps) =
          (.ok (), w') ∧
        Copied (finish World.empty tinySteps) 1 0
          (((finish World.empty tinySteps).table? 0).get tiny_made) w' := by
  have hundefined : ((Step.exec ⟨.copyConstruct 0, none⟩).run (finish World.empty tinySteps)).1 =
      .undefined := by decide +kernel
  refine ⟨by decide +kernel, by decide +kernel, tiny_lawfulFunctors, by decide +kernel, hundefined,
    ?_⟩
  rintro ⟨w', hok, -⟩
  rw [hok] at hundefined
  cases hundefined

end Fum.Interface

import Fum.Analysis.Interruption
import Fum.Analysis.Runs

/-!
# Reachable tables

Every table of a run is well formed, if the functors it was built with are lawful and each
step of the run leaves the tables small enough, asks for buckets enough and throws only
where an exception does no harm. A program whose load factors are at most one and whose
steps do not throw asks for nothing else than room.
-/

set_option autoImplicit false

namespace Fum.Analysis

open Fum.Model Effects

variable {τ : Traits} {α : Type} {w w' : World τ} {i : ℕ} {t : Table τ} {s : Store τ}
  {steps : List (Step τ)} {I : Table τ → Prop}

/-! ## Insertion of a node -/

/-- An exception of an insertion that hashes once before it constructs, and that does no
harm. -/
def SafeInsertion (t : Table τ) (fault : Option (Point × ℕ)) : Prop :=
  (FunctorFault fault → EarlyFault 1 fault) ∧
    (faultPoint fault = some .bucketArray → t.bucketCount = 0)

theorem insertNode_wellFormed (handle : Handle τ) (hw : WellFormed s.table)
    (hroom : Room s.table) :
    Action.Post Stuck.anyhow (insertNode handle) s (fun _ s' => WellFormed s'.table)
      (fun s' => SafeInsertion s.table s.heap.fault → WellFormed s'.table) := by
  cases hcell : handle.value with
  | none =>
      unfold insertNode
      rw [hcell]
      exact hw
  | some cell =>
      refine (insertNode_spec hcell hw.consistent hroom).mono ?_ ?_ fun _ h' => h'
      · rintro r s' ⟨hc', hentered, -⟩
        exact hw.of_entered hentered hc'
      · rintro s' hthrown ⟨hfunctor, harray⟩
        exact hthrown.wellFormed hw hfunctor harray

theorem insertHandle_formed (hinted : Bool) (h : ℕ) (hw : Everywhere Sturdy w) :
    Action.Post Stuck.anyhow (insertHandle hinted i h) w (fun _ => Everywhere Formed)
      (fun w' => (∀ t ∈ w.table? i, SafeInsertion t w.heap.fault) → Everywhere Formed w') := by
  unfold insertHandle
  refine post_readHandle (fun handle _ => ?_) fun _ => trivial
  refine Action.Post.bind (Q := fun _ => Everywhere Formed)
    (E := fun w' => (∀ t ∈ w.table? i, SafeInsertion t w.heap.fault) → Everywhere Formed w')
    ?_ (fun _ h' => h') ?_
  · refine post_movingHandle ?_
    refine Action.Post.mono (Q := fun _ => Everywhere Formed) (E := fun w' =>
      (∀ t ∈ w.table? i, SafeInsertion t w.heap.fault) → Everywhere Formed w') ?_
      (fun _ _ h' => ⟨h', h'⟩) (fun _ h' => ⟨h', h'⟩) fun _ h' => h'
    refine post_onTable (fun t ht => ?_) fun _ => trivial
    obtain ⟨hwell, hroom⟩ := hw i t ht
    have hother : ∀ s' : Store τ, WellFormed s'.table →
        Everywhere Formed (withStore { w with heap := { w.heap with moved := false } } i s') :=
      fun s' h' => eachTable_withStore ht (formed_of_sturdy hw) (fun _ => h') fun _ _ _ h' => h'
    refine (insertNode_wellFormed (s := ⟨t, _⟩) handle hwell hroom).mono ?_ ?_ fun _ h' => h'
    · exact fun _ s' h' => hother s' h'
    · exact fun s' h' hsafe => hother s' (h' (hsafe t ht))
  · rintro r w1 hw1
    cases hinted <;> exact hw1

/-! ## Statements -/

/-- The functors of a table that the statement builds are lawful. -/
def LawfulFunctors : WorldOp τ → Prop
  | .construct _ hash equal _ => Lawful hash equal
  | .constructRange _ _ hash equal _ => Lawful hash equal
  | _ => True

/-- A load factor that the statement sets is at most one. -/
def FactorAtMostOne : WorldOp τ → Prop
  | .table _ (.maxLoadFactor z) => LoadFactor.AtMostOne (LoadFactor.ofFloat z)
  | _ => True

/-- The statement asks for buckets enough. -/
def Fits (w : World τ) : WorldOp τ → Prop
  | .table i op => ∀ t ∈ w.table? i, FitsIn t op
  | _ => True

/-- The bucket counts that the statement asks for lie within `std::size_t`. -/
def Sizable (w : World τ) : WorldOp τ → Prop
  | .table i op => ∀ t ∈ w.table? i, SizableIn t op
  | .construct n _ _ _ | .constructRange _ n _ _ _ => n ≤ 2 ^ 63
  | .copyConstruct j | .copyConstructWith j _ => ∀ u ∈ w.table? j, Copyable u
  | .copyAssign i j => i ≠ j → ∀ u ∈ w.table? j, Copyable u
  | .moveConstructWith j alloc => ∀ u ∈ w.table? j, alloc = u.allocator ∨ Copyable u
  | .moveAssign i j => i ≠ j → ∀ t ∈ w.table? i, ∀ u ∈ w.table? j,
      (τ.pocma = true ∨ t.allocator = u.allocator) ∨ Copyable u
  | _ => True

/-- The vectors of the tables can change hands as the statement asks, and leave no chunk
behind. -/
def HandsOver (w : World τ) : WorldOp τ → Prop
  | .swap i j => i ≠ j → ∀ t ∈ w.table? i, ∀ u ∈ w.table? j, Exchangeable t u
  | .moveConstructWith j alloc => ∀ u ∈ w.table? j, alloc = u.allocator →
      u.givesUpChunks (Table.initial u.maxLoadFactor u.hashFunction u.keyEqual alloc)
  | .moveAssign i j => i ≠ j → ∀ t ∈ w.table? i, ∀ u ∈ w.table? j,
      τ.pocma = true ∨ t.allocator = u.allocator → u.givesUpChunks t
  | _ => True

/-- An exception of the statement leaves well-formed tables well formed: it comes before the
statement has changed anything that it does not undo, or after elements that it has finished
with. -/
def Harmless (w : World τ) (fault : Option (Point × ℕ)) : WorldOp τ → Prop
  | .table i op => ∀ t ∈ w.table? i, SafeFault t op fault
  | .insertHandle _ i _ => ∀ t ∈ w.table? i, SafeInsertion t fault
  | .construct _ _ _ _ | .constructRange _ _ _ _ _ | .copyConstruct _
  | .copyConstructWith _ _ => True
  | .copyAssign _ _ | .assignValues _ _ => Undoable fault
  | .merge _ _ => Untouched fault
  | .moveConstructWith _ _ => FirstAllocationThrows fault
  | .moveAssign i _ => FirstAllocationThrows fault ∧ ∀ t ∈ w.table? i, Unallocated t
  | _ => False

theorem table_formed (op : Op τ) (hw : Everywhere Sturdy w)
    (hfits : ∀ t ∈ w.table? i, FitsIn t op) :
    Action.Post Stuck.anyhow (WorldOp.table i op).exec w (fun _ => Everywhere Formed)
      (fun w' => Harmless w w.heap.fault (.table i op) → Everywhere Formed w') := by
  refine Action.Post.bind (Q := fun _ => Everywhere Formed) ?_ (fun _ h' => h') ?_
  · refine post_onTable (fun t ht => ?_) fun _ => trivial
    obtain ⟨hwell, hroom⟩ := hw i t ht
    have hother : ∀ s' : Store τ, WellFormed s'.table → Everywhere Formed (withStore w i s') :=
      fun s' h' => eachTable_withStore ht (formed_of_sturdy hw) (fun _ => h') fun _ _ _ h' => h'
    refine (Op.exec_wellFormed (s := ⟨t, w.heap⟩) op hwell hroom (hfits t ht)).mono ?_ ?_
      fun _ _ => trivial
    · exact fun _ s' h' => hother s' h'.1
    · exact fun s' h' hsafe => hother s' (h' (hsafe t ht))
  · intro reply w1 hw1
    cases reply <;> exact hw1

/-- A merge reads its source. -/
theorem mergeFrom_none {source : ℕ} (hi : w.table? i = some t) (hj : w.table? source = none) :
    Action.Post Stuck.anyhow (mergeFrom i source) w (fun _ _ => False)
      (fun w' => ∀ k, w'.table? k = w.table? k) := by
  refine Action.Post.bind (Q := fun _ w1 => w1.table? source = none)
    (E := fun w' => ∀ k, w'.table? k = w.table? k) ?_ (fun _ h' => h') fun _ w1 h1 => ?_
  · refine post_onTable (fun t' ht' => ?_) fun _ => trivial
    refine (mayThrow_frame .scratch).mono (fun _ s' _ => ?_) (fun s' h' k => ?_)
      fun _ h' => h'
    · rw [table?_withStore_of_ne, hj]
      rintro rfl
      rw [hi] at hj
      cases hj
    · by_cases hki : i = k
      · subst hki
        rw [table?_withStore_self ht', h'.table, ht']
      · exact table?_withStore_of_ne hki _
  · exact post_readTable (fun u hu => by rw [h1] at hu; cases hu) fun _ => trivial

theorem Pair.formed {u : Table τ} {source : ℕ} (h : Pair w i source t u w')
    (hw : Everywhere Formed w) (ht : Formed t) (hu : Formed u) : Everywhere Formed w' := by
  intro k t' ht'
  by_cases hki : k = i
  · subst hki
    rw [h.left] at ht'
    cases ht'
    exact ht
  · by_cases hkj : k = source
    · subst hkj
      rw [h.right] at ht'
      cases ht'
      exact hu
    · rw [h.others k hki hkj] at ht'
      exact hw k t' ht'

theorem Untouched.allocationThrows {fault : Option (Point × ℕ)} (h : Untouched fault) :
    AllocationThrows fault := by
  obtain ⟨p, hp, hpoint⟩ := h
  refine ⟨p, ?_, hpoint⟩
  simp only [List.mem_cons, List.not_mem_nil, or_false] at hp ⊢
  rcases hp with rfl | rfl | rfl <;> simp

/-- A merge that throws before it has touched an element leaves the ones moved before. -/
theorem MergeThrown.formed {u0 : Table τ} {source : ℕ} {t0 : Table τ}
    (h : MergeThrown w i source t0 u0 w') (hw : Everywhere Formed w)
    (huntouched : Untouched w.heap.fault) : Everywhere Formed w' := by
  cases h with
  | between done moved t u t' absorbs erased formed early same consistent pair =>
      exact pair.formed hw (fun _ => absorbs.wellFormed.of_sameElements same consistent)
        fun _ => formed
  | unlinked moved node e t u t' u' turn fault same consistent left pair =>
      exact absurd (by rw [fault]; rfl) (huntouched.ne (p := .iterationGrowth) (by simp))
  | unhoused moved node n e t u t' u' turn unmoved fault first lost left pair =>
      exact absurd (by rw [fault]; rfl) (huntouched.ne (p := .bucketArray) (by simp))

theorem mergeFrom_formed {source : ℕ} (hw : Everywhere Sturdy w)
    (hlaw : Everywhere LawfulTable w) :
    Action.Post Stuck.anyhow (mergeFrom i source) w (fun _ => Everywhere Formed)
      (fun w' => Untouched w.heap.fault → Everywhere Room w' → Everywhere Formed w') := by
  have hf := formed_of_sturdy hw
  cases hi : w.table? i with
  | none =>
      refine Action.Post.bind (Q := fun _ _ => False) ?_ (fun _ h' => h') fun _ _ h' => h'.elim
      exact post_onTable (fun t ht => by rw [hi] at ht; cases ht) fun _ => trivial
  | some t =>
      cases hj : w.table? source with
      | none =>
          refine (mergeFrom_none hi hj).mono (fun _ _ h' => h'.elim) (fun w' h' _ _ k t1 ht1 => ?_)
            fun _ h' => h'
          rw [h' k] at ht1
          exact hf k t1 ht1
      | some u =>
          obtain ⟨hwt, hroomt⟩ := hw i t hi
          obtain ⟨hwu, hroomu⟩ := hw source u hj
          have hlawu := hlaw source u hj
          by_cases hne : i = source
          · subst hne
            refine (mergeFrom_self (X := True) hj hwu hroomu hlawu (Or.inl trivial)).mono ?_ ?_
              fun _ h' => h'
            · rintro - w' ⟨heq, -⟩
              rw [heq]
              exact hf
            · rintro w' ⟨heq, -⟩ - -
              rw [heq]
              exact hf
          · have hthrown := Action.Post.forall fun (_ : Unit) (h : Untouched w.heap.fault) =>
              mergeFrom_thrown hne hi hj hwt hroomt (hlaw i t hi) hwu hroomu hlawu
                h.allocationThrows
            refine ((mergeFrom_growing hne hi hj hwt hwu hlawu hroomu).and hthrown).mono ?_ ?_
              fun _ h' => h'
            · rintro - w' ⟨⟨t', u', moved, hp, hgrow, -, hu'⟩, -⟩
              exact hp.formed hf hgrow.formed fun _ => hu'
            · rintro w' ⟨-, hthrown⟩ huntouched hroom
              rcases hthrown () huntouched with h | ⟨t', ht', hover⟩
              · exact h.formed hf huntouched
              · exact absurd (hroom i t' ht') hover

/-- Every statement leaves well-formed tables, as far as they have room, if it asks for
buckets enough. -/
theorem WorldOp.exec_formed (op : WorldOp τ) (hw : Everywhere Sturdy w)
    (hlaw : Everywhere LawfulTable w) (hfits : Fits w op) :
    Action.Post Stuck.anyhow op.exec w (fun _ => Everywhere Formed)
      (fun w' => Harmless w w.heap.fault op → Everywhere Room w' → Everywhere Formed w') := by
  have hf := formed_of_sturdy hw
  have hignoring : ∀ {β : Type} {x : Action (World τ) β} {E : World τ → Prop},
      Action.Post Stuck.anyhow x w (fun _ => Everywhere Formed) E →
      Action.Post Stuck.anyhow (ignoring x) w (fun _ => Everywhere Formed) E := ignoring_sound
  have hsafe : ∀ {β : Type} {x : Action (World τ) β} {P : Prop},
      Action.Post Stuck.anyhow x w (fun _ => Everywhere Formed) (Everywhere Formed) →
      Action.Post Stuck.anyhow x w (fun _ => Everywhere Formed)
        fun w' => P → Everywhere Room w' → Everywhere Formed w' :=
    fun h => h.mono (fun _ _ h' => h') (fun _ h' _ _ => h') fun _ h' => h'
  have hif : ∀ {β : Type} {x : Action (World τ) β} {P : Prop},
      Action.Post Stuck.anyhow x w (fun _ => Everywhere Formed)
        (fun w' => P → Everywhere Formed w') →
      Action.Post Stuck.anyhow x w (fun _ => Everywhere Formed)
        fun w' => P → Everywhere Room w' → Everywhere Formed w' :=
    fun h => h.mono (fun _ _ h' => h') (fun _ h' hP _ => h' hP) fun _ h' => h'
  have hharm : ∀ {β : Type} {x : Action (World τ) β},
      Action.Post Stuck.anyhow x w (fun _ => Everywhere Formed) (fun _ => True) →
      Action.Post Stuck.anyhow x w (fun _ => Everywhere Formed) fun w' =>
        False → Everywhere Room w' → Everywhere Formed w' :=
    fun h => h.mono (fun _ _ h' => h') (fun _ _ h' => h'.elim) fun _ h' => h'
  cases op with
  | construct n hash equal alloc => exact hignoring (hsafe (construct_formed n hash equal alloc hf))
  | constructRange values n hash equal alloc =>
      exact hignoring (hsafe (constructRange_formed values n hash equal alloc hf))
  | copyConstruct source =>
      exact hignoring (hsafe (post_readTable (fun _ _ => copyConstructWith_formed _ hf)
        fun _ => trivial))
  | copyConstructWith source alloc => exact hignoring (hsafe (copyConstructWith_formed alloc hf))
  | moveConstruct source => exact hignoring (hharm (moveConstruct_formed hf))
  | moveConstructWith source alloc => exact hignoring (hif (moveConstructWith_formed alloc hw))
  | destroy this =>
      exact hharm ((destroy_formed fun j t ht _ => hf j t ht).mono (fun _ _ h' => h')
        (fun _ _ => trivial) fun _ h' => h')
  | copyAssign this other => exact hif (copyAssign_formed hw)
  | moveAssign this other => exact hif (moveAssign_formed hw)
  | assignValues this values => exact hif (assignValues_formed values hw)
  | swap this other => exact hharm (swap_formed hf)
  | merge this source => exact mergeFrom_formed hw hlaw
  | table this op => exact hif (table_formed op hw hfits)
  | insertHandle hinted this h => exact hignoring (hif (insertHandle_formed hinted h hw))
  | handleDefault => exact hignoring hf
  | handleMove source =>
      exact hignoring (post_readHandle (fun _ _ => hf) fun _ => trivial)
  | handleAssign this source =>
      refine hharm ?_
      show Action.Post _ (if this = source then _ else _) _ _ _
      split
      · exact hf
      · exact post_readHandle (fun _ _ => post_readHandle (fun _ _ => hf) fun _ => trivial)
          fun _ => trivial
  | handleSwap this source =>
      exact hharm (post_readHandle (fun _ _ => post_readHandle (fun _ _ => hf) fun _ => trivial)
        fun _ => trivial)
  | handleDestroy h => exact hharm (post_readHandle (fun _ _ => hf) fun _ => trivial)

/-! ## Runs -/

instance (fault : Option (Point × ℕ)) : Decidable (FunctorFault fault) :=
  inferInstanceAs (Decidable (_ ∨ _))

instance (n : ℕ) (fault : Option (Point × ℕ)) : Decidable (EarlyFault n fault) :=
  decidable_of_iff (faultPoint fault = some .equal ∨ ∃ m ∈ List.range n, fault = some (.hash, m))
    (by
      unfold EarlyFault
      simp only [List.mem_range])

instance (fault : Option (Point × ℕ)) : ∀ op : Op τ, Decidable (SafeCall op fault)
  | .insert _ | .rehash _ | .reserve _ => isFalse id
  | .tryEmplace _ _ => inferInstanceAs (Decidable (EarlyFault 1 fault))
  | .insertOrAssign _ _ => inferInstanceAs (Decidable (EarlyFault 2 fault))
  | .assign _ _ | .eraseKey _ | .eraseAt _ | .eraseRange _ _ | .extractKey _ | .extractAt _
  | .clear | .maxLoadFactor _ | .find _ => isTrue trivial

instance (t : Table τ) (op : Op τ) (fault : Option (Point × ℕ)) :
    Decidable (SafeFault t op fault) :=
  inferInstanceAs (Decidable (_ ∧ _))

instance (t : Table τ) (fault : Option (Point × ℕ)) : Decidable (SafeInsertion t fault) :=
  inferInstanceAs (Decidable (_ ∧ _))

instance : DecidablePred (Room : Table τ → Prop) :=
  fun t => inferInstanceAs (Decidable (t.size + 2 ≤ 2 ^ 24))

instance (w : World τ) : ∀ op : WorldOp τ, Decidable (Fits w op)
  | .table i op => inferInstanceAs (Decidable (∀ t ∈ w.table? i, FitsIn t op))
  | .construct _ _ _ _ | .constructRange _ _ _ _ _ | .copyConstruct _ | .copyConstructWith _ _
  | .moveConstruct _ | .moveConstructWith _ _ | .destroy _ | .copyAssign _ _ | .moveAssign _ _
  | .assignValues _ _ | .swap _ _ | .merge _ _ | .insertHandle _ _ _ | .handleDefault
  | .handleMove _ | .handleAssign _ _ | .handleSwap _ _ | .handleDestroy _ => isTrue trivial

instance (w : World τ) : ∀ op : WorldOp τ, Decidable (Sizable w op)
  | .table i op => inferInstanceAs (Decidable (∀ t ∈ w.table? i, SizableIn t op))
  | .construct n _ _ _ | .constructRange _ n _ _ _ => inferInstanceAs (Decidable (n ≤ 2 ^ 63))
  | .copyConstruct j | .copyConstructWith j _ =>
      inferInstanceAs (Decidable (∀ u ∈ w.table? j, Copyable u))
  | .copyAssign i j => inferInstanceAs (Decidable (i ≠ j → ∀ u ∈ w.table? j, Copyable u))
  | .moveConstructWith j alloc =>
      inferInstanceAs (Decidable (∀ u ∈ w.table? j, alloc = u.allocator ∨ Copyable u))
  | .moveAssign i j =>
      inferInstanceAs (Decidable (i ≠ j → ∀ t ∈ w.table? i, ∀ u ∈ w.table? j,
        (τ.pocma = true ∨ t.allocator = u.allocator) ∨ Copyable u))
  | .moveConstruct _ | .destroy _ | .assignValues _ _ | .swap _ _ | .merge _ _
  | .insertHandle _ _ _ | .handleDefault | .handleMove _ | .handleAssign _ _ | .handleSwap _ _
  | .handleDestroy _ => isTrue trivial

instance (w : World τ) : ∀ op : WorldOp τ, Decidable (HandsOver w op)
  | .swap i j =>
      inferInstanceAs (Decidable (i ≠ j → ∀ t ∈ w.table? i, ∀ u ∈ w.table? j, Exchangeable t u))
  | .moveConstructWith j alloc =>
      inferInstanceAs (Decidable (∀ u ∈ w.table? j, alloc = u.allocator →
        u.givesUpChunks (Table.initial u.maxLoadFactor u.hashFunction u.keyEqual alloc)))
  | .moveAssign i j =>
      inferInstanceAs (Decidable (i ≠ j → ∀ t ∈ w.table? i, ∀ u ∈ w.table? j,
        τ.pocma = true ∨ t.allocator = u.allocator → u.givesUpChunks t))
  | .table _ _ | .construct _ _ _ _ | .constructRange _ _ _ _ _ | .copyConstruct _
  | .copyConstructWith _ _ | .moveConstruct _ | .destroy _ | .copyAssign _ _ | .assignValues _ _
  | .merge _ _ | .insertHandle _ _ _ | .handleDefault | .handleMove _ | .handleAssign _ _
  | .handleSwap _ _ | .handleDestroy _ => isTrue trivial

instance (w : World τ) (fault : Option (Point × ℕ)) :
    ∀ op : WorldOp τ, Decidable (Harmless w fault op)
  | .table i op => inferInstanceAs (Decidable (∀ t ∈ w.table? i, SafeFault t op fault))
  | .insertHandle _ i _ =>
      inferInstanceAs (Decidable (∀ t ∈ w.table? i, SafeInsertion t fault))
  | .construct _ _ _ _ | .constructRange _ _ _ _ _ | .copyConstruct _
  | .copyConstructWith _ _ => isTrue trivial
  | .copyAssign _ _ | .assignValues _ _ => inferInstanceAs (Decidable (Undoable fault))
  | .merge _ _ => inferInstanceAs (Decidable (Untouched fault))
  | .moveConstructWith _ _ => inferInstanceAs (Decidable (FirstAllocationThrows fault))
  | .moveAssign i _ => inferInstanceAs (Decidable (FirstAllocationThrows fault ∧
      ∀ t ∈ w.table? i, Unallocated t))
  | .moveConstruct _ | .destroy _ | .swap _ _ | .handleDefault | .handleMove _
  | .handleAssign _ _ | .handleSwap _ _ | .handleDestroy _ => isFalse id

instance : ∀ op : WorldOp τ, Decidable (FactorAtMostOne op)
  | .table _ (.maxLoadFactor z) =>
      inferInstanceAs (Decidable (LoadFactor.AtMostOne (LoadFactor.ofFloat z)))
  | .table _ (.insert _) | .table _ (.tryEmplace _ _) | .table _ (.insertOrAssign _ _)
  | .table _ (.assign _ _) | .table _ (.eraseKey _) | .table _ (.eraseAt _)
  | .table _ (.eraseRange _ _) | .table _ (.extractKey _) | .table _ (.extractAt _)
  | .table _ .clear | .table _ (.rehash _) | .table _ (.reserve _) | .table _ (.find _)
  | .construct _ _ _ _ | .constructRange _ _ _ _ _ | .copyConstruct _ | .copyConstructWith _ _
  | .moveConstruct _ | .moveConstructWith _ _ | .destroy _ | .copyAssign _ _ | .moveAssign _ _
  | .assignValues _ _ | .swap _ _ | .merge _ _ | .insertHandle _ _ _ | .handleDefault
  | .handleMove _ | .handleAssign _ _ | .handleSwap _ _ | .handleDestroy _ => isTrue trivial

/-- The step asks for buckets enough, leaves every table small enough, and throws, if at
all, where an exception does no harm. -/
def Regular (w : World τ) (step : Step τ) : Prop :=
  Everywhere Room (step.exec.run w).2 ∧ Fits w step.op ∧
    ((step.exec.run w).1 = .thrown → Harmless w step.fault step.op)

instance (w : World τ) (step : Step τ) : Decidable (Regular w step) :=
  inferInstanceAs (Decidable (_ ∧ _ ∧ (_ → _)))

/-- The step throws nothing and leaves every table small enough. -/
def Calm (w : World τ) (step : Step τ) : Prop :=
  (step.exec.run w).1 ≠ .thrown ∧ Everywhere Room (step.exec.run w).2

instance (w : World τ) (step : Step τ) : Decidable (Calm w step) :=
  inferInstanceAs (Decidable (_ ∧ _))

/-- What a property of tables asks of a statement: that it holds of the tables the statement
builds and survives the load factor it sets. -/
def Respects (I : Table τ → Prop) (op : WorldOp τ) : Prop :=
  (∀ n hash equal alloc values, op = .construct n hash equal alloc ∨
    op = .constructRange values n hash equal alloc →
      I (Table.initial (kDefaultMaxLoadFactor τ.rounding) hash equal alloc)) ∧
    ∀ i z, op = .table i (.maxLoadFactor z) →
      ∀ t, I t → I (withFactor t (LoadFactor.ofFloat z))

theorem step_everywhere (h : Robust I) (hadopt : ∀ t o, I t → I o → I (t.adoptPolicy o))
    {step : Step τ} (hw : Everywhere I w) (hstep : Respects I step.op) (hends : step.Ends w w') :
    Everywhere I w' := by
  have hw1 : Everywhere I (started step w) := hw
  have hpost := WorldOp.post_everywhere h step.op hw1 (fun _ h' => h') hstep.1 hstep.2
    (fun this other _ => ((h.upheld.copyAssign hadopt).post hw1).mono (fun _ _ h' => h')
      (fun _ h' => h') fun _ h' => h')
    (fun this other _ => ((h.upheld.moveAssign hadopt).post hw1).mono (fun _ _ h' => h')
      (fun _ h' => h') fun _ h' => h')
  rcases Step.ends_post hpost hends with h' | ⟨-, h'⟩
  · exact h'
  · exact h'

theorem run_everywhere (h : Robust I) (hadopt : ∀ t o, I t → I o → I (t.adoptPolicy o))
    (hrun : Run World.empty steps w) (hsteps : ∀ step ∈ steps, Respects I step.op) :
    Everywhere I w :=
  Run.invariant hrun (eachTable_empty _)
    (fun _ _ _ hw hstep hends => step_everywhere h hadopt hw hstep hends)
    (eachStep_of_forall hsteps)

theorem robust_lawfulTable : Robust (LawfulTable : Table τ → Prop) where
  arena _ _ _ _ h := h
  buckets _ _ h := h
  iteration _ _ h := h
  rebuild _ _ _ h := h
  drop _ h := h
  reset _ h := h
  allocators _ _ _ h := h
  fresh _ _ h := h

theorem LawfulFunctors.respects {op : WorldOp τ} (h : LawfulFunctors op) :
    Respects LawfulTable op := by
  refine ⟨?_, fun _ _ _ _ h' => h'⟩
  rintro n hash equal alloc values (rfl | rfl)
  · exact h
  · exact h

theorem run_lawful (hrun : Run World.empty steps w)
    (hlaw : ∀ step ∈ steps, LawfulFunctors step.op) : Everywhere LawfulTable w :=
  run_everywhere robust_lawfulTable (fun _ _ _ h => h) hrun
    fun step hstep => (hlaw step hstep).respects

/-- The load factor of a table is at most one. -/
def Moderate (t : Table τ) : Prop := LoadFactor.AtMostOne t.maxLoadFactor

instance : DecidablePred (Moderate : Table τ → Prop) :=
  fun t => inferInstanceAs (Decidable (LoadFactor.AtMostOne t.maxLoadFactor))

theorem robust_moderate : Robust (Moderate : Table τ → Prop) where
  arena _ _ _ _ h := h
  buckets _ _ h := h
  iteration _ _ h := h
  rebuild _ _ _ h := h
  drop _ h := h
  reset _ h := h
  allocators _ _ _ h := h
  fresh _ _ h := h

theorem FactorAtMostOne.respects {op : WorldOp τ} (h : FactorAtMostOne op) :
    Respects Moderate op := by
  refine ⟨fun _ _ _ _ _ _ => ?_, ?_⟩
  · exact τ.rounding.round_le_one (by norm_num)
  · rintro i z rfl t _
    exact h

theorem run_moderate (hrun : Run World.empty steps w)
    (hfactor : ∀ step ∈ steps, FactorAtMostOne step.op) : Everywhere Moderate w :=
  run_everywhere robust_moderate (fun _ _ _ h => h) hrun
    fun step hstep => (hfactor step hstep).respects

/-- Every table of a run is well formed and has room. -/
theorem run_sturdy (hrun : Run World.empty steps w)
    (hsteps : EachStep Regular World.empty steps)
    (hlaw : ∀ step ∈ steps, LawfulFunctors step.op) : Everywhere Sturdy w := by
  refine (Run.invariant (I := fun w => Everywhere Sturdy w ∧ Everywhere LawfulTable w) hrun
    ⟨eachTable_empty _, eachTable_empty _⟩ ?_ (hsteps.and (eachStep_of_forall hlaw))).1
  rintro w1 step w2 ⟨hw, hlaw1⟩ ⟨⟨hroom, hfits, hharm⟩, hlawstep⟩ hends
  have hpost := WorldOp.exec_formed (w := started step w1) step.op hw hlaw1 hfits
  rw [ends_next hends] at hroom
  refine ⟨fun i t ht => ⟨?_, hroom i t ht⟩,
    step_everywhere robust_lawfulTable (fun _ _ _ h => h) hlaw1 hlawstep.respects hends⟩
  rcases Step.ends_post hpost hends with h' | ⟨hthrown, h'⟩
  · exact h' i t ht (hroom i t ht)
  · exact h' (hharm (congrArg Prod.fst hthrown)) hroom i t ht (hroom i t ht)

/-- A table of a program with lawful functors whose steps are all regular. -/
def Reachable (t : Table τ) : Prop :=
  ∃ steps w i, Run World.empty steps w ∧ EachStep Regular World.empty steps ∧
    (∀ step ∈ steps, LawfulFunctors step.op) ∧ w.table? i = some t

/-- The tables at the end of steps that all complete. -/
theorem reachable_of_completes {steps : List (Step τ)} {i : ℕ}
    (hcompletes : EachStep Step.Completes World.empty steps)
    (hregular : EachStep Regular World.empty steps)
    (hlaw : ∀ step ∈ steps, LawfulFunctors step.op)
    (hsome : ((finish World.empty steps).table? i).isSome) :
    Reachable (((finish World.empty steps).table? i).get hsome) :=
  ⟨steps, _, i, run_of_completes hcompletes, hregular, hlaw, (Option.some_get hsome).symm⟩

theorem Reachable.sturdy (h : Reachable t) : Sturdy t := by
  obtain ⟨steps, w, i, hrun, hsteps, hlaw, ht⟩ := h
  exact run_sturdy hrun hsteps hlaw i t ht

theorem Reachable.lawful (h : Reachable t) : LawfulTable t := by
  obtain ⟨steps, w, i, hrun, -, hlaw, ht⟩ := h
  exact run_lawful hrun hlaw i t ht

/-- A step that ends has asked for no more buckets than `std::size_t` counts. -/
theorem sizableIn_of_ends {step : Step τ} (hends : step.Ends w w') :
    ∀ i op, step.op = .table i op → ∀ t ∈ w.table? i, SizableIn t op := by
  intro i op hop t ht
  have hpost : Action.Post Stuck.anyhow (WorldOp.table i op).exec (started step w)
      (fun _ _ => SizableIn t op) (fun _ => SizableIn t op) := by
    refine Action.Post.bind (Q := fun _ _ => SizableIn t op) (E := fun _ => SizableIn t op) ?_
      (fun _ h' => h') fun reply _ h' => ?_
    · refine post_onTable (fun u hu => ?_) fun _ => trivial
      obtain rfl : t = u := Option.some.inj (ht.symm.trans hu)
      exact Op.exec_sizableIn op
    · exact (Action.Post.any _ _).mono (fun _ _ _ => h') (fun _ _ => h') fun _ h'' => h''
  rw [← hop] at hpost
  exact (Step.ends_post hpost hends).elim id And.right

/-- With load factors of at most one, a step that ends has asked for buckets enough. -/
theorem fits_of_moderate {step : Step τ} (h : Everywhere Moderate w)
    (hends : step.Ends w w') : Fits w step.op := by
  have hsized := sizableIn_of_ends hends
  cases hop : step.op with
  | table i op => exact fun t ht => (hsized i op hop t ht).fitsIn (h i t ht)
  | construct | constructRange | copyConstruct | copyConstructWith | moveConstruct
  | moveConstructWith | destroy | copyAssign | moveAssign | assignValues | swap | merge
  | insertHandle | handleDefault | handleMove | handleAssign | handleSwap | handleDestroy =>
      trivial

/-- With load factors of at most one, no request of a run asks for too few buckets. -/
theorem fits_of_factors (hrun : Run World.empty steps w)
    (hfactor : ∀ step ∈ steps, FactorAtMostOne step.op) :
    EachStep (fun w1 step => Fits w1 step.op) World.empty steps := by
  refine Run.eachStep hrun (eachStep_of_forall hfactor) ?_
  intro front w1 step w2 hfront hP _ hends
  have hmoderate : Everywhere Moderate w1 :=
    Run.invariant hfront (eachTable_empty _) (fun _ _ _ hw hstep hends =>
      step_everywhere robust_moderate (fun _ _ _ h => h) hw hstep.respects hends) hP
  exact fits_of_moderate hmoderate hends

/-- With load factors of at most one, every calm step is regular. -/
theorem regular_of_calm (hrun : Run World.empty steps w)
    (hsteps : EachStep Calm World.empty steps)
    (hfactor : ∀ step ∈ steps, FactorAtMostOne step.op) :
    EachStep Regular World.empty steps :=
  (hsteps.and (fits_of_factors hrun hfactor)).mono fun _ _ ⟨⟨hthrow, hroom⟩, hfits⟩ =>
    ⟨hroom, hfits, fun h => absurd h hthrow⟩

end Fum.Analysis

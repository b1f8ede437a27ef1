import Fum.Analysis.Growth
import Fum.Analysis.Runs

/-!
# Statements that build, assign and exchange tables

Constructors, assignments and swap leave well-formed tables well formed, as long as the
tables stay small enough. A constructor that throws leaves no table behind, a copy leaves the
elements before the one it stopped at, and a move that throws at its first allocation leaves
the source as it was.
-/

set_option autoImplicit false

namespace Fum.Analysis

open Fum.Model Effects

variable {τ : Traits} {α : Type} {I : Table τ → Prop} {K : ℕ → Table τ → Prop}
  {s : Store τ} {t t0 : Table τ} {w w' : World τ} {i this other source : ℕ}
  {steps : List (Step τ)}

/-! ## New and dropped tables -/

theorem eachTable_newTable (hw : EachTable K w) (ht : K w.tables.length t) :
    EachTable K { w with tables := w.tables ++ [some t] } := by
  intro j t' ht'
  rw [table?_append] at ht'
  split at ht'
  · next heq =>
      cases ht'
      rw [heq]
      exact ht
  · exact hw j t' ht'

/-- Every table but `i` satisfies `I`. -/
abbrev Others (i : ℕ) (I : Table τ → Prop) (w : World τ) : Prop :=
  EachTable (fun j t => j ≠ i → I t) w

theorem Others.setTable_none (hw : Others i I w) : Everywhere I (w.setTable i none) := by
  intro j t ht
  by_cases hij : i = j
  · subst hij
    rw [table?_setTable_none] at ht
    cases ht
  · rw [table?_setTable_of_ne hij] at ht
    exact hw j t ht fun h => hij h.symm

theorem Others.withStore (hw : Everywhere I w) (ht : w.table? i = some t) (s : Store τ) :
    Others i I (withStore w i s) :=
  eachTable_withStore ht hw (fun h => absurd rfl h) fun _ _ _ h' _ => h'

theorem keeps_others_onTable (x : Exec τ α) : Action.Keeps (Others i I) (onTable i x) :=
  keeps_onTable_each fun _ _ h => absurd rfl h

/-- A table that is built in place and dropped if that throws. -/
theorem post_buildOrDrop {x : Action (World τ) Unit}
    (hx : Action.Post Stuck.anyhow x w (fun _ => Everywhere I) (Others i I)) :
    Action.Post Stuck.anyhow (x.cleanup (dropTable i) >>= fun _ => pure i) w
      (fun _ => Everywhere I) (Everywhere I) := by
  refine Action.Post.bind (Q := fun _ => Everywhere I) ?_ (fun _ h' => h') fun _ _ h' => h'
  exact Action.Post.cleanup hx fun w' h' => h'.setTable_none

/-! ## Constructors and the destructor -/

theorem construct_formed (n : ℕ) (hash : τ.Key → UInt64) (equal : τ.Key → τ.Key → Bool)
    (alloc : τ.Alloc) (hw : Everywhere Formed w) :
    Action.Post Stuck.anyhow (construct n hash equal alloc) w (fun _ => Everywhere Formed)
      (Everywhere Formed) := by
  unfold construct
  rw [post_newTable]
  have hinit := initial_wellFormed (kDefaultMaxLoadFactor τ.rounding) hash equal alloc
  have hw1 := eachTable_newTable hw fun _ => hinit
  refine post_buildOrDrop ?_
  split
  · refine post_onTable_each hw1 ?_ fun _ _ _ h' => h'
    rintro ⟨t, heap⟩ hs -
    rw [table?_newTable] at hs
    cases hs
    refine post_defined (fun count hcount => ?_) fun _ => trivial
    obtain ⟨k, hk, rfl⟩ := roundUpToPowerOfTwo_eq hcount
    refine (rehashTo_consistent hk hinit.consistent (room_of_empty rfl) ?_).mono ?_ ?_
      fun _ h' => h'
    · exact Nat.two_pow_pos k
    · rintro ⟨⟩ s' ⟨hsame, hc', -⟩ -
      exact hinit.of_sameElements hsame hc'
    · exact fun s' _ => Others.withStore hw1 (table?_newTable w _) s'
  · exact hw1

theorem destroy_formed (hw : Others i Formed w) :
    Action.Post Stuck.anyhow (destroy i) w (fun _ => Everywhere Formed)
      (Everywhere Formed) := by
  unfold destroy
  refine post_onTable_bind (fun t ht => ?_) fun _ => trivial
  refine destroyEverything_chunks.mono ?_ (fun _ h' => h'.elim) fun _ h' => h'
  rintro ⟨⟩ s' -
  have hothers : Others i Formed (Analysis.withStore w i s') :=
    eachTable_withStore ht hw (fun h => absurd rfl h) fun _ _ _ h' => h'
  exact hothers.setTable_none

theorem constructRange_formed (values : List τ.Value) (n : ℕ) (hash : τ.Key → UInt64)
    (equal : τ.Key → τ.Key → Bool) (alloc : τ.Alloc) (hw : Everywhere Formed w) :
    Action.Post Stuck.anyhow (constructRange values n hash equal alloc) w
      (fun _ => Everywhere Formed) (Everywhere Formed) := by
  unfold constructRange
  refine Action.Post.bind (construct_formed n hash equal alloc hw) (fun _ h' => h') ?_
  intro i w1 hw1
  refine Action.Post.bind (Q := fun _ => Everywhere Formed) ?_ (fun _ h' => h')
    fun _ _ h' => h'
  refine Action.Post.cleanup (E := Others i Formed) ?_ fun w2 h2 => destroy_formed h2
  refine post_onTable (fun t ht => ?_) fun _ => trivial
  refine (insertRange_undoing values (s := ⟨t, w1.heap⟩) (hw1 i t ht).undoing).mono ?_ ?_
    fun _ h' => h'
  · exact fun _ s' h' => eachTable_withStore ht hw1 h'.formed fun _ _ _ h'' => h''
  · exact fun s' _ => Others.withStore hw1 ht s'

/-- The loop of a copy enters the elements of another table. -/
theorem copyContentsFrom_formed {P : Prop} (hw : Everywhere Formed w)
    (hthis : ∀ t, w.table? this = some t → WellFormed t ∧ t.iteration = [])
    (hundo : P → Undoable w.heap.fault) :
    Action.Post Stuck.anyhow (copyContentsFrom this other) w (fun _ => Everywhere Formed)
      (fun w' => P → Everywhere Formed w') := by
  unfold copyContentsFrom
  refine post_readTable (fun source _ => ?_) fun _ => trivial
  split
  · exact hw
  -- what the loop knows of the world between two insertions
  let J : World τ → Prop := fun w' =>
    Everywhere Formed w' ∧ ∀ t, w'.table? this = some t → Undoing P ⟨t, w'.heap⟩
  have hstore : ∀ {w1 : World τ} {t : Table τ} {s : Store τ}, Everywhere Formed w1 →
      w1.table? this = some t → Undoing P s → J (withStore w1 this s) := by
    intro w1 t s hw1 ht hs
    refine ⟨eachTable_withStore ht hw1 hs.formed fun _ _ _ h' => h', fun t' ht' => ?_⟩
    rw [table?_withStore_self ht] at ht'
    cases ht'
    exact hs
  refine post_onTable_bind (fun t ht => ?_) fun _ => trivial
  obtain ⟨hwell, hempty⟩ := hthis t ht
  refine (reserve_undoing (s := ⟨t, w.heap⟩) _ hwell hempty hundo).mono ?_
    (fun _ h' hP => absurd hP h') fun _ h' => h'
  rintro ⟨⟩ s1 ⟨hwell1, -, hundo1⟩
  refine (Action.Post.forEach (fun _ => J) (hstore hw ht fun _ => ⟨hwell1, hundo1⟩) ?_).mono
    (fun _ _ h' => h'.1) (fun _ h' => h') fun _ h' => h'
  rintro done node rest w2 - ⟨hw2, hthis2⟩
  refine post_elementAt_onTable fun e => ?_
  refine post_onTable_bind (fun t2 ht2 => ?_) fun _ => trivial
  exact (emplaceImpl_undoing (s := ⟨t2, w2.heap⟩) e.value (hthis2 t2 ht2)).mono
    (fun _ _ h' => hstore hw2 ht2 h')
    (fun _ h' hP => eachTable_withStore ht2 hw2 (h' hP) fun _ _ _ h'' => h'') fun _ h' => h'

theorem keeps_others_copyContentsFrom (this other : ℕ) :
    Action.Keeps (Others this I) (copyContentsFrom this other) := by
  have hread : ∀ node, KeepsTable (fun t => other ≠ this → I t) (elementAt node) :=
    keeps_elementAt
  refine Action.Keeps.bind (keeps_onTable_each keeps_getTable) fun source =>
    Action.Keeps.ite (Action.Keeps.pure _) ?_
  refine Action.Keeps.bind (keeps_others_onTable _) fun _ => Action.Keeps.forEach fun node _ => ?_
  exact Action.Keeps.bind (keeps_onTable_each (hread node)) fun _ =>
    Action.Keeps.bind (keeps_others_onTable _) fun _ => Action.Keeps.pure _

theorem copyConstructWith_formed (alloc : τ.Alloc) (hw : Everywhere Formed w) :
    Action.Post Stuck.anyhow (copyConstructWith source alloc) w (fun _ => Everywhere Formed)
      (Everywhere Formed) := by
  unfold copyConstructWith
  refine post_readTable (fun o _ => ?_) fun _ => trivial
  rw [post_newTable]
  have hinit := initial_wellFormed o.maxLoadFactor o.hashFunction o.keyEqual alloc
  have hw1 := eachTable_newTable hw fun _ => hinit
  refine post_buildOrDrop ?_
  have hothers : Others w.tables.length Formed _ := fun j t ht _ => hw1 j t ht
  have hkeeps := (keeps_others_copyContentsFrom w.tables.length source).post hothers
  refine ((copyContentsFrom_formed hw1 (fun t ht => ?_) False.elim).and hkeeps).mono
    (fun _ _ h' => h'.1) (fun _ h' => h'.2) fun _ h' => h'
  rw [table?_newTable] at ht
  cases ht
  exact ⟨hinit, rfl⟩

theorem moveConstruct_formed (hw : Everywhere Formed w) :
    Action.Post Stuck.anyhow (moveConstruct source) w (fun _ => Everywhere Formed)
      (fun _ => True) := by
  unfold moveConstruct
  refine post_readTable (fun o ho => ?_) fun _ => trivial
  rw [post_newTable]
  have hw1 := eachTable_newTable hw (hw source o ho)
  refine post_modify_onTable (table?_append_of_some ho o) ?_
  exact eachTable_withStore (table?_append_of_some ho o) hw1
    (fun _ => afterSteal_wellFormed o) fun _ _ _ h' => h'

theorem stealStorage_formed (hw : Everywhere Formed w) :
    Action.Post Stuck.anyhow (stealStorage this other) w (fun _ => Everywhere Formed)
      (fun _ => False) := by
  unfold stealStorage
  refine post_readTable (fun o ho => ?_) fun _ => trivial
  refine post_readTable (fun _ _ => ?_) fun _ => trivial
  split
  swap
  · exact trivial
  refine Action.Post.bind (Q := fun _ => Everywhere Formed) (E := fun _ => False) ?_
    (fun _ h' => h'.elim) ?_
  · refine post_onTable_each hw (fun s _ _ hroom => ?_) fun _ _ _ h' => h'
    exact (hw other o ho hroom).realloc _ _
  rintro ⟨⟩ w1 hw1
  exact post_onTable_each hw1 (fun s _ _ _ => afterSteal_wellFormed _) fun _ _ _ h' => h'

/-- While the elements of the table `other` are moved from, it goes by their old hashes. -/
def Emptying (other j : ℕ) (t : Table τ) : Prop :=
  (j = other → ∃ H, ConsistentUnder H t) ∧ (j ≠ other → Formed t)

theorem Emptying.assign (node : ℕ) :
    KeepsTable (Emptying other other : Table τ → Prop) (assignValue node τ.movedFrom) := by
  rintro s ⟨h1, -⟩
  obtain ⟨H, hH⟩ := h1 rfl
  exact ⟨fun _ => ⟨H, keeps_assign_under node _ s hH⟩, fun h => absurd rfl h⟩

/-- The loop of an element-wise move. -/
theorem moveContentsFrom_moved (hne : this ≠ other) (hw : Everywhere Formed w)
    (hthis : ∀ t, w.table? this = some t → WellFormed t ∧ t.iteration = [])
    (hother : ∀ t, w.table? other = some t → Consistent t) :
    Action.Post Stuck.anyhow (moveContentsFrom this other) w (fun _ => Everywhere Formed)
      (fun _ => True) := by
  unfold moveContentsFrom
  refine post_readTable (fun source _ => ?_) fun _ => trivial
  have hw0 : EachTable (Emptying other) w := by
    refine fun j t ht => ⟨?_, fun _ => hw j t ht⟩
    rintro rfl
    exact ⟨_, (hother t ht).under⟩
  refine Action.Post.bind (Q := fun _ => EachTable (Emptying other)) (E := fun _ => True) ?_
    (fun _ _ => trivial) ?_
  · refine post_onTable_each hw0 (fun s hs _ => ?_) fun _ _ _ h' => h'
    obtain ⟨hwell, hempty⟩ := hthis s.table hs
    exact (reserve_empty _ hwell hempty fun _ => trivial).mono
      (fun _ _ h' => ⟨fun h => absurd h hne, fun _ _ => h'.1⟩) (fun _ _ => trivial)
      fun _ h' => h'
  rintro ⟨⟩ w1 hw1
  refine Action.Post.bind (Action.Post.forEach (fun _ => EachTable (Emptying other)) hw1 ?_)
    (fun _ h' => h') ?_
  · intro done node rest w2 _ hw2
    refine post_elementAt_onTable fun e => ?_
    refine Action.Post.bind (Q := fun _ => EachTable (Emptying other)) (E := fun _ => True) ?_
      (fun _ _ => trivial) fun _ _ h' => h'
    refine post_movingNode ?_ (fun _ w3 h3 => keeps_onTable_each (Emptying.assign node) w3 h3)
      fun _ _ => trivial
    refine post_onTable_each (K := Emptying other) hw2 (fun s _ hs => ?_) fun _ _ _ h' => h'
    exact (emplaceImpl_formed e.value (hs.2 hne)).mono
      (fun _ _ h' => ⟨fun h => absurd h hne, fun _ => h'⟩) (fun _ h' => h') fun _ h' => h'
  · rintro ⟨⟩ w3 hw3
    refine post_onTable_each hw3 (fun s _ hs => ?_) fun j hj t h' => h'.2 hj
    obtain ⟨H, hH⟩ := hs.1 rfl
    exact (clear_spec hH).mono
      (fun _ _ h' _ => WellFormed.of_empty h'.2 h'.1.iteration) (fun _ _ => trivial)
      fun _ h' => h'

/-- An element-wise move that throws at its first allocation has moved no element yet. -/
theorem moveContentsFrom_untouched (hne : this ≠ other) (hw : Everywhere Formed w)
    (hthis : ∀ t, w.table? this = some t → WellFormed t ∧ t.iteration = [] ∧ Unallocated t)
    (hother : ∀ t, w.table? other = some t → Consistent t)
    (hfirst : FirstAllocationThrows w.heap.fault) :
    Action.Post Stuck.anyhow (moveContentsFrom this other) w (fun _ _ => True)
      (Everywhere Formed) := by
  unfold moveContentsFrom
  refine post_readTable (fun source hsource => ?_) fun _ => trivial
  refine post_onTable_bind (fun t ht => ?_) fun _ => trivial
  obtain ⟨hwell, hempty, hnone⟩ := hthis t ht
  have hstore : ∀ s' : Store τ, WellFormed s'.table → Everywhere Formed (withStore w this s') :=
    fun s' h' => eachTable_withStore ht hw (fun _ => h') fun _ _ _ h'' => h''
  cases hiter : source.iteration with
  | nil =>
      refine (reserve_empty (s := ⟨t, w.heap⟩) source.size hwell hempty fun _ => trivial).mono ?_ ?_
        fun _ h' => h'
      · rintro ⟨⟩ s' -
        refine post_onTable (fun o ho => ?_) fun _ => trivial
        rw [table?_withStore_of_ne hne] at ho
        exact (clear_spec (s := ⟨o, s'.heap⟩) (hother o ho).under).mono (fun _ _ _ => trivial)
          (fun _ h' => h'.elim) fun _ h' => h'
      · intro s' hthrown
        have hhash : faultPoint w.heap.fault ≠ some .hash := hfirst.faultAt.ne (by simp)
        exact hstore s' (hthrown.wellFormed hwell hhash fun _ => hnone.1)
  | cons node rest =>
      have hsize : source.size ≠ 0 := by
        unfold Table.size
        rw [hiter]
        exact Nat.succ_ne_zero _
      refine (reserve_firstAllocation (s := ⟨t, w.heap⟩) hsize hwell hempty hnone hfirst).mono ?_
        (fun s' h' => hstore s' h') fun _ h' => h'
      rintro ⟨⟩ s1 ⟨hwell1, hchunks, hchunk⟩
      -- the first element is not constructed, so the source keeps it
      refine Action.Post.bind (Q := fun _ _ => False) (E := Everywhere Formed)
        (Action.Post.bind (Q := fun _ _ => False) (E := Everywhere Formed) ?_ (fun _ h' => h')
          fun _ _ h' => h'.elim) (fun _ h' => h') fun _ _ h' => h'.elim
      have ht1 : (withStore w this s1).table? this = some s1.table := table?_withStore_self ht s1
      refine post_elementAt_onTable fun e => ?_
      refine Action.Post.bind (Q := fun _ _ => False) (E := Everywhere Formed) ?_ (fun _ h' => h')
        fun _ _ h' => h'.elim
      refine post_movingNode_flag (post_onTable (fun t1 ht1' => ?_) fun _ => trivial)
      obtain rfl : s1.table = t1 := Option.some.inj (ht1.symm.trans ht1')
      refine (emplaceImpl_firstChunk (s := ⟨s1.table, { s1.heap with moved := false }⟩) e.value
        hwell1.consistent.slots hchunks hchunk).mono (fun _ _ h' => h'.elim) ?_ fun _ h' => h'
      rintro s2 ⟨htable, hmoved⟩
      have hformed : Everywhere Formed (withStore { withStore w this s1 with
          heap := { s1.heap with moved := false } } this s2) := by
        refine eachTable_withStore (K := fun _ => Formed) ht1' (hstore s1 hwell1) (fun _ => ?_)
          fun _ _ _ h' => h'
        rwa [htable]
      unfold afterMove
      rw [if_neg]
      · exact hformed
      · exact fun h => Bool.false_ne_true (hmoved.symm.trans h)

theorem moveContentsFrom_formed {P : Prop} (hne : this ≠ other) (hw : Everywhere Formed w)
    (hthis : ∀ t, w.table? this = some t → WellFormed t ∧ t.iteration = [])
    (hother : ∀ t, w.table? other = some t → Consistent t)
    (hfirst : P → FirstAllocationThrows w.heap.fault ∧
      ∀ t, w.table? this = some t → Unallocated t) :
    Action.Post Stuck.anyhow (moveContentsFrom this other) w (fun _ => Everywhere Formed)
      (fun w' => P → Everywhere Formed w') := by
  have hmoved := moveContentsFrom_moved hne hw hthis hother
  by_cases hP : P
  · obtain ⟨hfault, hnone⟩ := hfirst hP
    have hthis' : ∀ t, w.table? this = some t →
        WellFormed t ∧ t.iteration = [] ∧ Unallocated t := fun t ht =>
      ⟨(hthis t ht).1, (hthis t ht).2, hnone t ht⟩
    exact (hmoved.and (moveContentsFrom_untouched hne hw hthis' hother hfault)).mono
      (fun _ _ h' => h'.1) (fun _ h' _ => h'.2) fun _ h' => h'
  · exact hmoved.mono (fun _ _ h' => h') (fun _ _ h => absurd h hP) fun _ h' => h'

/-- What the statements below start from: tables that are well formed and small enough. -/
def Sturdy (t : Table τ) : Prop := WellFormed t ∧ Room t

theorem formed_of_sturdy (hw : Everywhere Sturdy w) : Everywhere Formed w :=
  fun j t ht _ => (hw j t ht).1

theorem moveConstructWith_formed (alloc : τ.Alloc) (hw : Everywhere Sturdy w) :
    Action.Post Stuck.anyhow (moveConstructWith source alloc) w (fun _ => Everywhere Formed)
      (fun w' => FirstAllocationThrows w.heap.fault → Everywhere Formed w') := by
  unfold moveConstructWith
  refine post_readTable (fun o ho => ?_) fun _ => trivial
  rw [post_newTable]
  have hinit := initial_wellFormed o.maxLoadFactor o.hashFunction o.keyEqual alloc
  have hw1 := eachTable_newTable (formed_of_sturdy hw) fun _ => hinit
  have hlt := lt_of_join_eq_some ho
  let E : World τ → Prop := fun w' => FirstAllocationThrows w.heap.fault → Everywhere Formed w'
  refine Action.Post.bind (Q := fun _ => Everywhere Formed) (E := E) ?_ (fun _ h' => h')
    fun _ _ h' => h'
  refine Action.Post.cleanup (E := E) ?_ fun w' h' hfirst =>
    Others.setTable_none fun j t ht _ => h' hfirst j t ht
  split
  · exact (stealStorage_formed hw1).mono (fun _ _ h' => h') (fun _ h' => h'.elim) fun _ h' => h'
  · refine moveContentsFrom_formed (by omega) hw1 (fun t ht => ?_) (fun t ht => ?_)
      fun hfirst => ⟨hfirst, fun t ht => ?_⟩
    · rw [table?_newTable] at ht
      cases ht
      exact ⟨hinit, rfl⟩
    · rw [table?_append_of_some ho] at ht
      cases ht
      exact (hw source o ho).1.consistent
    · rw [table?_newTable] at ht
      cases ht
      exact ⟨rfl, rfl⟩

/-! ## Assignment, swap and merge -/

section

variable (f : Option (Point × ℕ))

theorem destroyAllValues_fault :
    Action.Keeps (fun s : Store τ => s.heap.fault = f) (destroyAllValues : Exec τ Unit) := by
  refine keeps_getTable.bind fun t => Action.Keeps.forEach fun node _ => ?_
  exact (keeps_elementAt node).bind fun _ => Action.Keeps.bind (fun _ h => h) fun _ _ h => h

theorem clear_fault : Action.Keeps (fun s : Store τ => s.heap.fault = f) (clear : Exec τ Unit) :=
  keeps_getTable.bind fun _ => Action.Keeps.ite (Action.Keeps.pure _)
    ((destroyAllValues_fault f).bind fun _ _ h => h)

theorem destroyEverything_fault :
    Action.Keeps (fun s : Store τ => s.heap.fault = f) (destroyEverything : Exec τ Unit) := by
  have hbuckets : Action.Keeps (fun s : Store τ => s.heap.fault = f)
      (deallocateBuckets : Exec τ Unit) := by
    refine keeps_getTable.bind fun t => ?_
    cases t.buckets with
    | none => exact Action.Keeps.pure _
    | some array => exact Action.Keeps.bind (fun _ h => h) fun _ _ h => h
  have hchunks : Action.Keeps (fun s : Store τ => s.heap.fault = f)
      (deallocateChunks : Exec τ Unit) :=
    keeps_getTable.bind fun _ =>
      (Action.Keeps.forEach fun _ _ _ h => h).bind fun _ _ h => h
  exact (destroyAllValues_fault f).bind fun _ => hbuckets.bind fun _ => hchunks

end

/-- A table that is torn down and reset, then the rest. -/
theorem post_teardown_each {f : Table τ → Table τ} {k : Unit → Action (World τ) α}
    {Q : α → World τ → Prop} {E : World τ → Prop} (hw : Everywhere Formed w)
    (hf : ∀ t : Table τ, t.chunks = [] → WellFormed (f t) ∧ (f t).iteration = [])
    (hk : ∀ w', Everywhere Formed w' →
      (∀ t, w'.table? this = some t → WellFormed t ∧ t.iteration = []) → Elsewhere this w w' →
      w'.heap.fault = w.heap.fault → Action.Post Stuck.anyhow (k ()) w' Q E) :
    Action.Post Stuck.anyhow
      (onTable this destroyEverything >>= fun _ => onTable this (modifyTable f) >>= k) w Q E := by
  refine post_onTable_bind (fun t ht => ?_) fun _ => trivial
  refine (destroyEverything_chunks.and ((destroyEverything_fault w.heap.fault).post rfl)).mono ?_
    (fun _ h' => h'.1.elim) fun _ h' => h'
  rintro ⟨⟩ s' ⟨hchunks, hfault⟩
  refine post_modify_onTable (table?_withStore_self ht s') ?_
  rw [withStore_withStore]
  obtain ⟨hwell, hempty⟩ := hf s'.table hchunks
  refine hk _ (eachTable_withStore ht hw (fun _ => hwell) fun _ _ _ h' => h') (fun t' ht' => ?_)
    (elsewhere_withStore w this _) hfault
  rw [table?_withStore_self ht] at ht'
  cases ht'
  exact ⟨hwell, hempty⟩

/-- A table that is cleared and adopts another policy, then the rest. -/
theorem post_clear_each {o : Table τ} {k : Unit → Action (World τ) α}
    {Q : α → World τ → Prop} {E : World τ → Prop} (hw : Everywhere Formed w)
    (hthis : ∀ t, w.table? this = some t → Consistent t)
    (hk : ∀ w', Everywhere Formed w' →
      (∀ t, w'.table? this = some t → WellFormed t ∧ t.iteration = []) → Elsewhere this w w' →
      w'.heap.fault = w.heap.fault →
      ((∀ t, w.table? this = some t → Unallocated t) →
        ∀ t, w'.table? this = some t → Unallocated t) →
      Action.Post Stuck.anyhow (k ()) w' Q E) :
    Action.Post Stuck.anyhow (onTable this clear >>= fun _ =>
      onTable this (modifyTable fun t => t.adoptPolicy o) >>= k) w Q E := by
  refine post_onTable_bind (fun t ht => ?_) fun _ => trivial
  refine ((clear_spec (hthis t ht).under).and ((clear_fault w.heap.fault).post rfl)).mono ?_
    (fun _ h' => h'.1.elim) fun _ h' => h'
  rintro ⟨⟩ s' ⟨⟨hcleared, hc'⟩, hfault⟩
  have hwell := (WellFormed.of_empty hc' hcleared.iteration).adoptPolicy hcleared.iteration o
  refine post_modify_onTable (table?_withStore_self ht s') ?_
  rw [withStore_withStore]
  refine hk _ (eachTable_withStore ht hw (fun _ => hwell) fun _ _ _ h' => h') (fun t' ht' => ?_)
    (elsewhere_withStore w this _) hfault fun hnone t' ht' => ?_
  · rw [table?_withStore_self ht] at ht'
    cases ht'
    exact ⟨hwell, hcleared.iteration⟩
  · rw [table?_withStore_self ht] at ht'
    cases ht'
    obtain ⟨hcount, hchunks⟩ := hnone t ht
    have hids : chunkIds s'.table = [] := by
      rw [hcleared.chunks]
      unfold chunkIds
      rw [hchunks]
      rfl
    exact ⟨hcleared.bucketCount.trans hcount, List.map_eq_nil_iff.mp hids⟩

theorem copyAssign_formed (hw : Everywhere Sturdy w) :
    Action.Post Stuck.anyhow (copyAssign this other) w (fun _ => Everywhere Formed)
      (fun w' => Undoable w.heap.fault → Everywhere Formed w') := by
  unfold copyAssign
  split
  · exact formed_of_sturdy hw
  refine post_readTable (fun o _ => ?_) fun _ => trivial
  refine post_readTable (fun t ht => ?_) fun _ => trivial
  split
  · refine post_teardown_each (formed_of_sturdy hw) (fun t1 hchunks => ⟨?_, rfl⟩)
      fun w' hw' hthis _ hfault => copyContentsFrom_formed hw' hthis fun h => by rwa [hfault]
    exact ((reset_wellFormed hchunks).realloc _ _).adoptPolicy rfl o
  · refine post_modify_onTable ht ?_
    have hwell : WellFormed (if τ.pocca then { t with allocator := o.allocator } else t) := by
      split
      · exact (hw this t ht).1.realloc _ _
      · exact (hw this t ht).1
    refine post_clear_each (eachTable_withStore ht (formed_of_sturdy hw) (fun _ => hwell)
      fun _ _ _ h' => h') (fun t' ht' => ?_)
      fun w' hw' hthis _ hfault _ => copyContentsFrom_formed hw' hthis fun h => ?_
    swap
    · rw [hfault]
      exact h
    rw [table?_withStore_self ht] at ht'
    cases ht'
    exact hwell.consistent

theorem moveAssign_formed (hw : Everywhere Sturdy w) :
    Action.Post Stuck.anyhow (moveAssign this other) w (fun _ => Everywhere Formed)
      (fun w' => FirstAllocationThrows w.heap.fault ∧
        (∀ t, w.table? this = some t → Unallocated t) → Everywhere Formed w') := by
  unfold moveAssign
  split
  · exact formed_of_sturdy hw
  next hne =>
  refine post_readTable (fun o _ => ?_) fun _ => trivial
  refine post_readTable (fun t ht => ?_) fun _ => trivial
  split
  · refine post_teardown_each (formed_of_sturdy hw) (fun t1 hchunks => ?_)
      fun w' hw' _ _ _ => (stealStorage_formed hw').mono (fun _ _ h' => h')
        (fun _ h' => h'.elim) fun _ h' => h'
    split
    · exact ⟨(reset_wellFormed hchunks).realloc _ _, rfl⟩
    · exact ⟨reset_wellFormed hchunks, rfl⟩
  · refine post_clear_each (formed_of_sturdy hw) (fun t' ht' => (hw this t' ht').1.consistent)
      fun w' hw' hthis helse hfault hkeep => moveContentsFrom_formed hne hw' hthis
        (fun t' ht' => ?_) fun ⟨hfirst, hnone⟩ => ⟨by rwa [hfault], hkeep hnone⟩
    rw [helse other hne] at ht'
    exact (hw other t' ht').1.consistent

theorem assignValues_formed (values : List τ.Value) (hw : Everywhere Sturdy w) :
    Action.Post Stuck.anyhow (assignValues this values) w (fun _ => Everywhere Formed)
      (fun w' => Undoable w.heap.fault → Everywhere Formed w') := by
  unfold assignValues
  refine post_onTable (fun t ht => ?_) fun _ => trivial
  have hother : ∀ s' : Store τ, Formed s'.table → Everywhere Formed (withStore w this s') :=
    fun s' h' => eachTable_withStore ht (formed_of_sturdy hw) h' fun _ _ _ h'' => h''
  refine Action.Post.bind ((clear_spec (s := ⟨t, w.heap⟩) (hw this t ht).1.consistent.under).and
    ((clear_fault w.heap.fault).post rfl)) (fun _ h' => h'.1.elim) ?_
  rintro ⟨⟩ s' ⟨⟨hcleared, hc'⟩, hfault⟩
  have hundoing : Undoing (Undoable w.heap.fault) s' := fun _ =>
    ⟨WellFormed.of_empty hc' hcleared.iteration, fun h => by rwa [hfault]⟩
  exact (insertRange_undoing values hundoing).mono (fun _ s'' h' => hother s'' h'.formed)
    (fun s'' h' hundo => hother s'' (h' hundo)) fun _ h' => h'

theorem swap_formed (hw : Everywhere Formed w) :
    Action.Post Stuck.anyhow (swap this other) w (fun _ => Everywhere Formed)
      (fun _ => True) := by
  refine post_swap_any (fun _ => hw) fun a b ha hb hne => ?_
  have hb' : (withStore w this ⟨b, w.heap⟩).table? other = some b :=
    (table?_withStore_of_ne hne _).trans hb
  exact eachTable_withStore hb' (eachTable_withStore ha hw (hw other b hb) fun _ _ _ h' => h')
    (hw this a ha) fun _ _ _ h' => h'

end Fum.Analysis

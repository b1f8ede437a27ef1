import Fum.Analysis.Reachability
import Fum.Analysis.Histories
import Fum.Analysis.QuietCalls
import Fum.Analysis.Iteration
import Fum.Model.Observers
import Fum.Interface.MergeLaw

/-!
# Equality of containers

`operator==` compares the sizes and looks every element of the left side up in the right one.
Keys are compared by `key_equal` alone, so two containers are equal when their elements match
up to the order under `key_equal` of the keys and, for maps, `==` of the mapped values. Where
`==` on keys tells more of them apart, that is not a permutation of the elements.
-/

set_option autoImplicit false

namespace Fum.Interface

open Fum.Model Fum.Analysis Effects DenseMap

variable {τ : Traits} {w : World τ} {i j : ℕ} {a b : Table τ} {P : τ.Value → Prop}
  {check : τ.Value → Action (World τ) Bool}

/-! ## The loop -/

theorem run_onTable_of_run {α : Type} {x : Exec τ α} {t : Table τ} {r : α}
    (ht : w.table? i = some t) (hx : x.run ⟨t, w.heap⟩ = (.ok r, ⟨t, w.heap⟩)) :
    (onTable i x).run w = (.ok r, w) := by
  rw [run_onTable ht, hx, withStore_self ht]

/-- The loop checks one element after the other until one fails. -/
theorem run_equalsLoop (hi : w.table? i = some a)
    (hcheck : ∀ v, ∃ c, (check v).run w = (.ok c, w) ∧ (c = true ↔ P v)) :
    ∀ nodes : List ℕ, (∀ x ∈ nodes, (a.nodeAt x).storage.isSome) →
      ∃ c, (equalsLoop i check nodes).run w = (.ok c, w) ∧
        (c = true ↔ ∀ v ∈ nodes.filterMap (valueAt a), P v) := by
  intro nodes
  induction nodes with
  | nil =>
      intro _
      exact ⟨true, rfl, by simp⟩
  | cons x rest ih =>
      intro hlive
      obtain ⟨e, he⟩ := Option.isSome_iff_exists.mp (hlive x List.mem_cons_self)
      have helement := run_onTable_of_run hi (run_elementAt (s := ⟨a, w.heap⟩) he)
      obtain ⟨c, hc, hiff⟩ := hcheck e.value
      have hvalues : (x :: rest).filterMap (valueAt a) =
          e.value :: rest.filterMap (valueAt a) :=
        List.filterMap_cons_some (valueAt_of_storage he)
      rw [equalsLoop, Action.run_bind_ok _ helement, Action.run_bind_ok _ hc, hvalues]
      cases c with
      | true =>
          obtain ⟨c', hc', hiff'⟩ := ih fun y hy => hlive y (List.mem_cons_of_mem x hy)
          refine ⟨c', hc', ?_⟩
          rw [hiff', List.forall_mem_cons]
          exact (and_iff_right (hiff.mp rfl)).symm
      | false =>
          refine ⟨false, rfl, ?_⟩
          simp only [Bool.false_eq_true, false_iff, List.forall_mem_cons, not_and]
          intro hP
          exact absurd (hiff.mpr hP) Bool.false_ne_true

theorem run_equals (hi : w.table? i = some a) (hj : w.table? j = some b) (ha : Consistent a)
    (hcheck : ∀ v, ∃ c, (check v).run w = (.ok c, w) ∧ (c = true ↔ P v)) :
    ∃ c, (equals i j check).run w = (.ok c, w) ∧
      (c = true ↔ a.size = b.size ∧ ∀ v ∈ contents a, P v) := by
  have hreada := run_onTable_of_run (x := getTable) hi rfl
  have hreadb := run_onTable_of_run (x := getTable) hj rfl
  unfold equals readTable
  rw [Action.run_bind_ok _ hreada, Action.run_bind_ok _ hreadb]
  by_cases hsize : a.size = b.size
  · obtain ⟨c, hc, hiff⟩ := run_equalsLoop hi hcheck a.iteration fun x hx => ha.live hx
    refine ⟨c, ?_, hiff.trans (and_iff_right hsize).symm⟩
    rw [if_neg (not_not_intro hsize), ha.slots.traversal fun x hx => ha.live hx]
    exact hc
  · refine ⟨false, ?_, ?_⟩
    · rw [if_pos hsize]
      rfl
    · simp [hsize]

/-! ## The lookups -/

/-- Two entries of maps are the same: equal keys, and equal mapped values. -/
def SameEntry (sameKey : τ.Key → τ.Key → Bool) (sameMapped : τ.Mapped → τ.Mapped → Bool)
    (v v' : τ.Value) : Prop :=
  sameKey (τ.keyOf v) (τ.keyOf v') = true ∧ sameMapped (τ.mappedOf v') (τ.mappedOf v) = true

/-- Two elements of sets are the same: equal keys. -/
def SameKey (sameKey : τ.Key → τ.Key → Bool) (v v' : τ.Value) : Prop :=
  sameKey (τ.keyOf v) (τ.keyOf v') = true

theorem run_holdsEntry (hj : w.table? j = some b) (hb : Sturdy b) (hlaw : LawfulTable b)
    (hquiet : w.heap.fault = none) (sameMapped : τ.Mapped → τ.Mapped → Bool) (v : τ.Value) :
    ∃ c, (holdsEntry sameMapped j v).run w = (.ok c, w) ∧
      (c = true ↔ ∃ v' ∈ contents b, SameEntry b.keyEqual sameMapped v v') := by
  obtain ⟨hw, hroom⟩ := hb
  obtain ⟨it, hfind, hfound⟩ := run_find (s := ⟨b, w.heap⟩) hw.consistent hroom hquiet (τ.keyOf v)
  unfold holdsEntry
  rw [Action.run_bind_ok _ (run_onTable_of_run hj hfind)]
  cases hfound with
  | absent hend habs =>
      refine ⟨false, by rw [if_pos hend]; rfl, ?_⟩
      simp only [Bool.false_eq_true, false_iff]
      rintro ⟨v', hv', hkey, -⟩
      obtain ⟨x, hx, hvalue⟩ := mem_contents.mp hv'
      exact habs.not_matches hlaw hx (matches_iff_valueAt.mpr ⟨v', hvalue, hkey⟩)
  | present hlisted hm =>
      have hne : it ≠ kNullIndex := (hw.consistent.slots.ne_null (Or.inl hlisted)).ne
      obtain ⟨e, he, hkey⟩ := hm
      have helement := run_onTable_of_run hj (run_elementAt (s := ⟨b, w.heap⟩) he)
      rw [if_neg hne, Action.run_bind_ok _ helement]
      refine ⟨_, rfl, ?_⟩
      constructor
      · intro hsame
        exact ⟨e.value, mem_contents.mpr ⟨it, hlisted, valueAt_of_storage he⟩, hkey, hsame⟩
      · rintro ⟨v', hv', hkey', hsame⟩
        obtain ⟨x, hx, hvalue⟩ := mem_contents.mp hv'
        have heq : x = it := (hw.distinct hlaw).unique hlaw hx hlisted
          (matches_iff_valueAt.mpr ⟨v', hvalue, hkey'⟩) ⟨e, he, hkey⟩
        rw [heq, valueAt_of_storage he] at hvalue
        cases hvalue
        exact hsame

theorem run_holdsKey (hj : w.table? j = some b) (hb : Sturdy b) (hlaw : LawfulTable b)
    (hquiet : w.heap.fault = none) (v : τ.Value) :
    ∃ c, (holdsKey j v).run w = (.ok c, w) ∧
      (c = true ↔ ∃ v' ∈ contents b, SameKey b.keyEqual v v') := by
  obtain ⟨hw, hroom⟩ := hb
  obtain ⟨answer, hcontains, hcontained⟩ := run_contains (s := ⟨b, w.heap⟩) hw.consistent hroom
    hquiet (τ.keyOf v)
  refine ⟨answer, run_onTable_of_run hj hcontains, ?_⟩
  unfold Contained at hcontained
  cases answer with
  | true =>
      obtain ⟨x, hx, hm⟩ := hcontained
      obtain ⟨v', hvalue, hkey⟩ := matches_iff_valueAt.mp hm
      exact iff_of_true rfl ⟨v', mem_contents.mpr ⟨x, hx, hvalue⟩, hkey⟩
  | false =>
      refine iff_of_false Bool.false_ne_true ?_
      rintro ⟨v', hv', hkey⟩
      obtain ⟨x, hx, hvalue⟩ := mem_contents.mp hv'
      exact Absent.not_matches hcontained hlaw hx (matches_iff_valueAt.mpr ⟨v', hvalue, hkey⟩)

/-! ## The law -/

/-- No element is the counterpart of two elements of a table with distinct keys. -/
theorem pairwise_counterparts {r : τ.Value → τ.Value → Prop} (ha : Sturdy a)
    (hlaw : LawfulTable a) (hr : ∀ v v', r v v' → a.keyEqual (τ.keyOf v) (τ.keyOf v') = true)
    (l : List τ.Value) : (contents a).Pairwise fun v v' => ∀ u ∈ l, r v u → ¬ r v' u := by
  refine ((ha.1.distinct hlaw).contents ha.1.consistent).imp ?_
  intro v v' hne u _ hv hv'
  have hsame := hlaw.trans _ _ _ (hr v u hv) (hlaw.symm _ _ (hr v' u hv'))
  rw [hne.1] at hsame
  cases hsame

theorem run_mapEquals (ha : Reachable a) (hb : Reachable b) (hequal : a.keyEqual = b.keyEqual)
    (hi : w.table? i = some a) (hj : w.table? j = some b) (hquiet : w.heap.fault = none)
    (sameMapped : τ.Mapped → τ.Mapped → Bool) :
    ∃ c, (mapEquals sameMapped i j).run w = (.ok c, w) ∧
      (c = true ↔ Multiset.Rel (SameEntry a.keyEqual sameMapped) (contents a) (contents b)) := by
  obtain ⟨c, hrun, hiff⟩ := run_equals hi hj ha.sturdy.1.consistent
    (run_holdsEntry hj hb.sturdy hb.lawful hquiet sameMapped)
  refine ⟨c, hrun, hiff.trans ?_⟩
  rw [rel_iff_total (pairwise_counterparts ha.sturdy ha.lawful (fun _ _ h => h.1) _),
    ha.sturdy.1.consistent.length_contents, hb.sturdy.1.consistent.length_contents, hequal]

theorem run_setEquals (ha : Reachable a) (hb : Reachable b) (hequal : a.keyEqual = b.keyEqual)
    (hi : w.table? i = some a) (hj : w.table? j = some b) (hquiet : w.heap.fault = none) :
    ∃ c, (setEquals i j).run w = (.ok c, w) ∧
      (c = true ↔ Multiset.Rel (SameKey a.keyEqual) (contents a) (contents b)) := by
  obtain ⟨c, hrun, hiff⟩ := run_equals hi hj ha.sturdy.1.consistent
    (run_holdsKey hj hb.sturdy hb.lawful hquiet)
  refine ⟨c, hrun, hiff.trans ?_⟩
  rw [rel_iff_total (r := SameKey a.keyEqual)
    (pairwise_counterparts ha.sturdy ha.lawful (fun _ _ h => h) _),
    ha.sturdy.1.consistent.length_contents, hb.sturdy.1.consistent.length_contents, hequal]

/-- A match read from the other side. -/
theorem rel_comm {α : Type} {r r' : α → α → Prop} {l l' : Multiset α}
    (hr : ∀ v v', r v v' ↔ r' v' v) : Multiset.Rel r l l' ↔ Multiset.Rel r' l' l := by
  rw [← Multiset.rel_flip]
  have heq : flip r = r' := by
    funext v v'
    exact propext (hr v' v)
  rw [heq]

/-- For any two tables that programs can reach and that agree on which keys are equal, a
comparison returns, changes nothing and answers whether the elements of one are those of the
other up to the order; the answer does not depend on the order of the arguments if `==` of
mapped values does not. -/
theorem equality_up_to_order (ha : Reachable a) (hb : Reachable b)
    (hequal : a.keyEqual = b.keyEqual) (hi : w.table? i = some a) (hj : w.table? j = some b)
    (hquiet : w.heap.fault = none) (sameMapped : τ.Mapped → τ.Mapped → Bool) :
    (∃ c, (mapEquals sameMapped i j).run w = (.ok c, w) ∧
      (c = true ↔ Multiset.Rel (SameEntry a.keyEqual sameMapped) (contents a) (contents b)) ∧
      ((∀ m m', sameMapped m m' = sameMapped m' m) →
        (mapEquals sameMapped j i).run w = (.ok c, w))) ∧
    (∃ c, (setEquals i j).run w = (.ok c, w) ∧
      (c = true ↔ Multiset.Rel (SameKey a.keyEqual) (contents a) (contents b)) ∧
      (setEquals j i).run w = (.ok c, w)) := by
  have hkeys : ∀ k k', a.keyEqual k k' = true ↔ b.keyEqual k' k = true := by
    intro k k'
    rw [← hequal]
    exact ⟨ha.lawful.symm k k', ha.lawful.symm k' k⟩
  constructor
  · obtain ⟨c, hrun, hiff⟩ := run_mapEquals ha hb hequal hi hj hquiet sameMapped
    refine ⟨c, hrun, hiff, fun hsymm => ?_⟩
    obtain ⟨c', hrun', hiff'⟩ := run_mapEquals hb ha hequal.symm hj hi hquiet sameMapped
    have hrel : Multiset.Rel (SameEntry a.keyEqual sameMapped) (contents a) (contents b) ↔
        Multiset.Rel (SameEntry b.keyEqual sameMapped) (contents b) (contents a) :=
      rel_comm fun v v' => and_congr (hkeys _ _) (by rw [hsymm])
    rw [hrun', Bool.eq_iff_iff.mpr (hiff'.trans (hrel.symm.trans hiff.symm))]
  · obtain ⟨c, hrun, hiff⟩ := run_setEquals ha hb hequal hi hj hquiet
    refine ⟨c, hrun, hiff, ?_⟩
    obtain ⟨c', hrun', hiff'⟩ := run_setEquals hb ha hequal.symm hj hi hquiet
    have hrel : Multiset.Rel (SameKey a.keyEqual) (contents a) (contents b) ↔
        Multiset.Rel (SameKey b.keyEqual) (contents b) (contents a) :=
      rel_comm fun v v' => hkeys _ _
    rw [hrun', Bool.eq_iff_iff.mpr (hiff'.trans (hrel.symm.trans hiff.symm))]

/-! ## Where `==` on keys is finer -/

/-- A key has one element at most in a table. -/
theorem contents_unique (hb : Sturdy b) (hlaw : LawfulTable b) {key : τ.Key} {v v' : τ.Value}
    (hv : v ∈ contents b) (hv' : v' ∈ contents b) (hkey : b.keyEqual key (τ.keyOf v) = true)
    (hkey' : b.keyEqual key (τ.keyOf v') = true) : v = v' := by
  obtain ⟨x, hx, hvalue⟩ := mem_contents.mp hv
  obtain ⟨x', hx', hvalue'⟩ := mem_contents.mp hv'
  have heq : x = x' := (hb.1.distinct hlaw).unique hlaw hx hx'
    (matches_iff_valueAt.mpr ⟨v, hvalue, hkey⟩) (matches_iff_valueAt.mpr ⟨v', hvalue', hkey'⟩)
  rw [heq] at hvalue
  exact Option.some.inj (hvalue.symm.trans hvalue')

/-- Let `==` on keys be finer than `key_equal`. For any two tables that programs can reach and
that agree on which keys are equal, a comparison answers whether the elements of one are a
permutation of those of the other under `==`, if and only if it is not so that all of them match
under `key_equal`, and under `==` of mapped values, while two that match have keys that are not
`==`. -/
theorem equality_by_permutation_iff (ha : Reachable a) (hb : Reachable b)
    (hequal : a.keyEqual = b.keyEqual) (hi : w.table? i = some a) (hj : w.table? j = some b)
    (hquiet : w.heap.fault = none) (sameMapped : τ.Mapped → τ.Mapped → Bool)
    (sameKey : τ.Key → τ.Key → Bool)
    (hfiner : ∀ k k', sameKey k k' = true → a.keyEqual k k' = true) :
    (∃ c, (mapEquals sameMapped i j).run w = (.ok c, w) ∧
      ((c = true ↔ Multiset.Rel (SameEntry sameKey sameMapped) (contents a) (contents b)) ↔
        (Multiset.Rel (SameEntry a.keyEqual sameMapped) (contents a) (contents b) →
          ∀ v ∈ contents a, ∀ v' ∈ contents b,
            SameEntry a.keyEqual sameMapped v v' → SameEntry sameKey sameMapped v v'))) ∧
    (∃ c, (setEquals i j).run w = (.ok c, w) ∧
      ((c = true ↔ Multiset.Rel (SameKey sameKey) (contents a) (contents b)) ↔
        (Multiset.Rel (SameKey a.keyEqual) (contents a) (contents b) →
          ∀ v ∈ contents a, ∀ v' ∈ contents b,
            SameKey a.keyEqual v v' → SameKey sameKey v v'))) := by
  have hone : ∀ v : τ.Value, ∀ u ∈ contents b, ∀ u' ∈ contents b,
      a.keyEqual (τ.keyOf v) (τ.keyOf u) = true → a.keyEqual (τ.keyOf v) (τ.keyOf u') = true →
        u = u' := by
    intro v u hu u' hu'
    rw [hequal]
    exact contents_unique hb.sturdy hb.lawful hu hu'
  obtain ⟨⟨c, hrun, hiff, -⟩, ⟨c', hrun', hiff', -⟩⟩ :=
    equality_up_to_order ha hb hequal hi hj hquiet sameMapped
  refine ⟨⟨c, hrun, ?_⟩, ⟨c', hrun', ?_⟩⟩
  · rw [hiff]
    exact rel_iff_rel_finer (fun v v' h => ⟨hfiner _ _ h.1, h.2⟩)
      fun v _ u hu u' hu' h h' => hone v u hu u' hu' h.1 h'.1
  · rw [hiff']
    exact rel_iff_rel_finer (fun v v' h => hfiner _ _ h) fun v _ u hu u' hu' => hone v u hu u' hu'

/-- Two maps to which keys are equal when they agree modulo ten; `lhs` holds the key 1 and
`rhs` the key 11. -/
def coarseMaps : List (Step NatMap) :=
  [⟨.construct 0 (fun k => UInt64.ofNat (k % 10)) (fun a b => a % 10 == b % 10) (), none⟩,
    ⟨.construct 0 (fun k => UInt64.ofNat (k % 10)) (fun a b => a % 10 == b % 10) (), none⟩,
    ⟨.table 0 (.insert (1, 5)), none⟩, ⟨.table 1 (.insert (11, 5)), none⟩]

/-- The same for sets. -/
def coarseSets : List (Step (setTraits ℕ false .exact id)) :=
  [⟨.construct 0 (fun k => UInt64.ofNat (k % 10)) (fun a b => a % 10 == b % 10) (), none⟩,
    ⟨.construct 0 (fun k => UInt64.ofNat (k % 10)) (fun a b => a % 10 == b % 10) (), none⟩,
    ⟨.table 0 (.insert 1), none⟩, ⟨.table 1 (.insert 11), none⟩]

theorem coarseMaps_functors : ∀ step ∈ coarseMaps, ∀ n hash' equal' alloc values,
    (step.op = .construct n hash' equal' alloc ∨
      step.op = .constructRange values n hash' equal' alloc) →
        hash' = (fun k => UInt64.ofNat (k % 10)) ∧ equal' = fun a b => a % 10 == b % 10 := by
  intro step hstep n hash' equal' alloc values hop
  simp only [coarseMaps, List.mem_cons, List.not_mem_nil, or_false] at hstep
  rcases hstep with rfl | rfl | rfl | rfl <;> rcases hop with hop | hop <;> cases hop <;>
    exact ⟨rfl, rfl⟩

theorem coarseSets_functors : ∀ step ∈ coarseSets, ∀ n hash' equal' alloc values,
    (step.op = .construct n hash' equal' alloc ∨
      step.op = .constructRange values n hash' equal' alloc) →
        hash' = (fun k => UInt64.ofNat (k % 10)) ∧ equal' = fun a b => a % 10 == b % 10 := by
  intro step hstep n hash' equal' alloc values hop
  simp only [coarseSets, List.mem_cons, List.not_mem_nil, or_false] at hstep
  rcases hstep with rfl | rfl | rfl | rfl <;> rcases hop with hop | hop <;> cases hop <;>
    exact ⟨rfl, rfl⟩

theorem coarseMaps_lawful : ∀ step ∈ coarseMaps, LawfulFunctors step.op := by
  simp only [coarseMaps, List.forall_mem_cons, List.not_mem_nil, LawfulFunctors]
  exact ⟨coarse_lawful, coarse_lawful, trivial, trivial, fun _ h => h.elim⟩

theorem coarseSets_lawful : ∀ step ∈ coarseSets, LawfulFunctors step.op := by
  simp only [coarseSets, List.forall_mem_cons, List.not_mem_nil, LawfulFunctors]
  exact ⟨coarse_lawful, coarse_lawful, trivial, trivial, fun _ h => h.elim⟩

/-- A table that a program with one hasher and one `key_equal` leaves. -/
theorem table_of_run {steps : List (Step τ)} {hash : τ.Key → UInt64}
    {equal : τ.Key → τ.Key → Bool} (hcompletes : EachStep Step.Completes World.empty steps)
    (hregular : EachStep Regular World.empty steps)
    (hlaw : ∀ step ∈ steps, LawfulFunctors step.op)
    (hfunctors : ∀ step ∈ steps, ∀ n hash' equal' alloc values,
      (step.op = .construct n hash' equal' alloc ∨
        step.op = .constructRange values n hash' equal' alloc) → hash' = hash ∧ equal' = equal)
    (hsome : ((finish World.empty steps).table? i).isSome) :
    ∃ t, (finish World.empty steps).table? i = some t ∧ Reachable t ∧ t.hashFunction = hash ∧
      t.keyEqual = equal := by
  obtain ⟨t, ht⟩ := Option.isSome_iff_exists.mp hsome
  have hrun := run_of_completes hcompletes
  exact ⟨t, ht, ⟨steps, _, i, hrun, hregular, hlaw, ht⟩, functors_of_run hrun hfunctors i t ht⟩

theorem equality_by_permutation_coarse :
    ∃ a b, (finish World.empty coarseMaps).table? 0 = some a ∧
      (finish World.empty coarseMaps).table? 1 = some b ∧
      ∃ c, (mapEquals (fun m m' : ℕ => m == m') 0 1).run (finish World.empty coarseMaps) =
          (.ok c, finish World.empty coarseMaps) ∧
        ((c = true ↔ Multiset.Rel (@SameEntry NatMap (fun k k' : ℕ => k == k')
            fun m m' : ℕ => m == m') (contents a) (contents b)) ↔
          (Multiset.Rel (@SameEntry NatMap a.keyEqual fun m m' : ℕ => m == m')
              (contents a) (contents b) →
            ∀ v ∈ contents a, ∀ v' ∈ contents b,
              @SameEntry NatMap a.keyEqual (fun m m' : ℕ => m == m') v v' →
                @SameEntry NatMap (fun k k' : ℕ => k == k') (fun m m' : ℕ => m == m') v v')) := by
  obtain ⟨a, ha, hreacha, -, hequala⟩ := table_of_run (i := 0) (by decide +kernel)
    (by decide +kernel) coarseMaps_lawful coarseMaps_functors (by decide +kernel)
  obtain ⟨b, hb, hreachb, -, hequalb⟩ := table_of_run (i := 1) (by decide +kernel)
    (by decide +kernel) coarseMaps_lawful coarseMaps_functors (by decide +kernel)
  obtain ⟨⟨c, hrun, hiff⟩, -⟩ := equality_by_permutation_iff hreacha hreachb
    (hequala.trans hequalb.symm) ha hb (by decide +kernel) (fun m m' : ℕ => m == m')
    (fun k k' : ℕ => k == k') fun k k' h => by
      rw [hequala, beq_iff_eq.mp h]
      exact beq_self_eq_true _
  exact ⟨a, b, ha, hb, c, hrun, hiff⟩

/-- The maps with 1 and 11 compare equal, and so do the sets, though neither holds an element
of the other. -/
theorem equal_without_permutation :
    (∃ a b, (finish World.empty coarseMaps).table? 0 = some a ∧
      (finish World.empty coarseMaps).table? 1 = some b ∧ Reachable a ∧ Reachable b ∧
      a.hashFunction = b.hashFunction ∧ a.keyEqual = b.keyEqual ∧
      ((mapEquals (fun m m' : ℕ => m == m') 0 1).run (finish World.empty coarseMaps)).1 =
        .ok true ∧
      ¬ (contents a).Perm (contents b)) ∧
    (∃ a b, (finish World.empty coarseSets).table? 0 = some a ∧
      (finish World.empty coarseSets).table? 1 = some b ∧ Reachable a ∧ Reachable b ∧
      a.hashFunction = b.hashFunction ∧ a.keyEqual = b.keyEqual ∧
      ((setEquals 0 1).run (finish World.empty coarseSets)).1 = .ok true ∧
      ¬ (contents a).Perm (contents b)) := by
  constructor
  · obtain ⟨a, ha, hreacha, hhasha, hequala⟩ := table_of_run (i := 0) (by decide +kernel)
      (by decide +kernel) coarseMaps_lawful coarseMaps_functors (by decide +kernel)
    obtain ⟨b, hb, hreachb, hhashb, hequalb⟩ := table_of_run (i := 1) (by decide +kernel)
      (by decide +kernel) coarseMaps_lawful coarseMaps_functors (by decide +kernel)
    refine ⟨a, b, ha, hb, hreacha, hreachb, hhasha.trans hhashb.symm, hequala.trans hequalb.symm,
      by decide +kernel, ?_⟩
    have hca : ((finish World.empty coarseMaps).table? 0).map contents = some [(1, 5)] := by
      decide +kernel
    have hcb : ((finish World.empty coarseMaps).table? 1).map contents = some [(11, 5)] := by
      decide +kernel
    rw [ha] at hca
    rw [hb] at hcb
    rw [Option.some.inj hca, Option.some.inj hcb]
    decide
  · obtain ⟨a, ha, hreacha, hhasha, hequala⟩ := table_of_run (i := 0) (by decide +kernel)
      (by decide +kernel) coarseSets_lawful coarseSets_functors (by decide +kernel)
    obtain ⟨b, hb, hreachb, hhashb, hequalb⟩ := table_of_run (i := 1) (by decide +kernel)
      (by decide +kernel) coarseSets_lawful coarseSets_functors (by decide +kernel)
    refine ⟨a, b, ha, hb, hreacha, hreachb, hhasha.trans hhashb.symm, hequala.trans hequalb.symm,
      by decide +kernel, ?_⟩
    have hca : ((finish World.empty coarseSets).table? 0).map contents = some [1] := by
      decide +kernel
    have hcb : ((finish World.empty coarseSets).table? 1).map contents = some [11] := by
      decide +kernel
    rw [ha] at hca
    rw [hb] at hcb
    rw [Option.some.inj hca, Option.some.inj hcb]
    decide

end Fum.Interface

import Fum.Analysis.Absorption
import Fum.Analysis.Transit

/-!
# Interrupted merges

Where a merge stands when one of its allocations throws. The rounds before have moved their
elements for good; the element whose turn it is has not been touched yet, or it has been
moved from and its new copy is gone. An element is linked in every round that moves one, so
the fault tells which element that is.
-/

set_option autoImplicit false

namespace Fum.Analysis

open Fum.Model Effects DenseMap

variable {τ : Traits} {w w' : World τ} {i j n node : ℕ} {t t0 t' u u0 u' : Table τ}
  {e : Element τ} {done moved rest : List ℕ} {f f' fault : Option (Point × ℕ)}

/-- An allocation of the operation throws. -/
def AllocationThrows (fault : Option (Point × ℕ)) : Prop :=
  ∃ p ∈ [Point.scratch, .chunk, .chunksGrowth, .iterationGrowth, .bucketArray],
    faultPoint fault = some p

theorem AllocationThrows.ne_functor {p : Point} (h : AllocationThrows fault)
    (hp : p ∈ [Point.hash, .equal]) : faultPoint fault ≠ some p := by
  obtain ⟨q, hq, hpoint⟩ := h
  rw [hpoint]
  rintro heq
  cases heq
  revert hp hq
  cases p <;> simp

/-! ## The element whose turn it is -/

/-- The merge of `u0` into `t0` is about to move the element `e` of `node`, out of `u` into
`t`. -/
structure AtTurn (t0 u0 : Table τ) (moved : List ℕ) (node : ℕ) (e : Element τ)
    (t u : Table τ) : Prop where
  absorbs : ∃ done rest, u0.iteration = done ++ node :: rest ∧ Absorbs t0 u0 done moved t
  absent : Absent t (τ.keyOf e.value)
  original : (u0.nodeAt node).storage = some e
  erased : Erased u0 moved u
  formed : WellFormed u
  listed : node ∈ u.iteration

/-- A node of the source has a value. -/
theorem length_values (hu : Consistent u0) (hsub : ∀ x ∈ moved, x ∈ u0.iteration) :
    (moved.filterMap (valueAt u0)).length = moved.length := by
  induction moved with
  | nil => rfl
  | cons x l ih =>
      obtain ⟨e, he⟩ := Option.isSome_iff_exists.mp (hu.live (hsub x (by simp)))
      rw [List.filterMap_cons_some (valueAt_of_storage he)]
      simp only [List.length_cons]
      rw [ih fun y hy => hsub y (by simp [hy])]

theorem Erased.moved_mem (h : Erased u0 moved u) : ∀ x ∈ moved, x ∈ u0.iteration :=
  fun _ hx => h.iteration.subset (List.mem_append_right _ hx)

theorem AtTurn.element (h : AtTurn t0 u0 moved node e t u) :
    (u.nodeAt node).storage = some e := by
  refine (h.erased.others node fun hmem => ?_).trans h.original
  exact h.formed.consistent.storage_ne_none h.listed (h.erased.gone node hmem)

/-- Among the elements to be moved, it is the one after those that have been. -/
theorem AtTurn.next (h : AtTurn t0 u0 moved node e t u) (hu : Consistent u0)
    (hlaw : LawfulTable t0) :
    (absorbed τ.keyOf t0.keyEqual (contents t0) (contents u0))[moved.length]? =
      some e.value := by
  obtain ⟨done, rest, hsplit, habsorbs⟩ := h.absorbs
  have hpresent := h.absent.present_eq_false (habsorbs.grown.policy.lawfulTable.mpr hlaw)
  rw [habsorbs.present] at hpresent
  have hcontents : contents u0 =
      (done.filterMap (valueAt u0) ++ [e.value]) ++ rest.filterMap (valueAt u0) := by
    unfold contents
    rw [hsplit, List.filterMap_append, List.filterMap_cons_some (valueAt_of_storage h.original)]
    simp
  have hprefix : absorbed τ.keyOf t0.keyEqual (contents t0)
        (done.filterMap (valueAt u0) ++ [e.value]) <+:
      absorbed τ.keyOf t0.keyEqual (contents t0) (contents u0) := by
    rw [hcontents]
    exact absorbed_prefix _ _ _
  rw [absorbed_append_singleton, hpresent, ← habsorbs.values] at hprefix
  have hlen := length_values hu h.erased.moved_mem
  obtain ⟨back, hback⟩ := hprefix
  rw [← hback, ← hlen]
  simp

/-! ## The countdown -/

/-- The merge has room and has gone through `done`; an element linked is a passage of the growth
of `iteration_`, and the first one has passed the first bucket array. -/
structure Stage (t0 u0 : Table τ) (fault : Option (Point × ℕ)) (done moved : List ℕ)
    (t : Table τ) (f : Option (Point × ℕ)) : Prop where
  absorbs : Absorbs t0 u0 done moved t
  room : Room t
  unmoved : moved = [] → t.bucketCount = t0.bucketCount
  point : faultPoint f = faultPoint fault
  linking : ∀ n, fault = some (.iterationGrowth, n) →
    ∃ m, f = some (.iterationGrowth, m) ∧ n = m + moved.length
  first : ∀ n, fault = some (.bucketArray, n) → t0.bucketCount = 0 →
    if moved = [] then f = fault else 0 < n

theorem Stage.start (ht : WellFormed t0) (hroom : Room t0) (hticks : Ticks .scratch fault f) :
    Stage t0 u0 fault [] [] t0 f where
  absorbs := Absorbs.refl ht
  room := hroom
  unmoved _ := rfl
  point := hticks.faultPoint_eq
  linking n hn := by
    refine ⟨n, (hticks.eq_of_ne ?_).trans hn, rfl⟩
    simp [hn, faultPoint]
  first n hn _ := by
    rw [if_pos rfl]
    exact hticks.eq_of_ne (by simp [hn, faultPoint])

/-- Passing a functor changes nothing. -/
theorem Stage.passes (h : Stage t0 u0 fault done moved t f) (halloc : AllocationThrows fault)
    (hf : Through [.hash, .equal] f f') : Stage t0 u0 fault done moved t f' := by
  have hsame : f' = f := hf.same fun p hp => by
    rw [h.point]
    exact halloc.ne_functor hp
  rwa [hsame]

theorem Stage.refuse (h : Stage t0 u0 fault done moved t f)
    (he : (u0.nodeAt node).storage = some e) {x : ℕ} (hx : x ∈ t.iteration)
    (hm : Matches t (τ.keyOf e.value) x) : Stage t0 u0 fault (done ++ [node]) moved t f :=
  ⟨h.absorbs.refuse he hx hm, h.room, h.unmoved, h.point, h.linking, h.first⟩

theorem Stage.take {s s' : Store τ} (h : Stage t0 u0 fault done moved s.table s.heap.fault)
    (hlaw : LawfulTable t0) (he : (u0.nodeAt node).storage = some e) {x : ℕ}
    (hins : Inserted s.table e.value x s'.table) (habs : Absent s.table (τ.keyOf e.value))
    (hc : Consistent s'.table) (hroom : Room s'.table)
    (hpoint : faultPoint s'.heap.fault = faultPoint s.heap.fault) (hcount : CountedDown s s') :
    Stage t0 u0 fault (done ++ [node]) (moved ++ [node]) s'.table s'.heap.fault where
  absorbs := h.absorbs.take hlaw he hins habs hc
  room := hroom
  unmoved hnil := absurd hnil (by simp)
  point := hpoint.trans h.point
  linking n hn := by
    obtain ⟨m, hm, rfl⟩ := h.linking n hn
    obtain ⟨m', rfl, hm'⟩ := hcount.linking m hm
    refine ⟨m', hm', ?_⟩
    rw [List.length_append, List.length_singleton]
    omega
  first n hn hzero := by
    rw [if_neg (by simp)]
    have hfirst := h.first n hn hzero
    by_cases hnil : moved = []
    · rw [if_pos hnil] at hfirst
      exact hcount.first n (hfirst.trans hn) ((h.unmoved hnil).trans hzero)
    · rwa [if_neg hnil] at hfirst

/-! ## The exception -/

/-- What a merge of `u0` into `t0` leaves when an allocation throws. -/
inductive MergeThrown (w0 : World τ) (i j : ℕ) (t0 u0 : Table τ) (w : World τ) : Prop where
  /-- No element is on its way. -/
  | between (done moved : List ℕ) (t u t' : Table τ) (absorbs : Absorbs t0 u0 done moved t)
      (erased : Erased u0 moved u) (formed : WellFormed u) (early : ¬ Late w0.heap.fault)
      (same : SameElements t t') (consistent : Consistent t') (pair : Pair w0 i j t' u w)
  /-- The vector of the receiver could not grow. -/
  | unlinked (moved : List ℕ) (node : ℕ) (e : Element τ) (t u t' u' : Table τ)
      (turn : AtTurn t0 u0 moved node e t u)
      (fault : w0.heap.fault = some (.iterationGrowth, moved.length)) (same : SameElements t t')
      (consistent : Consistent t') (left : LeftBehind u node true u') (pair : Pair w0 i j t' u' w)
  /-- The receiver has lost its buckets. -/
  | unhoused (moved : List ℕ) (node n : ℕ) (e : Element τ) (t u t' u' : Table τ)
      (turn : AtTurn t0 u0 moved node e t u) (unmoved : moved = [] → t.bucketCount = t0.bucketCount)
      (fault : w0.heap.fault = some (.bucketArray, n))
      (first : t0.bucketCount = 0 → (moved = [] ↔ n = 0)) (lost : LostBuckets t t')
      (left : LeftBehind u node true u') (pair : Pair w0 i j t' u' w)

/-- An insertion of the loop that throws. -/
theorem Stage.thrown {s s' : Store τ} (h : Stage t0 u0 w.heap.fault done moved s.table s.heap.fault)
    (halloc : AllocationThrows w.heap.fault) (hmoved : s.heap.moved = false)
    (turn : AtTurn t0 u0 moved node e s.table u) (hthrown : EmplaceThrown s s')
    (htransit : Transit s s') (hp : Pair w i j s'.table u' w')
    (hleft : LeftBehind u node s'.heap.moved u') : MergeThrown w i j t0 u0 w' := by
  have hne : ∀ p ∈ [Point.hash, .equal], faultPoint s.heap.fault ≠ some p := fun p hp' => by
    rw [h.point]
    exact halloc.ne_functor hp'
  have hins : InsertThrown s s' := by
    rcases hthrown with hins | ⟨hhash | hequal, -⟩
    · exact hins
    · exact absurd hhash (hne _ (by simp))
    · exact absurd hequal (hne _ (by simp))
  cases hins with
  | undone point same consistent =>
      obtain ⟨p, hp', hpoint⟩ := point
      by_cases hlate : Late s.heap.fault
      · -- of the points that are undone only the growth of the vector is late
        rw [htransit.late hlate] at hleft
        have hgrowth : faultPoint s.heap.fault = some .iterationGrowth := by
          rcases hlate with hlate | hlate
          · exact hlate
          · rw [hpoint] at hlate
            cases hlate
            simp at hp'
        rw [h.point] at hgrowth
        obtain ⟨⟨q, n⟩, hfault, rfl⟩ := Option.map_eq_some_iff.mp hgrowth
        obtain ⟨m, hm, rfl⟩ := h.linking n hfault
        rw [htransit.linking m hm, Nat.zero_add] at hfault
        exact .unlinked moved node e _ u _ u' turn hfault same consistent hleft hp
      · have hearly : Early s.heap.fault := by
          obtain ⟨q, hq, hpoint'⟩ := halloc
          rw [← h.point, hpoint] at hpoint'
          cases hpoint'
          unfold Late at hlate
          unfold Early
          rw [hpoint] at hlate ⊢
          simp only [List.mem_cons, List.not_mem_nil, or_false] at hp' hq
          rcases hp' with rfl | rfl | rfl | rfl <;> simp at hlate hq ⊢
        rw [htransit.early hearly, hmoved] at hleft
        have heq : u' = u := hleft
        subst heq
        obtain ⟨done', rest, -, habsorbs⟩ := turn.absorbs
        refine .between done' moved _ _ _ habsorbs turn.erased turn.formed ?_ same consistent hp
        unfold Late at hlate ⊢
        rwa [← h.point]
  | lostBuckets point lost =>
      rw [htransit.late (Or.inr point)] at hleft
      have hpoint := point
      rw [h.point] at hpoint
      obtain ⟨⟨q, n⟩, hfault, rfl⟩ := Option.map_eq_some_iff.mp hpoint
      refine .unhoused moved node n e _ u _ u' turn h.unmoved hfault (fun hzero => ?_) lost hleft hp
      have hfirst := h.first n hfault hzero
      by_cases hnil : moved = []
      · rw [if_pos hnil] at hfirst
        exact iff_of_true hnil
          (htransit.first n (hfirst.trans hfault) ((h.unmoved hnil).trans hzero))
      · rw [if_neg hnil] at hfirst
        exact iff_of_false hnil hfirst.ne'
  | unplaced point unplaced => exact absurd point (hne _ (by simp))

/-- A merge that throws for want of memory, unless the receiver has outgrown its index. -/
theorem mergeFrom_thrown (hne : i ≠ j) (hi : w.table? i = some t0) (hj : w.table? j = some u0)
    (ht : WellFormed t0) (hroomt : Room t0) (hlawt : LawfulTable t0) (hu : WellFormed u0)
    (hroomu : Room u0) (hlawu : LawfulTable u0) (halloc : AllocationThrows w.heap.fault) :
    Action.Post Stuck.anyhow (mergeFrom i j) w (fun _ _ => True) (fun w' =>
      MergeThrown w i j t0 u0 w' ∨ ∃ t, w'.table? i = some t ∧ ¬ Room t) := by
  refine (mergeFrom_loop (J := fun done moved t f =>
      Stage t0 u0 w.heap.fault done moved t f ∨ ¬ Room t)
    hne hi hj hu hroomu hlawu (fun hp w' hpair => Or.inl ?_)
    (fun f hticks => Or.inl (Stage.start ht hroomt hticks)) (fun done moved t => ?_) ?_).mono
    (fun _ _ _ => trivial) (fun _ h' => h') fun _ h' => h'
  · refine .between [] [] t0 u0 t0 (Absorbs.refl ht) (Erased.refl u0) hu ?_ (SameElements.refl t0)
      ht.consistent hpair
    rintro (h | h) <;> rw [hp] at h <;> cases h
  · refine ⟨fun f f' h hf => h.imp_left fun h => h.passes halloc hf, ?_⟩
    rintro p hp f (h | h) hpoint w' hw'
    · rw [h.point] at hpoint
      exact absurd hpoint (halloc.ne_functor hp)
    · exact Or.inr ⟨t, hw', h⟩
  · intro done node rest moved t u e f hsplit hJ herased hu' hnode he
    by_cases hroom : Room t
    · have hstage := hJ.resolve_right (not_not.mpr hroom)
      have hc := hstage.absorbs.wellFormed.consistent
      refine ⟨Contained t (τ.keyOf e.value), ?_, ?_, ?_⟩
      · rintro ⟨t1, heap⟩ rfl
        exact (contains_spec (s := ⟨t1, heap⟩) _ hc hroom).mono (fun _ _ h' => h'.2.1)
          (fun _ _ => trivial) fun _ h' => h'
      · rintro ⟨x, hx, hm⟩ f' hJ'
        exact hJ'.imp_left fun h => h.refuse he hx hm
      · rintro habs ⟨t1, heap⟩ rfl hmoved hJ'
        have hstage' := hJ'.resolve_right (not_not.mpr hroom)
        have turn : AtTurn t0 u0 moved node e t1 u :=
          ⟨⟨done, rest, hsplit, hstage.absorbs⟩, habs, he, herased, hu', hnode⟩
        refine ((emplaceImpl_spec (s := ⟨t1, heap⟩) e.value hc hroom).and
          (emplaceImpl_transit e.value hc hroom)).mono ?_ ?_ fun _ h' => h'
        · rintro r s' ⟨⟨hc', hentered, hpoint⟩, hcount⟩
          rcases hentered with ⟨hflag, -, hins⟩ | ⟨-, hlisted, hm, -, -⟩
          · by_cases hroom' : Room s'.table
            · exact Or.inl (hstage'.take hlawt he hins habs hc' hroom' hpoint (hcount hflag))
            · exact Or.inr hroom'
          · have hlaw1 := hstage.absorbs.grown.policy.lawfulTable.mpr hlawt
            exact absurd hm (Absent.not_matches habs hlaw1 hlisted)
        · rintro s' ⟨hthrown, htransit⟩ u' w' hp hleft
          exact Or.inl (hstage'.thrown halloc hmoved turn hthrown htransit hp hleft)
    · refine ⟨fun _ => True, fun _ _ => (Action.Post.any _ _).mono (fun _ _ h' => h')
        (fun _ h' => h') fun _ h' => h', fun _ _ _ => Or.inr hroom, ?_⟩
      rintro - s rfl - -
      exact (emplaceImpl_over e.value hroom).mono (fun _ _ h' => Or.inr h')
        (fun s' h' u' w' hp _ => Or.inr ⟨s'.table, hp.left, h'⟩) fun _ h' => h'

end Fum.Analysis

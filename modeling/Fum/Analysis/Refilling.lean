import Fum.Analysis.Absorption
import Fum.Analysis.Contents
import Fum.Analysis.QuietCalls
import Fum.Analysis.Silence

/-!
# Refilling an empty table

The loops of a copy and of an element-wise move: the values of another table are entered one
by one into a table that is empty, in the order of the other.
-/

set_option autoImplicit false

namespace Fum.Analysis

open Fum.Model Effects DenseMap

variable {τ : Traits} {U : Stuck → Prop} {s : Store τ} {w w' : World τ} {i j node : ℕ}
  {t t0 u u0 u' : Table τ} {v : τ.Value} {l done : List τ.Value}

/-! ## The receiver -/

/-- The values of `l` have been entered into the table `t0`, which was empty. -/
structure Refilled (t0 : Table τ) (l : List τ.Value) (t : Table τ) : Prop where
  wellFormed : WellFormed t
  contents : Analysis.contents t = l
  policy : SamePolicy t0 t

theorem Refilled.of_empty (hw : WellFormed t0) (hempty : t0.iteration = []) :
    Refilled t0 [] t0 where
  wellFormed := hw
  contents := by
    unfold Analysis.contents
    rw [hempty]
    rfl
  policy := SamePolicy.refl t0

theorem Refilled.size (h : Refilled t0 l t) : t.size = l.length := by
  rw [← h.contents, h.wellFormed.consistent.length_contents]

/-- `reserve` before the loop, for the elements of a table with the same load factor. -/
theorem reserve_refilled (hw : WellFormed s.table) (hempty : s.table.iteration = [])
    (hfactor : s.table.maxLoadFactor = u.maxLoadFactor) (hrange : ¬ Copyable u → U .undefined)
    (hquiet : s.heap.fault = none) :
    Action.Post U (reserve u.size) s
      (fun _ s' => Copyable u ∧ Refilled s.table [] s'.table ∧ s'.heap.fault = none)
      (fun _ => False) := by
  by_cases hcopyable : Copyable u
  · have hfits : ReserveFits s.table u.size := by
      refine reserveFits_of_empty hempty ?_
      rw [hfactor]
      exact hcopyable
    refine (post_silently (silent_reserve _) (reserve_spec _ hw.consistent (room_of_empty hempty)
      hfits) (fun _ h' => h'.fault) hquiet).mono ?_ (fun _ h' => h') fun _ h' => h'
    rintro ⟨⟩ s' ⟨⟨hsame, hc', -⟩, hquiet'⟩
    have hw' := hw.of_sameElements hsame hc'
    have hrefilled := Refilled.of_empty hw' (hsame.iteration.trans hempty)
    exact ⟨hcopyable, ⟨hw', hrefilled.contents, hsame.policy⟩, hquiet'⟩
  · refine post_reserve (fun _ => hrange hcopyable) fun m hm => ?_
    rw [hfactor] at hm
    exact absurd (copyable_of_eq_some hm) hcopyable

/-- A value whose key is not there yet goes to the back. -/
theorem Refilled.emplace (h : Refilled t0 done s.table) (hlaw : LawfulTable t0)
    (hfree : present τ.keyOf t0.keyEqual (τ.keyOf v) done = false)
    (hroom : done.length + 2 ≤ 2 ^ 24) (hquiet : s.heap.fault = none) :
    Action.Post U (emplaceImpl v) s
      (fun _ s' => Refilled t0 (done ++ [v]) s'.table ∧ s'.heap.fault = none)
      (fun _ => False) := by
  have hc := h.wellFormed.consistent
  have hroom' : Room s.table := by
    unfold Room
    rwa [h.size]
  have hlaw' : LawfulTable s.table := h.policy.lawfulTable.mpr hlaw
  refine (emplaceImpl_spec v hc hroom').mono ?_ (fun _ h' => h'.fault hquiet) fun _ h' => h'
  rintro r s' ⟨hc', hentered, hpoint⟩
  have hquiet' : s'.heap.fault = none := by
    rw [hquiet] at hpoint
    exact Option.map_eq_none_iff.mp hpoint
  refine ⟨⟨h.wellFormed.of_entered hentered hc', ?_, ?_⟩, hquiet'⟩
  · rw [(hentered.contents hc hlaw').1, h.contents, h.policy.keyEqual]
    unfold enter
    rw [hfree]
    rfl
  · exact h.policy.trans (hentered.grown hc).policy

/-- What stands before an entry in a map has other keys. -/
theorem present_before {rest : List τ.Value} {equal : τ.Key → τ.Key → Bool}
    (hd : DenseMap.Distinct τ.keyOf equal (done ++ v :: rest)) :
    present τ.keyOf equal (τ.keyOf v) done = false :=
  present_eq_false.mpr fun a ha =>
    ((List.pairwise_append.mp hd).2.2 a ha v List.mem_cons_self).2

/-- The table `t` has the elements of `u` in the same order, and its policy. -/
structure CopyOf (u t : Table τ) : Prop where
  wellFormed : WellFormed t
  contents : Analysis.contents t = Analysis.contents u
  maxLoadFactor : t.maxLoadFactor = u.maxLoadFactor
  hashFunction : t.hashFunction = u.hashFunction
  keyEqual : t.keyEqual = u.keyEqual

theorem Refilled.copyOf (h : Refilled t0 (Analysis.contents u) t)
    (hfactor : t0.maxLoadFactor = u.maxLoadFactor) (hhash : t0.hashFunction = u.hashFunction)
    (hequal : t0.keyEqual = u.keyEqual) : CopyOf u t where
  wellFormed := h.wellFormed
  contents := h.contents
  maxLoadFactor := h.policy.maxLoadFactor.trans hfactor
  hashFunction := h.policy.hashFunction.trans hhash
  keyEqual := h.policy.keyEqual.trans hequal

/-! ## What stands in the receiver before -/

/-- A write to the members of the first table, then the rest. -/
theorem Pair.post_modifyLeft {α : Type} {f : Table τ → Table τ} {k : Unit → Action (World τ) α}
    {Q : α → World τ → Prop} {E : World τ → Prop} {w0 : World τ} (h : Pair w0 i j t u w)
    (hk : ∀ w1, Pair w0 i j (f t) u w1 → w1.heap = w.heap → Action.Post U (k ()) w1 Q E) :
    Action.Post U (onTable i (modifyTable f) >>= k) w Q E :=
  post_modify_onTable h.left (hk _ (h.setLeft ⟨f t, w.heap⟩) rfl)

theorem destroyEverything_spec (hslots : Slots s.table [])
    (hfilled : Filled s.table s.table.iteration) (hquiet : s.heap.fault = none) :
    Action.Post U destroyEverything s
      (fun _ s' => s'.table.chunks = [] ∧ s'.table.vectorAllocator = s.table.vectorAllocator ∧
        s'.heap.fault = none) (fun _ => False) := by
  have hvectors : Steady fun s' : Store τ =>
      s'.table.vectorAllocator = s.table.vectorAllocator :=
    Insensitive.steady (I := fun t => t.vectorAllocator = s.table.vectorAllocator)
      ⟨fun _ _ _ _ h => h, fun _ _ h => h⟩
  have hpost : Action.Post U destroyEverything s (fun _ s' => s'.table.chunks = [])
      (fun _ => False) := by
    unfold destroyEverything
    refine Action.Post.bind (destroyAllValues_spec hslots hfilled) (fun _ h' => h')
      fun _ s1 _ => ?_
    refine Action.Post.bind deallocateBuckets_spec (fun _ h' => h') fun _ s2 _ => ?_
    unfold deallocateChunks
    rw [post_getTable]
    refine Action.Post.bind (Action.Post.forEach (E := fun _ => False) (fun _ _ => True) trivial
      fun _ _ _ _ _ _ => trivial) (fun _ h' => h') fun _ s3 _ => ?_
    rw [post_modifyTable_last]
  refine ((post_silently silent_destroyEverything hpost (fun _ h' => h'.elim) hquiet).and
    ((keeps_destroyEverything hvectors).post rfl)).mono ?_ (fun _ h' => h'.1) fun _ h' => h'
  exact fun _ s' h' => ⟨h'.1.1, h'.2, h'.1.2⟩

theorem clear_quiet (hw : WellFormed s.table) (hquiet : s.heap.fault = none) :
    Action.Post U clear s (fun _ s' => WellFormed s'.table ∧ s'.table.iteration = [] ∧
      s'.heap.fault = none) (fun _ => False) := by
  refine (post_silently silent_clear (clear_spec hw.consistent.under) (fun _ h' => h'.elim)
    hquiet).mono ?_ (fun _ h' => h') fun _ h' => h'
  rintro ⟨⟩ s' ⟨⟨hcleared, hc'⟩, hquiet'⟩
  exact ⟨WellFormed.of_empty hc' hcleared.iteration, hcleared.iteration, hquiet'⟩

/-! ## A copy -/

/-- The values of the nodes done, of the node at hand and of the others. -/
theorem contents_split {front back : List ℕ} {e : Element τ}
    (hsplit : u.iteration = front ++ node :: back) (he : (u.nodeAt node).storage = some e) :
    contents u = front.filterMap (valueAt u) ++ e.value :: back.filterMap (valueAt u) := by
  unfold contents
  rw [hsplit, List.filterMap_append, List.filterMap_cons, valueAt_of_storage he]

theorem length_front_lt {front back : List ℕ} (hsplit : u.iteration = front ++ node :: back)
    (hroom : Room u) : (front.filterMap (valueAt u)).length + 2 ≤ 2 ^ 24 := by
  have hle := List.length_filterMap_le (valueAt u) front
  have hsize : u.size = front.length + (back.length + 1) := by
    unfold Table.size
    rw [hsplit, List.length_append, List.length_cons]
  unfold Room at hroom
  omega

theorem copyContentsFrom_spec (hne : i ≠ j) (hi : w.table? i = some t0)
    (hj : w.table? j = some u) (ht : WellFormed t0) (hempty : t0.iteration = [])
    (hlawt : LawfulTable t0) (hfactor : t0.maxLoadFactor = u.maxLoadFactor)
    (hequal : t0.keyEqual = u.keyEqual) (hu : WellFormed u)
    (hroom : Room u) (hlaw : LawfulTable u) (hrange : ¬ Copyable u → U .undefined)
    (hquiet : w.heap.fault = none) :
    Action.Post U (copyContentsFrom i j) w
      (fun _ w' => Copyable u ∧
        ∃ t, Pair w i j t u w' ∧ Refilled t0 (contents u) t ∧ w'.heap.fault = none)
      (fun _ => False) := by
  have hdistinct := (hu.distinct hlaw).contents hu.consistent
  rw [← hequal] at hdistinct
  unfold copyContentsFrom
  refine post_readTable (fun source hsource => ?_) fun hnone => absurd hnone (by rw [hj]; simp)
  rw [hj] at hsource
  cases hsource
  split
  · next hnil =>
      have hcontents : contents u = [] := by
        unfold contents
        rw [hnil]
        rfl
      rw [hcontents]
      exact ⟨copyable_of_empty hnil, t0, Pair.refl hne hi hj, Refilled.of_empty ht hempty, hquiet⟩
  · refine (Pair.refl hne hi hj).post_left ((reserve_refilled (s := ⟨t0, w.heap⟩) ht hempty hfactor
      hrange hquiet).mono (fun _ s1 h1 hp1 => ?_) (fun _ h' => h'.elim) fun _ h' => h')
    refine (Action.Post.forEach (fun front w' => ∃ t, Pair w i j t u w' ∧
      Refilled t0 (front.filterMap (valueAt u)) t ∧ w'.heap.fault = none)
      ⟨s1.table, hp1, h1.2⟩ ?_).mono (fun _ _ h' => ⟨h1.1, h'⟩) (fun _ h' => h') fun _ h' => h'
    rintro front node back w2 hsplit ⟨t, hp2, hrefilled, hquiet2⟩
    have hlisted : node ∈ u.iteration := by rw [hsplit]; simp
    obtain ⟨e, he⟩ := Option.isSome_iff_exists.mp (hu.consistent.live hlisted)
    rw [contents_split hsplit he] at hdistinct
    refine hp2.post_right (Action.Post.of_run_ok (run_elementAt (s := ⟨u, w2.heap⟩) he)
      fun hp3 => ?_)
    refine hp3.post_left ((hrefilled.emplace (s := ⟨t, _⟩) hlawt (present_before hdistinct)
      (length_front_lt hsplit hroom) hquiet2).mono (fun _ s4 h4 hp4 => ?_) (fun _ h' => h'.elim)
      fun _ h' => h')
    refine ⟨s4.table, hp4, ?_, h4.2⟩
    rw [List.filterMap_append, List.filterMap_cons, valueAt_of_storage he]
    exact h4.1

/-! ## An element-wise move -/

/-- The elements of the nodes in `front` may have been moved from; the index still goes by
the old hashes. -/
structure Leaving (u0 : Table τ) (front : List ℕ) (u : Table τ) : Prop where
  under : ConsistentUnder (ownHash u0) u
  iteration : u.iteration = u0.iteration
  others : ∀ y, y ∉ front → (u.nodeAt y).storage = (u0.nodeAt y).storage
  policy : SamePolicy u0 u

theorem Leaving.refl (hc : Consistent u0) : Leaving u0 [] u0 :=
  ⟨hc.under, rfl, fun _ _ => rfl, SamePolicy.refl u0⟩

theorem Leaving.mono {front front' : List ℕ} (h : Leaving u0 front u)
    (hsub : ∀ x ∈ front, x ∈ front') : Leaving u0 front' u where
  under := h.under
  iteration := h.iteration
  others y hy := h.others y fun hmem => hy (hsub y hmem)
  policy := h.policy

/-- The element of a node in `front` is moved from. -/
theorem keeps_assign_leaving {front : List ℕ} (hnode : node ∈ front) :
    KeepsTable (Leaving u0 front) (assignValue node τ.movedFrom) := by
  refine keeps_assignValue_of node τ.movedFrom fun u u' h ha hslots => ?_
  refine ⟨h.under.assign ha (hslots h.under.slots), ha.iteration.trans h.iteration,
    fun y hy => ?_, h.policy.trans ha.policy⟩
  have hne : y ≠ node := by
    rintro rfl
    exact hy hnode
  exact (ha.others y hne).trans (h.others y hy)

theorem moveContentsFrom_spec (hne : i ≠ j) (hi : w.table? i = some t0)
    (hj : w.table? j = some u0) (ht : WellFormed t0) (hempty : t0.iteration = [])
    (hlawt : LawfulTable t0) (hfactor : t0.maxLoadFactor = u0.maxLoadFactor)
    (hequal : t0.keyEqual = u0.keyEqual) (hu : WellFormed u0)
    (hroom : Room u0) (hlaw : LawfulTable u0) (hrange : ¬ Copyable u0 → U .undefined)
    (hquiet : w.heap.fault = none) :
    Action.Post U (moveContentsFrom i j) w
      (fun _ w' => Copyable u0 ∧ ∃ t u, Pair w i j t u w' ∧ Refilled t0 (contents u0) t ∧
        Refilled u0 [] u ∧ w'.heap.fault = none) (fun _ => False) := by
  have hdistinct := (hu.distinct hlaw).contents hu.consistent
  have hnodup := hu.consistent.slots.iteration_nodup
  rw [← hequal] at hdistinct
  unfold moveContentsFrom
  refine post_readTable (fun source hsource => ?_) fun hnone => absurd hnone (by rw [hj]; simp)
  rw [hj] at hsource
  cases hsource
  refine (Pair.refl hne hi hj).post_left ((reserve_refilled (s := ⟨t0, w.heap⟩) ht hempty hfactor
    hrange hquiet).mono (fun _ s1 ⟨hcopyable, h1⟩ hp1 => ?_) (fun _ h' => h'.elim) fun _ h' => h')
  refine Action.Post.bind (Action.Post.forEach (E := fun _ => False) (fun front w' => ∃ t u,
    Pair w i j t u w' ∧ Refilled t0 (front.filterMap (valueAt u0)) t ∧ Leaving u0 front u ∧
      w'.heap.fault = none)
    ⟨s1.table, u0, hp1, h1.1, Leaving.refl hu.consistent, h1.2⟩ ?_) (fun _ h' => h') ?_
  · rintro front node back w2 hsplit ⟨t, u, hp2, hrefilled, hleaving, hquiet2⟩
    have hlisted : node ∈ u0.iteration := by rw [hsplit]; simp
    have hfresh : node ∉ front := by
      rw [hsplit] at hnodup
      exact fun hmem => (List.nodup_append.mp hnodup).2.2 node hmem node List.mem_cons_self rfl
    obtain ⟨e, he⟩ := Option.isSome_iff_exists.mp (hu.consistent.live hlisted)
    rw [contents_split hsplit he] at hdistinct
    refine hp2.post_right (Action.Post.of_run_ok
      (run_elementAt (s := ⟨u, w2.heap⟩) ((hleaving.others node hfresh).trans he)) fun hp3 => ?_)
    refine Action.Post.bind (Q := fun _ w' => ∃ t u, Pair w i j t u w' ∧
      Refilled t0 ((front ++ [node]).filterMap (valueAt u0)) t ∧
        Leaving u0 (front ++ [node]) u ∧ w'.heap.fault = none) (E := fun _ => False) ?_
      (fun _ h' => h') fun _ _ h' => h'
    refine post_movingNode (E := fun _ => False) ?_ ?_ fun _ h' => h'
    · have hemplace := hrefilled.emplace (s := ⟨t, { w2.heap with moved := false }⟩) (U := U) hlawt
        (present_before hdistinct) (length_front_lt hsplit hroom) hquiet2
      refine (hp3.reheap _).onLeft (hemplace.mono (fun _ s4 h4 hp4 => ?_) (fun _ h' => h'.elim)
        fun _ h' => h')
      refine ⟨s4.table, u, hp4, ?_, hleaving.mono fun x hx => List.mem_append_left _ hx, h4.2⟩
      rw [List.filterMap_append, List.filterMap_cons, valueAt_of_storage he]
      exact h4.1
    · rintro r w4 ⟨t', u', hp4, hrefilled', hleaving', hquiet4⟩
      rw [run_onTable hp4.right]
      have hleft : Leaving u0 (front ++ [node])
          ((assignValue node τ.movedFrom).run ⟨u', w4.heap⟩).2.table :=
        keeps_assign_leaving (List.mem_append_right _ (List.mem_singleton_self _)) ⟨u', w4.heap⟩
          hleaving'
      refine ⟨t', _, hp4.setRight _, hrefilled', hleft, ?_⟩
      show ((assignValue node τ.movedFrom).run ⟨u', w4.heap⟩).2.heap.fault = none
      rw [assignValue_heap]
      exact hquiet4
  · rintro ⟨⟩ w3 ⟨t, u, hp3, hrefilled, hleaving, hquiet3⟩
    refine hp3.onRight ((post_silently silent_clear (clear_spec (s := ⟨u, w3.heap⟩)
      hleaving.under) (fun _ h' => h'.elim) hquiet3).mono (fun _ s4 h4 hp4 => ?_)
      (fun _ h' => h'.elim) fun _ h' => h')
    obtain ⟨⟨hcleared, hc4⟩, hquiet4⟩ := h4
    have hrefilled4 := Refilled.of_empty (WellFormed.of_empty hc4 hcleared.iteration)
      hcleared.iteration
    exact ⟨hcopyable, t, s4.table, hp4, hrefilled, ⟨hrefilled4.wellFormed, hrefilled4.contents,
      hleaving.policy.trans hcleared.policy⟩, hquiet4⟩

end Fum.Analysis

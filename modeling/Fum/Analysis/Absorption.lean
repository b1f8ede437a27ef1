import Fum.Analysis.Contents
import Fum.Analysis.WellFormedness

/-!
# What a merge moves

Two tables change in the loop of `merge_from`. The source gives up a node at a time and
goes by the hashes its keys had before the node was moved from; the receiver takes the
value or, if it holds an equal key by then, refuses it.
-/

set_option autoImplicit false

namespace Fum.Analysis

open Fum.Model Effects DenseMap

variable {τ : Traits} {α β : Type} {U : Stuck → Prop} {X : Prop} {C : Bool → Prop}
  {D : Table τ → Prop} {w0 w w' : World τ} {i j node : ℕ} {t t0 t' u u0 u' : Table τ}
  {e : Element τ} {Q : β → World τ → Prop} {E : World τ → Prop}

/-! ## Two tables of a program -/

/-- The world `w` differs from `w0` in the tables `i` and `j` at most, which are `t`
and `u`. -/
structure Pair (w0 : World τ) (i j : ℕ) (t u : Table τ) (w : World τ) : Prop where
  ne : i ≠ j
  left : w.table? i = some t
  right : w.table? j = some u
  others : ∀ k, k ≠ i → k ≠ j → w.table? k = w0.table? k
  handles : w.handles = w0.handles

theorem Pair.refl (hne : i ≠ j) (hi : w.table? i = some t) (hj : w.table? j = some u) :
    Pair w i j t u w :=
  ⟨hne, hi, hj, fun _ _ _ => rfl, rfl⟩

theorem Pair.setLeft (h : Pair w0 i j t u w) (s : Store τ) :
    Pair w0 i j s.table u (withStore w i s) where
  ne := h.ne
  left := table?_withStore_self h.left s
  right := (table?_withStore_of_ne h.ne s).trans h.right
  others k hi hj := (table?_withStore_of_ne (Ne.symm hi) s).trans (h.others k hi hj)
  handles := h.handles

theorem Pair.setRight (h : Pair w0 i j t u w) (s : Store τ) :
    Pair w0 i j t s.table (withStore w j s) where
  ne := h.ne
  left := (table?_withStore_of_ne h.ne.symm s).trans h.left
  right := table?_withStore_self h.right s
  others k hi hj := (table?_withStore_of_ne (Ne.symm hj) s).trans (h.others k hi hj)
  handles := h.handles

theorem Pair.reheap (h : Pair w0 i j t u w) (heap : Heap) :
    Pair w0 i j t u { w with heap := heap } :=
  ⟨h.ne, h.left, h.right, h.others, h.handles⟩

/-- A call on the first table, then the rest. -/
theorem Pair.post_left {x : Exec τ α} {k : α → Action (World τ) β} (h : Pair w0 i j t u w)
    (hx : Action.Post U x ⟨t, w.heap⟩
      (fun a s' => Pair w0 i j s'.table u (withStore w i s') →
        Action.Post U (k a) (withStore w i s') Q E)
      (fun s' => E (withStore w i s'))) :
    Action.Post U (onTable i x >>= k) w Q E := by
  refine post_onTable_bind (fun t' ht' => ?_) fun hnone => absurd hnone (by rw [h.left]; simp)
  rw [h.left] at ht'
  cases ht'
  exact hx.mono (fun _ s' hk => hk (h.setLeft s')) (fun _ h' => h') fun _ h' => h'

/-- A call on the second table, then the rest. -/
theorem Pair.post_right {x : Exec τ α} {k : α → Action (World τ) β} (h : Pair w0 i j t u w)
    (hx : Action.Post U x ⟨u, w.heap⟩
      (fun a s' => Pair w0 i j t s'.table (withStore w j s') →
        Action.Post U (k a) (withStore w j s') Q E)
      (fun s' => E (withStore w j s'))) :
    Action.Post U (onTable j x >>= k) w Q E := by
  refine post_onTable_bind (fun t' ht' => ?_) fun hnone => absurd hnone (by rw [h.right]; simp)
  rw [h.right] at ht'
  cases ht'
  exact hx.mono (fun _ s' hk => hk (h.setRight s')) (fun _ h' => h') fun _ h' => h'

theorem Pair.onLeft {x : Exec τ β} (h : Pair w0 i j t u w)
    (hx : Action.Post U x ⟨t, w.heap⟩
      (fun a s' => Pair w0 i j s'.table u (withStore w i s') → Q a (withStore w i s'))
      (fun s' => E (withStore w i s'))) : Action.Post U (onTable i x) w Q E :=
  Action.Post.of_bind_pure (h.post_left hx)

theorem Pair.onRight {x : Exec τ β} (h : Pair w0 i j t u w)
    (hx : Action.Post U x ⟨u, w.heap⟩
      (fun a s' => Pair w0 i j t s'.table (withStore w j s') → Q a (withStore w j s'))
      (fun s' => E (withStore w j s'))) : Action.Post U (onTable j x) w Q E :=
  Action.Post.of_bind_pure (h.post_right hx)

/-! ## Exceptions -/

/-- The operation in progress throws nowhere, or `X` accounts for its exception. -/
def Quiet (X : Prop) (heap : Heap) : Prop := X ∨ heap.fault = none

theorem Quiet.of_point {h h' : Heap} (hq : Quiet X h)
    (hpoint : faultPoint h'.fault = faultPoint h.fault) : Quiet X h' := by
  rcases hq with hX | hnone
  · exact Or.inl hX
  · rw [hnone] at hpoint
    exact Or.inr (Option.map_eq_none_iff.mp hpoint)

theorem Quiet.thrown {h : Heap} (hq : Quiet X h) (hf : h.fault ≠ none) : X :=
  hq.resolve_right hf

/-- What a merge relies on while it looks at its tables, of which the receiver is `t`: a call
of a functor keeps what `H` says of the fault, and `E` accounts for a functor that throws. -/
structure Lookups (i : ℕ) (t : Table τ) (H : Option (Point × ℕ) → Prop) (E : World τ → Prop) :
    Prop where
  passes : ∀ f f', H f → Through [.hash, .equal] f f' → H f'
  throws : ∀ p ∈ [Point.hash, .equal], ∀ f, H f → faultPoint f = some p →
    ∀ w, w.table? i = some t → E w

theorem Quiet.lookups (P : Prop) :
    Lookups i t (fun f => P ∧ (X ∨ f = none)) (fun _ => X) where
  passes f f' hf hthrough := by
    refine ⟨hf.1, hf.2.imp_right ?_⟩
    rintro rfl
    exact hthrough.none
  throws p _ f hf hpoint w _ := hf.2.resolve_right (fault_ne_none hpoint)

/-! ## One node -/

/-- The table after an insertion out of its node: the element may have been moved from. -/
def LeftBehind (u : Table τ) (node : ℕ) (moved : Bool) (u' : Table τ) : Prop :=
  if moved then Assigned u node τ.movedFrom u' ∧ Slots u' [] else u' = u

theorem LeftBehind.vacating {moved : Bool} (h : LeftBehind u node moved u') (hc : Consistent u) :
    Vacating u node u' := by
  cases moved with
  | true => exact (Vacating.refl hc node).assign h.1 h.2
  | false =>
      have heq : u' = u := h
      rw [heq]
      exact Vacating.refl hc node

/-- The call with the element in `node` as argument leaves it behind. -/
theorem Pair.afterMove (h : Pair w0 i j t u w) (hc : Consistent u)
    (he : (u.nodeAt node).storage = some e) : ∃ u', Pair w0 i j t u' (afterMove j node w) ∧
      LeftBehind u node w.heap.moved u' ∧ (afterMove j node w).heap.fault = w.heap.fault := by
  unfold Analysis.afterMove
  cases hm : w.heap.moved with
  | false =>
      rw [if_neg Bool.false_ne_true]
      exact ⟨u, h, rfl, rfl⟩
  | true =>
      have hspec := assignValue_spec (U := Stuck.anyhow) (s := ⟨u, w.heap⟩) node τ.movedFrom
        fun _ => trivial
      obtain ⟨hassigned, hheap, hslots⟩ := hspec.ok_of_run (run_assignValue he _)
      rw [if_pos rfl, run_onTable h.right, run_assignValue (s := ⟨u, w.heap⟩) he]
      exact ⟨_, h.setRight _, ⟨hassigned, hslots [] hc.slots⟩, congrArg Heap.fault hheap⟩

section

variable {H : Option (Point × ℕ) → Prop} {D : Table τ → Option (Point × ℕ) → Prop}

/-- The second half of a round: the node is located, its element is moved into the
receiver, and its bucket is erased. -/
theorem post_moveOut (hl : Lookups i t H E) (h : Pair w0 i j t u w) (hu : WellFormed u)
    (hroom : Room u) (hlaw : LawfulTable u) (hnode : node ∈ u.iteration)
    (he : (u.nodeAt node).storage = some e) (hf : H w.heap.fault)
    (hemplace : ∀ s : Store τ, s.table = t → s.heap.moved = false → H s.heap.fault →
      Action.Post U (emplaceImpl e.value) s (fun _ s' => D s'.table s'.heap.fault)
        (fun s' => ∀ u' w', Pair w0 i j s'.table u' w' →
          LeftBehind u node s'.heap.moved u' → E w')) :
    Action.Post U (do
        let hash ← onTable j (callMixedHash (τ.keyOf e.value))
        let bucket ← onTable j (findBucket (τ.keyOf e.value) hash)
        let element ← onTable j (elementAt node)
        let _ ← movingNode j node (onTable i (emplaceImpl element.value))
        onTable j (eraseLocated bucket)) w
      (fun _ w' => ∃ t' u', D t' w'.heap.fault ∧ Erased u [node] u' ∧ WellFormed u' ∧
        Pair w0 i j t' u' w') E := by
  have hc := hu.consistent
  have hsearch := hc.searchable hroom
  refine h.post_right (Action.Post.of_bind_pure (post_callMixedHash
    (fun f hticks => Action.Post.pure fun h1 => ?_) fun hp _ =>
      hl.throws _ (by simp) _ hf hp _ (h.setRight ⟨u, _⟩).left))
  have hf1 : H f := hl.passes _ _ hf (hticks.through (by simp))
  refine h1.post_right ((findBucket_spec (s := ⟨u, withFault w.heap f⟩) hsearch.index
    hsearch.nodup hsearch.live hroom).mono (fun b s2 hb h2 => ?_) (fun s2 ht => ?_)
    fun _ h' => h')
  · obtain ⟨⟨htable2, hheap2, hfault2⟩, hb⟩ := hb
    have hf2 : H s2.heap.fault := hl.passes _ _ hf1 (hfault2.mono (by simp))
    rw [htable2] at h2
    refine h2.post_right (Action.Post.of_bind_pure (post_elementAt
      (fun e' he' => Action.Post.pure fun h3 => ?_) fun hnone => ?_))
    · have hee : e' = e := by
        rw [he] at he'
        exact (Option.some.inj he').symm
      subst hee
      have hown := ownHash_of_storage he
      have hbucket : BucketOf u b node := by
        rcases hb with ⟨-, hdiffers⟩ | ⟨x, hx, hm, hbx⟩
        · exact absurd (hdiffers node hnode hown _ he) (by rw [hlaw.refl]; simp)
        · have hself : Matches u (τ.keyOf e'.value) node := ⟨e', he, hlaw.refl _⟩
          rwa [(hu.distinct hlaw).unique hlaw hx hnode hm hself] at hbx
      refine Action.Post.bind (Q := fun _ w' => ∃ t' u', D t' w'.heap.fault ∧
        Vacating u node u' ∧ Pair w0 i j t' u' w') (E := E) ?_ (fun _ h' => h') ?_
      · refine post_movingNode_flag ((h3.reheap _).onLeft ?_)
        refine (hemplace ⟨t, { s2.heap with moved := false }⟩ rfl rfl hf2).mono
          (fun _ s4 h4 hp4 => ?_) (fun s4 h4 => ?_) fun _ h' => h'
        · obtain ⟨u', hp', hleft, hfault'⟩ := hp4.afterMove hc he
          exact ⟨s4.table, u', hfault' ▸ h4, hleft.vacating hc, hp'⟩
        · obtain ⟨u', hp', hleft, -⟩ := ((h3.reheap _).setLeft s4).afterMove hc he
          exact h4 u' _ hp' hleft
      · rintro r w4 ⟨t', u', hD, hvac, h4⟩
        refine h4.onRight ?_
        refine (eraseLocated_vacating (s := ⟨u', w4.heap⟩) hc hvac hbucket).mono
          (fun _ s5 h5 hp5 => ?_) (fun _ h' => h'.elim) fun _ h' => h'
        obtain ⟨herased, hc5, hfault5⟩ := h5
        refine ⟨t', s5.table, ?_, herased, hu.of_erased herased hc5, hp5⟩
        rw [show (withStore w4 j s5).heap.fault = w4.heap.fault from hfault5]
        exact hD
    · have hnone' : (u.nodeAt node).storage = none := hnone
      rw [he] at hnone'
      cases hnone'
  · obtain ⟨-, -, p, hp, hpoint⟩ := ht
    exact hl.throws p (List.mem_cons_of_mem _ hp) _ hf1 hpoint _ (h1.setRight s2).left

/-- A round of the loop: what `C` says of the answer to `contains` and what `D` says of the
receiver after the insertion are what the callers ask for. -/
theorem mergeNode_spec (hl : Lookups i t H E) (h : Pair w0 i j t u w) (hu : WellFormed u)
    (hroom : Room u) (hlaw : LawfulTable u) (hnode : node ∈ u.iteration)
    (he : (u.nodeAt node).storage = some e) (hf : H w.heap.fault)
    (hcontains : ∀ s : Store τ, s.table = t → Action.Post U (contains (τ.keyOf e.value)) s
      (fun answer _ => C answer) (fun _ => True))
    (hemplace : C false → ∀ s : Store τ, s.table = t → s.heap.moved = false → H s.heap.fault →
      Action.Post U (emplaceImpl e.value) s (fun _ s' => D s'.table s'.heap.fault)
        (fun s' => ∀ u' w', Pair w0 i j s'.table u' w' →
          LeftBehind u node s'.heap.moved u' → E w')) :
    Action.Post U (mergeNode i j node) w
      (fun _ w' => C true ∧ H w'.heap.fault ∧ Pair w0 i j t u w' ∨ C false ∧
        ∃ t' u', D t' w'.heap.fault ∧ Erased u [node] u' ∧ WellFormed u' ∧ Pair w0 i j t' u' w')
      E := by
  unfold mergeNode
  refine h.post_right (Action.Post.of_bind_pure (post_keyAt
    (fun e' he' => Action.Post.pure fun h1 => ?_) fun hnone => ?_))
  · have hee : e' = e := by
      rw [he] at he'
      exact (Option.some.inj he').symm
    subst hee
    refine h1.post_left (((hcontains ⟨t, w.heap⟩ rfl).and (contains_frame _)).mono
      (fun answer s2 h2 hp2 => ?_) (fun s2 h2 => ?_) fun _ h' => h')
    · obtain ⟨hC, hpass⟩ := h2
      have hf2 : H s2.heap.fault := hl.passes _ _ hf hpass.fault
      rw [hpass.table] at hp2
      cases answer with
      | true => exact Or.inl ⟨hC, hf2, hp2⟩
      | false =>
          exact (post_moveOut hl hp2 hu hroom hlaw hnode he hf2 (hemplace hC)).mono
            (fun _ _ h' => Or.inr ⟨hC, h'⟩) (fun _ h' => h') fun _ h' => h'
    · obtain ⟨p, hp, hpoint⟩ := h2.2.point
      exact hl.throws p hp _ hf hpoint _ ((h1.setLeft s2).left.trans (congrArg some h2.2.table))
  · have hnone' : (u.nodeAt node).storage = none := hnone
    rw [he] at hnone'
    cases hnone'

end

/-! ## The loop -/

/-- The loop of a merge, for an invariant `J` of the nodes done, the nodes moved, the receiver
and the fault. -/
theorem mergeFrom_loop {J : List ℕ → List ℕ → Table τ → Option (Point × ℕ) → Prop} (hne : i ≠ j)
    (hi : w.table? i = some t0) (hj : w.table? j = some u0) (hu : WellFormed u0)
    (hroom : Room u0) (hlaw : LawfulTable u0)
    (hscratch : faultPoint w.heap.fault = some .scratch → ∀ w', Pair w i j t0 u0 w' → E w')
    (h0 : ∀ f, Ticks .scratch w.heap.fault f → J [] [] t0 f)
    (hlookups : ∀ done moved t, Lookups i t (J done moved t) E)
    (hstep : ∀ done node rest moved t u e f, u0.iteration = done ++ node :: rest →
      J done moved t f → Erased u0 moved u → WellFormed u → node ∈ u.iteration →
      (u0.nodeAt node).storage = some e → ∃ C : Bool → Prop,
        (∀ s : Store τ, s.table = t → Action.Post U (contains (τ.keyOf e.value)) s
          (fun answer _ => C answer) (fun _ => True)) ∧
        (C true → ∀ f', J done moved t f' → J (done ++ [node]) moved t f') ∧
        (C false → ∀ s : Store τ, s.table = t → s.heap.moved = false →
          J done moved t s.heap.fault →
          Action.Post U (emplaceImpl e.value) s
            (fun _ s' => J (done ++ [node]) (moved ++ [node]) s'.table s'.heap.fault)
            (fun s' => ∀ u' w', Pair w i j s'.table u' w' →
              LeftBehind u node s'.heap.moved u' → E w'))) :
    Action.Post U (mergeFrom i j) w
      (fun _ w' => ∃ t u moved, Pair w i j t u w' ∧ J u0.iteration moved t w'.heap.fault ∧
        moved.Sublist u0.iteration ∧ Erased u0 moved u ∧ WellFormed u) E := by
  have hnodup := hu.consistent.slots.iteration_nodup
  unfold mergeFrom
  refine (Pair.refl hne hi hj).post_left ((post_mayThrow (s := ⟨t0, w.heap⟩)
    (fun f hticks hp1 => ?_) fun hp _ => hscratch hp _ ?_))
  swap
  · exact (Pair.refl hne hi hj).setLeft ⟨t0, withFault w.heap none⟩
  refine post_readTable (fun other hother => ?_) fun hnone => absurd hnone (by
    rw [hp1.right]
    simp)
  rw [hp1.right] at hother
  cases hother
  refine (Action.Post.forEach (fun done w' => ∃ t u moved,
    Pair w i j t u w' ∧ J done moved t w'.heap.fault ∧ moved.Sublist done ∧ Erased u0 moved u ∧
      WellFormed u)
    ⟨t0, u0, [], hp1, h0 f hticks, List.Sublist.refl _, Erased.refl u0, hu⟩ ?_).mono
    (fun _ _ h' => h') (fun _ h' => h') fun _ h' => h'
  rintro done node rest w2 hsplit ⟨t, u, moved, hp2, hJ, hsub, herased, hu2⟩
  -- the node has not been moved, so it still stands in the source
  have hlisted : node ∈ u0.iteration := by
    rw [hsplit]
    simp
  have hfresh : node ∉ moved := by
    intro hmem
    rw [hsplit] at hnodup
    exact (List.nodup_append.mp hnodup).2.2 node (hsub.subset hmem) node (by simp) rfl
  have hnode : node ∈ u.iteration :=
    (herased.mem_iff hu.consistent.slots.iteration_nodup node).mpr ⟨hlisted, hfresh⟩
  obtain ⟨e, he⟩ := Option.isSome_iff_exists.mp (hu.consistent.live hlisted)
  obtain ⟨C, hcontains, hkeep, hmove⟩ :=
    hstep done node rest moved t u e _ hsplit hJ herased hu2 hnode he
  have he2 : (u.nodeAt node).storage = some e := (herased.others node hfresh).trans he
  refine (mergeNode_spec (hlookups done moved t) hp2 hu2 (herased.room hroom)
    (herased.policy.lawfulTable.mpr hlaw) hnode he2 hJ hcontains hmove).mono ?_
    (fun _ h' => h') fun _ h' => h'
  rintro - w3 (⟨hC, hJ3, hp3⟩ | ⟨-, t3, u3, hJ3, herased3, hu3, hp3⟩)
  · exact ⟨t, u, moved, hp3, hkeep hC _ hJ3, hsub.trans (List.sublist_append_left _ _), herased,
      hu2⟩
  · exact ⟨t3, u3, moved ++ [node], hp3, hJ3, hsub.append (List.Sublist.refl _),
      herased.trans herased3, hu3⟩

/-! ## What has moved -/

/-- The receiver `t0` has absorbed the nodes `moved` out of the nodes `done` of `u0`: those
whose key was absent at their turn, in order. -/
structure Absorbs (t0 u0 : Table τ) (done moved : List ℕ) (t : Table τ) : Prop where
  wellFormed : WellFormed t
  grown : Grown t0 t
  values : moved.filterMap (valueAt u0) =
    absorbed τ.keyOf t0.keyEqual (contents t0) (done.filterMap (valueAt u0))
  contents : contents t = Analysis.contents t0 ++ moved.filterMap (valueAt u0)

theorem Absorbs.refl (h : WellFormed t0) : Absorbs t0 u0 [] [] t0 :=
  ⟨h, Grown.refl t0, rfl, (List.append_nil _).symm⟩

theorem filterMap_valueAt_append (l : List ℕ) (he : (u0.nodeAt node).storage = some e) :
    (l ++ [node]).filterMap (valueAt u0) = l.filterMap (valueAt u0) ++ [e.value] := by
  rw [List.filterMap_append, List.filterMap_cons, valueAt_of_storage he]
  rfl

section

variable {done moved rest : List ℕ}

theorem Absorbs.present (h : Absorbs t0 u0 done moved t) (key : τ.Key) :
    present τ.keyOf t.keyEqual key (Analysis.contents t) =
      present τ.keyOf t0.keyEqual key (Analysis.contents t0 ++ absorbed τ.keyOf t0.keyEqual
        (Analysis.contents t0) (done.filterMap (valueAt u0))) := by
  rw [h.contents, h.values, h.grown.policy.keyEqual]

/-- A node whose key the receiver holds stays where it is. -/
theorem Absorbs.refuse (h : Absorbs t0 u0 done moved t)
    (he : (u0.nodeAt node).storage = some e) {x : ℕ} (hx : x ∈ t.iteration)
    (hm : Matches t (τ.keyOf e.value) x) : Absorbs t0 u0 (done ++ [node]) moved t where
  wellFormed := h.wellFormed
  grown := h.grown
  values := by
    rw [filterMap_valueAt_append done he, absorbed_append_singleton, ← h.present,
      present_of_matches hx hm, if_pos rfl, List.append_nil]
    exact h.values
  contents := h.contents

/-- A node whose key the receiver lacks goes to its back. -/
theorem Absorbs.take (h : Absorbs t0 u0 done moved t) (hlaw : LawfulTable t0)
    (he : (u0.nodeAt node).storage = some e) {x : ℕ} (hi : Inserted t e.value x t')
    (habs : Absent t (τ.keyOf e.value)) (hc : Consistent t') :
    Absorbs t0 u0 (done ++ [node]) (moved ++ [node]) t' where
  wellFormed := h.wellFormed.of_inserted hi habs hc
  grown := h.grown.trans (hi.grown h.wellFormed.consistent)
  values := by
    have hpresent := habs.present_eq_false (h.grown.policy.lawfulTable.mpr hlaw)
    rw [h.present] at hpresent
    rw [filterMap_valueAt_append moved he, filterMap_valueAt_append done he,
      absorbed_append_singleton, hpresent, h.values]
    rfl
  contents := by
    rw [hi.contents h.wellFormed.consistent, h.contents, filterMap_valueAt_append moved he,
      List.append_assoc]

theorem Absorbs.size_le (h : Absorbs t0 u0 done moved t) (ht : Consistent t0)
    (hsplit : u0.iteration = done ++ rest) :
    t.size ≤ t0.size +
      (absorbed τ.keyOf t0.keyEqual (Analysis.contents t0) (Analysis.contents u0)).length := by
  have hprefix : absorbed τ.keyOf t0.keyEqual (Analysis.contents t0)
        (done.filterMap (valueAt u0)) <+:
      absorbed τ.keyOf t0.keyEqual (Analysis.contents t0)
        (done.filterMap (valueAt u0) ++ rest.filterMap (valueAt u0)) := absorbed_prefix _ _ _
  have hle := hprefix.length_le
  rw [← List.filterMap_append, ← hsplit, ← h.values] at hle
  rw [← h.wellFormed.consistent.length_contents, h.contents, List.length_append,
    ht.length_contents]
  exact Nat.add_le_add_left hle _

end

/-- A merge that has room for what it moves. -/
theorem mergeFrom_absorbs (hne : i ≠ j) (hi : w.table? i = some t0) (hj : w.table? j = some u0)
    (ht : WellFormed t0) (hlawt : LawfulTable t0) (hu : WellFormed u0) (hlawu : LawfulTable u0)
    (hroom : Room u0) (hq : Quiet X w.heap)
    (hsize : t0.size + (absorbed τ.keyOf t0.keyEqual (contents t0) (contents u0)).length + 2 ≤
      2 ^ 24) :
    Action.Post U (mergeFrom i j) w
      (fun _ w' => Quiet X w'.heap ∧ ∃ t u moved, Pair w i j t u w' ∧
        Absorbs t0 u0 u0.iteration moved t ∧ moved.Sublist u0.iteration ∧ Erased u0 moved u ∧
        WellFormed u) (fun _ => X) := by
  have hquiet : ∀ p, faultPoint w.heap.fault = some p → X := fun p hp =>
    hq.thrown (fault_ne_none hp)
  refine (mergeFrom_loop (J := fun done moved t f => Absorbs t0 u0 done moved t ∧ (X ∨ f = none))
    hne hi hj hu hroom hlawu (fun hp _ _ => hquiet _ hp) (fun f hticks => ?_)
    (fun _ _ _ => Quiet.lookups _) ?_).mono ?_ (fun _ h' => h') fun _ h' => h'
  · have hstill : Quiet X (withFault w.heap f) := hq.of_point hticks.faultPoint_eq
    exact ⟨Absorbs.refl ht, hstill⟩
  · rintro done node rest moved t u e f hsplit ⟨hJ, -⟩ - - - he
    have hroom : Room t := by
      have hle := hJ.size_le ht.consistent hsplit
      unfold Room
      omega
    refine ⟨Contained t (τ.keyOf e.value), ?_, ?_, ?_⟩
    · rintro ⟨t1, heap⟩ rfl
      exact (contains_spec (s := ⟨t1, heap⟩) _ hJ.wellFormed.consistent hroom).mono
        (fun _ _ h' => h'.2.1) (fun _ _ => trivial) fun _ h' => h'
    · rintro ⟨x, hx, hm⟩ f' ⟨-, hf'⟩
      exact ⟨hJ.refuse he hx hm, hf'⟩
    · rintro habs ⟨t1, heap⟩ rfl - ⟨-, hqs⟩
      refine (emplaceImpl_spec (s := ⟨t1, heap⟩) e.value hJ.wellFormed.consistent hroom).mono ?_
        (fun _ h' _ _ _ _ => hqs.resolve_right h'.fault) fun _ h' => h'
      rintro r s' ⟨hc', hentered, hpoint⟩
      refine ⟨?_, Quiet.of_point (h := heap) hqs hpoint⟩
      rcases hentered with ⟨-, -, hins⟩ | ⟨-, hlisted, hm, -, -⟩
      · exact hJ.take hlawt he hins habs hc'
      · exact absurd hm (Absent.not_matches habs (hJ.grown.policy.lawfulTable.mpr hlawt) hlisted)
  · rintro - w' ⟨t, u, moved, hp, ⟨hJ, hquiet'⟩, hsub, herased, hu'⟩
    exact ⟨hquiet', t, u, moved, hp, hJ, hsub, herased, hu'⟩

/-- Any merge out of a table with lawful functors: the receiver grows as long as it has
room, and the source loses elements. -/
theorem mergeFrom_growing (hne : i ≠ j) (hi : w.table? i = some t0) (hj : w.table? j = some u0)
    (ht : WellFormed t0) (hu : WellFormed u0) (hlaw : LawfulTable u0) (hroom : Room u0) :
    Action.Post Stuck.anyhow (mergeFrom i j) w
      (fun _ w' => ∃ t u moved, Pair w i j t u w' ∧ Growing t0 t ∧ Erased u0 moved u ∧
        WellFormed u) (fun _ => True) := by
  refine (mergeFrom_loop (J := fun _ _ t _ => Growing t0 t) (E := fun _ => True) hne hi hj hu hroom
    hlaw (fun _ _ _ => trivial) (fun _ _ => ht.growing)
    (fun _ _ _ => ⟨fun _ _ h' _ => h', fun _ _ _ _ _ _ _ => trivial⟩) ?_).mono ?_
    (fun _ h' => h') fun _ h' => h'
  · intro done node rest moved t u e f _ hJ _ _ _ _
    refine ⟨fun _ => True, fun _ _ => (Action.Post.any _ _).mono (fun _ _ h' => h')
      (fun _ h' => h') fun _ h' => h', fun _ _ _ => hJ, ?_⟩
    rintro - s rfl - -
    exact (emplaceImpl_growing e.value hJ).mono (fun _ _ h' => h')
      (fun _ _ _ _ _ _ => trivial) fun _ h' => h'
  · rintro - w' ⟨t, u, moved, hp, hJ, -, herased, hu'⟩
    exact ⟨t, u, moved, hp, hJ, herased, hu'⟩

/-! ## A table merged with itself -/

theorem withStore_table (ht : w.table? i = some t) (heap : Heap) :
    withStore w i ⟨t, heap⟩ = { w with heap := heap } := by
  unfold withStore
  rw [setTable_self ht]

/-- Every key is there, so nothing moves. -/
theorem mergeFrom_self (ht : w.table? i = some t) (hw : WellFormed t) (hroom : Room t)
    (hlaw : LawfulTable t) (hq : Quiet X w.heap) :
    Action.Post U (mergeFrom i i) w
      (fun _ w' => w' = { w with heap := w'.heap } ∧ Quiet X w'.heap)
      (fun w' => w' = { w with heap := w'.heap } ∧ X) := by
  have hone : ∀ {γ : Type} {x : Exec τ γ} {k : γ → Action (World τ) Unit} {w1 : World τ},
      w1 = { w with heap := w1.heap } →
      Action.Post U x ⟨t, w1.heap⟩ (fun a s' => s'.table = t ∧
        Action.Post U (k a) { w with heap := s'.heap }
          (fun _ w' => w' = { w with heap := w'.heap } ∧ Quiet X w'.heap)
          fun w' => w' = { w with heap := w'.heap } ∧ X) (fun s' => s'.table = t ∧ X) →
      Action.Post U (onTable i x >>= k) w1
        (fun _ w' => w' = { w with heap := w'.heap } ∧ Quiet X w'.heap)
        (fun w' => w' = { w with heap := w'.heap } ∧ X) := by
    intro γ x k w1 hw1 hx
    have ht1 : w1.table? i = some t := by
      rw [hw1]
      exact ht
    refine post_onTable_bind (fun t' ht' => ?_) fun hnone => absurd hnone (by rw [ht1]; simp)
    rw [ht1] at ht'
    cases ht'
    refine hx.mono ?_ ?_ fun _ h' => h'
    · rintro a ⟨t2, heap⟩ ⟨rfl, hk⟩
      rw [withStore_table ht1, hw1]
      exact hk
    · rintro ⟨t2, heap⟩ ⟨rfl, hX⟩
      rw [withStore_table ht1, hw1]
      exact ⟨rfl, hX⟩
  unfold mergeFrom
  refine hone rfl (post_mayThrow (fun f hf => ⟨rfl, ?_⟩) fun hp _ =>
    ⟨rfl, hq.thrown (fault_ne_none hp)⟩)
  refine post_readTable (fun other hother => ?_) fun hnone => absurd hnone (by
    show w.table? i ≠ none
    rw [ht]
    simp)
  have hsome : w.table? i = some other := hother
  rw [ht] at hsome
  cases hsome
  refine Action.Post.forEach
    (fun _ (w' : World τ) => w' = { w with heap := w'.heap } ∧ Quiet X w'.heap)
    ⟨rfl, hq.of_point hf.faultPoint_eq⟩ ?_
  rintro done node rest w1 hsplit ⟨hw1, hq1⟩
  have hlisted : node ∈ t.iteration := by
    rw [hsplit]
    simp
  obtain ⟨e, he⟩ := Option.isSome_iff_exists.mp (hw.consistent.live hlisted)
  unfold mergeNode
  refine hone hw1 (Action.Post.of_bind_pure (post_keyAt (fun e' he' => ⟨rfl, ?_⟩) fun hnone => ?_))
  · have hee : e' = e := by
      rw [he] at he'
      exact (Option.some.inj he').symm
    subst hee
    refine hone rfl ((contains_spec (s := ⟨t, w1.heap⟩) _ hw.consistent hroom).mono ?_
      (fun _ h' => ⟨h'.table, hq1.thrown h'.fault⟩) fun _ h' => h')
    rintro answer s2 ⟨htable, hcontained, hpoint⟩
    refine ⟨htable, ?_⟩
    cases answer with
    | true => exact ⟨rfl, hq1.of_point hpoint⟩
    | false => exact absurd hcontained (not_absent_self hlisted he hlaw.refl)
  · have hnone' : (t.nodeAt node).storage = none := hnone
    rw [he] at hnone'
    cases hnone'

end Fum.Analysis

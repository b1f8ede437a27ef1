import Fum.Interface.EraseIf

/-!
# Erasure of a range

`erase(first, last)` removes the elements of the range. The iterator that it returns is
`last`, whose element may have moved forward in the meantime, past elements that stood
behind it.
-/

set_option autoImplicit false

namespace Fum.Interface

open Fum.Model Fum.Analysis Effects SwapRemove DenseMap

variable {τ : Traits} {t t' : Table τ} {heap : Heap} {a b it : ℕ} {l doomed : List ℕ}

/-! ## Stretches of the contents -/

/-- The values of the elements from the position `a` up to the position `b`. -/
def valuesBetween (t : Table τ) (a b : ℕ) : List τ.Value := ((contents t).take b).drop a

theorem contents_split (t : Table τ) (hab : a ≤ b) :
    contents t = (contents t).take a ++ valuesBetween t a b ++ (contents t).drop b := by
  have htake : (contents t).take a = ((contents t).take b).take a := by
    rw [List.take_take, Nat.min_eq_left hab]
  unfold valuesBetween
  rw [htake, List.take_append_drop, List.take_append_drop]

theorem iteration_split (t : Table τ) (hab : a ≤ b) :
    t.iteration = t.iteration.take a ++ (t.iteration.drop a).take (b - a) ++
      t.iteration.drop b := by
  have hdrop : t.iteration.drop b = (t.iteration.drop a).drop (b - a) := by
    rw [List.drop_drop]
    congr 1
    omega
  rw [hdrop, List.append_assoc, List.take_append_drop, List.take_append_drop]

/-- The values of the nodes from a position on. -/
theorem filterMap_drop (hc : Consistent t) (n : ℕ) :
    (t.iteration.drop n).filterMap (valueAt t) = (contents t).drop n := by
  refine filterMap_eq_of_map ?_
  rw [List.map_drop, List.map_drop, hc.reads]

theorem filterMap_between (hc : Consistent t) (a b : ℕ) :
    ((t.iteration.drop a).take (b - a)).filterMap (valueAt t) = valuesBetween t a b := by
  refine filterMap_eq_of_map ?_
  unfold valuesBetween
  rw [List.map_take, List.map_drop, hc.reads, ← List.map_drop, ← List.map_take, List.drop_take]

/-! ## One at a time -/

/-- The question whether an element belongs to the range. -/
def inRange (t : Table τ) (a b : ℕ) (v : τ.Value) : Bool :=
  present τ.keyOf t.keyEqual (τ.keyOf v) (valuesBetween t a b)

/-- Of the elements from `first` on, those outside the range stand behind it. -/
theorem filter_not_inRange (hw : WellFormed t) (hlaw : LawfulTable t) (hab : a ≤ b) :
    ((contents t).drop a).filter (fun v => !inRange t a b v) = (contents t).drop b := by
  have hdistinct := (hw.distinct hlaw).contents hw.consistent
  have hsplit : (contents t).drop a = valuesBetween t a b ++ (contents t).drop b := by
    have htail : ((contents t).drop a).drop (b - a) = (contents t).drop b := by
      rw [List.drop_drop, Nat.add_sub_cancel' hab]
    unfold valuesBetween
    rw [List.drop_take, ← htail, List.take_append_drop]
  have hpair : (valuesBetween t a b ++ (contents t).drop b).Pairwise fun u v =>
      t.keyEqual (τ.keyOf u) (τ.keyOf v) = false ∧ t.keyEqual (τ.keyOf v) (τ.keyOf u) = false := by
    rw [← hsplit]
    exact hdistinct.sublist (List.drop_sublist a _)
  rw [hsplit, List.filter_append]
  have hnone : (valuesBetween t a b).filter (fun v => !inRange t a b v) = [] := by
    refine List.filter_eq_nil_iff.mpr fun v hv => ?_
    have hpresent : inRange t a b v = true := present_eq_true.mpr ⟨v, hv, hlaw.refl _⟩
    rw [hpresent]
    exact Bool.false_ne_true
  have hall : ((contents t).drop b).filter (fun v => !inRange t a b v) = (contents t).drop b := by
    refine List.filter_eq_self.mpr fun v hv => ?_
    have habsent : inRange t a b v = false :=
      present_eq_false.mpr fun u hu => ((List.pairwise_append.mp hpair).2.2 u hu v hv).2
    rw [habsent]
    rfl
  rw [hnone, hall, List.nil_append]

/-- The walk from `first` on that erases the elements of the range one at a time, with
`it = erase(it)`. -/
def eraseEach (t : Table τ) (a b : ℕ) : Exec τ (ℕ × List τ.Value) :=
  eraseIfLoop (fun _ v => inRange t a b v) (kNullIndex + 1) (nodeAtPosition t a) 0 []

theorem eraseEach_spec (hwalk : Walking ⟨t, heap⟩ a) (hab : a ≤ b) :
    ∃ r s', (eraseEach t a b).run ⟨t, heap⟩ = (.ok r, s') ∧
      (contents s'.table).Perm ((contents t).take a ++ (contents t).drop b) ∧
      (answered (fun _ v => inRange t a b v) false [] r.2).Perm ((contents t).drop b) := by
  have hsize := hwalk.wellFormed.consistent.slots.size_le_null
  have hfuel : t.size < a + (kNullIndex + 1) :=
    Nat.lt_of_le_of_lt hsize (Nat.lt_of_lt_of_le (Nat.lt_succ_self _) (Nat.le_add_left _ _))
  have hpost : Action.Post Stuck.never (eraseEach t a b) ⟨t, heap⟩ _ _ :=
    eraseIfLoop_spec (kNullIndex + 1) ⟨t, heap⟩ a 0 [] hwalk hfuel
  obtain ⟨r, s', hrun, -, asked, hasked, hperm, hcontents, -⟩ := hpost.returns
  rw [List.nil_append] at hasked
  subst hasked
  have hkept : (answered (fun _ v => inRange t a b v) false [] r.2).Perm
      ((contents t).drop b) := by
    rw [answered_false_of_const, ← filter_not_inRange hwalk.wellFormed hwalk.lawful hab]
    exact hperm.filter _
  exact ⟨r, s', hrun, by rw [hcontents]; exact hkept.append_left _, hkept⟩

/-! ## The law -/

/-- Exactly the elements of the range are gone. -/
structure RemovesRange (t : Table τ) (a b : ℕ) (t' : Table τ) : Prop where
  values : (contents t' ++ valuesBetween t a b).Perm (contents t)
  survivors : ∀ node, node ∈ t'.iteration ↔
    node ∈ t.iteration.take a ∨ node ∈ t.iteration.drop b
  kept : ∀ node ∈ t'.iteration, (t'.nodeAt node).storage = (t.nodeAt node).storage
  wellFormed : WellFormed t'
  findable : Findable t'

/-- From the returned iterator an iteration visits every survivor that stood at or behind
`last` exactly once, as the walk does that erases one element at a time. -/
def ContinuesFrom (t : Table τ) (heap : Heap) (a b it : ℕ) (t' : Table τ) : Prop :=
  ∃ l r s', visitedFrom t' it = some l ∧ l.Perm (t.iteration.drop b) ∧
    (eraseEach t a b).run ⟨t, heap⟩ = (.ok r, s') ∧ (contents s'.table).Perm (contents t') ∧
    (l.filterMap (valueAt t')).Perm (answered (fun _ v => inRange t a b v) false [] r.2)

/-- The walk from the place where `last` stands now. -/
theorem visited_iff (hc : Consistent t) (hc' : Consistent t') (hab : a ≤ b) (hb : b ≤ t.size)
    (herased : Erased t ((t.iteration.drop a).take (b - a)) t') :
    ∃ l, visitedFrom t' (nodeAtPosition t b) = some l ∧
      (l.Perm (t.iteration.drop b) ↔ a = b ∨ t.size ≤ b + 1) := by
  have hnodup := hc.slots.iteration_nodup
  have hlen : t.iteration.length = t.size := rfl
  rcases Nat.lt_or_ge b t.size with hlt | hge
  · have hget := nodeAtPosition_of_lt hlt
    obtain ⟨hlt', helem⟩ := List.getElem?_eq_some_iff.mp hget
    have hdrop : t.iteration.drop b = nodeAtPosition t b :: t.iteration.drop (b + 1) := by
      rw [← helem, List.getElem_cons_drop]
    have hsplit := iteration_split t hab
    rw [hdrop] at hsplit
    rw [hsplit] at hnodup
    have hmem : nodeAtPosition t b ∈ t'.iteration := by
      refine (herased.mem_iff hc.slots.iteration_nodup _).mpr ⟨List.mem_of_getElem? hget, ?_⟩
      exact fun hin => (List.nodup_append.mp hnodup).2.2 _ (List.mem_append_right _ hin) _
        List.mem_cons_self rfl
    obtain ⟨q, hq⟩ := List.mem_iff_getElem?.mp hmem
    have hvisited := visitedFrom_position hc' (Nat.le_of_lt (List.getElem?_eq_some_iff.mp hq).1)
    rw [nodeAtPosition_of_getElem? hq] at hvisited
    refine ⟨_, hvisited, ?_⟩
    have horder : t'.iteration = ((t.iteration.drop a).take (b - a)).foldl swapErase
        (t.iteration.take a ++ (t.iteration.drop a).take (b - a) ++
          nodeAtPosition t b :: t.iteration.drop (b + 1)) := by
      rw [← hsplit]
      exact herased.order
    rw [horder] at hq ⊢
    rw [hdrop]
    refine (walk_stretch_iff hnodup hq).trans (or_congr ?_ ?_)
    · rw [← List.length_eq_zero_iff, List.length_take, List.length_drop]
      omega
    · rw [← List.length_eq_zero_iff, List.length_drop]
      omega
  · have hend : b = t.size := Nat.le_antisymm hb hge
    subst hend
    rw [nodeAtPosition_size]
    refine ⟨[], visitedFrom_end t', iff_of_true ?_ (Or.inr (Nat.le_succ _))⟩
    exact List.Perm.of_eq (List.drop_eq_nil_of_le (Nat.le_of_eq hlen)).symm

/-- The erasure of a range that does not throw. -/
theorem post_eraseRange {U : Stuck → Prop} (hw : WellFormed t) (hroom : Room t)
    (hlaw : LawfulTable t) (hquiet : heap.fault = none) (hab : a ≤ b) (hb : b ≤ t.size) :
    Action.Post U (eraseRange (nodeAtPosition t a) (nodeAtPosition t b)) ⟨t, heap⟩
      (fun it s' => it = nodeAtPosition t b ∧ Consistent s'.table ∧
        Erased t ((t.iteration.drop a).take (b - a)) s'.table) (fun _ => False) := by
  have hc := hw.consistent
  have hsize := hc.slots.size_le_null
  have hrange := hc.slots.range (fun _ hx => hc.live hx) hb (b - a) (kNullIndex + 1) a
    (Nat.add_sub_cancel' hab) (by omega)
  refine (eraseRange_spec (s := ⟨t, heap⟩) _ _ hc hroom
    (Or.inr ⟨by rw [hrange]; rfl, hlaw, hw.distinct hlaw⟩)).mono ?_ ?_ fun _ h' => h'
  · rintro it s' ⟨hc', hit, -, doomed, hdoomed, herased⟩
    rw [hrange] at hdoomed
    cases hdoomed
    exact ⟨hit, hc', herased hlaw (hw.distinct hlaw)⟩
  · rintro s' h'
    obtain ⟨p, -, hpoint⟩ := h'.point
    exact fault_ne_none hpoint hquiet

theorem removesRange_of_erased (hw : WellFormed t) (hroom : Room t) (hlaw : LawfulTable t)
    (hab : a ≤ b) (herased : Erased t ((t.iteration.drop a).take (b - a)) t')
    (hc' : Consistent t') : RemovesRange t a b t' := by
  have hc := hw.consistent
  have hnodup := hc.slots.iteration_nodup
  have hw' := hw.of_erased herased hc'
  have hkept : ∀ node ∈ t'.iteration, (t'.nodeAt node).storage = (t.nodeAt node).storage :=
    fun node hnode => herased.others node ((herased.mem_iff hnodup node).mp hnode).2
  refine ⟨?_, fun node => ?_, hkept, hw',
    findable_of_wellFormed hw' (herased.room hroom) (herased.policy.lawfulTable.mpr hlaw)⟩
  · have hcontents : contents t' = t'.iteration.filterMap (valueAt t) :=
      List.filterMap_congr fun node hnode => valueAt_congr (hkept node hnode)
    rw [hcontents, ← filterMap_between hc, ← List.filterMap_append]
    exact herased.iteration.filterMap _
  · rw [herased.mem_iff hnodup]
    have hsplit := iteration_split t hab
    rw [hsplit] at hnodup
    have houtside := mem_outside hnodup node
    rwa [← hsplit] at houtside

/-- If the walk from the returned iterator visits what stood at or behind `last`, it shows
what the walk does that erases one element at a time. -/
theorem RemovesRange.continuesFrom (hr : RemovesRange t a b t') (hwalk : Walking ⟨t, heap⟩ a)
    (hab : a ≤ b) (hl : visitedFrom t' it = some l) (hperm : l.Perm (t.iteration.drop b)) :
    ContinuesFrom t heap a b it t' := by
  obtain ⟨r, s1, heach, hcontents1, hanswered⟩ := eraseEach_spec hwalk hab
  refine ⟨l, r, s1, hl, hperm, heach, ?_, ?_⟩
  · have hswap : ((contents t).take a ++ valuesBetween t a b ++ (contents t).drop b).Perm
        ((contents t).take a ++ (contents t).drop b ++ valuesBetween t a b) := by
      rw [List.append_assoc, List.append_assoc]
      exact List.perm_append_comm.append_left _
    rw [← contents_split t hab] at hswap
    have hrest := hr.values.trans hswap
    exact hcontents1.trans ((List.perm_append_right_iff _).mp hrest).symm
  · have hvalue : l.filterMap (valueAt t') = l.filterMap (valueAt t) := by
      refine List.filterMap_congr fun node hnode => valueAt_congr (hr.kept node ?_)
      exact (hr.survivors node).mpr (Or.inr (hperm.mem_iff.mp hnode))
    rw [hvalue]
    refine (hperm.filterMap _).trans ?_
    rw [filterMap_drop hwalk.wellFormed.consistent]
    exact hanswered.symm

/-- For every table that a program can reach and every valid range: the range goes, and the
returned iterator continues the iteration exactly if the range is empty or at most one
element stands from `last` on. -/
theorem eraseRange_continues_iff (hreach : Reachable t) (hquiet : heap.fault = none)
    (hab : a ≤ b) (hb : b ≤ t.size) :
    ∃ it s', (eraseRange (nodeAtPosition t a) (nodeAtPosition t b)).run ⟨t, heap⟩ = (.ok it, s') ∧
      RemovesRange t a b s'.table ∧
      (ContinuesFrom t heap a b it s'.table ↔ a = b ∨ t.size ≤ b + 1) := by
  obtain ⟨hw, hroom⟩ := hreach.sturdy
  have hlaw := hreach.lawful
  have hpost := post_eraseRange (U := Stuck.never) hw hroom hlaw hquiet hab hb
  obtain ⟨it, s', hrun, rfl, hc', herased⟩ := hpost.returns
  have hremoves := removesRange_of_erased hw hroom hlaw hab herased hc'
  refine ⟨_, s', hrun, hremoves, ?_⟩
  obtain ⟨l, hl, hiff⟩ := visited_iff hw.consistent hc' hab hb herased
  constructor
  · rintro ⟨l', r, s1, hl', hperm, -⟩
    rw [hl] at hl'
    cases hl'
    exact hiff.mp hperm
  · intro hcond
    exact hremoves.continuesFrom (Walking.start hreach hquiet (hab.trans hb)) hab hl
      (hiff.mpr hcond)

/-- The range from the second to the fourth of five elements. -/
theorem eraseRange_continues_iff_back :
    ∃ it s', (eraseRange 1 4).run
        ⟨((finish World.empty fiveSteps).table? 0).get five_made, Heap.empty⟩ =
          (.ok it, s') ∧
      RemovesRange (((finish World.empty fiveSteps).table? 0).get five_made) 1 4
        s'.table ∧
      ContinuesFrom (((finish World.empty fiveSteps).table? 0).get five_made) Heap.empty
        1 4 it s'.table := by
  obtain ⟨it, s', hrun, hremoves, hiff⟩ := eraseRange_continues_iff five_reachable
    (show Heap.empty.fault = none from rfl) (a := 1) (b := 4) (by decide) (by decide +kernel)
  have hfirst : nodeAtPosition (((finish World.empty fiveSteps).table? 0).get
      (by decide +kernel)) 1 = 1 := by decide +kernel
  have hlast : nodeAtPosition (((finish World.empty fiveSteps).table? 0).get
      (by decide +kernel)) 4 = 4 := by decide +kernel
  rw [hfirst, hlast] at hrun
  exact ⟨it, s', hrun, hremoves, hiff.mpr (by decide +kernel)⟩

/-- The first of five elements is erased as a range: the fifth one, which stood behind
`last`, is not visited from the returned iterator. -/
theorem erased_range_hides_back :
    Reachable (((finish World.empty fiveSteps).table? 0).get five_made) ∧
    (((finish World.empty fiveSteps).table? 0).get five_made).iteration.drop 1 =
      [1, 2, 3, 4] ∧
    ((eraseRange 0 1).run
      ⟨((finish World.empty fiveSteps).table? 0).get five_made, Heap.empty⟩).1 =
        .ok 1 ∧
    visitedFrom ((eraseRange 0 1).run
      ⟨((finish World.empty fiveSteps).table? 0).get five_made, Heap.empty⟩).2.table 1 =
        some [1, 2, 3] ∧
    ¬ ContinuesFrom (((finish World.empty fiveSteps).table? 0).get five_made)
      Heap.empty 0 1 1 ((eraseRange 0 1).run
        ⟨((finish World.empty fiveSteps).table? 0).get five_made,
          Heap.empty⟩).2.table := by
  have hbehind : (((finish World.empty fiveSteps).table? 0).get
      (by decide +kernel)).iteration.drop 1 = [1, 2, 3, 4] := by decide +kernel
  have hvisited : visitedFrom ((eraseRange 0 1).run
      ⟨((finish World.empty fiveSteps).table? 0).get five_made, Heap.empty⟩).2.table 1 =
        some [1, 2, 3] := by decide +kernel
  refine ⟨five_reachable, hbehind, by decide +kernel, hvisited, ?_⟩
  rintro ⟨l, r, s', hl, hperm, -⟩
  rw [hvisited] at hl
  rw [hbehind, ← Option.some.inj hl] at hperm
  exact absurd hperm.length_eq (by decide)

end Fum.Interface

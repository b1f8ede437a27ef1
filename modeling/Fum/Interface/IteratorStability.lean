import Fum.Interface.EraseIf

/-!
# Traversals in progress

What an erasure does to the iterations that other iterators have begun. The back of the
iteration vector takes the freed position, so an iterator misses nothing only if it had
nothing to miss: if at most one element stands behind the erased one.
-/

set_option autoImplicit false

namespace Fum.Interface

open Fum.Model Fum.Analysis Effects SwapRemove DenseMap

variable {τ : Traits} {U : Stuck → Prop} {s s' : Store τ} {t t' : Table τ} {heap : Heap}
  {p x y : ℕ} {key : τ.Key} {predicate : List τ.Value → τ.Value → Bool}

/-! ## One erasure -/

/-- From the iterator `y` an iteration visits after the erasure of `x` what it would have
visited before, without `x`. -/
def Undisturbed (t t' : Table τ) (x y : ℕ) : Prop :=
  ∃ l, visitedFrom t y = some l ∧ visitedFrom t' y = some (l.erase x) ∧
    ∀ z ∈ l.erase x, (t'.nodeAt z).storage = (t.nodeAt z).storage

theorem undisturbed_iff (hc : Consistent t) (hc' : Consistent t') (hp : t.iteration[p]? = some x)
    (herased : Erased t [x] t') (hy : y = kNullIndex ∨ y ∈ t.iteration) (hne : y ≠ x) :
    Undisturbed t t' x y ↔ y = kNullIndex ∨ t.size ≤ p + 2 := by
  have hnodup := hc.slots.iteration_nodup
  have horder : t'.iteration = swapRemove t.iteration p := by
    rw [herased.order]
    exact swapErase_eq hnodup hp
  rcases hy with rfl | hy
  · refine iff_of_true ⟨[], visitedFrom_end t, visitedFrom_end t', ?_⟩ (Or.inl rfl)
    exact fun z hz => (List.not_mem_nil hz).elim
  · have hnull : y ≠ kNullIndex := by
      rintro rfl
      exact absurd (hc.slots.ne_null (Or.inl hy)) (lt_irrefl _)
    have hy' : y ∈ t'.iteration :=
      (herased.mem_iff hnodup y).mpr ⟨hy, fun h => hne (List.mem_singleton.mp h)⟩
    obtain ⟨q, hq⟩ := List.mem_iff_getElem?.mp hy
    obtain ⟨q', hq'⟩ := List.mem_iff_getElem?.mp hy'
    have hbefore := visitedFrom_position hc (Nat.le_of_lt (List.getElem?_eq_some_iff.mp hq).1)
    have hafter := visitedFrom_position hc' (Nat.le_of_lt (List.getElem?_eq_some_iff.mp hq').1)
    rw [nodeAtPosition_of_getElem? hq] at hbefore
    rw [nodeAtPosition_of_getElem? hq', horder] at hafter
    rw [horder] at hq'
    rw [or_iff_right hnull]
    refine Iff.trans ⟨?_, fun hwalk => ?_⟩ (drop_swapRemove_iff hnodup (Ne.symm hne) hp hq hq')
    · rintro ⟨l, hl, hl', -⟩
      rw [hbefore] at hl
      rw [hafter] at hl'
      cases hl
      exact Option.some.inj hl'
    · refine ⟨_, hbefore, by rw [hafter, hwalk], fun z hz => herased.others z ?_⟩
      rw [List.mem_singleton]
      rintro rfl
      exact (((hnodup.sublist (List.drop_sublist q _)).mem_erase_iff).mp hz).1 rfl

/-! ## Stepping before erasing -/

/-- The loop of a caller that steps on before it erases what it has left behind,
`cur = it++; if (p(*cur)) erase(cur)`, with the values that it has asked about. -/
def eraseBehindLoop (predicate : List τ.Value → τ.Value → Bool) :
    ℕ → ℕ → List τ.Value → Exec τ (List τ.Value)
  | 0, _, _ => Action.diverge
  | fuel + 1, it, asked =>
      if it = kNullIndex then
        pure asked
      else do
        let element ← elementAt it
        let t ← getTable
        if predicate asked element.value then do
          let _ ← eraseAt it
          eraseBehindLoop predicate fuel (t.next it) (asked ++ [element.value])
        else
          eraseBehindLoop predicate fuel (t.next it) (asked ++ [element.value])

/-- The loop from `begin()`. -/
def eraseBehind (predicate : List τ.Value → τ.Value → Bool) : Exec τ (List τ.Value) := do
  let t ← getTable
  eraseBehindLoop predicate (kNullIndex + 1) t.begin []

/-- Only the last two entries get the answer yes. -/
def RefusesAllButTwo (predicate : List τ.Value → τ.Value → Bool) (asked l : List τ.Value) :
    Prop :=
  answered predicate true asked (l.take (l.length - 2)) = []

theorem refusesAllButTwo_cons {asked rest : List τ.Value} {v : τ.Value}
    (h : predicate asked v = false) : RefusesAllButTwo predicate asked (v :: rest) ↔
      RefusesAllButTwo predicate (asked ++ [v]) rest := by
  unfold RefusesAllButTwo
  by_cases hlen : 2 ≤ rest.length
  · rw [List.length_cons, show rest.length + 1 - 2 = rest.length - 2 + 1 by omega,
      List.take_succ_cons, answered_cons_ne (by simp [h])]
  · rw [List.length_cons, show rest.length + 1 - 2 = 0 by omega,
      show rest.length - 2 = 0 by omega, List.take_zero, List.take_zero]
    exact iff_of_true rfl rfl

theorem refusesAllButTwo_of_short {asked l : List τ.Value} (hl : l.length ≤ 2) :
    RefusesAllButTwo predicate asked l := by
  unfold RefusesAllButTwo
  rw [Nat.sub_eq_zero_of_le hl, List.take_zero]
  rfl

theorem not_refusesAllButTwo_cons {asked rest : List τ.Value} {v : τ.Value}
    (h : predicate asked v = true) (hlen : 2 ≤ rest.length) :
    ¬ RefusesAllButTwo predicate asked (v :: rest) := by
  unfold RefusesAllButTwo
  rw [List.length_cons, show rest.length + 1 - 2 = rest.length - 2 + 1 by omega,
    List.take_succ_cons, answered_cons_eq h]
  exact List.cons_ne_nil _ _

/-- What stands before the last entry are not all the entries. -/
theorem not_perm_of_subset_dropLast {α : Type} {l rest : List α} (hnodup : rest.Nodup)
    (hne : rest ≠ []) (hsub : ∀ v ∈ l, v ∈ rest.dropLast) : ¬ l.Perm rest := by
  intro hperm
  have hlast := hsub _ (hperm.mem_iff.mpr (List.getLast_mem hne))
  rw [← List.dropLast_concat_getLast hne] at hnodup
  exact (List.nodup_append.mp hnodup).2.2 _ hlast _ (List.mem_singleton_self _) rfl

theorem contents_nodup (hw : WellFormed t) (hlaw : LawfulTable t) : (contents t).Nodup := by
  refine ((hw.distinct hlaw).contents hw.consistent).imp ?_
  rintro a b ⟨hab, -⟩ rfl
  rw [hlaw.refl] at hab
  cases hab

/-- From a position on, the loop asks about some of the elements that stand there; about all
of them exactly if it erases none of them but the last two. -/
theorem eraseBehindLoop_spec (fuel : ℕ) : ∀ (s : Store τ) (p : ℕ) (asked : List τ.Value),
    Walking s p → s.table.size < p + fuel →
      Action.Post U (eraseBehindLoop predicate fuel (nodeAtPosition s.table p) asked) s
        (fun r _ => ∃ l, r = asked ++ l ∧ (∀ v ∈ l, v ∈ (contents s.table).drop p) ∧
          (l.Perm ((contents s.table).drop p) ↔
            RefusesAllButTwo predicate asked ((contents s.table).drop p)))
        (fun _ => False) := by
  induction fuel with
  | zero =>
      intro s p asked h hfuel
      exact absurd h.within (by omega)
  | succ fuel ih =>
      intro s p asked h hfuel
      have hlen := h.wellFormed.consistent.length_contents
      rw [eraseBehindLoop]
      by_cases hend : p = s.table.size
      · rw [if_pos (h.null_iff.mpr hend), post_pure, List.drop_eq_nil_of_le (by omega)]
        exact ⟨[], (List.append_nil _).symm, fun _ hv => hv, iff_of_true (List.Perm.refl _) rfl⟩
      · have hp : p < s.table.size := Nat.lt_of_le_of_ne h.within hend
        rw [if_neg (mt h.null_iff.mp hend)]
        refine h.post_elementAt hp fun e _ hdrop => ?_
        rw [post_getTable, h.wellFormed.consistent.slots.next hp]
        split
        · next hyes =>
            refine Action.Post.bind (eraseAt_position h hp) (fun _ h' => h') ?_
            rintro following s1 ⟨-, h1⟩
            have hsize1 := h1.size
            rw [h1.next hp]
            by_cases hback : p + 2 < s.table.size
            · -- the last element stands at the freed position, behind the walk
              rw [if_pos hback]
              refine (ih s1 (p + 1) (asked ++ [e.value]) (h1.walking (p + 1) (by omega))
                (by omega)).mono ?_ (fun _ h' => h') fun _ h' => h'
              rintro r s2 ⟨l, hasked, hsub, -⟩
              rw [h1.contents, drop_swapRemove_succ (by omega)] at hsub
              have hrest : 2 ≤ ((contents s.table).drop (p + 1)).length := by
                rw [List.length_drop]
                omega
              have hnodup : ((contents s.table).drop (p + 1)).Nodup :=
                (contents_nodup h.wellFormed h.lawful).sublist (List.drop_sublist _ _)
              rw [hdrop]
              refine ⟨e.value :: l, ?_, List.cons_subset_cons _ fun v hv =>
                List.dropLast_subset _ (hsub v hv), iff_of_false (fun hperm => ?_)
                  (not_refusesAllButTwo_cons hyes hrest)⟩
              · rw [hasked, List.append_assoc]
                rfl
              · exact not_perm_of_subset_dropLast hnodup
                  (List.ne_nil_of_length_pos (Nat.lt_of_lt_of_le Nat.two_pos hrest)) hsub
                  ((List.perm_cons e.value).mp hperm)
            · rw [if_neg hback]
              refine (ih s1 p (asked ++ [e.value]) (h1.walking p (by omega)) (by omega)).mono ?_
                (fun _ h' => h') fun _ h' => h'
              rintro r s2 ⟨l, hasked, hsub, hiff⟩
              rw [h1.contents, drop_swapRemove_self (by omega) (by omega)] at hsub hiff
              have hrest : ((contents s.table).drop (p + 1)).length ≤ 1 := by
                rw [List.length_drop]
                omega
              rw [hdrop]
              refine ⟨e.value :: l, ?_, List.cons_subset_cons _ hsub,
                iff_of_true ?_ (refusesAllButTwo_of_short (Nat.succ_le_succ hrest))⟩
              · rw [hasked, List.append_assoc]
                rfl
              · exact (hiff.mpr (refusesAllButTwo_of_short (by omega))).cons e.value
        · next hno =>
            have hfalse : predicate asked e.value = false := Bool.eq_false_iff.mpr hno
            refine (ih s (p + 1) (asked ++ [e.value]) (h.forward hp) (by omega)).mono ?_
              (fun _ h' => h') fun _ h' => h'
            rintro r s2 ⟨l, hasked, hsub, hiff⟩
            rw [hdrop, refusesAllButTwo_cons hfalse, ← hiff]
            refine ⟨e.value :: l, ?_, List.cons_subset_cons _ hsub, List.perm_cons e.value⟩
            rw [hasked, List.append_assoc]
            rfl

theorem eraseBehind_spec (h : Walking s 0) :
    Action.Post U (eraseBehind predicate) s
      (fun asked _ => asked.Perm (contents s.table) ↔
        RefusesAllButTwo predicate [] (contents s.table)) (fun _ => False) := by
  have hsize := h.wellFormed.consistent.slots.size_le_null
  unfold eraseBehind
  rw [post_getTable, begin_eq]
  refine (eraseBehindLoop_spec (kNullIndex + 1) s 0 [] h (by omega)).mono ?_ (fun _ h' => h')
    fun _ h' => h'
  rintro r s' ⟨l, hasked, -, hiff⟩
  rw [List.nil_append] at hasked
  rw [List.drop_zero] at hiff
  rw [hasked]
  exact hiff

/-! ## The law -/

/-- For every table that a program can reach: an erasure, by iterator or by key, leaves an
iterator to another element its traversal exactly if at most one element stands behind the
erased one, and the loop that steps before it erases asks about every element once exactly
if it erases none but the last two. -/
theorem traversal_kept_iff (hreach : Reachable t) (hquiet : heap.fault = none) :
    (∀ p x key y, t.iteration[p]? = some x → Matches t key x →
      (y = kNullIndex ∨ y ∈ t.iteration) → y ≠ x →
        (∃ it s', (eraseAt x).run ⟨t, heap⟩ = (.ok it, s') ∧
          (Undisturbed t s'.table x y ↔ y = kNullIndex ∨ t.size ≤ p + 2)) ∧
        ∃ s', (eraseKey key).run ⟨t, heap⟩ = (.ok 1, s') ∧
          (Undisturbed t s'.table x y ↔ y = kNullIndex ∨ t.size ≤ p + 2)) ∧
    ∀ predicate : List τ.Value → τ.Value → Bool,
      ∃ asked s', (eraseBehind predicate).run ⟨t, heap⟩ = (.ok asked, s') ∧
        (asked.Perm (contents t) ↔ RefusesAllButTwo predicate [] (contents t)) := by
  obtain ⟨hw, hroom⟩ := hreach.sturdy
  have hlaw := hreach.lawful
  have hc := hw.consistent
  constructor
  · intro p x key y hp hmatch hy hne
    have hlt := (List.getElem?_eq_some_iff.mp hp).1
    have hwalk : Walking ⟨t, heap⟩ p := Walking.start hreach hquiet (Nat.le_of_lt hlt)
    constructor
    · obtain ⟨it, s', hrun, -, h1⟩ := (eraseAt_position (U := Stuck.never) hwalk hlt).returns
      have herased := h1.erased
      rw [nodeAtPosition_of_getElem? hp] at hrun herased
      have hone : 1 ≤ t.size := Nat.succ_le_of_lt (Nat.lt_of_le_of_lt (Nat.zero_le p) hlt)
      exact ⟨it, s', hrun, undisturbed_iff hc (h1.walking 0 hone).wellFormed.consistent hp herased
        hy hne⟩
    · have hpost : Action.Post Stuck.never (eraseKey key) ⟨t, heap⟩
          (fun n s' => Consistent s'.table ∧ ErasedKey t key n s'.table) (fun _ => False) :=
        (eraseKey_spec (s := ⟨t, heap⟩) key hc hroom).mono (fun _ _ h' => h')
          (fun _ h' => h'.fault hquiet) fun _ h' => h'
      obtain ⟨n, s', hrun, hc', hkey⟩ := hpost.returns
      have hx := List.mem_of_getElem? hp
      cases hkey with
      | absent count absent same => exact absurd hmatch (absent.not_matches hlaw hx)
      | erased count x' listed same_key erased =>
          have heq : x' = x := (hw.distinct hlaw).unique hlaw listed hx same_key hmatch
          rw [count] at hrun
          rw [heq] at erased
          exact ⟨s', hrun, undisturbed_iff hc hc' hp erased hy hne⟩
  · intro predicate
    exact (eraseBehind_spec (U := Stuck.never)
      (Walking.start hreach hquiet (Nat.zero_le _))).returns

/-- The last element but one is erased, through an iterator or by its key, and the loop that
says yes to it and to the last one sees all five. -/
theorem traversal_kept_iff_back :
    (∃ it s', (eraseAt 3).run
        ⟨((finish World.empty fiveSteps).table? 0).get five_made, Heap.empty⟩ =
          (.ok it, s') ∧
      Undisturbed (((finish World.empty fiveSteps).table? 0).get five_made) s'.table
        3 1) ∧
    ∃ asked s', (eraseBehind fun _ (v : NatMap.Value) => decide (4 ≤ v.1)).run
        ⟨((finish World.empty fiveSteps).table? 0).get five_made, Heap.empty⟩ =
          (.ok asked, s') ∧
      asked.Perm
        (contents (((finish World.empty fiveSteps).table? 0).get five_made)) := by
  obtain ⟨hone, hloop⟩ := traversal_kept_iff five_reachable
    (show Heap.empty.fault = none from rfl)
  obtain ⟨⟨it, s', hrun, hiff⟩, -⟩ := hone 3 3 4 1 (by decide +kernel)
    (matches_iff_valueAt.mpr ⟨(4, 40), by decide +kernel, by decide +kernel⟩)
    (by decide +kernel) (by decide)
  obtain ⟨asked, s2, hrun2, hiff2⟩ := hloop fun _ v => decide (4 ≤ v.1)
  exact ⟨⟨it, s', hrun, hiff.mpr (by decide +kernel)⟩, asked, s2, hrun2,
    hiff2.mpr (by unfold RefusesAllButTwo; decide +kernel)⟩

/-- The first of five elements is erased: an iterator to the second one no longer comes to
the fifth, and the loop that erases the first element never sees the fifth. -/
theorem erased_front_hides_back :
    Reachable (((finish World.empty fiveSteps).table? 0).get five_made) ∧
    contents (((finish World.empty fiveSteps).table? 0).get five_made) =
      [(1, 10), (2, 20), (3, 30), (4, 40), (5, 50)] ∧
    visitedFrom (((finish World.empty fiveSteps).table? 0).get five_made) 1 =
      some [1, 2, 3, 4] ∧
    visitedFrom ((eraseAt 0).run
      ⟨((finish World.empty fiveSteps).table? 0).get five_made, Heap.empty⟩).2.table 1 =
        some [1, 2, 3] ∧
    ¬ Undisturbed (((finish World.empty fiveSteps).table? 0).get five_made)
      ((eraseAt 0).run ⟨((finish World.empty fiveSteps).table? 0).get five_made,
        Heap.empty⟩).2.table 0 1 ∧
    ((eraseBehind fun _ (v : NatMap.Value) => v.1 == 1).run
      ⟨((finish World.empty fiveSteps).table? 0).get five_made, Heap.empty⟩).1 =
        .ok [(1, 10), (2, 20), (3, 30), (4, 40)] := by
  have hbefore : visitedFrom (((finish World.empty fiveSteps).table? 0).get five_made)
      1 = some [1, 2, 3, 4] := by decide +kernel
  have hafter : visitedFrom ((eraseAt 0).run
      ⟨((finish World.empty fiveSteps).table? 0).get five_made, Heap.empty⟩).2.table 1 =
        some [1, 2, 3] := by decide +kernel
  refine ⟨five_reachable, by decide +kernel, hbefore, hafter, ?_, by decide +kernel⟩
  rintro ⟨l, hl, hl', -⟩
  rw [hbefore] at hl
  rw [hafter, ← Option.some.inj hl] at hl'
  exact absurd hl' (by decide)

end Fum.Interface

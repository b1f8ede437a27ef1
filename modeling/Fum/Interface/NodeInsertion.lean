import Fum.Analysis.Reachability
import Fum.Analysis.Contents
import Fum.Model.Instances

/-!
# Insertion of a node handle

Both overloads of `insert(node_type&&)` enter the element of the handle if its key is absent.
A rejected node is returned; the overload with a hint drops what is returned, and with it the
element.
-/

set_option autoImplicit false

namespace Fum.Interface

open Fum.Model Fum.Analysis Effects DenseMap

variable {τ : Traits} {U : Stuck → Prop} {w w' : World τ} {i h : ℕ} {t : Table τ}
  {handle : Handle τ} {cell : Cell τ}

/-! ## What the handles hold -/

/-- The value of the element of a handle object, if it is alive and not empty. -/
def heldBy (o : Option (Handle τ)) : Multiset τ.Value :=
  (o.bind Handle.value).elim 0 fun cell => {cell.element.value}

/-- The values in the table `i` and in all handles. -/
def heldValues (w : World τ) (i : ℕ) : Multiset τ.Value :=
  ((w.table? i).elim 0 fun t => (contents t : Multiset τ.Value)) + (w.handles.map heldBy).sum

/-- A handle object that is replaced changes the sum by what it holds. -/
theorem sum_heldBy_set {handles : List (Option (Handle τ))} {o : Option (Handle τ)}
    (hh : handles[h]? = some o) (o' : Option (Handle τ)) :
    ((handles.set h o').map heldBy).sum + heldBy o = (handles.map heldBy).sum + heldBy o' := by
  induction handles generalizing h with
  | nil => cases hh
  | cons first rest ih =>
      cases h with
      | zero =>
          cases hh
          simp only [List.set_cons_zero, List.map_cons, List.sum_cons]
          abel
      | succ h =>
          have hrest := ih (h := h) hh
          simp only [List.set_cons_succ, List.map_cons, List.sum_cons, add_assoc]
          rw [hrest]

theorem getElem?_of_handle? (hh : w.handle? h = some handle) :
    w.handles[h]? = some (some handle) := by
  unfold World.handle? at hh
  cases ho : w.handles[h]? with
  | none =>
      rw [ho] at hh
      cases hh
  | some o =>
      rw [ho] at hh
      exact congrArg some hh

/-! ## The call -/

/-- The state after the insertion of the node in the handle object `h`: the table has entered
its value or found one with an equal key, and the returned node is kept or dropped. -/
structure NodeInserted (hinted : Bool) (w : World τ) (i h : ℕ) (t : Table τ) (handle : Handle τ)
    (cell : Cell τ) (r : ℕ × Bool) (w' : World τ) (t' : Table τ) (node : Handle τ) : Prop where
  table : w'.table? i = some t'
  others : ∀ k, k ≠ i → w'.table? k = w.table? k
  handles : w'.handles = w.handles.set h (some ⟨none, handle.allocator⟩) ++
    if hinted then [] else [some node]
  consistent : Consistent t'
  entered : Entered t (τ.keyOf cell.element.value) cell.element.value r.1 r.2 t'
  passed : if r.2 then node = Handle.default else node = handle ∧ t' = t

theorem insertHandle_spec (hinted : Bool) (ht : w.table? i = some t)
    (hcell : handle.value = some cell) (hh : w.handle? h = some handle) (hc : Consistent t)
    (hroom : Room t) :
    Action.Post U (insertHandle hinted i h) w
      (fun r w' => ∃ t' node, NodeInserted hinted w i h t handle cell r w' t' node)
      (fun _ => w.heap.fault ≠ none) := by
  unfold insertHandle
  refine post_readHandle (fun handle' hh' => ?_) fun hnone => ?_
  swap
  · rw [hh] at hnone
    cases hnone
  rw [hh] at hh'
  cases hh'
  have hmoving : Action.Post U (movingHandle h (onTable i (insertNode handle))) w
      (fun r w1 => ∃ t', w1.table? i = some t' ∧ (∀ k, k ≠ i → w1.table? k = w.table? k) ∧
        (∀ o, w1.handles.set h o = w.handles.set h o) ∧ Consistent t' ∧
        Entered t (τ.keyOf cell.element.value) cell.element.value r.1.position r.1.inserted t' ∧
        Passed handle t r t')
      (fun _ => w.heap.fault ≠ none) := by
    refine post_movingHandle (post_onTable (fun t1 ht1 => ?_) fun hnone => ?_)
    · cases ht.symm.trans ht1
      refine (insertNode_spec (s := ⟨t, _⟩) hcell hc hroom).mono ?_ ?_ fun _ h' => h'
      · rintro r s' ⟨hc', hentered, hpassed⟩
        have hself := table?_withStore_self (w := { w with heap := { w.heap with moved := false } })
          ht s'
        have helse := elsewhere_withStore { w with heap := { w.heap with moved := false } } i s'
        refine ⟨⟨s'.table, hself, fun k hk => helse k (Ne.symm hk), fun _ => rfl, hc', hentered,
          hpassed⟩, s'.table, hself, fun k hk => helse k (Ne.symm hk), fun o => ?_, hc', hentered,
          hpassed⟩
        exact List.set_set ..
      · intro s' hthrown
        exact ⟨hthrown.fault, hthrown.fault⟩
    · cases ht.symm.trans hnone
  refine Action.Post.bind hmoving (fun _ h' => h') ?_
  rintro r w1 ⟨t', ht', helse, hset, hc', hentered, hrest, hnode⟩
  have hset' : w1.handles.set h (some r.2) =
      w.handles.set h (some ⟨none, handle.allocator⟩) := by
    rw [hset, hrest]
  cases hinted with
  | true =>
      refine ⟨t', r.1.node, ht', helse, ?_, hc', hentered, hnode⟩
      show w1.handles.set h (some r.2) = _ ++ []
      rw [hset', List.append_nil]
  | false =>
      refine ⟨t', r.1.node, ht', helse, ?_, hc', hentered, hnode⟩
      show w1.handles.set h (some r.2) ++ [some r.1.node] = _ ++ [some r.1.node]
      rw [hset']

/-! ## The law -/

/-- What the insertion of a node promises: the iterator that it returns designates the
element with the key; an absent key adds exactly the value of the handle and empties the
handle; a rejected node leaves the table alone and stays with the caller, in the handle
itself or in the node that is returned; and no element is lost. -/
structure KeepsNode (hinted : Bool) (w : World τ) (i h : ℕ) (t : Table τ) (cell : Cell τ)
    (it : ℕ) (w' : World τ) : Prop where
  designates : ∃ t' v, w'.table? i = some t' ∧ it ∈ t'.iteration ∧ valueAt t' it = some v ∧
    t'.keyEqual (τ.keyOf cell.element.value) (τ.keyOf v) = true
  entered : present τ.keyOf t.keyEqual (τ.keyOf cell.element.value) (contents t) = false →
    (∃ t', w'.table? i = some t' ∧ contents t' = contents t ++ [cell.element.value]) ∧
      (w'.handle? h).bind Handle.value = none
  rejected : present τ.keyOf t.keyEqual (τ.keyOf cell.element.value) (contents t) = true →
    w'.table? i = some t ∧
      (if hinted then w'.handle? h else w'.handle? w.handles.length).bind Handle.value = some cell
  conserved : heldValues w' i = heldValues w i

section

variable {hinted : Bool} {r : ℕ × Bool} {t' : Table τ} {node : Handle τ}

/-- The handle that was inserted is empty. -/
theorem NodeInserted.emptied (hi : NodeInserted hinted w i h t handle cell r w' t' node)
    (hh : w.handle? h = some handle) : w'.handle? h = some ⟨none, handle.allocator⟩ := by
  have hlt : h < w.handles.length := lt_of_join_eq_some hh
  unfold World.handle?
  rw [hi.handles, List.getElem?_append_left (by rwa [List.length_set]), List.getElem?_set_self hlt]
  rfl

/-- What the handles hold afterwards: the caller's has lost its value, and a node that is
not dropped may have it. -/
theorem NodeInserted.sum_handles (hi : NodeInserted hinted w i h t handle cell r w' t' node)
    (hh : w.handle? h = some handle) (hcell : handle.value = some cell) :
    (w'.handles.map heldBy).sum + {cell.element.value} =
      (w.handles.map heldBy).sum + if hinted then 0 else heldBy (some node) := by
  have hold : heldBy (some handle) = {cell.element.value} := by
    unfold heldBy
    rw [Option.bind_some, hcell]
    rfl
  have hset := sum_heldBy_set (getElem?_of_handle? hh) (some ⟨none, handle.allocator⟩)
  rw [hold] at hset
  rw [hi.handles, List.map_append, List.sum_append, add_right_comm, hset]
  cases hinted with
  | true => exact add_zero _
  | false =>
      simp only [Bool.false_eq_true, if_false, List.map_cons, List.map_nil, List.sum_cons,
        List.sum_nil, add_zero]
      exact congrArg (· + heldBy (some node)) (add_zero _)

theorem NodeInserted.designates (hi : NodeInserted hinted w i h t handle cell r w' t' node)
    (hrefl : ∀ k, t.keyEqual k k = true) : ∃ t' v, w'.table? i = some t' ∧ r.1 ∈ t'.iteration ∧
      valueAt t' r.1 = some v ∧ t'.keyEqual (τ.keyOf cell.element.value) (τ.keyOf v) = true := by
  rcases hi.entered with ⟨-, -, hins⟩ | ⟨hflag, hlisted, hm, hsame, -⟩
  · refine ⟨t', cell.element.value, hi.table, ?_, hins.valueAt_new, ?_⟩
    · rw [hins.iteration]
      exact List.mem_append_right _ (List.mem_singleton_self _)
    · rw [hins.policy.keyEqual]
      exact hrefl _
  · have hpassed := hi.passed
    rw [hflag] at hpassed
    obtain ⟨v, hv, hequal⟩ := matches_iff_valueAt.mp hm
    refine ⟨t', v, hi.table, ?_, ?_, ?_⟩ <;> rw [hpassed.2]
    · exact hlisted
    · exact hv
    · exact hequal

theorem heldValues_of_table (ht : w.table? i = some t) :
    heldValues w i = (contents t : Multiset τ.Value) + (w.handles.map heldBy).sum := by
  unfold heldValues
  rw [ht]
  rfl

/-- A node with a new key is entered, by either overload. -/
theorem NodeInserted.keeps_absent (hi : NodeInserted hinted w i h t handle cell r w' t' node)
    (ht : w.table? i = some t) (hh : w.handle? h = some handle) (hcell : handle.value = some cell)
    (hc : Consistent t) (hrefl : ∀ k, t.keyEqual k k = true)
    (hnew : present τ.keyOf t.keyEqual (τ.keyOf cell.element.value) (contents t) = false) :
    KeepsNode hinted w i h t cell r.1 w' := by
  have hpassed := hi.passed
  have hsum := hi.sum_handles hh hcell
  rcases hi.entered with ⟨hflag, -, hins⟩ | ⟨-, hlisted, hm, -, -⟩
  · have hcontents := hins.contents hc
    rw [hflag, if_pos rfl] at hpassed
    refine ⟨hi.designates hrefl, fun _ => ⟨⟨t', hi.table, hcontents⟩, ?_⟩, fun hthere => ?_, ?_⟩
    · rw [hi.emptied hh]
      rfl
    · rw [hnew] at hthere
      cases hthere
    · have hnode : (if hinted then 0 else heldBy (some node)) = 0 := by
        rw [hpassed]
        cases hinted <;> rfl
      rw [hnode, add_zero] at hsum
      rw [heldValues_of_table hi.table, heldValues_of_table ht, hcontents, ← hsum,
        ← Multiset.coe_add, Multiset.coe_singleton]
      abel
  · rw [present_of_matches hlisted hm] at hnew
    cases hnew

/-- A node whose key is there is returned by the overload without a hint. -/
theorem NodeInserted.keeps_present (hi : NodeInserted false w i h t handle cell r w' t' node)
    (ht : w.table? i = some t) (hh : w.handle? h = some handle) (hcell : handle.value = some cell)
    (hlaw : LawfulTable t)
    (hthere : present τ.keyOf t.keyEqual (τ.keyOf cell.element.value) (contents t) = true) :
    KeepsNode false w i h t cell r.1 w' := by
  have hpassed := hi.passed
  have hsum := hi.sum_handles hh hcell
  rcases hi.entered with ⟨-, habs, -⟩ | ⟨hflag, -, -, -, -⟩
  · rw [habs.present_eq_false hlaw] at hthere
    cases hthere
  · rw [hflag, if_neg Bool.false_ne_true] at hpassed
    obtain ⟨rfl, rfl⟩ := hpassed
    refine ⟨hi.designates hlaw.refl, fun hnew => ?_, fun _ => ⟨hi.table, ?_⟩, ?_⟩
    · rw [hthere] at hnew
      cases hnew
    · have hlen : (w.handles.set h (some ⟨none, node.allocator⟩)).length = w.handles.length :=
        List.length_set
      have hreturned : w'.handle? w.handles.length = some node := by
        unfold World.handle?
        rw [hi.handles, ← hlen, List.getElem?_append_right le_rfl, Nat.sub_self]
        rfl
      rw [if_neg Bool.false_ne_true, hreturned]
      exact hcell
    · have hnode : heldBy (some node) = {cell.element.value} := by
        unfold heldBy
        rw [Option.bind_some, hcell]
        rfl
      rw [if_neg Bool.false_ne_true, hnode] at hsum
      rw [heldValues_of_table hi.table, heldValues_of_table ht, add_right_cancel hsum]

end

/-- For every table that a program can reach, both overloads keep the node or enter it,
except that the overload with a hint destroys a node that it rejects. -/
theorem keepsNode_iff (hreach : Reachable t) (ht : w.table? i = some t)
    (hh : w.handle? h = some handle) (hcell : handle.value = some cell)
    (hquiet : w.heap.fault = none) (hinted : Bool) :
    ∃ r w', (insertHandle hinted i h).run w = (.ok r, w') ∧
      (KeepsNode hinted w i h t cell r.1 w' ↔ (hinted = true →
        present τ.keyOf t.keyEqual (τ.keyOf cell.element.value) (contents t) = false)) := by
  obtain ⟨hw, hroom⟩ := hreach.sturdy
  have hlaw := hreach.lawful
  have hpost : Action.Post Stuck.never (insertHandle hinted i h) w
      (fun r w' => ∃ t' node, NodeInserted hinted w i h t handle cell r w' t' node)
      (fun _ => False) :=
    (insertHandle_spec hinted ht hcell hh hw.consistent hroom).mono (fun _ _ h' => h')
      (fun _ h' => h' hquiet) fun _ h' => h'
  obtain ⟨r, w', hrun, t', node, hi⟩ := hpost.returns
  refine ⟨r, w', hrun, fun hkeeps hhinted => ?_, fun hcond => ?_⟩
  · -- a hinted insertion that rejects the node leaves its handle empty
    rw [← Bool.not_eq_true]
    intro hpresent
    have howner := (hkeeps.rejected hpresent).2
    rw [if_pos hhinted, hi.emptied hh] at howner
    cases howner
  · by_cases hnew : present τ.keyOf t.keyEqual (τ.keyOf cell.element.value) (contents t) = false
    · exact hi.keeps_absent ht hh hcell hw.consistent hlaw.refl hnew
    · have hhinted : hinted = false := Bool.eq_false_iff.mpr fun htrue => hnew (hcond htrue)
      subst hhinted
      exact hi.keeps_present ht hh hcell hlaw (Bool.not_eq_false _ ▸ hnew)

/-- A map from which the key 1 has been extracted; the node is in handle 0. -/
def extractedSteps : List (Step NatMap) :=
  [⟨.construct 0 (fun k => UInt64.ofNat k) (fun a b => a == b) (), none⟩,
    ⟨.table 0 (.insert (1, 10)), none⟩, ⟨.table 0 (.insert (2, 20)), none⟩,
    ⟨.table 0 (.extractKey 1), none⟩]

/-- The same map after the key 1 has been inserted again. -/
def reinsertedSteps : List (Step NatMap) :=
  extractedSteps ++ [⟨.table 0 (.insert (1, 11)), none⟩]

theorem extracted_reachable : Reachable
    (((finish World.empty extractedSteps).table? 0).get (by decide +kernel)) := by
  refine reachable_of_completes (by decide +kernel) (by decide +kernel) ?_ _
  simp only [extractedSteps, List.forall_mem_cons, List.not_mem_nil, LawfulFunctors]
  exact ⟨lawful_beq _, trivial, trivial, trivial, fun _ h => h.elim⟩

theorem reinserted_reachable : Reachable
    (((finish World.empty reinsertedSteps).table? 0).get (by decide +kernel)) := by
  refine reachable_of_completes (by decide +kernel) (by decide +kernel) ?_ _
  simp only [reinsertedSteps, extractedSteps, List.cons_append, List.nil_append,
    List.forall_mem_cons, List.not_mem_nil, LawfulFunctors]
  exact ⟨lawful_beq _, trivial, trivial, trivial, trivial, fun _ h => h.elim⟩

theorem keepsNode_iff_extracted :
    ∃ r w', (insertHandle true 0 0).run (finish World.empty extractedSteps) = (.ok r, w') ∧
      KeepsNode true (finish World.empty extractedSteps) 0 0
        (((finish World.empty extractedSteps).table? 0).get (by decide +kernel))
        (((((finish World.empty extractedSteps).handle? 0).get (by decide +kernel)).value).get
          (by decide +kernel)) r.1 w' := by
  obtain ⟨r, w', hrun, hiff⟩ := keepsNode_iff extracted_reachable (i := 0) (h := 0)
    (w := finish World.empty extractedSteps) (Option.some_get (by decide +kernel)).symm
    (Option.some_get (by decide +kernel)).symm (Option.some_get (by decide +kernel)).symm
    (by decide +kernel) true
  exact ⟨r, w', hrun, hiff.mpr fun _ => by decide +kernel⟩

/-- The node with the key 1 is rejected by the overload with a hint, and neither the table
nor a handle has its element (1, 10) afterwards. -/
theorem rejected_hint_loses_element :
    Reachable (((finish World.empty reinsertedSteps).table? 0).get (by decide +kernel)) ∧
    ((insertHandle true 0 0).run (finish World.empty reinsertedSteps)).1 = .ok (0, false) ∧
    heldValues (finish World.empty reinsertedSteps) 0 = {(2, 20), (1, 11), (1, 10)} ∧
    heldValues ((insertHandle true 0 0).run (finish World.empty reinsertedSteps)).2 0 =
      {(2, 20), (1, 11)} ∧
    ¬ KeepsNode true (finish World.empty reinsertedSteps) 0 0
      (((finish World.empty reinsertedSteps).table? 0).get (by decide +kernel))
      (((((finish World.empty reinsertedSteps).handle? 0).get (by decide +kernel)).value).get
        (by decide +kernel)) 0
      ((insertHandle true 0 0).run (finish World.empty reinsertedSteps)).2 := by
  have hbefore : heldValues (finish World.empty reinsertedSteps) 0 =
      {(2, 20), (1, 11), (1, 10)} := by decide +kernel
  have hafter : heldValues ((insertHandle true 0 0).run (finish World.empty reinsertedSteps)).2 0 =
      {(2, 20), (1, 11)} := by decide +kernel
  refine ⟨reinserted_reachable, by decide +kernel, hbefore, hafter, fun hkeeps => ?_⟩
  have hconserved := hkeeps.conserved
  rw [hbefore, hafter] at hconserved
  exact absurd hconserved (by decide)

end Fum.Interface

import Fum.Analysis.Contents
import Fum.Analysis.Reachability

/-!
# Walks that erase

A loop over the elements of a table that erases some of them on its way. An iterator is a
position of the iteration vector; an erasure frees a position, and its iterator is the
position again.
-/

set_option autoImplicit false

namespace Fum.Analysis

open Fum.Model Effects SwapRemove

variable {τ : Traits} {β : Type} {U : Stuck → Prop} {s s' : Store τ} {t t' : Table τ} {p : ℕ}
  {predicate : List τ.Value → τ.Value → Bool}

/-! ## One step -/

/-- A walk has come to the position `p` of a table that can be searched; nothing throws. -/
structure Walking (s : Store τ) (p : ℕ) : Prop where
  wellFormed : WellFormed s.table
  room : Room s.table
  lawful : LawfulTable s.table
  quiet : s.heap.fault = none
  within : p ≤ s.table.size

theorem Walking.start {heap : Heap} (hreach : Reachable t) (hquiet : heap.fault = none)
    (hp : p ≤ t.size) : Walking ⟨t, heap⟩ p :=
  ⟨hreach.sturdy.1, hreach.sturdy.2, hreach.lawful, hquiet, hp⟩

theorem Walking.null_iff (h : Walking s p) :
    nodeAtPosition s.table p = kNullIndex ↔ p = s.table.size := by
  constructor
  · intro hnull
    by_contra hne
    refine h.wellFormed.consistent.slots.nodeAtPosition_ne (q := s.table.size)
      (Nat.lt_of_le_of_ne h.within hne) le_rfl ?_
    rw [hnull, nodeAtPosition_size]
  · rintro rfl
    exact nodeAtPosition_size _

/-- The element at the position of a walk that is not over. -/
theorem Walking.element (h : Walking s p) (hp : p < s.table.size) :
    ∃ e, (s.table.nodeAt (nodeAtPosition s.table p)).storage = some e ∧
      (contents s.table)[p]? = some e.value := by
  have hget := nodeAtPosition_of_lt hp
  obtain ⟨e, he⟩ := Option.isSome_iff_exists.mp
    (h.wellFormed.consistent.live (List.mem_of_getElem? hget))
  exact ⟨e, he, h.wellFormed.consistent.getElem?_contents hget (valueAt_of_storage he)⟩

/-- The nodes that an iteration from the iterator `it` to `end()` visits. -/
def visitedFrom (t : Table τ) (it : ℕ) : Option (List ℕ) := t.range (kNullIndex + 1) it kNullIndex

theorem visitedFrom_position (hc : Consistent t) (hp : p ≤ t.size) :
    visitedFrom t (nodeAtPosition t p) = some (t.iteration.drop p) := by
  have hsize := hc.slots.size_le_null
  have hrange := hc.slots.range (fun _ hx => hc.live hx) le_rfl (t.size - p) (kNullIndex + 1) p
    (by omega) (by omega)
  rw [nodeAtPosition_size] at hrange
  unfold visitedFrom
  rw [hrange, List.take_of_length_le]
  rw [List.length_drop]
  exact le_rfl

theorem visitedFrom_end (t : Table τ) : visitedFrom t kNullIndex = some [] := by
  unfold visitedFrom
  rw [Table.range, if_pos rfl]

theorem nodeAtPosition_of_getElem? {x : ℕ} (hx : t.iteration[p]? = some x) :
    nodeAtPosition t p = x := by
  unfold nodeAtPosition
  rw [List.getD_eq_getElem?_getD, hx]
  rfl

theorem Walking.forward (h : Walking s p) (hp : p < s.table.size) : Walking s (p + 1) :=
  ⟨h.wellFormed, h.room, h.lawful, h.quiet, hp⟩

/-- The walk reads the element at its position. -/
theorem Walking.post_elementAt {k : Element τ → Exec τ β} {Q : β → Store τ → Prop}
    {E : Store τ → Prop} (h : Walking s p) (hp : p < s.table.size)
    (hk : ∀ e, (contents s.table)[p]? = some e.value →
      (contents s.table).drop p = e.value :: (contents s.table).drop (p + 1) →
      Action.Post U (k e) s Q E) :
    Action.Post U (elementAt (nodeAtPosition s.table p) >>= k) s Q E := by
  obtain ⟨e, he, hvalue⟩ := h.element hp
  refine Analysis.post_elementAt (fun e' he' => ?_) fun hnone => ?_
  · rw [he] at he'
    cases he'
    obtain ⟨hlt, hget⟩ := List.getElem?_eq_some_iff.mp hvalue
    exact hk e hvalue (by rw [← hget, List.getElem_cons_drop])
  · rw [he] at hnone
    cases hnone

/-- The table after the erasure at the position `p`. -/
structure ErasedPosition (s : Store τ) (p : ℕ) (s' : Store τ) : Prop where
  erased : Erased s.table [nodeAtPosition s.table p] s'.table
  contents : contents s'.table = swapRemove (contents s.table) p
  order : s'.table.iteration = swapRemove s.table.iteration p
  size : s'.table.size + 1 = s.table.size
  walking : ∀ q, q + 1 ≤ s.table.size → Walking s' q

theorem Walking.erased (h : Walking s p) (hp : p < s.table.size) (hc' : Consistent s'.table)
    (he : Erased s.table [nodeAtPosition s.table p] s'.table) (hquiet : s'.heap.fault = none) :
    ErasedPosition s p s' := by
  have hget := nodeAtPosition_of_lt hp
  have hsize := he.size
  rw [List.length_singleton] at hsize
  refine ⟨he, he.contents h.wellFormed.consistent hget, ?_, hsize, fun q hq => ?_⟩
  · rw [he.order]
    exact swapErase_eq h.wellFormed.consistent.slots.iteration_nodup hget
  · exact ⟨h.wellFormed.of_erased he hc', he.room h.room, he.policy.lawfulTable.mpr h.lawful,
      hquiet, by omega⟩

/-- The iterator behind the erased element keeps its position, unless its element is the one
that takes the freed position. -/
theorem ErasedPosition.next (h : ErasedPosition s p s') (hp : p < s.table.size) :
    nodeAtPosition s.table (p + 1) =
      nodeAtPosition s'.table (if p + 2 < s.table.size then p + 1 else p) := by
  have hlen : s.table.iteration.length = s.table.size := rfl
  unfold nodeAtPosition
  rw [List.getD_eq_getElem?_getD, List.getD_eq_getElem?_getD, h.order]
  congr 1
  split
  · next hback => rw [getElem?_swapRemove (by omega), if_neg (by omega)]
  · next hback =>
      by_cases hlast : p + 1 < s.table.size
      · rw [getElem?_swapRemove (by omega), if_pos rfl, List.getLast?_eq_getElem?]
        congr 1
        omega
      · rw [List.getElem?_eq_none (by omega),
          List.getElem?_eq_none (by rw [length_swapRemove]; omega)]

/-- An erasure by iterator returns the iterator at the freed position. -/
theorem eraseAt_position (h : Walking s p) (hp : p < s.table.size) :
    Action.Post U (eraseAt (nodeAtPosition s.table p)) s
      (fun it s' => it = nodeAtPosition s'.table p ∧ ErasedPosition s p s') (fun _ => False) := by
  have hget := nodeAtPosition_of_lt hp
  have hmem := List.mem_of_getElem? hget
  have hc := h.wellFormed.consistent
  unfold eraseAt
  rw [post_getTable]
  have haux := hc.slots.position p _ hget
  simp only [haux]
  refine Action.Post.bind (eraseNode_spec (nodeAtPosition s.table p) hc h.room (fun hnone => ?_)
    (Or.inr h.lawful.refl)) (fun s' h' => (h'.fault h.quiet).elim) ?_
  · exact absurd hnone (hc.storage_ne_none hmem)
  · rintro ⟨⟩ s1 ⟨hc1, hpoint, hat⟩
    have herased := hat.erased h.lawful (h.wellFormed.distinct h.lawful) hc.filled
    rw [h.quiet] at hpoint
    rw [post_getTable]
    exact ⟨rfl, h.erased hp hc1 herased.2 (Option.map_eq_none_iff.mp hpoint)⟩

/-! ## `erase_if` -/

/-- From a position on, the loop asks about every element that stands there, in some order,
and keeps those to which the answer is no. -/
theorem eraseIfLoop_spec (fuel : ℕ) : ∀ (s : Store τ) (p erased : ℕ) (asked : List τ.Value),
    Walking s p → s.table.size < p + fuel →
      Action.Post U (eraseIfLoop predicate fuel (nodeAtPosition s.table p) erased asked) s
        (fun r s' => Walking s' s'.table.size ∧ ∃ l, r.2 = asked ++ l ∧
          l.Perm ((contents s.table).drop p) ∧
          contents s'.table = (contents s.table).take p ++ answered predicate false asked l ∧
          r.1 = erased + (answered predicate true asked l).length)
        (fun _ => False) := by
  induction fuel with
  | zero =>
      intro s p erased asked h hfuel
      exact absurd h.within (by omega)
  | succ fuel ih =>
      intro s p erased asked h hfuel
      have hlen := h.wellFormed.consistent.length_contents
      rw [eraseIfLoop]
      by_cases hend : p = s.table.size
      · rw [if_pos (h.null_iff.mpr hend), post_pure]
        refine ⟨hend ▸ h, [], (List.append_nil _).symm, ?_, ?_, rfl⟩
        · rw [List.drop_eq_nil_of_le (by omega)]
        · rw [List.take_of_length_le (by omega)]
          exact (List.append_nil _).symm
      · have hp : p < s.table.size := Nat.lt_of_le_of_ne h.within hend
        rw [if_neg (mt h.null_iff.mp hend)]
        refine h.post_elementAt hp fun e hvalue hdrop => ?_
        obtain ⟨hlt, hget⟩ := List.getElem?_eq_some_iff.mp hvalue
        split
        · next hyes =>
            -- the back, not yet asked about, takes the freed position
            refine Action.Post.bind (eraseAt_position h hp) (fun _ h' => h') ?_
            rintro following s1 ⟨rfl, h1⟩
            have hsize1 := h1.size
            refine (ih s1 p (erased + 1) (asked ++ [e.value]) (h1.walking p hp)
              (by omega)).mono ?_ (fun _ h' => h') fun _ h' => h'
            rintro r s2 ⟨hw2, l, hasked, hperm, hcontents, hcount⟩
            rw [h1.contents] at hperm hcontents
            refine ⟨hw2, e.value :: l, ?_, ?_, ?_, ?_⟩
            · rw [hasked, List.append_assoc]
              rfl
            · rw [hdrop]
              exact (hperm.trans (drop_swapRemove_perm hlt)).cons e.value
            · rw [hcontents, take_swapRemove hlt, answered_cons_ne (by simp [hyes])]
            · rw [hcount, answered_cons_eq hyes, List.length_cons]
              omega
        · next hno =>
            have hfalse : predicate asked e.value = false := Bool.eq_false_iff.mpr hno
            rw [post_getTable, h.wellFormed.consistent.slots.next hp]
            refine (ih s (p + 1) erased (asked ++ [e.value]) (h.forward hp) (by omega)).mono ?_
              (fun _ h' => h') fun _ h' => h'
            rintro r s2 ⟨hw2, l, hasked, hperm, hcontents, hcount⟩
            refine ⟨hw2, e.value :: l, ?_, ?_, ?_, ?_⟩
            · rw [hasked, List.append_assoc]
              rfl
            · rw [hdrop]
              exact hperm.cons e.value
            · rw [hcontents, answered_cons_eq hfalse, ← List.take_append_getElem hlt, hget,
                List.append_assoc]
              rfl
            · rw [hcount, answered_cons_ne (by simp [hfalse])]

theorem eraseIf_spec (h : Walking s 0) :
    Action.Post U (eraseIf predicate) s
      (fun r s' => Walking s' s'.table.size ∧ r.2.Perm (contents s.table) ∧
        contents s'.table = answered predicate false [] r.2 ∧
        r.1 = (answered predicate true [] r.2).length)
      (fun _ => False) := by
  have hsize := h.wellFormed.consistent.slots.size_le_null
  unfold eraseIf
  rw [post_getTable, begin_eq]
  refine (eraseIfLoop_spec (kNullIndex + 1) s 0 0 [] h (by omega)).mono ?_ (fun _ h' => h')
    fun _ h' => h'
  rintro r s' ⟨hw, l, hasked, hperm, hcontents, hcount⟩
  rw [List.nil_append] at hasked
  rw [List.drop_zero] at hperm
  rw [List.take_zero, List.nil_append] at hcontents
  rw [Nat.zero_add] at hcount
  subst hasked
  exact ⟨hw, hperm, hcontents, hcount⟩

end Fum.Analysis

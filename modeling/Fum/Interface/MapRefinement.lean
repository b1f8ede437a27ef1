import Fum.Analysis.QuietCalls
import Fum.Analysis.Representation
import Fum.Analysis.Walks
import Fum.Interface.EraseIf

/-!
# A hash table is a map

A table and a plain map start empty and are driven by the same calls, an iterator of the
table standing for the key of its element. Before each call and after the last one whatever
can be asked of the table is what the map says, and so is every reply.
-/

set_option autoImplicit false

namespace Fum.Interface

open Fum.Model Fum.Analysis Effects

variable {τ : Traits} {U : Stuck → Prop} {s : Store τ} {t : Table τ} {heap : Heap} {key : τ.Key}
  {m : List τ.Value} {equal : τ.Key → τ.Key → Bool}

/-! ## Looking at the table -/

/-- `count` is `contains` as a number. -/
theorem count_eq (key : τ.Key) :
    (count key : Exec τ ℕ) = contains key >>= fun present => pure present.toNat := by
  have hif : ∀ b n : ℕ, (if b = n then 0 else 1) = (b != n).toNat := by
    intro b n
    by_cases h : b = n
    · simp [h]
    · rw [if_neg h, bne_iff_ne.mpr h]
      rfl
  unfold count contains
  simp only [Action.bind_assoc, Action.pure_bind, hif]

/-- What can be asked of the table is what the map says. -/
structure Agrees (t : Table τ) (m : List τ.Value) : Prop where
  size : t.size = m.length
  traversal : ∃ nodes, t.traversal = some nodes ∧ (nodes.map (valueAt t)).Perm (m.map some)
  find : ∀ heap key, heap.fault = none → ∃ it, (find key).run ⟨t, heap⟩ = (.ok it, ⟨t, heap⟩) ∧
    Designates t it (entryFor t m key)
  contains : ∀ heap key, heap.fault = none →
    (contains key).run ⟨t, heap⟩ = (.ok (entryFor t m key).isSome, ⟨t, heap⟩)
  count : ∀ heap key, heap.fault = none →
    (count key).run ⟨t, heap⟩ = (.ok (entryFor t m key).isSome.toNat, ⟨t, heap⟩)
  atKey : ∀ heap key, heap.fault = none → (atKey key).run ⟨t, heap⟩ =
    (.ok ((entryFor t m key).elim (.error "fum::unordered_map::at: key not found") fun v =>
      .ok (τ.mappedOf v)), ⟨t, heap⟩)
  equalRange : ∀ heap key, heap.fault = none → ∃ r nodes,
    (equalRange key).run ⟨t, heap⟩ = (.ok r, ⟨t, heap⟩) ∧ Designates t r.1 (entryFor t m key) ∧
    t.range (kNullIndex + 1) r.1 r.2 = some nodes ∧
    nodes.map (valueAt t) = (entryFor t m key).toList.map some

/-- The range from a listed node to the next one is the node. -/
theorem range_next (hc : Consistent t) {x : ℕ} (hx : x ∈ t.iteration) :
    t.range (kNullIndex + 1) x (t.next x) = some [x] := by
  obtain ⟨p, hp⟩ := List.getElem?_of_mem hx
  obtain ⟨hlt, hget⟩ := List.getElem?_eq_some_iff.mp hp
  have hnode : nodeAtPosition t p = x := nodeAtPosition_of_getElem? hp
  have hnext : t.next x = nodeAtPosition t (p + 1) := by
    rw [← hnode]
    exact hc.slots.next hlt
  have hrange := hc.slots.range (fun i hi => hc.live hi) (q := p + 1) hlt 1 (kNullIndex + 1) p rfl
    (by simp [kNullIndex])
  rw [hnode, ← hnext, List.drop_eq_getElem_cons hlt, hget] at hrange
  rw [hrange]
  simp

theorem represents_contained {answer : Bool} (h : Playable equal t) (hm : Represents t m)
    (hcontained : Contained t key answer) : answer = (entryFor t m key).isSome := by
  rw [hm.present]
  cases answer with
  | true => exact (present_contents_iff.mpr hcontained).symm
  | false => exact (Absent.present_eq_false hcontained h.lawful).symm

theorem agrees_of_represents (h : Playable equal t) (hm : Represents t m) : Agrees t m := by
  have hc : Consistent t := h.wellFormed.consistent
  have hfind : ∀ heap : Heap, ∀ key, heap.fault = none →
      ∃ it, (find key).run ⟨t, heap⟩ = (.ok it, ⟨t, heap⟩) ∧
        Designates t it (entryFor t m key) := by
    intro heap key hquiet
    obtain ⟨it, hrun, hfound⟩ := run_find (s := ⟨t, heap⟩) hc h.room hquiet key
    exact ⟨it, hrun, hfound.designates hm h.wellFormed h.lawful⟩
  have hcontains : ∀ heap : Heap, ∀ key, heap.fault = none →
      (contains key).run ⟨t, heap⟩ = (.ok (entryFor t m key).isSome, ⟨t, heap⟩) := by
    intro heap key hquiet
    obtain ⟨answer, hrun, hcontained⟩ := run_contains (s := ⟨t, heap⟩) hc h.room hquiet key
    rw [hrun, represents_contained h hm hcontained]
  refine ⟨?_, ?_, hfind, hcontains, ?_, ?_, ?_⟩
  · rw [← hc.length_contents, hm.length_eq]
  · refine ⟨t.iteration, hc.slots.traversal fun i hi => hc.live hi, ?_⟩
    rw [hc.reads]
    exact hm.map some
  · intro heap key hquiet
    rw [count_eq, Action.run_bind_ok _ (hcontains heap key hquiet)]
    rfl
  · intro heap key hquiet
    obtain ⟨it, hrun, hit⟩ := hfind heap key hquiet
    unfold atKey
    rw [Action.run_bind_ok _ hrun]
    cases hentry : entryFor t m key with
    | none =>
        rw [hentry] at hit
        have hend : it = kNullIndex := hit
        rw [if_pos hend]
        rfl
    | some v =>
        rw [hentry] at hit
        obtain ⟨hlisted, hvalue⟩ := hit
        obtain ⟨e, he, rfl⟩ := Option.map_eq_some_iff.mp hvalue
        rw [if_neg (hc.slots.ne_null (Or.inl hlisted)).ne, Action.run_bind_ok _ (run_elementAt he)]
        rfl
  · intro heap key hquiet
    obtain ⟨it, hrun, hit⟩ := hfind heap key hquiet
    have htable : (getTable : Exec τ (Table τ)).run ⟨t, heap⟩ = (.ok t, ⟨t, heap⟩) := rfl
    unfold equalRange
    rw [Action.run_bind_ok _ hrun, Action.run_bind_ok _ htable]
    cases hentry : entryFor t m key with
    | none =>
        rw [hentry] at hit
        have hend : it = kNullIndex := hit
        refine ⟨(it, it), [], ?_, hit, ?_, rfl⟩
        · rw [if_pos hend]
          rfl
        · simp [Table.range]
    | some v =>
        rw [hentry] at hit
        refine ⟨(it, t.next it), [it], ?_, hit, range_next hc hit.1, ?_⟩
        · rw [if_neg (hc.slots.ne_null (Or.inl hit.1)).ne]
          rfl
        · simp [hit.2]

/-! ## Driving both -/

/-- The calls have valid iterators and load factors of at most one, they ask for bucket counts
within `std::size_t`, and the map stays below 2 ^ 24 - 1 entries. -/
def Permits : Store τ → List τ.Value → List (Op τ) → Prop
  | _, _, [] => True
  | s, m, op :: rest =>
      (ValidIn s.table op ∧ Modest op ∧ SizableIn s.table op ∧
        (mapAfter s.table m op).length < 2 ^ 24 - 1) ∧
        Permits ((quietly op.exec).run s).2 (mapAfter s.table m op) rest

instance Permits.decidable : ∀ (ops : List (Op τ)) (s : Store τ) (m : List τ.Value),
    Decidable (Permits s m ops)
  | [], _, _ => isTrue trivial
  | op :: rest, s, m =>
      @instDecidableAnd _ _ _
        (Permits.decidable rest ((quietly op.exec).run s).2 (mapAfter s.table m op))

/-- Both agree before each call and after the last one, and each call returns the reply of the
map. -/
def Refines : Store τ → List τ.Value → List (Op τ) → Prop
  | s, m, [] => Agrees s.table m
  | s, m, op :: rest => Agrees s.table m ∧ ∃ reply s', (quietly op.exec).run s = (.ok reply, s') ∧
      Answers s.table s'.table m (mapAfter s.table m op) reply op ∧
      Refines s' (mapAfter s.table m op) rest

theorem refines_of_represents (ops : List (Op τ)) : ∀ (s : Store τ) (m : List τ.Value),
    Playable equal s.table → Represents s.table m → Permits s m ops → Refines s m ops := by
  induction ops with
  | nil => exact fun s m h hm _ => agrees_of_represents h hm
  | cons op rest ih =>
      intro s m h hm hpermits
      obtain ⟨⟨hvalid, hmodest, hsizable, hsize⟩, hrest⟩ := hpermits
      have hroom : (mapAfter s.table m op).length + 2 ≤ 2 ^ 24 := by omega
      obtain ⟨reply, s', hrun, h', hm', hanswers⟩ := (post_quietly (Op.exec_plain
        (U := Stuck.never) (s := ⟨s.table, { s.heap with fault := none }⟩) op h hm rfl hvalid
        hmodest hsizable hroom)).returns
      rw [hrun] at hrest
      exact ⟨agrees_of_represents h hm, reply, s', hrun, hanswers, ih s' _ h' hm' hrest⟩

/-- A table that starts empty is the map that starts empty. -/
theorem map_refinement (hreach : Reachable t) (hmoderate : Moderate t) (hempty : t.size = 0)
    (heap : Heap) {ops : List (Op τ)} (hpermits : Permits ⟨t, heap⟩ [] ops) :
    Refines ⟨t, heap⟩ [] ops := by
  have h : Playable t.keyEqual t :=
    ⟨hreach.sturdy.1, hreach.sturdy.2, hreach.lawful, hmoderate, rfl⟩
  have hm : Represents t [] := by
    have hnone : t.iteration = [] := List.eq_nil_of_length_eq_zero hempty
    simp [Represents, contents, hnone]
  exact refines_of_represents ops ⟨t, heap⟩ [] h hm hpermits

/-- A map whose keys all have one hash. -/
def collidedSteps : List (Step NatMap) := [⟨.construct 0 (fun _ => 7) (fun a b => a == b) (), none⟩]

theorem collided_made : ((finish World.empty collidedSteps).table? 0).isSome := by decide +kernel

theorem collided_reachable :
    Reachable (((finish World.empty collidedSteps).table? 0).get collided_made) := by
  refine reachable_of_completes (by decide +kernel) (by decide +kernel) ?_ _
  simp only [collidedSteps, List.forall_mem_cons, List.not_mem_nil, LawfulFunctors]
  exact ⟨lawful_beq _, fun _ h => h.elim⟩

theorem map_refinement_collided : Refines
    ⟨((finish World.empty collidedSteps).table? 0).get collided_made, Heap.empty⟩ []
    [.insert (1, 10), .tryEmplace 2 20, .insert (1, 11), .insertOrAssign 2 21,
      .insertOrAssign 3 30, .eraseKey 1, .rehash 64, .maxLoadFactor (.finite (1 / 2) rfl),
      .eraseAt 1, .insert (4, 40), .eraseRange 2 kNullIndex, .find 3] :=
  map_refinement collided_reachable (by decide +kernel) (by decide +kernel) Heap.empty
    (by decide +kernel)

end Fum.Interface

import Fum.Analysis.Arena
import Fum.Model.Container

/-!
# Iteration

An iterator is the index of a node; its position in the iteration vector is what the
node's link field says, so stepping it forward walks the vector.
-/

set_option autoImplicit false

namespace Fum.Analysis

open Fum.Model

variable {τ : Traits} {t : Table τ} {pending : List ℕ}

/-- The node at a position of the vector, `end()` past its back. -/
def nodeAtPosition (t : Table τ) (p : ℕ) : ℕ := t.iteration.getD p kNullIndex

theorem nodeAtPosition_of_lt {p : ℕ} (hp : p < t.size) :
    t.iteration[p]? = some (nodeAtPosition t p) := by
  have hlt : p < t.iteration.length := hp
  unfold nodeAtPosition
  rw [List.getD_eq_getElem?_getD, List.getElem?_eq_getElem hlt]
  rfl

theorem nodeAtPosition_size (t : Table τ) : nodeAtPosition t t.size = kNullIndex := by
  unfold nodeAtPosition Table.size
  rw [List.getD_eq_getElem?_getD, List.getElem?_eq_none le_rfl]
  rfl

theorem begin_eq (t : Table τ) : t.begin = nodeAtPosition t 0 := by
  unfold Table.begin nodeAtPosition
  cases t.iteration <;> rfl

theorem Slots.size_le_null (h : Slots t pending) : t.size ≤ kNullIndex := by
  have h1 := h.size_le
  have h2 := h.bounded
  omega

/-- `++` moves one position forward. -/
theorem Slots.next (h : Slots t pending) {p : ℕ} (hp : p < t.size) :
    t.next (nodeAtPosition t p) = nodeAtPosition t (p + 1) := by
  have haux := h.position p _ (nodeAtPosition_of_lt hp)
  have hsize := h.size_le_null
  have hnull : kNullIndex < 2 ^ 32 := by decide
  have hwrap : wrap32 (p + 1) = p + 1 := Nat.mod_eq_of_lt (by omega)
  unfold Table.next
  rw [haux, hwrap]
  rfl

/-- Two positions hold different nodes. -/
theorem Slots.nodeAtPosition_ne (h : Slots t pending) {p q : ℕ} (hpq : p < q)
    (hq : q ≤ t.size) : nodeAtPosition t p ≠ nodeAtPosition t q := by
  have hp := nodeAtPosition_of_lt (t := t) (p := p) (by omega)
  intro heq
  rcases Nat.lt_or_ge q t.size with hlt | hge
  · have h1 := h.position p _ hp
    have h2 := h.position q _ (nodeAtPosition_of_lt hlt)
    rw [heq] at h1
    omega
  · rw [show q = t.size by omega, nodeAtPosition_size] at heq
    have hmem := List.mem_of_getElem? hp
    have hlt := h.ne_null (Or.inl hmem)
    omega

/-- The walk from one position to a later one visits the nodes between them. -/
theorem Slots.range (h : Slots t pending)
    (hf : ∀ i ∈ t.iteration, (t.nodeAt i).storage.isSome) {q : ℕ} (hq : q ≤ t.size) :
    ∀ (n fuel p : ℕ), p + n = q → n < fuel →
      t.range fuel (nodeAtPosition t p) (nodeAtPosition t q) =
        some ((t.iteration.drop p).take n) := by
  intro n
  induction n with
  | zero =>
      intro fuel p hp hfuel
      obtain ⟨fuel, rfl⟩ : ∃ m, fuel = m + 1 := ⟨fuel - 1, by omega⟩
      rw [Nat.add_zero] at hp
      rw [Table.range, if_pos (by rw [hp]), List.take_zero]
  | succ n ih =>
      intro fuel p hp hfuel
      obtain ⟨fuel, rfl⟩ : ∃ m, fuel = m + 1 := ⟨fuel - 1, by omega⟩
      have hlt : p < t.size := by omega
      have hget := nodeAtPosition_of_lt hlt
      have hne := h.nodeAtPosition_ne (show p < q by omega) hq
      have hdrop : t.iteration.drop p = nodeAtPosition t p :: t.iteration.drop (p + 1) :=
        List.drop_eq_getElem?_toList_append.trans (by rw [hget]; rfl)
      rw [Table.range, if_neg hne, if_pos (hf _ (List.mem_of_getElem? hget)), h.next hlt,
        ih fuel (p + 1) (by omega) (by omega), hdrop, List.take_succ_cons]
      rfl

/-- Whatever walk reaches its end visits a stretch of the vector. -/
theorem Slots.range_sublist (h : Slots t pending) (hf : Filled t t.iteration) {last : ℕ} :
    ∀ (fuel p : ℕ) (l : List ℕ), p ≤ t.size → t.range fuel (nodeAtPosition t p) last = some l →
      l.Sublist (t.iteration.drop p) := by
  intro fuel
  induction fuel with
  | zero =>
      intro p l _ hrange
      rw [Table.range] at hrange
      cases hrange
  | succ fuel ih =>
      intro p l hp hrange
      rw [Table.range] at hrange
      split at hrange
      · cases hrange
        exact List.nil_sublist _
      · split at hrange
        · next hlive =>
            have hmem := (hf _).mp hlive
            have hlt : p < t.size := by
              rcases Nat.lt_or_ge p t.size with hlt | hge
              · exact hlt
              · rw [Nat.le_antisymm hp hge, nodeAtPosition_size] at hmem
                exact absurd (h.ne_null (Or.inl hmem)) (lt_irrefl _)
            rw [h.next hlt] at hrange
            obtain ⟨rest, hrest, rfl⟩ := Option.map_eq_some_iff.mp hrange
            have hdrop : t.iteration.drop p = nodeAtPosition t p :: t.iteration.drop (p + 1) := by
              have hget := nodeAtPosition_of_lt hlt
              exact List.drop_eq_getElem?_toList_append.trans (by rw [hget]; rfl)
            rw [hdrop]
            exact (ih (p + 1) rest hlt hrest).cons_cons _
        · cases hrange

/-- The nodes of a range are elements, each once. -/
theorem Slots.range_nodup (h : Slots t pending) (hf : Filled t t.iteration) {fuel first last : ℕ}
    {l : List ℕ} (hrange : t.range fuel first last = some l) :
    l.Nodup ∧ ∀ x ∈ l, x ∈ t.iteration := by
  have hsub : l.Sublist t.iteration := by
    cases l with
    | nil => exact List.nil_sublist _
    | cons x l =>
        have hlive : (t.nodeAt first).storage.isSome := by
          cases fuel with
          | zero =>
              rw [Table.range] at hrange
              cases hrange
          | succ fuel =>
              rw [Table.range] at hrange
              split at hrange
              · cases hrange
              · split at hrange
                · assumption
                · cases hrange
        obtain ⟨p, hp⟩ := List.mem_iff_getElem?.mp ((hf first).mp hlive)
        have hlt : p < t.size := (List.getElem?_eq_some_iff.mp hp).1
        have hpos := nodeAtPosition_of_lt hlt
        rw [hp] at hpos
        cases hpos
        exact (h.range_sublist hf fuel p _ hlt.le hrange).trans (List.drop_sublist p _)
  exact ⟨h.iteration_nodup.sublist hsub, fun x hx => hsub.subset hx⟩

/-- An iteration from `begin()` to `end()` visits the vector. -/
theorem Slots.traversal (h : Slots t pending)
    (hf : ∀ i ∈ t.iteration, (t.nodeAt i).storage.isSome) :
    t.traversal = some t.iteration := by
  have hrange := h.range hf le_rfl t.size (kNullIndex + 1) 0 (Nat.zero_add _)
    (Nat.lt_succ_of_le h.size_le_null)
  rw [nodeAtPosition_size] at hrange
  unfold Table.traversal
  rw [begin_eq, hrange, List.drop_zero]
  unfold Table.size
  rw [List.take_length]

end Fum.Analysis

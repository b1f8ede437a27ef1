import Fum.Base.Layout

/-!
# The words of a layout

What is left of a Robin Hood layout when the items are forgotten: the order of the words,
and that each of them is some distance from some home. Placements and removals keep it
whatever they place and remove, and with an empty cell somewhere a carried word never
outgrows the number of occupied cells.
-/

set_option autoImplicit false

namespace RobinHood

variable {N u p e c : ℕ} {w : ℕ → ℕ}

/-- A distance of at most `N` units, with a fingerprint. -/
def Ranged (N u c : ℕ) : Prop := u ≤ c ∧ c < (N + 1) * u

/-- The words of an array are in order, whatever its items. -/
structure Words (N u : ℕ) (w : ℕ → ℕ) : Prop where
  linked : Linked N u w
  ranged : ∀ p < N, w p ≠ 0 → Ranged N u (w p)

theorem words_empty (N u : ℕ) : Words N u fun _ => 0 :=
  ⟨fun _ _ _ => Nat.zero_le _, fun _ _ h => absurd rfl h⟩

/-- The words of a layout are in order. -/
theorem Layout.words {α : Type} {home fp : α → ℕ} {item : ℕ → α}
    (L : Layout N u home fp w item) (hfp : ∀ x, fp x < u) : Words N u w where
  linked := L.linked
  ranged q hq hocc := by
    obtain ⟨d, hd, hword, -⟩ := L.seated q hq hocc
    have hlow : 1 * u ≤ (d + 1) * u := Nat.mul_le_mul_right u (by omega)
    have hhigh : (d + 1) * u ≤ N * u := Nat.mul_le_mul_right u hd
    have hN : (N + 1) * u = N * u + u := by ring
    have := hfp (item q)
    exact ⟨by omega, by omega⟩

/-- A word in the range is the word of some item with some home. -/
theorem Ranged.seat (h : Ranged N u c) (hu : 0 < u) (hp : p < N) :
    ∃ home f, f < u ∧ Seat N u (fun _ : Unit => home) (fun _ => f) p c () := by
  obtain ⟨hlow, hhigh⟩ := h
  have hdiv : 0 < c / u := Nat.div_pos hlow hu
  have hlt : c / u < N + 1 := Nat.div_lt_of_lt_mul (by rwa [Nat.mul_comm])
  refine ⟨p + (N - (c / u - 1)), c % u, Nat.mod_lt _ hu, c / u - 1, by omega, ?_, ?_⟩
  · show c = (c / u - 1 + 1) * u + c % u
    rw [Nat.sub_add_cancel hdiv, Nat.mul_comm, Nat.div_add_mod]
  · show p = (p + (N - (c / u - 1)) + (c / u - 1)) % N
    rw [Nat.add_assoc, Nat.sub_add_cancel (by omega), Nat.add_mod_right, Nat.mod_eq_of_lt hp]

/-- A word carried past an occupied cell stays in the range, and its distance is at most the
number of occupied cells. -/
theorem Linked.carry_ranged (hw : Linked N u w) (hu : 0 < u) (he : e < N) (hempty : w e = 0)
    (hp : p < N) (hc : Ranged N u c) (hfit : Fits N u w p c) (hocc : w p ≠ 0) :
    Ranged N u (c + u) ∧ c + u < ((occupied N w).card + 2) * u := by
  obtain ⟨home, f, hf, hseat⟩ := hc.seat hu hp
  obtain ⟨⟨d, hd, hword, -⟩, hbound⟩ := hw.carry hu he hempty hseat hfit hocc
  have hword' : c + u = (d + 1) * u + f := hword
  have hbound' : c + u ≤ ((occupied N w).card + 1) * u + f := hbound
  have hone : (d + 1) * u ≤ N * u := Nat.mul_le_mul_right u hd
  have hN : (N + 1) * u = N * u + u := by ring
  have hcard : ((occupied N w).card + 2) * u = ((occupied N w).card + 1) * u + u := by ring
  exact ⟨⟨Nat.le_add_left u c, by omega⟩, by omega⟩

/-! ## Placing a word -/

theorem occupied_update (hp : p < N) (hc : c ≠ 0) :
    occupied N (Function.update w p c) = insert p (occupied N w) := by
  ext q
  rw [mem_occupied, Finset.mem_insert, mem_occupied]
  by_cases hqp : q = p
  · subst hqp
    simp [hp, hc]
  · rw [Function.update_of_ne hqp]
    exact ⟨Or.inr, fun h => h.resolve_left hqp⟩

theorem Words.raise (hw : Words N u w) (h2 : 2 ≤ N) (hp : p < N) (hc : Ranged N u c)
    (hfit : Fits N u w p c) (hle : w p ≤ c) : Words N u (Function.update w p c) where
  linked := hw.linked.raise h2 hp hfit hle
  ranged q hq hocc := by
    by_cases hqp : q = p
    · subst hqp
      rwa [Function.update_self]
    · rw [Function.update_of_ne hqp] at hocc ⊢
      exact hw.ranged q hq hocc

/-! ## Removing a word -/

/-- The words are in order but for the cell `p`, which is being vacated. -/
structure WordGap (N u : ℕ) (w : ℕ → ℕ) (p : ℕ) : Prop where
  hole : Hole N u w p
  ranged : ∀ q < N, q ≠ p → w q ≠ 0 → Ranged N u (w q)

theorem Words.gap (hw : Words N u w) (hp : p < N) : WordGap N u w p :=
  ⟨hw.linked.hole hp, fun q hq _ => hw.ranged q hq⟩

theorem WordGap.shift (G : WordGap N u w p) (h3 : 3 ≤ N) (hp : p < N) (hu : 0 < u)
    (hnext : 2 * u ≤ w (succ N p)) :
    WordGap N u (Function.update w p (w (succ N p) - u)) (succ N p) where
  hole := G.hole.shift h3 hp hnext
  ranged q hq hqs hocc := by
    by_cases hqp : q = p
    · subst hqp
      rw [Function.update_self]
      have hs := G.ranged (succ N q) (succ_lt (by omega) q) (succ_ne (by omega) hq) (by omega)
      exact ⟨by omega, by have := hs.2; omega⟩
    · rw [Function.update_of_ne hqp] at hocc ⊢
      exact G.ranged q hq hqp hocc

theorem WordGap.close (G : WordGap N u w p) (hu : 0 < u) (hnext : w (succ N p) < 2 * u) :
    Words N u (Function.update w p 0) where
  linked := G.hole.close hu hnext
  ranged q hq hocc := by
    by_cases hqp : q = p
    · subst hqp
      rw [Function.update_self] at hocc
      exact absurd rfl hocc
    · rw [Function.update_of_ne hqp] at hocc ⊢
      exact G.ranged q hq hqp hocc

/-- The occupied cells other than the gap stay as many when the gap moves on. -/
theorem card_shift (h2 : 2 ≤ N) (hp : p < N) (hc : c ≠ 0) (hnext : w (succ N p) ≠ 0) :
    ((occupied N (Function.update w p c)).erase (succ N p)).card =
      ((occupied N w).erase p).card := by
  have hs : succ N p ∈ occupied N w := mem_occupied.mpr ⟨succ_lt (by omega) p, hnext⟩
  have hp' := Finset.card_erase_add_one (Finset.mem_insert_self p (occupied N w))
  rw [Finset.erase_insert_eq_erase] at hp'
  rw [occupied_update hp hc, Finset.card_erase_of_mem (Finset.mem_insert_of_mem hs), ← hp',
    Nat.add_sub_cancel]

theorem occupied_close : occupied N (Function.update w p 0) = (occupied N w).erase p := by
  ext q
  rw [mem_occupied, Finset.mem_erase, mem_occupied]
  by_cases hqp : q = p
  · subst hqp
    simp
  · rw [Function.update_of_ne hqp]
    exact ⟨fun h => ⟨hqp, h⟩, fun h => h.2⟩

end RobinHood

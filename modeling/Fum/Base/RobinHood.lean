import Mathlib.Algebra.Order.Group.Finset
import Mathlib.Data.Finset.Card
import Mathlib.Data.Nat.ModEq
import Mathlib.Tactic.Linarith
import Mathlib.Tactic.Ring

/-!
# Robin Hood layouts

A cyclic array of `N` cells holds items. An item has a home index and a fingerprint
below the unit `u`; the word of the cell it sits in is `u` times its distance from
home, counted from one, plus the fingerprint, and an empty cell has the word zero.
Words therefore compare distances first and fingerprints second.

`Linked` is the local order condition of Robin Hood hashing: a cell whose item sits
away from home follows a cell whose word is at most one unit lower. The conditions of
insertion (`Linked.raise`) and of backward-shift removal (`Hole`) are one-step facts
about it; its global consequence is `Linked.reach`, the lower bound on every word
between an item and its home.
-/

set_option autoImplicit false

namespace RobinHood

/-! ## Cyclic indices -/

/-- The cyclic predecessor. -/
def pred (N p : ℕ) : ℕ := (p + N - 1) % N

/-- The cyclic successor. -/
def succ (N p : ℕ) : ℕ := (p + 1) % N

variable {N u p q : ℕ}

theorem succ_lt (hN : 0 < N) (p : ℕ) : succ N p < N := Nat.mod_lt _ hN

theorem pred_lt (hN : 0 < N) (p : ℕ) : pred N p < N := Nat.mod_lt _ hN

/-- The successor, by cases on the end of the array. -/
theorem succ_eq (hp : p < N) : succ N p = if p + 1 = N then 0 else p + 1 := by
  unfold succ
  split
  · next h => rw [h, Nat.mod_self]
  · exact Nat.mod_eq_of_lt (by omega)

/-- The predecessor, by cases on the start of the array. -/
theorem pred_eq (hp : p < N) : pred N p = if p = 0 then N - 1 else p - 1 := by
  unfold pred
  split
  · next h =>
      subst h
      rw [Nat.zero_add]
      exact Nat.mod_eq_of_lt (by omega)
  · rw [show p + N - 1 = p - 1 + N by omega, Nat.add_mod_right]
    exact Nat.mod_eq_of_lt (by omega)

theorem pred_succ (hp : p < N) : pred N (succ N p) = p := by
  rw [pred_eq (succ_lt (by omega) p), succ_eq hp]
  split <;> split <;> omega

theorem succ_pred (hp : p < N) : succ N (pred N p) = p := by
  rw [succ_eq (pred_lt (by omega) p), pred_eq hp]
  split <;> split <;> omega

theorem succ_ne (h2 : 2 ≤ N) (hp : p < N) : succ N p ≠ p := by
  rw [succ_eq hp]
  split <;> omega

theorem succ_succ_ne (h3 : 3 ≤ N) (hp : p < N) : succ N (succ N p) ≠ p := by
  rw [succ_eq (succ_lt (by omega) p), succ_eq hp]
  split <;> split <;> omega

theorem pred_ne (h2 : 2 ≤ N) (hp : p < N) : pred N p ≠ p := by
  rw [pred_eq hp]
  split <;> omega

/-- A cell is the successor of its predecessor only. -/
theorem eq_succ_of_pred_eq (hq : q < N) (h : pred N q = p) : q = succ N p := by
  rw [← h, succ_pred hq]

/-- One step on from a sum of indices. -/
theorem succ_add_mod (h d : ℕ) : succ N ((h + d) % N) = (h + (d + 1)) % N := by
  unfold succ
  rw [Nat.mod_add_mod, Nat.add_assoc]

/-- Some number of steps below `N` leads from one index to another. -/
theorem exists_steps (h : ℕ) {e : ℕ} (he : e < N) : ∃ j < N, (h + j) % N = e := by
  have hN : 0 < N := by omega
  refine ⟨(e + (N - h % N)) % N, Nat.mod_lt _ hN, ?_⟩
  rw [Nat.add_mod_mod, ← Nat.mod_add_mod, show h % N + (e + (N - h % N)) = e + N by
    have := Nat.mod_lt h hN
    omega, Nat.add_mod_right]
  exact Nat.mod_eq_of_lt he

/-- Between two cells lies at least one step. -/
theorem exists_steps_succ {p e : ℕ} (hp : p < N) (he : e < N) (hne : p ≠ e) :
    ∃ j, j + 1 < N ∧ (p + (j + 1)) % N = e := by
  obtain ⟨j, hj, hje⟩ := exists_steps p he
  cases j with
  | zero => exact absurd (by rwa [Nat.add_zero, Nat.mod_eq_of_lt hp] at hje) hne
  | succ j => exact ⟨j, hj, hje⟩

/-- Fewer than `N` steps from one index lead to different indices. -/
theorem steps_inj {h i j : ℕ} (hi : i < N) (hj : j < N) (heq : (h + i) % N = (h + j) % N) :
    i = j := by
  have hmod : Nat.ModEq N i j := Nat.ModEq.add_left_cancel' h heq
  rwa [Nat.ModEq, Nat.mod_eq_of_lt hi, Nat.mod_eq_of_lt hj] at hmod

/-! ## The order condition -/

variable {w : ℕ → ℕ}

/-- The word `c` keeps the order condition in cell `p`: away from home, it is at most
one unit above the word of the cell before. -/
def Fits (N u : ℕ) (w : ℕ → ℕ) (p c : ℕ) : Prop := 2 * u ≤ c → c ≤ w (pred N p) + u

/-- Every cell keeps the order condition. -/
def Linked (N u : ℕ) (w : ℕ → ℕ) : Prop := ∀ p < N, Fits N u w p (w p)

/-- A word that is not above the one of a cell may go on to the next cell, one unit
higher. -/
theorem Fits.next (hp : p < N) {c : ℕ} (h : c ≤ w p) : Fits N u w (succ N p) (c + u) := by
  intro _
  rw [pred_succ hp]
  omega

/-- Raising a word keeps the order if the new word fits. -/
theorem Linked.raise (hw : Linked N u w) (h2 : 2 ≤ N) (hp : p < N) {c : ℕ}
    (hc : Fits N u w p c) (hle : w p ≤ c) : Linked N u (Function.update w p c) := by
  intro q hq hfar
  by_cases hqp : q = p
  · subst hqp
    rw [Function.update_self] at hfar ⊢
    rw [Function.update_of_ne (pred_ne h2 hq)]
    exact hc hfar
  · rw [Function.update_of_ne hqp] at hfar ⊢
    have hold := hw q hq hfar
    by_cases hprev : pred N q = p
    · rw [hprev] at hold ⊢
      rw [Function.update_self]
      omega
    · rwa [Function.update_of_ne hprev]

/-- The order condition while cell `p` is vacated: the cell after it, if it sits away
from home, may move one cell back. -/
structure Hole (N u : ℕ) (w : ℕ → ℕ) (p : ℕ) : Prop where
  others : ∀ q < N, q ≠ p → q ≠ succ N p → Fits N u w q (w q)
  after : 2 * u ≤ w (succ N p) → Fits N u w p (w (succ N p) - u)

/-- Vacating any cell of a linked array leaves a hole. -/
theorem Linked.hole (hw : Linked N u w) (hp : p < N) : Hole N u w p where
  others q hq _ _ := hw q hq
  after hnext hfar := by
    have hs := hw (succ N p) (succ_lt (by omega) p) hnext
    rw [pred_succ hp] at hs
    have hpp := hw p hp
    unfold Fits at hpp
    omega

/-- Moving the next cell back moves the hole forward. -/
theorem Hole.shift (h : Hole N u w p) (h3 : 3 ≤ N) (hp : p < N)
    (hnext : 2 * u ≤ w (succ N p)) :
    Hole N u (Function.update w p (w (succ N p) - u)) (succ N p) where
  others q hq hqs hqss hfar := by
    by_cases hqp : q = p
    · subst hqp
      rw [Function.update_self] at hfar ⊢
      rw [Function.update_of_ne (pred_ne (by omega) hq)]
      exact h.after hnext hfar
    · rw [Function.update_of_ne hqp] at hfar ⊢
      rw [Function.update_of_ne fun hpr => hqs (eq_succ_of_pred_eq hq hpr)]
      exact h.others q hq hqp hqs hfar
  after hnext' hfar := by
    have hs := succ_lt (show 0 < N by omega) p
    have hss := succ_succ_ne h3 hp
    rw [Function.update_of_ne hss] at hnext' hfar ⊢
    have hold := h.others (succ N (succ N p)) (succ_lt (by omega) _) hss
      (succ_ne (by omega) hs) hnext'
    rw [pred_succ hs] at hold
    rw [pred_succ hp, Function.update_self]
    omega

/-- Emptying the hole before a cell that is at home, or empty, restores the order. -/
theorem Hole.close (h : Hole N u w p) (hu : 0 < u) (hnext : w (succ N p) < 2 * u) :
    Linked N u (Function.update w p 0) := by
  intro q hq hfar
  by_cases hqp : q = p
  · subst hqp
    rw [Function.update_self] at hfar
    omega
  · rw [Function.update_of_ne hqp] at hfar ⊢
    by_cases hqs : q = succ N p
    · rw [hqs] at hfar
      omega
    · rw [Function.update_of_ne fun hpr => hqs (eq_succ_of_pred_eq hq hpr)]
      exact h.others q hq hqp hqs hfar

/-! ## Runs of occupied cells -/

/-- Between a home index and a cell `d` steps on whose word has the distance `d + 1`,
every word is at least as far out as its own distance from that home. The induction
walks back towards home, one unit a cell. -/
theorem Linked.reach (hw : Linked N u w) (hN : 0 < N) {h d f : ℕ}
    (hd : (d + 1) * u + f ≤ w ((h + d) % N)) :
    ∀ j ≤ d, (j + 1) * u + f ≤ w ((h + j) % N) := by
  induction d with
  | zero =>
      intro j hj
      rw [Nat.le_zero.mp hj]
      exact hd
  | succ d ih =>
      have hfit := hw ((h + (d + 1)) % N) (Nat.mod_lt _ hN)
      have hfar : 2 * u ≤ w ((h + (d + 1)) % N) := by
        have : 2 * u ≤ (d + 1 + 1) * u := Nat.mul_le_mul_right u (by omega)
        omega
      have hprev := hfit hfar
      rw [← succ_add_mod, pred_succ (Nat.mod_lt _ hN), succ_add_mod] at hprev
      have hbelow : (d + 1) * u + f ≤ w ((h + d) % N) := by
        have hmul : (d + 1 + 1) * u = (d + 1) * u + u := by ring
        omega
      intro j hj
      rcases Nat.lt_or_ge j (d + 1) with hlt | hge
      · exact ih hbelow j (by omega)
      · rw [show j = d + 1 by omega]
        exact hd

/-- The occupied cells. -/
def occupied (N : ℕ) (w : ℕ → ℕ) : Finset ℕ := (Finset.range N).filter fun p => w p ≠ 0

theorem mem_occupied : p ∈ occupied N w ↔ p < N ∧ w p ≠ 0 := by
  simp [occupied]

/-- A run of occupied cells never goes round an array with an empty cell. -/
theorem run_lt {e h d : ℕ} (he : e < N) (hempty : w e = 0)
    (hrun : ∀ j ≤ d, w ((h + j) % N) ≠ 0) : d + 1 < N := by
  by_contra hge
  obtain ⟨j, hj, hje⟩ := exists_steps h he
  exact hrun j (by omega) (hje ▸ hempty)

/-- A run of occupied cells is no longer than their number. -/
theorem run_le_card {h d : ℕ} (hd : d < N) (hrun : ∀ j ≤ d, w ((h + j) % N) ≠ 0) :
    d + 1 ≤ (occupied N w).card := by
  have hinj : Set.InjOn (fun j => (h + j) % N) (Finset.range (d + 1) : Set ℕ) := by
    intro i hi j hj heq
    simp only [Finset.coe_range, Set.mem_Iio] at hi hj
    exact steps_inj (by omega) (by omega) heq
  have hcard := Finset.card_le_card_of_injOn (t := occupied N w) _ (fun j hj => by
    have hjd : j < d + 1 := by simpa using hj
    exact mem_occupied.mpr ⟨Nat.mod_lt _ (by omega), hrun j (by omega)⟩) hinj
  simpa using hcard

/-! ## Walks along the array -/

/-- The first `m` indices met from `p` on. -/
def around (N p m : ℕ) : List ℕ := (List.range m).map fun i => (p + i) % N

@[simp] theorem length_around (N p m : ℕ) : (around N p m).length = m := by
  simp [around]

theorem around_succ (hp : p < N) (m : ℕ) : around N p (m + 1) = p :: around N (succ N p) m := by
  unfold around succ
  rw [List.range_succ_eq_map, List.map_cons, List.map_map, Nat.add_zero, Nat.mod_eq_of_lt hp]
  congr 1
  apply List.map_congr_left
  intro i _
  rw [Function.comp_apply, Nat.mod_add_mod, Nat.succ_eq_add_one, Nat.add_assoc, Nat.add_comm 1 i]

theorem lt_of_mem_around (hN : 0 < N) {m : ℕ} (h : q ∈ around N p m) : q < N := by
  obtain ⟨i, -, rfl⟩ := List.mem_map.mp h
  exact Nat.mod_lt _ hN

/-- A walk that is no longer than the array meets no index twice. -/
theorem nodup_around {m : ℕ} (hm : m ≤ N) : (around N p m).Nodup := by
  apply List.Nodup.map_on _ List.nodup_range
  intro i hi j hj heq
  rw [List.mem_range] at hi hj
  exact steps_inj (by omega) (by omega) heq

/-- A walk over occupied cells is no longer than their number. -/
theorem around_le_card {m : ℕ} (hm : m ≤ N) (hocc : ∀ q ∈ around N p m, w q ≠ 0) :
    m ≤ (occupied N w).card := by
  cases m with
  | zero => exact Nat.zero_le _
  | succ m =>
      apply run_le_card (h := p) (by omega)
      intro j hj
      apply hocc
      exact List.mem_map.mpr ⟨j, List.mem_range.mpr (by omega), rfl⟩

end RobinHood

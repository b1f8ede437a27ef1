import Fum.Base.RobinHood
import Mathlib.Data.Finset.Image
import Mathlib.Data.Set.Function

/-!
# Items in a Robin Hood layout

Where the items sit, and the canonical form: with at least one empty cell, the words of
a layout are a function of the home indices and fingerprints of its items alone
(`Layout.word_eq`). The proof needs no origin to break the cycle at. It counts, for a
cell and a bound, the items near the cell whose word there would reach the bound:
their number decides whether the cell's own word does (`Layout.le_word_iff`).
-/

set_option autoImplicit false

namespace RobinHood

variable {α β : Type} {N u p : ℕ} {home fp : α → ℕ} {w : ℕ → ℕ} {item : ℕ → α}

/-! ## Steps between indices -/

/-- The steps that lead from the index `h` forward to the index `p`. -/
def steps (N h p : ℕ) : ℕ := (p + (N - h % N)) % N

theorem steps_lt (hN : 0 < N) (h p : ℕ) : steps N h p < N := Nat.mod_lt _ hN

theorem add_steps (h : ℕ) (hp : p < N) : (h + steps N h p) % N = p := by
  have hN : 0 < N := by omega
  have hlt := Nat.mod_lt h hN
  unfold steps
  rw [Nat.add_mod_mod, ← Nat.mod_add_mod, show h % N + (p + (N - h % N)) = p + N by omega,
    Nat.add_mod_right]
  exact Nat.mod_eq_of_lt hp

theorem eq_steps {h d : ℕ} (hp : p < N) (hd : d < N) (heq : (h + d) % N = p) :
    d = steps N h p :=
  steps_inj hd (steps_lt (by omega) h p) (heq.trans (add_steps h hp).symm)

/-- The cell `j` steps before the cell `p`. -/
def back (N p j : ℕ) : ℕ := (p + (N - j)) % N

theorem back_lt (hp : p < N) (j : ℕ) : back N p j < N := Nat.mod_lt _ (by omega)

theorem back_add {j : ℕ} (hp : p < N) (hj : j ≤ N) : (back N p j + j) % N = p := by
  unfold back
  rw [Nat.mod_add_mod, show p + (N - j) + j = p + N by omega, Nat.add_mod_right,
    Nat.mod_eq_of_lt hp]

theorem eq_back {h j : ℕ} (hp : p < N) (hj : j ≤ N) (heq : (h + j) % N = p) :
    h % N = back N p j := by
  have hmod : Nat.ModEq N h (back N p j) :=
    Nat.ModEq.add_right_cancel' j (heq.trans (back_add hp hj).symm)
  rwa [Nat.ModEq, Nat.mod_eq_of_lt (back_lt hp j)] at hmod

/-! ## Seats -/

/-- The item `x` may sit in cell `p` with the word `c`: the word tells the steps from
its home, and its fingerprint. -/
def Seat (N u : ℕ) (home fp : α → ℕ) (p c : ℕ) (x : α) : Prop :=
  ∃ d < N, c = (d + 1) * u + fp x ∧ p = (home x + d) % N

theorem Seat.home_seat (hN : 0 < N) (x : α) (hhome : home x < N) :
    Seat N u home fp (home x) (u + fp x) x :=
  ⟨0, hN, by ring, by rw [Nat.add_zero, Nat.mod_eq_of_lt hhome]⟩

/-- A word of a seat is at least one unit. -/
theorem Seat.unit_le {c : ℕ} {x : α} (h : Seat N u home fp p c x) : u ≤ c := by
  obtain ⟨d, -, rfl, -⟩ := h
  have : u ≤ (d + 1) * u := Nat.le_mul_of_pos_left u (by omega)
  omega

/-- The seat one cell nearer to home. -/
theorem Seat.back (hp : p < N) (hu : ∀ x, fp x < u) {c : ℕ} {x : α}
    (h : Seat N u home fp (succ N p) c x) (hc : 2 * u ≤ c) : Seat N u home fp p (c - u) x := by
  obtain ⟨d, hd, rfl, hpos⟩ := h
  have hfp := hu x
  cases d with
  | zero =>
      exfalso
      have : (0 + 1) * u = u := by ring
      omega
  | succ d =>
      refine ⟨d, by omega, ?_, ?_⟩
      · have : (d + 1 + 1) * u = (d + 1) * u + u := by ring
        omega
      · rw [← succ_add_mod] at hpos
        rw [← pred_succ hp, hpos, pred_succ (Nat.mod_lt _ (by omega))]

/-- An array in which every cell keeps the order condition, every occupied cell is a
seat of its item, and no item sits twice. -/
structure Layout (N u : ℕ) (home fp : α → ℕ) (w : ℕ → ℕ) (item : ℕ → α) : Prop where
  linked : Linked N u w
  seated : ∀ p < N, w p ≠ 0 → Seat N u home fp p (w p) (item p)
  inj : ∀ p < N, ∀ q < N, w p ≠ 0 → w q ≠ 0 → item p = item q → p = q

/-- The item `x` sits somewhere. -/
def Holds (N : ℕ) (w : ℕ → ℕ) (item : ℕ → α) (x : α) : Prop := ∃ p < N, w p ≠ 0 ∧ item p = x

/-- The cells from the home of a seated word up to the cell before it are occupied. -/
theorem Linked.occupied_before (hw : Linked N u w) (hu : 0 < u) {c d : ℕ} {x : α} (hN : 0 < N)
    (hc : c = (d + 1) * u + fp x) (hpos : p = (home x + d) % N) (hfit : Fits N u w p c) :
    ∀ j < d, w ((home x + j) % N) ≠ 0 := by
  intro j hj
  cases d with
  | zero => omega
  | succ d =>
      have hmul : (d + 1 + 1) * u = (d + 1) * u + u := by ring
      have hle : u ≤ (d + 1) * u := Nat.le_mul_of_pos_left u (by omega)
      have hprev := hfit (by omega)
      rw [hpos, ← succ_add_mod, pred_succ (Nat.mod_lt _ hN)] at hprev
      have hreach := hw.reach hN (h := home x) (d := d) (f := fp x) (by omega) j (by omega)
      have : u ≤ (j + 1) * u := Nat.le_mul_of_pos_left u (by omega)
      omega

/-- A carried word that fits before an occupied cell is near its home: all cells from
there on are occupied, so with an empty cell somewhere it can go one cell further, and
its distance is at most the number of occupied cells. -/
theorem Linked.carry (hw : Linked N u w) (hu : 0 < u) {c : ℕ} {x : α} {e : ℕ} (he : e < N)
    (hempty : w e = 0) (hseat : Seat N u home fp p c x) (hfit : Fits N u w p c)
    (hocc : w p ≠ 0) :
    Seat N u home fp (succ N p) (c + u) x ∧
      c + u ≤ ((occupied N w).card + 1) * u + fp x := by
  obtain ⟨d, hd, hc, hpos⟩ := hseat
  have hbefore := hw.occupied_before hu (by omega) hc hpos hfit
  have hrun : ∀ j ≤ d, w ((home x + j) % N) ≠ 0 := by
    intro j hj
    rcases Nat.lt_or_ge j d with hlt | hge
    · exact hbefore j hlt
    · rw [show j = d by omega, ← hpos]
      exact hocc
  have hlt := run_lt he hempty hrun
  have hcard := run_le_card hd hrun
  refine ⟨⟨d + 1, hlt, ?_, ?_⟩, ?_⟩
  · rw [hc]
    ring
  · rw [hpos, succ_add_mod]
  · have hmul : (d + 1 + 1) * u ≤ ((occupied N w).card + 1) * u :=
      Nat.mul_le_mul_right u (by omega)
    have : (d + 1 + 1) * u = (d + 1) * u + u := by ring
    omega

/-! ## Placing and removing an item -/

/-- Placing an item that sits nowhere into a cell whose word is not higher: it takes the
cell, and the item that sat there, if any, sits nowhere. -/
theorem Layout.place (L : Layout N u home fp w item) (h2 : 2 ≤ N)
    (hp : p < N) {c : ℕ} {x : α} (hseat : Seat N u home fp p c x)
    (hfit : Fits N u w p c) (hle : w p ≤ c) (hx : ¬ Holds N w item x) :
    Layout N u home fp (Function.update w p c) (Function.update item p x) where
  linked := L.linked.raise h2 hp hfit hle
  seated q hq hocc := by
    by_cases hqp : q = p
    · subst hqp
      rw [Function.update_self, Function.update_self]
      exact hseat
    · rw [Function.update_of_ne hqp] at hocc ⊢
      rw [Function.update_of_ne hqp]
      exact L.seated q hq hocc
  inj q hq r hr hoccq hoccr heq := by
    by_cases hqp : q = p <;> by_cases hrp : r = p
    · rw [hqp, hrp]
    · subst hqp
      rw [Function.update_self, Function.update_of_ne hrp] at heq
      rw [Function.update_of_ne hrp] at hoccr
      exact absurd ⟨r, hr, hoccr, heq.symm⟩ hx
    · subst hrp
      rw [Function.update_self, Function.update_of_ne hqp] at heq
      rw [Function.update_of_ne hqp] at hoccq
      exact absurd ⟨q, hq, hoccq, heq⟩ hx
    · rw [Function.update_of_ne hqp] at heq hoccq
      rw [Function.update_of_ne hrp] at heq hoccr
      exact L.inj q hq r hr hoccq hoccr heq

/-- What sits in the cells after a placement. -/
theorem Layout.holds_place (L : Layout N u home fp w item) (hp : p < N)
    {c : ℕ} (hc : c ≠ 0) {x y : α} :
    Holds N (Function.update w p c) (Function.update item p x) y ↔
      y = x ∨ Holds N w item y ∧ (w p ≠ 0 → y ≠ item p) := by
  constructor
  · rintro ⟨q, hq, hocc, hitem⟩
    by_cases hqp : q = p
    · subst hqp
      rw [Function.update_self] at hitem
      exact Or.inl hitem.symm
    · rw [Function.update_of_ne hqp] at hitem hocc
      refine Or.inr ⟨⟨q, hq, hocc, hitem⟩, fun hwp heq => hqp ?_⟩
      exact L.inj q hq p hp hocc hwp (hitem.trans heq)
  · rintro (rfl | ⟨⟨q, hq, hocc, hitem⟩, hne⟩)
    · exact ⟨p, hp, by rwa [Function.update_self], by rw [Function.update_self]⟩
    · have hqp : q ≠ p := by
        rintro rfl
        exact hne hocc hitem.symm
      exact ⟨q, hq, by rwa [Function.update_of_ne hqp], by rwa [Function.update_of_ne hqp]⟩

/-- A layout with one cell vacated. -/
structure Gap (N u : ℕ) (home fp : α → ℕ) (w : ℕ → ℕ) (item : ℕ → α) (p : ℕ) : Prop where
  hole : Hole N u w p
  seated : ∀ q < N, q ≠ p → w q ≠ 0 → Seat N u home fp q (w q) (item q)
  inj : ∀ q < N, ∀ r < N, q ≠ p → r ≠ p → w q ≠ 0 → w r ≠ 0 → item q = item r → q = r

/-- The item `x` sits in a cell other than the vacated one. -/
def HoldsBut (N : ℕ) (w : ℕ → ℕ) (item : ℕ → α) (p : ℕ) (x : α) : Prop :=
  ∃ q < N, q ≠ p ∧ w q ≠ 0 ∧ item q = x

/-- Any cell can be vacated. -/
theorem Layout.gap (L : Layout N u home fp w item) (hp : p < N) :
    Gap N u home fp w item p where
  hole := L.linked.hole hp
  seated q hq _ hocc := L.seated q hq hocc
  inj q hq r hr _ _ hoccq hoccr heq := L.inj q hq r hr hoccq hoccr heq

/-- Vacating an occupied cell removes its item and nothing else. -/
theorem Layout.gap_holds (L : Layout N u home fp w item) (hp : p < N) (hocc : w p ≠ 0) {x : α} :
    HoldsBut N w item p x ↔ Holds N w item x ∧ x ≠ item p := by
  constructor
  · rintro ⟨q, hq, hqp, hwq, rfl⟩
    exact ⟨⟨q, hq, hwq, rfl⟩, fun heq => hqp (L.inj q hq p hp hwq hocc heq)⟩
  · rintro ⟨⟨q, hq, hwq, rfl⟩, hne⟩
    exact ⟨q, hq, fun hqp => hne (by rw [hqp]), hwq, rfl⟩

/-- The item after the gap, if it is away from home, moves into it. -/
theorem Gap.shift (G : Gap N u home fp w item p) (h3 : 3 ≤ N) (hp : p < N) (hu : ∀ x, fp x < u)
    (hnext : 2 * u ≤ w (succ N p)) :
    Gap N u home fp (Function.update w p (w (succ N p) - u))
      (Function.update item p (item (succ N p))) (succ N p) where
  hole := G.hole.shift h3 hp hnext
  seated q hq hqs hocc := by
    have hpos : 0 < u := Nat.lt_of_le_of_lt (Nat.zero_le _) (hu (item p))
    by_cases hqp : q = p
    · subst hqp
      rw [Function.update_self, Function.update_self]
      exact (G.seated _ (succ_lt (by omega) q) (succ_ne (by omega) hp) (by omega)).back hp hu hnext
    · rw [Function.update_of_ne hqp] at hocc ⊢
      rw [Function.update_of_ne hqp]
      exact G.seated q hq hqp hocc
  inj q hq r hr hqs hrs hoccq hoccr heq := by
    have hpos : 0 < u := Nat.lt_of_le_of_lt (Nat.zero_le _) (hu (item p))
    have hs := succ_lt (show 0 < N by omega) p
    have hsne := succ_ne (show 2 ≤ N by omega) hp
    have hsocc : w (succ N p) ≠ 0 := by omega
    by_cases hqp : q = p <;> by_cases hrp : r = p
    · rw [hqp, hrp]
    · subst hqp
      rw [Function.update_self, Function.update_of_ne hrp] at heq
      rw [Function.update_of_ne hrp] at hoccr
      exact absurd (G.inj _ hs r hr hsne hrp hsocc hoccr heq).symm hrs
    · subst hrp
      rw [Function.update_self, Function.update_of_ne hqp] at heq
      rw [Function.update_of_ne hqp] at hoccq
      exact absurd (G.inj q hq _ hs hqp hsne hoccq hsocc heq) hqs
    · rw [Function.update_of_ne hqp] at heq hoccq
      rw [Function.update_of_ne hrp] at heq hoccr
      exact G.inj q hq r hr hqp hrp hoccq hoccr heq

/-- Moving the next item into the gap keeps every item. -/
theorem Gap.holds_shift (h2 : 2 ≤ N) (hp : p < N) (hu : 0 < u)
    (hnext : 2 * u ≤ w (succ N p)) {x : α} :
    HoldsBut N (Function.update w p (w (succ N p) - u))
      (Function.update item p (item (succ N p))) (succ N p) x ↔ HoldsBut N w item p x := by
  have hs := succ_lt (show 0 < N by omega) p
  have hsne := succ_ne h2 hp
  constructor
  · rintro ⟨q, hq, hqs, hocc, hitem⟩
    by_cases hqp : q = p
    · subst hqp
      rw [Function.update_self] at hitem
      exact ⟨_, hs, hsne, by omega, hitem⟩
    · rw [Function.update_of_ne hqp] at hitem hocc
      exact ⟨q, hq, hqp, hocc, hitem⟩
  · rintro ⟨q, hq, hqp, hocc, hitem⟩
    by_cases hqs : q = succ N p
    · subst hqs
      refine ⟨p, hp, hsne.symm, ?_, ?_⟩
      · rw [Function.update_self]
        omega
      · rwa [Function.update_self]
    · exact ⟨q, hq, hqs, by rwa [Function.update_of_ne hqp], by rwa [Function.update_of_ne hqp]⟩

/-- Emptying the gap before a cell that is at home, or empty, leaves a layout. -/
theorem Gap.close (G : Gap N u home fp w item p) (hu : 0 < u)
    (hnext : w (succ N p) < 2 * u) (x : α) :
    Layout N u home fp (Function.update w p 0) (Function.update item p x) where
  linked := G.hole.close hu hnext
  seated q hq hocc := by
    have hqp : q ≠ p := by
      rintro rfl
      exact hocc (Function.update_self ..)
    rw [Function.update_of_ne hqp] at hocc ⊢
    rw [Function.update_of_ne hqp]
    exact G.seated q hq hqp hocc
  inj q hq r hr hoccq hoccr heq := by
    have hqp : q ≠ p := by
      rintro rfl
      exact hoccq (Function.update_self ..)
    have hrp : r ≠ p := by
      rintro rfl
      exact hoccr (Function.update_self ..)
    rw [Function.update_of_ne hqp] at heq hoccq
    rw [Function.update_of_ne hrp] at heq hoccr
    exact G.inj q hq r hr hqp hrp hoccq hoccr heq

/-- Emptying the gap removes no further item. -/
theorem Gap.holds_close {x y : α} :
    Holds N (Function.update w p 0) (Function.update item p x) y ↔ HoldsBut N w item p y := by
  constructor
  · rintro ⟨q, hq, hocc, hitem⟩
    have hqp : q ≠ p := by
      rintro rfl
      exact hocc (Function.update_self ..)
    rw [Function.update_of_ne hqp] at hitem hocc
    exact ⟨q, hq, hqp, hocc, hitem⟩
  · rintro ⟨q, hq, hqp, hocc, hitem⟩
    exact ⟨q, hq, by rwa [Function.update_of_ne hqp], by rwa [Function.update_of_ne hqp]⟩

/-! ## Counting items -/

/-- As many cells are occupied as items sit in them. -/
theorem Layout.card_occupied (L : Layout N u home fp w item) {X : Finset α}
    (hX : ∀ x, x ∈ X ↔ Holds N w item x) : (occupied N w).card = X.card := by
  refine Finset.card_nbij item (fun p hp => ?_) (fun p hp q hq heq => ?_) (fun x hx => ?_)
  · obtain ⟨hpN, hocc⟩ := mem_occupied.mp (Finset.mem_coe.mp hp)
    exact (hX _).mpr ⟨p, hpN, hocc, rfl⟩
  · obtain ⟨hpN, hoccp⟩ := mem_occupied.mp (Finset.mem_coe.mp hp)
    obtain ⟨hqN, hoccq⟩ := mem_occupied.mp (Finset.mem_coe.mp hq)
    exact L.inj p hpN q hqN hoccp hoccq heq
  · obtain ⟨p, hpN, hocc, hitem⟩ := (hX x).mp (Finset.mem_coe.mp hx)
    exact ⟨p, Finset.mem_coe.mpr (mem_occupied.mpr ⟨hpN, hocc⟩), hitem⟩

/-- Fewer items than cells leave a cell empty. -/
theorem exists_empty (h : (occupied N w).card < N) : ∃ e < N, w e = 0 := by
  by_contra hfull
  have hall : ∀ p < N, w p ≠ 0 := fun p hp h0 => hfull ⟨p, hp, h0⟩
  have heq : occupied N w = Finset.range N := by
    ext p
    rw [mem_occupied, Finset.mem_range]
    exact ⟨fun h => h.1, fun h => ⟨h, hall p h⟩⟩
  rw [heq, Finset.card_range] at h
  omega

/-! ## The canonical form -/

/-- The items of `X` that lie within `l` cells before `p` by their homes, and whose word
in `p` would be at least `c`. -/
def strong (N u : ℕ) (home fp : α → ℕ) (X : Finset α) (p c l : ℕ) : Finset α :=
  X.filter fun x => steps N (home x) p < l ∧ c ≤ (steps N (home x) p + 1) * u + fp x

/-- If a cell's word is below `c`, the strong items all sit before it, so there is no
room for as many as cells. -/
theorem Layout.strong_card_lt (L : Layout N u home fp w item) {X : Finset α}
    (hX : ∀ x ∈ X, Holds N w item x) {c l : ℕ} (hp : p < N) (hl : 0 < l) (hlow : w p < c) :
    (strong N u home fp X p c l).card < l := by
  have hN : 0 < N := by omega
  -- where the items of `X` sit, and how far from home
  have hpos : ∀ x ∈ X, ∃ d < N, w ((home x + d) % N) = (d + 1) * u + fp x ∧
      w ((home x + d) % N) ≠ 0 ∧ item ((home x + d) % N) = x := by
    intro x hx
    obtain ⟨q, hq, hocc, hitem⟩ := hX x hx
    obtain ⟨d, hd, hword, hqd⟩ := L.seated q hq hocc
    rw [hitem] at hword hqd
    exact ⟨d, hd, by rw [← hqd]; exact hword, by rw [← hqd]; exact hocc,
      by rw [← hqd]; exact hitem⟩
  choose! dist hdist using hpos
  have hbefore : ∀ x ∈ strong N u home fp X p c l, dist x < steps N (home x) p := by
    intro x hx
    obtain ⟨hxX, -, hstrong⟩ := Finset.mem_filter.mp hx
    obtain ⟨-, hword, -, -⟩ := hdist x hxX
    by_contra hge
    have hreach := L.linked.reach hN (h := home x) (d := dist x) (f := fp x) (by omega)
      (steps N (home x) p) (by omega)
    rw [add_steps _ hp] at hreach
    omega
  have hcard := Finset.card_le_card_of_injOn (s := strong N u home fp X p c l)
    (t := Finset.range (l - 1)) (fun x => steps N (home x) p - dist x - 1)
    (fun x hx => by
      have hb := hbefore x hx
      have hnear := (Finset.mem_filter.mp hx).2.1
      simp only [Finset.coe_range, Set.mem_Iio]
      omega)
    (fun x hx y hy heq => by
      have hbx := hbefore x hx
      have hby := hbefore y hy
      obtain ⟨hxX, -, -⟩ := Finset.mem_filter.mp hx
      obtain ⟨hyX, -, -⟩ := Finset.mem_filter.mp hy
      obtain ⟨-, -, -, hix⟩ := hdist x hxX
      obtain ⟨-, -, -, hiy⟩ := hdist y hyX
      have hstep : steps N (home x) p - dist x = steps N (home y) p - dist y := by
        simp only at heq
        omega
      -- both sit the same number of steps before `p`
      have hx' : (home x + dist x) % N = back N p (steps N (home x) p - dist x) := by
        apply eq_back hp ((Nat.sub_le _ _).trans (steps_lt hN _ _).le)
        rw [Nat.add_assoc, Nat.add_sub_cancel' hbx.le, add_steps _ hp]
      have hy' : (home y + dist y) % N = back N p (steps N (home y) p - dist y) := by
        apply eq_back hp ((Nat.sub_le _ _).trans (steps_lt hN _ _).le)
        rw [Nat.add_assoc, Nat.add_sub_cancel' hby.le, add_steps _ hp]
      rw [← hix, hx', hstep, ← hy', hiy])
  rw [Finset.card_range] at hcard
  omega

/-- The item `j` cells before `p` would have at least the word `c` in `p`. -/
def StrongCell (N u : ℕ) (w : ℕ → ℕ) (p c j : ℕ) : Prop :=
  w (back N p j) ≠ 0 ∧ c ≤ w (back N p j) + j * u

/-- Back from a cell with at least the word `c`, some first cell is not strong. -/
theorem exists_weak {c e : ℕ} (he : e < N) (hempty : w e = 0) (hp : p < N) (hc : 0 < c)
    (hhigh : c ≤ w p) :
    ∃ l, 0 < l ∧ l < N ∧ ¬ StrongCell N u w p c l ∧ ∀ j < l, StrongCell N u w p c j := by
  classical
  have hex : ∃ j, j < N ∧ ¬ StrongCell N u w p c j := by
    refine ⟨steps N e p, steps_lt (by omega) e p, fun h => h.1 ?_⟩
    rw [← eq_back hp (steps_lt (by omega) e p).le (add_steps e hp), Nat.mod_eq_of_lt he]
    exact hempty
  have hfirst := Nat.find_spec hex
  refine ⟨Nat.find hex, ?_, hfirst.1, hfirst.2, fun j hj => ?_⟩
  · rw [Nat.find_pos]
    rintro ⟨-, hweak⟩
    apply hweak
    have hb0 : back N p 0 = p := by
      rw [← eq_back hp (Nat.zero_le N) (Nat.mod_eq_of_lt hp), Nat.mod_eq_of_lt hp]
    unfold StrongCell
    rw [hb0]
    omega
  · by_contra hns
    exact Nat.find_min hex hj ⟨by omega, hns⟩

/-- The item of a strong cell has its home behind every cell before it that is not strong:
from its home on it would have made that cell strong. -/
theorem Layout.home_near (L : Layout N u home fp w item) (hu : 0 < u) (hp : p < N)
    {c l j : ℕ} (hlN : l < N) (hj : j < l) (hweak : ¬ StrongCell N u w p c l)
    (hstrong : StrongCell N u w p c j) :
    steps N (home (item (back N p j))) p < l ∧
      c ≤ (steps N (home (item (back N p j))) p + 1) * u + fp (item (back N p j)) := by
  have hN : 0 < N := by omega
  obtain ⟨hocc, hcj⟩ := hstrong
  obtain ⟨d, hd, hword, hpos⟩ := L.seated (back N p j) (back_lt hp j) hocc
  have hnear : d + j < l := by
    by_contra hge
    obtain ⟨i, rfl⟩ : ∃ i, d = i + (l - j) := ⟨d - (l - j), by omega⟩
    have hreach := L.linked.reach hN (h := home (item (back N p j))) (d := i + (l - j))
      (f := fp (item (back N p j))) (by rw [← hpos]; omega) i (by omega)
    have hcell : (home (item (back N p j)) + i) % N = back N p l := by
      apply eq_back hp hlN.le
      rw [show home (item (back N p j)) + i + l
        = home (item (back N p j)) + (i + (l - j)) + j by omega,
        ← Nat.mod_add_mod, ← hpos, back_add hp (by omega)]
    rw [hcell] at hreach
    have hle : u ≤ (i + 1) * u := Nat.le_mul_of_pos_left u (by omega)
    have hmul : (i + (l - j) + 1) * u + j * u = (i + 1) * u + l * u := by
      rw [← Nat.add_mul, ← Nat.add_mul, show i + (l - j) + 1 + j = i + 1 + l by omega]
    exact hweak ⟨by omega, by omega⟩
  have hsteps : d + j = steps N (home (item (back N p j))) p := by
    refine eq_steps hp (by omega) ?_
    rw [← Nat.add_assoc, ← Nat.mod_add_mod, ← hpos, back_add hp (by omega)]
  have hmul : (d + j + 1) * u = (d + 1) * u + j * u := by ring
  rw [← hsteps]
  exact ⟨hnear, by omega⟩

/-- If a cell's word is at least `c`, the cells from it back to the first that is not
strong hold that many strong items. -/
theorem Layout.exists_strong (L : Layout N u home fp w item) (hu : 0 < u) {X : Finset α}
    (hX : ∀ x, Holds N w item x → x ∈ X) {c e : ℕ} (he : e < N) (hempty : w e = 0)
    (hp : p < N) (hc : 0 < c) (hhigh : c ≤ w p) :
    ∃ l, 0 < l ∧ l ≤ (strong N u home fp X p c l).card := by
  obtain ⟨l, hl, hlN, hweak, hall⟩ := exists_weak (u := u) he hempty hp hc hhigh
  refine ⟨l, hl, ?_⟩
  have hcard := Finset.card_le_card_of_injOn (s := Finset.range l)
    (t := strong N u home fp X p c l) (fun j => item (back N p j))
    (fun j hj => by
      have hjl : j < l := by simpa using hj
      exact Finset.mem_coe.mpr (Finset.mem_filter.mpr
        ⟨hX _ ⟨_, back_lt hp j, (hall j hjl).1, rfl⟩, L.home_near hu hp hlN hjl hweak
          (hall j hjl)⟩))
    (fun i hi j hj heq => by
      have hil : i < l := by simpa using hi
      have hjl : j < l := by simpa using hj
      have hcell : back N p i = back N p j := L.inj _ (back_lt hp i) _ (back_lt hp j)
        (hall i hil).1 (hall j hjl).1 heq
      have hsum : (back N p j + i) % N = (back N p j + j) % N := by
        rw [back_add hp (by omega), ← hcell, back_add hp (by omega)]
      exact steps_inj (by omega) (by omega) hsum)
  rwa [Finset.card_range] at hcard

/-- The word of a cell reaches `c` exactly if for some length as many strong items lie
before the cell. -/
theorem Layout.le_word_iff (L : Layout N u home fp w item) (hu : 0 < u) {X : Finset α}
    (hX : ∀ x, x ∈ X ↔ Holds N w item x) {c e : ℕ} (he : e < N) (hempty : w e = 0)
    (hp : p < N) (hc : 0 < c) :
    c ≤ w p ↔ ∃ l, 0 < l ∧ l ≤ (strong N u home fp X p c l).card := by
  constructor
  · exact L.exists_strong hu (fun x h => (hX x).mpr h) he hempty hp hc
  · rintro ⟨l, hl, hcard⟩
    by_contra hlow
    have := L.strong_card_lt (fun x h => (hX x).mp h) hp hl (not_le.mp hlow)
    omega

/-- **The canonical form.** Two layouts of the same length, each with an empty cell,
have the same words if their items correspond one to one with the same homes and
fingerprints. -/
theorem Layout.word_eq {home' fp' : β → ℕ} {w' : ℕ → ℕ} {item' : ℕ → β}
    (L : Layout N u home fp w item) (L' : Layout N u home' fp' w' item') (hu : 0 < u)
    {X : Finset α} (hX : ∀ x, x ∈ X ↔ Holds N w item x)
    {Y : Finset β} (hY : ∀ y, y ∈ Y ↔ Holds N w' item' y)
    (he : ∃ e < N, w e = 0) (he' : ∃ e < N, w' e = 0)
    (f : α → β) (hf : Set.BijOn f X Y) (hhome : ∀ x ∈ X, home' (f x) = home x)
    (hfp : ∀ x ∈ X, fp' (f x) = fp x) (hp : p < N) : w p = w' p := by
  obtain ⟨e, heN, hempty⟩ := he
  obtain ⟨e', heN', hempty'⟩ := he'
  have hstrong : ∀ c l, (strong N u home fp X p c l).card =
      (strong N u home' fp' Y p c l).card := by
    intro c l
    refine Finset.card_nbij f (fun x hx => ?_) (fun x hx y hy heq => ?_) (fun y hy => ?_)
    · obtain ⟨hxX, h1, h2⟩ := Finset.mem_filter.mp (Finset.mem_coe.mp hx)
      refine Finset.mem_filter.mpr ⟨hf.mapsTo hxX, ?_⟩
      rw [hhome x hxX, hfp x hxX]
      exact ⟨h1, h2⟩
    · exact hf.injOn (Finset.mem_filter.mp hx).1 (Finset.mem_filter.mp hy).1 heq
    · obtain ⟨hyY, h1, h2⟩ := Finset.mem_filter.mp (Finset.mem_coe.mp hy)
      obtain ⟨x, hxX, rfl⟩ := hf.surjOn hyY
      rw [hhome x hxX, hfp x hxX] at h2
      rw [hhome x hxX] at h1
      exact ⟨x, Finset.mem_coe.mpr (Finset.mem_filter.mpr ⟨hxX, h1, h2⟩), rfl⟩
  have hiff : ∀ c, 0 < c → (c ≤ w p ↔ c ≤ w' p) := by
    intro c hc
    rw [L.le_word_iff hu hX heN hempty hp hc, L'.le_word_iff hu hY heN' hempty' hp hc]
    simp only [hstrong]
  rcases Nat.eq_zero_or_pos (w p) with h0 | h0
  · rcases Nat.eq_zero_or_pos (w' p) with h0' | h0'
    · omega
    · have := (hiff _ h0').mpr le_rfl
      omega
  · have h1 := (hiff _ h0).mp le_rfl
    have h2 := (hiff (w' p) (by omega)).mpr le_rfl
    omega

end RobinHood

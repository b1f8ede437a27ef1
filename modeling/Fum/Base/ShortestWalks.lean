import Fum.Base.Layout
import Mathlib.Combinatorics.Enumerative.DoubleCounting

/-!
# Robin Hood layouts have the shortest walks

Whoever looks for an item walks from its home to its cell. Of all ways to give the items
cells of their own, the one of a Robin Hood layout has the shortest longest walk
(`Layout.exists_walk_ge`) and the least sum of walks (`Layout.sum_walk_le`), as soon as one
cell is empty. Both count the items with a home in the run of occupied cells up to some cell:
a run is full, so whatever else is done with its items, some of them go beyond it.
-/

set_option autoImplicit false

namespace RobinHood

variable {α : Type} {N u p s b e : ℕ} {home fp : α → ℕ} {w : ℕ → ℕ} {item : ℕ → α}
  {X : Finset α} {seat place : α → ℕ} {x : α}

/-- One cell for each item. -/
structure Placement (N : ℕ) (X : Finset α) (place : α → ℕ) : Prop where
  lt : ∀ x ∈ X, place x < N
  inj : Set.InjOn place (X : Set α)

/-- The cells in which the items of a layout sit. -/
structure Seats (N : ℕ) (w : ℕ → ℕ) (item : ℕ → α) (X : Finset α) (seat : α → ℕ) : Prop where
  lt : ∀ x ∈ X, seat x < N
  occupied : ∀ x ∈ X, w (seat x) ≠ 0
  item_seat : ∀ x ∈ X, item (seat x) = x
  mem : ∀ p < N, w p ≠ 0 → item p ∈ X
  seat_item : ∀ p < N, w p ≠ 0 → seat (item p) = p

/-- The steps from the home of an item to its cell. -/
def walk (N : ℕ) (home place : α → ℕ) (x : α) : ℕ := steps N (home x) (place x)

theorem Seats.placement (S : Seats N w item X seat) : Placement N X seat where
  lt := S.lt
  inj := by
    intro x hx y hy heq
    rw [← S.item_seat x hx, ← S.item_seat y hy, heq]

/-- The items of a layout have seats. -/
theorem Layout.exists_seats (L : Layout N u home fp w item) (hX : ∀ x, x ∈ X ↔ Holds N w item x) :
    ∃ seat, Seats N w item X seat := by
  classical
  have hcell : ∀ x : α, ∃ p, x ∈ X → p < N ∧ w p ≠ 0 ∧ item p = x := by
    intro x
    by_cases hx : x ∈ X
    · obtain ⟨p, hp⟩ := (hX x).mp hx
      exact ⟨p, fun _ => hp⟩
    · exact ⟨0, fun h => absurd h hx⟩
  choose seat hseat using hcell
  have hmem : ∀ p < N, w p ≠ 0 → item p ∈ X := fun p hp hocc => (hX _).mpr ⟨p, hp, hocc, rfl⟩
  refine ⟨seat, fun x hx => (hseat x hx).1, fun x hx => (hseat x hx).2.1,
    fun x hx => (hseat x hx).2.2, hmem, fun p hp hocc => ?_⟩
  obtain ⟨hlt, hocc', hitem⟩ := hseat _ (hmem p hp hocc)
  exact L.inj _ hlt p hp hocc' hocc hitem

/-! ## Offsets -/

/-- Steps from one index to the next and on to a third, if they do not go round. -/
theorem steps_add {h q : ℕ} (hh : h < N) (hq : q < N) (hlt : steps N s h + steps N h q < N) :
    steps N s q = steps N s h + steps N h q := by
  refine (eq_steps hq hlt ?_).symm
  rw [← Nat.add_assoc, ← Nat.mod_add_mod, add_steps s hh, add_steps h hq]

/-- An index that lies behind another one, as seen from `s`, leads to it directly. -/
theorem steps_split {h q : ℕ} (hh : h < N) (hq : q < N) (hle : steps N s h ≤ steps N s q) :
    steps N s q = steps N s h + steps N h q := by
  have hlt := steps_lt (show 0 < N by omega) s q
  have hdirect : (h + (steps N s q - steps N s h)) % N = q := by
    calc (h + (steps N s q - steps N s h)) % N
        = ((s + steps N s h) % N + (steps N s q - steps N s h)) % N := by rw [add_steps s hh]
      _ = (s + steps N s q) % N := by
          rw [Nat.mod_add_mod]
          congr 1
          omega
      _ = q := add_steps s hq
  have hsteps := eq_steps hq (show steps N s q - steps N s h < N by omega) hdirect
  omega

theorem steps_injOn {q r : ℕ} (hq : q < N) (hr : r < N) (heq : steps N s q = steps N s r) :
    q = r := by
  rw [← add_steps s hq, heq, add_steps s hr]

/-- Items whose cells are among the first `m` from `s` on are at most `m`. -/
theorem Placement.card_le (P : Placement N X place) {A : Finset α} {m : ℕ}
    (hA : A ⊆ X) (h : ∀ x ∈ A, steps N s (place x) < m) : A.card ≤ m := by
  have hinj : Set.InjOn (fun x => steps N s (place x)) (A : Set α) := by
    intro x hx y hy heq
    exact P.inj (hA hx) (hA hy) (steps_injOn (P.lt x (hA hx)) (P.lt y (hA hy)) heq)
  have hcard := Finset.card_le_card_of_injOn (t := Finset.range m) _
    (fun x hx => Finset.mem_coe.mpr (Finset.mem_range.mpr (h x hx))) hinj
  rwa [Finset.card_range] at hcard

/-- As many steps as a walk has lead to an index from which it goes on. -/
theorem card_crossed {h d : ℕ} (hh : h < N) (hd : d ≤ N) :
    ((Finset.range N).filter fun i => steps N h i < d).card = d := by
  have himage : ((Finset.range N).filter fun i => steps N h i < d) =
      (Finset.range d).image fun j => (h + j) % N := by
    ext i
    rw [Finset.mem_filter, Finset.mem_image, Finset.mem_range]
    constructor
    · rintro ⟨hi, hlt⟩
      exact ⟨steps N h i, Finset.mem_range.mpr hlt, add_steps h hi⟩
    · rintro ⟨j, hj, rfl⟩
      have hjd := Finset.mem_range.mp hj
      have hlt : (h + j) % N < N := Nat.mod_lt _ (by omega)
      refine ⟨hlt, ?_⟩
      rwa [← eq_steps hlt (show j < N by omega) rfl]
  rw [himage, Finset.card_image_of_injOn, Finset.card_range]
  intro i hi j hj heq
  have hid := Finset.mem_range.mp (Finset.mem_coe.mp hi)
  have hjd := Finset.mem_range.mp (Finset.mem_coe.mp hj)
  exact steps_inj (by omega) (by omega) heq

/-! ## Runs -/

/-- The cells from `s` on, `b` steps and the one they lead to, are occupied, and the one
before them is not. -/
structure FullRun (N : ℕ) (w : ℕ → ℕ) (s b : ℕ) : Prop where
  start : s < N
  short : b < N
  before : w (pred N s) = 0
  full : ∀ j ≤ b, w ((s + j) % N) ≠ 0

/-- Back from any cell there is an empty one. -/
theorem exists_empty_behind (he : e < N) (hempty : w e = 0) (hp : p < N) :
    ∃ l < N, w (back N p (l + 1)) = 0 := by
  have hlt := steps_lt (show 0 < N by omega) (succ N e) p
  refine ⟨steps N (succ N e) p, hlt, ?_⟩
  have hback : (e + (steps N (succ N e) p + 1)) % N = p := by
    have h := add_steps (N := N) (succ N e) hp
    unfold succ at h ⊢
    rwa [Nat.mod_add_mod, Nat.add_assoc, Nat.add_comm 1] at h
  rw [← eq_back hp hlt hback, Nat.mod_eq_of_lt he]
  exact hempty

/-- An occupied cell ends a run. -/
theorem exists_fullRun (he : e < N) (hempty : w e = 0) (hp : p < N) (hocc : w p ≠ 0) :
    ∃ s b, FullRun N w s b ∧ (s + b) % N = p := by
  classical
  obtain ⟨l, hl, hlempty⟩ := exists_empty_behind he hempty hp
  have hex : ∃ l, w (back N p (l + 1)) = 0 := ⟨l, hlempty⟩
  have hfirst := Nat.find_spec hex
  have hbN : Nat.find hex < N := Nat.lt_of_le_of_lt (Nat.find_min' hex hlempty) hl
  set b := Nat.find hex with hb
  have hs := back_lt hp b
  have hend := back_add hp hbN.le
  refine ⟨back N p b, b, ⟨hs, hbN, ?_, ?_⟩, hend⟩
  · have hpred : (pred N (back N p b) + (b + 1)) % N = p := by
      have hsucc := succ_pred hs
      unfold succ at hsucc
      rw [Nat.add_comm b 1, ← Nat.add_assoc, ← Nat.mod_add_mod, hsucc]
      exact hend
    rw [← Nat.mod_eq_of_lt (pred_lt (show 0 < N by omega) (back N p b)), eq_back hp hbN hpred]
    exact hfirst
  · intro j hj
    rcases Nat.eq_or_lt_of_le hj with rfl | hlt
    · rwa [hend]
    · have hmin := Nat.find_min hex (m := b - j - 1) (by omega)
      have hcell : ((back N p b + j) % N + (b - j)) % N = p := by
        rw [Nat.mod_add_mod, Nat.add_assoc, show j + (b - j) = b by omega]
        exact hend
      rwa [show b - j - 1 + 1 = b - j by omega, ← eq_back hp (by omega) hcell,
        Nat.mod_mod] at hmin

/-! ## Items in a run -/

section

variable (L : Layout N u home fp w item) (S : Seats N w item X seat) (hu : 0 < u)
  (hhome : ∀ x, home x < N)

include L S

/-- The word of a seat tells the walk. -/
theorem Layout.word_seat (hx : x ∈ X) : w (seat x) = (walk N home seat x + 1) * u + fp x := by
  obtain ⟨d, hd, hword, hpos⟩ := L.seated (seat x) (S.lt x hx) (S.occupied x hx)
  rw [S.item_seat x hx] at hword hpos
  rw [hword, eq_steps (S.lt x hx) hd hpos.symm]
  rfl

include hu

/-- The cells from the home of an item to its cell are occupied. -/
theorem Layout.occupied_to_seat (hx : x ∈ X) :
    ∀ j ≤ walk N home seat x, w ((home x + j) % N) ≠ 0 := by
  intro j hj
  have hlt := S.lt x hx
  have hpos : seat x = (home x + walk N home seat x) % N := (add_steps (home x) hlt).symm
  rcases Nat.eq_or_lt_of_le hj with rfl | hjd
  · rw [← hpos]
    exact S.occupied x hx
  · exact L.linked.occupied_before hu (by omega) (L.word_seat S hx) hpos
      (L.linked _ hlt) j hjd

include hhome

/-- No item walks over an empty cell, so from behind one the walks do not go round. -/
theorem Layout.offset_seat (hs : s < N) (hbefore : w (pred N s) = 0) (hx : x ∈ X) :
    steps N s (seat x) = steps N s (home x) + walk N home seat x := by
  apply steps_add (hhome x) (S.lt x hx)
  by_contra hge
  have hN : 0 < N := by omega
  have hoff := steps_lt hN s (home x)
  apply L.occupied_to_seat S hu hx (N - 1 - steps N s (home x))
    (by unfold walk; omega)
  have hpred : (home x + (N - 1 - steps N s (home x))) % N = pred N s := by
    have h := add_steps s (hhome x)
    calc (home x + (N - 1 - steps N s (home x))) % N
        = ((s + steps N s (home x)) % N + (N - 1 - steps N s (home x))) % N := by rw [h]
      _ = (s + N - 1) % N := by
          rw [Nat.mod_add_mod]
          congr 1
          omega
  rwa [hpred]

end

/-- A run of occupied cells holds as many items. -/
theorem Layout.run_le_card (L : Layout N u home fp w item) (S : Seats N w item X seat) {c : ℕ}
    (hc : c < N) (hfull : ∀ j ≤ c, w ((s + j) % N) ≠ 0) :
    c + 1 ≤ (X.filter fun x => steps N s (seat x) ≤ c).card := by
  have hcell : ∀ j, (s + j) % N < N := fun j => Nat.mod_lt _ (by omega)
  have hinj : Set.InjOn (fun j => item ((s + j) % N)) (Finset.range (c + 1) : Set ℕ) := by
    intro i hi j hj heq
    have hic : i < c + 1 := Finset.mem_range.mp (Finset.mem_coe.mp hi)
    have hjc : j < c + 1 := Finset.mem_range.mp (Finset.mem_coe.mp hj)
    have hcells := L.inj _ (hcell i) _ (hcell j) (hfull i (by omega)) (hfull j (by omega)) heq
    exact steps_inj (by omega) (by omega) hcells
  have hcard := Finset.card_le_card_of_injOn (t := X.filter fun x => steps N s (seat x) ≤ c) _
    (fun j hj => by
      have hjc : j < c + 1 := Finset.mem_range.mp (Finset.mem_coe.mp hj)
      have hocc := hfull j (by omega)
      refine Finset.mem_coe.mpr (Finset.mem_filter.mpr ⟨S.mem _ (hcell j) hocc, ?_⟩)
      rw [S.seat_item _ (hcell j) hocc, ← eq_steps (hcell j) (by omega) rfl]
      omega) hinj
  rwa [Finset.card_range] at hcard

/-! ## The longest walk -/

/-- The items in the cells from the home of `x` to its own all have their homes no later than
that: each of them is at least as far from home as it is from the home of `x`. -/
theorem Layout.offset_home_le (L : Layout N u home fp w item) (S : Seats N w item X seat)
    (hu : 0 < u) (hfp : ∀ x, fp x < u) (hhome : ∀ x, home x < N) (F : FullRun N w s b)
    (hx : x ∈ X) (hend : (s + b) % N = home x) {y : α} (hy : y ∈ X)
    (hle : steps N s (seat y) ≤ b + walk N home seat x) : steps N s (home y) ≤ b := by
  have hN : 0 < N := Nat.zero_lt_of_lt F.start
  have hoff := L.offset_seat S hu hhome F.start F.before hy
  rcases Nat.le_total (steps N s (seat y)) b with hbefore | hafter
  · omega
  · have hlty := S.lt y hy
    have hltx := S.lt x hx
    have hcell : (home x + (steps N s (seat y) - b)) % N = seat y := by
      rw [← hend, Nat.mod_add_mod, Nat.add_assoc, Nat.add_sub_cancel' hafter]
      exact add_steps s hlty
    have hword : (walk N home seat x + 1) * u + fp x ≤
        w ((home x + walk N home seat x) % N) := by
      rw [show (home x + walk N home seat x) % N = seat x from add_steps (home x) hltx]
      exact (L.word_seat S hx).ge
    have hreach := L.linked.reach hN hword (steps N s (seat y) - b) (by omega)
    rw [hcell, L.word_seat S hy] at hreach
    have hfpy := hfp y
    have hmul : (walk N home seat y + 1) * u + u = (walk N home seat y + 2) * u := by ring
    have hfar : steps N s (seat y) - b + 1 < walk N home seat y + 2 := by
      refine Nat.lt_of_mul_lt_mul_right (a := u) ?_
      omega
    omega

/-- However the items are placed, some walk is at least as long as each walk of the layout. -/
theorem Layout.exists_walk_ge (L : Layout N u home fp w item) (S : Seats N w item X seat)
    (hu : 0 < u) (hfp : ∀ x, fp x < u) (hhome : ∀ x, home x < N) (he : e < N) (hempty : w e = 0)
    (P : Placement N X place) (hx : x ∈ X) :
    ∃ y ∈ X, walk N home seat x ≤ walk N home place y := by
  classical
  by_contra hnone
  have hless : ∀ y ∈ X, walk N home place y < walk N home seat x := by
    intro y hy
    by_contra hge
    exact hnone ⟨y, hy, not_lt.mp hge⟩
  have hpath := L.occupied_to_seat S hu hx
  have hocc : w (home x) ≠ 0 := by
    have h0 := hpath 0 (Nat.zero_le _)
    rwa [Nat.add_zero, Nat.mod_eq_of_lt (hhome x)] at h0
  obtain ⟨s, b, F, hend⟩ := exists_fullRun he hempty (hhome x) hocc
  -- the run goes on to the cell of `x`
  have hfull : ∀ j ≤ b + walk N home seat x, w ((s + j) % N) ≠ 0 := by
    intro j hj
    rcases Nat.le_total j b with hjb | hjb
    · exact F.full j hjb
    · have h := hpath (j - b) (by omega)
      rwa [← hend, Nat.mod_add_mod, Nat.add_assoc, Nat.add_sub_cancel' hjb] at h
  have hshort := run_lt he hempty hfull
  have hmany := L.run_le_card S (by omega) hfull
  have hhomes : (X.filter fun y => steps N s (seat y) ≤ b + walk N home seat x) ⊆
      X.filter fun y => steps N s (home y) ≤ b := by
    intro y hy
    obtain ⟨hyX, hle⟩ := Finset.mem_filter.mp hy
    exact Finset.mem_filter.mpr ⟨hyX, L.offset_home_le S hu hfp hhome F hx hend hyX hle⟩
  have hcard := Finset.card_le_card hhomes
  -- the other placement keeps the same items among fewer cells
  have hfew : (X.filter fun y => steps N s (home y) ≤ b).card ≤ b + walk N home seat x := by
    refine P.card_le (s := s) (Finset.filter_subset _ _) fun y hy => ?_
    obtain ⟨hyX, hyb⟩ := Finset.mem_filter.mp hy
    have hlt := hless y hyX
    unfold walk at hlt ⊢
    have hadd := steps_add (s := s) (hhome y) (P.lt y hyX) (by unfold walk at hshort; omega)
    omega
  omega

/-! ## The sum of the walks -/

/-- The sum of the walks, cell by cell: at each cell the walks that go on from it are counted. -/
theorem sum_walk_eq (hhome : ∀ x, home x < N) (place : α → ℕ) :
    ∑ x ∈ X, walk N home place x =
      ∑ i ∈ Finset.range N, (X.filter fun x => steps N (home x) i < walk N home place x).card := by
  calc ∑ x ∈ X, walk N home place x
      = ∑ x ∈ X, ((Finset.range N).filter fun i =>
          steps N (home x) i < walk N home place x).card := by
        refine Finset.sum_congr rfl fun x _ => ?_
        have hN : 0 < N := Nat.zero_lt_of_lt (hhome x)
        exact (card_crossed (hhome x) (steps_lt hN (home x) (place x)).le).symm
    _ = _ := Finset.sum_card_bipartiteAbove_eq_sum_card_bipartiteBelow
        fun x i => steps N (home x) i < walk N home place x

/-- Where a walk goes on from an index, the index is no further from home than the walk is
long; seen from `s`, it lies between the home and the end of the walk. -/
theorem steps_of_crossed {i h : ℕ} (hh : h < N) (hi : i < N) {d : ℕ}
    (hlt : steps N s h + d < N) (hcross : steps N h i < d) :
    steps N s h ≤ steps N s i ∧ steps N s i < steps N s h + d := by
  have hadd := steps_add (s := s) hh hi (by omega)
  omega

/-- In the layout a run is full, and the items that walk on from its last cell have their homes
in it as well. -/
theorem Layout.crossed_add_le (L : Layout N u home fp w item) (S : Seats N w item X seat)
    (hu : 0 < u) (hhome : ∀ x, home x < N) (F : FullRun N w s b) :
    (X.filter fun x => steps N (home x) ((s + b) % N) < walk N home seat x).card + (b + 1) ≤
      (X.filter fun x => steps N s (home x) ≤ b).card := by
  classical
  have hN : 0 < N := Nat.zero_lt_of_lt F.start
  have hi : (s + b) % N < N := Nat.mod_lt _ hN
  have hib : b = steps N s ((s + b) % N) := eq_steps hi F.short rfl
  have hcrossed : ∀ x ∈ X, steps N (home x) ((s + b) % N) < walk N home seat x →
      steps N s (home x) ≤ b ∧ b < steps N s (seat x) := by
    intro x hx hcross
    have hoff := L.offset_seat S hu hhome F.start F.before hx
    have hlt := steps_lt hN s (seat x)
    have h := steps_of_crossed (s := s) (hhome x) hi (by omega) hcross
    omega
  have hdisjoint : Disjoint
      (X.filter fun x => steps N (home x) ((s + b) % N) < walk N home seat x)
      (X.filter fun x => steps N s (seat x) ≤ b) :=
    Finset.disjoint_filter.mpr fun x hx hcross => not_le.mpr (hcrossed x hx hcross).2
  have hsub : (X.filter fun x => steps N (home x) ((s + b) % N) < walk N home seat x) ∪
      (X.filter fun x => steps N s (seat x) ≤ b) ⊆ X.filter fun x => steps N s (home x) ≤ b := by
    intro x hx
    rcases Finset.mem_union.mp hx with hx | hx
    · obtain ⟨hxX, hcross⟩ := Finset.mem_filter.mp hx
      exact Finset.mem_filter.mpr ⟨hxX, (hcrossed x hxX hcross).1⟩
    · obtain ⟨hxX, hle⟩ := Finset.mem_filter.mp hx
      have hoff := L.offset_seat S hu hhome F.start F.before hxX
      exact Finset.mem_filter.mpr ⟨hxX, by omega⟩
  have hrun := L.run_le_card S F.short F.full
  have hcard := Finset.card_le_card hsub
  rw [Finset.card_union_of_disjoint hdisjoint] at hcard
  omega

/-- Of the items with homes among some cells, no more than these stay in them. -/
theorem Placement.card_homes_le (P : Placement N X place) (hhome : ∀ x, home x < N) (hb : b < N) :
    (X.filter fun x => steps N s (home x) ≤ b).card ≤
      (X.filter fun x => steps N (home x) ((s + b) % N) < walk N home place x).card + (b + 1) := by
  classical
  have hi : (s + b) % N < N := Nat.mod_lt _ (by omega)
  have hib : b = steps N s ((s + b) % N) := eq_steps hi hb rfl
  have hsub : (X.filter fun x => steps N s (home x) ≤ b) ⊆
      (X.filter fun x => steps N (home x) ((s + b) % N) < walk N home place x) ∪
        X.filter fun x => steps N s (place x) < b + 1 := by
    intro x hx
    obtain ⟨hxX, hle⟩ := Finset.mem_filter.mp hx
    by_cases hcross : steps N (home x) ((s + b) % N) < walk N home place x
    · exact Finset.mem_union_left _ (Finset.mem_filter.mpr ⟨hxX, hcross⟩)
    · refine Finset.mem_union_right _ (Finset.mem_filter.mpr ⟨hxX, ?_⟩)
      have hstay := steps_split (s := s) (hhome x) hi (by omega)
      unfold walk at hcross
      have hadd := steps_add (s := s) (hhome x) (P.lt x hxX) (by omega)
      omega
  have hinside : (X.filter fun x => steps N s (place x) < b + 1).card ≤ b + 1 :=
    P.card_le (Finset.filter_subset _ _) fun x hx => (Finset.mem_filter.mp hx).2
  have hcard := (Finset.card_le_card hsub).trans (Finset.card_union_le _ _)
  omega

/-- However the items are placed, at least as many walks go on from a cell as in the layout. -/
theorem Layout.crossed_le (L : Layout N u home fp w item) (S : Seats N w item X seat)
    (hu : 0 < u) (hhome : ∀ x, home x < N) (he : e < N) (hempty : w e = 0)
    (P : Placement N X place) {i : ℕ} (hi : i < N) :
    (X.filter fun x => steps N (home x) i < walk N home seat x).card ≤
      (X.filter fun x => steps N (home x) i < walk N home place x).card := by
  by_cases hocc : w i = 0
  · -- no walk of the layout goes over an empty cell
    have hnone : (X.filter fun x => steps N (home x) i < walk N home seat x) = ∅ := by
      refine Finset.filter_eq_empty_iff.mpr fun x hx hlt => ?_
      refine L.occupied_to_seat S hu hx _ hlt.le ?_
      rwa [add_steps (home x) hi]
    rw [hnone]
    exact Nat.zero_le _
  · obtain ⟨s, b, F, rfl⟩ := exists_fullRun he hempty hi hocc
    have hmany := L.crossed_add_le S hu hhome F
    have hfew := P.card_homes_le hhome (s := s) F.short
    omega

/-- However the items are placed, their walks are together at least as long as in the layout. -/
theorem Layout.sum_walk_le (L : Layout N u home fp w item) (S : Seats N w item X seat)
    (hu : 0 < u) (hhome : ∀ x, home x < N) (he : e < N) (hempty : w e = 0)
    (P : Placement N X place) :
    ∑ x ∈ X, walk N home seat x ≤ ∑ x ∈ X, walk N home place x := by
  classical
  rw [sum_walk_eq hhome seat, sum_walk_eq hhome place]
  exact Finset.sum_le_sum fun i hi =>
    L.crossed_le S hu hhome he hempty P (Finset.mem_range.mp hi)

end RobinHood

import Mathlib.Data.List.Perm.Basic
import Mathlib.Data.List.Nodup

/-!
# Removal by swapping with the back

A dense vector gives up the entry at a position by moving its last entry there and
shrinking by one. A walk that looks at the freed position again meets every entry once; a
predicate that it asks may know what it was asked before.
-/

set_option autoImplicit false

namespace SwapRemove

variable {α : Type}

/-- The vector `l` without the entry at `pos`, whose place its last entry takes. -/
def swapRemove (l : List α) (pos : ℕ) : List α :=
  match l.getLast? with
  | none => []
  | some last => (l.set pos last).dropLast

theorem swapRemove_eq {l : List α} {last : α} (h : l.getLast? = some last) (pos : ℕ) :
    swapRemove l pos = (l.set pos last).dropLast := by
  unfold swapRemove
  rw [h]

theorem length_swapRemove (l : List α) (pos : ℕ) : (swapRemove l pos).length = l.length - 1 := by
  unfold swapRemove
  cases h : l.getLast? with
  | none =>
      rw [List.getLast?_eq_none_iff] at h
      simp [h]
  | some last => simp

/-- The last entry stands at the freed position, every other entry where it stood. -/
theorem getElem?_swapRemove {l : List α} {pos j : ℕ} (hj : j < l.length - 1) :
    (swapRemove l pos)[j]? = if j = pos then l.getLast? else l[j]? := by
  cases hlast : l.getLast? with
  | none =>
      rw [List.getLast?_eq_none_iff] at hlast
      simp [hlast] at hj
  | some last =>
      rw [swapRemove_eq hlast, List.getElem?_dropLast, List.length_set, if_pos hj,
        List.getElem?_set]
      by_cases h : j = pos
      · rw [if_pos h.symm, if_pos h, if_pos (by omega)]
      · rw [if_neg (Ne.symm h), if_neg h]

/-- Nothing but the entry at the position goes. -/
theorem swapRemove_perm {l : List α} {pos : ℕ} (hpos : pos < l.length) :
    (swapRemove l pos ++ [l[pos]]).Perm l := by
  obtain ⟨init, last, rfl⟩ : ∃ init last, l = init ++ [last] := by
    have hne : l ≠ [] := by
      rintro rfl
      simp at hpos
    exact ⟨l.dropLast, l.getLast hne, (List.dropLast_concat_getLast hne).symm⟩
  rw [swapRemove_eq (List.getLast?_concat ..)]
  rw [List.length_append, List.length_singleton] at hpos
  by_cases hlast : pos = init.length
  · subst hlast
    simp
  · have hlt : pos < init.length := by omega
    rw [List.set_append_left _ _ hlt, List.dropLast_concat, List.getElem_append_left hlt]
    have hsplit : init = init.take pos ++ init[pos] :: init.drop (pos + 1) := by
      rw [List.getElem_cons_drop, List.take_append_drop]
    have hswap : (last :: init.drop (pos + 1) ++ [init[pos]]).Perm
        (init[pos] :: init.drop (pos + 1) ++ [last]) := by
      have h1 : (last :: init.drop (pos + 1) ++ [init[pos]]).Perm
          ([init[pos]] ++ last :: init.drop (pos + 1)) := List.perm_append_comm
      have h2 : ([last] ++ init.drop (pos + 1)).Perm (init.drop (pos + 1) ++ [last]) :=
        List.perm_append_comm
      exact h1.trans (h2.cons init[pos])
    have hset : init.set pos last ++ [init[pos]] =
        init.take pos ++ (last :: init.drop (pos + 1) ++ [init[pos]]) := by
      rw [List.set_eq_take_append_cons_drop, if_pos hlt, List.append_assoc]
    have hinit : init.take pos ++ (init[pos] :: init.drop (pos + 1) ++ [last]) =
        init ++ [last] := by
      rw [← List.append_assoc, ← hsplit]
    rw [hset, ← hinit]
    exact hswap.append_left _

theorem map_swapRemove {β : Type} (f : α → β) (l : List α) (pos : ℕ) :
    (swapRemove l pos).map f = swapRemove (l.map f) pos := by
  unfold swapRemove
  rw [List.getLast?_map]
  cases l.getLast? with
  | none => rfl
  | some last =>
      show ((l.set pos last).dropLast).map f = ((l.map f).set pos (f last)).dropLast
      rw [List.map_dropLast, List.map_set]

/-- The entries before a position stay where they are when it is freed. -/
theorem take_swapRemove {l : List α} {p : ℕ} (hp : p < l.length) :
    (swapRemove l p).take p = l.take p := by
  apply List.ext_getElem?
  intro j
  rw [List.getElem?_take, List.getElem?_take]
  by_cases hj : j < p
  · rw [if_pos hj, if_pos hj, getElem?_swapRemove (by omega), if_neg (by omega)]
  · rw [if_neg hj, if_neg hj]

/-- What stands from the freed position on is what stood behind it. -/
theorem drop_swapRemove_perm {l : List α} {p : ℕ} (hp : p < l.length) :
    ((swapRemove l p).drop p).Perm (l.drop (p + 1)) := by
  have hperm := swapRemove_perm hp
  rw [← List.take_append_drop p (swapRemove l p), take_swapRemove hp, List.append_assoc] at hperm
  have hsplit : l = l.take p ++ (l[p] :: l.drop (p + 1)) := by
    rw [List.getElem_cons_drop, List.take_append_drop]
  have hrest := (List.perm_append_left_iff _).mp (hperm.trans (List.Perm.of_eq hsplit))
  exact (List.perm_cons l[p]).mp ((List.perm_append_singleton _ _).symm.trans hrest)

/-- When at most one entry stands behind the position, the others keep their order. -/
theorem swapRemove_eq_eraseIdx {l : List α} {p : ℕ} (hp : p < l.length)
    (hback : l.length ≤ p + 2) : swapRemove l p = l.eraseIdx p := by
  apply List.ext_getElem?
  intro j
  by_cases hj : j < l.length - 1
  · rw [getElem?_swapRemove hj, List.getElem?_eraseIdx]
    by_cases hjp : j = p
    · rw [if_pos hjp, if_neg (by omega), List.getLast?_eq_getElem?]
      congr 1
      omega
    · rw [if_neg hjp, if_pos (by omega)]
  · rw [List.getElem?_eq_none (by rw [length_swapRemove]; omega),
      List.getElem?_eq_none (by rw [List.length_eraseIdx, if_pos hp]; omega)]

/-- When more stand behind it, the last of them is missed by a walk that passes the position. -/
theorem drop_swapRemove_succ {l : List α} {p : ℕ} (hback : p + 2 < l.length) :
    (swapRemove l p).drop (p + 1) = (l.drop (p + 1)).dropLast := by
  apply List.ext_getElem?
  intro j
  rw [List.getElem?_drop, List.getElem?_dropLast, List.getElem?_drop, List.length_drop]
  by_cases hj : p + 1 + j < l.length - 1
  · rw [getElem?_swapRemove hj, if_neg (by omega), if_pos (by omega)]
  · rw [List.getElem?_eq_none (by rw [length_swapRemove]; omega), if_neg (by omega)]

/-- When at most one stands behind it, the walk from the freed position goes on with it. -/
theorem drop_swapRemove_self {l : List α} {p : ℕ} (hp : p < l.length)
    (hback : l.length ≤ p + 2) : (swapRemove l p).drop p = l.drop (p + 1) := by
  rw [swapRemove_eq_eraseIdx hp hback, List.eraseIdx_eq_take_drop_succ,
    List.drop_left' (List.length_take_of_le (Nat.le_of_lt hp))]

theorem drop_of_getElem? {l before after : List α} {y : α} (hl : l.Nodup)
    (hsplit : l = before ++ y :: after) {q : ℕ} (hq : l[q]? = some y) :
    l.drop q = y :: after := by
  obtain ⟨hlt, hget⟩ := List.getElem?_eq_some_iff.mp hq
  have hmiddle : l[before.length]? = some y := by
    rw [hsplit, List.getElem?_append_right (Nat.le_refl _), Nat.sub_self]
    rfl
  obtain ⟨hlt', hget'⟩ := List.getElem?_eq_some_iff.mp hmiddle
  have heq : q = before.length := (List.Nodup.getElem_inj_iff hl).mp (hget.trans hget'.symm)
  rw [heq, hsplit, List.drop_left]

/-- The entries of the stretch are entries, and stand behind the front. -/
theorem mem_stretch {front stretch back : List α} (hl : (front ++ stretch ++ back).Nodup) :
    ∀ x ∈ stretch, x ∈ front ++ stretch ++ back ∧
      x ∉ (front ++ stretch ++ back).take front.length := by
  intro x hx
  rw [List.append_assoc, List.take_left]
  rw [List.append_assoc] at hl
  exact ⟨by simp [hx], fun hmem => (List.nodup_append.mp hl).2.2 x hmem x (by simp [hx]) rfl⟩

/-- What is left of a list without repetitions when a stretch of it goes. -/
theorem mem_outside {front stretch back : List α} (hl : (front ++ stretch ++ back).Nodup) (x : α) :
    x ∈ front ++ stretch ++ back ∧ x ∉ stretch ↔ x ∈ front ∨ x ∈ back := by
  rw [List.append_assoc] at hl ⊢
  obtain ⟨-, hrest, hfront⟩ := List.nodup_append.mp hl
  obtain ⟨-, -, hback⟩ := List.nodup_append.mp hrest
  rw [List.mem_append, List.mem_append]
  constructor
  · rintro ⟨hx, hnot⟩
    exact hx.imp_right fun h => h.resolve_left hnot
  · rintro (hx | hx)
    · exact ⟨Or.inl hx, fun hin => hfront x hx x (List.mem_append_left _ hin) rfl⟩
    · exact ⟨Or.inr (Or.inr hx), fun hin => hback x hin x hx rfl⟩

/-! ## A walk that asks about every entry -/

/-- Of the entries of `l`, those to which `predicate` answers `answer` when it is asked about
them in order, after it has been asked about `past`. -/
def answered (predicate : List α → α → Bool) (answer : Bool) : List α → List α → List α
  | _, [] => []
  | past, a :: rest =>
      if predicate past a = answer then a :: answered predicate answer (past ++ [a]) rest
      else answered predicate answer (past ++ [a]) rest

section

variable {predicate : List α → α → Bool} {past : List α} {a : α}

theorem answered_cons_eq {answer : Bool} (h : predicate past a = answer) (rest : List α) :
    answered predicate answer past (a :: rest) =
      a :: answered predicate answer (past ++ [a]) rest := by
  rw [answered, if_pos h]

theorem answered_cons_ne {answer : Bool} (h : predicate past a ≠ answer) (rest : List α) :
    answered predicate answer past (a :: rest) =
      answered predicate answer (past ++ [a]) rest := by
  rw [answered, if_neg h]

/-- A predicate that remembers nothing. -/
theorem answered_false_of_const (f : α → Bool) (past l : List α) :
    answered (fun _ a => f a) false past l = l.filter fun a => !f a := by
  induction l generalizing past with
  | nil => rfl
  | cons a rest ih =>
      cases h : f a with
      | false => rw [answered_cons_eq h, ih, List.filter_cons_of_pos (by simp [h])]
      | true => rw [answered_cons_ne (by simp [h]), ih, List.filter_cons_of_neg (by simp [h])]

/-- Every entry gets one of the two answers. -/
theorem answered_perm (past l : List α) :
    (answered predicate false past l ++ answered predicate true past l).Perm l := by
  induction l generalizing past with
  | nil => exact List.Perm.refl _
  | cons a rest ih =>
      cases h : predicate past a with
      | false =>
          rw [answered_cons_eq h, answered_cons_ne (by simp [h])]
          exact (ih _).cons a
      | true =>
          rw [answered_cons_ne (by simp [h]),
            answered_cons_eq h]
          exact List.perm_middle.trans ((ih _).cons a)

end

/-! ## Removal of an entry by its value -/

variable [DecidableEq α] {l : List α} {x y : α}

/-- The vector `l` without the entry `x`. -/
def swapErase (l : List α) (x : α) : List α := swapRemove l (l.idxOf x)

theorem swapErase_eq (hl : l.Nodup) {pos : ℕ} (h : l[pos]? = some x) :
    swapErase l x = swapRemove l pos := by
  obtain ⟨hlt, rfl⟩ := List.getElem?_eq_some_iff.mp h
  unfold swapErase
  rw [hl.idxOf_getElem]

theorem swapErase_perm (hx : x ∈ l) : (swapErase l x ++ [x]).Perm l := by
  have h := swapRemove_perm (List.idxOf_lt_length_of_mem hx)
  rwa [List.getElem_idxOf] at h

/-! ## Walks from an entry that stays -/

/-- If the others keep their order, a walk from one of them loses nothing but `x`. -/
theorem drop_erase (hl : l.Nodup) (hxy : x ≠ y) {q q' : ℕ} (hq : l[q]? = some y)
    (hq' : (l.erase x)[q']? = some y) : (l.erase x).drop q' = (l.drop q).erase x := by
  obtain ⟨before, after, hsplit⟩ := List.append_of_mem (List.mem_of_getElem? hq)
  rw [drop_of_getElem? hl hsplit hq]
  have hnodup := hl.erase x
  by_cases hx : x ∈ before
  · have hafter : x ∉ y :: after := by
      rw [hsplit] at hl
      exact fun hmem => (List.nodup_append.mp hl).2.2 x hx x hmem rfl
    rw [List.erase_of_not_mem hafter]
    have hsplit' : l.erase x = before.erase x ++ y :: after := by
      rw [hsplit, List.erase_append_left _ hx]
    exact drop_of_getElem? hnodup hsplit' hq'
  · have hkept : (y :: after).erase x = y :: after.erase x :=
      List.erase_cons_tail (by simpa using Ne.symm hxy)
    have hsplit' : l.erase x = before ++ y :: after.erase x := by
      rw [hsplit, List.erase_append_right _ hx, hkept]
    rw [hkept]
    exact drop_of_getElem? hnodup hsplit' hq'

theorem getLast?_erase (h : l.getLast? ≠ some x) : (l.erase x).getLast? = l.getLast? := by
  rcases List.eq_nil_or_concat l with rfl | ⟨init, last, rfl⟩
  · rfl
  · rw [List.concat_eq_append, List.getLast?_concat] at h
    have hne : last ≠ x := fun heq => h (congrArg some heq)
    rw [List.concat_eq_append, List.getLast?_concat, List.erase_append]
    split
    · rw [List.getLast?_concat]
    · rw [List.erase_of_not_mem (by simpa using hne.symm), List.getLast?_concat]

/-- A walk from an entry that stays loses nothing but the removed one exactly if at most one
entry stands behind that one. -/
theorem drop_swapRemove_iff (hl : l.Nodup) (hxy : x ≠ y) {p q q' : ℕ} (hp : l[p]? = some x)
    (hq : l[q]? = some y) (hq' : (swapRemove l p)[q']? = some y) :
    (swapRemove l p).drop q' = (l.drop q).erase x ↔ l.length ≤ p + 2 := by
  obtain ⟨hlt, hget⟩ := List.getElem?_eq_some_iff.mp hp
  constructor
  · intro hwalk
    by_contra hback
    -- the walks end at different entries
    have hlast : (l.drop q).getLast? = l[l.length - 1]? := by
      have hltq := (List.getElem?_eq_some_iff.mp hq).1
      rw [List.getLast?_drop, if_neg (by omega), List.getLast?_eq_getElem?]
    have hlast' : ((swapRemove l p).drop q').getLast? = l[l.length - 2]? := by
      have hltq' := (List.getElem?_eq_some_iff.mp hq').1
      rw [List.getLast?_drop, if_neg (by omega), List.getLast?_eq_getElem?, length_swapRemove,
        getElem?_swapRemove (by omega), if_neg (by omega)]
      rfl
    have hdiffer : ∀ j, j < l.length → j ≠ l.length - 1 → l[l.length - 1]? ≠ l[j]? := by
      intro j hj hne heq
      rw [List.getElem?_eq_getElem hj, List.getElem?_eq_getElem (by omega)] at heq
      exact hne ((List.Nodup.getElem_inj_iff hl).mp (Option.some.inj heq)).symm
    have herase := getLast?_erase (l := l.drop q) (x := x) (by
      rw [hlast, ← hp]
      exact hdiffer p hlt (by omega))
    rw [← hwalk, hlast', hlast] at herase
    exact hdiffer (l.length - 2) (by omega) (by omega) herase.symm
  · intro hback
    have heq : swapRemove l p = l.erase x := by
      rw [swapRemove_eq_eraseIdx hlt hback, ← hget, hl.erase_getElem]
    rw [heq] at hq' ⊢
    exact drop_erase hl hxy hq hq'

/-! ## Removal of a stretch -/

theorem swapErase_nodup (hl : l.Nodup) (hx : x ∈ l) : (swapErase l x).Nodup :=
  (List.nodup_append.mp ((swapErase_perm hx).nodup_iff.mpr hl)).1

/-- Entries that stand before all removed ones stay where they are. -/
theorem take_foldl_swapErase {m : ℕ} (xs : List α) : ∀ {l : List α}, l.Nodup → xs.Nodup →
    (∀ x ∈ xs, x ∈ l ∧ x ∉ l.take m) →
      (xs.foldl swapErase l).take m = l.take m ∧ (xs.foldl swapErase l ++ xs).Perm l := by
  induction xs with
  | nil => exact fun _ _ _ => ⟨rfl, List.Perm.of_eq (List.append_nil _)⟩
  | cons x xs ih =>
      intro l hl hxs hin
      obtain ⟨hx, hxm⟩ := hin x (by simp)
      obtain ⟨p, hp⟩ := List.mem_iff_getElem?.mp hx
      obtain ⟨hlt, hget⟩ := List.getElem?_eq_some_iff.mp hp
      have hm : m ≤ p := by
        by_contra hlt'
        refine hxm (List.mem_of_getElem? (i := p) ?_)
        rw [List.getElem?_take, if_pos (by omega), hp]
      have htake : (swapErase l x).take m = l.take m := by
        rw [swapErase_eq hl hp]
        have hfront := congrArg (List.take m) (take_swapRemove hlt)
        rwa [List.take_take, List.take_take, Nat.min_eq_left hm] at hfront
      have hperm := swapErase_perm hx
      obtain ⟨hnot, hxs'⟩ := List.nodup_cons.mp hxs
      have hin' : ∀ y ∈ xs, y ∈ swapErase l x ∧ y ∉ (swapErase l x).take m := by
        intro y hy
        obtain ⟨hyl, hym⟩ := hin y (by simp [hy])
        rw [htake]
        refine ⟨?_, hym⟩
        rcases List.mem_append.mp (hperm.mem_iff.mpr hyl) with h | h
        · exact h
        · exact absurd (List.mem_singleton.mp h ▸ hy) hnot
      obtain ⟨h1, h2⟩ := ih (swapErase_nodup hl hx) hxs' hin'
      refine ⟨h1.trans htake, ?_⟩
      rw [List.foldl_cons]
      have hmiddle : (xs.foldl swapErase (swapErase l x) ++ x :: xs).Perm
          (x :: (xs.foldl swapErase (swapErase l x) ++ xs)) := List.perm_middle
      refine hmiddle.trans ((h2.cons x).trans ?_)
      exact (List.perm_append_singleton x _).symm.trans hperm

section

variable {front stretch back : List α}

/-- What is left stands behind the front in some order. -/
theorem drop_stretch_perm (hl : (front ++ stretch ++ back).Nodup) :
    ((stretch.foldl swapErase (front ++ stretch ++ back)).drop front.length).Perm back := by
  have hstretch := (List.nodup_append.mp (List.nodup_append.mp hl).1).2.1
  obtain ⟨htake, hperm⟩ := take_foldl_swapErase stretch hl hstretch (mem_stretch hl)
  have hfront : (front ++ stretch ++ back).take front.length = front := by
    rw [List.append_assoc, List.take_left]
  rw [← List.take_append_drop front.length (stretch.foldl swapErase _), htake, hfront,
    List.append_assoc, List.append_assoc] at hperm
  have hrest := ((List.perm_append_left_iff front).mp hperm).trans List.perm_append_comm
  rw [← List.append_assoc] at hrest
  exact (List.perm_append_right_iff stretch).mp hrest

/-- The last of two or more entries behind the stretch ends where the stretch began. -/
theorem getElem?_stretch (hl : (front ++ stretch ++ back).Nodup) (hne : stretch ≠ [])
    (hback : 2 ≤ back.length) :
    (stretch.foldl swapErase (front ++ stretch ++ back))[front.length]? = back.getLast? := by
  obtain ⟨x, rest, rfl⟩ := List.exists_cons_of_ne_nil hne
  have hstretch := (List.nodup_append.mp (List.nodup_append.mp hl).1).2.1
  have hin := mem_stretch hl
  have hlen : (front ++ x :: rest ++ back).length =
      front.length + rest.length + 1 + back.length := by
    simp only [List.length_append, List.length_cons]
    omega
  have hx : (front ++ x :: rest ++ back)[front.length]? = some x := by
    rw [List.append_assoc, List.getElem?_append_right (Nat.le_refl _), Nat.sub_self]
    rfl
  have hlast : (front ++ x :: rest ++ back).getLast? = back.getLast? := by
    rw [List.getLast?_append, List.getLast?_eq_some_getLast (List.ne_nil_of_length_pos (by omega)),
      Option.some_or]
  -- the first removal puts it there, and no later one moves it
  have hfirst : (swapErase (front ++ x :: rest ++ back) x)[front.length]? = back.getLast? := by
    rw [swapErase_eq hl hx, getElem?_swapRemove (by omega), if_pos rfl, hlast]
  have hfront : (swapErase (front ++ x :: rest ++ back) x).take front.length = front := by
    rw [swapErase_eq hl hx, take_swapRemove (by omega), List.append_assoc, List.take_left]
  have hback_last := List.getLast?_eq_some_getLast (List.ne_nil_of_length_pos
    (show 0 < back.length by omega))
  have hmem_last := List.mem_of_getLast? hback_last
  have hin' : ∀ y ∈ rest, y ∈ swapErase (front ++ x :: rest ++ back) x ∧
      y ∉ (swapErase (front ++ x :: rest ++ back) x).take (front.length + 1) := by
    intro y hy
    obtain ⟨hmem, hnot⟩ := hin y (by simp [hy])
    rw [List.append_assoc, List.take_left] at hnot
    constructor
    · rcases List.mem_append.mp ((swapErase_perm (List.mem_of_getElem? hx)).mem_iff.mpr hmem) with
        h | h
      · exact h
      · exact absurd (List.mem_singleton.mp h ▸ hy) (List.nodup_cons.mp hstretch).1
    · rw [List.take_add_one, hfront, hfirst, hback_last, Option.toList_some, List.mem_append,
        List.mem_singleton]
      rintro (h | heq)
      · exact hnot h
      · exact (List.nodup_append.mp hl).2.2 y (by simp [hy]) _ hmem_last heq
  have hkeep := (take_foldl_swapErase rest (swapErase_nodup hl (List.mem_of_getElem? hx))
    (List.nodup_cons.mp hstretch).2 hin').1
  have hget := congrArg (fun l => l[front.length]?) hkeep
  simp only [List.getElem?_take, if_pos (Nat.lt_succ_self front.length)] at hget
  rw [List.foldl_cons, hget, hfirst]

/-- A walk from the entry behind the stretch meets what stood from there on exactly if
nothing has been removed or nothing else stood there. -/
theorem walk_stretch_iff (hl : (front ++ stretch ++ y :: back).Nodup) {q : ℕ}
    (hq : (stretch.foldl swapErase (front ++ stretch ++ y :: back))[q]? = some y) :
    ((stretch.foldl swapErase (front ++ stretch ++ y :: back)).drop q).Perm (y :: back) ↔
      stretch = [] ∨ back = [] := by
  have hstretch := (List.nodup_append.mp (List.nodup_append.mp hl).1).2.1
  obtain ⟨htake, hperm⟩ := take_foldl_swapErase stretch hl hstretch (mem_stretch hl)
  have hnodup : (stretch.foldl swapErase (front ++ stretch ++ y :: back)).Nodup :=
    (List.nodup_append.mp (hperm.nodup_iff.mpr hl)).1
  have hrest := drop_stretch_perm hl
  obtain ⟨hqlt, hqget⟩ := List.getElem?_eq_some_iff.mp hq
  constructor
  · intro hwalk
    by_contra hcond
    obtain ⟨hne, hback⟩ := not_or.mp hcond
    have hlen := List.length_pos_of_ne_nil hback
    have hlast := getElem?_stretch hl hne (by rw [List.length_cons]; omega)
    rw [List.getLast?_cons_of_ne_nil hback] at hlast
    have hback_last := List.getLast?_eq_some_getLast hback
    rw [hback_last] at hlast
    obtain ⟨hlt, hget⟩ := List.getElem?_eq_some_iff.mp hlast
    have hmem := List.mem_of_getLast? hback_last
    -- the last entry now stands where the stretch began, the first one behind it
    have hsame : q ≠ front.length := by
      rintro rfl
      rw [hlast] at hq
      cases hq
      exact (List.nodup_cons.mp (List.nodup_append.mp hl).2.1).1 hmem
    have hle : front.length ≤ q := by
      by_contra hlt'
      have hin : y ∈ (front ++ stretch ++ y :: back).take front.length := by
        rw [← htake]
        refine List.mem_of_getElem? (i := q) ?_
        rw [List.getElem?_take, if_pos (by omega), hq]
      rw [List.append_assoc, List.take_left] at hin
      exact (List.nodup_append.mp hl).2.2 y (by simp [hin]) y (by simp) rfl
    obtain ⟨j, hj⟩ := List.mem_iff_getElem?.mp (hwalk.mem_iff.mpr (List.mem_cons_of_mem y hmem))
    rw [List.getElem?_drop] at hj
    obtain ⟨hjlt, hjget⟩ := List.getElem?_eq_some_iff.mp hj
    have := (List.Nodup.getElem_inj_iff hnodup).mp (hjget.trans hget.symm)
    omega
  · rintro (rfl | rfl)
    · rw [List.foldl_nil] at hq ⊢
      exact List.Perm.of_eq (drop_of_getElem? hl rfl hq)
    · have hone := List.perm_singleton.mp hrest
      have hsplit := (List.take_append_drop front.length
        (stretch.foldl swapErase (front ++ stretch ++ [y]))).symm
      rw [hone] at hsplit
      rw [drop_of_getElem? hnodup hsplit hq]

end

end SwapRemove

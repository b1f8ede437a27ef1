import Fum.Analysis.Operations
import Fum.Base.DenseMap

/-!
# The contents of a table

What an iteration from `begin()` to `end()` reads: the values of the elements in the order
of the iteration vector. Every operation acts on this list as a dense map does, so nothing
that depends on the hasher shows in it.
-/

set_option autoImplicit false

namespace Fum.Analysis

open Fum.Model Effects SwapRemove DenseMap

variable {τ : Traits} {t t' : Table τ} {x i p : ℕ} {v : τ.Value} {key : τ.Key}
  {l : List τ.Value}

/-! ## Values of nodes -/

/-- The value of the element in a node. -/
def valueAt (t : Table τ) (x : ℕ) : Option τ.Value := (t.nodeAt x).storage.map Element.value

/-- The values that an iteration reads. -/
def contents (t : Table τ) : List τ.Value := t.iteration.filterMap (valueAt t)

theorem valueAt_of_storage {e : Element τ} (h : (t.nodeAt x).storage = some e) :
    valueAt t x = some e.value := by
  unfold valueAt
  rw [h]
  rfl

theorem valueAt_congr (h : (t'.nodeAt x).storage = (t.nodeAt x).storage) :
    valueAt t' x = valueAt t x := by
  unfold valueAt
  rw [h]

theorem nodeKey_eq (t : Table τ) (x : ℕ) : nodeKey t x = (valueAt t x).map τ.keyOf := by
  unfold nodeKey valueAt
  rw [Option.map_map]
  rfl

theorem matches_iff_valueAt :
    Matches t key x ↔ ∃ v, valueAt t x = some v ∧ t.keyEqual key (τ.keyOf v) = true := by
  rw [matches_iff]
  constructor
  · rintro ⟨a, ha, hequal⟩
    rw [nodeKey_eq] at ha
    obtain ⟨v, hv, rfl⟩ := Option.map_eq_some_iff.mp ha
    exact ⟨v, hv, hequal⟩
  · rintro ⟨v, hv, hequal⟩
    exact ⟨τ.keyOf v, by rw [nodeKey_eq, hv]; rfl, hequal⟩

/-- The vector lists the values `l`. -/
def Reads (t : Table τ) (l : List τ.Value) : Prop := t.iteration.map (valueAt t) = l.map some

theorem filterMap_eq_of_map {α β : Type} {f : α → Option β} {xs : List α} {ys : List β}
    (h : xs.map f = ys.map some) : xs.filterMap f = ys := by
  have hid : xs.filterMap f = (xs.map f).filterMap id := by
    rw [List.filterMap_map]
    rfl
  rw [hid, h, List.filterMap_map]
  exact List.filterMap_some

theorem Reads.contents (h : Reads t l) : contents t = l := filterMap_eq_of_map h

theorem Consistent.reads (h : Consistent t) : Reads t (Analysis.contents t) := by
  have hsome : ∀ xs : List ℕ, (∀ x ∈ xs, (valueAt t x).isSome) →
      xs.map (valueAt t) = (xs.filterMap (valueAt t)).map some := by
    intro xs
    induction xs with
    | nil => exact fun _ => rfl
    | cons x xs ih =>
        intro hall
        obtain ⟨v, hv⟩ := Option.isSome_iff_exists.mp (hall x (by simp))
        rw [List.map_cons, ih fun y hy => hall y (by simp [hy]), List.filterMap_cons_some hv, hv]
        rfl
  refine hsome t.iteration fun x hx => ?_
  obtain ⟨e, he⟩ := Option.isSome_iff_exists.mp (h.live hx)
  rw [valueAt_of_storage he]
  rfl

theorem Consistent.length_contents (h : Consistent t) : (contents t).length = t.size := by
  have hlen := congrArg List.length h.reads
  rw [List.length_map, List.length_map] at hlen
  exact hlen.symm

theorem Consistent.contents_getElem? (h : Consistent t) (p : ℕ) :
    ((contents t)[p]?).map some = (t.iteration[p]?).map (valueAt t) := by
  have hget := congrArg (fun l => l[p]?) h.reads
  simp only [List.getElem?_map] at hget
  exact hget.symm

/-- The value at a position of the contents is that of the node at this position. -/
theorem Consistent.getElem?_contents (h : Consistent t) (hp : t.iteration[p]? = some x)
    (hv : valueAt t x = some v) : (contents t)[p]? = some v := by
  have hget := h.contents_getElem? p
  rw [hp, Option.map_some, hv] at hget
  cases hc : (contents t)[p]? with
  | none =>
      rw [hc] at hget
      cases hget
  | some u =>
      rw [hc] at hget
      cases hget
      rfl

theorem mem_contents : v ∈ contents t ↔ ∃ x ∈ t.iteration, valueAt t x = some v :=
  List.mem_filterMap

/-! ## Changes of the contents -/

theorem Reads.congr (h : Reads t l) (hiter : t'.iteration = t.iteration)
    (hvalue : ∀ x ∈ t.iteration, valueAt t' x = valueAt t x) : Reads t' l := by
  unfold Reads at h ⊢
  rw [hiter, ← h]
  exact List.map_congr_left hvalue

theorem SameElements.contents (h : SameElements t t') (hc : Consistent t) :
    Analysis.contents t' = Analysis.contents t :=
  (hc.reads.congr h.iteration fun x _ => valueAt_congr (h.storage x)).contents

theorem Refactored.contents (h : Refactored t t') (hc : Consistent t) :
    Analysis.contents t' = Analysis.contents t :=
  (hc.reads.congr h.iteration fun x _ => valueAt_congr (h.storage x)).contents

theorem Inserted.valueAt_new (h : Inserted t v i t') : valueAt t' i = some v := by
  obtain ⟨serial, hel⟩ := h.element
  exact valueAt_of_storage hel

theorem Inserted.contents (h : Inserted t v i t') (hc : Consistent t) :
    Analysis.contents t' = Analysis.contents t ++ [v] := by
  refine Reads.contents ?_
  have hold : t.iteration.map (valueAt t') = (Analysis.contents t).map some := by
    rw [← hc.reads]
    exact List.map_congr_left fun x hx => valueAt_congr (h.others x (h.ne_of_listed hc hx))
  unfold Reads
  rw [h.iteration, List.map_append, hold, List.map_append, List.map_singleton, h.valueAt_new]
  rfl

/-- The back of the contents takes the place of an erased value. -/
theorem Erased.contents (h : Erased t [x] t') (hc : Consistent t)
    (hp : t.iteration[p]? = some x) :
    Analysis.contents t' = swapRemove (Analysis.contents t) p := by
  have hnodup := hc.slots.iteration_nodup
  have horder : t'.iteration = swapRemove t.iteration p := by
    rw [h.order]
    exact swapErase_eq hnodup hp
  refine Reads.contents ?_
  have hvalues : t'.iteration.map (valueAt t') = t'.iteration.map (valueAt t) := by
    refine List.map_congr_left fun y hy => valueAt_congr (h.others y ?_)
    exact ((h.mem_iff hnodup y).mp hy).2
  unfold Reads
  rw [hvalues, horder, map_swapRemove, hc.reads, map_swapRemove]

/-- The contents are those left and those erased. -/
theorem Erased.contents_perm {l : List ℕ} (h : Erased t l t') (hc : Consistent t) :
    (Analysis.contents t' ++ l.filterMap (valueAt t)).Perm (Analysis.contents t) := by
  have hkept : Analysis.contents t' = t'.iteration.filterMap (valueAt t) := by
    refine List.filterMap_congr fun node hnode => valueAt_congr (h.others node ?_)
    exact ((h.mem_iff hc.slots.iteration_nodup node).mp hnode).2
  rw [hkept, ← List.filterMap_append]
  exact h.iteration.filterMap _

theorem Assigned.valueAt {g : τ.Value → τ.Value} (h : Assigned t x g t')
    (hv : valueAt t x = some v) (y : ℕ) :
    Analysis.valueAt t' y = if y = x then some (g v) else Analysis.valueAt t y := by
  by_cases hy : y = x
  · subst hy
    obtain ⟨e, he, he'⟩ := h.element
    rw [valueAt_of_storage he] at hv
    cases hv
    rw [if_pos rfl, valueAt_of_storage he']
  · rw [if_neg hy, valueAt_congr (h.others y hy)]

theorem Assigned.contents {g : τ.Value → τ.Value} (h : Assigned t x g t') (hc : Consistent t)
    (hp : t.iteration[p]? = some x) :
    Analysis.contents t' = (Analysis.contents t).modify p g := by
  have hnodup := hc.slots.iteration_nodup
  obtain ⟨e, he, -⟩ := h.element
  have hv := valueAt_of_storage he
  refine Reads.contents ?_
  unfold Reads
  rw [h.iteration]
  refine List.ext_getElem? fun q => ?_
  rw [List.getElem?_map, List.getElem?_map, List.getElem?_modify]
  have hq := hc.contents_getElem? q
  by_cases hqp : p = q
  · subst hqp
    rw [hp, Option.map_some, h.valueAt hv, if_pos rfl, hc.getElem?_contents hp hv]
    simp
  · simp only [if_neg hqp]
    rw [id_map', hq]
    cases hy : t.iteration[q]? with
    | none => rfl
    | some y =>
        rw [Option.map_some, Option.map_some, h.valueAt hv, if_neg]
        rintro rfl
        obtain ⟨hlt, hget⟩ := List.getElem?_eq_some_iff.mp hp
        obtain ⟨hlt', hget'⟩ := List.getElem?_eq_some_iff.mp hy
        exact hqp ((List.Nodup.getElem_inj_iff hnodup).mp (hget.trans hget'.symm))

/-! ## Keys of the contents -/

theorem present_contents_iff :
    present τ.keyOf t.keyEqual key (contents t) = true ↔ ∃ x ∈ t.iteration, Matches t key x := by
  rw [present_eq_true]
  constructor
  · rintro ⟨v, hv, hequal⟩
    obtain ⟨x, hx, hvx⟩ := mem_contents.mp hv
    exact ⟨x, hx, matches_iff_valueAt.mpr ⟨v, hvx, hequal⟩⟩
  · rintro ⟨x, hx, hm⟩
    obtain ⟨v, hvx, hequal⟩ := matches_iff_valueAt.mp hm
    exact ⟨v, mem_contents.mpr ⟨x, hx, hvx⟩, hequal⟩

theorem present_of_matches (hx : x ∈ t.iteration) (hm : Matches t key x) :
    present τ.keyOf t.keyEqual key (contents t) = true :=
  present_contents_iff.mpr ⟨x, hx, hm⟩

theorem Absent.present_eq_false (h : Absent t key) (hlaw : LawfulTable t) :
    present τ.keyOf t.keyEqual key (contents t) = false := by
  rw [← Bool.not_eq_true, present_contents_iff]
  rintro ⟨x, hx, hm⟩
  exact h.not_matches hlaw hx hm

/-- Different values of the contents have different keys. -/
theorem Distinct.contents (h : Distinct t) (hc : Consistent t) :
    DenseMap.Distinct τ.keyOf t.keyEqual (contents t) := by
  refine List.pairwise_iff_getElem.mpr fun p q hp hq hpq => ?_
  have hlen := hc.length_contents
  have hget : ∀ r (hr : r < (Analysis.contents t).length), ∃ x, t.iteration[r]? = some x ∧
      valueAt t x = some (Analysis.contents t)[r] := by
    intro r hr
    have hr' : r < t.iteration.length := by
      rw [hlen] at hr
      exact hr
    have heq := hc.contents_getElem? r
    rw [List.getElem?_eq_getElem hr, List.getElem?_eq_getElem hr'] at heq
    exact ⟨t.iteration[r], List.getElem?_eq_getElem hr', (Option.some.inj heq).symm⟩
  obtain ⟨x, hx, hvx⟩ := hget p hp
  obtain ⟨y, hy, hvy⟩ := hget q hq
  have hkey : ∀ z u, valueAt t z = some u → nodeKey t z = some (τ.keyOf u) := by
    intro z u hu
    rw [nodeKey_eq, hu]
    rfl
  have hne : x ≠ y := by
    rintro rfl
    obtain ⟨hlt, hxp⟩ := List.getElem?_eq_some_iff.mp hx
    obtain ⟨hlt', hxq⟩ := List.getElem?_eq_some_iff.mp hy
    have := (List.Nodup.getElem_inj_iff hc.slots.iteration_nodup).mp (hxp.trans hxq.symm)
    omega
  have hmx := List.mem_of_getElem? hx
  have hmy := List.mem_of_getElem? hy
  refine ⟨Bool.eq_false_iff.mpr fun hxy => ?_, Bool.eq_false_iff.mpr fun hyx => ?_⟩
  · exact hne (h x hmx y hmy _ _ (hkey x _ hvx) (hkey y _ hvy) hxy)
  · exact hne (h y hmy x hmx _ _ (hkey y _ hvy) (hkey x _ hvx) hyx).symm

theorem position_of_matches (hc : Consistent t) (hlaw : LawfulTable t) (hd : Distinct t)
    (hp : t.iteration[p]? = some x) (hm : Matches t key x) :
    position τ.keyOf t.keyEqual key (contents t) = p := by
  obtain ⟨v, hvx, hequal⟩ := matches_iff_valueAt.mp hm
  refine position_eq (hd.contents hc) (fun a b ha hb => ?_) (hc.getElem?_contents hp hvx) hequal
  exact hlaw.trans _ _ _ (hlaw.symm _ _ ha) hb

/-! ## Operations on the contents -/

/-- An insertion enters its value into the dense map. -/
theorem Entered.contents {flag : Bool} {it : ℕ} (h : Entered t (τ.keyOf v) v it flag t')
    (hc : Consistent t) (hlaw : LawfulTable t) :
    Analysis.contents t' = enter τ.keyOf t.keyEqual v (Analysis.contents t) ∧
      flag = !present τ.keyOf t.keyEqual (τ.keyOf v) (Analysis.contents t) := by
  unfold enter
  cases h with
  | inserted flag_eq absent inserted =>
      rw [absent.present_eq_false hlaw, if_neg Bool.false_ne_true]
      exact ⟨inserted.contents hc, flag_eq⟩
  | found flag_eq listed same_key same index =>
      rw [present_of_matches listed same_key, if_pos rfl]
      exact ⟨same.contents hc, flag_eq⟩

/-- An erased element leaves the dense map at its position. -/
theorem Erased.contents_key (h : Erased t [x] t') (hc : Consistent t) (hlaw : LawfulTable t)
    (hd : Distinct t) (hx : x ∈ t.iteration) (hm : Matches t key x) :
    Analysis.contents t' = remove τ.keyOf t.keyEqual key (Analysis.contents t) := by
  obtain ⟨p, hp⟩ := List.mem_iff_getElem?.mp hx
  unfold remove
  rw [present_of_matches hx hm, if_pos rfl, position_of_matches hc hlaw hd hp hm]
  exact h.contents hc hp

theorem ErasedKey.contents {n : ℕ} (h : ErasedKey t key n t') (hc : Consistent t)
    (hlaw : LawfulTable t) (hd : Distinct t) :
    Analysis.contents t' = remove τ.keyOf t.keyEqual key (Analysis.contents t) ∧
      n = (present τ.keyOf t.keyEqual key (Analysis.contents t)).toNat := by
  cases h with
  | absent count absent same =>
      unfold remove
      rw [absent.present_eq_false hlaw, if_neg Bool.false_ne_true, same]
      exact ⟨rfl, count⟩
  | erased count x listed same_key erased =>
      rw [present_of_matches listed same_key]
      exact ⟨erased.contents_key hc hlaw hd listed same_key, count⟩

/-- `insert_or_assign` enters a value or assigns to the one that is there. -/
theorem EnteredOrAssigned.contents {mapped : τ.Mapped} {flag : Bool} {it : ℕ}
    (h : EnteredOrAssigned t key mapped it flag t') (hc : Consistent t) (hlaw : LawfulTable t)
    (hd : Distinct t) :
    Analysis.contents t' =
        (if present τ.keyOf t.keyEqual key (Analysis.contents t) then
          assign τ.keyOf t.keyEqual key (fun v => τ.assignMapped v mapped) (Analysis.contents t)
        else Analysis.contents t ++ [τ.makeValue key mapped]) ∧
      flag = !present τ.keyOf t.keyEqual key (Analysis.contents t) := by
  cases h with
  | entered absent entered =>
      have hfalse := absent.present_eq_false hlaw
      rw [hfalse, if_neg Bool.false_ne_true]
      cases entered with
      | inserted flag_eq absent' inserted => exact ⟨inserted.contents hc, flag_eq⟩
      | found flag_eq listed same_key same index =>
          rw [present_of_matches listed same_key] at hfalse
          cases hfalse
  | assigned flag_eq listed same_key assigned =>
      obtain ⟨p, hp⟩ := List.mem_iff_getElem?.mp listed
      rw [present_of_matches listed same_key, if_pos rfl]
      unfold assign
      rw [position_of_matches hc hlaw hd hp same_key]
      exact ⟨assigned.contents hc hp, flag_eq⟩

end Fum.Analysis

import Fum.Analysis.Resizing

/-!
# Distinct keys

With lawful functors no two elements of a table have equal keys, so a key that is found
names one element. A table with other functors is still consistent; what it holds is not
a map.
-/

set_option autoImplicit false

namespace Fum.Analysis

open Fum.Model Effects

variable {τ : Traits} {t t' : Table τ} {l : List ℕ} {i x y : ℕ} {v : τ.Value} {key : τ.Key}

/-- What a container asks of its functors: `key_equal` is an equivalence, and equal keys
hash equally. -/
structure Lawful {K : Type} (hash : K → UInt64) (equal : K → K → Bool) : Prop where
  refl : ∀ a, equal a a = true
  symm : ∀ a b, equal a b = true → equal b a = true
  trans : ∀ a b c, equal a b = true → equal b c = true → equal a c = true
  hash_eq : ∀ a b, equal a b = true → hash a = hash b

/-- Functors that go by the images of the keys are lawful for a comparison that decides
equality of the images. -/
theorem lawful_image {K I : Type} [BEq I] [LawfulBEq I] (f : K → I) (hash : I → UInt64) :
    Lawful (fun a => hash (f a)) fun a b => f a == f b where
  refl _ := beq_self_eq_true _
  symm a b h := by
    rw [beq_iff_eq] at h ⊢
    exact h.symm
  trans a b c h h' := by
    rw [beq_iff_eq] at h h' ⊢
    exact h.trans h'
  hash_eq a b h := by rw [eq_of_beq h]

/-- Any hasher is lawful for a comparison that decides equality. -/
theorem lawful_beq {K : Type} [BEq K] [LawfulBEq K] (hash : K → UInt64) :
    Lawful hash fun a b => a == b :=
  lawful_image id hash

/-- The functors of the table are lawful. -/
def LawfulTable (t : Table τ) : Prop := Lawful t.hashFunction t.keyEqual

theorem LawfulTable.mixedHash (h : LawfulTable t) {a b : τ.Key} (hab : t.keyEqual a b = true) :
    t.mixedHash a = t.mixedHash b := by
  unfold Table.mixedHash
  rw [h.hash_eq a b hab]

theorem SamePolicy.lawfulTable (h : SamePolicy t t') : LawfulTable t' ↔ LawfulTable t := by
  unfold LawfulTable
  rw [h.hashFunction, h.keyEqual]

/-! ## Keys of nodes -/

/-- The key of the element in a node. -/
def nodeKey (t : Table τ) (x : ℕ) : Option τ.Key :=
  (t.nodeAt x).storage.map fun e => τ.keyOf e.value

theorem nodeKey_of_storage {e : Element τ} (h : (t.nodeAt x).storage = some e) :
    nodeKey t x = some (τ.keyOf e.value) := by
  unfold nodeKey
  rw [h]
  rfl

theorem nodeKey_congr (h : (t'.nodeAt x).storage = (t.nodeAt x).storage) :
    nodeKey t' x = nodeKey t x := by
  unfold nodeKey
  rw [h]

theorem matches_iff : Matches t key x ↔ ∃ a, nodeKey t x = some a ∧ t.keyEqual key a = true := by
  constructor
  · rintro ⟨e, he, hequal⟩
    exact ⟨_, nodeKey_of_storage he, hequal⟩
  · rintro ⟨a, ha, hequal⟩
    obtain ⟨e, he, rfl⟩ := Option.map_eq_some_iff.mp ha
    exact ⟨e, he, hequal⟩

theorem matches_congr (hk : nodeKey t' x = nodeKey t x) (he : t'.keyEqual = t.keyEqual) :
    Matches t' key x ↔ Matches t key x := by
  rw [matches_iff, matches_iff, hk, he]

theorem not_matches_iff : ¬ Matches t key x ↔ Differs t key x := by
  constructor
  · intro h e he
    exact Bool.eq_false_iff.mpr fun hequal => h ⟨e, he, hequal⟩
  · rintro h ⟨e, he, hequal⟩
    rw [h e he] at hequal
    cases hequal

theorem Matches.ownHash (h : Matches t key x) (hlaw : LawfulTable t) :
    ownHash t x = t.mixedHash key := by
  obtain ⟨e, he, hequal⟩ := h
  rw [ownHash_of_storage he, hlaw.mixedHash hequal]

/-- With lawful functors a key that is absent equals no key of the table. -/
theorem Absent.not_matches (h : Absent t key) (hlaw : LawfulTable t) (hx : x ∈ t.iteration) :
    ¬ Matches t key x :=
  fun hm => not_matches_iff.mpr (h x hx (hm.ownHash hlaw)) hm

/-! ## Distinct keys -/

/-- Different nodes of the iteration vector hold different keys. -/
def Distinct (t : Table τ) : Prop :=
  ∀ x ∈ t.iteration, ∀ y ∈ t.iteration, ∀ a b, nodeKey t x = some a → nodeKey t y = some b →
    t.keyEqual a b = true → x = y

/-- A key names at most one element. -/
theorem Distinct.unique (h : Distinct t) (hlaw : LawfulTable t) (hx : x ∈ t.iteration)
    (hy : y ∈ t.iteration) (hmx : Matches t key x) (hmy : Matches t key y) : x = y := by
  obtain ⟨a, ha, hxa⟩ := matches_iff.mp hmx
  obtain ⟨b, hb, hyb⟩ := matches_iff.mp hmy
  exact h x hx y hy a b ha hb (hlaw.trans _ _ _ (hlaw.symm _ _ hxa) hyb)

/-- Fewer elements with the same keys. -/
theorem Distinct.congr (h : Distinct t) (hsub : ∀ x ∈ t'.iteration, x ∈ t.iteration)
    (hkeys : ∀ x ∈ t'.iteration, nodeKey t' x = nodeKey t x) (hequal : t'.keyEqual = t.keyEqual) :
    Distinct t' := by
  intro x hx y hy a b ha hb hab
  rw [hkeys x hx] at ha
  rw [hkeys y hy] at hb
  rw [hequal] at hab
  exact h x (hsub x hx) y (hsub y hy) a b ha hb hab

theorem SameElements.distinct (h : SameElements t t') (hd : Distinct t) : Distinct t' :=
  hd.congr (fun x hx => by rwa [← h.iteration]) (fun x _ => nodeKey_congr (h.storage x))
    h.policy.keyEqual

theorem Erased.distinct (h : Erased t l t') (hnodup : t.iteration.Nodup) (hd : Distinct t) :
    Distinct t' :=
  hd.congr (fun x hx => ((h.mem_iff hnodup x).mp hx).1)
    (fun x hx => nodeKey_congr (h.others x ((h.mem_iff hnodup x).mp hx).2)) h.policy.keyEqual

theorem Assigned.nodeKey {g : τ.Value → τ.Value} (h : Assigned t x g t')
    (hg : ∀ v, τ.keyOf (g v) = τ.keyOf v) (y : ℕ) : nodeKey t' y = nodeKey t y := by
  by_cases hy : y = x
  · subst hy
    obtain ⟨e, he, he'⟩ := h.element
    rw [nodeKey_of_storage he, nodeKey_of_storage he', hg]
  · exact nodeKey_congr (h.others y hy)

theorem Assigned.distinct {g : τ.Value → τ.Value} (h : Assigned t x g t')
    (hg : ∀ v, τ.keyOf (g v) = τ.keyOf v) (hd : Distinct t) : Distinct t' :=
  hd.congr (fun y hy => by rwa [← h.iteration]) (fun y _ => h.nodeKey hg y) h.policy.keyEqual

/-- A new element whose key was absent. -/
theorem Inserted.distinct (h : Inserted t v i t') (hc : Consistent t) (hlaw : LawfulTable t)
    (habs : Absent t (τ.keyOf v)) (hd : Distinct t) : Distinct t' := by
  have hne : ∀ x ∈ t.iteration, x ≠ i := fun x hx => h.ne_of_listed hc hx
  have hkeys : ∀ x ∈ t.iteration, nodeKey t' x = nodeKey t x :=
    fun x hx => nodeKey_congr (h.others x (hne x hx))
  have hnew : nodeKey t' i = some (τ.keyOf v) := by
    obtain ⟨serial, hel⟩ := h.element
    exact nodeKey_of_storage hel
  have hdiff : ∀ x ∈ t.iteration, ∀ a, nodeKey t x = some a → t.keyEqual (τ.keyOf v) a ≠ true :=
    fun x hx a ha hequal => habs.not_matches hlaw hx (matches_iff.mpr ⟨a, ha, hequal⟩)
  intro x hx y hy a b ha hb hab
  rw [h.policy.keyEqual] at hab
  rw [h.iteration, List.mem_append, List.mem_singleton] at hx hy
  rcases hx with hx | rfl
  · rw [hkeys x hx] at ha
    rcases hy with hy | rfl
    · rw [hkeys y hy] at hb
      exact hd x hx y hy a b ha hb hab
    · rw [hnew] at hb
      cases hb
      exact absurd (hlaw.symm _ _ hab) (hdiff x hx a ha)
  · rw [hnew] at ha
    cases ha
    rcases hy with hy | rfl
    · rw [hkeys y hy] at hb
      exact absurd hab (hdiff y hy b hb)
    · rfl

/-- A consistent table that is a map if its functors are lawful. -/
structure WellFormed (t : Table τ) : Prop where
  consistent : Consistent t
  distinct : LawfulTable t → Distinct t

theorem WellFormed.of_sameElements (h : WellFormed t) (hs : SameElements t t')
    (hc : Consistent t') : WellFormed t' :=
  ⟨hc, fun hlaw => hs.distinct (h.distinct (hs.policy.lawfulTable.mp hlaw))⟩

theorem WellFormed.of_erased (h : WellFormed t) (he : Erased t l t') (hc : Consistent t') :
    WellFormed t' :=
  ⟨hc, fun hlaw => he.distinct h.consistent.slots.iteration_nodup
    (h.distinct (he.policy.lawfulTable.mp hlaw))⟩

theorem WellFormed.of_assigned {g : τ.Value → τ.Value} (h : WellFormed t)
    (ha : Assigned t x g t') (hg : ∀ v, τ.keyOf (g v) = τ.keyOf v) (hc : Consistent t') :
    WellFormed t' :=
  ⟨hc, fun hlaw => ha.distinct hg (h.distinct (ha.policy.lawfulTable.mp hlaw))⟩

theorem WellFormed.of_inserted (h : WellFormed t) (hi : Inserted t v i t')
    (habs : Absent t (τ.keyOf v)) (hc : Consistent t') : WellFormed t' := by
  refine ⟨hc, fun hlaw => ?_⟩
  have hlaw' := hi.policy.lawfulTable.mp hlaw
  exact hi.distinct h.consistent hlaw' habs (h.distinct hlaw')

theorem WellFormed.of_entered {flag : Bool} (h : WellFormed t)
    (he : Entered t (τ.keyOf v) v i flag t') (hc : Consistent t') : WellFormed t' := by
  cases he with
  | inserted flag_eq absent inserted => exact h.of_inserted inserted absent hc
  | found flag_eq listed same_key same index => exact h.of_sameElements same hc

theorem WellFormed.of_refactored (h : WellFormed t) (hr : Refactored t t') (hc : Consistent t') :
    WellFormed t' := by
  refine ⟨hc, fun hlaw => ?_⟩
  have hlaw' : LawfulTable t := by
    unfold LawfulTable at hlaw ⊢
    rwa [← hr.hashFunction, ← hr.keyEqual]
  exact (h.distinct hlaw').congr (fun x hx => by rwa [← hr.iteration])
    (fun x _ => nodeKey_congr (hr.storage x)) hr.keyEqual

theorem WellFormed.of_empty (hc : Consistent t) (hempty : t.iteration = []) : WellFormed t := by
  refine ⟨hc, fun _ x hx => ?_⟩
  rw [hempty] at hx
  cases hx

end Fum.Analysis

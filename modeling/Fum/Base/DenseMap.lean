import Fum.Base.SwapRemove
import Mathlib.Data.List.Induction
import Mathlib.Data.Multiset.ZeroCons

/-!
# Dense maps

A map kept as a vector of entries with pairwise different keys: a new entry goes to the
back, and the back takes the place of an erased one. Keys are compared by an arbitrary
relation; what needs it to be an equivalence says so.
-/

set_option autoImplicit false

namespace DenseMap

open SwapRemove
open scoped List

variable {α κ : Type} {key : α → κ} {same : κ → κ → Bool} {l l' : List α} {k : κ} {a v : α}

/-- The comparison of a key with the key of an entry. -/
def hits (key : α → κ) (same : κ → κ → Bool) (k : κ) (a : α) : Bool := same k (key a)

/-- Some entry has the key. -/
def present (key : α → κ) (same : κ → κ → Bool) (k : κ) (l : List α) : Bool :=
  l.any (hits key same k)

/-- The position of the key, the length of the vector if it is absent. -/
def position (key : α → κ) (same : κ → κ → Bool) (k : κ) (l : List α) : ℕ :=
  l.findIdx (hits key same k)

/-- The entry with the key. -/
def lookup (key : α → κ) (same : κ → κ → Bool) (k : κ) (l : List α) : Option α :=
  l.find? (hits key same k)

/-- The first entry with a key wins. -/
def enter (key : α → κ) (same : κ → κ → Bool) (v : α) (l : List α) : List α :=
  if present key same (key v) l then l else l ++ [v]

/-- The entry with the key, changed by `f`. -/
def assign (key : α → κ) (same : κ → κ → Bool) (k : κ) (f : α → α) (l : List α) : List α :=
  l.modify (position key same k l) f

/-- The entry with the key goes. -/
def remove (key : α → κ) (same : κ → κ → Bool) (k : κ) (l : List α) : List α :=
  if present key same k l then swapRemove l (position key same k l) else l

/-- The entries with the keys of those in `gone` go, one after the other. -/
def removeEach (key : α → κ) (same : κ → κ → Bool) (gone l : List α) : List α :=
  gone.foldl (fun l a => remove key same (key a) l) l

/-- Different positions hold different keys. -/
def Distinct (key : α → κ) (same : κ → κ → Bool) (l : List α) : Prop :=
  l.Pairwise fun a b => same (key a) (key b) = false ∧ same (key b) (key a) = false

/-- The entries of a second vector that are entered into the first one, in their order. -/
def absorbed (key : α → κ) (same : κ → κ → Bool) : List α → List α → List α
  | _, [] => []
  | l, v :: rest =>
      if present key same (key v) l then absorbed key same l rest
      else v :: absorbed key same (l ++ [v]) rest

theorem present_eq_true : present key same k l = true ↔ ∃ a ∈ l, same k (key a) = true := by
  unfold present
  rw [List.any_eq_true]
  rfl

theorem present_eq_false : present key same k l = false ↔ ∀ a ∈ l, same k (key a) = false := by
  unfold present
  rw [List.any_eq_false]
  exact forall₂_congr fun a _ => iff_of_eq (Bool.not_eq_true _)

/-- The entry found at a position where the key stands. -/
theorem position_eq (hd : Distinct key same l)
    (hsame : ∀ a b, same k (key a) = true → same k (key b) = true → same (key a) (key b) = true)
    {p : ℕ} (hp : l[p]? = some a) (ha : same k (key a) = true) : position key same k l = p := by
  obtain ⟨hlt, rfl⟩ := List.getElem?_eq_some_iff.mp hp
  unfold position
  rw [List.findIdx_eq hlt]
  refine ⟨ha, fun j hj => ?_⟩
  by_contra hne
  have hj' : same k (key l[j]) = true := by simpa [hits] using hne
  have hpair := List.pairwise_iff_getElem.mp hd j p (by omega) hlt hj
  have htrue := hsame _ _ hj' ha
  rw [hpair.1] at htrue
  cases htrue

theorem distinct_perm (h : l.Perm l') (hd : Distinct key same l) : Distinct key same l' :=
  (h.pairwise_iff fun h => ⟨h.2, h.1⟩).mp hd

theorem Distinct.swapRemove {p : ℕ} (hd : Distinct key same l) (hp : p < l.length) :
    Distinct key same (swapRemove l p) :=
  (List.pairwise_append.mp (distinct_perm (swapRemove_perm hp).symm hd)).1

/-- There are no more entries than keys that they may have. -/
theorem Distinct.length_le {ks : List κ} (hd : Distinct key same l)
    (hrefl : ∀ k, same k k = true) (hks : ∀ a ∈ l, key a ∈ ks) : l.length ≤ ks.length := by
  have hnodup : (l.map key).Nodup := List.pairwise_map.mpr (hd.imp fun {a b} h heq => by
    have hsame := hrefl (key a)
    nth_rewrite 2 [heq] at hsame
    rw [h.1] at hsame
    cases hsame)
  have hsub : l.map key ⊆ ks := fun k hk => by
    obtain ⟨a, ha, rfl⟩ := List.mem_map.mp hk
    exact hks a ha
  rw [← List.length_map key]
  exact (List.subperm_of_subset hnodup hsub).length_le

/-- The entry at a position goes when its key is removed. -/
theorem remove_eq_swapRemove (hd : Distinct key same l)
    (hsame : ∀ a b, same k (key a) = true → same k (key b) = true → same (key a) (key b) = true)
    {p : ℕ} (hp : l[p]? = some a) (ha : same k (key a) = true) :
    remove key same k l = swapRemove l p := by
  unfold remove
  rw [if_pos (present_eq_true.mpr ⟨a, List.mem_of_getElem? hp, ha⟩), position_eq hd hsame hp ha]

/-- Names of entries that are erased one after the other, and the entries that they name. -/
theorem map_foldl_swapErase {β : Type} [DecidableEq β] {f : β → Option α}
    (hrefl : ∀ k, same k k = true) (htrans : ∀ a b c, same a b = true → same a c = true →
      same b c = true) (gone : List β) : ∀ {names : List β} {l : List α}, names.Nodup →
      Distinct key same l → names.map f = l.map some → gone.Nodup → (∀ x ∈ gone, x ∈ names) →
      (gone.foldl swapErase names).map f =
        (removeEach key same (gone.filterMap f) l).map some := by
  induction gone with
  | nil => exact fun _ _ hmap _ _ => hmap
  | cons x gone ih =>
      intro names l hnodup hd hmap hgone hsub
      obtain ⟨hx, hgone'⟩ := List.nodup_cons.mp hgone
      obtain ⟨p, hp⟩ := List.mem_iff_getElem?.mp (hsub x List.mem_cons_self)
      have hget : (l.map some)[p]? = some (f x) := by
        rw [← hmap, List.getElem?_map, hp]
        rfl
      rw [List.getElem?_map] at hget
      obtain ⟨a, hla, hfa⟩ := Option.map_eq_some_iff.mp hget
      have hlt : p < l.length := (List.getElem?_eq_some_iff.mp hla).1
      have hremove : remove key same (key a) l = SwapRemove.swapRemove l p :=
        remove_eq_swapRemove hd (fun _ _ => htrans _ _ _) hla (hrefl _)
      have hnames : (swapErase names x).map f = (SwapRemove.swapRemove l p).map some := by
        rw [swapErase_eq hnodup hp, map_swapRemove, hmap, map_swapRemove]
      have hsub' : ∀ y ∈ gone, y ∈ swapErase names x := by
        intro y hy
        have hmem : y ∈ swapErase names x ++ [x] :=
          (swapErase_perm (hsub x List.mem_cons_self)).mem_iff.mpr
            (hsub y (List.mem_cons_of_mem x hy))
        rcases List.mem_append.mp hmem with h | h
        · exact h
        · exact absurd (List.mem_singleton.mp h ▸ hy) hx
      rw [List.foldl_cons, List.filterMap_cons_some hfa.symm]
      have hrest := ih (swapErase_nodup hnodup (hsub x List.mem_cons_self)) (hd.swapRemove hlt)
        hnames hgone' hsub'
      unfold removeEach at hrest ⊢
      rw [List.foldl_cons, hremove]
      exact hrest

/-- One more entry is absorbed unless its key is there by then. -/
theorem absorbed_append_singleton (l xs : List α) (v : α) :
    absorbed key same l (xs ++ [v]) = absorbed key same l xs ++
      if present key same (key v) (l ++ absorbed key same l xs) then [] else [v] := by
  induction xs generalizing l with
  | nil =>
      rw [List.nil_append, absorbed, absorbed, absorbed, List.append_nil, List.nil_append]
      rfl
  | cons x xs ih =>
      rw [List.cons_append, absorbed, absorbed]
      by_cases hx : present key same (key x) l = true
      · rw [if_pos hx, if_pos hx]
        exact ih l
      · rw [if_neg hx, if_neg hx, ih (l ++ [x]), List.cons_append, List.append_assoc l,
          List.singleton_append]

/-- What has been absorbed stays absorbed. -/
theorem absorbed_prefix (l xs ys : List α) :
    absorbed key same l xs <+: absorbed key same l (xs ++ ys) := by
  induction ys using List.reverseRecOn with
  | nil => simp
  | append_singleton ys v ih =>
      rw [← List.append_assoc, absorbed_append_singleton]
      exact ih.trans (List.prefix_append _ _)

/-- Nothing is absorbed of entries whose keys are all there. -/
theorem absorbed_eq_nil {xs : List α} (h : ∀ v ∈ xs, present key same (key v) l = true) :
    absorbed key same l xs = [] := by
  induction xs with
  | nil => rfl
  | cons x xs ih =>
      rw [absorbed, if_pos (h x (by simp))]
      exact ih fun v hv => h v (by simp [hv])

/-- A change of one entry, as a change of the entries up to their order. -/
theorem modify_perm {f : α → α} {p : ℕ} (hp : l[p]? = some a) :
    (l.modify p f ++ [a]).Perm (l ++ [f a]) := by
  induction l generalizing p with
  | nil => cases hp
  | cons x xs ih =>
      cases p with
      | zero =>
          cases hp
          calc f a :: (xs ++ [a])
            _ ~ f a :: a :: xs := (List.perm_append_singleton a xs).cons _
            _ ~ a :: f a :: xs := List.Perm.swap ..
            _ ~ a :: (xs ++ [f a]) := (List.perm_append_singleton (f a) xs).symm.cons _
      | succ p => exact (ih hp).cons x

/-- Two vectors of the same length match up to the order when every entry of the first has
a counterpart in the second and no two of them share one. -/
theorem rel_iff_total {r : α → α → Prop}
    (hone : l.Pairwise fun a a' => ∀ b ∈ l', r a b → ¬ r a' b) :
    Multiset.Rel r l l' ↔ l.length = l'.length ∧ ∀ a ∈ l, ∃ b ∈ l', r a b := by
  constructor
  · intro h
    exact ⟨Multiset.card_eq_card_of_rel h, fun a ha => Multiset.exists_mem_of_rel_of_mem h ha⟩
  · rintro ⟨hlen, htotal⟩
    induction l generalizing l' with
    | nil =>
        rw [List.length_nil] at hlen
        rw [List.eq_nil_of_length_eq_zero hlen.symm]
        exact Multiset.Rel.zero
    | cons a l ih =>
        obtain ⟨b, hb, hab⟩ := htotal a List.mem_cons_self
        obtain ⟨front, back, rfl⟩ := List.append_of_mem hb
        obtain ⟨hfirst, hrest⟩ := List.pairwise_cons.mp hone
        have hsub : ∀ b' ∈ front ++ back, b' ∈ front ++ b :: back := by
          intro b' hb'
          simp only [List.mem_append, List.mem_cons] at hb' ⊢
          tauto
        have htail : Multiset.Rel r l (front ++ back : List α) := by
          apply ih
          · exact hrest.imp fun h b' hb' => h b' (hsub b' hb')
          · simp only [List.length_cons, List.length_append] at hlen ⊢
            omega
          · intro a' ha'
            obtain ⟨b', hb', hr⟩ := htotal a' (List.mem_cons_of_mem a ha')
            refine ⟨b', ?_, hr⟩
            -- the counterpart of `a` is not one of `a'`
            have hne : b' ≠ b := by
              rintro rfl
              exact hfirst a' ha' b' hb' hab hr
            simp only [List.mem_append, List.mem_cons] at hb' ⊢
            tauto
        have hperm : ((front ++ b :: back : List α) : Multiset α) =
            b ::ₘ ((front ++ back : List α) : Multiset α) :=
          Multiset.coe_eq_coe.mpr List.perm_middle
        rw [hperm, ← Multiset.cons_coe]
        exact Multiset.Rel.cons hab htail

/-- Where no entry has two counterparts, a finer relation matches two vectors if and only if the
coarser one does, unless the coarser one does and two counterparts are not related by the finer
one. -/
theorem rel_iff_rel_finer {r p : α → α → Prop} (hfiner : ∀ a b, p a b → r a b)
    (hone : ∀ a ∈ l, ∀ b ∈ l', ∀ b' ∈ l', r a b → r a b' → b = b') :
    (Multiset.Rel r l l' ↔ Multiset.Rel p l l') ↔
      (Multiset.Rel r l l' → ∀ a ∈ l, ∀ b ∈ l', r a b → p a b) := by
  constructor
  · intro hiff hr a ha b hb hab
    obtain ⟨b', hb', hp⟩ := Multiset.exists_mem_of_rel_of_mem (hiff.mp hr) ha
    rwa [hone a ha b hb b' hb' hab (hfiner a b' hp)]
  · intro hagree
    exact ⟨fun hr => hr.mono fun a ha b hb hab => hagree hr a ha b hb hab,
      fun hp => hp.mono fun a _ b _ => hfiner a b⟩

end DenseMap

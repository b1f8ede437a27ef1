import Fum.Base.DenseMap
import Mathlib.Data.List.Pairwise

/-!
# Plain maps

A finite map as its entries, in no order that matters: a new entry is put in if its key is
not there, the entry with a key is changed, the entries with some keys go. Keys are compared
by an equivalence.
-/

set_option autoImplicit false

namespace PlainMap

open DenseMap SwapRemove
open scoped List

variable {α κ : Type} {key : α → κ} {same : κ → κ → Bool} {l m gone : List α} {k : κ}
  {ks : List κ} {a b : α} {f : α → α}

/-- The comparison of keys is an equivalence. -/
structure Comparison (same : κ → κ → Bool) : Prop where
  refl : ∀ a, same a a = true
  symm : ∀ a b, same a b = true → same b a = true
  trans : ∀ a b c, same a b = true → same b c = true → same a c = true

/-- The entry with the key `k` is changed by `f`. -/
def update (key : α → κ) (same : κ → κ → Bool) (k : κ) (f : α → α) (m : List α) : List α :=
  m.map fun a => if same k (key a) then f a else a

/-- The entries with the keys `ks` go. -/
def erase (key : α → κ) (same : κ → κ → Bool) (ks : List κ) (m : List α) : List α :=
  m.filter fun a => !ks.any fun k => same k (key a)

/-- What can be done to a map. -/
inductive Call (α κ : Type) where
  /-- The first entry with a key wins. -/
  | put (a : α)
  /-- A new entry, or a change of the one that has its key. -/
  | putOrUpdate (a : α) (f : α → α)
  | update (k : κ) (f : α → α)
  | erase (ks : List κ)
  | clear
  | keep

/-- The map after a call. -/
def Call.next (key : α → κ) (same : κ → κ → Bool) (m : List α) : Call α κ → List α
  | .put a => if (lookup key same (key a) m).isSome then m else a :: m
  | .putOrUpdate a f =>
      if (lookup key same (key a) m).isSome then PlainMap.update key same (key a) f m else a :: m
  | .update k f => PlainMap.update key same k f m
  | .erase ks => PlainMap.erase key same ks m
  | .clear => []
  | .keep => m

/-- The call gives no entry a key that is not one of `ks`. -/
def Call.Within (key : α → κ) (ks : List κ) : Call α κ → Prop
  | .put a => key a ∈ ks
  | .putOrUpdate a f => key a ∈ ks ∧ ∀ b, key (f b) = key b
  | .update _ f => ∀ b, key (f b) = key b
  | .erase _ | .clear | .keep => True

theorem Call.Within.next {call : Call α κ} (h : call.Within key ks) (hm : ∀ a ∈ m, key a ∈ ks) :
    ∀ a ∈ call.next key same m, key a ∈ ks := by
  have hupdate : ∀ k (f : α → α), (∀ b, key (f b) = key b) →
      ∀ a ∈ PlainMap.update key same k f m, key a ∈ ks := by
    intro k f hf a ha
    obtain ⟨b, hb, rfl⟩ := List.mem_map.mp ha
    split
    · rw [hf]
      exact hm b hb
    · exact hm b hb
  have hcons : ∀ b, key b ∈ ks → ∀ a ∈ b :: m, key a ∈ ks := fun b hb =>
    List.forall_mem_cons.mpr ⟨hb, hm⟩
  intro a ha
  cases call with
  | put b =>
      simp only [Call.next] at ha
      split at ha
      · exact hm a ha
      · exact hcons b h a ha
  | putOrUpdate b f =>
      simp only [Call.next] at ha
      split at ha
      · exact hupdate _ f h.2 a ha
      · exact hcons b h.1 a ha
  | update k f => exact hupdate k f h a ha
  | erase ks' => exact hm a (List.mem_of_mem_filter ha)
  | clear => cases ha
  | keep => exact hm a ha

theorem Call.length_next_le (call : Call α κ) (m : List α) :
    (call.next key same m).length ≤ m.length + 1 := by
  have hupdate : ∀ k (f : α → α), (PlainMap.update key same k f m).length ≤ m.length + 1 :=
    fun k f => (List.length_map _).le.trans (Nat.le_succ _)
  cases call with
  | put b =>
      simp only [Call.next]
      split
      · exact Nat.le_succ _
      · exact le_rfl
  | putOrUpdate b f =>
      simp only [Call.next]
      split
      · exact hupdate _ f
      · exact le_rfl
  | update k f => exact hupdate k f
  | erase ks => exact (List.length_filter_le _ _).trans (Nat.le_succ _)
  | clear => exact Nat.zero_le _
  | keep => exact Nat.le_succ _

/-! ## Lookup -/

theorem isSome_lookup (k : κ) (m : List α) :
    (lookup key same k m).isSome = present key same k m := List.isSome_find?

theorem present_perm (h : l.Perm m) : present key same k l = present key same k m := h.any_eq

theorem of_lookup (h : lookup key same k m = some a) : a ∈ m ∧ same k (key a) = true := by
  unfold lookup at h
  have hhit : hits key same k a = true := List.find?_some h
  exact ⟨List.mem_of_find?_eq_some h, hhit⟩

/-- What has been put in is there. -/
theorem isSome_lookup_put (key : α → κ) (hs : Comparison same) (a : α) (m : List α) :
    (lookup key same (key a) ((Call.put a).next key same m)).isSome := by
  simp only [Call.next]
  split
  · assumption
  · rw [isSome_lookup, present_eq_true]
    exact ⟨a, List.mem_cons_self, hs.refl _⟩

/-- Two entries with one key are one. -/
theorem entry_unique (hs : Comparison same) (hd : Distinct key same m) (ha : a ∈ m)
    (hb : b ∈ m) (hka : same k (key a) = true) (hkb : same k (key b) = true) : a = b := by
  have hab : same (key a) (key b) = true := hs.trans _ _ _ (hs.symm _ _ hka) hkb
  by_contra hne
  have : Std.Symm fun a b : α => same (key a) (key b) = false ∧ same (key b) (key a) = false :=
    ⟨fun _ _ h => ⟨h.2, h.1⟩⟩
  have h := List.Pairwise.forall hd ha hb hne
  rw [h.1] at hab
  cases hab

theorem lookup_eq_some (hs : Comparison same) (hd : Distinct key same m) (ha : a ∈ m)
    (hk : same k (key a) = true) : lookup key same k m = some a := by
  have hsome : (lookup key same k m).isSome := by
    rw [isSome_lookup, present_eq_true]
    exact ⟨a, ha, hk⟩
  obtain ⟨b, hb⟩ := Option.isSome_iff_exists.mp hsome
  obtain ⟨hmem, hkb⟩ := of_lookup hb
  rw [hb, entry_unique hs hd ha hmem hk hkb]

/-- The entry that stands at the position of a key. -/
theorem position_of_present (h : present key same k l = true) :
    ∃ b, l[position key same k l]? = some b ∧ same k (key b) = true := by
  have hlt : l.findIdx (hits key same k) < l.length :=
    List.findIdx_lt_length.mpr (by simpa [present] using h)
  have hhit : hits key same k l[l.findIdx (hits key same k)] = true :=
    List.findIdx_getElem (p := hits key same k)
  exact ⟨_, List.getElem?_eq_getElem hlt, hhit⟩

/-! ## Changes -/

theorem update_of_absent (h : ∀ a ∈ m, same k (key a) = false) : update key same k f m = m := by
  induction m with
  | nil => rfl
  | cons x xs ih =>
      have hx : same k (key x) = false := h x (by simp)
      have hxs : update key same k f xs = xs := ih fun a ha => h a (by simp [ha])
      simp only [update, List.map_cons, hx] at hxs ⊢
      rw [hxs]
      rfl

/-- The changed entry, and the entry that it was. -/
theorem update_perm (hs : Comparison same) (hd : Distinct key same m) (ha : a ∈ m)
    (hk : same k (key a) = true) : (update key same k f m ++ [a]).Perm (m ++ [f a]) := by
  induction m with
  | nil => cases ha
  | cons x xs ih =>
      obtain ⟨hx, hxs⟩ := List.pairwise_cons.mp hd
      by_cases hkx : same k (key x) = true
      · have hax : a = x := entry_unique hs hd ha (by simp) hk hkx
        subst hax
        have hrest : update key same k f xs = xs := by
          apply update_of_absent
          intro b hb
          by_contra hkb
          have hab := hs.trans _ _ _ (hs.symm _ _ hk) (eq_true_of_ne_false hkb)
          rw [(hx b hb).1] at hab
          cases hab
        have hcons : update key same k f (a :: xs) = f a :: update key same k f xs := by
          simp [update, hkx]
        rw [hcons, hrest]
        calc f a :: xs ++ [a]
          _ ~ a :: (f a :: xs) := List.perm_append_singleton a (f a :: xs)
          _ ~ f a :: (a :: xs) := List.Perm.swap ..
          _ ~ a :: xs ++ [f a] := (List.perm_append_singleton (f a) (a :: xs)).symm
      · have hmem : a ∈ xs := by
          rcases List.mem_cons.mp ha with rfl | h
          · exact absurd hk hkx
          · exact h
        have hcons : update key same k f (x :: xs) = x :: update key same k f xs := by
          simp [update, hkx]
        rw [hcons]
        exact (ih hxs hmem).cons x

theorem remove_of_lookup (h : lookup key same k l = none) : remove key same k l = l := by
  have habsent : present key same k l = false := by
    rw [← isSome_lookup, h]
    rfl
  unfold remove
  rw [habsent, if_neg Bool.false_ne_true]

/-- An entry that goes and is put in again. -/
theorem enter_remove_perm (hs : Comparison same) (hd : Distinct key same l)
    (h : lookup key same k l = some a) : (enter key same a (remove key same k l)).Perm l := by
  obtain ⟨ha, hka⟩ := of_lookup h
  have hpresent : present key same k l = true := present_eq_true.mpr ⟨a, ha, hka⟩
  obtain ⟨b, hb, hkb⟩ := position_of_present hpresent
  obtain ⟨hlt, rfl⟩ := List.getElem?_eq_some_iff.mp hb
  have hab : l[position key same k l] = a := entry_unique hs hd (List.getElem_mem hlt) ha hkb hka
  have hperm := swapRemove_perm hlt
  rw [hab] at hperm
  have hrest := (List.pairwise_append.mp (distinct_perm hperm.symm hd)).2.2
  have habsent : present key same (key a) (swapRemove l (position key same k l)) = false :=
    present_eq_false.mpr fun c hc => (hrest c hc a (List.mem_singleton_self a)).2
  unfold remove enter
  rw [if_pos hpresent, habsent, if_neg Bool.false_ne_true]
  exact hperm

/-- One entry of a vector is changed in place. -/
theorem modify_perm_update {p : ℕ} (hs : Comparison same) (hd : Distinct key same l)
    (h : l.Perm m) (hp : l[p]? = some a) (hk : same k (key a) = true) :
    (l.modify p f).Perm (update key same k f m) := by
  have ha : a ∈ m := h.mem_iff.mp (List.mem_of_getElem? hp)
  have hboth : (l.modify p f ++ [a]).Perm (update key same k f m ++ [a]) :=
    calc l.modify p f ++ [a]
      _ ~ l ++ [f a] := modify_perm hp
      _ ~ m ++ [f a] := h.append_right [f a]
      _ ~ update key same k f m ++ [a] := (update_perm hs (distinct_perm h hd) ha hk).symm
  exact (List.perm_append_right_iff [a]).mp hboth

theorem put_perm (h : l.Perm m) : (enter key same a l).Perm ((Call.put a).next key same m) := by
  simp only [enter, Call.next, isSome_lookup, present_perm h]
  split
  · exact h
  · exact (List.perm_append_singleton a l).trans (h.cons a)

/-- The entry with the key is changed in place, or a new one goes to the back. -/
theorem putOrUpdate_perm (hs : Comparison same) (hd : Distinct key same l) (h : l.Perm m) :
    (if present key same (key a) l then assign key same (key a) f l else l ++ [a]).Perm
      ((Call.putOrUpdate a f).next key same m) := by
  simp only [Call.next, isSome_lookup, ← present_perm h]
  split
  · rename_i hpresent
    obtain ⟨b, hp, hk⟩ := position_of_present hpresent
    exact modify_perm_update hs hd h hp hk
  · exact (List.perm_append_singleton a l).trans (h.cons a)

/-- What is erased is what has one of the keys. -/
theorem erase_perm (h : (l ++ gone).Perm m)
    (hgone : ∀ a ∈ gone, ∃ k ∈ ks, same k (key a) = true)
    (hkept : ∀ a ∈ l, ∀ k ∈ ks, same k (key a) = false) : l.Perm (erase key same ks m) := by
  have hleft : erase key same ks l = l := by
    apply List.filter_eq_self.mpr
    intro a ha
    simpa using hkept a ha
  have hright : erase key same ks gone = [] := by
    apply List.filter_eq_nil_iff.mpr
    intro a ha
    simpa using hgone a ha
  have hsplit : erase key same ks (l ++ gone) = l := by
    have happend : erase key same ks (l ++ gone) =
        erase key same ks l ++ erase key same ks gone := List.filter_append ..
    rw [happend, hleft, hright, List.append_nil]
  rw [← hsplit]
  exact h.filter _

/-- An entry with the key of another one is that one. -/
theorem kept_of_gone (hs : Comparison same) (hd : Distinct key same (l ++ gone)) (ha : a ∈ l)
    (hb : b ∈ gone) (hk : same k (key b) = true) : same k (key a) = false := by
  by_contra hka
  have hab : same (key a) (key b) = true :=
    hs.trans _ _ _ (hs.symm _ _ (eq_true_of_ne_false hka)) hk
  rw [((List.pairwise_append.mp hd).2.2 a ha b hb).1] at hab
  cases hab

end PlainMap

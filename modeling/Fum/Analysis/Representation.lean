import Fum.Analysis.Histories
import Fum.Base.PlainMap

/-!
# Tables as plain maps

The contents of a table are the entries of a plain map up to their order. What a call means
for the map, where an iterator stands for the key of its element, and that its effect on the
table is just that.
-/

set_option autoImplicit false

namespace Fum.Analysis

open Fum.Model Effects DenseMap PlainMap

variable {τ : Traits} {U : Stuck → Prop} {s : Store τ} {t t' : Table τ} {x it : ℕ} {flag : Bool}
  {key : τ.Key} {v : τ.Value} {l : List ℕ} {m m' : List τ.Value} {ks : List τ.Key}

theorem LawfulTable.comparison (h : LawfulTable t) : Comparison t.keyEqual :=
  ⟨h.refl, h.symm, h.trans⟩

/-- The elements of the table are the entries of the map. -/
def Represents (t : Table τ) (m : List τ.Value) : Prop := (contents t).Perm m

/-! ## The meaning of a call -/

/-- The keys of the elements in some nodes. -/
def keysAt (t : Table τ) (nodes : List ℕ) : List τ.Key := nodes.filterMap (nodeKey t)

/-- What a call means for a plain map. -/
def meaning (t : Table τ) : Op τ → PlainMap.Call τ.Value τ.Key
  | .insert value => .put value
  | .tryEmplace key mapped => .put (τ.makeValue key mapped)
  | .insertOrAssign key mapped =>
      .putOrUpdate (τ.makeValue key mapped) fun value => τ.assignMapped value mapped
  | .assign node mapped =>
      match nodeKey t node with
      | some key => .update key fun value => τ.assignMapped value mapped
      | none => .keep
  | .eraseKey key | .extractKey key => .erase [key]
  | .eraseAt node | .extractAt node => .erase (keysAt t [node])
  | .eraseRange first last =>
      .erase (keysAt t ((t.range (kNullIndex + 1) first last).getD []))
  | .clear => .clear
  | .rehash _ | .reserve _ | .maxLoadFactor _ | .find _ => .keep

/-- The map after a call on the table. -/
def mapAfter (t : Table τ) (m : List τ.Value) (op : Op τ) : List τ.Value :=
  (meaning t op).next τ.keyOf t.keyEqual m

/-! ## The effect of a call -/

/-- Erased nodes are erased entries. -/
theorem Erased.plain (h : Erased t l t') (hc : Consistent t) (hlaw : LawfulTable t)
    (hd : Distinct t) (hm : Represents t m)
    (hks : ∀ k ∈ ks, ∃ y ∈ l, Matches t k y)
    (hl : ∀ y ∈ l, ∀ w, valueAt t y = some w → ∃ k ∈ ks, t.keyEqual k (τ.keyOf w) = true) :
    Represents t' (erase τ.keyOf t.keyEqual ks m) := by
  have hsplit : (Analysis.contents t' ++ l.filterMap (valueAt t)).Perm (Analysis.contents t) :=
    h.contents_perm hc
  apply erase_perm (hsplit.trans hm)
  · intro w hw
    obtain ⟨y, hy, hvalue⟩ := List.mem_filterMap.mp hw
    exact hl y hy w hvalue
  · intro w hw k hk
    obtain ⟨y, hy, hmatch⟩ := hks k hk
    obtain ⟨w', hvalue, hkw⟩ := matches_iff_valueAt.mp hmatch
    have hgone : w' ∈ l.filterMap (valueAt t) := List.mem_filterMap.mpr ⟨y, hy, hvalue⟩
    exact kept_of_gone hlaw.comparison (distinct_perm hsplit.symm (hd.contents hc)) hw hgone hkw

/-- Nodes erased by iterator are entries erased by key. -/
theorem Erased.plain_keysAt (h : Erased t l t') (hc : Consistent t) (hlaw : LawfulTable t)
    (hd : Distinct t) (hm : Represents t m) :
    Represents t' (erase τ.keyOf t.keyEqual (keysAt t l) m) := by
  apply h.plain hc hlaw hd hm
  · intro k hk
    obtain ⟨y, hy, hkey⟩ := List.mem_filterMap.mp hk
    exact ⟨y, hy, matches_iff.mpr ⟨k, hkey, hlaw.refl k⟩⟩
  · intro y hy w hw
    have hkey : nodeKey t y = some (τ.keyOf w) := by simp [nodeKey_eq, hw]
    exact ⟨τ.keyOf w, List.mem_filterMap.mpr ⟨y, hy, hkey⟩, hlaw.refl _⟩

/-- A node that has the key is erased, or there is none. -/
theorem Erased.plain_key (h : Erased t [x] t') (hc : Consistent t) (hlaw : LawfulTable t)
    (hd : Distinct t) (hm : Represents t m)
    (hmatch : Matches t key x) : Represents t' (erase τ.keyOf t.keyEqual [key] m) := by
  apply h.plain hc hlaw hd hm
  · intro k hk
    exact ⟨x, by simp, List.mem_singleton.mp hk ▸ hmatch⟩
  · intro y hy w hw
    obtain ⟨w', hvalue, hkw⟩ := matches_iff_valueAt.mp hmatch
    rw [List.mem_singleton.mp hy, hvalue] at hw
    exact ⟨key, by simp, Option.some.inj hw ▸ hkw⟩

theorem Absent.plain_key (h : Absent t key) (hlaw : LawfulTable t) (hm : Represents t m) :
    Represents t (erase τ.keyOf t.keyEqual [key] m) := by
  have habsent := DenseMap.present_eq_false.mp (h.present_eq_false hlaw)
  have hnone : (contents t ++ []).Perm m := by simpa [Represents] using hm
  apply erase_perm hnone
  · simp
  · intro w hw k hk
    rw [List.mem_singleton.mp hk]
    exact habsent w hw

theorem Entered.plain (h : Entered t (τ.keyOf v) v it flag t') (hc : Consistent t)
    (hlaw : LawfulTable t) (hm : Represents t m) :
    Represents t' ((PlainMap.Call.put v).next τ.keyOf t.keyEqual m) := by
  unfold Represents
  rw [(h.contents hc hlaw).1]
  exact put_perm hm

theorem EnteredOrAssigned.plain {mapped : τ.Mapped}
    (h : EnteredOrAssigned t key mapped it flag t') (hc : Consistent t) (hlaw : LawfulTable t)
    (hd : Distinct t) (hm : Represents t m) :
    Represents t' ((PlainMap.Call.putOrUpdate (τ.makeValue key mapped) fun value =>
      τ.assignMapped value mapped).next τ.keyOf t.keyEqual m) := by
  have hperm := putOrUpdate_perm (a := τ.makeValue key mapped)
    (f := fun value => τ.assignMapped value mapped) hlaw.comparison (hd.contents hc) hm
  rw [τ.keyOf_makeValue] at hperm
  unfold Represents
  rw [(h.contents hc hlaw hd).1]
  exact hperm

theorem Assigned.plain {g : τ.Value → τ.Value} (h : Assigned t x g t') (hc : Consistent t)
    (hlaw : LawfulTable t) (hd : Distinct t) (hm : Represents t m)
    (hv : Analysis.valueAt t x = some v) :
    Represents t' (update τ.keyOf t.keyEqual (τ.keyOf v) g m) := by
  have hlive : (t.nodeAt x).storage.isSome := by
    obtain ⟨e, he, -⟩ := h.element
    simp [he]
  obtain ⟨p, hp⟩ := List.getElem?_of_mem ((hc.filled x).mp hlive)
  unfold Represents
  rw [h.contents hc hp]
  exact modify_perm_update hlaw.comparison (hd.contents hc) hm (hc.getElem?_contents hp hv)
    (hlaw.refl _)

/-- The effect of a call on the table is what the call means. -/
theorem EffectOf.plain {op : Op τ} {reply : Reply τ} (he : EffectOf t t' op reply)
    (hw : WellFormed t) (hlaw : LawfulTable t) (hm : Represents t m) :
    Represents t' (mapAfter t m op) := by
  have hc : Consistent t := hw.consistent
  have hd : Distinct t := hw.distinct hlaw
  have hsame : contents t' = contents t → Represents t' m := by
    intro heq
    unfold Represents
    rw [heq]
    exact hm
  cases he.effect with
  | insert value it flag entered => exact entered.plain hc hlaw hm
  | tryEmplace key mapped it flag entered => exact entered.keyed.plain hc hlaw hm
  | insertOrAssign key mapped it flag entered => exact entered.plain hc hlaw hd hm
  | assign node mapped assigned =>
      obtain ⟨e, hstored, -⟩ := assigned.element
      have hv : valueAt t node = some e.value := valueAt_of_storage hstored
      have hkey : nodeKey t node = some (τ.keyOf e.value) := nodeKey_of_storage hstored
      simp only [mapAfter, meaning, hkey]
      exact assigned.plain hc hlaw hd hm hv
  | eraseKey key n erased =>
      cases erased with
      | absent count absent same =>
          rw [same]
          exact absent.plain_key hlaw hm
      | erased count x listed same_key erased => exact erased.plain_key hc hlaw hd hm same_key
  | eraseAt node it erased =>
      exact (erased.erased hlaw hd hc.filled).2.plain_keysAt hc hlaw hd hm
  | eraseRange first last doomed policy range erased =>
      simp only [mapAfter, meaning, range, Option.getD_some]
      exact (erased hlaw hd).plain_keysAt hc hlaw hd hm
  | extractKey key handle extracted =>
      cases extracted with
      | absent empty absent same =>
          rw [same]
          exact absent.plain_key hlaw hm
      | extracted x listed same_key erased owns => exact erased.plain_key hc hlaw hd hm same_key
  | extractAt node handle erased =>
      exact (erased.erased hlaw hd hc.filled).2.plain_keysAt hc hlaw hd hm
  | clear cleared =>
      have hempty : contents t' = [] := by simp [contents, cleared.iteration]
      simp [Represents, hempty, mapAfter, meaning, Call.next]
  | rehash requested same => exact hsame (same.contents hc)
  | reserve elementCount same => exact hsame (same.contents hc)
  | maxLoadFactor z refactored => exact hsame (refactored.contents hc)
  | find key it found same => exact hsame (congrArg contents same)

/-! ## The answer of a call -/

/-- The iterator designates the entry, or it is the end. -/
def Designates (t : Table τ) (it : ℕ) : Option τ.Value → Prop
  | some v => it ∈ t.iteration ∧ valueAt t it = some v
  | none => it = kNullIndex

/-- The entry that the map has for the key. -/
def entryFor (t : Table τ) (m : List τ.Value) (key : τ.Key) : Option τ.Value :=
  lookup τ.keyOf t.keyEqual key m

/-- An insertion says whether the key is new and designates its entry. -/
def InsertAnswer (t t' : Table τ) (m m' : List τ.Value) (key : τ.Key) (reply : Reply τ) : Prop :=
  ∃ it flag, reply = .inserted it flag ∧ flag = (entryFor t m key).isNone ∧
    Designates t' it (entryFor t m' key)

/-- The reply of a call is that of the map; an erasure by iterator has none. -/
def Answers (t t' : Table τ) (m m' : List τ.Value) (reply : Reply τ) : Op τ → Prop
  | .insert value => InsertAnswer t t' m m' (τ.keyOf value) reply
  | .tryEmplace key _ | .insertOrAssign key _ => InsertAnswer t t' m m' key reply
  | .eraseKey key => reply = .erased (entryFor t m key).isSome.toNat
  | .find key => ∃ it, reply = .iterator it ∧ Designates t it (entryFor t m key)
  | _ => True

theorem Represents.present (h : Represents t m) :
    (entryFor t m key).isSome = DenseMap.present τ.keyOf t.keyEqual key (contents t) := by
  rw [present_perm h]
  exact isSome_lookup key m

theorem Represents.absent (h : Represents t m) (hlaw : LawfulTable t) (habs : Absent t key) :
    entryFor t m key = none := by
  have hnone : (entryFor t m key).isSome = false := h.present.trans (habs.present_eq_false hlaw)
  simpa using hnone

/-- A listed node with the key designates the entry for it. -/
theorem Represents.designates (h : Represents t m) (hw : WellFormed t) (hlaw : LawfulTable t)
    (hx : x ∈ t.iteration) (hmatch : Matches t key x) : Designates t x (entryFor t m key) := by
  obtain ⟨w, hvalue, hkw⟩ := matches_iff_valueAt.mp hmatch
  have hd : DenseMap.Distinct τ.keyOf t.keyEqual (contents t) :=
    (hw.distinct hlaw).contents hw.consistent
  have hmem : w ∈ m := h.mem_iff.mp (mem_contents.mpr ⟨x, hx, hvalue⟩)
  have hentry : entryFor t m key = some w :=
    lookup_eq_some hlaw.comparison (distinct_perm h hd) hmem hkw
  rw [hentry]
  exact ⟨hx, hvalue⟩

theorem Found.designates (hf : Found t key it) (h : Represents t m) (hw : WellFormed t)
    (hlaw : LawfulTable t) : Designates t it (entryFor t m key) := by
  cases hf with
  | absent end_eq absent =>
      rw [h.absent hlaw absent]
      exact end_eq
  | present listed same_key => exact h.designates hw hlaw listed same_key

theorem Entered.matches (h : Entered t (τ.keyOf v) v it flag t') (hlaw : LawfulTable t) :
    it ∈ t'.iteration ∧ Matches t' (τ.keyOf v) it := by
  cases h with
  | inserted flag_eq absent inserted =>
      obtain ⟨serial, he⟩ := inserted.element
      refine ⟨by simp [inserted.iteration], _, he, ?_⟩
      rw [inserted.policy.keyEqual]
      exact hlaw.refl _
  | found flag_eq listed same_key same index =>
      rw [same.iteration]
      exact ⟨listed, (matches_congr (nodeKey_congr (same.storage it)) same.policy.keyEqual).mpr
        same_key⟩

theorem EnteredOrAssigned.matches {mapped : τ.Mapped}
    (h : EnteredOrAssigned t key mapped it flag t') (hlaw : LawfulTable t) :
    it ∈ t'.iteration ∧ Matches t' key it := by
  cases h with
  | entered absent entered =>
      have h' := entered.keyed.matches hlaw
      rwa [τ.keyOf_makeValue] at h'
  | assigned flag_eq listed same_key assigned =>
      rw [assigned.iteration]
      refine ⟨listed,
        (matches_congr (assigned.nodeKey ?_ it) assigned.policy.keyEqual).mpr same_key⟩
      exact fun w => τ.keyOf_assignMapped w mapped

/-- The effect of a call on the table is what it answers. -/
theorem EffectOf.answers {op : Op τ} {reply : Reply τ} (he : EffectOf t t' op reply)
    (hw : WellFormed t) (hlaw : LawfulTable t) (hm : Represents t m) (hw' : WellFormed t')
    (hlaw' : LawfulTable t') (hm' : Represents t' m') (hequal : t'.keyEqual = t.keyEqual) :
    Answers t t' m m' reply op := by
  have hc : Consistent t := hw.consistent
  have hd : Distinct t := hw.distinct hlaw
  have hnew : ∀ key, (!DenseMap.present τ.keyOf t.keyEqual key (contents t)) =
      (entryFor t m key).isNone := by
    intro key
    rw [← hm.present]
    simp
  have hlisted : ∀ key it, it ∈ t'.iteration → Matches t' key it →
      Designates t' it (entryFor t m' key) := by
    intro key it hit hmatch
    have h := hm'.designates hw' hlaw' hit hmatch
    unfold entryFor at h ⊢
    rwa [hequal] at h
  cases he.effect with
  | insert value it flag entered =>
      obtain ⟨hit, hmatch⟩ := entered.matches hlaw
      exact ⟨it, flag, rfl, (entered.contents hc hlaw).2.trans (hnew _), hlisted _ it hit hmatch⟩
  | tryEmplace key mapped it flag entered =>
      obtain ⟨hit, hmatch⟩ := entered.keyed.matches hlaw
      have hflag := (entered.keyed.contents hc hlaw).2.trans (hnew _)
      rw [τ.keyOf_makeValue] at hmatch hflag
      exact ⟨it, flag, rfl, hflag, hlisted _ it hit hmatch⟩
  | insertOrAssign key mapped it flag entered =>
      obtain ⟨hit, hmatch⟩ := entered.matches hlaw
      exact ⟨it, flag, rfl, (entered.contents hc hlaw hd).2.trans (hnew _),
        hlisted _ it hit hmatch⟩
  | eraseKey key n erased =>
      have hcount := (erased.contents hc hlaw hd).2
      rw [← hm.present] at hcount
      exact congrArg Reply.erased hcount
  | find key it found same => exact ⟨it, rfl, found.designates hm hw hlaw⟩
  | _ => trivial

/-- A call in which nothing throws answers as the map does and changes the table as the map. -/
theorem Op.exec_plain (op : Op τ) {equal : τ.Key → τ.Key → Bool} (h : Playable equal s.table)
    (hm : Represents s.table m) (hquiet : s.heap.fault = none) (hvalid : ValidIn s.table op)
    (hmodest : Modest op) (hsizable : SizableIn s.table op)
    (hroom : (mapAfter s.table m op).length + 2 ≤ 2 ^ 24) :
    Action.Post U op.exec s
      (fun reply s' => Playable equal s'.table ∧ Represents s'.table (mapAfter s.table m op) ∧
        Answers s.table s'.table m (mapAfter s.table m op) reply op) (fun _ => False) := by
  refine (Op.exec_playable op h hquiet hvalid hmodest hsizable).mono ?_ (fun _ h' => h')
    fun _ h' => h'
  rintro reply s' ⟨heffect, hc', hplayable⟩
  have hm' : Represents s'.table (mapAfter s.table m op) := heffect.plain h.wellFormed h.lawful hm
  have hroom' : Room s'.table := by
    unfold Room
    rw [← hc'.length_contents, hm'.length_eq]
    exact hroom
  have h' : Playable equal s'.table := hplayable hroom'
  exact ⟨h', hm', heffect.answers h.wellFormed h.lawful hm h'.wellFormed h'.lawful hm'
    (h'.keyEqual.trans h.keyEqual.symm)⟩

end Fum.Analysis

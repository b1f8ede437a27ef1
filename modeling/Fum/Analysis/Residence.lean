import Fum.Analysis.Addresses
import Fum.Analysis.Bystanders
import Fum.Analysis.Reachability

/-!
# Where an element lives

The slot and the address of an element, through a call that does not remove it. A
statement about other objects of the program leaves its table alone; the rest add
elements, take other ones away or write to its mapped value.
-/

set_option autoImplicit false

namespace Fum.Analysis

open Fum.Model Effects

variable {τ : Traits} {equal : τ.Key → τ.Key → Bool} {w w' : World τ} {i j x : ℕ}
  {p : ℕ × ℕ} {e e' e'' : Element τ} {t t' : Table τ} {m m' : τ.Mapped}

/-- The element `e` lives in the slot `x`, at the address `p`, of a table with that
`key_equal`. -/
structure Resides (equal : τ.Key → τ.Key → Bool) (x : ℕ) (p : ℕ × ℕ) (e : Element τ)
    (t : Table τ) : Prop where
  element : (t.nodeAt x).storage = some e
  address : addressOf t x = some p
  keyEqual : t.keyEqual = equal

/-- The element `e` with `m` for its mapped value. -/
structure Revalued (e : Element τ) (m : τ.Mapped) (e' : Element τ) : Prop where
  serial : e'.serial = e.serial
  key : τ.keyOf e'.value = τ.keyOf e.value
  mapped : τ.mappedOf e'.value = m

theorem Revalued.refl (e : Element τ) : Revalued e (τ.mappedOf e.value) e := ⟨rfl, rfl, rfl⟩

theorem Revalued.trans (h : Revalued e m e') (h' : Revalued e' m' e'') : Revalued e m' e'' :=
  ⟨h'.serial.trans h.serial, h'.key.trans h.key, h'.mapped⟩

/-! ## Changes of the table -/

theorem Resides.mem (h : Resides equal x p e t) (hc : Consistent t) : x ∈ t.iteration := by
  apply (hc.filled x).mp
  simp [h.element]

theorem Resides.keep (h : Resides equal x p e t)
    (hstorage : (t'.nodeAt x).storage = (t.nodeAt x).storage)
    (hchunks : chunkIds t <+: chunkIds t') (hequal : t'.keyEqual = t.keyEqual) :
    Resides equal x p e t' where
  element := hstorage.trans h.element
  address := addressOf_prefix hchunks h.address
  keyEqual := hequal.trans h.keyEqual

theorem Resides.sameElements (h : Resides equal x p e t) (hs : SameElements t t') :
    Resides equal x p e t' := h.keep (hs.storage x) hs.chunks hs.policy.keyEqual

theorem Resides.grown (h : Resides equal x p e t) (hc : Consistent t) (hg : Grown t t') :
    Resides equal x p e t' := h.keep (hg.storage x (h.mem hc)) hg.chunks hg.policy.keyEqual

theorem Resides.erased {l : List ℕ} (h : Resides equal x p e t) (he : Erased t l t')
    (hx : x ∉ l) : Resides equal x p e t' := by
  apply h.keep (he.others x hx) _ he.policy.keyEqual
  rw [he.chunks]

/-- An assignment writes to its own element only. -/
theorem Resides.assigned {y : ℕ} {mapped : τ.Mapped} (h : Resides equal x p e t)
    (ha : Assigned t y (fun v => τ.assignMapped v mapped) t') :
    ∃ e', Resides equal x p e' t' ∧
      Revalued e ((if y = x then some mapped else none).getD (τ.mappedOf e.value)) e' := by
  have haddress : addressOf t' x = some p := (addressOf_congr ha.chunks).trans h.address
  have hequal : t'.keyEqual = equal := ha.policy.keyEqual.trans h.keyEqual
  by_cases hy : y = x
  · subst hy
    obtain ⟨e1, he1, he'⟩ := ha.element
    cases h.element.symm.trans he1
    refine ⟨_, ⟨he', haddress, hequal⟩, rfl, τ.keyOf_assignMapped _ _, ?_⟩
    simp [τ.mappedOf_assignMapped]
  · have hstays : (t'.nodeAt x).storage = some e := (ha.others x (Ne.symm hy)).trans h.element
    refine ⟨e, ⟨hstays, haddress, hequal⟩, ?_⟩
    simp [hy, Revalued.refl]

/-! ## Calls on the table -/

instance (t : Table τ) (key : τ.Key) (x : ℕ) : Decidable (Matches t key x) :=
  inferInstanceAs (Decidable (∃ e ∈ (t.nodeAt x).storage, t.keyEqual key (τ.keyOf e.value) = true))

/-- The call leaves the element in `x` in the table. -/
def LeavesIn (t : Table τ) (x : ℕ) : Op τ → Prop
  | .eraseKey key => ¬ Matches t key x
  | .eraseAt node => node ≠ x
  | .eraseRange first last => ∀ doomed ∈ t.range (kNullIndex + 1) first last, x ∉ doomed
  | .extractKey key => ¬ Matches t key x
  | .extractAt node => node ≠ x
  | .clear => False
  | _ => True

instance (t : Table τ) (x : ℕ) : ∀ op : Op τ, Decidable (LeavesIn t x op)
  | .eraseKey key | .extractKey key => inferInstanceAs (Decidable (¬ Matches t key x))
  | .eraseAt node | .extractAt node => inferInstanceAs (Decidable (node ≠ x))
  | .eraseRange first last => inferInstanceAs
      (Decidable (∀ doomed ∈ t.range (kNullIndex + 1) first last, x ∉ doomed))
  | .clear => isFalse id
  | .insert _ | .tryEmplace _ _ | .insertOrAssign _ _ | .assign _ _ | .rehash _ | .reserve _
  | .maxLoadFactor _ | .find _ => isTrue trivial

/-- The value that the call assigns to the mapped value of the element in `x`. -/
def assignedIn (t : Table τ) (x : ℕ) : Op τ → Option τ.Mapped
  | .assign node mapped => if node = x then some mapped else none
  | .insertOrAssign key mapped => if Matches t key x then some mapped else none
  | _ => none

theorem Resides.effect {op : Op τ} {reply : Reply τ} (h : Resides equal x p e t)
    (hw : WellFormed t) (hlaw : LawfulTable t) (he : EffectOf t t' op reply)
    (hleaves : LeavesIn t x op) : ∃ e', Resides equal x p e' t' ∧
      Revalued e ((assignedIn t x op).getD (τ.mappedOf e.value)) e' := by
  have hc : Consistent t := hw.consistent
  have hd : Distinct t := hw.distinct hlaw
  have hx : x ∈ t.iteration := h.mem hc
  have hkept : Resides equal x p e t' → ∃ e', Resides equal x p e' t' ∧
      Revalued e (τ.mappedOf e.value) e' := fun h' => ⟨e, h', Revalued.refl e⟩
  cases he.effect with
  | insert value it flag entered => exact hkept (h.grown hc (entered.grown hc))
  | tryEmplace key mapped it flag entered => exact hkept (h.grown hc (entered.grown hc))
  | insertOrAssign key mapped it flag entered =>
      cases entered with
      | entered absent entered =>
          have hother : ¬ Matches t key x := absent.not_matches hlaw hx
          simp only [assignedIn, hother, if_false]
          exact hkept (h.grown hc (entered.grown hc))
      | assigned flag_eq listed same_key assigned =>
          -- the element that has the key is the one that is assigned to
          have hiff : Matches t key x ↔ it = x :=
            ⟨fun hm => hd.unique hlaw listed hx same_key hm, fun heq => heq ▸ same_key⟩
          simp only [assignedIn, hiff]
          exact h.assigned assigned
  | assign node mapped assigned => exact h.assigned assigned
  | eraseKey key n erased =>
      cases erased with
      | absent count absent same => exact hkept (same ▸ h)
      | erased count y listed same_key erased =>
          have hne : x ∉ [y] := fun hmem => hleaves (List.mem_singleton.mp hmem ▸ same_key)
          exact hkept (h.erased erased hne)
  | eraseAt node it erased =>
      have hne : x ∉ [node] := fun hmem => hleaves (List.mem_singleton.mp hmem).symm
      exact hkept (h.erased (erased.erased hlaw hd hc.filled).2 hne)
  | eraseRange first last doomed policy range erased =>
      exact hkept (h.erased (erased hlaw hd) (hleaves doomed range))
  | extractKey key handle extracted =>
      cases extracted with
      | absent empty absent same => exact hkept (same ▸ h)
      | extracted y listed same_key erased owns =>
          have hne : x ∉ [y] := fun hmem => hleaves (List.mem_singleton.mp hmem ▸ same_key)
          exact hkept (h.erased erased hne)
  | extractAt node handle erased =>
      have hne : x ∉ [node] := fun hmem => hleaves (List.mem_singleton.mp hmem).symm
      exact hkept (h.erased (erased.erased hlaw hd hc.filled).2 hne)
  | clear => exact hleaves.elim
  | rehash requested same => exact hkept (h.sameElements same)
  | reserve elementCount same => exact hkept (h.sameElements same)
  | maxLoadFactor z refactored =>
      apply hkept
      apply h.keep (refactored.storage x) _ refactored.keyEqual
      rw [refactored.chunks]
  | find key it found same => exact hkept (same ▸ h)

/-! ## Statements of a program -/

/-- The statement works on the table `i` and leaves the element in the slot `x` there. -/
def LeavesThere (w : World τ) (i x : ℕ) : WorldOp τ → Prop
  | .table j op => j = i ∧ ∀ t ∈ w.table? i, LeavesIn t x op
  | .insertHandle _ j _ | .merge j _ => j = i
  | _ => False

instance (w : World τ) (i x : ℕ) : ∀ op : WorldOp τ, Decidable (LeavesThere w i x op)
  | .table j op => inferInstanceAs (Decidable (j = i ∧ ∀ t ∈ w.table? i, LeavesIn t x op))
  | .insertHandle _ j _ | .merge j _ => inferInstanceAs (Decidable (j = i))
  | .construct _ _ _ _ | .constructRange _ _ _ _ _ | .copyConstruct _ | .copyConstructWith _ _
  | .moveConstruct _ | .moveConstructWith _ _ | .destroy _ | .copyAssign _ _ | .moveAssign _ _
  | .assignValues _ _ | .swap _ _ | .handleDefault | .handleMove _ | .handleAssign _ _
  | .handleSwap _ _ | .handleDestroy _ => isFalse id

/-- The statement leaves the element in the slot `x` of the table `i`. -/
def Leaves (w : World τ) (i x : ℕ) (op : WorldOp τ) : Prop := Aside i op ∨ LeavesThere w i x op

instance (w : World τ) (i x : ℕ) (op : WorldOp τ) : Decidable (Leaves w i x op) :=
  inferInstanceAs (Decidable (_ ∨ _))

/-- The value that the statement assigns to that element. -/
def assigned (w : World τ) (i x : ℕ) : WorldOp τ → Option τ.Mapped
  | .table j op => if j = i then (w.table? i).bind fun t => assignedIn t x op else none
  | _ => none

/-- The element is where it was, with `m` for its mapped value. -/
def StillThere (equal : τ.Key → τ.Key → Bool) (x : ℕ) (p : ℕ × ℕ) (e : Element τ) (m : τ.Mapped)
    (t : Table τ) : Prop :=
  ∃ e', Resides equal x p e' t ∧ Revalued e m e'

theorem Resides.stillThere (h : Resides equal x p e t) :
    StillThere equal x p e (τ.mappedOf e.value) t := ⟨e, h, Revalued.refl e⟩

theorem table_leaves {op : Op τ} (ht : w.table? i = some t) (h : Resides equal x p e t)
    (hw : WellFormed t) (hroom : Room t) (hlaw : LawfulTable t) (hfits : FitsIn t op)
    (hleaves : LeavesIn t x op) :
    Action.Post Stuck.anyhow (WorldOp.table i op).exec w
      (fun _ => On i (StillThere equal x p e ((assignedIn t x op).getD (τ.mappedOf e.value))))
      (fun _ => True) := by
  have hcall : Action.Post Stuck.anyhow (onTable i op.exec) w
      (fun _ => On i (StillThere equal x p e ((assignedIn t x op).getD (τ.mappedOf e.value))))
      (fun _ => True) := by
    refine post_onTable (fun t1 ht1 => ?_) fun _ => trivial
    cases ht.symm.trans ht1
    refine (Op.exec_spec (s := ⟨t, w.heap⟩) op hw.consistent hroom hfits (Or.inl trivial)).mono ?_
      (fun _ _ => trivial) fun _ h' => h'
    intro reply s' heffect
    exact ⟨s'.table, table?_withStore_self ht s', h.effect hw hlaw heffect.2 hleaves⟩
  refine Action.Post.bind hcall (fun _ h' => h') fun reply w1 h1 => ?_
  exact ((keeps_keepReply_on reply).post h1).mono (fun _ _ h' => h') (fun _ _ => trivial)
    fun _ h' => h'

/-- The node of a handle goes into a slot of its own. -/
theorem insertHandle_leaves {hinted : Bool} {hd : ℕ} (ht : w.table? i = some t)
    (h : Resides equal x p e t) (hw : WellFormed t) (hroom : Room t) :
    Action.Post Stuck.anyhow (insertHandle hinted i hd) w
      (fun _ => On i (Resides equal x p e)) (fun _ => True) := by
  unfold insertHandle
  refine post_readHandle (fun handle hh => ?_) fun _ => trivial
  have hcall : Action.Post Stuck.anyhow (insertNode handle)
      ⟨t, { w.heap with moved := false }⟩ (fun _ s' => Resides equal x p e s'.table)
      (fun _ => True) := by
    cases hcell : handle.value with
    | none =>
        unfold insertNode
        rw [hcell]
        exact Action.Post.pure h
    | some cell =>
        refine (insertNode_spec hcell hw.consistent hroom).mono ?_ (fun _ _ => trivial)
          fun _ h' => h'
        intro r s' hr
        exact h.grown hw.consistent (hr.2.1.grown hw.consistent)
  have hmoving : Action.Post Stuck.anyhow (movingHandle hd (onTable i (insertNode handle))) w
      (fun _ => On i (Resides equal x p e)) (fun _ => True) := by
    refine post_movingHandle (post_onTable (fun t1 ht1 => ?_) fun _ => trivial)
    cases ht.symm.trans ht1
    refine hcall.mono (fun r s' hr => ?_) (fun _ _ => ⟨trivial, trivial⟩) fun _ h' => h'
    have hon : On i (Resides equal x p e)
        (withStore { w with heap := { w.heap with moved := false } } i s') :=
      ⟨s'.table, table?_withStore_self ht s', hr⟩
    exact ⟨hon, hon⟩
  refine Action.Post.bind hmoving (fun _ h' => h') fun r w1 h1 => ?_
  cases hinted with
  | true => exact h1
  | false => exact h1

/-- A merge adds to the table, and writes to the other one. -/
theorem merge_leaves (ht : w.table? i = some t) (h : Resides equal x p e t)
    (hw : Everywhere Sturdy w) (hlaw : Everywhere LawfulTable w) :
    Action.Post Stuck.anyhow (mergeFrom i j) w
      (fun _ w' => Everywhere Room w' → On i (Resides equal x p e) w') (fun _ => True) := by
  by_cases hij : i = j
  · subst hij
    refine (mergeFrom_self ht (hw i t ht).1 (hw i t ht).2 (hlaw i t ht) (Or.inl trivial)).mono
      ?_ (fun _ _ => trivial) fun _ h' => h'
    intro _ w' hsame _
    refine ⟨t, ?_, h⟩
    rw [hsame.1]
    exact ht
  · cases hj : w.table? j with
    | none =>
        exact (mergeFrom_none ht hj).mono (fun _ _ h' => h'.elim) (fun _ _ => trivial)
          fun _ h' => h'
    | some u =>
        refine (mergeFrom_growing hij ht hj (hw i t ht).1 (hw j u hj).1 (hlaw j u hj)
          (hw j u hj).2).mono ?_ (fun _ _ => trivial) fun _ h' => h'
        rintro _ w' ⟨t', u', moved, hpair, hgrowing, -⟩ hroom
        exact ⟨t', hpair.left,
          h.grown (hw i t ht).1.consistent (hgrowing (hroom i t' hpair.left)).2⟩

theorem WorldOp.exec_leaves (op : WorldOp τ) (ht : w.table? i = some t)
    (h : Resides equal x p e t) (hw : Everywhere Sturdy w) (hlaw : Everywhere LawfulTable w)
    (hfits : Fits w op) (hleaves : Leaves w i x op) :
    Action.Post Stuck.anyhow op.exec w (fun _ w' => Everywhere Room w' →
      On i (StillThere equal x p e ((assigned w i x op).getD (τ.mappedOf e.value))) w')
      (fun _ => True) := by
  obtain ⟨hwell, hroom⟩ := hw i t ht
  have hstill : ∀ w' : World τ, On i (Resides equal x p e) w' →
      On i (StillThere equal x p e (τ.mappedOf e.value)) w' := fun w' ⟨t', ht', h'⟩ =>
    ⟨t', ht', h'.stillThere⟩
  by_cases hop : Aside i op
  · have hnone : assigned w i x op = none := by
      cases op with
      | table j op => exact if_neg hop
      | _ => rfl
    rw [hnone]
    exact ((keeps_aside hop).post ⟨t, ht, h⟩).mono (fun _ w' hon _ => hstill w' hon)
      (fun _ _ => trivial) fun _ h' => h'
  have hthere : LeavesThere w i x op := hleaves.resolve_left hop
  cases op with
  | table j op =>
      obtain ⟨rfl, hin⟩ := hthere
      have hassigned : assigned w j x (.table j op) = assignedIn t x op := by
        simp [assigned, ht]
      rw [hassigned]
      exact (table_leaves ht h hwell hroom (hlaw j t ht) (hfits t ht) (hin t ht)).mono
        (fun _ _ hon _ => hon) (fun _ _ => trivial) fun _ h' => h'
  | insertHandle hinted j hd =>
      cases hthere
      refine Action.Post.bind (insertHandle_leaves ht h hwell hroom) (fun _ h' => h') ?_
      exact fun _ w' hon _ => hstill w' hon
  | merge j k =>
      cases hthere
      exact (merge_leaves ht h hw hlaw).mono (fun _ w' hon hroom' => hstill w' (hon hroom'))
        (fun _ _ => trivial) fun _ h' => h'
  | _ => exact hthere.elim

end Fum.Analysis

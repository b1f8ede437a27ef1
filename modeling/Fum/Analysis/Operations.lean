import Fum.Analysis.Iteration
import Fum.Analysis.Keys

/-!
# The operations on a consistent table

What each call of a member function may do to a consistent table, what it answers, and
what each of its exceptions leaves. Everything else about runs of one table is derived from
this.
-/

set_option autoImplicit false

namespace Fum.Analysis

open Fum.Model Effects

variable {τ : Traits} {U : Stuck → Prop} {s s' : Store τ} {t t' : Table τ}

/-! ## Lookup and range erasure -/

/-- What `find` answers. -/
inductive Found (t : Table τ) (key : τ.Key) (it : ℕ) : Prop where
  | absent (end_eq : it = kNullIndex) (absent : Absent t key)
  | present (listed : it ∈ t.iteration) (same_key : Matches t key it)

theorem find_spec (key : τ.Key) (hc : Consistent s.table) (hroom : Room s.table) :
    Action.Post U (find key) s (fun it s' => s'.table = s.table ∧ Found s.table key it ∧
      faultPoint s'.heap.fault = faultPoint s.heap.fault) (Refused 1 s) := by
  unfold find
  refine post_probe (hc.searchable hroom) (fun _ h' => h') ?_ ?_
  · intro b x s1 hprobed hx hmatch hbucket hne
    rw [post_getTable, hprobed.table, if_neg hne]
    rw [← hprobed.table] at hbucket
    refine post_bucketOf hbucket fun bucket hnode => ?_
    rw [post_pure, hnode]
    exact ⟨hprobed.table, .present hx hmatch, hprobed.point⟩
  · intro s1 hprobed habs
    rw [post_getTable, hprobed.table, if_pos rfl, post_pure]
    exact ⟨hprobed.table, .absent rfl habs, hprobed.point⟩

/-- The node of a live element is what a search for its key finds. -/
theorem find_live {x : ℕ} {e : Element τ} {heap : Heap} (hw : WellFormed t) (hroom : Room t)
    (hlaw : LawfulTable t) (hx : x ∈ t.iteration) (he : (t.nodeAt x).storage = some e)
    (hfault : heap.fault = none) : ((find (τ.keyOf e.value)).run ⟨t, heap⟩).1 = .ok x := by
  have hpost : Action.Post Stuck.never (find (τ.keyOf e.value)) ⟨t, heap⟩
      (fun it _ => Found t (τ.keyOf e.value) it) (fun _ => False) :=
    (find_spec (s := ⟨t, heap⟩) _ hw.consistent hroom).mono (fun _ _ h' => h'.2.1)
      (fun _ h' => h'.fault hfault) fun _ h' => h'
  obtain ⟨it, s', hrun, hfound⟩ := hpost.returns
  rw [hrun]
  rcases hfound with ⟨-, habs⟩ | ⟨hlisted, hm⟩
  · exact absurd habs (not_absent_self hx he hlaw.refl)
  · have heq := (hw.distinct hlaw).unique hlaw hlisted hx hm ⟨e, he, hlaw.refl _⟩
    rw [heq]

/-- The search for the key of any element of the table finds it. -/
def Findable (t : Table τ) : Prop :=
  ∀ node e, (t.nodeAt node).storage = some e → ∀ heap : Heap, heap.fault = none →
    ((find (τ.keyOf e.value)).run ⟨t, heap⟩).1 = .ok node

theorem findable_of_wellFormed (hw : WellFormed t) (hroom : Room t) (hlaw : LawfulTable t) :
    Findable t := by
  intro node e he heap hfault
  have hlive : (t.nodeAt node).storage.isSome := by
    rw [he]
    rfl
  exact find_live hw hroom hlaw ((hw.consistent.filled node).mp hlive) he hfault

/-- What `contains` answers. -/
def Contained (t : Table τ) (key : τ.Key) (answer : Bool) : Prop :=
  if answer then ∃ x ∈ t.iteration, Matches t key x else Absent t key

theorem contains_spec (key : τ.Key) (hc : Consistent s.table) (hroom : Room s.table) :
    Action.Post U (contains key) s
      (fun answer s' => s'.table = s.table ∧ Contained s.table key answer ∧
        faultPoint s'.heap.fault = faultPoint s.heap.fault) (Refused 1 s) := by
  unfold contains
  refine post_probe (hc.searchable hroom) (fun _ h' => h') ?_ ?_
  · intro b x s1 hprobed hx hmatch hbucket hne
    rw [post_getTable, hprobed.table, post_pure, bne_iff_ne.mpr hne]
    exact ⟨hprobed.table, ⟨x, hx, hmatch⟩, hprobed.point⟩
  · intro s1 hprobed habs
    rw [post_getTable, hprobed.table, post_pure, bne_self_eq_false]
    exact ⟨hprobed.table, habs, hprobed.point⟩

/-- The node that an erasure by iterator removes is its own. -/
theorem ErasedAt.erased {i : ℕ} (h : ErasedAt t i t') (hlaw : LawfulTable t) (hd : Distinct t)
    (hf : Filled t t.iteration) : i ∈ t.iteration ∧ Erased t [i] t' := by
  obtain ⟨e, x, he, hx, hmatch, herased⟩ := h
  have hi : i ∈ t.iteration := (hf i).mp (by rw [he]; rfl)
  have heq : i = x := hd.unique hlaw hi hx ⟨e, he, hlaw.refl _⟩ hmatch
  exact ⟨hi, heq ▸ herased⟩

/-- How `erase(first, last)` throws: some of its elements may be gone. -/
structure RangeThrown (s s' : Store τ) : Prop where
  consistent : Consistent s'.table
  policy : SamePolicy s.table s'.table
  distinct : LawfulTable s.table → Distinct s.table → Distinct s'.table
  point : ∃ p ∈ [Point.scratch, .hash, .equal], faultPoint s.heap.fault = some p

theorem eraseRange_spec (first last : ℕ) (hc : Consistent s.table) (hroom : Room s.table)
    (hU : U .undefined ∨ (s.table.range (kNullIndex + 1) first last).isSome ∧
      LawfulTable s.table ∧ Distinct s.table) :
    Action.Post U (eraseRange first last) s
      (fun it s' => Consistent s'.table ∧ it = last ∧ SamePolicy s.table s'.table ∧
        ∃ doomed, s.table.range (kNullIndex + 1) first last = some doomed ∧
          (LawfulTable s.table → Distinct s.table → Erased s.table doomed s'.table))
      (RangeThrown s) := by
  unfold eraseRange
  rw [post_getTable]
  cases hrange : s.table.range (kNullIndex + 1) first last with
  | none =>
      rcases hU with hU | ⟨hsome, -⟩
      · exact Action.Post.undefined hU
      · rw [hrange] at hsome
        cases hsome
  | some doomed =>
      obtain ⟨hnodup, hlisted⟩ := hc.slots.range_nodup hc.filled hrange
      have hiter := hc.slots.iteration_nodup
      refine Action.Post.bind (scratch_spec doomed) ?_ ?_
      · intro s1 h1
        obtain ⟨p, hp, hpoint⟩ := h1.point
        rw [List.mem_singleton.mp hp] at hpoint
        exact ⟨h1.table ▸ hc, h1.table ▸ SamePolicy.refl _, by rw [h1.table]; exact fun _ hd => hd,
          _, by simp, hpoint⟩
      rintro ⟨⟩ s1 h1
      -- the elements visited so far are gone
      refine Action.Post.bind (Action.Post.forEach (fun done s2 => Consistent s2.table ∧
        Room s2.table ∧ SamePolicy s.table s2.table ∧
        faultPoint s2.heap.fault = faultPoint s.heap.fault ∧
        (LawfulTable s.table → Distinct s.table → Erased s.table done s2.table))
        ⟨h1.table ▸ hc, h1.table ▸ hroom, h1.table ▸ SamePolicy.refl _, h1.fault.point,
          fun _ _ => ?_⟩ ?_) (fun _ h' => h') ?_
      · rw [h1.table]
        exact Erased.refl _
      · rintro done a rest s2 hsplit ⟨hc2, hroom2, hpolicy2, hpoint2, herased2⟩
        rw [hsplit] at hnodup hlisted
        have ha : a ∉ done := fun hmem =>
          (List.nodup_append.mp hnodup).2.2 a hmem a (by simp) rfl
        have hlaw2 : LawfulTable s.table → Distinct s.table →
            LawfulTable s2.table ∧ Distinct s2.table := fun hlaw hd =>
          ⟨(herased2 hlaw hd).policy.lawfulTable.mpr hlaw, (herased2 hlaw hd).distinct hiter hd⟩
        refine (eraseNode_spec a hc2 hroom2 (fun hnone => ?_) ?_).mono ?_ ?_ fun _ h' => h'
        · rcases hU with hU | ⟨-, hlaw, hd⟩
          · exact hU
          · have hmem : a ∈ s2.table.iteration :=
              ((herased2 hlaw hd).mem_iff hiter a).mpr ⟨hlisted a (by simp), ha⟩
            exact absurd hnone (hc2.storage_ne_none hmem)
        · exact hU.imp_right fun h => (hlaw2 h.2.1 h.2.2).1.refl
        · rintro ⟨⟩ s3 ⟨hc3, hpoint3, hat⟩
          have hkept : Room s3.table ∧ SamePolicy s2.table s3.table := by
            obtain ⟨e, x, -, -, -, herased⟩ := hat
            exact ⟨herased.room hroom2, herased.policy⟩
          refine ⟨hc3, hkept.1, hpolicy2.trans hkept.2, hpoint3.trans hpoint2, fun hlaw hd => ?_⟩
          obtain ⟨hl2, hd2⟩ := hlaw2 hlaw hd
          exact (herased2 hlaw hd).trans (hat.erased hl2 hd2 hc2.filled).2
        · intro s3 h3
          refine ⟨h3.table ▸ hc2, by rw [h3.table]; exact hpolicy2,
            fun hlaw hd => by rw [h3.table]; exact (hlaw2 hlaw hd).2, ?_⟩
          rcases h3.cause with hequal | ⟨m, -, hhash⟩
          · exact ⟨_, by simp, hpoint2.symm.trans hequal⟩
          · exact ⟨.hash, by simp, hpoint2.symm.trans (by rw [hhash]; rfl)⟩
      · rintro ⟨⟩ s2 ⟨hc2, -, hpolicy2, -, herased2⟩
        exact Action.Post.pure ⟨hc2, rfl, hpolicy2, doomed, rfl, herased2⟩

/-! ## Operations -/

/-- The iterators of the call are valid. -/
def ValidIn (t : Table τ) : Op τ → Prop
  | .assign node _ => (t.nodeAt node).storage.isSome
  | .eraseAt node => (t.nodeAt node).storage.isSome
  | .eraseRange first last => (t.range (kNullIndex + 1) first last).isSome
  | .extractAt node => (t.nodeAt node).storage.isSome
  | _ => True

/-- The call does not ask for too few buckets. -/
def FitsIn (t : Table τ) : Op τ → Prop
  | .rehash requested => RehashFits t requested
  | .reserve elementCount => ReserveFits t elementCount
  | _ => True

/-- The bucket counts that the call asks for lie within `std::size_t`. -/
def SizableIn (t : Table τ) : Op τ → Prop
  | .rehash requested => rehashCount t requested ≠ none
  | .reserve elementCount =>
      ∃ m ∈ bucketCountForElements t.maxLoadFactor elementCount, rehashCount t m ≠ none
  | _ => True

instance (t : Table τ) : ∀ op : Op τ, Decidable (ValidIn t op)
  | .assign node _ | .eraseAt node | .extractAt node =>
      inferInstanceAs (Decidable ((t.nodeAt node).storage.isSome = true))
  | .eraseRange first last =>
      inferInstanceAs (Decidable ((t.range (kNullIndex + 1) first last).isSome = true))
  | .insert _ | .tryEmplace _ _ | .insertOrAssign _ _ | .eraseKey _ | .extractKey _ | .clear
  | .rehash _ | .reserve _ | .maxLoadFactor _ | .find _ => isTrue trivial

instance (t : Table τ) : ∀ op : Op τ, Decidable (FitsIn t op)
  | .rehash requested => inferInstanceAs (Decidable (RehashFits t requested))
  | .reserve elementCount => inferInstanceAs (Decidable (ReserveFits t elementCount))
  | .insert _ | .tryEmplace _ _ | .insertOrAssign _ _ | .assign _ _ | .eraseKey _ | .eraseAt _
  | .eraseRange _ _ | .extractKey _ | .extractAt _ | .clear | .maxLoadFactor _ | .find _ =>
      isTrue trivial

instance (t : Table τ) : ∀ op : Op τ, Decidable (SizableIn t op)
  | .rehash requested => inferInstanceAs (Decidable (rehashCount t requested ≠ none))
  | .reserve elementCount =>
      inferInstanceAs (Decidable (∃ m ∈ bucketCountForElements t.maxLoadFactor elementCount,
        rehashCount t m ≠ none))
  | .insert _ | .tryEmplace _ _ | .insertOrAssign _ _ | .assign _ _ | .eraseKey _ | .eraseAt _
  | .eraseRange _ _ | .extractKey _ | .extractAt _ | .clear | .maxLoadFactor _ | .find _ =>
      isTrue trivial

/-- A rehash that fits is defined. -/
theorem RehashFits.sized {n : ℕ} (h : RehashFits t n) : rehashCount t n ≠ none := by
  obtain ⟨c, hc, -⟩ := h
  rw [Option.mem_def.mp hc]
  exact Option.some_ne_none c

theorem FitsIn.sizableIn {op : Op τ} (h : FitsIn t op) : SizableIn t op := by
  cases op with
  | rehash n => exact RehashFits.sized h
  | reserve n =>
      obtain ⟨m, hm, hfits⟩ := h
      exact ⟨m, hm, hfits.sized⟩
  | insert | tryEmplace | insertOrAssign | assign | eraseKey | eraseAt | eraseRange | extractKey
  | extractAt | clear | maxLoadFactor | find => trivial

/-- With a load factor of at most one, what is defined fits. -/
theorem SizableIn.fitsIn {op : Op τ} (hz : LoadFactor.AtMostOne t.maxLoadFactor)
    (h : SizableIn t op) : FitsIn t op := by
  cases op with
  | rehash n => exact rehashFits_of_atMostOne hz h
  | reserve n =>
      obtain ⟨m, hm, hsized⟩ := h
      exact ⟨m, hm, rehashFits_of_atMostOne hz hsized⟩
  | insert | tryEmplace | insertOrAssign | assign | eraseKey | eraseAt | eraseRange | extractKey
  | extractAt | clear | maxLoadFactor | find => trivial

/-- A call that asks for more buckets than `std::size_t` counts steps outside the language. -/
theorem Op.exec_undefined {op : Op τ} (h : ¬ SizableIn s.table op) :
    (op.exec.run s).1 = .undefined := by
  have hrehash : ∀ n, rehashCount s.table n = none →
      Action.Post Stuck.undefinedOnly (rehash n) s (fun _ _ => False) (fun _ => False) := by
    intro n hnone
    refine post_rehash (fun _ => rfl) (fun hc _ => ?_) (fun hc => ?_) fun k _ hc => ?_
    all_goals
      rw [hnone] at hc
      cases hc
  cases op with
  | rehash n =>
      exact (Action.Post.bind (hrehash n (not_not.mp h)) (fun _ h' => h')
        fun _ _ h' => h'.elim).steps_outside
  | reserve n =>
      have hreserve : Action.Post Stuck.undefinedOnly (reserve n) s (fun _ _ => False)
          (fun _ => False) := by
        refine post_reserve (fun _ => rfl) fun m hm => hrehash m ?_
        by_contra hsome
        exact h ⟨m, hm, hsome⟩
      exact (Action.Post.bind hreserve (fun _ h' => h') fun _ _ h' => h'.elim).steps_outside
  | insert | tryEmplace | insertOrAssign | assign | eraseKey | eraseAt | eraseRange | extractKey
  | extractAt | clear | maxLoadFactor | find => exact absurd trivial h

/-- What a call does when it ends, it does with bucket counts that `std::size_t` has. -/
theorem Op.post_of_sizableIn {op : Op τ} {Q : Reply τ → Store τ → Prop} {E : Store τ → Prop}
    (h : SizableIn s.table op → Action.Post Stuck.anyhow op.exec s Q E) :
    Action.Post Stuck.anyhow op.exec s Q E := by
  by_cases hsizable : SizableIn s.table op
  · exact h hsizable
  · unfold Action.Post
    rw [show op.exec.run s = (.undefined, (op.exec.run s).2) from
      Prod.ext (Op.exec_undefined hsizable) rfl]
    trivial

/-- A call that ends has asked for no more buckets than `std::size_t` counts. -/
theorem Op.exec_sizableIn (op : Op τ) :
    Action.Post Stuck.anyhow op.exec s (fun _ _ => SizableIn s.table op)
      (fun _ => SizableIn s.table op) :=
  Op.post_of_sizableIn fun h =>
    (Action.Post.any op.exec s).mono (fun _ _ _ => h) (fun _ _ => h) fun _ h' => h'

/-- What a call does to the table and what it answers. -/
def EffectOf (t t' : Table τ) : Op τ → Reply τ → Prop
  | .insert value, .inserted it flag => Entered t (τ.keyOf value) value it flag t'
  | .tryEmplace key mapped, .inserted it flag =>
      Entered t key (τ.makeValue key mapped) it flag t'
  | .insertOrAssign key mapped, .inserted it flag => EnteredOrAssigned t key mapped it flag t'
  | .assign node mapped, .none => Assigned t node (fun value => τ.assignMapped value mapped) t'
  | .eraseKey key, .erased n => ErasedKey t key n t'
  | .eraseAt node, .iterator _ => ErasedAt t node t'
  | .eraseRange first last, .iterator it => it = last ∧ SamePolicy t t' ∧
      ∃ doomed, t.range (kNullIndex + 1) first last = some doomed ∧
        (LawfulTable t → Distinct t → Erased t doomed t')
  | .extractKey key, .node handle => ExtractedKey t key handle t'
  | .extractAt node, .node _ => ErasedAt t node t'
  | .clear, .none => Cleared t t'
  | .rehash _, .none => SameElements t t'
  | .reserve _, .none => SameElements t t'
  | .maxLoadFactor z, .none => Refactored t t' ∧ t'.maxLoadFactor = LoadFactor.ofFloat z
  | .find key, .iterator it => Found t key it ∧ t' = t
  | _, _ => False

/-- A call with its answer and what it does to the table: one case for each call, since every
call has one kind of answer. -/
inductive Effect (t t' : Table τ) : Op τ → Reply τ → Prop where
  | insert (value : τ.Value) (it : ℕ) (flag : Bool)
      (entered : Entered t (τ.keyOf value) value it flag t') :
      Effect t t' (.insert value) (.inserted it flag)
  | tryEmplace (key : τ.Key) (mapped : τ.Mapped) (it : ℕ) (flag : Bool)
      (entered : Entered t key (τ.makeValue key mapped) it flag t') :
      Effect t t' (.tryEmplace key mapped) (.inserted it flag)
  | insertOrAssign (key : τ.Key) (mapped : τ.Mapped) (it : ℕ) (flag : Bool)
      (entered : EnteredOrAssigned t key mapped it flag t') :
      Effect t t' (.insertOrAssign key mapped) (.inserted it flag)
  | assign (node : ℕ) (mapped : τ.Mapped)
      (assigned : Assigned t node (fun value => τ.assignMapped value mapped) t') :
      Effect t t' (.assign node mapped) .none
  | eraseKey (key : τ.Key) (n : ℕ) (erased : ErasedKey t key n t') :
      Effect t t' (.eraseKey key) (.erased n)
  | eraseAt (node it : ℕ) (erased : ErasedAt t node t') :
      Effect t t' (.eraseAt node) (.iterator it)
  | eraseRange (first last : ℕ) (doomed : List ℕ) (policy : SamePolicy t t')
      (range : t.range (kNullIndex + 1) first last = some doomed)
      (erased : LawfulTable t → Distinct t → Erased t doomed t') :
      Effect t t' (.eraseRange first last) (.iterator last)
  | extractKey (key : τ.Key) (handle : Handle τ) (extracted : ExtractedKey t key handle t') :
      Effect t t' (.extractKey key) (.node handle)
  | extractAt (node : ℕ) (handle : Handle τ) (erased : ErasedAt t node t') :
      Effect t t' (.extractAt node) (.node handle)
  | clear (cleared : Cleared t t') : Effect t t' .clear .none
  | rehash (requested : ℕ) (same : SameElements t t') : Effect t t' (.rehash requested) .none
  | reserve (elementCount : ℕ) (same : SameElements t t') :
      Effect t t' (.reserve elementCount) .none
  | maxLoadFactor (z : RoundedArithmetic.FloatValue τ.rounding) (refactored : Refactored t t') :
      Effect t t' (.maxLoadFactor z) .none
  | find (key : τ.Key) (it : ℕ) (found : Found t key it) (same : t' = t) :
      Effect t t' (.find key) (.iterator it)

/-- The effect of a call, by cases. -/
theorem EffectOf.effect {op : Op τ} {reply : Reply τ} (he : EffectOf t t' op reply) :
    Effect t t' op reply := by
  cases op with
  | insert value => cases reply <;> first | exact he.elim | exact .insert _ _ _ he
  | tryEmplace key mapped =>
      cases reply <;> first | exact he.elim | exact .tryEmplace _ _ _ _ he
  | insertOrAssign key mapped =>
      cases reply <;> first | exact he.elim | exact .insertOrAssign _ _ _ _ he
  | assign node mapped => cases reply <;> first | exact he.elim | exact .assign _ _ he
  | eraseKey key => cases reply <;> first | exact he.elim | exact .eraseKey _ _ he
  | eraseAt node => cases reply <;> first | exact he.elim | exact .eraseAt _ _ he
  | eraseRange first last =>
      cases reply with
      | iterator it =>
          obtain ⟨rfl, hpolicy, doomed, hrange, herased⟩ := he
          exact .eraseRange _ _ doomed hpolicy hrange herased
      | _ => exact he.elim
  | extractKey key => cases reply <;> first | exact he.elim | exact .extractKey _ _ he
  | extractAt node => cases reply <;> first | exact he.elim | exact .extractAt _ _ he
  | clear => cases reply <;> first | exact he.elim | exact .clear he
  | rehash requested => cases reply <;> first | exact he.elim | exact .rehash _ he
  | reserve elementCount => cases reply <;> first | exact he.elim | exact .reserve _ he
  | maxLoadFactor z => cases reply <;> first | exact he.elim | exact .maxLoadFactor _ he.1
  | find key => cases reply <;> first | exact he.elim | exact .find _ _ he.1 he.2

/-- What an exception of a call leaves. -/
def ThrownBy (s s' : Store τ) : Op τ → Prop
  | .insert _ => EmplaceThrown s s'
  | .tryEmplace _ _ => LateThrown 1 s s'
  | .insertOrAssign _ _ => LateThrown 2 s s'
  | .eraseKey _ => Refused 1 s s'
  | .eraseAt _ => Refused 1 s s'
  | .eraseRange _ _ => RangeThrown s s'
  | .extractKey _ => ExtractThrown s s'
  | .extractAt _ => ExtractThrown s s'
  | .rehash _ => InsertThrown s s'
  | .reserve _ => InsertThrown s s'
  | .find _ => Refused 1 s s'
  | .assign _ _ => False
  | .clear => False
  | .maxLoadFactor _ => False

/-- An exception has a fault behind it. -/
theorem ThrownBy.fault {op : Op τ} (h : ThrownBy s s' op) : s.heap.fault ≠ none := by
  cases op with
  | insert => exact EmplaceThrown.fault h
  | tryEmplace | insertOrAssign => exact LateThrown.fault h
  | eraseKey | eraseAt | find => exact Refused.fault h
  | rehash | reserve => exact InsertThrown.fault h
  | eraseRange =>
      obtain ⟨p, -, hpoint⟩ := h.point
      exact fault_ne_none hpoint
  | extractKey | extractAt =>
      rcases h with h | ⟨-, p, -, hpoint⟩
      · exact h.fault
      · exact fault_ne_none hpoint
  | assign | clear | maxLoadFactor => exact h.elim

/-- A call on a consistent table. It may step outside the language only if `U` allows it or
its iterators are valid and the functors lawful. -/
theorem Op.exec_spec (op : Op τ) (hc : Consistent s.table) (hroom : Room s.table)
    (hfits : FitsIn s.table op)
    (hU : U .undefined ∨ ValidIn s.table op ∧ LawfulTable s.table ∧ Distinct s.table) :
    Action.Post U op.exec s
      (fun reply s' => Consistent s'.table ∧ EffectOf s.table s'.table op reply)
      (fun s' => ThrownBy s s' op) := by
  have hlive : ∀ node, op = .eraseAt node ∨ op = .extractAt node ∨
      (∃ mapped, op = .assign node mapped) →
        (s.table.nodeAt node).storage = none → U .undefined := by
    rintro node hop hnone
    rcases hU with hU | ⟨hvalid, -⟩
    · exact hU
    · have hsome : (s.table.nodeAt node).storage.isSome := by
        rcases hop with rfl | rfl | ⟨mapped, rfl⟩ <;> exact hvalid
      rw [hnone] at hsome
      cases hsome
  have hrefl : U .undefined ∨ ∀ k, s.table.keyEqual k k = true :=
    hU.imp_right fun h => h.2.1.refl
  cases op with
  | insert value =>
      refine Action.Post.bind (emplaceImpl_spec value hc hroom) (fun _ h' => h') ?_
      exact fun r s' h' => ⟨h'.1, h'.2.1⟩
  | tryEmplace key mapped =>
      exact Action.Post.bind (tryEmplaceImpl_spec key mapped hc hroom) (fun _ h' => h')
        fun r s' h' => h'
  | insertOrAssign key mapped =>
      exact Action.Post.bind (insertOrAssignImpl_spec key mapped hc hroom) (fun _ h' => h')
        fun r s' h' => h'
  | assign node mapped =>
      refine Action.Post.bind (assignValue_spec node _ (hlive node (by simp)))
        (fun _ h' => h') ?_
      rintro ⟨⟩ s' ⟨ha, -, hslots⟩
      exact ⟨ha.consistent (fun v => τ.keyOf_assignMapped v mapped) hc (hslots [] hc.slots), ha⟩
  | eraseKey key =>
      exact Action.Post.bind (eraseKey_spec key hc hroom) (fun _ h' => h') fun n s' h' => h'
  | eraseAt node =>
      have hat : Action.Post U (eraseAt node) s
          (fun _ s' => Consistent s'.table ∧ ErasedAt s.table node s'.table) (Refused 1 s) := by
        unfold eraseAt
        rw [post_getTable]
        exact Action.Post.bind (eraseNode_spec node hc hroom (hlive node (by simp)) hrefl)
          (fun _ h' => h') fun _ s' h' => ⟨h'.1, h'.2.2⟩
      exact Action.Post.bind hat (fun _ h' => h') fun it s' h' => h'
  | eraseRange first last =>
      exact Action.Post.bind (eraseRange_spec first last hc hroom hU) (fun _ h' => h')
        fun it s' h' => h'
  | extractKey key =>
      exact Action.Post.bind (extractKey_spec key hc hroom) (fun _ h' => h')
        fun handle s' h' => h'
  | extractAt node =>
      refine Action.Post.bind (extractAt_spec node hc hroom (hlive node (by simp)) hrefl)
        (fun _ h' => h') ?_
      rintro handle s' ⟨hc', e, x, he, hx, hmatch, herased, -⟩
      exact ⟨hc', e, x, he, hx, hmatch, herased⟩
  | clear =>
      exact Action.Post.bind (clear_spec hc.under) (fun _ h' => h') fun _ s' h' => ⟨h'.2, h'.1⟩
  | rehash requested =>
      exact Action.Post.bind (rehash_spec requested hc hroom hfits) (fun _ h' => h')
        fun _ s' h' => ⟨h'.2.1, h'.1⟩
  | reserve elementCount =>
      exact Action.Post.bind (reserve_spec elementCount hc hroom hfits) (fun _ h' => h')
        fun _ s' h' => ⟨h'.2.1, h'.1⟩
  | maxLoadFactor z =>
      exact Action.Post.bind (setMaxLoadFactor_spec z hc) (fun _ h' => h')
        fun _ s' h' => ⟨h'.2.1, h'.1, h'.2.2.1⟩
  | find key =>
      refine Action.Post.bind (find_spec key hc hroom) (fun _ h' => h') ?_
      rintro it s' ⟨htable, hfound, -⟩
      exact ⟨htable ▸ hc, hfound, htable⟩

/-! ## Well-formed tables -/

theorem Entered.keyed {key : τ.Key} {mapped : τ.Mapped} {it : ℕ} {flag : Bool}
    (h : Entered t key (τ.makeValue key mapped) it flag t') :
    Entered t (τ.keyOf (τ.makeValue key mapped)) (τ.makeValue key mapped) it flag t' := by
  rw [τ.keyOf_makeValue]
  exact h

theorem WellFormed.of_effect (h : WellFormed t) {op : Op τ} {reply : Reply τ}
    (he : EffectOf t t' op reply) (hc : Consistent t') : WellFormed t' := by
  cases he.effect with
  | insert value it flag entered => exact h.of_entered entered hc
  | tryEmplace key mapped it flag entered => exact h.of_entered entered.keyed hc
  | insertOrAssign key mapped it flag entered =>
      cases entered with
      | entered absent entered => exact h.of_entered entered.keyed hc
      | assigned flag_eq listed same_key assigned =>
          exact h.of_assigned assigned (fun v => τ.keyOf_assignMapped v mapped) hc
  | assign node mapped assigned =>
      exact h.of_assigned assigned (fun v => τ.keyOf_assignMapped v mapped) hc
  | eraseKey key n erased =>
      cases erased with
      | absent count absent same => rwa [same]
      | erased count x listed same_key erased => exact h.of_erased erased hc
  | eraseAt node it erased =>
      obtain ⟨e, x, -, -, -, herased⟩ := erased
      exact h.of_erased herased hc
  | eraseRange first last doomed policy range erased =>
      refine ⟨hc, fun hlaw' => ?_⟩
      have hlaw := policy.lawfulTable.mp hlaw'
      have hd := h.distinct hlaw
      exact (erased hlaw hd).distinct h.consistent.slots.iteration_nodup hd
  | extractKey key handle extracted =>
      cases extracted with
      | absent empty absent same => rwa [same]
      | extracted x listed same_key erased owns => exact h.of_erased erased hc
  | extractAt node handle erased =>
      obtain ⟨e, x, -, -, -, herased⟩ := erased
      exact h.of_erased herased hc
  | clear cleared => exact WellFormed.of_empty hc cleared.iteration
  | rehash requested same => exact h.of_sameElements same hc
  | reserve elementCount same => exact h.of_sameElements same hc
  | maxLoadFactor z refactored => exact h.of_refactored refactored hc
  | find key it found same => rwa [same]

/-! ## Exceptions that do no harm -/

/-- An exception of a functor. -/
def FunctorFault (fault : Option (Point × ℕ)) : Prop :=
  faultPoint fault = some .hash ∨ faultPoint fault = some .equal

/-- `key_equal` throws, or one of the first `n` calls of the hasher. -/
def EarlyFault (n : ℕ) (fault : Option (Point × ℕ)) : Prop :=
  faultPoint fault = some .equal ∨ ∃ m < n, fault = some (.hash, m)

/-- The call has not touched the table when its functor throws, or has finished with the
elements it erases. -/
def SafeCall : Op τ → Option (Point × ℕ) → Prop
  | .insert _, _ | .rehash _, _ | .reserve _, _ => False
  | .tryEmplace _ _, fault => EarlyFault 1 fault
  | .insertOrAssign _ _, fault => EarlyFault 2 fault
  | _, _ => True

/-- No functor throws where it does harm, and no bucket array is lost. -/
def SafeFault (t : Table τ) (op : Op τ) (fault : Option (Point × ℕ)) : Prop :=
  (FunctorFault fault → SafeCall op fault) ∧
    (faultPoint fault = some .bucketArray → t.bucketCount = 0)

/-- The fault strikes at one of the points. -/
def FaultAt (ps : List Point) (fault : Option (Point × ℕ)) : Prop :=
  ∃ p ∈ ps, faultPoint fault = some p

instance (ps : List Point) (fault : Option (Point × ℕ)) : Decidable (FaultAt ps fault) :=
  inferInstanceAs (Decidable (∃ p ∈ ps, _))

theorem FaultAt.congr {ps : List Point} {f f' : Option (Point × ℕ)} (h : FaultAt ps f)
    (hpoint : faultPoint f' = faultPoint f) : FaultAt ps f' := by
  unfold FaultAt
  rwa [hpoint]

theorem FaultAt.ne {ps : List Point} {p : Point} {fault : Option (Point × ℕ)}
    (h : FaultAt ps fault) (hp : p ∉ ps) : faultPoint fault ≠ some p := by
  obtain ⟨q, hq, hpoint⟩ := h
  rw [hpoint]
  rintro heq
  cases heq
  exact hp hq

/-- An insertion undoes what it has done when this throws. -/
abbrev Undoable : Option (Point × ℕ) → Prop :=
  FaultAt [.chunk, .chunksGrowth, .construct, .iterationGrowth]

/-- An element that is to be moved has not been touched when this throws. -/
abbrev Untouched : Option (Point × ℕ) → Prop := FaultAt [.scratch, .chunk, .chunksGrowth]

theorem InsertThrown.wellFormed (h : InsertThrown s s') (hw : WellFormed s.table)
    (hhash : faultPoint s.heap.fault ≠ some .hash)
    (harray : faultPoint s.heap.fault = some .bucketArray → s.table.bucketCount = 0) :
    WellFormed s'.table := by
  cases h with
  | undone point same consistent => exact hw.of_sameElements same consistent
  | lostBuckets point lost =>
      exact hw.of_sameElements lost.same (lost.consistent hw.consistent (harray point))
  | unplaced point unplaced => exact absurd point hhash

theorem InsertThrown.wellFormed_of_undoable (h : InsertThrown s s') (hw : WellFormed s.table)
    (hundo : Undoable s.heap.fault) : WellFormed s'.table :=
  h.wellFormed hw (hundo.ne (by simp)) fun hp => absurd hp (hundo.ne (by simp))

theorem EmplaceThrown.insertThrown {ps : List Point} (h : EmplaceThrown s s')
    (hfault : FaultAt ps s.heap.fault) (hhash : .hash ∉ ps) (hequal : .equal ∉ ps) :
    InsertThrown s s' := by
  rcases h with h | ⟨hp | hp, -⟩
  · exact h
  · exact absurd hp (hfault.ne hhash)
  · exact absurd hp (hfault.ne hequal)

theorem Refused.wellFormed {n : ℕ} (h : Refused n s s') (hw : WellFormed s.table) :
    WellFormed s'.table := by
  rw [h.table]
  exact hw

theorem LateThrown.wellFormed {n : ℕ} (h : LateThrown n s s') (hw : WellFormed s.table)
    (hsafe : FunctorFault s.heap.fault → EarlyFault n s.heap.fault)
    (harray : faultPoint s.heap.fault = some .bucketArray → s.table.bucketCount = 0) :
    WellFormed s'.table := by
  rcases h with hrefused | ⟨hlate, hthrown⟩
  · exact hrefused.wellFormed hw
  · refine hthrown.wellFormed hw (fun hhash => ?_) harray
    rcases hsafe (Or.inl hhash) with hequal | ⟨m, hm, heq⟩
    · rw [hhash] at hequal
      cases hequal
    · exact hlate m hm heq

theorem RangeThrown.wellFormed (h : RangeThrown s s') (hw : WellFormed s.table) :
    WellFormed s'.table := by
  refine ⟨h.consistent, fun hlaw => ?_⟩
  have hlaw' := h.policy.lawfulTable.mp hlaw
  exact h.distinct hlaw' (hw.distinct hlaw')

theorem ExtractThrown.wellFormed (h : ExtractThrown s s') (hw : WellFormed s.table) :
    WellFormed s'.table := by
  rcases h with hrefused | ⟨htable, -⟩
  · exact hrefused.wellFormed hw
  · rwa [htable]

/-- A harmless exception leaves a well-formed table. -/
theorem WellFormed.of_thrownBy (hw : WellFormed s.table) {op : Op τ} (h : ThrownBy s s' op)
    (hsafe : SafeFault s.table op s.heap.fault) : WellFormed s'.table := by
  obtain ⟨hcall, harray⟩ := hsafe
  cases op with
  | insert value =>
      have hnot : ¬ FunctorFault s.heap.fault := hcall
      rcases h with h | ⟨hfunctor, -⟩
      · exact h.wellFormed hw (fun hhash => hnot (Or.inl hhash)) harray
      · exact absurd hfunctor hnot
  | tryEmplace key mapped => exact LateThrown.wellFormed h hw hcall harray
  | insertOrAssign key mapped => exact LateThrown.wellFormed h hw hcall harray
  | eraseRange first last => exact RangeThrown.wellFormed h hw
  | extractKey key => exact ExtractThrown.wellFormed h hw
  | extractAt node => exact ExtractThrown.wellFormed h hw
  | rehash requested =>
      exact InsertThrown.wellFormed h hw (fun hhash => hcall (Or.inl hhash)) harray
  | reserve elementCount =>
      exact InsertThrown.wellFormed h hw (fun hhash => hcall (Or.inl hhash)) harray
  | eraseKey key => exact Refused.wellFormed h hw
  | eraseAt node => exact Refused.wellFormed h hw
  | find key => exact Refused.wellFormed h hw
  | assign node mapped => exact h.elim
  | clear => exact h.elim
  | maxLoadFactor z => exact h.elim

/-- A call on a well-formed table. -/
theorem Op.exec_wellFormed (op : Op τ) (hw : WellFormed s.table) (hroom : Room s.table)
    (hfits : FitsIn s.table op) :
    Action.Post Stuck.undefinedOnly op.exec s
      (fun reply s' => WellFormed s'.table ∧ EffectOf s.table s'.table op reply)
      (fun s' => SafeFault s.table op s.heap.fault → WellFormed s'.table) :=
  (Op.exec_spec (U := Stuck.undefinedOnly) op hw.consistent hroom hfits (Or.inl rfl)).mono
    (fun _ _ h' => ⟨hw.of_effect h'.2 h'.1, h'.2⟩)
    (fun _ h' hsafe => hw.of_thrownBy h' hsafe) fun _ h' => h'

end Fum.Analysis

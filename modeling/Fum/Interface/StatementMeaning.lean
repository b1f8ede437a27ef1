import Fum.Analysis.MapWorlds
import Fum.Interface.Moving
import Fum.Interface.NodeInsertion

/-!
# What statements mean

A statement in which nothing throws does to the objects of a program what it means for maps
and nodes: the elements go where the entries go, in the same order, with the comparison of the
keys and the allocator that belong to them.
-/

set_option autoImplicit false

namespace Fum.Interface

open Fum.Model Fum.Analysis Effects DenseMap

variable {τ : Traits} {U : Stuck → Prop} {w w' : World τ} {i j h k n : ℕ} {t u : Table τ}
  {s : Store τ} {a : ℕ → τ.Alloc} {hs : List (Option (Handle τ))} {alloc : τ.Alloc}

/-! ## What stands around the contents -/

/-- There are `n` table objects with the allocators `a`, and the handle objects `hs`. -/
def Framed (n : ℕ) (hs : List (Option (Handle τ))) (a : ℕ → τ.Alloc) (w : World τ) : Prop :=
  w.tables.length = n ∧ w.handles = hs ∧ EachTable (fun k t => t.allocator = a k) w

/-- The allocator of a table. -/
def allocatorAt (w : World τ) (k : ℕ) : τ.Alloc := (w.table? k).elim τ.defaultAlloc Table.allocator

theorem allocatorAt_eq (ht : w.table? i = some t) : allocatorAt w i = t.allocator := by
  unfold allocatorAt
  rw [ht]
  rfl

theorem framed_self (w : World τ) : Framed w.tables.length w.handles (allocatorAt w) w :=
  ⟨rfl, rfl, fun _ _ ht => (allocatorAt_eq ht).symm⟩

theorem Framed.withStore (h : Framed n hs a w) (s : Store τ) :
    Framed n hs (Function.update a i s.table.allocator) (withStore w i s) := by
  obtain ⟨hlen, hhandles, ha⟩ := h
  refine ⟨List.length_set.trans hlen, hhandles, fun k t ht => ?_⟩
  show t.allocator = Function.update a i s.table.allocator k
  by_cases hk : k = i
  · subst hk
    rw [Function.update_self]
    have hlt : k < (w.setTable k (some s.table)).tables.length := lt_of_join_eq_some ht
    rw [show (w.setTable k (some s.table)).tables.length = w.tables.length from
      List.length_set] at hlt
    have hself : (Analysis.withStore w k s).table? k = some s.table := by
      show (w.tables.set k (some s.table))[k]?.join = _
      rw [List.getElem?_set_self hlt]
      rfl
    cases hself.symm.trans ht
    rfl
  · rw [Function.update_of_ne hk]
    rw [table?_withStore_of_ne (Ne.symm hk)] at ht
    exact ha k t ht

/-- Calls of member functions keep the allocators. -/
theorem yielding_framed (n : ℕ) (hs : List (Option (Handle τ))) (a : ℕ → τ.Alloc) :
    Yielding (Framed n hs a : World τ → Prop) where
  call i x hx := by
    refine Analysis.keeps_call fun w t ht h => ?_
    have hkept : (x.run ⟨t, w.heap⟩).2.table.allocator = a i :=
      hx _ (durable_allocator (a i)).resilient ⟨t, w.heap⟩ (h.2.2 i t ht)
    have h' := h.withStore (i := i) (x.run ⟨t, w.heap⟩).2
    rwa [hkept, Function.update_eq_self] at h'
  heap _ _ _ h := h

theorem framed_destroyEverything (h : Framed n hs a w) :
    Action.Post Stuck.anyhow (onTable i destroyEverything) w (fun _ => Framed n hs a)
      (fun _ => True) := by
  refine ((yielding_framed n hs a).call i _ (fun J hJ => keeps_destroyEverything hJ.toSteady)
    |>.post h).mono (fun _ _ h' => h') (fun _ _ => trivial) fun _ h' => h'

/-- A write to the members of a table. -/
theorem post_framed_modify {f : Table τ → Table τ} {β : Type} {x : Unit → Action (World τ) β}
    {Q : β → World τ → Prop} {b : τ.Alloc} (h : Framed n hs a w)
    (hf : ∀ t, t.allocator = a i → (f t).allocator = b)
    (hx : ∀ w', Framed n hs (Function.update a i b) w' →
      Action.Post Stuck.anyhow (x ()) w' Q fun _ => True) :
    Action.Post Stuck.anyhow (onTable i (modifyTable f) >>= x) w Q (fun _ => True) := by
  refine post_onTable_bind (fun t ht => ?_) fun _ => trivial
  have h' := h.withStore (i := i) ⟨f t, w.heap⟩
  rw [show (⟨f t, w.heap⟩ : Store τ).table.allocator = b from hf t (h.2.2 i t ht)] at h'
  exact hx _ h'

theorem copyContentsFrom_framed (h : Framed n hs a w) :
    Action.Post Stuck.anyhow (copyContentsFrom i j) w (fun _ => Framed n hs a) (fun _ => True) :=
  ((yielding_framed n hs a).copyContentsFrom.post h).mono (fun _ _ h' => h') (fun _ _ => trivial)
    fun _ h' => h'

theorem moveContentsFrom_framed (h : Framed n hs a w) :
    Action.Post Stuck.anyhow (moveContentsFrom i j) w (fun _ => Framed n hs a) (fun _ => True) :=
  ((yielding_framed n hs a).moveContentsFrom.post h).mono (fun _ _ h' => h') (fun _ _ => trivial)
    fun _ h' => h'

theorem framed_clear {β : Type} {x : Unit → Action (World τ) β} {Q : β → World τ → Prop}
    (h : Framed n hs a w)
    (hx : ∀ w', Framed n hs a w' → Action.Post Stuck.anyhow (x ()) w' Q fun _ => True) :
    Action.Post Stuck.anyhow (onTable i clear >>= x) w Q (fun _ => True) :=
  Action.Post.bind ((yielding_framed n hs a).clear.post h) (fun _ _ => trivial) fun _ => hx

theorem copyAssign_framed (hne : i ≠ j) (h : Framed n hs a w) :
    Action.Post Stuck.anyhow (copyAssign i j) w
      (fun _ => Framed n hs (Function.update a i (if τ.pocca then a j else a i)))
      (fun _ => True) := by
  unfold copyAssign
  rw [if_neg hne]
  refine post_readTable (fun source hsource => ?_) fun _ => trivial
  refine post_readTable (fun t ht => ?_) fun _ => trivial
  have hj : source.allocator = a j := h.2.2 j source hsource
  split
  · next hcond =>
      refine Action.Post.bind (framed_destroyEverything h) (fun _ h' => h') fun _ w1 h1 => ?_
      rw [if_pos hcond.1]
      exact post_framed_modify h1 (fun _ _ => hj) fun w2 h2 => copyContentsFrom_framed h2
  · refine post_framed_modify (b := if τ.pocca then a j else a i) h (fun t ht => ?_)
      fun w1 h1 => ?_
    · cases hp : τ.pocca with
      | true => exact hj
      | false => exact ht
    · refine framed_clear h1 fun w2 h2 => ?_
      refine post_framed_modify (b := if τ.pocca then a j else a i) h2 (fun t ht => ?_)
        fun w3 h3 => ?_
      · rw [Function.update_self] at ht
        exact ht
      · rw [Function.update_idem] at h3
        exact copyContentsFrom_framed h3

theorem stealStorage_framed (h : Framed n hs a w) :
    Action.Post Stuck.anyhow (stealStorage i j) w (fun _ => Framed n hs a) (fun _ => True) := by
  unfold stealStorage
  refine post_readTable (fun source _ => ?_) fun _ => trivial
  refine post_readTable (fun t _ => ?_) fun _ => trivial
  split
  · refine post_framed_modify (b := a i) h (fun t ht => ht) fun w1 h1 => ?_
    rw [Function.update_eq_self] at h1
    refine Action.Post.of_bind_pure
      (post_framed_modify (b := a j) h1 (fun t ht => ht) fun w2 h2 => ?_)
    rw [Function.update_eq_self] at h2
    exact h2
  · exact Action.Post.undefined trivial

theorem moveAssign_framed (hne : i ≠ j) (h : Framed n hs a w) :
    Action.Post Stuck.anyhow (moveAssign i j) w
      (fun _ => Framed n hs (Function.update a i (if τ.pocma then a j else a i)))
      (fun _ => True) := by
  unfold moveAssign
  rw [if_neg hne]
  refine post_readTable (fun source hsource => ?_) fun _ => trivial
  refine post_readTable (fun t ht => ?_) fun _ => trivial
  have hi : t.allocator = a i := h.2.2 i t ht
  have hj : source.allocator = a j := h.2.2 j source hsource
  split
  · refine Action.Post.bind (framed_destroyEverything h) (fun _ h' => h') fun _ w1 h1 => ?_
    refine post_framed_modify (b := if τ.pocma then a j else a i) h1 (fun t ht => ?_)
      fun w2 h2 => ?_
    · cases hp : τ.pocma with
      | true => exact hj
      | false => exact ht
    · exact stealStorage_framed h2
  · next hcond =>
      have hp : τ.pocma = false := Bool.eq_false_iff.mpr fun hp => hcond (Or.inl hp)
      rw [hp, if_neg Bool.false_ne_true, Function.update_eq_self]
      refine framed_clear h fun w1 h1 => ?_
      refine post_framed_modify (b := a i) h1 (fun t ht => ht) fun w2 h2 => ?_
      rw [Function.update_eq_self] at h2
      exact moveContentsFrom_framed h2

theorem Framed.newTable (h : Framed n hs a w) (ht : t.allocator = alloc) :
    Framed (n + 1) hs (Function.update a n alloc) { w with tables := w.tables ++ [some t] } := by
  obtain ⟨hlen, hhandles, ha⟩ := h
  refine ⟨List.length_append.trans (by rw [hlen]; rfl), hhandles, fun k u hu => ?_⟩
  rw [table?_append, hlen] at hu
  show u.allocator = Function.update a n alloc k
  split at hu
  · next hk =>
      cases hu
      rw [hk, Function.update_self, ht]
  · next hk =>
      rw [Function.update_of_ne hk]
      exact ha k u hu

theorem post_framed_cleanup {β : Type} {x : Action (World τ) Unit} {handler : Action (World τ) Unit}
    {y : Action (World τ) β} {Q : World τ → Prop}
    (hx : Action.Post Stuck.anyhow x w (fun _ => Q) fun _ => True)
    (hy : ∀ w', Q w' → Action.Post Stuck.anyhow y w' (fun _ => Q) fun _ => True) :
    Action.Post Stuck.anyhow (x.cleanup handler >>= fun _ => y) w (fun _ => Q) (fun _ => True) :=
  Action.Post.bind (Action.Post.cleanup hx fun _ _ => Action.Post.any _ _) (fun _ h' => h')
    fun _ => hy

theorem copyConstructWith_framed (h : Framed n hs a w) :
    Action.Post Stuck.anyhow (copyConstructWith j alloc) w
      (fun _ => Framed (n + 1) hs (Function.update a n alloc)) (fun _ => True) := by
  unfold copyConstructWith
  refine post_readTable (fun other _ => ?_) fun _ => trivial
  rw [post_newTable]
  exact post_framed_cleanup (copyContentsFrom_framed (h.newTable rfl)) fun _ h' => h'

theorem moveConstructWith_framed (h : Framed n hs a w) :
    Action.Post Stuck.anyhow (moveConstructWith j alloc) w
      (fun _ => Framed (n + 1) hs (Function.update a n alloc)) (fun _ => True) := by
  unfold moveConstructWith
  refine post_readTable (fun other _ => ?_) fun _ => trivial
  rw [post_newTable]
  refine post_framed_cleanup ?_ fun _ h' => h'
  split
  · exact stealStorage_framed (h.newTable rfl)
  · exact moveContentsFrom_framed (h.newTable rfl)

theorem moveConstruct_framed (h : Framed n hs a w) :
    Action.Post Stuck.anyhow (moveConstruct j) w
      (fun _ => Framed (n + 1) hs (Function.update a n (a j))) (fun _ => True) := by
  unfold moveConstruct
  refine post_readTable (fun other hother => ?_) fun _ => trivial
  rw [post_newTable]
  refine post_framed_modify (b := Function.update a n (a j) j) (h.newTable (h.2.2 j other hother))
    (fun t ht => ht) fun w1 h1 => ?_
  rw [Function.update_eq_self] at h1
  exact h1

/-! ## Copies -/

theorem asMap_of_copyOf (h : CopyOf u t) (ha : t.allocator = alloc) :
    asMap t = { asMap u with allocator := alloc } := MapObject.ext h.contents h.keyEqual ha

theorem Framed.allocator (h : Framed n hs (Function.update a i alloc) w)
    (ht : w.table? i = some t) : t.allocator = alloc := by
  have h' : t.allocator = Function.update a i alloc i := h.2.2 i t ht
  rwa [Function.update_self] at h'

theorem copyConstructWith_means (alloc : τ.Alloc) (hw : Everywhere WellFormed w)
    (hj : w.table? j = some u) (hu : WellKept u) (hcopyable : Copyable u)
    (hquiet : w.heap.fault = none) :
    Action.Post U (copyConstructWith j alloc) w (fun i w' => i = w.tables.length ∧
      Depicts w' ((asMaps w).addMap { asMap u with allocator := alloc })) (fun _ => False) := by
  refine ((copyConstructWith_spec alloc hj hu.wellFormed hu.room hu.lawful
    (fun hnot => absurd hcopyable hnot) hquiet).and
    (copyConstructWith_framed (framed_self w))).mono ?_ (fun _ h' => h'.1) fun _ h' => h'
  rintro i w' ⟨⟨-, rfl, t, ht, hcopy, hothers⟩, hframed⟩
  refine ⟨rfl, ?_, everywhere_set hw ht hcopy.wellFormed hothers⟩
  rw [← asMap_of_copyOf hcopy (hframed.allocator ht)]
  exact asMaps_add hframed.1 hframed.2.1 ht hothers

theorem copyAssign_means (hne : i ≠ j) (hw : Everywhere WellFormed w) (hi : w.table? i = some t)
    (hj : w.table? j = some u) (ht : WellKept t) (hu : WellKept u) (hcopyable : Copyable u)
    (hquiet : w.heap.fault = none) :
    Action.Post U (copyAssign i j) w
      (fun _ w' => Depicts w' ((asMaps w).setMap i
        (some { asMap u with allocator := if τ.pocca then u.allocator else t.allocator })))
      (fun _ => False) := by
  refine ((copyAssign_spec hne hi hj ht.wellFormed hu.wellFormed hu.room hu.lawful
    (fun hnot => absurd hcopyable hnot) hquiet).and
    (copyAssign_framed hne (framed_self w))).mono ?_ (fun _ h' => h'.1) fun _ h' => h'
  rintro ⟨⟩ w' ⟨⟨-, t', ht', hcopy, hothers⟩, hframed⟩
  have ha := hframed.allocator ht'
  rw [allocatorAt_eq hi, allocatorAt_eq hj] at ha
  rw [← asMap_of_copyOf hcopy ha]
  exact ⟨asMaps_set hframed.1 hframed.2.1 ht' hothers,
    everywhere_set hw ht' hcopy.wellFormed hothers⟩

/-! ## Moves -/

theorem asMap_of_refilled (h : Refilled u [] t) : asMap t = { asMap u with entries := [] } :=
  MapObject.ext h.contents h.policy.keyEqual h.policy.allocator

theorem moveConstruct_means (hw : Everywhere WellFormed w) (hj : w.table? j = some u)
    (hu : WellKept u) :
    Action.Post U (moveConstruct j) w (fun i w' => i = w.tables.length ∧
      Depicts w' (((asMaps w).setMap j (some { asMap u with entries := [] })).addMap (asMap u)))
      (fun _ => False) := by
  refine ((moveConstruct_spec hj hu.wellFormed).and
    (moveConstruct_framed (framed_self w))).mono ?_ (fun _ h' => h'.1) fun _ h' => h'
  rintro i w' ⟨⟨rfl, t, u', hpair, hcopy, hleft⟩, hframed⟩
  have ha := hframed.allocator hpair.left
  rw [allocatorAt_eq hj] at ha
  refine ⟨rfl, ?_, everywhere_set_set hw hpair.left hpair.right hcopy.wellFormed hleft.wellFormed
    hpair.others⟩
  rw [← asMap_of_refilled hleft, show asMap u = asMap t from (asMap_of_copyOf hcopy ha).symm]
  exact asMaps_set_add hframed.1 hframed.2.1 hpair.left hpair.right (lt_of_join_eq_some hj)
    hpair.others

theorem moveConstructWith_means (alloc : τ.Alloc) (hw : Everywhere WellFormed w)
    (hj : w.table? j = some u) (hu : WellKept u)
    (hgives : alloc = u.allocator → u.givesUpChunks
      (Table.initial u.maxLoadFactor u.hashFunction u.keyEqual alloc))
    (hcopyable : alloc = u.allocator ∨ Copyable u) (hquiet : w.heap.fault = none) :
    Action.Post U (moveConstructWith j alloc) w (fun i w' => i = w.tables.length ∧
      Depicts w' (((asMaps w).setMap j (some { asMap u with entries := [] })).addMap
        { asMap u with allocator := alloc })) (fun _ => False) := by
  refine ((moveConstructWith_spec alloc hj hu.wellFormed hu.room hu.lawful
    (fun heq hnot => absurd (hgives heq) hnot) (fun hnot => absurd hcopyable hnot) hquiet).and
    (moveConstructWith_framed (framed_self w))).mono ?_ (fun _ h' => h'.1) fun _ h' => h'
  rintro i w' ⟨⟨-, rfl, t, u', hpair, hcopy, hleft⟩, hframed⟩
  refine ⟨rfl, ?_, everywhere_set_set hw hpair.left hpair.right hcopy.wellFormed hleft.wellFormed
    hpair.others⟩
  rw [← asMap_of_refilled hleft, ← asMap_of_copyOf hcopy (hframed.allocator hpair.left)]
  exact asMaps_set_add hframed.1 hframed.2.1 hpair.left hpair.right (lt_of_join_eq_some hj)
    hpair.others

theorem moveAssign_means (hne : i ≠ j) (hw : Everywhere WellFormed w) (hi : w.table? i = some t)
    (hj : w.table? j = some u) (ht : WellKept t) (hu : WellKept u)
    (hgives : τ.pocma = true ∨ t.allocator = u.allocator → u.givesUpChunks t)
    (hcopyable : (τ.pocma = true ∨ t.allocator = u.allocator) ∨ Copyable u)
    (hquiet : w.heap.fault = none) :
    Action.Post U (moveAssign i j) w
      (fun _ w' => Depicts w' (((asMaps w).setMap j (some { asMap u with entries := [] })).setMap i
        (some { asMap u with allocator := if τ.pocma then u.allocator else t.allocator })))
      (fun _ => False) := by
  refine ((moveAssign_spec hne hi hj ht.wellFormed hu.wellFormed hu.room hu.lawful
    (fun hsteal hnot => absurd (hgives hsteal) hnot) (fun hnot => absurd hcopyable hnot)
    hquiet).and (moveAssign_framed hne (framed_self w))).mono ?_ (fun _ h' => h'.1) fun _ h' => h'
  rintro ⟨⟩ w' ⟨⟨-, t', u', hpair, hcopy, hleft⟩, hframed⟩
  have ha := hframed.allocator hpair.left
  rw [allocatorAt_eq hi, allocatorAt_eq hj] at ha
  rw [← asMap_of_refilled hleft, ← asMap_of_copyOf hcopy ha]
  exact ⟨asMaps_set_set hframed.1 hframed.2.1 hpair.right hpair.left fun k hkj hki =>
    hpair.others k hki hkj, everywhere_set_set hw hpair.left hpair.right hcopy.wellFormed
      hleft.wellFormed hpair.others⟩

/-! ## Single tables -/

theorem onTable_means {β : Type} {x : Exec τ β} {o : MapObject τ} (hw : Everywhere WellFormed w)
    (hi : w.table? i = some t)
    (hx : Action.Post U x ⟨t, w.heap⟩ (fun _ s' => WellFormed s'.table ∧ asMap s'.table = o)
      fun _ => False) :
    Action.Post U (onTable i x) w (fun _ w' => Depicts w' ((asMaps w).setMap i (some o)))
      (fun _ => False) := by
  refine post_onTable (fun t' ht' => ?_) fun hnone => absurd hnone (by rw [hi]; simp)
  cases hi.symm.trans ht'
  refine hx.mono (fun _ s' h' => ⟨?_, ?_⟩) (fun _ h' => h') fun _ h' => h'
  · rw [asMaps_withStore, h'.2]
  · exact eachTable_withStore hi hw h'.1 fun _ _ _ h'' => h''

theorem assignValues_means (values : List τ.Value) (hw : Everywhere WellFormed w)
    (hi : w.table? i = some t) (ht : WellKept t) (hquiet : w.heap.fault = none)
    (hroom : (enterEach t.keyEqual values []).length + 2 ≤ 2 ^ 24) :
    Action.Post U (assignValues i values) w (fun _ w' => Depicts w' ((asMaps w).setMap i
      (some { asMap t with entries := enterEach t.keyEqual values [] }))) (fun _ => False) := by
  refine onTable_means hw hi ?_
  refine Action.Post.bind (post_silently silent_clear (clear_spec (s := ⟨t, w.heap⟩)
    ht.wellFormed.consistent.under) (fun _ h' => h'.elim) hquiet) (fun _ h' => h') ?_
  rintro ⟨⟩ s1 ⟨⟨hcleared, hc1⟩, hquiet1⟩
  have hempty : contents s1.table = [] := by simp [contents, hcleared.iteration]
  have hequal : s1.table.keyEqual = t.keyEqual := hcleared.policy.keyEqual
  have hlaw1 : LawfulTable s1.table := hcleared.policy.lawfulTable.mpr ht.lawful
  refine (insertRange_means values (WellFormed.of_empty hc1 hcleared.iteration) hlaw1 hquiet1
    (by rwa [hempty, hequal])).mono (fun _ s2 h2 => ⟨h2.1, ?_⟩) (fun _ h' => h') fun _ h' => h'
  rw [h2.2, hempty, hequal]
  exact MapObject.ext rfl hequal hcleared.policy.allocator

theorem destroy_means (hw : Everywhere WellFormed w) (hi : w.table? i = some t) (ht : WellKept t)
    (hquiet : w.heap.fault = none) :
    Action.Post U (destroy i) w (fun _ w' => Depicts w' ((asMaps w).setMap i none))
      (fun _ => False) := by
  unfold destroy
  refine post_onTable_bind (fun t' ht' => ?_) fun hnone => absurd hnone (by rw [hi]; simp)
  cases hi.symm.trans ht'
  have hc := ht.wellFormed.consistent
  refine (destroyEverything_spec (s := ⟨t, w.heap⟩) hc.slots hc.filled hquiet).mono
    (fun _ s' _ => ⟨?_, ?_⟩) (fun _ h' => h') fun _ h' => h'
  · show asMaps ((withStore w i s').setTable i none) = _
    rw [asMaps_setTable, asMaps_withStore]
    unfold MapWorld.setMap
    simp only [List.set_set]
    rfl
  · have hothers : Others i WellFormed (withStore w i s') :=
      eachTable_withStore hi hw (fun h => absurd rfl h) fun _ _ _ h' _ => h'
    exact hothers.setTable_none

theorem swap_means (hne : i ≠ j) (hw : Everywhere WellFormed w) (hi : w.table? i = some t)
    (hj : w.table? j = some u) (hexchange : Exchangeable t u) :
    Action.Post U (swap i j) w (fun _ w' => Depicts w'
      (((asMaps w).setMap i (some (asMap u))).setMap j (some (asMap t)))) (fun _ => False) := by
  have hj' := (table?_withStore_of_ne hne ⟨u, w.heap⟩).trans hj
  refine post_swap hi hj hne (fun hnot => absurd hexchange hnot) fun _ => ⟨?_, ?_⟩
  · rw [asMaps_withStore, asMaps_withStore]
  · exact eachTable_withStore hj' (eachTable_withStore hi hw (hw j u hj) fun _ _ _ h' => h')
      (hw i t hi) fun _ _ _ h' => h'

/-! ## New tables -/

theorem construct_means (hash : τ.Key → UInt64) (equal : τ.Key → τ.Key → Bool)
    (alloc : τ.Alloc) (hn : n ≤ 2 ^ 63) (hw : Everywhere WellFormed w)
    (hquiet : w.heap.fault = none) :
    Action.Post U (construct n hash equal alloc) w
      (fun i w' => i = w.tables.length ∧ Depicts w' ((asMaps w).addMap ⟨[], equal, alloc⟩) ∧
        ∃ t, w'.table? i = some t ∧ WellFormed t ∧ contents t = [] ∧ t.keyEqual = equal ∧
          t.allocator = alloc ∧ t.hashFunction = hash ∧ w'.heap.fault = none) (fun _ => False) := by
  have hinit : WellFormed (Table.initial (kDefaultMaxLoadFactor τ.rounding) hash equal alloc :
    Table τ) := initial_wellFormed _ hash equal alloc
  unfold construct
  rw [post_newTable]
  have hw1 := eachTable_newTable hw hinit
  refine Action.Post.bind (Q := fun _ w' => Depicts w' ((asMaps w).addMap ⟨[], equal, alloc⟩) ∧
    ∃ t, w'.table? w.tables.length = some t ∧ WellFormed t ∧ contents t = [] ∧
      t.keyEqual = equal ∧ t.allocator = alloc ∧ t.hashFunction = hash ∧ w'.heap.fault = none)
    (Action.Post.cleanup (E := fun _ => False) ?_ fun _ h' => h'.elim) (fun _ h' => h')
    fun _ _ h' => ⟨rfl, h'⟩
  split
  · refine post_onTable (fun t' ht' => ?_) fun hnone => ?_
    · cases (table?_newTable w _).symm.trans ht'
      refine post_defined (fun c hc => ?_) fun hnone => ?_
      swap
      · rw [← roundUpToPowerOfTwo_isSome, hnone] at hn
        cases hn
      obtain ⟨k, hk, rfl⟩ := roundUpToPowerOfTwo_eq hc
      refine (post_silently (silent_rehashTo _) (rehashTo_consistent (s := ⟨_, w.heap⟩) hk
        hinit.consistent (room_of_empty rfl) (Nat.two_pow_pos k)) (fun _ h' => h'.fault)
        hquiet).mono ?_ (fun _ h' => h') fun _ h' => h'
      rintro ⟨⟩ s1 ⟨⟨hsame, hc1, -⟩, hquiet1⟩
      have hcontents : contents s1.table = [] := hsame.contents hinit.consistent
      have hformed : WellFormed s1.table := hinit.of_sameElements hsame hc1
      refine ⟨⟨?_, eachTable_withStore (table?_newTable w _) hw1 hformed fun _ _ _ h' => h'⟩,
        s1.table, table?_withStore_self (table?_newTable w _) s1, hformed, hcontents,
        hsame.policy.keyEqual, hsame.policy.allocator, hsame.policy.hashFunction, hquiet1⟩
      rw [asMaps_withStore, asMaps_newTable, show asMap s1.table = ⟨[], equal, alloc⟩ from
        MapObject.ext hcontents hsame.policy.keyEqual hsame.policy.allocator]
      rw [← length_maps_asMaps w]
      exact MapWorld.setMap_addMap _ _ _
    · rw [table?_newTable] at hnone
      cases hnone
  · exact ⟨⟨asMaps_newTable w _, hw1⟩, _, table?_newTable w _, hinit, rfl, rfl, rfl, rfl, hquiet⟩

theorem constructRange_means (values : List τ.Value) {hash : τ.Key → UInt64}
    {equal : τ.Key → τ.Key → Bool} (alloc : τ.Alloc) (hn : n ≤ 2 ^ 63)
    (hw : Everywhere WellFormed w) (hlaw : Lawful hash equal) (hquiet : w.heap.fault = none)
    (hroom : (enterEach equal values []).length + 2 ≤ 2 ^ 24) :
    Action.Post U (constructRange values n hash equal alloc) w
      (fun _ w' => Depicts w' ((asMaps w).addMap ⟨enterEach equal values [], equal, alloc⟩))
      (fun _ => False) := by
  unfold constructRange
  refine Action.Post.bind (construct_means hash equal alloc hn hw hquiet) (fun _ h' => h') ?_
  rintro i w1 ⟨rfl, ⟨hmaps, hall⟩, t, ht, hw1, hempty, hequal, halloc, hhash, hquiet1⟩
  have hlaw1 : LawfulTable t := by
    unfold LawfulTable
    rw [hhash, hequal]
    exact hlaw
  have hrange := insertRange_means (U := U) (s := ⟨t, w1.heap⟩) values hw1 hlaw1 hquiet1
    (by rwa [hempty, hequal])
  refine Action.Post.bind (Action.Post.cleanup (onTable_means hall ht hrange) fun _ h' => h'.elim)
    (fun _ h' => h') fun _ w2 h2 => ⟨?_, h2.wellFormed⟩
  rw [h2.maps, hmaps, ← length_maps_asMaps w, MapWorld.setMap_addMap, hempty, hequal]
  exact congrArg _ (MapObject.ext rfl hequal halloc)

/-! ## Merges -/

theorem merge_means (hne : i ≠ j) (hw : Everywhere WellFormed w) (hi : w.table? i = some t)
    (hj : w.table? j = some u) (ht : WellKept t) (hu : WellKept u) (hquiet : w.heap.fault = none)
    (hroom : (contents t ++ movedBy t u).length + 2 ≤ 2 ^ 24) :
    Action.Post U (mergeFrom i j) w (fun _ w' => Depicts w'
      (((asMaps w).setMap i (some { asMap t with entries := contents t ++ movedBy t u })).setMap j
        (some { asMap u with
          entries := removeEach τ.keyOf u.keyEqual (movedBy t u) (contents u) })))
      (fun _ => False) := by
  have hcu := hu.wellFormed.consistent
  rw [List.length_append, ht.wellFormed.consistent.length_contents] at hroom
  have hframed : Action.Post Stuck.anyhow (mergeFrom i j) w
      (fun _ => Framed w.tables.length w.handles (allocatorAt w)) (fun _ => True) :=
    ((yielding_framed _ _ _).mergeFrom.post (framed_self w)).mono (fun _ _ h' => h')
      (fun _ _ => trivial) fun _ h' => h'
  refine ((mergeFrom_absorbs (X := False) hne hi hj ht.wellFormed ht.lawful hu.wellFormed hu.lawful
    hu.room (Or.inr hquiet) hroom).and hframed).mono ?_ (fun _ h' => h'.1) fun _ h' => h'
  rintro ⟨⟩ w' ⟨⟨-, t', u', moved, hpair, habsorbs, hsub, herased, hu'⟩, hlen, hhandles, -⟩
  have hvalues : moved.filterMap (valueAt u) = movedBy t u := habsorbs.values
  have hcontents := herased.contents_each hcu hu.lawful (hu.wellFormed.distinct hu.lawful)
    (hsub.nodup hcu.slots.iteration_nodup) fun x hx => hsub.subset hx
  rw [hvalues] at hcontents
  have hleft : asMap t' = { asMap t with entries := contents t ++ movedBy t u } :=
    MapObject.ext (by rw [← hvalues]; exact habsorbs.contents) habsorbs.grown.policy.keyEqual
      habsorbs.grown.policy.allocator
  have hright : asMap u' = { asMap u with
      entries := removeEach τ.keyOf u.keyEqual (movedBy t u) (contents u) } :=
    MapObject.ext hcontents herased.policy.keyEqual herased.policy.allocator
  rw [← hleft, ← hright]
  exact ⟨asMaps_set_set hlen hhandles hpair.left hpair.right hpair.others,
    everywhere_set_set hw hpair.left hpair.right habsorbs.wellFormed hu' hpair.others⟩

/-! ## Nodes -/

variable {handle : Handle τ}

theorem bare_framed (n : ℕ) (a : ℕ → τ.Alloc) :
    Bare fun w : World τ => ∃ hs, Framed n hs a w where
  call i x hx w := fun ⟨hs, h⟩ => ⟨hs, (yielding_framed n hs a).call i x hx w h⟩
  heap _ _ _ h := h
  handles _ handles := fun ⟨_, h⟩ => ⟨handles, h.1, rfl, h.2.2⟩

/-- An empty node puts nothing in. -/
theorem insertHandle_empty (hinted : Bool) (hw : Everywhere WellFormed w)
    (hi : w.table? i = some t) (hh : w.handle? h = some handle) (hempty : handle.value = none) :
    Action.Post U (insertHandle hinted i h) w
      (fun _ w' => Depicts w' ((asMaps w).enterNode hinted i h (asMap t) none))
      (fun _ => False) := by
  have hheld : held handle = none := by
    unfold held
    rw [hempty]
    rfl
  unfold insertHandle
  refine post_readHandle (fun handle' hh' => ?_) fun hnone => absurd hnone (by rw [hh]; simp)
  cases hh.symm.trans hh'
  have hmoving : Action.Post U (movingHandle h (onTable i (insertNode handle))) w
      (fun r w1 => r = (⟨kNullIndex, false, Handle.default⟩, handle) ∧ Depicts w1 (asMaps w))
      (fun _ => False) := by
    have hrun : (onTable i (insertNode handle)).run
        { w with heap := { w.heap with moved := false } } =
        (.ok (⟨kNullIndex, false, Handle.default⟩, handle),
          { w with heap := { w.heap with moved := false } }) := by
      have hi' : ({ w with heap := { w.heap with moved := false } } : World τ).table? i = some t :=
        hi
      rw [run_onTable hi']
      unfold insertNode
      rw [hempty]
      exact Prod.ext rfl (withStore_self hi')
    refine Action.Post.of_run_ok (a := (⟨kNullIndex, false, Handle.default⟩, handle))
      (r := { w with heap := { w.heap with moved := false } }) ?_ ⟨rfl, rfl, hw⟩
    simp only [movingHandle, hrun]
    rfl
  refine Action.Post.bind hmoving (fun _ h' => h') ?_
  rintro r w1 ⟨rfl, hmaps, hw1⟩
  have hset : asMaps (w1.setHandle h (some handle)) = (asMaps w).setNode h (some none) := by
    rw [asMaps_setHandle, hmaps, Option.map_some, hheld]
  cases hinted with
  | true => exact ⟨hset, hw1⟩
  | false =>
      refine ⟨?_, hw1⟩
      show asMaps { w1.setHandle h (some handle) with
        handles := (w1.setHandle h (some handle)).handles ++ [some Handle.default] } = _
      rw [asMaps_newHandle, hset]
      rfl

/-- A node puts its value in, if its key is new. -/
theorem insertHandle_full (hinted : Bool) {cell : Cell τ} (hw : Everywhere WellFormed w)
    (hi : w.table? i = some t) (ht : WellKept t) (hh : w.handle? h = some handle)
    (hcell : handle.value = some cell) (hquiet : w.heap.fault = none) :
    Action.Post U (insertHandle hinted i h) w (fun _ w' => Depicts w'
      ((asMaps w).enterNode hinted i h (asMap t) (some cell.element.value))) (fun _ => False) := by
  have hlens : Action.Post Stuck.anyhow (insertHandle hinted i h) w
      (fun _ w' => ∃ hs, Framed w.tables.length hs (allocatorAt w) w') (fun _ => True) :=
    ((bare_framed _ _).insertHandle.post ⟨_, framed_self w⟩).mono (fun _ _ h' => h')
      (fun _ _ => trivial) fun _ h' => h'
  refine ((insertHandle_spec hinted hi hcell hh ht.wellFormed.consistent ht.room).and
    hlens).mono ?_ (fun _ h' => h'.1 hquiet) fun _ h' => h'
  rintro r w' ⟨⟨t', node, hins⟩, hs, hlen, -⟩
  obtain ⟨hcontents, hflag⟩ := hins.entered.contents ht.wellFormed.consistent ht.lawful
  have hpolicy := (hins.entered.grown ht.wellFormed.consistent).policy
  have hmap : asMap t' = { asMap t with
      entries := enter τ.keyOf t.keyEqual cell.element.value (contents t) } :=
    MapObject.ext hcontents hpolicy.keyEqual hpolicy.allocator
  have hmaps := maps_set hlen hins.table hins.others
  rw [hmap] at hmaps
  have hnode : held node = if present τ.keyOf t.keyEqual (τ.keyOf cell.element.value) (contents t)
      then some cell.element.value else none := by
    have hpassed := hins.passed
    cases hp : present τ.keyOf t.keyEqual (τ.keyOf cell.element.value) (contents t) with
    | true =>
        rw [hflag, hp] at hpassed
        rw [hpassed.1, if_pos rfl]
        unfold held
        rw [hcell]
        rfl
    | false =>
        rw [hflag, hp] at hpassed
        have heq : node = Handle.default := hpassed
        rw [heq, if_neg Bool.false_ne_true]
        rfl
  have hnodes : (asMaps w').nodes = (asMaps w).nodes.set h (some none) ++
      if hinted then [] else [some (held node)] := by
    show w'.handles.map (Option.map held) = _
    rw [hins.handles, List.map_append, List.map_set]
    cases hinted <;> rfl
  rw [hnode] at hnodes
  refine ⟨?_, everywhere_set hw hins.table
    (ht.wellFormed.of_entered hins.entered hins.consistent) hins.others⟩
  cases hinted with
  | true => exact MapWorld.ext hmaps (hnodes.trans (List.append_nil _))
  | false => exact MapWorld.ext hmaps hnodes

theorem insertHandle_means (hinted : Bool) (hw : Everywhere WellFormed w)
    (hi : w.table? i = some t) (ht : WellKept t) (hh : w.handle? h = some handle)
    (hquiet : w.heap.fault = none) :
    Action.Post U (insertHandle hinted i h) w (fun _ w' => Depicts w'
      ((asMaps w).enterNode hinted i h (asMap t) (held handle))) (fun _ => False) := by
  cases hcell : handle.value with
  | none =>
      have hheld : held handle = none := by simp [held, hcell]
      rw [hheld]
      exact insertHandle_empty hinted hw hi hh hcell
  | some cell =>
      have hheld : held handle = some cell.element.value := by simp [held, hcell]
      rw [hheld]
      exact insertHandle_full hinted hw hi ht hh hcell hquiet

/-! ## Statements -/

theorem table_means {op : Op τ} {r : List τ.Value × Option (Option τ.Value)}
    (hw : Everywhere WellFormed w) (hi : w.table? i = some t) (ht : WellKept t)
    (hquiet : w.heap.fault = none) (hr : Op.dense t.keyEqual (contents t) op = some r)
    (hmodest : Modest op) (hsizable : SizableIn t op) (hroom : r.1.length + 2 ≤ 2 ^ 24) :
    Action.Post U (WorldOp.table i (Op.located t op)).exec w (fun _ w' => Depicts w'
      (r.2.elim ((asMaps w).setMap i (some { asMap t with entries := r.1 }))
        ((asMaps w).setMap i (some { asMap t with entries := r.1 })).addNode))
      (fun _ => False) := by
  refine post_onTable_bind (fun t' ht' => ?_) fun hnone => absurd hnone (by rw [hi]; simp)
  cases hi.symm.trans ht'
  refine (Op.exec_means (s := ⟨t, w.heap⟩) op ht hquiet hr hmodest hsizable hroom).mono ?_
    (fun _ h' => h') fun _ h' => h'
  rintro reply s' ⟨h', hnode, hmap⟩
  have hmaps : asMaps (withStore w i s') =
      (asMaps w).setMap i (some { asMap t with entries := r.1 }) := by
    rw [asMaps_withStore, hmap]
  have hw' : Everywhere WellFormed (withStore w i s') :=
    eachTable_withStore hi hw h'.wellFormed fun _ _ _ h'' => h''
  rw [← hnode]
  cases reply with
  | node handle =>
      refine ⟨?_, hw'⟩
      show asMaps { withStore w i s' with
        handles := (withStore w i s').handles ++ [some handle] } = _
      rw [asMaps_newHandle, hmaps]
      rfl
  | none | inserted it flag | erased n | iterator it => exact ⟨hmaps, hw'⟩

/-- A statement whose arguments designate objects does what it means, and neither throws nor
gets stuck. -/
theorem WorldOp.exec_means (op : WorldOp τ) {m : MapWorld τ} (hw : Everywhere WellKept w)
    (hquiet : w.heap.fault = none) (hafter : (asMaps w).after op = some m) (hroom : m.Roomy)
    (hlaw : LawfulFunctors op) (hfactor : FactorAtMostOne op) (hsizable : Sizable w op)
    (hhands : HandsOver w op) :
    Action.Post U (WorldOp.located w op).exec w (fun _ w' => Depicts w' m) (fun _ => False) := by
  have hf : Everywhere WellFormed w := fun k t ht => (hw k t ht).wellFormed
  have hignoring : ∀ {β : Type} {x : Action (World τ) β} {Q : World τ → Prop},
      Action.Post U x w (fun _ => Q) (fun _ => False) →
      Action.Post U (ignoring x) w (fun _ => Q) (fun _ => False) := fun hx =>
    Action.Post.bind hx (fun _ h' => h') fun _ _ h' => h'
  have hsecond : ∀ {β : Type} {x : Action (World τ) β} {P : β → Prop} {Q : β → World τ → Prop},
      Action.Post U x w (fun b w' => P b ∧ Q b w') (fun _ => False) →
      Action.Post U x w Q (fun _ => False) := fun hx =>
    hx.mono (fun _ _ h' => h'.2) (fun _ h' => h') fun _ h' => h'
  cases op with
  | construct n hash equal alloc =>
      cases hafter
      exact hignoring ((construct_means hash equal alloc hsizable hf hquiet).mono
        (fun _ _ h' => h'.2.1) (fun _ h' => h') fun _ h' => h')
  | constructRange values n hash equal alloc =>
      cases hafter
      refine hignoring (constructRange_means values alloc hsizable hf hlaw hquiet ?_)
      exact hroom.length (i := (asMaps w).maps.length)
        ((MapWorld.map?_addMap _ _).trans (if_pos rfl))
  | copyConstruct j =>
      obtain ⟨u, hu, hm⟩ := onMap_asMaps hafter
      cases hm
      refine hignoring (post_readTable (fun other hother => ?_)
        fun hnone => absurd hnone (by rw [hu]; simp))
      cases hu.symm.trans hother
      exact hsecond (copyConstructWith_means _ hf hu (hw j u hu) (hsizable u hu) hquiet)
  | copyConstructWith j alloc =>
      obtain ⟨u, hu, hm⟩ := onMap_asMaps hafter
      cases hm
      exact hignoring (hsecond (copyConstructWith_means alloc hf hu (hw j u hu) (hsizable u hu)
        hquiet))
  | moveConstruct j =>
      obtain ⟨u, hu, hm⟩ := onMap_asMaps hafter
      cases hm
      exact hignoring (hsecond (moveConstruct_means hf hu (hw j u hu)))
  | moveConstructWith j alloc =>
      obtain ⟨u, hu, hm⟩ := onMap_asMaps hafter
      cases hm
      exact hignoring (hsecond (moveConstructWith_means alloc hf hu (hw j u hu) (hhands u hu)
        (hsizable u hu) hquiet))
  | destroy i =>
      obtain ⟨t, ht, hm⟩ := onMap_asMaps hafter
      cases hm
      exact destroy_means hf ht (hw i t ht) hquiet
  | copyAssign i j =>
      obtain ⟨t, u, ht, hu, hm⟩ := onMaps_asMaps hafter
      split at hm
      · next heq =>
          cases hm
          show Action.Post U (copyAssign i j) w _ _
          unfold copyAssign
          rw [if_pos heq]
          exact ⟨rfl, hf⟩
      · next hne =>
          cases hm
          exact copyAssign_means hne hf ht hu (hw i t ht) (hw j u hu) (hsizable hne u hu) hquiet
  | moveAssign i j =>
      obtain ⟨t, u, ht, hu, hm⟩ := onMaps_asMaps hafter
      split at hm
      · next heq =>
          cases hm
          show Action.Post U (moveAssign i j) w _ _
          unfold moveAssign
          rw [if_pos heq]
          exact ⟨rfl, hf⟩
      · next hne =>
          cases hm
          exact moveAssign_means hne hf ht hu (hw i t ht) (hw j u hu) (hhands hne t ht u hu)
            (hsizable hne t ht u hu) hquiet
  | assignValues i values =>
      obtain ⟨t, ht, hm⟩ := onMap_asMaps hafter
      cases hm
      refine assignValues_means values hf ht (hw i t ht) hquiet ?_
      refine hroom.length (i := i) ((MapWorld.map?_setMap _ _ ?_).trans (if_pos rfl))
      rw [length_maps_asMaps]
      exact lt_of_join_eq_some ht
  | swap i j =>
      obtain ⟨t, u, ht, hu, hm⟩ := onMaps_asMaps hafter
      split at hm
      · next heq =>
          cases hm
          show Action.Post U (swap i j) w _ _
          unfold swap
          rw [if_pos heq]
          exact ⟨rfl, hf⟩
      · next hne =>
          obtain ⟨halloc, hm⟩ := Option.ite_none_right_eq_some.mp hm
          cases hm
          exact swap_means hne hf ht hu (hhands hne t ht u hu)
  | merge i j =>
      obtain ⟨t, u, ht, hu, hm⟩ := onMaps_asMaps hafter
      split at hm
      · next heq =>
          cases hm
          subst heq
          cases ht.symm.trans hu
          refine (mergeFrom_self (X := False) ht (hw i t ht).wellFormed (hw i t ht).room
            (hw i t ht).lawful (Or.inr hquiet)).mono ?_ (fun _ h' => h'.2) fun _ h' => h'
          rintro ⟨⟩ w' ⟨heq, -⟩
          rw [heq]
          exact ⟨rfl, hf⟩
      · next hne =>
          cases hm
          refine merge_means hne hf ht hu (hw i t ht) (hw j u hu) hquiet ?_
          have hlti : i < (asMaps w).maps.length := by
            rw [length_maps_asMaps]
            exact lt_of_join_eq_some ht
          have hltj : j < (asMaps w).maps.length := by
            rw [length_maps_asMaps]
            exact lt_of_join_eq_some hu
          refine hroom.length (i := i) (o := { asMap t with entries := contents t ++ movedBy t u })
            ?_
          rw [MapWorld.map?_setMap _ _ (by rwa [MapWorld.length_setMap]), if_neg hne,
            MapWorld.map?_setMap _ _ hlti, if_pos rfl]
          rfl
  | table i op =>
      obtain ⟨t, ht, hm⟩ := onMap_asMaps hafter
      obtain ⟨r, hr, hm⟩ := Option.map_eq_some_iff.mp hm
      have hlocated : WorldOp.located w (.table i op) = .table i (Op.located t op) := by
        show WorldOp.table i ((w.table? i).elim op fun t => Op.located t op) = _
        rw [ht]
        rfl
      rw [hlocated, ← hm]
      refine table_means hf ht (hw i t ht) hquiet hr ?_ (hsizable t ht) ?_
      · cases op <;> exact hfactor
      · have hlt : i < (asMaps w).maps.length := by
          rw [length_maps_asMaps]
          exact lt_of_join_eq_some ht
        rw [← hm] at hroom
        rcases r with ⟨l, _ | o⟩
        · exact hroom.length ((MapWorld.map?_setMap _ _ hlt).trans (if_pos rfl))
        · exact MapWorld.Roomy.length
            (m := (asMaps w).setMap i (some { asMap t with entries := l })) hroom
            ((MapWorld.map?_setMap _ _ hlt).trans (if_pos rfl))
  | insertHandle hinted i h =>
      obtain ⟨t, ht, hm⟩ := onMap_asMaps hafter
      obtain ⟨o, ho, rfl⟩ := Option.map_eq_some_iff.mp hm
      obtain ⟨handle, hh, rfl⟩ := node_asMaps ho
      exact hignoring (insertHandle_means hinted hf ht (hw i t ht) hh hquiet)
  | handleDefault =>
      cases hafter
      exact hignoring ⟨asMaps_newHandle w Handle.default, hf⟩
  | handleMove h =>
      obtain ⟨o, ho, rfl⟩ := Option.map_eq_some_iff.mp hafter
      obtain ⟨handle, hh, rfl⟩ := node_asMaps ho
      refine hignoring (post_readHandle (fun other hother => ?_)
        fun hnone => absurd hnone (by rw [hh]; simp))
      cases hh.symm.trans hother
      rw [post_newHandle]
      refine ⟨?_, hf⟩
      show asMaps (World.setHandle { w with handles := w.handles ++ [some handle] } h _) = _
      rw [asMaps_setHandle, asMaps_newHandle, MapWorld.setNode_addNode (lt_of_join_eq_some ho)]
      rfl
  | handleAssign h k =>
      obtain ⟨o, ho, hm⟩ := Option.bind_eq_some_iff.mp hafter
      obtain ⟨o', ho', rfl⟩ := Option.map_eq_some_iff.mp hm
      obtain ⟨handle, hh, rfl⟩ := node_asMaps ho
      obtain ⟨handle', hh', rfl⟩ := node_asMaps ho'
      show Action.Post U (handleAssign h k) w _ _
      unfold handleAssign
      split
      · exact ⟨rfl, hf⟩
      · refine post_readHandle (fun h1 hh1 => ?_) fun hnone => absurd hnone (by rw [hh]; simp)
        refine post_readHandle (fun h2 hh2 => ?_) fun hnone => absurd hnone (by rw [hh']; simp)
        cases hh'.symm.trans hh2
        refine ⟨?_, hf⟩
        show asMaps (World.setHandle (World.setHandle { w with heap := _ } h _) k _) = _
        rw [asMaps_setHandle, asMaps_setHandle]
        rfl
  | handleSwap h k =>
      obtain ⟨o, ho, hm⟩ := Option.bind_eq_some_iff.mp hafter
      obtain ⟨o', ho', rfl⟩ := Option.map_eq_some_iff.mp hm
      obtain ⟨handle, hh, rfl⟩ := node_asMaps ho
      obtain ⟨handle', hh', rfl⟩ := node_asMaps ho'
      refine post_readHandle (fun h1 hh1 => ?_) fun hnone => absurd hnone (by rw [hh]; simp)
      refine post_readHandle (fun h2 hh2 => ?_) fun hnone => absurd hnone (by rw [hh']; simp)
      cases hh.symm.trans hh1
      cases hh'.symm.trans hh2
      refine ⟨?_, hf⟩
      show asMaps (World.setHandle (World.setHandle w h _) k _) = _
      rw [asMaps_setHandle, asMaps_setHandle]
      rfl
  | handleDestroy h =>
      obtain ⟨o, ho, rfl⟩ := Option.map_eq_some_iff.mp hafter
      obtain ⟨handle, hh, rfl⟩ := node_asMaps ho
      refine post_readHandle (fun h1 hh1 => ?_) fun hnone => absurd hnone (by rw [hh]; simp)
      refine ⟨?_, hf⟩
      show asMaps (World.setHandle { w with heap := _ } h none) = _
      rw [asMaps_setHandle]
      rfl

end Fum.Interface

import Fum.Analysis.Addresses
import Fum.Analysis.Extraction
import Fum.Interface.EraseIf
import Fum.Interface.NodeInsertion
import Fum.Model.Observers

/-!
# Renaming an element

`extract`, a write to the key of the node, and the insertion of the node: the map has the
element under its new key, unless that key is taken, and everything else stays in place.
-/

set_option autoImplicit false

namespace Fum.Interface

open Fum.Model Fum.Analysis Effects DenseMap

variable {τ : Traits} {w w' : World τ} {i h x : ℕ} {t t' t1 : Table τ} {key : τ.Key}
  {v : τ.Value}

/-! ## Mappings -/

/-- The keys of a table with what they are mapped to. -/
def mapping (t : Table τ) : Multiset (τ.Key × τ.Mapped) :=
  ((contents t).map fun v => (τ.keyOf v, τ.mappedOf v) : List (τ.Key × τ.Mapped))

/-- Every element but the one in `x` stays in its node and at its address. -/
def KeepsOthers (t : Table τ) (x : ℕ) (t' : Table τ) : Prop :=
  ∀ y ∈ t.iteration, y ≠ x →
    y ∈ t'.iteration ∧ valueAt t' y = valueAt t y ∧ addressOf t' y = addressOf t y

theorem mapping_of_inserted (hi : Inserted t v x t') (hc : Consistent t) :
    mapping t' = (τ.keyOf v, τ.mappedOf v) ::ₘ mapping t := by
  unfold mapping
  rw [hi.contents hc, List.map_append, List.map_singleton, ← Multiset.coe_add,
    Multiset.coe_singleton, add_comm, Multiset.singleton_add]

theorem mapping_of_erased (he : Erased t [x] t') (hc : Consistent t) (hx : x ∈ t.iteration)
    (hv : valueAt t x = some v) :
    mapping t = (τ.keyOf v, τ.mappedOf v) ::ₘ mapping t' := by
  obtain ⟨p, hp⟩ := List.mem_iff_getElem?.mp hx
  have hentry := hc.getElem?_contents hp hv
  obtain ⟨hlt, hget⟩ := List.getElem?_eq_some_iff.mp hentry
  have hperm := SwapRemove.swapRemove_perm hlt
  rw [hget, ← he.contents hc hp] at hperm
  unfold mapping
  rw [← Multiset.coe_eq_coe.mpr (hperm.map _), List.map_append, List.map_singleton,
    ← Multiset.coe_add, Multiset.coe_singleton, add_comm, Multiset.singleton_add]

theorem keepsOthers_of_erased (he : Erased t [x] t') (hnodup : t.iteration.Nodup) :
    KeepsOthers t x t' := by
  intro y hy hne
  have hnot : y ∉ [x] := by simpa using hne
  exact ⟨(he.mem_iff hnodup y).mpr ⟨hy, hnot⟩, valueAt_congr (he.others y hnot),
    addressOf_congr he.chunks⟩

/-- What stays in place while an element is taken out stays there when one is entered. -/
theorem KeepsOthers.insert {y : ℕ} (hk : KeepsOthers t x t1) (hi : Inserted t1 v y t')
    (hc : Consistent t) (hc1 : Consistent t1) : KeepsOthers t x t' := by
  intro z hz hne
  obtain ⟨hlisted, hvalue, haddress⟩ := hk z hz hne
  have hzy : z ≠ y := hi.ne_of_listed hc1 hlisted
  obtain ⟨p, hp⟩ := Option.isSome_iff_exists.mp (addressOf_isSome (hc.live hz))
  refine ⟨?_, (valueAt_congr (hi.others z hzy)).trans hvalue, ?_⟩
  · rw [hi.iteration]
    exact List.mem_append_left _ hlisted
  · rw [hp] at haddress ⊢
    exact addressOf_prefix hi.chunks haddress

/-! ## The two halves -/

/-- `auto node = table.extract(key)`. -/
def extractInto (i : ℕ) (key : τ.Key) : Action (World τ) ℕ := do
  let handle ← onTable i (extractKey key)
  newHandle handle

/-- `node.key() = key; table.insert(std::move(node))`. -/
def insertRenamed (i h : ℕ) (key : τ.Key) : Action (World τ) (ℕ × Bool) := do
  writeKey h key
  insertHandle false i h

/-- The element `v` in `x` has been taken out of the table. -/
structure TakenOut (t : Table τ) (key : τ.Key) (x : ℕ) (v : τ.Value) (t1 : Table τ) : Prop where
  listed : x ∈ t.iteration
  value : valueAt t x = some v
  same_key : t.keyEqual key (τ.keyOf v) = true
  mapping : mapping t = (τ.keyOf v, τ.mappedOf v) ::ₘ mapping t1
  absent : present τ.keyOf t1.keyEqual key (contents t1) = false
  kept : KeepsOthers t x t1
  keyEqual : t1.keyEqual = t.keyEqual

theorem takenOut_of_erased (hw : WellFormed t) (hlaw : LawfulTable t) (hx : x ∈ t.iteration)
    (hv : valueAt t x = some v) (hm : t.keyEqual key (τ.keyOf v) = true)
    (he : Erased t [x] t1) : TakenOut t key x v t1 where
  listed := hx
  value := hv
  same_key := hm
  mapping := mapping_of_erased he hw.consistent hx hv
  absent := by
    rw [← Bool.not_eq_true, present_contents_iff]
    rintro ⟨y, hy, e, hey, hequal⟩
    obtain ⟨hyt, hyx⟩ := (he.mem_iff hw.consistent.slots.iteration_nodup y).mp hy
    rw [he.others y hyx] at hey
    rw [he.policy.keyEqual] at hequal
    have hsame := (hw.distinct hlaw).unique hlaw hyt hx ⟨e, hey, hequal⟩
      (matches_iff_valueAt.mpr ⟨v, hv, hm⟩)
    exact hyx (List.mem_singleton.mpr hsame)
  kept := keepsOthers_of_erased he hw.consistent.slots.iteration_nodup
  keyEqual := he.policy.keyEqual

/-- What the insertion of the renamed node into `t1` has done: it has entered the element under
the key `key2` and emptied the handles, or refused it and returned the node. `node` is the
handle object that was returned. -/
structure PutBack (key2 : τ.Key) (m : τ.Mapped) (t1 : Table τ) (h node : ℕ) (w : World τ)
    (t' : Table τ) (r : ℕ × Bool) : Prop where
  listed : r.1 ∈ t'.iteration
  flag : r.2 = !present τ.keyOf t1.keyEqual key2 (contents t1)
  argument : (w.handle? h).bind Handle.value = none
  entered : r.2 = true → mapping t' = (key2, m) ::ₘ mapping t1 ∧
    (valueAt t' r.1).map (fun v => (τ.keyOf v, τ.mappedOf v)) = some (key2, m) ∧
    (w.handle? node).bind Handle.value = none
  refused : r.2 = false → t' = t1 ∧
    (∃ v, valueAt t' r.1 = some v ∧ t1.keyEqual key2 (τ.keyOf v) = true) ∧
    ((w.handle? node).bind Handle.value).map
      (fun cell => (τ.keyOf cell.element.value, τ.mappedOf cell.element.value)) = some (key2, m)

theorem writeKey_run {handle : Handle τ} {cell : Cell τ} (hh : w.handle? h = some handle)
    (hcell : handle.value = some cell) (key : τ.Key) :
    (writeKey h key).run w = (.ok (), w.setHandle h (some (handle.setKey key))) := by
  have hread : (readHandle h).run w = (.ok handle, w) := by simp only [readHandle, hh]
  unfold writeKey
  rw [Action.run_bind_ok _ hread, hcell]
  rfl

/-- The renamed node is entered into a table without its key, and returned from one with it. -/
theorem insertRenamed_spec {handle : Handle τ} {cell : Cell τ} (key2 : τ.Key)
    (ht : w.table? i = some t1) (hh : w.handle? h = some handle)
    (hcell : handle.value = some cell) (hc : Consistent t1) (hroom : Room t1)
    (hlaw : LawfulTable t1) (hquiet : w.heap.fault = none) :
    ∃ r w' t', (insertRenamed i h key2).run w = (.ok r, w') ∧ w'.table? i = some t' ∧
      PutBack key2 (τ.mappedOf cell.element.value) t1 h w.handles.length w' t' r ∧
      ∀ t x, Consistent t → KeepsOthers t x t1 → KeepsOthers t x t' := by
  obtain ⟨renamed, hrenamed⟩ : ∃ c, (handle.setKey key2).value = some c := by
    simp [Handle.setKey, hcell]
  have hvalue : renamed.element.value = τ.makeValue key2 (τ.mappedOf cell.element.value) := by
    simp only [Handle.setKey, hcell, Option.map_some, Option.some.injEq] at hrenamed
    rw [← hrenamed]
  have hkey : τ.keyOf renamed.element.value = key2 := by rw [hvalue, τ.keyOf_makeValue]
  have hmapped : τ.mappedOf renamed.element.value = τ.mappedOf cell.element.value := by
    rw [hvalue, τ.mappedOf_makeValue]
  have hh1 : (w.setHandle h (some (handle.setKey key2))).handle? h = some (handle.setKey key2) :=
    handle?_setHandle_self hh
  have ht1 : (w.setHandle h (some (handle.setKey key2))).table? i = some t1 := ht
  have hpost : Action.Post Stuck.never
      (insertHandle false i h) (w.setHandle h (some (handle.setKey key2)))
      (fun r w' => ∃ t' node, NodeInserted false (w.setHandle h (some (handle.setKey key2))) i h t1
        (handle.setKey key2) renamed r w' t' node) (fun _ => False) :=
    (insertHandle_spec false ht1 hrenamed hh1 hc hroom).mono (fun _ _ h' => h')
      (fun _ h' => h' hquiet) fun _ h' => h'
  obtain ⟨r, w', hrun, t', node, hi⟩ := hpost.returns
  have hcall : (insertRenamed i h key2).run w = (.ok r, w') := by
    unfold insertRenamed
    rw [Action.run_bind_ok _ (writeKey_run hh hcell key2), hrun]
  have hlen : (w.setHandle h (some (handle.setKey key2))).handles.length = w.handles.length :=
    List.length_set
  have hreturned : w'.handle? w.handles.length = some node := by
    unfold World.handle?
    rw [hi.handles]
    simp [hlen]
  have hargument : (w'.handle? h).bind Handle.value = none := by rw [hi.emptied hh1]; rfl
  have hentered := hi.entered
  have hpassed := hi.passed
  rw [hkey] at hentered
  refine ⟨r, w', t', hcall, hi.table, ?_, ?_⟩
  · rcases hentered with ⟨hflag, habsent, hins⟩ | ⟨hflag, hlisted, hm, -⟩
    · rw [hflag] at hpassed
      refine ⟨?_, ?_, hargument, fun _ => ⟨?_, ?_, ?_⟩, fun hfalse => ?_⟩
      · rw [hins.iteration]
        exact List.mem_append_right _ (List.mem_singleton_self _)
      · rw [hflag, habsent.present_eq_false hlaw]
        rfl
      · rw [mapping_of_inserted hins hc, hkey, hmapped]
      · rw [hins.valueAt_new, Option.map_some, hkey, hmapped]
      · rw [if_pos rfl] at hpassed
        rw [hreturned, hpassed]
        rfl
      · rw [hflag] at hfalse
        cases hfalse
    · rw [hflag] at hpassed
      obtain ⟨hnode, rfl⟩ := hpassed
      refine ⟨hlisted, ?_, hargument, fun htrue => ?_, fun _ => ⟨rfl, ?_, ?_⟩⟩
      · rw [hflag, present_of_matches hlisted hm]
        rfl
      · rw [hflag] at htrue
        cases htrue
      · exact matches_iff_valueAt.mp hm
      · rw [hreturned, hnode, Option.bind_some, hrenamed, Option.map_some, hkey, hmapped]
  · intro t x hct hkept
    rcases hentered with ⟨-, -, hins⟩ | ⟨hflag, -⟩
    · exact hkept.insert hins hct hc
    · rw [hflag] at hpassed
      rw [hpassed.2]
      exact hkept

theorem extractInto_spec (hw : WellFormed t) (hroom : Room t) (hlaw : LawfulTable t)
    (ht : w.table? i = some t) (hquiet : w.heap.fault = none) (hx : x ∈ t.iteration)
    (hv : valueAt t x = some v) (hm : t.keyEqual key (τ.keyOf v) = true) :
    ∃ w1 t1 handle cell, (extractInto i key).run w = (.ok w.handles.length, w1) ∧
      w1.table? i = some t1 ∧ w1.handle? w.handles.length = some handle ∧
      handle.value = some cell ∧ cell.element.value = v ∧ TakenOut t key x v t1 ∧
      Consistent t1 ∧ Room t1 ∧ LawfulTable t1 ∧ w1.heap.fault = none ∧
      w1.handles.length = w.handles.length + 1 := by
  have hcall : Extracts t x (extractKey key) :=
    Or.inr ⟨key, matches_iff_valueAt.mpr ⟨v, hv, hm⟩, rfl⟩
  have hpost : Action.Post Stuck.never (extractKey key) ⟨t, w.heap⟩
      (fun handle s' => Consistent s'.table ∧ Erased t [x] s'.table ∧ Owns t x handle ∧
        s'.table.freeListHead = x ∧ faultPoint s'.heap.fault = faultPoint w.heap.fault)
      (fun _ => False) := by
    refine (extracts_spec (s := ⟨t, w.heap⟩) hw hroom hlaw hx hcall).mono (fun _ _ h' => h') ?_
      fun _ h' => h'
    intro s' hthrown
    have hfault : ThrownBy ⟨t, w.heap⟩ s' (.extractKey key) := hthrown
    exact hfault.fault hquiet
  obtain ⟨handle, s1, hrun, hc1, herased, ⟨e, cell, he, hcell, hvalue⟩, -, hpoint⟩ := hpost.returns
  have hcalled : (onTable i (extractKey key)).run w = (.ok handle, withStore w i s1) := by
    rw [run_onTable ht, hrun]
  refine ⟨{ withStore w i s1 with handles := w.handles ++ [some handle] }, s1.table, handle, cell,
    ?_, table?_withStore_self ht s1, ?_, hcell, ?_, takenOut_of_erased hw hlaw hx hv hm herased,
    hc1, herased.room hroom, ?_, ?_, ?_⟩
  · unfold extractInto
    rw [Action.run_bind_ok _ hcalled]
    rfl
  · simp [World.handle?]
  · rw [valueAt_of_storage he] at hv
    exact hvalue.trans (Option.some_inj.mp hv)
  · exact herased.policy.lawfulTable.mpr hlaw
  · have hfault : faultPoint s1.heap.fault = none := by rw [hpoint, hquiet]; rfl
    exact Option.map_eq_none_iff.mp hfault
  · simp

/-- For every map that a program can reach and every key in it: `extract` takes exactly the
element with the key into the handle; the renamed node is entered unless its new key is taken,
and then the map is the old one with the key renamed; otherwise the map stays as it is without
the element, which the returned node has. All other elements stay in place. -/
theorem node_round_trip (hreach : Reachable t) (ht : w.table? i = some t)
    (hquiet : w.heap.fault = none)
    (hkey : present τ.keyOf t.keyEqual key (contents t) = true) (key2 : τ.Key) :
    ∃ x v h w1 t1 r w' t', (extractInto i key).run w = (.ok h, w1) ∧ w1.table? i = some t1 ∧
      TakenOut t key x v t1 ∧
      ((w1.handle? h).bind Handle.value).map (fun cell => cell.element.value) = some v ∧
      (insertRenamed i h key2).run w1 = (.ok r, w') ∧ w'.table? i = some t' ∧
      PutBack key2 (τ.mappedOf v) t1 h w1.handles.length w' t' r ∧ KeepsOthers t x t' ∧
      (τ.keyOf v = key2 → mapping t' = mapping t) ∧
      (t.keyEqual key key2 = true → r.2 = true ∧
        Multiset.Rel (fun p q => t.keyEqual p.1 q.1 = true ∧ p.2 = q.2) (mapping t')
          (mapping t)) := by
  obtain ⟨hw, hroom⟩ := hreach.sturdy
  have hlaw := hreach.lawful
  obtain ⟨x, hx, hm⟩ := present_contents_iff.mp hkey
  obtain ⟨v, hv, hequal⟩ := matches_iff_valueAt.mp hm
  obtain ⟨w1, t1, handle, cell, hextract, ht1, hh, hcell, rfl, htaken, hc1, hroom1, hlaw1, hquiet1,
    -⟩ := extractInto_spec hw hroom hlaw ht hquiet hx hv hequal
  obtain ⟨r, w', t', hinsert, ht', hback, hkept⟩ :=
    insertRenamed_spec key2 ht1 hh hcell hc1 hroom1 hlaw1 hquiet1
  have hsame : t.keyEqual key key2 = true → r.2 = true := by
    intro hkeys
    have hfree : present τ.keyOf t1.keyEqual key2 (contents t1) = false := by
      refine present_eq_false.mpr fun u hu => ?_
      have habsent := present_eq_false.mp htaken.absent u hu
      rw [htaken.keyEqual] at habsent ⊢
      by_contra htrue
      rw [hlaw.trans _ _ _ hkeys (Bool.not_eq_false _ ▸ htrue)] at habsent
      cases habsent
    rw [hback.flag, hfree]
    rfl
  refine ⟨x, cell.element.value, _, w1, t1, r, w', t', hextract, ht1, htaken, ?_, hinsert, ht',
    hback, hkept t x hw.consistent htaken.kept, fun hrenamed => ?_, fun hkeys => ⟨hsame hkeys, ?_⟩⟩
  · rw [hh, Option.bind_some, hcell]
    rfl
  · have hflag : r.2 = true := hsame (by rw [← hrenamed]; exact hequal)
    rw [(hback.entered hflag).1, htaken.mapping, hrenamed]
  · rw [(hback.entered (hsame hkeys)).1, htaken.mapping]
    exact Multiset.Rel.cons ⟨hlaw.trans _ _ _ (hlaw.symm _ _ hkeys) hequal, rfl⟩
      (Multiset.rel_refl_of_refl_on fun p _ => ⟨hlaw.refl p.1, rfl⟩)

/-- The element (2, 20) of the map with five elements gets another key. -/
def renameTwo (key2 : ℕ) : Action (World NatMap) (ℕ × Bool) :=
  extractInto 0 (2 : ℕ) >>= fun h => insertRenamed 0 h key2

/-- What `renameTwo` answers and leaves. -/
def RenamesTwo (key2 : ℕ) (flag : Bool) : Prop :=
  ∃ x v h, ∃ w1 : World NatMap, ∃ t1 r w' t',
    (renameTwo key2).run (finish World.empty fiveSteps) = (.ok r, w') ∧
    w'.table? 0 = some t' ∧ r.2 = flag ∧
    TakenOut (((finish World.empty fiveSteps).table? 0).get five_made) (2 : ℕ) x v t1 ∧
    PutBack key2 (NatMap.mappedOf v) t1 h w1.handles.length w' t' r ∧
    KeepsOthers (((finish World.empty fiveSteps).table? 0).get five_made) x t'

/-- The key 7 is free, and the element comes back with it; the key 4 is taken. -/
theorem node_round_trip_extracted : RenamesTwo 7 true ∧ RenamesTwo 4 false := by
  have hkey : present NatMap.keyOf
      (((finish World.empty fiveSteps).table? 0).get five_made).keyEqual (2 : ℕ)
      (contents (((finish World.empty fiveSteps).table? 0).get five_made)) = true := by
    decide +kernel
  have hquiet : (finish World.empty fiveSteps).heap.fault = none := by decide +kernel
  have ht : (finish World.empty fiveSteps).table? 0 =
      some (((finish World.empty fiveSteps).table? 0).get five_made) :=
    (Option.some_get five_made).symm
  have hround : ∀ key2 node flag,
      ((renameTwo key2).run (finish World.empty fiveSteps)).1 = .ok (node, flag) →
        RenamesTwo key2 flag := by
    intro key2 node flag hflag
    obtain ⟨x, v, h, w1, t1, r, w', t', hextract, -, htaken, -, hinsert, ht', hback, hkept, -⟩ :=
      node_round_trip five_reachable ht hquiet hkey key2
    have hrun : (renameTwo key2).run (finish World.empty fiveSteps) = (.ok r, w') := by
      unfold renameTwo
      rw [Action.run_bind_ok _ hextract, hinsert]
    rw [hrun] at hflag
    cases hflag
    exact ⟨x, v, h, w1, t1, _, w', t', hrun, ht', rfl, htaken, hback, hkept⟩
  exact ⟨hround 7 1 true (by decide +kernel), hround 4 3 false (by decide +kernel)⟩

end Fum.Interface

import Fum.Analysis.Representation
import Fum.Analysis.Walks

/-!
# Programs on maps

What a program means when nothing throws: its containers are dense maps, its node handles hold
a value or nothing, and an iterator is a position. There are no hashers, no buckets, no arena
and no load factors; an argument that designates nothing has no meaning.
-/

set_option autoImplicit false

namespace Fum.Analysis

open Fum.Model Effects SwapRemove DenseMap

variable {τ : Traits} {α : Type}

/-! ## Maps, nodes and what a program holds -/

/-- A container as its users see it: the entries in the order of the iteration. -/
@[ext]
structure MapObject (τ : Traits) where
  entries : List τ.Value
  keyEqual : τ.Key → τ.Key → Bool
  allocator : τ.Alloc

/-- The containers of a program, and what its node handles hold. -/
@[ext]
structure MapWorld (τ : Traits) where
  maps : List (Option (MapObject τ))
  nodes : List (Option (Option τ.Value))

namespace MapWorld

/-- A program that has not run yet. -/
def empty : MapWorld τ := ⟨[], []⟩

def map? (m : MapWorld τ) (i : ℕ) : Option (MapObject τ) := m.maps[i]?.join

def node? (m : MapWorld τ) (h : ℕ) : Option (Option τ.Value) := m.nodes[h]?.join

def setMap (m : MapWorld τ) (i : ℕ) (a : Option (MapObject τ)) : MapWorld τ :=
  { m with maps := m.maps.set i a }

def setNode (m : MapWorld τ) (h : ℕ) (held : Option (Option τ.Value)) : MapWorld τ :=
  { m with nodes := m.nodes.set h held }

def addMap (m : MapWorld τ) (a : MapObject τ) : MapWorld τ := { m with maps := m.maps ++ [some a] }

def addNode (m : MapWorld τ) (held : Option τ.Value) : MapWorld τ :=
  { m with nodes := m.nodes ++ [some held] }

end MapWorld

/-! ## The meaning of a call -/

/-- The entries after the values have been put in, one after the other. -/
def enterEach (equal : τ.Key → τ.Key → Bool) (values l : List τ.Value) : List τ.Value :=
  values.foldl (fun l v => enter τ.keyOf equal v l) l

/-- The entries after a call, and the value of the node that an extraction returns. -/
def Op.dense (equal : τ.Key → τ.Key → Bool) (l : List τ.Value) :
    Op τ → Option (List τ.Value × Option (Option τ.Value))
  | .insert value => some (enter τ.keyOf equal value l, none)
  | .tryEmplace key mapped => some (enter τ.keyOf equal (τ.makeValue key mapped) l, none)
  | .insertOrAssign key mapped =>
      some (if present τ.keyOf equal key l then
          assign τ.keyOf equal key (fun v => τ.assignMapped v mapped) l
        else l ++ [τ.makeValue key mapped], none)
  | .assign p mapped =>
      if p < l.length then some (l.modify p fun v => τ.assignMapped v mapped, none) else none
  | .eraseKey key => some (remove τ.keyOf equal key l, none)
  | .eraseAt p => if p < l.length then some (swapRemove l p, none) else none
  | .eraseRange p q =>
      if p ≤ q ∧ q ≤ l.length then
        some (removeEach τ.keyOf equal ((l.drop p).take (q - p)) l, none)
      else none
  | .extractKey key => some (remove τ.keyOf equal key l, some (lookup τ.keyOf equal key l))
  | .extractAt p => (l[p]?).map fun v => (swapRemove l p, some (some v))
  | .clear => some ([], none)
  | .rehash _ | .reserve _ | .maxLoadFactor _ | .find _ => some (l, none)

/-- The call on the table that stands for a call whose iterators are positions. -/
def Op.located (t : Table τ) : Op τ → Op τ
  | .assign p mapped => .assign (nodeAtPosition t p) mapped
  | .eraseAt p => .eraseAt (nodeAtPosition t p)
  | .eraseRange p q => .eraseRange (nodeAtPosition t p) (nodeAtPosition t q)
  | .extractAt p => .extractAt (nodeAtPosition t p)
  | op => op

/-! ## The meaning of a statement -/

namespace MapWorld

/-- The statement changes the container `i`. -/
def onMap (m : MapWorld τ) (i : ℕ) (f : MapObject τ → Option (MapWorld τ)) :
    Option (MapWorld τ) := (m.map? i).bind f

/-- A statement with two containers, which changes nothing when they are one. -/
def onMaps (m : MapWorld τ) (i j : ℕ) (f : MapObject τ → MapObject τ → Option (MapWorld τ)) :
    Option (MapWorld τ) :=
  m.onMap i fun a => m.onMap j fun b => if i = j then some m else f a b

/-- The insertion of a node that holds `held` into the container `i`, which is `a`: the new
handle object of the overload without a hint has what was not put in. -/
def enterNode (m : MapWorld τ) (hinted : Bool) (i h : ℕ) (a : MapObject τ) :
    Option τ.Value → MapWorld τ
  | none => if hinted then m.setNode h (some none) else (m.setNode h (some none)).addNode none
  | some v =>
      let entered := (m.setMap i
        (some { a with entries := enter τ.keyOf a.keyEqual v a.entries })).setNode h (some none)
      if hinted then entered
      else entered.addNode
        (if present τ.keyOf a.keyEqual (τ.keyOf v) a.entries then some v else none)

/-- What a program holds after a statement, if its arguments designate objects. -/
def after (m : MapWorld τ) : WorldOp τ → Option (MapWorld τ)
  | .construct _ _ equal alloc => some (m.addMap ⟨[], equal, alloc⟩)
  | .constructRange values _ _ equal alloc =>
      some (m.addMap ⟨enterEach equal values [], equal, alloc⟩)
  | .copyConstruct j => m.onMap j fun b =>
      some (m.addMap { b with allocator := τ.selectOnCopy b.allocator })
  | .copyConstructWith j alloc => m.onMap j fun b => some (m.addMap { b with allocator := alloc })
  | .moveConstruct j => m.onMap j fun b =>
      some ((m.setMap j (some { b with entries := [] })).addMap b)
  | .moveConstructWith j alloc => m.onMap j fun b =>
      some ((m.setMap j (some { b with entries := [] })).addMap { b with allocator := alloc })
  | .destroy i => m.onMap i fun _ => some (m.setMap i none)
  | .copyAssign i j => m.onMaps i j fun a b =>
      some (m.setMap i
        (some { b with allocator := if τ.pocca then b.allocator else a.allocator }))
  | .moveAssign i j => m.onMaps i j fun a b =>
      some ((m.setMap j (some { b with entries := [] })).setMap i
        (some { b with allocator := if τ.pocma then b.allocator else a.allocator }))
  | .assignValues i values => m.onMap i fun a =>
      some (m.setMap i (some { a with entries := enterEach a.keyEqual values [] }))
  | .swap i j => m.onMaps i j fun a b =>
      if τ.pocs = true ∨ a.allocator = b.allocator then
        some ((m.setMap i (some b)).setMap j (some a))
      else none
  | .merge i j => m.onMaps i j fun a b =>
      let moved := absorbed τ.keyOf a.keyEqual a.entries b.entries
      some ((m.setMap i (some { a with entries := a.entries ++ moved })).setMap j
        (some { b with entries := removeEach τ.keyOf b.keyEqual moved b.entries }))
  | .table i op => m.onMap i fun a => (Op.dense a.keyEqual a.entries op).map fun r =>
      let changed := m.setMap i (some { a with entries := r.1 })
      r.2.elim changed changed.addNode
  | .insertHandle hinted i h => m.onMap i fun a => (m.node? h).map (m.enterNode hinted i h a)
  | .handleDefault => some (m.addNode none)
  | .handleMove h => (m.node? h).map (m.setNode h (some none)).addNode
  | .handleAssign h k => (m.node? h).bind fun _ => (m.node? k).map fun held =>
      if h = k then m else (m.setNode h (some held)).setNode k (some none)
  | .handleSwap h k => (m.node? h).bind fun a => (m.node? k).map fun b =>
      (m.setNode h (some b)).setNode k (some a)
  | .handleDestroy h => (m.node? h).map fun _ => m.setNode h none

/-- No container is too large. -/
def Roomy (m : MapWorld τ) : Prop := ∀ a ∈ m.maps, ∀ o ∈ a, o.entries.length + 2 ≤ 2 ^ 24

instance : DecidablePred (Roomy : MapWorld τ → Prop) := fun m =>
  inferInstanceAs (Decidable (∀ a ∈ m.maps, ∀ o ∈ a, o.entries.length + 2 ≤ 2 ^ 24))

/-- What a program holds after some statements, if all of them have a meaning and no container
gets too large. -/
def runs (m : MapWorld τ) : List (WorldOp τ) → Option (MapWorld τ)
  | [] => some m
  | op :: rest => (m.after op).bind fun m' => if m'.Roomy then m'.runs rest else none

end MapWorld

/-- The statement of the program that stands for a statement whose iterators are positions. -/
def WorldOp.located (w : World τ) : WorldOp τ → WorldOp τ
  | .table i op => .table i ((w.table? i).elim op fun t => Op.located t op)
  | op => op

/-! ## What a program holds -/

/-- The table as its users see it. -/
def asMap (t : Table τ) : MapObject τ := ⟨contents t, t.keyEqual, t.allocator⟩

/-- The value in a node handle. -/
def held (handle : Handle τ) : Option τ.Value := handle.value.map fun cell => cell.element.value

/-- The objects of a program as it sees them. -/
def asMaps (w : World τ) : MapWorld τ :=
  ⟨w.tables.map (Option.map asMap), w.handles.map (Option.map held)⟩

/-- The node that a call returns. -/
def nodeOf : Reply τ → Option (Option τ.Value)
  | .node handle => some (held handle)
  | .none | .inserted _ _ | .erased _ | .iterator _ => none

/-- A table that a program can use. -/
def WellKept (t : Table τ) : Prop := Playable t.keyEqual t

/-! ## A call on one table -/

variable {U : Stuck → Prop} {s : Store τ} {t t' : Table τ} {equal : τ.Key → τ.Key → Bool}

/-- The contents after some of them have been erased, one after the other. -/
theorem Erased.contents_each {gone : List ℕ} (h : Erased t gone t') (hc : Consistent t)
    (hlaw : LawfulTable t) (hd : Distinct t) (hgone : gone.Nodup)
    (hsub : ∀ x ∈ gone, x ∈ t.iteration) :
    Analysis.contents t' =
      removeEach τ.keyOf t.keyEqual (gone.filterMap (valueAt t)) (Analysis.contents t) := by
  have hnodup := hc.slots.iteration_nodup
  have htrans : ∀ a b c : τ.Key, t.keyEqual a b = true → t.keyEqual a c = true →
      t.keyEqual b c = true := fun a b c hab hac => hlaw.trans b a c (hlaw.symm a b hab) hac
  refine Reads.contents ?_
  have hvalues : t'.iteration.map (valueAt t') = t'.iteration.map (valueAt t) := by
    refine List.map_congr_left fun y hy => valueAt_congr (h.others y ?_)
    exact ((h.mem_iff hnodup y).mp hy).2
  unfold Reads
  rw [hvalues, h.order]
  exact map_foldl_swapErase hlaw.refl htrans gone hnodup (hd.contents hc) hc.reads hgone hsub

theorem held_of_owns {x : ℕ} {handle : Handle τ} (h : Owns t x handle) :
    held handle = valueAt t x := by
  obtain ⟨e, cell, he, hcell, hvalue⟩ := h
  unfold held
  rw [hcell, valueAt_of_storage he, ← hvalue]
  rfl

/-- What an extraction by key returns. -/
theorem ExtractedKey.held {key : τ.Key} {handle : Handle τ} (h : ExtractedKey t key handle t')
    (hw : WellFormed t) (hlaw : LawfulTable t) :
    Analysis.held handle = lookup τ.keyOf t.keyEqual key (contents t) := by
  have hself : Represents t (contents t) := List.Perm.refl _
  cases h with
  | absent empty absent same =>
      have hnone : lookup τ.keyOf t.keyEqual key (contents t) = none := hself.absent hlaw absent
      rw [hnone]
      unfold Analysis.held
      rw [empty]
      rfl
  | extracted x listed same_key erased owns =>
      obtain ⟨v, hv, -⟩ := matches_iff_valueAt.mp same_key
      have hfound := hself.designates hw hlaw listed same_key
      rw [held_of_owns owns, hv]
      unfold entryFor at hfound
      cases hl : lookup τ.keyOf t.keyEqual key (contents t) with
      | none =>
          rw [hl] at hfound
          exact absurd hfound (hw.consistent.slots.ne_null (Or.inl listed)).ne
      | some u =>
          rw [hl] at hfound
          exact hv.symm.trans hfound.2

/-- The walk from one position to a later one. -/
theorem Consistent.range_positions (hc : Consistent t) {p q : ℕ} (hpq : p ≤ q) (hq : q ≤ t.size) :
    t.range (kNullIndex + 1) (nodeAtPosition t p) (nodeAtPosition t q) =
      some ((t.iteration.drop p).take (q - p)) := by
  have hsize := hc.slots.size_le_null
  exact hc.slots.range (fun _ hx => hc.live hx) hq (q - p) (kNullIndex + 1) p
    (Nat.add_sub_cancel' hpq) (by omega)

/-- The iterators of a call that has a meaning are valid. -/
theorem Op.located_valid {op : Op τ} {l : List τ.Value} {r : List τ.Value × Option (Option τ.Value)}
    (hc : Consistent t) (hl : l.length = t.size) (hr : Op.dense equal l op = some r) :
    ValidIn t (Op.located t op) := by
  have hlive : ∀ p, p < l.length → (t.nodeAt (nodeAtPosition t p)).storage.isSome := by
    intro p hp
    rw [hl] at hp
    exact hc.live (List.mem_of_getElem? (nodeAtPosition_of_lt hp))
  cases op with
  | assign p mapped =>
      exact hlive p (Option.ite_none_right_eq_some.mp hr).1
  | eraseAt p =>
      exact hlive p (Option.ite_none_right_eq_some.mp hr).1
  | eraseRange p q =>
      obtain ⟨hpq, -⟩ := Option.ite_none_right_eq_some.mp hr
      rw [hl] at hpq
      show (t.range (kNullIndex + 1) (nodeAtPosition t p) (nodeAtPosition t q)).isSome
      rw [hc.range_positions hpq.1 hpq.2]
      rfl
  | extractAt p =>
      obtain ⟨v, hv, -⟩ := Option.map_eq_some_iff.mp hr
      exact hlive p (List.getElem?_eq_some_iff.mp hv).1
  | insert | tryEmplace | insertOrAssign | eraseKey | extractKey | clear | rehash | reserve
  | maxLoadFactor | find => trivial

theorem Consistent.filterMap_slice (hc : Consistent t) (p n : ℕ) :
    ((t.iteration.drop p).take n).filterMap (valueAt t) = ((contents t).drop p).take n := by
  refine filterMap_eq_of_map ?_
  rw [List.map_take, List.map_drop, hc.reads, List.map_take, List.map_drop]

/-- The node at a position holds the entry there. -/
theorem Consistent.valueAt_position (hc : Consistent t) {p : ℕ} {v : τ.Value}
    (hv : (contents t)[p]? = some v) : p < t.size ∧ valueAt t (nodeAtPosition t p) = some v := by
  have hp : p < t.size := by
    rw [← hc.length_contents]
    exact (List.getElem?_eq_some_iff.mp hv).1
  have hget := hc.contents_getElem? p
  rw [hv, nodeAtPosition_of_lt hp] at hget
  exact ⟨hp, (Option.some.inj hget).symm⟩

/-- The entries after a call are those that it means. -/
theorem Op.effect_dense {op : Op τ} {reply : Reply τ} {r : List τ.Value × Option (Option τ.Value)}
    (he : EffectOf t t' (Op.located t op) reply) (hw : WellFormed t) (hlaw : LawfulTable t)
    (hr : Op.dense t.keyEqual (contents t) op = some r) : contents t' = r.1 := by
  have hc := hw.consistent
  have hd := hw.distinct hlaw
  have heffect := he.effect
  have hnode : ∀ {p : ℕ}, p < (contents t).length →
      t.iteration[p]? = some (nodeAtPosition t p) := by
    intro p hp
    rw [hc.length_contents] at hp
    exact nodeAtPosition_of_lt hp
  cases op with
  | insert value =>
      cases hr
      cases heffect with
      | insert _ it flag entered => exact (entered.contents hc hlaw).1
  | tryEmplace key mapped =>
      cases hr
      cases heffect with
      | tryEmplace _ _ it flag entered => exact (entered.keyed.contents hc hlaw).1
  | insertOrAssign key mapped =>
      cases hr
      cases heffect with
      | insertOrAssign _ _ it flag entered => exact (entered.contents hc hlaw hd).1
  | assign p mapped =>
      obtain ⟨hp, h⟩ := Option.ite_none_right_eq_some.mp hr
      cases h
      cases heffect with
      | assign _ _ assigned => exact assigned.contents hc (hnode hp)
  | eraseKey key =>
      cases hr
      cases heffect with
      | eraseKey _ n erased => exact (erased.contents hc hlaw hd).1
  | eraseAt p =>
      obtain ⟨hp, h⟩ := Option.ite_none_right_eq_some.mp hr
      cases h
      cases heffect with
      | eraseAt _ it erased => exact (erased.erased hlaw hd hc.filled).2.contents hc (hnode hp)
  | eraseRange p q =>
      obtain ⟨hpq, h⟩ := Option.ite_none_right_eq_some.mp hr
      cases h
      rw [hc.length_contents] at hpq
      have hslice := hc.range_positions hpq.1 hpq.2
      cases heffect with
      | eraseRange _ _ doomed policy range erased =>
          cases hslice.symm.trans range
          obtain ⟨hnodup, hlisted⟩ := hc.slots.range_nodup hc.filled hslice
          rw [(erased hlaw hd).contents_each hc hlaw hd hnodup hlisted, hc.filterMap_slice]
  | extractKey key =>
      cases hr
      cases heffect with
      | extractKey _ handle extracted =>
          cases extracted with
          | absent empty absent same =>
              rw [same]
              show contents t = remove τ.keyOf t.keyEqual key (contents t)
              unfold remove
              rw [absent.present_eq_false hlaw, if_neg Bool.false_ne_true]
          | extracted x listed same_key erased owns =>
              exact erased.contents_key hc hlaw hd listed same_key
  | extractAt p =>
      obtain ⟨v, hv, rfl⟩ := Option.map_eq_some_iff.mp hr
      cases heffect with
      | extractAt _ handle erased =>
          exact (erased.erased hlaw hd hc.filled).2.contents hc
            (hnode (List.getElem?_eq_some_iff.mp hv).1)
  | clear =>
      cases hr
      cases heffect with
      | clear cleared => simp [contents, cleared.iteration]
  | rehash requested =>
      cases hr
      cases heffect with
      | rehash _ same => exact same.contents hc
  | reserve elementCount =>
      cases hr
      cases heffect with
      | reserve _ same => exact same.contents hc
  | maxLoadFactor z =>
      cases hr
      cases heffect with
      | maxLoadFactor _ refactored => exact refactored.contents hc
  | find key =>
      cases hr
      cases heffect with
      | find _ it found same => exact congrArg contents same

/-- The node that a call returns is what it means. -/
theorem Op.exec_node (op : Op τ) (h : Playable equal s.table) (hquiet : s.heap.fault = none)
    {r : List τ.Value × Option (Option τ.Value)}
    (hr : Op.dense equal (contents s.table) op = some r) (hmodest : Modest op)
    (hsizable : SizableIn s.table op) :
    Action.Post U (Op.located s.table op).exec s (fun reply _ => nodeOf reply = r.2)
      (fun _ => False) := by
  have hc := h.wellFormed.consistent
  have hvalid : ValidIn s.table (Op.located s.table op) :=
    Op.located_valid hc hc.length_contents hr
  have hlocated : Modest (Op.located s.table op) := by cases op <;> exact hmodest
  have hsized : SizableIn s.table (Op.located s.table op) := by cases op <;> exact hsizable
  have hreply : (∀ t' reply, Effect s.table t' (Op.located s.table op) reply →
      nodeOf reply = r.2) → Action.Post U (Op.located s.table op).exec s
        (fun reply _ => nodeOf reply = r.2) (fun _ => False) := fun hnode =>
    (Op.exec_playable (Op.located s.table op) h hquiet hvalid hlocated hsized).mono
      (fun reply s' h' => hnode _ _ h'.1.effect) (fun _ h' => h') fun _ h' => h'
  rw [← h.keyEqual] at hr
  cases op with
  | insert | tryEmplace | insertOrAssign | eraseKey | clear | rehash | reserve | maxLoadFactor
  | find =>
      refine hreply fun t' reply he => ?_
      cases hr
      cases he
      rfl
  | assign | eraseAt | eraseRange =>
      refine hreply fun t' reply he => ?_
      obtain ⟨-, h'⟩ := Option.ite_none_right_eq_some.mp hr
      cases h'
      cases he
      rfl
  | extractKey key =>
      refine hreply fun t' reply he => ?_
      cases hr
      cases he with
      | extractKey _ handle extracted =>
          exact congrArg some (extracted.held h.wellFormed h.lawful)
  | extractAt p =>
      obtain ⟨v, hv, rfl⟩ := Option.map_eq_some_iff.mp hr
      obtain ⟨hp, hvalue⟩ := hc.valueAt_position hv
      have hlisted := List.mem_of_getElem? (nodeAtPosition_of_lt hp)
      refine Action.Post.bind (extractAt_spec _ hc h.room (fun hnone => ?_)
        (Or.inr h.lawful.refl)) (fun s' h' => ?_) ?_
      · exact absurd hnone (hc.storage_ne_none hlisted)
      · rcases h' with h' | ⟨-, p', -, hpoint⟩
        · exact h'.fault hquiet
        · exact fault_ne_none hpoint hquiet
      · rintro handle s' ⟨-, e, x, he, hx, hmatch, -, howns⟩
        have heq : nodeAtPosition s.table p = x := (h.wellFormed.distinct h.lawful).unique h.lawful
          hlisted hx ⟨e, he, h.lawful.refl _⟩ hmatch
        show some (held handle) = some (some v)
        rw [held_of_owns howns, ← heq, hvalue]

/-- No member function touches the allocator. -/
theorem durable_allocator (a : τ.Alloc) : Durable fun s : Store τ => s.table.allocator = a where
  toSteady := Insensitive.steady (I := fun t => t.allocator = a)
    ⟨fun _ _ _ _ h => h, fun _ _ h => h⟩
  order _ _ h := h
  refill _ _ h := h
  drop _ h := h

/-- A call on a table does what it means for the dense map. -/
theorem Op.exec_means (op : Op τ) (h : Playable equal s.table) (hquiet : s.heap.fault = none)
    {r : List τ.Value × Option (Option τ.Value)}
    (hr : Op.dense equal (contents s.table) op = some r) (hmodest : Modest op)
    (hsizable : SizableIn s.table op) (hroom : r.1.length + 2 ≤ 2 ^ 24) :
    Action.Post U (Op.located s.table op).exec s
      (fun reply s' => Playable equal s'.table ∧ nodeOf reply = r.2 ∧
        asMap s'.table = { asMap s.table with entries := r.1 }) (fun _ => False) := by
  have hc := h.wellFormed.consistent
  have hvalid : ValidIn s.table (Op.located s.table op) :=
    Op.located_valid hc hc.length_contents hr
  have hlocated : Modest (Op.located s.table op) := by cases op <;> exact hmodest
  have hsized : SizableIn s.table (Op.located s.table op) := by cases op <;> exact hsizable
  have hallocator := ((durable_allocator s.table.allocator).resilient.op (Op.located s.table op)
    fun _ _ _ h' => h').post rfl
  refine (((Op.exec_playable _ h hquiet hvalid hlocated hsized).and
    (Op.exec_node (U := U) op h hquiet hr hmodest hsizable)).and hallocator).mono ?_
    (fun _ h' => h'.1.1) fun _ h' => h'
  rintro reply s' ⟨⟨⟨heffect, hc', hplayable⟩, hnode⟩, hallocator'⟩
  rw [← h.keyEqual] at hr
  have hcontents := Op.effect_dense heffect h.wellFormed h.lawful hr
  have h' : Playable equal s'.table := by
    apply hplayable
    unfold Room
    rw [← hc'.length_contents, hcontents]
    exact hroom
  exact ⟨h', hnode, MapObject.ext hcontents (h'.keyEqual.trans h.keyEqual.symm) hallocator'⟩

/-! ## Values put in one after the other -/

theorem length_enterEach (values l : List τ.Value) :
    l.length ≤ (enterEach equal values l).length := by
  induction values generalizing l with
  | nil => exact le_rfl
  | cons v values ih =>
      refine le_trans ?_ (ih (enter τ.keyOf equal v l))
      unfold enter
      split
      · exact le_rfl
      · rw [List.length_append]
        exact Nat.le_add_right _ _

theorem enterEach_append_singleton (values l : List τ.Value) (v : τ.Value) :
    enterEach equal (values ++ [v]) l = enter τ.keyOf equal v (enterEach equal values l) := by
  unfold enterEach
  rw [List.foldl_append]
  rfl

/-- The insertion of a range enters its values in their order. -/
theorem insertRange_means (values : List τ.Value) (hw : WellFormed s.table)
    (hlaw : LawfulTable s.table) (hquiet : s.heap.fault = none)
    (hroom : (enterEach s.table.keyEqual values (contents s.table)).length + 2 ≤ 2 ^ 24) :
    Action.Post U (insertRange values) s
      (fun _ s' => WellFormed s'.table ∧ asMap s'.table = { asMap s.table with
        entries := enterEach s.table.keyEqual values (contents s.table) }) (fun _ => False) := by
  unfold insertRange
  refine (Action.Post.forEach (fun done s' => WellFormed s'.table ∧ SamePolicy s.table s'.table ∧
    contents s'.table = enterEach s.table.keyEqual done (contents s.table) ∧
    s'.heap.fault = none) ⟨hw, SamePolicy.refl _, rfl, hquiet⟩ ?_).mono ?_ (fun _ h' => h')
    fun _ h' => h'
  · rintro done v rest s1 hsplit ⟨hw1, hpolicy, hcontents, hquiet1⟩
    have hroom1 : Room s1.table := by
      have hle : (enterEach s.table.keyEqual done (contents s.table)).length ≤
          (enterEach s.table.keyEqual values (contents s.table)).length := by
        rw [hsplit]
        unfold enterEach
        rw [List.foldl_append]
        exact length_enterEach _ _
      unfold Room
      rw [← hw1.consistent.length_contents, hcontents]
      omega
    have hlaw1 : LawfulTable s1.table := hpolicy.lawfulTable.mpr hlaw
    refine Action.Post.bind (emplaceImpl_spec v hw1.consistent hroom1)
      (fun _ h' => h'.fault hquiet1) ?_
    rintro r s2 ⟨hc2, hentered, hpoint⟩
    rw [hquiet1] at hpoint
    refine ⟨hw1.of_entered hentered hc2, hpolicy.trans (hentered.grown hw1.consistent).policy, ?_,
      Option.map_eq_none_iff.mp hpoint⟩
    rw [(hentered.contents hw1.consistent hlaw1).1, hcontents, enterEach_append_singleton,
      hpolicy.keyEqual]
  · rintro ⟨⟩ s' ⟨hw', hpolicy, hcontents, -⟩
    exact ⟨hw', MapObject.ext hcontents hpolicy.keyEqual hpolicy.allocator⟩

/-! ## What a program holds after a statement -/

variable {w w' : World τ} {m m' : MapWorld τ} {i j k : ℕ}

theorem map?_asMaps (w : World τ) (i : ℕ) : (asMaps w).map? i = (w.table? i).map asMap := by
  unfold MapWorld.map? asMaps World.table?
  rw [List.getElem?_map]
  rcases w.tables[i]? with _ | o <;> rfl

theorem node?_asMaps (w : World τ) (h : ℕ) : (asMaps w).node? h = (w.handle? h).map held := by
  unfold MapWorld.node? asMaps World.handle?
  rw [List.getElem?_map]
  rcases w.handles[h]? with _ | o <;> rfl

namespace MapWorld

theorem map?_setMap (m : MapWorld τ) (a : Option (MapObject τ)) (hi : i < m.maps.length) :
    (m.setMap i a).map? k = if k = i then a else m.map? k := by
  unfold map? setMap
  by_cases hk : k = i
  · subst hk
    rw [if_pos rfl, List.getElem?_set_self hi]
    rfl
  · rw [if_neg hk, List.getElem?_set_ne (Ne.symm hk)]

@[simp] theorem length_setMap (m : MapWorld τ) (i : ℕ) (a : Option (MapObject τ)) :
    (m.setMap i a).maps.length = m.maps.length := List.length_set

/-- A node object that changes after another one has been made. -/
theorem setNode_addNode {h : ℕ} (hh : h < m.nodes.length) (o : Option (Option τ.Value))
    (v : Option τ.Value) : (m.addNode v).setNode h o = (m.setNode h o).addNode v := by
  unfold setNode addNode
  rw [List.set_append_left _ _ hh]

theorem map?_addMap (m : MapWorld τ) (a : MapObject τ) :
    (m.addMap a).map? k = if k = m.maps.length then some a else m.map? k := by
  unfold map? addMap
  by_cases hk : k = m.maps.length
  · subst hk
    rw [if_pos rfl, List.getElem?_append_right le_rfl, Nat.sub_self]
    rfl
  · rw [if_neg hk]
    by_cases hlt : k < m.maps.length
    · rw [List.getElem?_append_left hlt]
    · have hlen : (m.maps ++ [some a]).length ≤ k := by
        rw [List.length_append, List.length_singleton]
        omega
      rw [List.getElem?_eq_none hlen, List.getElem?_eq_none (not_lt.mp hlt)]

/-- A container that changes as soon as it is there. -/
theorem setMap_addMap (m : MapWorld τ) (a b : MapObject τ) :
    (m.addMap a).setMap m.maps.length (some b) = m.addMap b := by
  unfold setMap addMap
  rw [List.set_append_right _ _ le_rfl, Nat.sub_self]
  rfl

theorem Roomy.length {o : MapObject τ} (h : m.Roomy) (ho : m.map? i = some o) :
    o.entries.length + 2 ≤ 2 ^ 24 := by
  have hlt := lt_of_join_eq_some ho
  have hget : m.maps[i] = some o := by
    unfold map? at ho
    rw [List.getElem?_eq_getElem hlt] at ho
    exact ho
  exact h _ (List.getElem_mem hlt) o hget

/-- The containers are known by what stands at each place. -/
theorem maps_eq (hlen : m.maps.length = m'.maps.length) (hmaps : ∀ k, m.map? k = m'.map? k) :
    m.maps = m'.maps := by
  refine List.ext_getElem hlen fun k hk hk' => ?_
  have h := hmaps k
  unfold map? at h
  rw [List.getElem?_eq_getElem hk, List.getElem?_eq_getElem hk'] at h
  exact h

theorem ext_objects (hlen : m.maps.length = m'.maps.length) (hmaps : ∀ k, m.map? k = m'.map? k)
    (hnodes : m.nodes = m'.nodes) : m = m' := MapWorld.ext (maps_eq hlen hmaps) hnodes

end MapWorld

theorem onMap_asMaps {f : MapObject τ → Option (MapWorld τ)}
    (h : (asMaps w).onMap i f = some m) :
    ∃ t, w.table? i = some t ∧ f (asMap t) = some m := by
  obtain ⟨a, ha, hf⟩ := Option.bind_eq_some_iff.mp h
  rw [map?_asMaps] at ha
  obtain ⟨t, ht, rfl⟩ := Option.map_eq_some_iff.mp ha
  exact ⟨t, ht, hf⟩

theorem onMaps_asMaps {f : MapObject τ → MapObject τ → Option (MapWorld τ)}
    (h : (asMaps w).onMaps i j f = some m) :
    ∃ t u, w.table? i = some t ∧ w.table? j = some u ∧
      (if i = j then some (asMaps w) else f (asMap t) (asMap u)) = some m := by
  obtain ⟨t, ht, h'⟩ := onMap_asMaps h
  obtain ⟨u, hu, hf⟩ := onMap_asMaps h'
  exact ⟨t, u, ht, hu, hf⟩

theorem node_asMaps {h : ℕ} {o : Option τ.Value} (hn : (asMaps w).node? h = some o) :
    ∃ handle, w.handle? h = some handle ∧ held handle = o := by
  rw [node?_asMaps] at hn
  exact Option.map_eq_some_iff.mp hn

theorem length_maps_asMaps (w : World τ) : (asMaps w).maps.length = w.tables.length :=
  List.length_map _

theorem asMaps_setTable (w : World τ) (i : ℕ) (o : Option (Table τ)) :
    asMaps (w.setTable i o) = (asMaps w).setMap i (o.map asMap) := by
  unfold asMaps World.setTable MapWorld.setMap
  rw [List.map_set]

theorem asMaps_withStore (w : World τ) (i : ℕ) (s : Store τ) :
    asMaps (withStore w i s) = (asMaps w).setMap i (some (asMap s.table)) :=
  asMaps_setTable w i (some s.table)

theorem asMaps_setHandle (w : World τ) (h : ℕ) (o : Option (Handle τ)) :
    asMaps (w.setHandle h o) = (asMaps w).setNode h (o.map held) := by
  unfold asMaps World.setHandle MapWorld.setNode
  rw [List.map_set]

theorem asMaps_newHandle (w : World τ) (handle : Handle τ) :
    asMaps { w with handles := w.handles ++ [some handle] } =
      (asMaps w).addNode (held handle) := by
  unfold asMaps MapWorld.addNode
  rw [List.map_append]
  rfl

theorem asMaps_newTable (w : World τ) (t : Table τ) :
    asMaps { w with tables := w.tables ++ [some t] } = (asMaps w).addMap (asMap t) := by
  unfold asMaps MapWorld.addMap
  rw [List.map_append]
  rfl

/-- What the containers are when one table has changed. -/
theorem maps_set (hlen : w'.tables.length = w.tables.length) (hi : w'.table? i = some t)
    (hothers : ∀ k, k ≠ i → w'.table? k = w.table? k) :
    (asMaps w').maps = (asMaps w).maps.set i (some (asMap t)) := by
  have hlt : i < (asMaps w).maps.length := by
    rw [length_maps_asMaps, ← hlen]
    exact lt_of_join_eq_some hi
  show (asMaps w').maps = ((asMaps w).setMap i (some (asMap t))).maps
  refine MapWorld.maps_eq ?_ fun k => ?_
  · rw [length_maps_asMaps, hlen, MapWorld.length_setMap, length_maps_asMaps]
  · rw [MapWorld.map?_setMap _ _ hlt, map?_asMaps, map?_asMaps]
    split
    · next hk =>
        rw [hk, hi]
        rfl
    · next hk => rw [hothers k hk]

/-- The tables are well formed, and what they hold is in `m`. -/
structure Depicts (w : World τ) (m : MapWorld τ) : Prop where
  maps : asMaps w = m
  wellFormed : Everywhere WellFormed w

/-- The tables of a program whose containers are not too large have room. -/
theorem Depicts.room (h : Depicts w m) (hroom : m.Roomy) : Everywhere Room w := by
  intro i t ht
  have hentries : (asMap t).entries.length + 2 ≤ 2 ^ 24 := by
    refine hroom.length (i := i) ?_
    rw [← h.maps, map?_asMaps, ht]
    rfl
  unfold Room
  rwa [← (h.wellFormed i t ht).consistent.length_contents]

/-- One table has changed. -/
theorem everywhere_set {I : Table τ → Prop} (hw : Everywhere I w) (hi : w'.table? i = some t)
    (ht : I t) (hothers : ∀ k, k ≠ i → w'.table? k = w.table? k) : Everywhere I w' := by
  intro k t1 ht1
  by_cases hk : k = i
  · subst hk
    cases hi.symm.trans ht1
    exact ht
  · exact hw k t1 ((hothers k hk).symm.trans ht1)

/-- Two tables have changed. -/
theorem everywhere_set_set {I : Table τ → Prop} (hw : Everywhere I w) (hi : w'.table? i = some t)
    (hj : w'.table? j = some t') (ht : I t) (ht' : I t')
    (hothers : ∀ k, k ≠ i → k ≠ j → w'.table? k = w.table? k) : Everywhere I w' := by
  intro k t1 ht1
  by_cases hki : k = i
  · subst hki
    cases hi.symm.trans ht1
    exact ht
  by_cases hkj : k = j
  · subst hkj
    cases hj.symm.trans ht1
    exact ht'
  · exact hw k t1 ((hothers k hki hkj).symm.trans ht1)

/-- One table has changed. -/
theorem asMaps_set (hlen : w'.tables.length = w.tables.length) (hhandles : w'.handles = w.handles)
    (hi : w'.table? i = some t) (hothers : ∀ k, k ≠ i → w'.table? k = w.table? k) :
    asMaps w' = (asMaps w).setMap i (some (asMap t)) :=
  MapWorld.ext (maps_set hlen hi hothers) (congrArg (List.map _) hhandles)

/-- Two tables have changed. -/
theorem asMaps_set_set (hlen : w'.tables.length = w.tables.length)
    (hhandles : w'.handles = w.handles) (hi : w'.table? i = some t)
    (hj : w'.table? j = some t') (hothers : ∀ k, k ≠ i → k ≠ j → w'.table? k = w.table? k) :
    asMaps w' = ((asMaps w).setMap i (some (asMap t))).setMap j (some (asMap t')) := by
  have hlti : i < (asMaps w).maps.length := by
    rw [length_maps_asMaps, ← hlen]
    exact lt_of_join_eq_some hi
  have hltj : j < ((asMaps w).setMap i (some (asMap t))).maps.length := by
    rw [MapWorld.length_setMap, length_maps_asMaps, ← hlen]
    exact lt_of_join_eq_some hj
  refine MapWorld.ext_objects ?_ (fun k => ?_) (congrArg (List.map _) hhandles)
  · rw [length_maps_asMaps, hlen, MapWorld.length_setMap, MapWorld.length_setMap,
      length_maps_asMaps]
  · rw [MapWorld.map?_setMap _ _ hltj, MapWorld.map?_setMap _ _ hlti, map?_asMaps, map?_asMaps]
    split
    · next hk =>
        rw [hk, hj]
        rfl
    · next hkj =>
        split
        · next hki =>
            rw [hki, hi]
            rfl
        · next hki => rw [hothers k hki hkj]

/-- There is a new table. -/
theorem asMaps_add (hlen : w'.tables.length = w.tables.length + 1)
    (hhandles : w'.handles = w.handles) (hi : w'.table? w.tables.length = some t)
    (hothers : ∀ k, k ≠ w.tables.length → w'.table? k = w.table? k) :
    asMaps w' = (asMaps w).addMap (asMap t) := by
  refine MapWorld.ext_objects ?_ (fun k => ?_) (congrArg (List.map _) hhandles)
  · have hadd : ((asMaps w).addMap (asMap t)).maps.length = (asMaps w).maps.length + 1 :=
      List.length_append
    rw [length_maps_asMaps, hlen, hadd, length_maps_asMaps]
  · rw [MapWorld.map?_addMap, map?_asMaps, map?_asMaps, length_maps_asMaps]
    split
    · next hk =>
        rw [hk, hi]
        rfl
    · next hk => rw [hothers k hk]

/-- There is a new table, and another one has changed. -/
theorem asMaps_set_add (hlen : w'.tables.length = w.tables.length + 1)
    (hhandles : w'.handles = w.handles) (hi : w'.table? w.tables.length = some t)
    (hj : w'.table? j = some t') (hlt : j < w.tables.length)
    (hothers : ∀ k, k ≠ w.tables.length → k ≠ j → w'.table? k = w.table? k) :
    asMaps w' = ((asMaps w).setMap j (some (asMap t'))).addMap (asMap t) := by
  have hset : ((asMaps w).setMap j (some (asMap t'))).maps.length = w.tables.length := by
    rw [MapWorld.length_setMap, length_maps_asMaps]
  refine MapWorld.ext_objects ?_ (fun k => ?_) (congrArg (List.map _) hhandles)
  · have hadd : (((asMaps w).setMap j (some (asMap t'))).addMap (asMap t)).maps.length =
        ((asMaps w).setMap j (some (asMap t'))).maps.length + 1 := List.length_append
    rw [length_maps_asMaps, hlen, hadd, hset]
  · rw [MapWorld.map?_addMap, hset, MapWorld.map?_setMap _ _ (by rwa [length_maps_asMaps]),
      map?_asMaps, map?_asMaps]
    split
    · next hk =>
        rw [hk, hi]
        rfl
    · next hki =>
        split
        · next hkj =>
            rw [hkj, hj]
            rfl
        · next hkj => rw [hothers k hki hkj]

end Fum.Analysis

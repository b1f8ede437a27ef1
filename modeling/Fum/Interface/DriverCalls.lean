import Fum.Interface.ContainerEquality
import Fum.Interface.LoadFactorBound
import Fum.Interface.ProgramRefinement
import Fum.Model.Fuzzing

/-!
# The calls of a differential fuzzer

A driver applies its operations to a container and to a plain map. Here is what each of its
calls returns and leaves, as long as the container holds the entries of the map: a lemma for the
member functions, one for the calls that only look, and one for each way in which the container
goes somewhere else and comes back.
-/

set_option autoImplicit false

namespace Fum.Interface

open Fum.Model Fum.Analysis Effects DenseMap PlainMap

variable {τ : Traits} {α β : Type} {w w' : World τ} {i : ℕ} {t : Table τ} {s : Store τ}
  {equal : τ.Key → τ.Key → Bool} {l : List τ.Value} {key : τ.Key} {m : MapWorld τ}
  {Q : β → World τ → Prop}

/-! ## What a driver relies on -/

/-- The table can be used, and none of its calls has let it outgrow its threshold. -/
structure Serviceable (t : Table τ) : Prop where
  usable : WellKept t
  below : Below (kDefaultMaxLoadFactor τ.rounding) 0 t

theorem Serviceable.ample (h : Serviceable t) : Ample t.maxLoadFactor := by
  rw [h.below.factor]
  exact ample_default

theorem Serviceable.size_le (h : Serviceable t) : t.size ≤ 2 ^ 24 :=
  (Nat.le_add_right _ 2).trans h.usable.room

theorem Serviceable.copyable (h : Serviceable t) : Copyable t := h.ample.copyable h.size_le

/-- The container `i` is the table `t`, which holds the entries `l`. -/
structure Mirrors (i : ℕ) (equal : τ.Key → τ.Key → Bool) (l : List τ.Value) (t : Table τ)
    (w : World τ) : Prop where
  serviceable : Everywhere Serviceable w
  table : w.table? i = some t
  keyEqual : t.keyEqual = equal
  represents : Represents t l

theorem Mirrors.playable (h : Mirrors i equal l t w) : Playable equal t :=
  h.keyEqual ▸ (h.serviceable i t h.table).usable

theorem Mirrors.entryFor (h : Mirrors i equal l t w) (l' : List τ.Value) (key : τ.Key) :
    entryFor t l' key = lookup τ.keyOf equal key l' := by
  unfold Fum.Analysis.entryFor
  rw [h.keyEqual]

theorem Mirrors.agrees (h : Mirrors i equal l t w) : Agrees t l :=
  agrees_of_represents h.playable h.represents

theorem Mirrors.size (h : Mirrors i equal l t w) : t.size = l.length := h.agrees.size

/-- No two entries have one key. -/
theorem Mirrors.distinct (h : Mirrors i equal l t w) : DenseMap.Distinct τ.keyOf equal l := by
  have hp := h.playable
  have hd := (hp.wellFormed.distinct hp.lawful).contents hp.wellFormed.consistent
  rw [hp.keyEqual] at hd
  exact distinct_perm h.represents hd

/-- The world in which a call of a driver runs. -/
def undisturbedWorld (w : World τ) : World τ := { w with heap := { w.heap with fault := none } }

theorem Mirrors.undisturbed (h : Mirrors i equal l t w) :
    Mirrors i equal l t (undisturbedWorld w) := ⟨h.serviceable, h.table, h.keyEqual, h.represents⟩

/-! ## Calls that only look -/

theorem passes_calling {x : Action (World τ) α} {Q : α → World τ → Prop}
    (h : Action.Post Stuck.never x (undisturbedWorld w) Q fun _ => False) :
    Checked.Passes (calling x) w Q :=
  Checked.Passes.call h

/-- A call that leaves the table as it is, then the rest. -/
theorem passes_look {x : Exec τ α} {P : α → Prop} {f : α → Checked (World τ) β}
    (h : Mirrors i equal l t w)
    (hx : ∀ heap : Heap, heap.fault = none → ∃ a, x.run ⟨t, heap⟩ = (.ok a, ⟨t, heap⟩) ∧ P a)
    (hf : ∀ a w', P a → Mirrors i equal l t w' → Checked.Passes (f a) w' Q) :
    Checked.Passes (on i x >>= f) w Q := by
  have h' := h.undisturbed
  obtain ⟨a, hrun, ha⟩ := hx (undisturbedWorld w).heap rfl
  refine Checked.Passes.bind (passes_calling (Q := fun a w' => P a ∧ Mirrors i equal l t w')
    (Action.Post.of_run_ok (run_onTable_of_run h'.table hrun) ⟨ha, h'⟩)) ?_
  rintro a w' ⟨ha, hw'⟩
  exact hf a w' ha hw'

/-- The same for a call whose answer is known. -/
theorem passes_read {x : Exec τ α} {a : α} {f : α → Checked (World τ) β}
    (h : Mirrors i equal l t w)
    (hx : ∀ heap : Heap, heap.fault = none → x.run ⟨t, heap⟩ = (.ok a, ⟨t, heap⟩))
    (hf : ∀ w', Mirrors i equal l t w' → Checked.Passes (f a) w' Q) :
    Checked.Passes (on i x >>= f) w Q := by
  refine passes_look (P := fun b => b = a) h (fun heap hquiet => ⟨a, hx heap hquiet, rfl⟩) ?_
  rintro b w' rfl hw'
  exact hf w' hw'

theorem passes_getTable {f : Table τ → Checked (World τ) β} (h : Mirrors i equal l t w)
    (hf : ∀ w', Mirrors i equal l t w' → Checked.Passes (f t) w' Q) :
    Checked.Passes (on i getTable >>= f) w Q := passes_read h (fun _ _ => rfl) hf

theorem passes_find {f : ℕ → Checked (World τ) β} (h : Mirrors i equal l t w)
    (hf : ∀ it w', Designates t it (lookup τ.keyOf equal key l) → Mirrors i equal l t w' →
      Checked.Passes (f it) w' Q) : Checked.Passes (on i (find key) >>= f) w Q :=
  passes_look h (fun heap hquiet => h.entryFor l key ▸ h.agrees.find heap key hquiet) hf

theorem passes_contains {f : Bool → Checked (World τ) β} (h : Mirrors i equal l t w)
    (hf : ∀ w', Mirrors i equal l t w' →
      Checked.Passes (f (lookup τ.keyOf equal key l).isSome) w' Q) :
    Checked.Passes (on i (contains key) >>= f) w Q :=
  passes_read h (fun heap hquiet => h.entryFor l key ▸ h.agrees.contains heap key hquiet) hf

theorem passes_count {f : ℕ → Checked (World τ) β} (h : Mirrors i equal l t w)
    (hf : ∀ w', Mirrors i equal l t w' →
      Checked.Passes (f (lookup τ.keyOf equal key l).isSome.toNat) w' Q) :
    Checked.Passes (on i (count key) >>= f) w Q :=
  passes_read h (fun heap hquiet => h.entryFor l key ▸ h.agrees.count heap key hquiet) hf

/-- The element that an iterator designates. -/
theorem passes_elementAt {it : ℕ} {v : τ.Value} {f : Element τ → Checked (World τ) β}
    (h : Mirrors i equal l t w) (hv : valueAt t it = some v)
    (hf : ∀ e w', e.value = v → Mirrors i equal l t w' → Checked.Passes (f e) w' Q) :
    Checked.Passes (on i (elementAt it) >>= f) w Q := by
  obtain ⟨e, he, rfl⟩ := Option.map_eq_some_iff.mp hv
  exact passes_read h (fun _ _ => run_elementAt he) fun w' hw' => hf e w' rfl hw'

/-- What designates an element is not the end. -/
theorem Mirrors.ne_null {it : ℕ} {v : τ.Value} (h : Mirrors i equal l t w)
    (hit : Designates t it (some v)) : it ≠ kNullIndex :=
  (h.playable.wellFormed.consistent.slots.ne_null (Or.inl hit.1)).ne

/-! ## Member functions that change the container -/

/-- A call of a member function on a table that holds the entries `l`. -/
theorem post_call {op : Op τ} {x : Exec τ α} {g : α → Reply τ}
    (hop : op.exec = x >>= fun a => pure (g a)) (hs : Serviceable s.table)
    (hl : Represents s.table l) (hquiet : s.heap.fault = none) (hvalid : ValidIn s.table op)
    (hset : ∀ z, op ≠ .maxLoadFactor z) (hrequested : requested op ≤ 2 ^ 24)
    (hroom : (mapAfter s.table l op).length + 2 ≤ 2 ^ 24) :
    Action.Post Stuck.never x s (fun a s' => Serviceable s'.table ∧
      s'.table.keyEqual = s.table.keyEqual ∧ Represents s'.table (mapAfter s.table l op) ∧
      Answers s.table s'.table l (mapAfter s.table l op) (g a) op) fun _ => False := by
  have hmodest : Modest op := by
    cases op with
    | maxLoadFactor z => exact absurd rfl (hset z)
    | insert | tryEmplace | insertOrAssign | assign | eraseKey | eraseAt | eraseRange
    | extractKey | extractAt | clear | rehash | reserve | find => trivial
  have hbelow := ((below_upheld ample_default).resilient.op op fun z hz => absurd hz (hset z)).post
    hs.below
  have hsizable : SizableIn s.table op := hs.ample.sizableIn hs.size_le hrequested
  have hplain := (Op.exec_plain (U := Stuck.never) op hs.usable hl hquiet hvalid hmodest hsizable
    hroom).and hbelow
  rw [hop] at hplain
  refine (Action.Post.of_map hplain).mono ?_ (fun _ h => h.1) fun _ h => h
  rintro a s' ⟨⟨hplayable, hl', hanswers⟩, hbelow'⟩
  refine ⟨⟨?_, hbelow'⟩, hplayable.keyEqual, hl', hanswers⟩
  unfold WellKept
  rwa [hplayable.keyEqual]

/-- A call of a driver that changes the container, then the rest. -/
theorem passes_change {op : Op τ} {x : Exec τ α} {g : α → Reply τ} {f : α → Checked (World τ) β}
    (hop : op.exec = x >>= fun a => pure (g a)) (h : Mirrors i equal l t w)
    (hvalid : ValidIn t op) (hset : ∀ z, op ≠ .maxLoadFactor z)
    (hrequested : requested op ≤ 2 ^ 24) (hroom : (mapAfter t l op).length + 2 ≤ 2 ^ 24)
    (hf : ∀ a t' w', Answers t t' l (mapAfter t l op) (g a) op →
      Mirrors i equal (mapAfter t l op) t' w' → (∀ k, k ≠ i → w'.table? k = w.table? k) →
      Checked.Passes (f a) w' Q) :
    Checked.Passes (on i x >>= f) w Q := by
  have h' := h.undisturbed
  refine Checked.Passes.bind (passes_calling (Q := fun a w' => ∃ t',
    Answers t t' l (mapAfter t l op) (g a) op ∧ Mirrors i equal (mapAfter t l op) t' w' ∧
      ∀ k, k ≠ i → w'.table? k = w.table? k) ?_) ?_
  · refine post_onTable (fun t1 ht1 => ?_) fun hnone => absurd hnone (by rw [h'.table]; simp)
    cases h'.table.symm.trans ht1
    refine (post_call hop (h'.serviceable i t h'.table) h'.represents rfl hvalid hset hrequested
      hroom).mono ?_ (fun _ h1 => h1) fun _ h1 => h1
    rintro a s' ⟨hs', hequal, hl', hanswers⟩
    refine ⟨s'.table, hanswers, ⟨?_, table?_withStore_self h'.table s', hequal.trans h'.keyEqual,
      hl'⟩, fun k hk => table?_withStore_of_ne (Ne.symm hk) s'⟩
    exact eachTable_withStore h'.table h'.serviceable hs' fun _ _ _ h1 => h1
  · rintro a w' ⟨t', hanswers, hw', hothers⟩
    exact hf a t' w' hanswers hw' hothers

/-! ## Statements -/

theorem roomy_of_serviceable (hw : Everywhere Serviceable w) : (asMaps w).Roomy := by
  intro o ho a ha
  obtain ⟨o', ho', rfl⟩ := List.mem_map.mp ho
  obtain ⟨t, rfl, rfl⟩ := Option.map_eq_some_iff.mp ha
  obtain ⟨k, hk⟩ := List.getElem?_of_mem ho'
  have ht : w.table? k = some t := by
    unfold World.table?
    rw [hk]
    rfl
  have hu := (hw k t ht).usable
  show (contents t).length + 2 ≤ 2 ^ 24
  rw [hu.wellFormed.consistent.length_contents]
  exact hu.room

theorem Roomy.setMap {o : Option (MapObject τ)} (h : m.Roomy)
    (ho : ∀ a ∈ o, a.entries.length + 2 ≤ 2 ^ 24) : (m.setMap i o).Roomy := by
  intro a ha
  rcases List.mem_or_eq_of_mem_set ha with h' | rfl
  · exact h a h'
  · exact ho

theorem Roomy.addMap {a : MapObject τ} (h : m.Roomy) (ha : a.entries.length + 2 ≤ 2 ^ 24) :
    (m.addMap a).Roomy := by
  intro o ho
  rcases List.mem_append.mp ho with h' | h'
  · exact h o h'
  · cases List.mem_singleton.mp h'
    rintro b ⟨⟩
    exact ha

/-- A statement of a driver whose arguments designate objects. -/
theorem post_statement (op : WorldOp τ) (hw : Everywhere Serviceable w)
    (hafter : (asMaps w).after op = some m) (hroom : m.Roomy) (hlaw : LawfulFunctors op)
    (hset : setsFactor op = false) (hlocated : WorldOp.located w op = op)
    (hsizable : Sizable w op) (hhands : HandsOver w op) :
    Action.Post Stuck.never op.exec (undisturbedWorld w)
      (fun _ w' => asMaps w' = m ∧ Everywhere Serviceable w') fun _ => False := by
  have hfactor : FactorAtMostOne op := by
    cases op with
    | table i op =>
        cases op with
        | maxLoadFactor z => cases hset
        | insert | tryEmplace | insertOrAssign | assign | eraseKey | eraseAt | eraseRange
        | extractKey | extractAt | clear | rehash | reserve | find => trivial
    | construct | constructRange | copyConstruct | copyConstructWith | moveConstruct
    | moveConstructWith | destroy | copyAssign | moveAssign | assignValues | swap | merge
    | insertHandle | handleDefault | handleMove | handleAssign | handleSwap | handleDestroy =>
        trivial
  obtain ⟨w', hrun, hmaps, husable⟩ := perform_means (fun k t ht => (hw k t ht).usable) hafter
    hroom hlaw hfactor hsizable hhands
  have hexec : op.exec.run (undisturbedWorld w) = (.ok (), w') := by
    rw [← hlocated]
    exact hrun
  have hbelow : Everywhere (Below (kDefaultMaxLoadFactor τ.rounding) 0) w' :=
    @step_below τ w w' ⟨op, none⟩ hset (fun k t ht => (hw k t ht).below) (Or.inl hexec)
  exact Action.Post.of_run_ok hexec ⟨hmaps, fun k t ht => ⟨husable k t ht, hbelow k t ht⟩⟩

/-- The statement, then the rest. -/
theorem passes_statement (op : WorldOp τ) {f : Unit → Checked (World τ) β}
    (hw : Everywhere Serviceable w) (hafter : (asMaps w).after op = some m) (hroom : m.Roomy)
    (hlaw : LawfulFunctors op) (hset : setsFactor op = false)
    (hlocated : WorldOp.located w op = op) (hsizable : Sizable w op) (hhands : HandsOver w op)
    (hf : ∀ w', asMaps w' = m → Everywhere Serviceable w' → Checked.Passes (f ()) w' Q) :
    Checked.Passes (calling op.exec >>= f) w Q :=
  (passes_calling (post_statement op hw hafter hroom hlaw hset hlocated hsizable
    hhands)).bind
    fun _ w' ⟨hm, hw'⟩ => hf w' hm hw'

/-- A statement whose result is used, as far as `P` says what it is, then the rest. -/
theorem passes_result (op : WorldOp τ) {x : Action (World τ) α} {P : α → Prop}
    {f : α → Checked (World τ) β} (hop : op.exec = ignoring x)
    (hP : Action.Post Stuck.anyhow x (undisturbedWorld w) (fun a _ => P a) fun _ => True)
    (hw : Everywhere Serviceable w) (hafter : (asMaps w).after op = some m) (hroom : m.Roomy)
    (hlaw : LawfulFunctors op) (hset : setsFactor op = false)
    (hlocated : WorldOp.located w op = op) (hsizable : Sizable w op) (hhands : HandsOver w op)
    (hf : ∀ a w', P a → asMaps w' = m → Everywhere Serviceable w' → Checked.Passes (f a) w' Q) :
    Checked.Passes (calling x >>= f) w Q := by
  have hpost := post_statement op hw hafter hroom hlaw hset hlocated hsizable hhands
  rw [hop] at hpost
  have hboth := (Action.Post.of_map (g := fun _ => ()) hpost).and hP
  refine (passes_calling (hboth.mono (fun _ _ h => h) (fun _ h => h.1) fun _ h => h)).bind ?_
  rintro a w' ⟨⟨hm, hw'⟩, ha⟩
  exact hf a w' ha hm hw'

theorem construct_index (n : ℕ) (hash : τ.Key → UInt64) (alloc : τ.Alloc) :
    Action.Post Stuck.anyhow (construct n hash equal alloc) w (fun j _ => j = w.tables.length)
      fun _ => True := by
  unfold construct
  rw [post_newTable]
  exact Action.Post.bind (Action.Post.any _ _) (fun _ h => h) fun _ _ _ => rfl

theorem copyConstruct_index (j : ℕ) :
    Action.Post Stuck.anyhow (copyConstruct j) w (fun k _ => k = w.tables.length)
      fun _ => True := by
  unfold copyConstruct
  refine post_readTable (fun _ _ => ?_) fun _ => trivial
  unfold copyConstructWith
  refine post_readTable (fun _ _ => ?_) fun _ => trivial
  rw [post_newTable]
  exact Action.Post.bind (Action.Post.any _ _) (fun _ h => h) fun _ _ _ => rfl

/-! ## There and back -/

theorem Mirrors.map? (h : Mirrors i equal l t w) : (asMaps w).map? i = some (asMap t) := by
  rw [map?_asMaps, h.table]
  rfl

theorem table_of_map? {o : MapObject τ} (h : (asMaps w).map? i = some o) :
    ∃ t, w.table? i = some t ∧ asMap t = o := by
  rw [map?_asMaps] at h
  exact Option.map_eq_some_iff.mp h

theorem MapWorld.onMap_eq {a : MapObject τ} (h : m.map? i = some a)
    (f : MapObject τ → Option (MapWorld τ)) : m.onMap i f = f a := by
  unfold MapWorld.onMap
  rw [h]
  rfl

theorem MapWorld.onMaps_eq {a b : MapObject τ} {j : ℕ} (hi : m.map? i = some a)
    (hj : m.map? j = some b) (hne : i ≠ j)
    (f : MapObject τ → MapObject τ → Option (MapWorld τ)) : m.onMaps i j f = f a b := by
  unfold MapWorld.onMaps
  rw [MapWorld.onMap_eq hi, MapWorld.onMap_eq hj, if_neg hne]

/-- The container holds some entries again, wherever they have been. -/
theorem mirrors_of_map? {o : MapObject τ} (hw : Everywhere Serviceable w)
    (hmap : (asMaps w).map? i = some o) (hequal : o.keyEqual = equal) (hl : o.entries.Perm l) :
    ∃ t, Mirrors i equal l t w := by
  obtain ⟨t, ht, rfl⟩ := table_of_map? hmap
  exact ⟨t, hw, ht, hequal, hl⟩

theorem Mirrors.lt (h : Mirrors i equal l t w) : i < w.tables.length := lt_of_join_eq_some h.table

theorem Mirrors.room (h : Mirrors i equal l t w) : (contents t).length + 2 ≤ 2 ^ 24 := by
  rw [h.playable.wellFormed.consistent.length_contents]
  exact h.playable.room

/-- The end of another container. -/
theorem passes_destroy {j : ℕ} {b : MapObject τ} {o : Option (MapObject τ)}
    (hw : Everywhere Serviceable w) (hi : (asMaps w).map? i = o)
    (hj : (asMaps w).map? j = some b) (hne : i ≠ j) :
    Checked.Passes (calling (destroy j)) w fun _ w' =>
      (asMaps w').map? i = o ∧ Everywhere Serviceable w' := by
  refine Checked.Passes.mono (passes_calling (post_statement (.destroy j) hw
    (MapWorld.onMap_eq hj _) (Roomy.setMap (roomy_of_serviceable hw) fun _ h => by cases h)
    trivial rfl rfl trivial trivial)) ?_
  rintro ⟨⟩ w' ⟨hm, hw'⟩
  refine ⟨?_, hw'⟩
  rw [hm, MapWorld.map?_setMap _ _ (lt_of_join_eq_some hj), if_neg hne, hi]

/-- A container that is copied and assigned back. -/
theorem passes_copyRoundTrip {same : ℕ → ℕ → Action (World τ) Bool} (h : Mirrors i equal l t w)
    (hsame : ∀ (w' : World τ) j a b, w'.heap.fault = none → w'.table? j = some a →
      w'.table? i = some b → WellKept a → WellKept b → contents a = contents b →
      (same j i).run w' = (.ok true, w')) :
    Checked.Passes (copyRoundTrip same i) w fun _ w' => ∃ t', Mirrors i equal l t' w' := by
  have hroomy := roomy_of_serviceable h.serviceable
  have hlen := length_maps_asMaps w
  have hne : i ≠ w.tables.length := h.lt.ne
  -- the copy is a new object behind all others
  have hafter1 : (asMaps w).after (.copyConstruct i) = some ((asMaps w).addMap
      { asMap t with allocator := τ.selectOnCopy (asMap t).allocator }) :=
    MapWorld.onMap_eq h.map? _
  have hroom1 := Roomy.addMap (a := { asMap t with
    allocator := τ.selectOnCopy (asMap t).allocator }) hroomy h.room
  refine passes_result (.copyConstruct i) rfl (copyConstruct_index i) h.serviceable hafter1 hroom1
    trivial rfl rfl (fun u hu => (h.serviceable i u hu).copyable) trivial ?_
  rintro _ w1 rfl hm1 hw1
  have hcopy : (asMaps w1).map? w.tables.length =
      some { asMap t with allocator := τ.selectOnCopy (asMap t).allocator } := by
    rw [hm1, MapWorld.map?_addMap, hlen, if_pos rfl]
  have horiginal : (asMaps w1).map? i = some (asMap t) := by
    rw [hm1, MapWorld.map?_addMap, hlen, if_neg hne, h.map?]
  obtain ⟨a, ha, hamap⟩ := table_of_map? hcopy
  obtain ⟨b, hb, hbmap⟩ := table_of_map? horiginal
  have hcontents : contents a = contents b :=
    (congrArg MapObject.entries hamap).trans (congrArg MapObject.entries hbmap).symm
  have hcompared := hsame (undisturbedWorld w1) _ a b rfl ha hb (hw1 _ a ha).usable
    (hw1 _ b hb).usable hcontents
  refine (passes_calling (Q := fun r w' => r = true ∧ w' = undisturbedWorld w1)
    (Action.Post.of_run_ok hcompared ⟨rfl, rfl⟩)).bind ?_
  rintro r w2 ⟨rfl, rfl⟩
  refine Checked.Passes.check_bind rfl ?_
  -- the assignment gives the original the entries that it has
  have hlt1 : i < (asMaps w1).maps.length := lt_of_join_eq_some horiginal
  have hafter2 := MapWorld.onMaps_eq horiginal hcopy hne fun a b : MapObject τ =>
    some ((asMaps w1).setMap i
      (some { b with allocator := if τ.pocca then b.allocator else a.allocator }))
  have hroom2 := Roomy.setMap (m := asMaps w1) (i := i) (o := some { asMap t with
    allocator := if τ.pocca then τ.selectOnCopy (asMap t).allocator else (asMap t).allocator })
    (by rw [hm1]; exact hroom1) (by rintro o ⟨⟩; exact h.room)
  refine passes_statement (w := undisturbedWorld w1) (.copyAssign i w.tables.length) hw1 hafter2
    hroom2 trivial rfl rfl (fun _ u hu => (hw1 _ u hu).copyable) trivial fun w3 hm3 hw3 => ?_
  have hmap3 : ∀ k, (asMaps w3).map? k = if k = i then some { asMap t with
      allocator := if τ.pocca then τ.selectOnCopy (asMap t).allocator else (asMap t).allocator }
      else (asMaps w1).map? k := fun k => by rw [hm3, MapWorld.map?_setMap _ _ hlt1]
  -- the copy is not there any more
  have hcopy3 := (hmap3 w.tables.length).trans (if_neg hne.symm) |>.trans hcopy
  refine (passes_destroy hw3 ((hmap3 i).trans (if_pos rfl)) hcopy3 hne).mono ?_
  rintro ⟨⟩ w4 ⟨hi4, hw4⟩
  exact mirrors_of_map? hw4 hi4 h.keyEqual h.represents

/-- One of two swaps. -/
theorem passes_swap {j : ℕ} {a b : MapObject τ} {f : Unit → Checked (World τ) β}
    (hw : Everywhere Serviceable w) (hi : (asMaps w).map? i = some a)
    (hj : (asMaps w).map? j = some b) (hne : i ≠ j) (halloc : ∀ a b : τ.Alloc, a = b)
    (hf : ∀ w', (asMaps w').map? i = some b → (asMaps w').map? j = some a →
      Everywhere Serviceable w' → Checked.Passes (f ()) w' Q) :
    Checked.Passes (calling (swap i j) >>= f) w Q := by
  have hroomy := roomy_of_serviceable hw
  have hlti : i < (asMaps w).maps.length := lt_of_join_eq_some hi
  have hltj : j < ((asMaps w).setMap i (some b)).maps.length := by
    rw [MapWorld.length_setMap]
    exact lt_of_join_eq_some hj
  have hafter : (asMaps w).after (.swap i j) =
      some (((asMaps w).setMap i (some b)).setMap j (some a)) :=
    (MapWorld.onMaps_eq hi hj hne _).trans (if_pos (Or.inr (halloc _ _)))
  have hroom : (((asMaps w).setMap i (some b)).setMap j (some a)).Roomy :=
    Roomy.setMap (Roomy.setMap hroomy (by rintro o ⟨⟩; exact hroomy.length hj))
      (by rintro o ⟨⟩; exact hroomy.length hi)
  refine passes_statement (.swap i j) hw hafter hroom trivial rfl rfl trivial
    (fun _ _ _ _ _ => Or.inr ⟨halloc _ _, halloc _ _⟩) fun w' hm hw' => ?_
  refine hf w' ?_ ?_ hw'
  · rw [hm, MapWorld.map?_setMap _ _ hltj, if_neg hne, MapWorld.map?_setMap _ _ hlti, if_pos rfl]
  · rw [hm, MapWorld.map?_setMap _ _ hltj, if_pos rfl]

/-- The end of a node. -/
theorem passes_destroyHandle {n : ℕ} {v : Option τ.Value} {o : Option (MapObject τ)}
    (hw : Everywhere Serviceable w) (hi : (asMaps w).map? i = o)
    (hn : (asMaps w).node? n = some v) :
    Checked.Passes (calling (destroyHandle n)) w fun _ w' =>
      (asMaps w').map? i = o ∧ Everywhere Serviceable w' := by
  refine Checked.Passes.mono (passes_calling (post_statement (.handleDestroy n) hw
    (m := (asMaps w).setNode n none) ?_ (roomy_of_serviceable hw) trivial rfl rfl trivial
    trivial)) ?_
  · show ((asMaps w).node? n).map _ = _
    rw [hn]
    rfl
  · rintro ⟨⟩ w' ⟨hm, hw'⟩
    refine ⟨?_, hw'⟩
    rw [hm]
    exact hi

/-- A container that is swapped away and back. -/
theorem passes_swapRoundTrip {hash : τ.Key → UInt64} {fill : ℕ → Checked (World τ) Unit}
    (h : Mirrors i equal l t w) (hlaw : Lawful hash equal) (halloc : ∀ a b : τ.Alloc, a = b)
    (hfill : ∀ w' j u, Mirrors j equal [] u w' → Checked.Passes (fill j) w' fun _ w'' =>
      Everywhere Serviceable w'' ∧ (w''.table? j).isSome ∧
        ∀ k, k ≠ j → w''.table? k = w'.table? k) :
    Checked.Passes (swapRoundTrip hash equal fill i) w fun _ w' =>
      ∃ t', Mirrors i equal l t' w' := by
  have hlen := length_maps_asMaps w
  have hne : i ≠ w.tables.length := h.lt.ne
  refine passes_result (.construct 0 hash equal τ.defaultAlloc) rfl
    (construct_index 0 hash _) h.serviceable rfl
    (Roomy.addMap (roomy_of_serviceable h.serviceable) (by norm_num)) hlaw rfl rfl
    (Nat.zero_le _) trivial ?_
  rintro _ w1 rfl hm1 hw1
  have hother : (asMaps w1).map? w.tables.length = some ⟨[], equal, τ.defaultAlloc⟩ := by
    rw [hm1, MapWorld.map?_addMap, hlen, if_pos rfl]
  obtain ⟨u, hu⟩ := mirrors_of_map? hw1 hother rfl (List.Perm.refl _)
  refine (hfill w1 _ u hu).bind ?_
  rintro ⟨⟩ w2 ⟨hw2, hfilled, hothers⟩
  have hi2 : (asMaps w2).map? i = some (asMap t) := by
    rw [map?_asMaps, hothers i hne, ← map?_asMaps, hm1, MapWorld.map?_addMap, hlen, if_neg hne,
      h.map?]
  have hj2 : (asMaps w2).map? w.tables.length =
      some (asMap ((w2.table? w.tables.length).get hfilled)) := by
    rw [map?_asMaps]
    exact congrArg (Option.map asMap) (Option.some_get hfilled).symm
  refine passes_swap hw2 hi2 hj2 hne halloc fun w3 hi3 hj3 hw3 => ?_
  refine passes_swap hw3 hi3 hj3 hne halloc fun w4 hi4 hj4 hw4 => ?_
  refine (passes_destroy hw4 hi4 hj4 hne).mono ?_
  rintro ⟨⟩ w5 ⟨hi5, hw5⟩
  exact mirrors_of_map? hw5 hi5 h.keyEqual h.represents

theorem length_remove_le (equal : τ.Key → τ.Key → Bool) (key : τ.Key) (l : List τ.Value) :
    (remove τ.keyOf equal key l).length ≤ l.length := by
  unfold remove
  split
  · rw [SwapRemove.length_swapRemove]
    exact Nat.sub_le _ _
  · exact le_rfl

theorem post_extractKey (key : τ.Key) (hs : Serviceable s.table) (hquiet : s.heap.fault = none) :
    Action.Post Stuck.never (extractKey key) s (fun handle s' => Serviceable s'.table ∧
      held handle = lookup τ.keyOf s.table.keyEqual key (contents s.table) ∧
      asMap s'.table = { asMap s.table with
        entries := remove τ.keyOf s.table.keyEqual key (contents s.table) }) fun _ => False := by
  have hroom : (contents s.table).length + 2 ≤ 2 ^ 24 := by
    rw [hs.usable.wellFormed.consistent.length_contents]
    exact hs.usable.room
  have hle := length_remove_le s.table.keyEqual key (contents s.table)
  have hbelow := ((below_upheld ample_default).resilient.op (.extractKey key)
    fun z hz => by cases hz).post hs.below
  have hmeans := (Op.exec_means (U := Stuck.never) (.extractKey key) hs.usable hquiet rfl trivial
    trivial (by
      show (remove τ.keyOf s.table.keyEqual key (contents s.table)).length + 2 ≤ _
      omega)).and hbelow
  refine (Action.Post.of_map (x := extractKey key) hmeans).mono ?_ (fun _ h => h.1) fun _ h => h
  rintro handle s' ⟨⟨hplayable, hnode, hmap⟩, hbelow'⟩
  refine ⟨⟨?_, hbelow'⟩, Option.some.inj hnode, hmap⟩
  unfold WellKept
  rwa [hplayable.keyEqual]

/-- A node that goes into the container. -/
theorem passes_insertHandle {n : ℕ} {v : τ.Value} {a : MapObject τ} {f : ℕ × Bool →
    Checked (World τ) β} (hw : Everywhere Serviceable w) (hi : (asMaps w).map? i = some a)
    (hn : (asMaps w).node? n = some (some v))
    (hroom : (enter τ.keyOf a.keyEqual v a.entries).length + 2 ≤ 2 ^ 24)
    (hf : ∀ r w', (asMaps w').map? i =
        some { a with entries := enter τ.keyOf a.keyEqual v a.entries } →
      (asMaps w').node? n = some none → Everywhere Serviceable w' → Checked.Passes (f r) w' Q) :
    Checked.Passes (calling (insertHandle true i n) >>= f) w Q := by
  have hafter : (asMaps w).after (.insertHandle true i n) = some (((asMaps w).setMap i
      (some { a with entries := enter τ.keyOf a.keyEqual v a.entries })).setNode n
        (some none)) := by
    show (asMaps w).onMap i _ = _
    rw [MapWorld.onMap_eq hi, hn]
    rfl
  have hroomy : ((asMaps w).setMap i
      (some { a with entries := enter τ.keyOf a.keyEqual v a.entries })).Roomy :=
    Roomy.setMap (roomy_of_serviceable hw) (by rintro o ⟨⟩; exact hroom)
  refine passes_result (P := fun _ => True) (.insertHandle true i n) rfl (Action.Post.any _ _) hw
    hafter hroomy trivial rfl rfl trivial trivial ?_
  rintro r w' - hm hw'
  refine hf r w' ?_ ?_ hw'
  · rw [hm]
    exact (MapWorld.map?_setMap _ _ (lt_of_join_eq_some hi)).trans (if_pos rfl)
  · rw [hm]
    show ((asMaps w).nodes.set n (some none))[n]?.join = _
    rw [List.getElem?_set_self (lt_of_join_eq_some hn)]
    rfl

/-- A node object behind all others. -/
theorem passes_newHandle {handle : Handle τ} {o : Option (MapObject τ)}
    {f : ℕ → Checked (World τ) β} (hw : Everywhere Serviceable w) (hi : (asMaps w).map? i = o)
    (hf : ∀ n w', (asMaps w').map? i = o → (asMaps w').node? n = some (held handle) →
      Everywhere Serviceable w' → Checked.Passes (f n) w' Q) :
    Checked.Passes (calling (newHandle handle) >>= f) w Q := by
  have hnode : (asMaps { undisturbedWorld w with handles := w.handles ++ [some handle] }).node?
      w.handles.length = some (held handle) := by
    rw [node?_asMaps]
    show Option.map held (w.handles ++ [some handle])[w.handles.length]?.join = _
    rw [List.getElem?_append_right le_rfl, Nat.sub_self]
    rfl
  have hnew : Action.Post Stuck.never (newHandle handle) (undisturbedWorld w)
      (fun n w' => (asMaps w').map? i = o ∧ (asMaps w').node? n = some (held handle) ∧
        Everywhere Serviceable w') fun _ => False := Action.Post.of_run_ok rfl ⟨hi, hnode, hw⟩
  refine (passes_calling hnew).bind ?_
  rintro n w' ⟨hi, hn, hw'⟩
  exact hf n w' hi hn hw'

/-- An element that is extracted and put in again. -/
theorem passes_extractRoundTrip (h : Mirrors i equal l t w) :
    Checked.Passes (extractRoundTrip i key (lookup τ.keyOf equal key l).isSome.toNat) w
      fun _ w' => ∃ t', Mirrors i equal l t' w' := by
  have h' := h.undisturbed
  have hcomparison : Comparison equal := by
    have hlaw := h.playable.lawful.comparison
    rwa [h.keyEqual] at hlaw
  have hdistinct : DenseMap.Distinct τ.keyOf equal (contents t) :=
    distinct_perm h.represents.symm h.distinct
  rw [isSome_lookup, ← present_perm h.represents, ← isSome_lookup]
  refine Checked.Passes.bind (passes_calling (Q := fun handle w1 =>
    held handle = lookup τ.keyOf equal key (contents t) ∧ Everywhere Serviceable w1 ∧
    ∃ a, (asMaps w1).map? i = some a ∧ a.keyEqual = equal ∧
      a.entries = remove τ.keyOf equal key (contents t)) ?_) ?_
  · refine post_onTable (fun t1 ht1 => ?_) fun hnone => absurd hnone (by rw [h'.table]; simp)
    cases h'.table.symm.trans ht1
    refine (post_extractKey (s := ⟨t, (undisturbedWorld w).heap⟩) key
      (h'.serviceable i t h'.table) rfl).mono ?_ (fun _ h1 => h1) fun _ h1 => h1
    rintro handle s' ⟨hs', hheld, hmap⟩
    rw [h.keyEqual] at hheld hmap
    refine ⟨hheld, eachTable_withStore h'.table h'.serviceable hs' fun _ _ _ h1 => h1,
      asMap s'.table, ?_, (congrArg MapObject.keyEqual hmap).trans h.keyEqual,
      congrArg MapObject.entries hmap⟩
    rw [map?_asMaps, table?_withStore_self h'.table]
    rfl
  rintro handle w1 ⟨hheld, hw1, a, hi1, hequal, hentries⟩
  refine passes_newHandle hw1 hi1 fun n w2 hi2 hn2 hw2 => ?_
  have hsome : handle.value.isSome = (lookup τ.keyOf equal key (contents t)).isSome := by
    rw [← hheld, held, Option.isSome_map]
  rw [hsome]
  cases hentered : lookup τ.keyOf equal key (contents t) with
  | none =>
      refine Checked.Passes.check_bind rfl ((passes_destroyHandle hw2 hi2 hn2).mono ?_)
      rintro ⟨⟩ w3 ⟨hi3, hw3⟩
      refine mirrors_of_map? hw3 hi3 hequal ?_
      rw [hentries, remove_of_lookup hentered]
      exact h.represents
  | some v =>
      have hperm : (enter τ.keyOf a.keyEqual v a.entries).Perm (contents t) := by
        rw [hequal, hentries]
        exact enter_remove_perm hcomparison hdistinct hentered
      rw [hheld, hentered] at hn2
      refine Checked.Passes.check_bind rfl ?_
      refine passes_insertHandle hw2 hi2 hn2 (by rw [hperm.length_eq]; exact h.room) ?_
      rintro r w3 hi3 hn3 hw3
      refine (passes_destroyHandle hw3 hi3 hn3).mono ?_
      rintro ⟨⟩ w4 ⟨hi4, hw4⟩
      exact mirrors_of_map? hw4 hi4 hequal (hperm.trans h.represents)

end Fum.Interface

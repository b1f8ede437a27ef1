import Fum.Analysis.Statements

/-!
# Copies, assignments, exchanges and merges keep the accounts

The statements in which two tables take part. A table that is torn down or cleared owns
nothing, and then takes over or copies what the other one owns.
-/

set_option autoImplicit false

namespace Fum.Analysis

open Fum.Model Effects

variable {τ : Traits} {α β : Type} {lost lost' : Holdings} {w w' : World τ} {i j : ℕ}
  {t : Table τ} {s : Store τ}

/-! ## A change of one table -/

/-- The other tables are untouched. -/
def Elsewhere (i : ℕ) (w w' : World τ) : Prop := ∀ j, i ≠ j → w'.table? j = w.table? j

theorem elsewhere_withStore (w : World τ) (i : ℕ) (s : Store τ) :
    Elsewhere i w (withStore w i s) := fun _ hne => table?_withStore_of_ne hne s

theorem Elsewhere.atMost {n : ℕ} (h : Elsewhere i w w') (hne : i ≠ j) (hn : AtMost w j n) :
    AtMost w' j n := by
  intro t ht
  rw [h j hne] at ht
  exact hn t ht

/-- A table that owns nothing. -/
def Vacant (i : ℕ) (w : World τ) : Prop := ∃ t, w.table? i = some t ∧ tableOwns t = 0

/-- A change of the load factor, the functors or the allocator of one table. -/
theorem post_retable {U : Stuck → Prop} {f : Table τ → Table τ} {k : Unit → Action (World τ) β}
    {Q : β → World τ → Prop} {E : World τ → Prop} (h : WorldSound lost w)
    (ht : w.table? i = some t) (hf : SameArena t (f t)) (hids : arrayIds (f t) = arrayIds t)
    (hk : ∀ w', WorldAccounts lost w w' → w'.heap = w.heap → w'.table? i = some (f t) →
      Elsewhere i w w' → Action.Post U (k ()) w' Q E) :
    Action.Post U (onTable i (modifyTable f) >>= k) w Q E := by
  refine post_modify_onTable ht ?_
  exact hk _ ⟨h.store ht (Sound.retable (h.table ht) hf hids), rfl⟩ rfl
    (table?_withStore_self ht _) (elsewhere_withStore w i _)

/-- A cleared table has no elements. -/
theorem post_clear {k : Unit → Action (World τ) β}
    {Q : β → World τ → Prop} {E : World τ → Prop} (h : WorldSound lost w)
    (hk : ∀ w' t', WorldAccounts lost w w' → w'.table? i = some t' → t'.iteration = [] →
      Elsewhere i w w' → Action.Post Stuck.anyhow (k ()) w' Q E) :
    Action.Post Stuck.anyhow (onTable i clear >>= k) w Q E := by
  refine post_onTable_bind (fun t ht => ?_) fun _ => trivial
  refine (clear_sound (h.table ht)).mono ?_ (fun _ h' => h'.elim) fun _ h' => h'
  rintro ⟨⟩ s' ⟨h', hiter, -⟩
  exact hk _ s'.table (h.accounts ht h') (table?_withStore_self ht s') hiter
    (elsewhere_withStore w i s')

/-- A table that is torn down and reset owns nothing. -/
theorem post_teardown {f : Table τ → Table τ} {k : Unit → Action (World τ) β}
    {Q : β → World τ → Prop} {E : World τ → Prop} (h : WorldSound lost w)
    (hf : ∀ t, SameArena t.resetToEmptyState (f t) ∧ arrayIds (f t) = [])
    (hk : ∀ w', WorldAccounts lost w w' → AtMost w' i 0 → Vacant i w' → Elsewhere i w w' →
      Action.Post Stuck.anyhow (k ()) w' Q E) :
    Action.Post Stuck.anyhow
      (onTable i destroyEverything >>= fun _ => onTable i (modifyTable f) >>= k) w Q E := by
  refine post_onTable_bind (fun t ht => ?_) fun _ => trivial
  refine (destroyEverything_sound (h.table ht)).mono ?_ (fun _ h' => h'.elim) fun _ h' => h'
  rintro ⟨⟩ s' ⟨hb, hbuckets, hchunks, -, hfault⟩
  refine post_modify_onTable (table?_withStore_self ht s') ?_
  rw [show withStore (withStore w i s') i ⟨f s'.table, (withStore w i s').heap⟩ =
    withStore w i ⟨f s'.table, s'.heap⟩ from withStore_withStore ..]
  obtain ⟨ha, hids⟩ := hf s'.table
  have hsound : SoundTable (restOf w i + lost) ⟨f s'.table, s'.heap⟩ :=
    Sound.retable (s := ⟨s'.table.resetToEmptyState, s'.heap⟩) (Sound.reset hb hchunks) ha hids
  have hiter : (f s'.table).iteration = [] := ha.iteration
  have hself := table?_withStore_self ht ⟨f s'.table, s'.heap⟩
  refine hk _ ⟨h.store ht hsound, congrArg faultPoint hfault⟩ ?_ ⟨_, hself, ?_⟩
    (elsewhere_withStore w i _)
  · refine atMost_withStore ht ?_
    unfold Table.size
    rw [hiter]
    exact le_rfl
  · unfold tableOwns owns elementIds
    rw [hiter, ha.chunkIds, hids]
    show (⟨_, ↑(chunkIds s'.table), _, _⟩ : Holdings) = 0
    unfold chunkIds
    rw [hchunks]
    rfl

/-! ## New objects from old ones -/

theorem initial_atMost (w : World τ) (factor : LoadFactor τ.rounding) (hash : τ.Key → UInt64)
    (equal : τ.Key → τ.Key → Bool) (alloc : τ.Alloc) :
    AtMost { w with tables := w.tables ++ [some (Table.initial factor hash equal alloc)] }
      w.tables.length 0 := by
  intro t ht
  rw [table?_newTable] at ht
  cases ht
  exact le_rfl

theorem table?_append_of_some (ht : w.table? i = some t) (t' : Table τ) :
    ({ w with tables := w.tables ++ [some t'] } : World τ).table? i = some t := by
  have hlt := lt_of_join_eq_some ht
  rw [table?_append, if_neg (by omega)]
  exact ht

theorem copyConstructWith_sound (source : ℕ) (alloc : τ.Alloc) (h : WorldSound lost w)
    (hmax : AtMost w source maxSize) (hcalls : CallsReturn w.heap.fault) :
    Action.Post Stuck.anyhow (copyConstructWith source alloc) w (fun _ => WorldAccounts lost w)
      (WorldThrown lost (AtFirstAllocation w.heap.fault)) := by
  unfold copyConstructWith
  refine post_readTable (fun other hother => ?_) fun _ => trivial
  rw [post_newTable]
  obtain ⟨hs, hf, howns⟩ :=
    initial_sound other.maxLoadFactor other.hashFunction other.keyEqual alloc
  have h1 := h.newTable hs hf howns
  have hmax1 : ∀ t', ({ w with tables := w.tables ++ [some (Table.initial other.maxLoadFactor
      other.hashFunction other.keyEqual alloc)] } : World τ).table? source = some t' →
      t'.size ≤ maxSize := by
    intro t' ht'
    rw [table?_append_of_some hother] at ht'
    cases ht'
    exact hmax other hother
  exact buildOrDrop_sound (copyContentsFrom_sound h1 (initial_atMost w _ _ _ _) hmax1 hcalls)
    fun hfirst => copyContentsFrom_first h1 (table?_newTable ..) rfl rfl hfirst

theorem copyConstruct_sound (source : ℕ) (h : WorldSound lost w)
    (hmax : AtMost w source maxSize) (hcalls : CallsReturn w.heap.fault) :
    Action.Post Stuck.anyhow (copyConstruct source) w (fun _ => WorldAccounts lost w)
      (WorldThrown lost (AtFirstAllocation w.heap.fault)) := by
  unfold copyConstruct
  exact post_readTable (fun other _ => copyConstructWith_sound source _ h hmax hcalls)
    fun _ => trivial

/-- Two table objects, of which the first owns nothing: it takes over what the other one
owns. -/
theorem steal_exchange {t' : Table τ} (h : WorldSound lost w) (ht : w.table? i = some t)
    (howns : tableOwns t = 0) {other : Table τ} (hother : w.table? j = some other)
    (hne : i ≠ j) (ha : SameArena other t') (hids : arrayIds t' = arrayIds other) :
    WorldSound lost
      (withStore (withStore w i ⟨t', w.heap⟩) j ⟨other.afterSteal, w.heap⟩) := by
  obtain ⟨hempty, hzero⟩ := afterSteal_sound other
  refine h.exchange ht hother hne (ha.sound (h.tables j other hother)) hempty ?_
  rw [ha.tableOwns hids, hzero, howns, add_zero, zero_add]

theorem moveConstruct_sound (source : ℕ) (h : WorldSound lost w) :
    Action.Post Stuck.anyhow (moveConstruct source) w (fun _ => WorldAccounts lost w)
      (fun _ => False) := by
  unfold moveConstruct
  refine post_readTable (fun other hother => ?_) fun _ => trivial
  rw [post_newTable]
  have hlt := lt_of_join_eq_some hother
  refine post_modify_onTable (table?_append_of_some hother other) ?_
  -- as if the new object had been empty first
  obtain ⟨hs, hf, howns⟩ :=
    initial_sound other.maxLoadFactor other.hashFunction other.keyEqual other.allocator
  have h1 := h.newTable hs hf howns
  have h2 := steal_exchange h1 (table?_newTable ..) howns
    (table?_append_of_some hother _) (Nat.ne_of_gt hlt) (SameArena.refl other) rfl
  refine ⟨?_, rfl⟩
  have heq : withStore { w with tables := w.tables ++ [some (Table.initial other.maxLoadFactor
      other.hashFunction other.keyEqual other.allocator)] } w.tables.length ⟨other, w.heap⟩ =
      { w with tables := w.tables ++ [some other] } := by
    unfold withStore World.setTable
    simp
  rw [heq] at h2
  exact h2

theorem stealStorage_sound (h : WorldSound lost w) (hv : Vacant i w) (hne : i ≠ j) :
    Action.Post Stuck.anyhow (stealStorage i j) w (fun _ => WorldAccounts lost w)
      (fun _ => False) := by
  obtain ⟨t, ht, howns⟩ := hv
  cases hj : w.table? j with
  | none => exact post_readTable (fun o ho => by rw [hj] at ho; cases ho) fun _ => trivial
  | some other =>
      refine post_stealStorage ht hj hne (fun _ => trivial) fun _ => ?_
      exact ⟨steal_exchange h ht howns hj hne ⟨rfl, rfl, rfl, rfl⟩ rfl, rfl⟩

theorem moveConstructWith_sound (source : ℕ) (alloc : τ.Alloc) (h : WorldSound lost w)
    (hmax : AtMost w source maxSize) (hcalls : CallsReturn w.heap.fault) :
    Action.Post Stuck.anyhow (moveConstructWith source alloc) w (fun _ => WorldAccounts lost w)
      (WorldThrown lost (AtFirstAllocation w.heap.fault)) := by
  unfold moveConstructWith
  refine post_readTable (fun other hother => ?_) fun _ => trivial
  rw [post_newTable]
  have hlt := lt_of_join_eq_some hother
  obtain ⟨hs, hf, howns⟩ :=
    initial_sound other.maxLoadFactor other.hashFunction other.keyEqual alloc
  have h1 := h.newTable hs hf howns
  have ht1 := table?_newTable w
    (Table.initial other.maxLoadFactor other.hashFunction other.keyEqual alloc)
  split
  · -- the storage changes hands, and nothing throws
    refine Action.Post.bind (Action.Post.cleanup
      (stealStorage_sound h1 ⟨_, ht1, howns⟩ (Nat.ne_of_gt hlt)) fun _ h' => h'.elim)
      (fun _ h' => h') fun _ _ h' => h'
  · have hmax1 : ∀ t', ({ w with tables := w.tables ++ [some (Table.initial other.maxLoadFactor
        other.hashFunction other.keyEqual alloc)] } : World τ).table? source = some t' →
        t'.size ≤ maxSize := by
      intro t' ht'
      rw [table?_append_of_some hother] at ht'
      cases ht'
      exact hmax other hother
    exact buildOrDrop_sound (moveContentsFrom_sound h1 (initial_atMost w _ _ _ _) hmax1 hcalls)
      fun hfirst => moveContentsFrom_first h1 ht1 rfl rfl hfirst

/-! ## Assignment -/

theorem WorldAccounts.calls (h : WorldAccounts lost w w') (hcalls : CallsReturn w.heap.fault) :
    CallsReturn w'.heap.fault := hcalls.of_point h.2

/-- A call from a world that keeps the accounts of an earlier one keeps them too. -/
theorem WorldAccounts.post {x : Action (World τ) α} (h : WorldAccounts lost w w')
    (hx : Action.Post Stuck.anyhow x w' (fun _ => WorldAccounts lost w')
      (WorldThrown lost (NoChunksGrowth w'.heap.fault))) :
    Action.Post Stuck.anyhow x w' (fun _ => WorldAccounts lost w)
      (WorldThrown lost (NoChunksGrowth w.heap.fault)) := by
  unfold NoChunksGrowth at hx
  rw [h.2] at hx
  exact hx.mono (fun _ w2 h' => ⟨h'.1, h'.2.trans h.2⟩) (fun _ h' => h') fun _ h' => h'

theorem copyAssign_sound (this other : ℕ) (h : WorldSound lost w)
    (hmax : AtMost w other maxSize) (hcalls : CallsReturn w.heap.fault) :
    Action.Post Stuck.anyhow (copyAssign this other) w (fun _ => WorldAccounts lost w)
      (WorldThrown lost (NoChunksGrowth w.heap.fault)) := by
  unfold copyAssign
  by_cases hne : this = other
  · rw [if_pos hne]
    exact ⟨h, rfl⟩
  rw [if_neg hne]
  refine post_readTable (fun source _ => ?_) fun _ => trivial
  refine post_readTable (fun t ht => ?_) fun _ => trivial
  split
  · -- the allocators differ and the other one's is adopted: start afresh
    refine post_teardown h (fun t => ⟨⟨rfl, rfl, rfl, rfl⟩, rfl⟩) fun w1 h1 hn1 _ helse => ?_
    exact h1.post (copyContentsFrom_sound h1.1 hn1 (helse.atMost hne hmax) (h1.calls hcalls))
  · have hsame : SameArena t (if τ.pocca then { t with allocator := source.allocator } else t) := by
      cases τ.pocca <;> exact ⟨rfl, rfl, rfl, rfl⟩
    have hids : arrayIds (if τ.pocca then { t with allocator := source.allocator } else t) =
        arrayIds t := by
      cases τ.pocca <;> rfl
    refine post_retable h ht hsame hids fun w1 h1 _ _ helse1 => ?_
    refine post_clear h1.1 fun w2 t2 h2 ht2 hiter2 helse2 => ?_
    refine post_retable (f := fun t => t.adoptPolicy source) h2.1 ht2 ⟨rfl, rfl, rfl, rfl⟩ rfl
      fun w3 h3 _ ht3 helse3 => ?_
    have haccounts : WorldAccounts lost w w3 := ⟨h3.1, h3.2.trans (h2.2.trans h1.2)⟩
    have hn3 : AtMost w3 this 0 := by
      intro t' ht'
      rw [ht3] at ht'
      cases ht'
      show t2.iteration.length ≤ 0
      rw [hiter2]
      exact le_rfl
    exact haccounts.post (copyContentsFrom_sound h3.1 hn3
      (helse3.atMost hne (helse2.atMost hne (helse1.atMost hne hmax)))
      (haccounts.calls hcalls))

theorem moveAssign_sound (this other : ℕ) (h : WorldSound lost w)
    (hmax : AtMost w other maxSize) (hcalls : CallsReturn w.heap.fault) :
    Action.Post Stuck.anyhow (moveAssign this other) w (fun _ => WorldAccounts lost w)
      (WorldThrown lost (NoChunksGrowth w.heap.fault)) := by
  unfold moveAssign
  by_cases hne : this = other
  · rw [if_pos hne]
    exact ⟨h, rfl⟩
  rw [if_neg hne]
  refine post_readTable (fun source _ => ?_) fun _ => trivial
  refine post_readTable (fun t ht => ?_) fun _ => trivial
  split
  · -- the storage changes hands
    refine post_teardown h (fun t => ?_) fun w1 h1 _ hv _ => ?_
    · cases τ.pocma <;> exact ⟨⟨rfl, rfl, rfl, rfl⟩, rfl⟩
    · refine h1.post ((stealStorage_sound h1.1 hv hne).mono (fun _ _ h' => h')
        (fun _ h' => h'.elim) fun _ h' => h')
  · refine post_clear h fun w1 t1 h1 ht1 hiter1 helse1 => ?_
    refine post_retable (f := fun t => t.adoptPolicy source) h1.1 ht1 ⟨rfl, rfl, rfl, rfl⟩ rfl
      fun w2 h2 _ ht2 helse2 => ?_
    have haccounts : WorldAccounts lost w w2 := ⟨h2.1, h2.2.trans h1.2⟩
    have hn2 : AtMost w2 this 0 := by
      intro t' ht'
      rw [ht2] at ht'
      cases ht'
      show t1.iteration.length ≤ 0
      rw [hiter1]
      exact le_rfl
    exact haccounts.post (moveContentsFrom_sound h2.1 hn2
      (helse2.atMost hne (helse1.atMost hne hmax)) (haccounts.calls hcalls))

theorem assignValues_sound (this : ℕ) (values : List τ.Value) (h : WorldSound lost w)
    (hmax : ∀ done rest w', values = done ++ rest →
      (assignValues this done).run w = (.ok (), w') → Bounded w')
    (hcalls : CallsReturn w.heap.fault) :
    Action.Post Stuck.anyhow (assignValues this values) w (fun _ => WorldAccounts lost w)
      (WorldThrown lost (NoChunksGrowth w.heap.fault)) := by
  unfold assignValues
  refine post_onTable (fun t ht => ?_) fun _ => trivial
  refine Action.Post.bind (clear_sound (h.table ht)).with_run (fun _ h' => h'.1.elim) ?_
  rintro ⟨⟩ s1 ⟨⟨⟨h1, hpoint⟩, -, -⟩, hclear⟩
  have hcalls1 : CallsReturn s1.heap.fault := hcalls.of_point hpoint
  have hfits : ∀ done rest s', values = done ++ rest →
      (insertRange done).run s1 = (.ok (), s') → s'.table.size ≤ maxSize := by
    intro done rest s' hsplit hdone
    have hinner : (clear >>= fun _ => insertRange done).run ⟨t, w.heap⟩ = (.ok (), s') := by
      rw [Action.run_bind_ok _ hclear]
      exact hdone
    have hwhole : (assignValues this done).run w = (.ok (), withStore w this s') := by
      simp only [assignValues, onTable, ht, hinner]
      rfl
    exact hmax done rest _ hsplit hwhole this s'.table (table?_withStore_self ht s')
  refine (insertRange_sound values h1 hfits hcalls1).mono ?_ ?_ fun _ h' => h'
  · exact fun _ s' h' => ⟨h.store ht h'.1, h'.2.trans hpoint⟩
  · intro s' h'
    rw [hpoint] at h'
    exact h.store_thrown ht h'

/-! ## Exchange -/

theorem swap_sound (this other : ℕ) (h : WorldSound lost w) :
    Action.Post Stuck.anyhow (swap this other) w (fun _ => WorldAccounts lost w)
      (fun _ => False) := by
  refine post_swap_any (fun _ => ⟨h, rfl⟩) fun a b ha hb hne => ⟨?_, rfl⟩
  exact h.exchange ha hb hne (h.tables other b hb) (h.tables this a ha) (add_comm _ _)

end Fum.Analysis

import Fum.Analysis.WorldAccounts

/-!
# Every statement keeps the accounts

Constructors, assignments, swap, merge and node handles, assembled from the calls they
make, and the step lemma over all statements of a program.
-/

set_option autoImplicit false

namespace Fum.Analysis

open Fum.Model Effects

variable {τ : Traits} {α β : Type} {lost lost' : Holdings} {w w' : World τ} {i j : ℕ}
  {t : Table τ} {s : Store τ}

/-! ## Worlds with one table replaced -/

theorem withStore_withStore (w : World τ) (i : ℕ) (s s' : Store τ) :
    withStore (withStore w i s) i s' = withStore w i s' := by
  unfold withStore World.setTable
  rw [List.set_set]

theorem table?_withStore_self (ht : w.table? i = some t) (s : Store τ) :
    (withStore w i s).table? i = some s.table := table?_setTable_self ht

theorem table?_withStore_of_ne (hne : i ≠ j) (s : Store τ) :
    (withStore w i s).table? j = w.table? j := table?_setTable_of_ne hne _

/-- A change of one table, then the rest. -/
theorem post_modify_onTable {U : Stuck → Prop} {f : Table τ → Table τ}
    {k : Unit → Action (World τ) β} {Q : β → World τ → Prop} {E : World τ → Prop}
    (ht : w.table? i = some t)
    (hk : Action.Post U (k ()) (withStore w i ⟨f t, w.heap⟩) Q E) :
    Action.Post U (onTable i (modifyTable f) >>= k) w Q E := by
  refine post_onTable_bind (fun t' ht' => ?_) fun hnone => ?_
  · rw [ht] at ht'
    cases ht'
    exact hk
  · rw [ht] at hnone
    cases hnone

/-- The storage of one table goes to another, if the move leaves no chunk behind. -/
theorem post_stealStorage {U : Stuck → Prop} {other : Table τ} {Q : Unit → World τ → Prop}
    {E : World τ → Prop} (ht : w.table? i = some t) (hother : w.table? j = some other)
    (hne : i ≠ j) (hout : ¬ other.givesUpChunks t → U .undefined)
    (hQ : other.givesUpChunks t → Q ()
      (withStore (withStore w i ⟨t.stealStorageFrom other, w.heap⟩) j
        ⟨other.afterSteal, w.heap⟩)) :
    Action.Post U (stealStorage i j) w Q E := by
  unfold stealStorage
  refine post_readTable (fun o ho => ?_) fun hnone => by rw [hother] at hnone; cases hnone
  rw [hother] at ho
  cases ho
  refine post_readTable (fun t1 ht1 => ?_) fun hnone => by rw [ht] at hnone; cases hnone
  rw [ht] at ht1
  cases ht1
  by_cases hgives : other.givesUpChunks t
  · rw [if_pos hgives]
    have hother' : (withStore w i ⟨t.stealStorageFrom other, w.heap⟩).table? j = some other :=
      (table?_withStore_of_ne hne _).trans hother
    refine post_modify_onTable ht (post_onTable (fun t2 ht2 => ?_) fun hnone => ?_)
    · rw [hother'] at ht2
      cases ht2
      exact hQ hgives
    · rw [hother'] at hnone
      cases hnone
  · rw [if_neg hgives]
    exact Action.Post.undefined (hout hgives)

/-- The allocators that an exchange of two tables asks for: they are exchanged as well, or they
are equal, those of the tables and those of the vectors. -/
def Exchangeable (a b : Table τ) : Prop :=
  τ.pocs = true ∨ a.allocator = b.allocator ∧ a.vectorAllocator = b.vectorAllocator

instance (a b : Table τ) : Decidable (Exchangeable a b) :=
  inferInstanceAs (Decidable (_ ∨ _ ∧ _))

/-- Two tables change places. -/
theorem post_swap {U : Stuck → Prop} {a b : Table τ} {Q : Unit → World τ → Prop}
    {E : World τ → Prop} (ha : w.table? i = some a) (hb : w.table? j = some b) (hne : i ≠ j)
    (hout : ¬ Exchangeable a b → U .undefined)
    (hQ : Exchangeable a b → Q () (withStore (withStore w i ⟨b, w.heap⟩) j ⟨a, w.heap⟩)) :
    Action.Post U (swap i j) w Q E := by
  unfold swap
  rw [if_neg hne]
  refine post_readTable (fun a1 ha1 => ?_) fun hnone => by rw [ha] at hnone; cases hnone
  rw [ha] at ha1
  cases ha1
  refine post_readTable (fun b1 hb1 => ?_) fun hnone => by rw [hb] at hnone; cases hnone
  rw [hb] at hb1
  cases hb1
  by_cases hequal : Exchangeable a b
  · have hequal' : τ.pocs = true ∨
        a.allocator = b.allocator ∧ a.vectorAllocator = b.vectorAllocator := hequal
    rw [if_pos hequal']
    have hb' : (withStore w i ⟨b, w.heap⟩).table? j = some b :=
      (table?_withStore_of_ne hne _).trans hb
    refine post_modify_onTable ha (post_onTable (fun t2 ht2 => ?_) fun hnone => ?_)
    · rw [hb'] at ht2
      cases ht2
      exact hQ hequal
    · rw [hb'] at hnone
      cases hnone
  · have hequal' : ¬ (τ.pocs = true ∨
        a.allocator = b.allocator ∧ a.vectorAllocator = b.vectorAllocator) := hequal
    rw [if_neg hequal']
    exact Action.Post.undefined (hout hequal)

/-- What a swap that returns has done: nothing, or two tables have changed places. -/
theorem post_swap_any {Q : Unit → World τ → Prop} {E : World τ → Prop}
    (hself : i = j → Q () w) (hQ : ∀ a b, w.table? i = some a → w.table? j = some b → i ≠ j →
      Q () (withStore (withStore w i ⟨b, w.heap⟩) j ⟨a, w.heap⟩)) :
    Action.Post Stuck.anyhow (swap i j) w Q E := by
  by_cases hne : i = j
  · unfold swap
    rw [if_pos hne]
    exact hself hne
  cases ha : w.table? i with
  | none =>
      unfold swap
      rw [if_neg hne]
      exact post_readTable (fun a ha' => by rw [ha] at ha'; cases ha') fun _ => trivial
  | some a =>
      cases hb : w.table? j with
      | none =>
          unfold swap
          rw [if_neg hne]
          refine post_readTable (fun _ _ => ?_) fun _ => trivial
          exact post_readTable (fun b hb' => by rw [hb] at hb'; cases hb') fun _ => trivial
      | some b => exact post_swap ha hb hne (fun _ => trivial) fun _ => hQ a b ha hb hne

/-- Two tables that exchange what they own. -/
theorem WorldSound.exchange {a b a' b' : Table τ} (h : WorldSound lost w)
    (ha : w.table? i = some a) (hb : w.table? j = some b) (hne : i ≠ j)
    (hsa : Slots a' [] ∧ Filled a' a'.iteration) (hsb : Slots b' [] ∧ Filled b' b'.iteration)
    (howns : tableOwns a' + tableOwns b' = tableOwns a + tableOwns b) :
    WorldSound lost (withStore (withStore w i ⟨a', w.heap⟩) j ⟨b', w.heap⟩) where
  tables k t ht := by
    by_cases hkj : j = k
    · subst hkj
      have hself := table?_withStore_self (w := withStore w i ⟨a', w.heap⟩) (i := j) (t := b)
        (by rw [table?_withStore_of_ne hne, hb]) ⟨b', w.heap⟩
      rw [hself] at ht
      cases ht
      exact hsb
    · rw [table?_withStore_of_ne hkj] at ht
      by_cases hki : i = k
      · subst hki
        rw [table?_withStore_self ha] at ht
        cases ht
        exact hsa
      · rw [table?_withStore_of_ne hki] at ht
        exact h.tables k t ht
  balanced := by
    have hbal := h.balanced
    have hbi : (w.setTable i none).table? j = some b := by rw [table?_setTable_of_ne hne, hb]
    have hcomm : (w.setTable i none).setTable j none = (w.setTable j none).setTable i none := by
      unfold World.setTable
      rw [List.set_comm _ _ hne]
    have hi : i < (w.setTable j none).tables.length := by
      unfold World.setTable
      rw [List.length_set]
      exact lt_of_join_eq_some ha
    have hj : j < (w.setTable i (some a')).tables.length := by
      unfold World.setTable
      rw [List.length_set]
      exact lt_of_join_eq_some hb
    have hold : World.owns w =
        tableOwns a + (tableOwns b + restOf (w.setTable i none) j) := by
      rw [World.owns_eq ha]
      unfold restOf
      rw [World.owns_eq hbi]
      rfl
    have hnew : World.owns ((w.setTable i (some a')).setTable j (some b')) =
        tableOwns b' + (tableOwns a' + restOf (w.setTable i none) j) := by
      rw [World.owns_setTable hj]
      have hrest : restOf (w.setTable i (some a')) j =
          World.owns ((w.setTable j none).setTable i (some a')) := by
        unfold restOf World.setTable
        rw [List.set_comm _ _ hne]
      rw [hrest, World.owns_setTable hi]
      unfold restOf
      rw [hcomm]
      rfl
    have heq : World.owns ((w.setTable i (some a')).setTable j (some b')) = World.owns w := by
      rw [hnew, hold, ← add_assoc, ← add_assoc, add_comm (tableOwns b'), howns]
    show Balanced w.heap (World.owns ((w.setTable i (some a')).setTable j (some b')) + lost)
    rw [heq]
    exact hbal

/-- A table without its storage. -/
theorem afterSteal_sound (t : Table τ) :
    (Slots t.afterSteal [] ∧ Filled t.afterSteal t.afterSteal.iteration) ∧
      tableOwns t.afterSteal = 0 := by
  refine ⟨⟨⟨⟨[], rfl, List.Perm.refl _⟩, Nat.zero_le _, Nat.zero_le _, fun p j hj => ?_⟩,
    fun j => ?_⟩, rfl⟩
  · cases hj
  · have hnode : t.afterSteal.nodeAt j = Node.raw := by
      simp [Table.nodeAt, Table.afterSteal]
    rw [hnode]
    simp [Node.raw, Table.afterSteal, Table.resetToEmptyState]

theorem SameArena.sound {t t' : Table τ} (h : SameArena t t')
    (hs : Slots t [] ∧ Filled t t.iteration) : Slots t' [] ∧ Filled t' t'.iteration := by
  refine ⟨h.slots hs.1, ?_⟩
  rw [h.iteration]
  exact h.filled hs.2

theorem SameArena.tableOwns {t t' : Table τ} (h : SameArena t t')
    (ha : arrayIds t' = arrayIds t) : tableOwns t' = tableOwns t := by
  unfold Analysis.tableOwns
  rw [h.iteration]
  exact h.owns ha

/-! ## Constructors -/

theorem post_newTable {U : Stuck → Prop} {k : ℕ → Action (World τ) β} {Q : β → World τ → Prop}
    {E : World τ → Prop} :
    Action.Post U (newTable t >>= k) w Q E ↔
      Action.Post U (k w.tables.length) { w with tables := w.tables ++ [some t] } Q E := Iff.rfl

/-- A table that owns nothing goes without loss. -/
theorem WorldSound.dropEmpty (h : WorldSound lost w) (ht : w.table? i = some t)
    (howns : tableOwns t = 0) : WorldSound lost (w.setTable i none) := by
  have h' := h.dropTable ht
  rwa [howns, add_zero] at h'

theorem table?_newTable (w : World τ) (t : Table τ) :
    ({ w with tables := w.tables ++ [some t] } : World τ).table? w.tables.length = some t := by
  rw [table?_append, if_pos rfl]

/-- A rebuild that throws on an empty table leaves it with nothing. -/
theorem RebuildThrown.owns_nothing {s s' : Store τ} (h : RebuildThrown s s')
    (hcalls : CallsReturn s.heap.fault) (hi : s.table.iteration = [])
    (hc : s.table.chunks = []) : tableOwns s'.table = 0 := by
  have hb := h.buckets hcalls.1
  unfold Analysis.tableOwns owns elementIds chunkIds arrayIds
  rw [h.arena.iteration, hi, h.arena.chunks, hc, hb]
  rfl

theorem construct_sound (n : ℕ) (hash : τ.Key → UInt64) (equal : τ.Key → τ.Key → Bool)
    (alloc : τ.Alloc) (h : WorldSound lost w) (hcalls : CallsReturn w.heap.fault) :
    Action.Post Stuck.anyhow (construct n hash equal alloc) w
      (fun i w' => WorldAccounts lost w w' ∧ AtMost w' i 0) (WorldSound lost) := by
  unfold construct
  rw [post_newTable]
  obtain ⟨hs, hf, howns⟩ :=
    initial_sound (kDefaultMaxLoadFactor τ.rounding) hash equal alloc
  have h1 := h.newTable hs hf howns
  have ht1 := table?_newTable w (Table.initial (kDefaultMaxLoadFactor τ.rounding) hash equal alloc)
  have hn1 : AtMost { w with tables := w.tables ++
      [some (Table.initial (kDefaultMaxLoadFactor τ.rounding) hash equal alloc)] }
      w.tables.length 0 := by
    intro t ht
    rw [ht1] at ht
    cases ht
    exact le_rfl
  refine Action.Post.bind (Q := fun _ w' => WorldAccounts lost w w' ∧
    AtMost w' w.tables.length 0) (E := WorldSound lost)
    (Action.Post.cleanup (E := fun w' => ∃ t, WorldSound lost w' ∧
      w'.table? w.tables.length = some t ∧ tableOwns t = 0) ?_ ?_) (fun _ h' => h')
    fun _ _ h' => h'
  · split
    · refine post_onTable (fun t ht => ?_) fun _ => trivial
      rw [ht1] at ht
      cases ht
      refine post_defined (fun count _ => ?_) fun _ => trivial
      refine (rehashTo_sound _ (h1.table ht1)).mono ?_ ?_ fun _ h' => h'
      · rintro - s' ⟨h', hr⟩
        have hiter := hr.arena.iteration
        rw [← hiter] at h'
        refine ⟨⟨h1.store ht1 h', hr.fault.point⟩, atMost_withStore ht1 ?_⟩
        unfold Table.size
        rw [hiter]
        exact le_rfl
      · rintro s' ⟨h', hr⟩
        rw [← hr.arena.iteration] at h'
        exact ⟨s'.table, h1.store ht1 h', table?_withStore_self ht1 s',
          hr.owns_nothing hcalls rfl rfl⟩
    · exact ⟨⟨h1, rfl⟩, hn1⟩
  · rintro w' ⟨t, h', ht, hzero⟩
    exact h'.dropEmpty ht hzero

/-- No table holds more than `max_size()` elements. -/
def Bounded (w : World τ) : Prop := ∀ i, AtMost w i maxSize

theorem constructRange_sound (values : List τ.Value) (n : ℕ) (hash : τ.Key → UInt64)
    (equal : τ.Key → τ.Key → Bool) (alloc : τ.Alloc) (h : WorldSound lost w)
    (hmax : ∀ done rest i w', values = done ++ rest →
      (constructRange done n hash equal alloc).run w = (.ok i, w') → Bounded w')
    (hcalls : CallsReturn w.heap.fault) :
    Action.Post Stuck.anyhow (constructRange values n hash equal alloc) w
      (fun _ => WorldAccounts lost w) (WorldThrown lost (NoChunksGrowth w.heap.fault)) := by
  unfold constructRange
  refine Action.Post.bind (construct_sound n hash equal alloc h hcalls).with_run
    (fun _ h' => h'.1.thrown _) ?_
  rintro i w1 ⟨⟨⟨h1, hpoint⟩, -⟩, hrun⟩
  have hcalls1 : CallsReturn w1.heap.fault := hcalls.of_point hpoint
  refine Action.Post.bind (Action.Post.cleanup (Q := fun _ => WorldAccounts lost w)
    (E := WorldThrown lost (NoChunksGrowth w.heap.fault)) ?_ ?_) (fun _ h' => h')
    fun _ _ h' => h'
  · refine post_onTable (fun t ht => ?_) fun _ => trivial
    have hfits : ∀ done rest s', values = done ++ rest →
        (insertRange done).run ⟨t, w1.heap⟩ = (.ok (), s') → s'.table.size ≤ maxSize := by
      intro done rest s' hsplit hdone
      have hinner : (onTable i (insertRange done)).run w1 = (.ok (), withStore w1 i s') := by
        simp only [onTable, ht, hdone]
        rfl
      have hwhole : (constructRange done n hash equal alloc).run w =
          (.ok i, withStore w1 i s') := by
        unfold constructRange
        rw [Action.run_bind_ok _ hrun]
        refine Action.run_bind_ok (fun _ => pure i) (a := ()) ?_
        simp only [Action.cleanup, hinner]
      exact hmax done rest i _ hsplit hwhole i s'.table (table?_withStore_self ht s')
    refine (insertRange_sound values (h1.table ht) hfits hcalls1).mono ?_ ?_
      fun _ h' => h'
    · exact fun _ s' h' => ⟨h1.store ht h'.1, h'.2.trans hpoint⟩
    · intro s' h'
      have hthrown := h1.store_thrown ht h'
      unfold NoChunksGrowth at hthrown
      rwa [hpoint] at hthrown
  · rintro w' ⟨lost', h', hclean⟩
    exact (destroy_sound h').mono (fun _ w'' h'' => ⟨lost', h''.1, hclean⟩)
      (fun _ h'' => h''.elim) fun _ h'' => h''

/-! ### Constructors without a delegate -/

/-- The first allocation of a copy fails: nothing has been built yet. -/
theorem reserve_onTable_first {m : ℕ} (hm : m ≠ 0) (h : WorldSound lost w)
    (ht : w.table? i = some t) (hi : t.iteration = []) (hc : t.chunks = [])
    (hfault : w.heap.fault = some (.bucketArray, 0)) :
    Action.Post Stuck.anyhow (onTable i (reserve m)) w (fun _ _ => False)
      (fun w' => ∃ t', WorldSound lost w' ∧ w'.table? i = some t' ∧ tableOwns t' = 0) := by
  have hcalls : CallsReturn w.heap.fault := by
    rw [hfault]
    exact ⟨by decide, by decide⟩
  refine post_onTable (fun t' ht' => ?_) fun _ => trivial
  rw [ht] at ht'
  cases ht'
  refine ((reserve_first (s := ⟨t, w.heap⟩) hm hfault).and (reserve_sound m (h.table ht))).mono
    (fun _ _ h' => h'.1) ?_ fun _ h' => h'
  rintro s' ⟨-, h', hr⟩
  exact ⟨s'.table, h.store ht h', table?_withStore_self ht s', hr.owns_nothing hcalls hi hc⟩

/-- The exception, if any, comes at the first allocation. -/
def AtFirstAllocation (fault : Option (Point × ℕ)) : Prop := fault = some (.bucketArray, 0)

theorem size_ne_zero {t : Table τ} (h : ¬ t.iteration = []) : t.size ≠ 0 := by
  unfold Table.size
  rwa [Ne, List.length_eq_zero_iff]

theorem copyContentsFrom_first {other : ℕ} (h : WorldSound lost w) (ht : w.table? i = some t)
    (hi : t.iteration = []) (hc : t.chunks = []) (hfault : AtFirstAllocation w.heap.fault) :
    Action.Post Stuck.anyhow (copyContentsFrom i other) w (fun _ _ => True)
      (fun w' => ∃ t', WorldSound lost w' ∧ w'.table? i = some t' ∧ tableOwns t' = 0) := by
  unfold copyContentsFrom
  refine post_readTable (fun source hsource => ?_) fun _ => trivial
  split
  · exact trivial
  · next hne =>
      exact Action.Post.bind (reserve_onTable_first (size_ne_zero hne) h ht hi hc hfault)
        (fun _ h' => h') fun _ _ h' => h'.elim

theorem run_bind_forEach_nil {ι : Type} (body : ι → Action (World τ) Unit)
    (k : Unit → Action (World τ) β) : (Action.forEach [] body >>= k) = k () := rfl

theorem moveContentsFrom_first {other : ℕ} (h : WorldSound lost w) (ht : w.table? i = some t)
    (hi : t.iteration = []) (hc : t.chunks = []) (hfault : AtFirstAllocation w.heap.fault) :
    Action.Post Stuck.anyhow (moveContentsFrom i other) w (fun _ _ => True)
      (fun w' => ∃ t', WorldSound lost w' ∧ w'.table? i = some t' ∧ tableOwns t' = 0) := by
  unfold moveContentsFrom
  refine post_readTable (fun source hsource => ?_) fun _ => trivial
  by_cases hne : source.iteration = []
  · -- nothing is allocated for an empty source
    rw [show source.size = 0 by unfold Table.size; rw [hne]; rfl, hne]
    have hreserve : Action.Post Stuck.anyhow (onTable i (reserve 0)) w
        (fun _ w' => WorldSound lost w')
        (fun w' => ∃ t', WorldSound lost w' ∧ w'.table? i = some t' ∧ tableOwns t' = 0) := by
      refine post_onTable (fun t' ht' => ?_) fun _ => trivial
      rw [ht] at ht'
      cases ht'
      have hcalls : CallsReturn w.heap.fault := by
        rw [hfault]
        exact ⟨by decide, by decide⟩
      refine (reserve_sound 0 (h.table ht)).mono (fun _ s' h' => h.store ht h'.1.1) ?_
        fun _ h' => h'
      rintro s' ⟨h', hr⟩
      exact ⟨s'.table, h.store ht h', table?_withStore_self ht s', hr.owns_nothing hcalls hi hc⟩
    refine Action.Post.bind hreserve (fun _ h' => h') fun _ w1 h1 => ?_
    rw [run_bind_forEach_nil]
    refine post_onTable (fun t1 ht1 => ?_) fun _ => trivial
    exact (clear_sound (h1.table ht1)).mono (fun _ _ _ => trivial) (fun _ h' => h'.elim)
      fun _ h' => h'
  · exact Action.Post.bind (reserve_onTable_first (size_ne_zero hne) h ht hi hc hfault)
      (fun _ h' => h') fun _ _ h' => h'.elim

/-- Nothing changes where nothing is. -/
theorem setTable_none_of_none (ht : w.table? i = none) : w.setTable i none = w := by
  unfold World.setTable
  by_cases hi : i < w.tables.length
  · have hget : w.tables[i] = none := by
      unfold World.table? at ht
      rw [List.getElem?_eq_getElem hi] at ht
      exact ht
    rw [← hget, List.set_getElem_self hi]
  · rw [List.set_eq_of_length_le (not_lt.mp hi)]

theorem table?_setTable_none (w : World τ) (i : ℕ) : (w.setTable i none).table? i = none := by
  cases ht : w.table? i with
  | none => rwa [setTable_none_of_none ht]
  | some t => exact table?_setTable_self ht

/-- A table built in place by `x`, whose object ends without a destructor if `x` throws:
then what it owns is lost, unless the first allocation already failed. -/
theorem buildOrDrop_sound {x : Action (World τ) Unit}
    (hx : Action.Post Stuck.anyhow x w' (fun _ => WorldAccounts lost w)
      (WorldThrown lost (NoChunksGrowth w.heap.fault)))
    (hfirst : AtFirstAllocation w.heap.fault → Action.Post Stuck.anyhow x w' (fun _ _ => True)
      (fun w'' => ∃ t', WorldSound lost w'' ∧ w''.table? i = some t' ∧ tableOwns t' = 0)) :
    Action.Post Stuck.anyhow (x.cleanup (dropTable i) >>= fun _ => pure i) w'
      (fun _ => WorldAccounts lost w) (WorldThrown lost (AtFirstAllocation w.heap.fault)) := by
  refine Action.Post.bind (Q := fun _ => WorldAccounts lost w) ?_ (fun _ h' => h')
    fun _ _ h' => h'
  by_cases hf : AtFirstAllocation w.heap.fault
  · refine Action.Post.cleanup ((hx.and (hfirst hf)).mono (fun _ _ h' => h'.1)
      (fun _ h' => h'.2) fun _ h' => h') ?_
    rintro w'' ⟨t', h', ht', hzero⟩
    exact (h'.dropEmpty ht' hzero).thrown _
  · refine Action.Post.cleanup hx ?_
    rintro w'' ⟨lost', h', -⟩
    show WorldThrown lost _ (w''.setTable i none)
    cases ht : w''.table? i with
    | some t' => exact ⟨lost' + tableOwns t', h'.dropTable ht, fun hc => absurd hc hf⟩
    | none =>
        rw [setTable_none_of_none ht]
        exact ⟨lost', h', fun hc => absurd hc hf⟩

end Fum.Analysis

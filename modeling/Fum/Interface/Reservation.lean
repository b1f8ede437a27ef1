import Fum.Analysis.LoadFactors
import Fum.Interface.CapacityCurrent

/-!
# Reservation

What `reserve` and `rehash` promise, with load factors that are exact rationals: as many
buckets as were asked for, and a bucket array that stays as long as the table holds no more
elements than it was reserved for.
-/

set_option autoImplicit false

namespace Fum.Interface

open Fum.Model Fum.Analysis Effects RoundedArithmetic

variable {τ : Traits} {t t0 t' : Table τ} {s s' : Store τ} {n N : ℕ} {heap : Heap}

/-! ## Calls after a reservation -/

/-- The call neither inserts nor asks for another bucket array. -/
def LeavesBuckets : Op τ → Prop
  | .assign _ _ | .eraseKey _ | .eraseAt _ | .eraseRange _ _ | .extractKey _ | .extractAt _
  | .clear | .find _ => True
  | _ => False

/-- The call leads from `s` to `s'`, normally or with an exception. -/
def Leads {α : Type} (x : Exec τ α) (s s' : Store τ) : Prop :=
  (∃ a, x.run s = (.ok a, s')) ∨ x.run s = (.thrown, s')

/-- The tables that are reached from `t` by insertions that start below `N` elements or return
with no more than `N`, and by erasures, extractions, assignments and lookups. Each call may
throw wherever it can. -/
inductive Interleaved (N : ℕ) (t : Table τ) : Table τ → Prop
  | refl : Interleaved N t t
  | insertion {t1 : Table τ} {heap : Heap} {s : Store τ} (front : Interleaved N t t1)
      (x : Insertion τ) (below : t1.size + 1 ≤ N) (leads : Leads x.exec ⟨t1, heap⟩ s) :
      Interleaved N t s.table
  | returned {t1 : Table τ} {heap : Heap} {added : Bool} {s : Store τ}
      (front : Interleaved N t t1) (x : Insertion τ)
      (hrun : x.exec.run ⟨t1, heap⟩ = (.ok added, s)) (within : s.table.size ≤ N) :
      Interleaved N t s.table
  | call {t1 : Table τ} {heap : Heap} {s : Store τ} (front : Interleaved N t t1) (op : Op τ)
      (hop : LeavesBuckets op) (leads : Leads op.exec ⟨t1, heap⟩ s) : Interleaved N t s.table
  | eraseIf {t1 : Table τ} {heap : Heap} {s : Store τ} (front : Interleaved N t t1)
      (predicate : List τ.Value → τ.Value → Bool)
      (leads : Leads (eraseIf predicate) ⟨t1, heap⟩ s) : Interleaved N t s.table

theorem Leads.keeps {α : Type} {x : Exec τ α} {I : Table τ → Prop} (h : Leads x s s')
    (hx : Action.Keeps (fun s : Store τ => I s.table) x) (hs : I s.table) : I s'.table := by
  rcases h with ⟨a, hrun⟩ | hrun
  · exact (hx.post hs).ok_of_run hrun
  · exact (hx.post hs).thrown_of_run hrun

theorem keeps_eraseIf {J : Store τ → Prop} (h : Steady J) (hi : Unordered J)
    (predicate : List τ.Value → τ.Value → Bool) : Action.Keeps J (eraseIf predicate) := by
  have hloop : ∀ fuel it erased asked,
      Action.Keeps J (eraseIfLoop predicate fuel it erased asked) := by
    intro fuel
    induction fuel with
    | zero => exact fun _ _ _ => Action.Keeps.diverge
    | succ fuel ih =>
        intro it erased asked
        refine Action.Keeps.ite (Action.Keeps.pure _) (Action.Keeps.bind (keeps_elementAt it)
          fun element => Action.Keeps.ite ?_ ?_)
        · exact Action.Keeps.bind (keeps_eraseAt h hi it) fun _ => ih _ _ _
        · exact Action.Keeps.bind keeps_getTable fun _ => ih _ _ _
  exact Action.Keeps.bind keeps_getTable fun _ => hloop _ _ _ _

theorem keeps_call {J : Store τ → Prop} (h : Steady J) (hi : Unordered J) {op : Op τ}
    (hop : LeavesBuckets op) : Action.Keeps J op.exec := by
  cases op with
  | assign node mapped =>
      exact Action.Keeps.bind (keeps_assignValue h node _) fun _ => Action.Keeps.pure _
  | eraseKey key =>
      exact Action.Keeps.bind (keeps_eraseKey h hi key) fun _ => Action.Keeps.pure _
  | eraseAt node =>
      exact Action.Keeps.bind (keeps_eraseAt h hi node) fun _ => Action.Keeps.pure _
  | eraseRange first last =>
      exact Action.Keeps.bind (keeps_eraseRange h hi first last) fun _ => Action.Keeps.pure _
  | extractKey key =>
      exact Action.Keeps.bind (keeps_extractKey h hi key) fun _ => Action.Keeps.pure _
  | extractAt node =>
      exact Action.Keeps.bind (keeps_extractAt h hi node) fun _ => Action.Keeps.pure _
  | clear => exact Action.Keeps.bind (keeps_clear h hi) fun _ => Action.Keeps.pure _
  | find key =>
      exact Action.Keeps.bind (keeps_find h.toForgetful key) fun _ => Action.Keeps.pure _
  | insert | tryEmplace | insertOrAssign | rehash | reserve | maxLoadFactor => exact hop.elim

/-! ## Enough buckets for `N` elements -/

/-- The threshold of the table is at least `N`, and it has buckets if `N` is not zero. -/
structure Provides (N : ℕ) (t : Table τ) : Prop where
  capacity : N ≤ t.maxLoadCapacity
  buckets : N ≠ 0 → t.bucketCount ≠ 0

theorem Provides.not_needsGrowth (h : Provides N t) (hle : t.size + 1 ≤ N) : ¬ NeedsGrowth t := by
  rintro (hzero | hlt)
  · exact h.buckets (by omega) hzero
  · have := h.capacity
    omega

/-- An insertion that comes to at most `N` elements leaves the bucket array alone. -/
theorem sameCount_of_insertion (h : Provides N t) {x : Insertion τ} {added : Bool}
    (hrun : x.exec.run ⟨t, heap⟩ = (.ok added, s)) (hle : s.table.size ≤ N) :
    SameCount t s.table := by
  have hsizes := (x.exec_enlarged ⟨t, heap⟩).ok_of_run hrun
  cases added with
  | false => exact SizedAt.sameCount hsizes
  | true =>
      have hlarge : Enlarged t s.table := hsizes
      have hg : ¬ NeedsGrowth t := h.not_needsGrowth (by
        rw [← hlarge.size]
        exact hle)
      exact (x.exec_sameCount (s := ⟨t, heap⟩) hg).ok_of_run hrun

/-- The bucket array stays what it is along interleaved calls. -/
theorem Interleaved.sameCount (h : Interleaved N t t') (ht : Provides N t) :
    SameCount t t' := by
  have hall : SameCount t t' ∧ Provides N t' := by
    have hprovides : ∀ {t1 t2 : Table τ}, SameCount t t1 → SameCount t1 t2 →
        SameCount t t2 ∧ Provides N t2 := fun h1 h2 =>
      have h12 : SameCount t _ :=
        ⟨h2.bucketCount.trans h1.bucketCount, h2.capacity.trans h1.capacity⟩
      ⟨h12, h12.capacity ▸ ht.capacity, fun hN => h12.bucketCount ▸ ht.buckets hN⟩
    induction h with
    | refl => exact ⟨⟨rfl, rfl⟩, ht⟩
    | @insertion t1 heap s1 front x below leads ih =>
        have hpost := x.exec_sameCount (s := ⟨t1, heap⟩) (ih.2.not_needsGrowth below)
        rcases leads with ⟨added, hrun⟩ | hrun
        · exact hprovides ih.1 (hpost.ok_of_run hrun)
        · exact hprovides ih.1 (hpost.thrown_of_run hrun)
    | returned front x hrun within ih =>
        exact hprovides ih.1 (sameCount_of_insertion ih.2 hrun within)
    | @call t1 heap s front op hop leads ih =>
        exact hprovides ih.1 (leads.keeps (keeps_call (steady_sameCount t1)
          (fun _ _ h' => ⟨h'.1, h'.2⟩) hop) ⟨rfl, rfl⟩)
    | @eraseIf t1 heap s front predicate leads ih =>
        exact hprovides ih.1 (leads.keeps (keeps_eraseIf (steady_sameCount t1)
          (fun _ _ h' => ⟨h'.1, h'.2⟩) predicate) ⟨rfl, rfl⟩)
  exact hall.1

/-! ## What `reserve` and `rehash` deliver -/

/-- A table resized for `n` elements has the threshold for them and for those it holds. -/
theorem provides_of_resized {t t' : Table (exactly τ)} (hz : Moderate t) {requested c m : ℕ}
    (hc : rehashCount t requested = some c) (h : Resized t requested t')
    (hm : bucketCountForElements t.maxLoadFactor n = some m) (hle : m ≤ requested) :
    Provides (max n t.size) t' := by
  obtain ⟨hrequested, m0, hm0, hsize⟩ := le_of_rehashCount hc
  by_cases hzero : c = 0
  · have hn0 : n = 0 := by
      by_contra hne
      exact bucketCountForElements_ne_zero hne hm (by omega)
    have hsize0 : t.size = 0 := by
      by_contra hne
      exact bucketCountForElements_ne_zero hne hm0 (by omega)
    rw [hn0, hsize0]
    exact ⟨Nat.zero_le _, fun hne => absurd rfl hne⟩
  · obtain ⟨hcount, hcap⟩ := h c hc hzero
    obtain ⟨k, hk, rfl⟩ := rehashCount_ne_zero hc hzero
    refine ⟨?_, fun _ => by rw [hcount]; exact (Nat.two_pow_pos k).ne'⟩
    unfold Moderate at hz
    rw [hcap]
    cases hfactor : t.maxLoadFactor with
    | infinity =>
        rw [hfactor] at hz
        exact hz.elim
    | finite z pos represented =>
        rw [hfactor] at hz hm hm0
        exact max_le (le_capacity_of_bucketCountForElements hz hk hm (hle.trans hrequested))
          (le_capacity_of_bucketCountForElements hz hk hm0 hsize)

/-- `rehash` resizes the index and nothing else. -/
theorem rehash_sizes (n : ℕ) (s : Store τ) :
    Action.Post Stuck.anyhow (rehash n) s (fun _ s' => (rehashCount s.table n).isSome ∧
      Resized s.table n s'.table ∧ s'.table.size = s.table.size) (fun _ => True) := by
  refine post_rehash (fun _ => trivial) ?_ ?_ ?_
  · intro hcount _
    refine Action.Post.bind ((keeps_deallocateBuckets (steady_sizedAt s.table)).post
      (SizedAt.refl _)) (fun _ _ => trivial) fun _ s1 h1 => ?_
    rw [post_modifyTable_last]
    exact ⟨by rw [hcount]; rfl, resized_of_zero hcount, h1.size⟩
  · intro hcount
    exact ⟨by rw [hcount]; rfl, resized_of_zero hcount, rfl⟩
  · intro k _ hcount
    refine (rehashTo_sizes _ (SizedAt.refl s.table)).mono (fun _ s' h' => ?_) (fun _ h' => h')
      fun _ h' => h'
    refine ⟨by rw [hcount]; rfl, fun c hc _ => ?_, h'.2.2.1⟩
    rw [hcount] at hc
    cases hc
    exact ⟨h'.1, h'.2.1⟩

/-- After `reserve(n)` the threshold is at least `n` and the size, and the bucket array stays
while the table holds no more. After `rehash(n)` there are `n` buckets at least, and the
threshold covers the elements. Both return on a reachable table if no allocation and no
functor throws and `std::size_t` has the bucket count asked for. An insertion that the load
factor has room for, into a table with buckets whose threshold is current, leaves the bucket
array alone. -/
theorem reserve_rehash_deliver {t : Table (exactly τ)} (hz : Moderate t) (n : ℕ) (heap : Heap) :
    Action.Post Stuck.anyhow (reserve n) ⟨t, heap⟩
      (fun _ s' => max n s'.table.size ≤ s'.table.maxLoadCapacity ∧
        ∀ t', Interleaved (max n s'.table.size) s'.table t' →
          t'.bucketCount = s'.table.bucketCount) (fun _ => True) ∧
    Action.Post Stuck.anyhow (rehash n) ⟨t, heap⟩
      (fun _ s' => n ≤ s'.table.bucketCount ∧ s'.table.size ≤ s'.table.maxLoadCapacity)
      (fun _ => True) ∧
    (Reachable t → heap.fault = none →
      (SizableIn t (.reserve n) → ∃ s', (reserve n).run ⟨t, heap⟩ = (.ok (), s')) ∧
      (SizableIn t (.rehash n) → ∃ s', (rehash n).run ⟨t, heap⟩ = (.ok (), s'))) ∧
    ∀ (u : Table (exactly τ)) (z : ℚ) (pos : 0 < z) represented,
      u.maxLoadFactor = .finite z pos represented → z < 1 → u.bucketCount ≠ 0 →
      CapacityCurrent u → (u.size + 1 : ℚ) ≤ z * u.bucketCount →
      ∀ (x : Insertion (exactly τ)) (heap : Heap) (s' : Store (exactly τ)),
        Leads x.exec ⟨u, heap⟩ s' → s'.table.bucketCount = u.bucketCount := by
  refine ⟨?_, ?_, ?_, ?_⟩
  · refine post_reserve (fun _ => trivial) fun m hm => ?_
    refine (rehash_sizes m ⟨t, heap⟩).mono ?_ (fun _ h' => h') fun _ h' => h'
    rintro - s' ⟨hsome, hresized, hsize⟩
    obtain ⟨c, hc⟩ := Option.isSome_iff_exists.mp hsome
    have hprovides := provides_of_resized hz hc hresized hm le_rfl
    have hsize' : s'.table.size = t.size := hsize
    rw [hsize']
    exact ⟨hprovides.capacity, fun t' h' => (h'.sameCount hprovides).bucketCount⟩
  · refine (rehash_sizes n ⟨t, heap⟩).mono ?_ (fun _ h' => h') fun _ h' => h'
    rintro - s' ⟨hsome, hresized, hsize⟩
    obtain ⟨c, hc⟩ := Option.isSome_iff_exists.mp hsome
    have hc : rehashCount t n = some c := hc
    have hprovides : Provides (max 0 t.size) s'.table :=
      provides_of_resized hz hc hresized (m := 0) (if_pos rfl) (Nat.zero_le _)
    have hsize' : s'.table.size = t.size := hsize
    refine ⟨?_, ?_⟩
    · by_cases hzero : c = 0
      · have := (le_of_rehashCount hc).1
        omega
      · rw [(hresized c hc hzero).1]
        exact (le_of_rehashCount hc).1
    · rw [hsize', ← Nat.zero_max t.size]
      exact hprovides.capacity
  · intro hreach hquiet
    obtain ⟨hwell, hroom⟩ := hreach.sturdy
    have hloud : ∀ s', InsertThrown ⟨t, heap⟩ s' → False := fun s' h' => h'.fault hquiet
    refine ⟨fun hsizable => ?_, fun hsizable => ?_⟩
    · have hfits : ReserveFits t n := hsizable.fitsIn hz
      obtain ⟨⟨⟩, s1, hrun1, -⟩ := ((reserve_spec (s := ⟨t, heap⟩) (U := Stuck.never) n
        hwell.consistent hroom hfits).mono (fun _ _ h' => h') hloud fun _ h' => h').returns
      exact ⟨s1, hrun1⟩
    · have hfits : RehashFits t n := hsizable.fitsIn hz
      obtain ⟨⟨⟩, s2, hrun2, -⟩ := ((rehash_spec (s := ⟨t, heap⟩) (U := Stuck.never) n
        hwell.consistent hroom hfits).mono (fun _ _ h' => h') hloud fun _ h' => h').returns
      exact ⟨s2, hrun2⟩
  · intro u z pos represented hfactor hz1 hne hcurrent hle x heap s' hleads
    have hcap : u.maxLoadCapacity = computeLoadCapacity u.maxLoadFactor u.bucketCount := by
      unfold CapacityCurrent at hcurrent
      rw [hcurrent, if_neg hne]
    have hfits : u.size + 1 ≤ u.maxLoadCapacity := by
      rw [hcap, hfactor, le_computeLoadCapacity_iff hz1]
      exact_mod_cast hle
    have hg : ¬ NeedsGrowth u := by
      rintro (hzero | hlt)
      · exact hne hzero
      · omega
    have hpost := x.exec_sameCount (s := ⟨u, heap⟩) hg
    rcases hleads with ⟨added, hrun⟩ | hrun
    · exact (hpost.ok_of_run hrun).bucketCount
    · exact (hpost.thrown_of_run hrun).bucketCount

/-- A table with two elements and the default load factor. -/
def pairSteps : List (Step (exactly NatMap)) :=
  [⟨.construct 0 (fun k => UInt64.ofNat k) (fun a b => a == b) (), none⟩,
    ⟨.table 0 (.insert (1, 10)), none⟩, ⟨.table 0 (.insert (2, 20)), none⟩]

theorem reserve_rehash_deliver_pair :
    Action.Post Stuck.anyhow (reserve 7)
      ⟨((finish World.empty pairSteps).table? 0).get (by decide +kernel), Heap.empty⟩
      (fun _ s' => max 7 s'.table.size ≤ s'.table.maxLoadCapacity ∧
        ∀ t', Interleaved (max 7 s'.table.size) s'.table t' →
          t'.bucketCount = s'.table.bucketCount) (fun _ => True) :=
  (reserve_rehash_deliver (by decide +kernel) 7 Heap.empty).1

end Fum.Interface

import Fum.Model.World

/-!
# Rules for the primitives of the model

How a judgement about a member function steps over the primitives it starts with. A
passage of a throwing point counts the fault of the operation down and touches nothing
else; `Ticks` says how.
-/

set_option autoImplicit false

namespace Fum.Analysis

open Fum.Model Effects

variable {τ : Traits} {α β : Type} {U : Stuck → Prop} {s : Store τ}
  {Q : β → Store τ → Prop} {E : Store τ → Prop}

/-! ## Faults -/

/-- The place at which the operation in progress is to throw. -/
def faultPoint (fault : Option (Point × ℕ)) : Option Point := fault.map Prod.fst

theorem fault_ne_none {p : Point} {fault : Option (Point × ℕ)} (h : faultPoint fault = some p) :
    fault ≠ none := by
  rintro rfl
  cases h

/-- The fault after a passage of the point `p` that does not throw. -/
def Ticks (p : Point) (f f' : Option (Point × ℕ)) : Prop :=
  (f' = f ∧ faultPoint f ≠ some p) ∨ ∃ n, f = some (p, n + 1) ∧ f' = some (p, n)

theorem Ticks.faultPoint_eq {p : Point} {f f' : Option (Point × ℕ)} (h : Ticks p f f') :
    faultPoint f' = faultPoint f := by
  rcases h with ⟨rfl, -⟩ | ⟨n, rfl, rfl⟩ <;> rfl

/-- A passage of another point leaves the fault alone. -/
theorem Ticks.eq_of_ne {p : Point} {f f' : Option (Point × ℕ)} (h : Ticks p f f')
    (hne : faultPoint f ≠ some p) : f' = f := by
  rcases h with ⟨rfl, -⟩ | ⟨n, rfl, rfl⟩
  · rfl
  · exact absurd rfl hne

/-- The fault after passages of the points `ps` that do not throw. -/
structure Through (ps : List Point) (f f' : Option (Point × ℕ)) : Prop where
  point : faultPoint f' = faultPoint f
  same : (∀ p ∈ ps, faultPoint f ≠ some p) → f' = f

theorem Through.refl (ps : List Point) (f : Option (Point × ℕ)) : Through ps f f :=
  ⟨rfl, fun _ => rfl⟩

theorem Through.trans {ps : List Point} {f f' f'' : Option (Point × ℕ)} (h : Through ps f f')
    (h' : Through ps f' f'') : Through ps f f'' :=
  ⟨h'.point.trans h.point, fun hne =>
    (h'.same fun p hp => by rw [h.point]; exact hne p hp).trans (h.same hne)⟩

theorem Through.mono {ps qs : List Point} {f f' : Option (Point × ℕ)} (h : Through ps f f')
    (hsub : ∀ p ∈ ps, p ∈ qs) : Through qs f f' :=
  ⟨h.point, fun hne => h.same fun p hp => hne p (hsub p hp)⟩

/-- A point whose first passage throws is not passed. -/
theorem Ticks.ne_first {p : Point} {f f' : Option (Point × ℕ)} (h : Ticks p f f') :
    f ≠ some (p, 0) := by
  rintro rfl
  rcases h with ⟨-, hne⟩ | ⟨n, hn, -⟩
  · exact hne rfl
  · cases hn

theorem Ticks.through {p : Point} {f f' : Option (Point × ℕ)} (h : Ticks p f f')
    {ps : List Point} (hp : p ∈ ps) : Through ps f f' :=
  ⟨h.faultPoint_eq, fun hne => h.eq_of_ne (hne p hp)⟩

/-- Without a fault nothing is counted down. -/
theorem Through.none {ps : List Point} {f' : Option (Point × ℕ)}
    (h : Through ps none f') : f' = none :=
  h.same fun _ _ heq => by cases heq

/-- The heap with the fault `f`. -/
def withFault (h : Heap) (f : Option (Point × ℕ)) : Heap := { h with fault := f }

@[simp] theorem withFault_fault (h : Heap) (f : Option (Point × ℕ)) :
    (withFault h f).fault = f := rfl

@[simp] theorem withFault_withFault (h : Heap) (f f' : Option (Point × ℕ)) :
    withFault (withFault h f) f' = withFault h f' := rfl

theorem withFault_trans {h h' h'' : Heap} {f f' : Option (Point × ℕ)} (h1 : h' = withFault h f)
    (h2 : h'' = withFault h' f') : h'' = withFault h f' := by
  rw [h2, h1, withFault_withFault]

@[simp] theorem withFault_self (h : Heap) : withFault h h.fault = h := rfl

theorem post_mayThrow {p : Point} {Q : Unit → Store τ → Prop}
    (hok : ∀ f, Ticks p s.heap.fault f → Q () ⟨s.table, withFault s.heap f⟩)
    (hthrow : faultPoint s.heap.fault = some p → s.heap.fault = some (p, 0) →
      E ⟨s.table, withFault s.heap none⟩) :
    Action.Post U (mayThrow p) s Q E := by
  rcases hf : s.heap.fault with _ | ⟨q, n⟩
  · refine Action.Post.of_run_ok (a := ()) (r := s) ?_ ?_
    · simp only [mayThrow, hf]
    · have h := hok s.heap.fault (Or.inl ⟨rfl, by simp [faultPoint, hf]⟩)
      rwa [withFault_self] at h
  · by_cases hq : q = p
    · subst hq
      cases n with
      | zero =>
          refine Action.Post.of_run_thrown (r := ⟨s.table, withFault s.heap none⟩) ?_
            (hthrow (by rw [hf]; rfl) hf)
          simp only [mayThrow, hf, if_true]
          rfl
      | succ n =>
          refine Action.Post.of_run_ok (a := ())
            (r := ⟨s.table, withFault s.heap (some (q, n))⟩) ?_
            (hok _ (Or.inr ⟨n, hf, rfl⟩))
          simp only [mayThrow, hf, if_true]
          rfl
    · refine Action.Post.of_run_ok (a := ()) (r := s) ?_ ?_
      · simp only [mayThrow, hf, if_neg hq]
      · have h := hok s.heap.fault (Or.inl ⟨rfl, by simp [faultPoint, hf, hq]⟩)
        rwa [withFault_self] at h

/-! ## Stepping over a primitive -/

theorem run_getTable (f : Table τ → Exec τ β) (s : Store τ) :
    (getTable >>= f).run s = (f s.table).run s := rfl

theorem post_getTable {k : Table τ → Exec τ β} :
    Action.Post U (getTable >>= k) s Q E ↔ Action.Post U (k s.table) s Q E := Iff.rfl

theorem post_modifyTable {f : Table τ → Table τ} {k : Unit → Exec τ β} :
    Action.Post U (modifyTable f >>= k) s Q E ↔
      Action.Post U (k ()) ⟨f s.table, s.heap⟩ Q E := Iff.rfl

theorem post_modifyTable_last {f : Table τ → Table τ} {Q : Unit → Store τ → Prop} :
    Action.Post U (modifyTable f) s Q E ↔ Q () ⟨f s.table, s.heap⟩ := Iff.rfl

theorem post_modifyHeap {f : Heap → Heap} {k : Unit → Exec τ β} :
    Action.Post U (modifyHeap f >>= k) s Q E ↔
      Action.Post U (k ()) ⟨s.table, f s.heap⟩ Q E := Iff.rfl

theorem post_freshId {k : ℕ → Exec τ β} :
    Action.Post U (freshId >>= k) s Q E ↔
      Action.Post U (k s.heap.nextId)
        ⟨s.table, { s.heap with nextId := s.heap.nextId + 1 }⟩ Q E := Iff.rfl

theorem post_pure {a : β} : Action.Post U (pure a : Exec τ β) s Q E ↔ Q a s := Iff.rfl

/-- A passage of a throwing point, then the rest. -/
theorem post_mayThrow_bind {p : Point} {k : Unit → Exec τ β}
    (hok : ∀ f, Ticks p s.heap.fault f →
      Action.Post U (k ()) ⟨s.table, withFault s.heap f⟩ Q E)
    (hthrow : faultPoint s.heap.fault = some p → s.heap.fault = some (p, 0) →
      E ⟨s.table, withFault s.heap none⟩) :
    Action.Post U (mayThrow p >>= k) s Q E :=
  Action.Post.bind
    (post_mayThrow (Q := fun _ s' => Action.Post U (k ()) s' Q E) hok hthrow)
    (fun _ h => h) fun _ _ h => h

/-- The element in a node, then the rest. -/
theorem post_elementAt {node : ℕ} {k : Element τ → Exec τ β}
    (hsome : ∀ e, (s.table.nodeAt node).storage = some e → Action.Post U (k e) s Q E)
    (hnone : (s.table.nodeAt node).storage = none → U .undefined) :
    Action.Post U (elementAt node >>= k) s Q E := by
  unfold elementAt
  rw [Action.bind_assoc, post_getTable]
  cases h : (s.table.nodeAt node).storage with
  | some e => exact hsome e h
  | none => exact hnone h

/-- The key in a node, then the rest. -/
theorem post_keyAt {node : ℕ} {k : τ.Key → Exec τ β}
    (hsome : ∀ e, (s.table.nodeAt node).storage = some e →
      Action.Post U (k (τ.keyOf e.value)) s Q E)
    (hnone : (s.table.nodeAt node).storage = none → U .undefined) :
    Action.Post U (keyAt node >>= k) s Q E := by
  unfold keyAt
  rw [Action.bind_assoc]
  exact post_elementAt hsome hnone

/-- A bucket, then the rest. -/
theorem post_bucketAt {index : ℕ} {k : Bucket → Exec τ β}
    (hin : ∀ array, s.table.buckets = some array → index < array.size →
      Action.Post U (k (array.cells index)) s Q E)
    (hout : (∀ array, s.table.buckets = some array → array.size ≤ index) → U .undefined) :
    Action.Post U (bucketAt index >>= k) s Q E := by
  unfold bucketAt
  rw [Action.bind_assoc, post_getTable]
  cases h : s.table.buckets with
  | none => exact hout fun array harray => by rw [h] at harray; cases harray
  | some array =>
      by_cases hlt : index < array.size
      · simp only [hlt, if_true]
        exact hin array h hlt
      · simp only [hlt, if_false]
        exact hout fun array' harray => by
          rw [h] at harray
          cases harray
          exact not_lt.mp hlt

/-- The cells of the bucket array, then the rest. -/
theorem post_getCells {k : (ℕ → Bucket) → Exec τ β}
    (hsome : ∀ array, s.table.buckets = some array → Action.Post U (k array.cells) s Q E)
    (hnone : s.table.buckets = none → U .undefined) :
    Action.Post U (getCells >>= k) s Q E := by
  unfold getCells
  rw [Action.bind_assoc, post_getTable]
  cases h : s.table.buckets with
  | none => exact hnone h
  | some array => exact hsome array h

/-- A loop, then the rest. -/
theorem post_ended {o : Option α} {k : α → Exec τ β}
    (hsome : ∀ a, o = some a → Action.Post U (k a) s Q E) (hnone : o = none → U .diverged) :
    Action.Post U (ended o >>= k) s Q E := by
  cases o with
  | none => exact hnone rfl
  | some a => exact hsome a rfl

/-- A call of the hasher, then the rest. -/
theorem post_callMixedHash {key : τ.Key} {k : UInt64 → Exec τ β}
    (hok : ∀ f, Ticks .hash s.heap.fault f →
      Action.Post U (k (s.table.mixedHash key)) ⟨s.table, withFault s.heap f⟩ Q E)
    (hthrow : faultPoint s.heap.fault = some .hash → s.heap.fault = some (.hash, 0) →
      E ⟨s.table, withFault s.heap none⟩) :
    Action.Post U (callMixedHash key >>= k) s Q E := by
  unfold callMixedHash
  rw [Action.bind_assoc]
  refine post_mayThrow_bind (fun f hf => ?_) hthrow
  rw [Action.bind_assoc, post_getTable, Action.pure_bind]
  exact hok f hf

/-- A call of `key_equal`, then the rest. -/
theorem post_callKeyEqual {a b : τ.Key} {k : Bool → Exec τ β}
    (hok : ∀ f, Ticks .equal s.heap.fault f →
      Action.Post U (k (s.table.keyEqual a b)) ⟨s.table, withFault s.heap f⟩ Q E)
    (hthrow : faultPoint s.heap.fault = some .equal → s.heap.fault = some (.equal, 0) →
      E ⟨s.table, withFault s.heap none⟩) :
    Action.Post U (callKeyEqual a b >>= k) s Q E := by
  unfold callKeyEqual
  rw [Action.bind_assoc]
  refine post_mayThrow_bind (fun f hf => ?_) hthrow
  rw [Action.bind_assoc, post_getTable, Action.pure_bind]
  exact hok f hf

/-- A result that may be undefined, then the rest. -/
theorem post_defined {o : Option α} {k : α → Exec τ β}
    (hsome : ∀ a, o = some a → Action.Post U (k a) s Q E) (hnone : o = none → U .undefined) :
    Action.Post U (defined o >>= k) s Q E := by
  cases o with
  | none => exact hnone rfl
  | some a => exact hsome a rfl

/-! ## Stepping into a rebuild -/

/-- The bucket count with which `rehash(n)` builds the index anew, or zero if it asks for no
buckets; undefined if `std::size_t` does not have it. -/
def rehashCount (t : Table τ) (n : ℕ) : Option ℕ :=
  (t.rehashTarget n).bind fun target =>
    if target = 0 then some 0 else roundUpToPowerOfTwo target

/-- A bucket count that is rounded up is a power of two, and not below eight. -/
theorem roundUpToPowerOfTwo_eq {v c : ℕ} (h : roundUpToPowerOfTwo v = some c) :
    ∃ k, 3 ≤ k ∧ c = 2 ^ k := by
  unfold roundUpToPowerOfTwo bitCeil at h
  by_cases hv : v < kInitialBucketCount
  · rw [if_pos hv] at h
    cases h
    exact ⟨3, le_rfl, rfl⟩
  · rw [if_neg hv] at h
    split at h
    · cases h
      refine ⟨Nat.clog 2 v, ?_, rfl⟩
      have h8 : kInitialBucketCount = 2 ^ 3 := rfl
      rw [h8, not_lt] at hv
      rw [← Nat.clog_pow 2 3 (by decide)]
      exact Nat.clog_mono_right 2 hv
    · cases h

theorem le_of_roundUpToPowerOfTwo {v c : ℕ} (h : roundUpToPowerOfTwo v = some c) : v ≤ c := by
  unfold roundUpToPowerOfTwo bitCeil at h
  split at h
  · next hv =>
      cases h
      exact hv.le
  · split at h
    · cases h
      exact Nat.le_pow_clog (by decide) v
    · cases h

/-- A rebuild has as many buckets as were asked for, and as many as the elements need. -/
theorem le_of_rehashCount {t : Table τ} {n c : ℕ} (h : rehashCount t n = some c) :
    n ≤ c ∧ ∃ m, bucketCountForElements t.maxLoadFactor t.size = some m ∧ m ≤ c := by
  obtain ⟨target, htarget, hc⟩ := Option.bind_eq_some_iff.mp h
  obtain ⟨m, hm, rfl⟩ := Option.map_eq_some_iff.mp htarget
  have hle : (if n < m then m else n) ≤ c := by
    by_cases hzero : (if n < m then m else n) = 0
    · exact hzero.le.trans (Nat.zero_le c)
    · rw [if_neg hzero] at hc
      exact le_of_roundUpToPowerOfTwo hc
  refine ⟨le_trans ?_ hle, m, hm, le_trans ?_ hle⟩
  · split
    · next hlt => exact hlt.le
    · exact le_rfl
  · split
    · exact le_rfl
    · next hlt => exact not_lt.mp hlt

/-- `rehash` gives up the bucket array of an empty table, does nothing, or rebuilds the index. -/
theorem post_rehash {n : ℕ} {Q : Unit → Store τ → Prop}
    (hout : rehashCount s.table n = none → U .undefined)
    (hdrop : rehashCount s.table n = some 0 → s.table.iteration = [] →
      Action.Post U (deallocateBuckets >>= fun _ => modifyTable Table.dropBuckets) s Q E)
    (hkeep : rehashCount s.table n = some 0 → Q () s)
    (hgrow : ∀ k, 3 ≤ k → rehashCount s.table n = some (2 ^ k) →
      Action.Post U (rehashTo (2 ^ k)) s Q E) :
    Action.Post U (rehash n) s Q E := by
  unfold rehash
  rw [post_getTable]
  refine post_defined (fun target htarget => ?_) fun hnone => hout ?_
  · have hcount : rehashCount s.table n =
        if target = 0 then some 0 else roundUpToPowerOfTwo target := by
      unfold rehashCount
      rw [htarget]
      rfl
    by_cases hzero : target = 0
    · rw [if_pos hzero] at hcount ⊢
      by_cases hempty : s.table.bucketCount ≠ 0 ∧ s.table.iteration = []
      · rw [if_pos hempty]
        exact hdrop hcount hempty.2
      · rw [if_neg hempty]
        exact hkeep hcount
    · rw [if_neg hzero] at hcount ⊢
      refine post_defined (fun c hc => ?_) fun hnone => hout (hcount.trans hnone)
      obtain ⟨k, hk, rfl⟩ := roundUpToPowerOfTwo_eq hc
      exact hgrow k hk (hcount.trans hc)
  · unfold rehashCount
    rw [hnone]
    rfl

/-- `reserve` asks `rehash` for the buckets that its elements need. -/
theorem post_reserve {n : ℕ} {Q : Unit → Store τ → Prop}
    (hout : bucketCountForElements s.table.maxLoadFactor n = none → U .undefined)
    (hrehash : ∀ m, bucketCountForElements s.table.maxLoadFactor n = some m →
      Action.Post U (rehash m) s Q E) :
    Action.Post U (reserve n) s Q E := by
  unfold reserve
  rw [post_getTable]
  exact post_defined hrehash hout

/-! ## The first allocation -/

theorem bucketCountForElements_ne_zero {R : RoundedArithmetic.Rounding} {factor : LoadFactor R}
    {n m : ℕ} (hn : n ≠ 0) (hm : bucketCountForElements factor n = some m) : m ≠ 0 := by
  unfold bucketCountForElements at hm
  rw [if_neg hn] at hm
  obtain ⟨v, -, hround⟩ := Option.bind_eq_some_iff.mp hm
  obtain ⟨k, -, rfl⟩ := roundUpToPowerOfTwo_eq hround
  exact (Nat.two_pow_pos k).ne'

/-- A rebuild throws at its allocation. -/
theorem rehashTo_first (n : ℕ) (hfault : s.heap.fault = some (.bucketArray, 0)) :
    Action.Post U (rehashTo n) s (fun _ _ => False) (fun _ => True) := by
  unfold rehashTo
  rw [post_getTable, post_modifyHeap]
  have hdeallocate : Action.Post U deallocateBuckets
      (⟨s.table, { s.heap with
        rehashes := s.heap.rehashes ++ [(n, s.table.size)] }⟩ : Store τ)
      (fun _ s' => s'.heap.fault = some (.bucketArray, 0)) (fun _ => True) := by
    unfold deallocateBuckets
    rw [post_getTable]
    cases s.table.buckets <;> exact hfault
  refine Action.Post.bind hdeallocate (fun _ _ => trivial) fun _ s1 h1 => ?_
  unfold allocateBuckets
  rw [Action.bind_assoc]
  exact post_mayThrow_bind (fun _ hticks => absurd h1 hticks.ne_first) fun _ _ => trivial

/-- `reserve` of an element or more throws at its first allocation. -/
theorem reserve_first {n : ℕ} (hn : n ≠ 0) (hfault : s.heap.fault = some (.bucketArray, 0)) :
    Action.Post Stuck.anyhow (reserve n) s (fun _ _ => False) (fun _ => True) := by
  refine post_reserve (fun _ => trivial) fun m hm => ?_
  have hpos := bucketCountForElements_ne_zero hn hm
  have hcount : rehashCount s.table m ≠ some 0 := fun hzero =>
    hpos (Nat.le_zero.mp (le_of_rehashCount hzero).1)
  exact post_rehash (fun _ => trivial) (fun hzero => absurd hzero hcount)
    (fun hzero => absurd hzero hcount) fun k _ _ => rehashTo_first _ hfault

end Fum.Analysis

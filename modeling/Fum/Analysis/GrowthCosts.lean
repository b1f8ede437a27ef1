import Fum.Analysis.SpareBuckets
import Fum.Analysis.Thresholds

/-!
# What growth costs

Every call of `rehash_to` moves all elements. What the growths of a table have moved is paid
for by the elements that were inserted into it, two moves by each: the potential is the
distance of the size from half the threshold, twice. It is used up by a growth, which at
least doubles the threshold, and what goes out of the table only adds to it.
-/

set_option autoImplicit false

namespace Fum.Analysis

open Fum.Model Effects RoundedArithmetic

variable {τ : Traits} {α β ι : Type} {s s' s'' : Store τ} {n m k : ℕ} {f : LoadFactor τ.rounding}
  {J : Store τ → Prop}

/-! ## Calls that do not insert -/

/-- The predicate survives what leaves index, iteration vector and record of rebuilds alone,
other contents of the buckets, and a shorter iteration vector. -/
structure Patient (J : Store τ → Prop) : Prop where
  idle : ∀ s s' : Store τ, Idle s s' → J s → J s'
  reindex : ∀ s s' : Store τ, Reindexes [] s s' → J s → J s'
  shrink : Shrinkable J

/-- The call keeps the predicate, if it ends. -/
def Retains (J : Store τ → Prop) (x : Exec τ α) : Prop :=
  ∀ s, J s → Action.Post Stuck.anyhow x s (fun _ => J) J

namespace Retains

theorem bind {x : Exec τ α} {g : α → Exec τ β} (hx : Retains J x) (hg : ∀ a, Retains J (g a)) :
    Retains J (x >>= g) := fun s hs =>
  Action.Post.bind (hx s hs) (fun _ h => h) fun a s' h => hg a s' h

theorem pure (a : α) : Retains J (Pure.pure a : Exec τ α) := fun _ h => h

theorem undefined : Retains J (Action.undefined : Exec τ α) := fun _ _ => trivial

theorem getTable : Retains J (Model.getTable : Exec τ (Table τ)) := fun _ h => h

theorem ite {c : Prop} [Decidable c] {x y : Exec τ α} (hx : Retains J x) (hy : Retains J y) :
    Retains J (if c then x else y) := by
  split
  · exact hx
  · exact hy

theorem cleanup {x : Exec τ α} {handler : Exec τ Unit} (hx : Retains J x)
    (hh : Retains J handler) : Retains J (x.cleanup handler) := fun s hs =>
  (hx s hs).cleanup fun s' h => hh s' h

theorem forEach {l : List ι} {body : ι → Exec τ Unit} (h : ∀ a, Retains J (body a)) :
    Retains J (Action.forEach l body) := by
  induction l with
  | nil => exact pure ()
  | cons a l ih => exact bind (h a) fun _ => ih

end Retains

section

variable (h : Patient J)

include h

theorem Idles.retains {x : Exec τ α} (hx : Idles x) : Retains J x := fun s hs =>
  (hx s).mono (fun _ s' h' => h.idle s s' h' hs) (fun s' h' => h.idle s s' h' hs) fun _ _ => trivial

theorem findBucket_retains (key : τ.Key) (hash : UInt64) : Retains J (findBucket key hash) :=
  fun s hs => (findBucket_frame key hash).mono (fun _ s' h' => h.idle s s' h'.idle hs)
    (fun s' h' => h.idle s s' h'.idle hs) fun _ h' => h'

theorem eraseBucket_retains (b : ℕ) : Retains J (eraseBucket b) := fun s hs =>
  (eraseBucket_frame [] b).mono (fun _ s' h' => h.reindex s s' h' hs) (fun _ h' => h'.elim)
    fun _ h' => h'

theorem unlinkFromIteration_retains (i : ℕ) : Retains J (unlinkFromIteration i) := by
  refine Retains.bind Retains.getTable fun t => ?_
  cases t.iteration.getLast? with
  | none => exact Retains.undefined
  | some last =>
      refine Retains.ite (Retains.bind ?_ fun _ => Retains.bind ?_ fun _ => ?_) Retains.undefined
      · exact fun s hs => h.shrink s _ (by rw [List.length_set]) hs
      · exact Idles.retains h (Idles.setNode last)
      · exact fun s hs => h.shrink s _ (by rw [List.length_dropLast]; omega) hs

theorem eraseLocated_retains (b : ℕ) : Retains J (eraseLocated b) :=
  Retains.bind (Idles.retains h (Idles.bucketAt b)) fun _ =>
    Retains.bind (eraseBucket_retains h b) fun _ =>
      Retains.bind (Idles.retains h (Idles.destroyValue _)) fun _ =>
        Retains.bind (unlinkFromIteration_retains h _) fun _ =>
          Idles.retains h (Idles.releaseNode _)

/-- A hash and a lookup, then the rest. -/
theorem locate_retains (key : τ.Key) {g : ℕ → Exec τ α} (hg : ∀ b, Retains J (g b)) :
    Retains J (callMixedHash key >>= fun hash => findBucket key hash >>= g) :=
  Retains.bind (Idles.retains h (Idles.callMixedHash key)) fun hash =>
    Retains.bind (findBucket_retains h key hash) hg

theorem eraseNode_retains (node : ℕ) : Retains J (eraseNode node) :=
  Retains.bind (Idles.retains h (Idles.keyAt node)) fun key =>
    locate_retains h key fun b => eraseLocated_retains h b

theorem extractLocated_retains (b : ℕ) : Retains J (extractLocated b) := by
  refine Retains.bind (Idles.retains h (Idles.bucketAt b)) fun bucket =>
    Retains.bind (Idles.retains h Idles.allocateCell) fun id =>
      Retains.bind (Idles.retains h (Idles.elementAt _)) fun source =>
        Retains.bind (Retains.cleanup (Idles.retains h (Idles.constructElement _)) ?_) fun _ =>
          Retains.bind (Idles.retains h (Idles.assignValue _ _)) fun _ =>
            Retains.bind (eraseLocated_retains h b) fun _ =>
              Retains.bind Retains.getTable fun _ => Retains.pure _
  exact Idles.retains h (Idles.modifyHeap fun _ => rfl)

theorem clear_retains : Retains J (clear : Exec τ Unit) := by
  refine Retains.bind Retains.getTable fun t => Retains.ite (Retains.pure _) ?_
  refine Retains.bind (Idles.retains h Idles.destroyAllValues) fun _ => fun s hs => ?_
  have hcells := h.reindex s _ (Reindexes.setCells s emptyCells) hs
  have hempty := h.shrink _ [] (Nat.zero_le _) hcells
  exact h.idle ⟨{ s.table.setCells emptyCells with iteration := [] }, s.heap⟩ _
    ⟨⟨rfl, rfl, rfl, rfl⟩, rfl, rfl⟩ hempty

/-- The operation neither inserts an element nor rebuilds the index. -/
def Passive : Op τ → Prop
  | .insert _ | .tryEmplace _ _ | .insertOrAssign _ _ | .rehash _ | .reserve _
  | .maxLoadFactor _ => False
  | _ => True

theorem Op.retains {op : Op τ} (hop : Passive op) : Retains J op.exec := by
  cases op with
  | insert | tryEmplace | insertOrAssign | rehash | reserve | maxLoadFactor => exact hop.elim
  | assign node mapped =>
      exact Retains.bind (Idles.retains h (Idles.assignValue node _)) fun _ => Retains.pure _
  | eraseKey key =>
      refine Retains.bind (locate_retains h key fun b => Retains.bind Retains.getTable fun t =>
        Retains.ite (Retains.pure _) ?_) fun _ => Retains.pure _
      exact Retains.bind (eraseLocated_retains h b) fun _ => Retains.pure _
  | eraseAt node =>
      refine Retains.bind (Retains.bind Retains.getTable fun t => ?_) fun _ => Retains.pure _
      exact Retains.bind (eraseNode_retains h node) fun _ =>
        Retains.bind Retains.getTable fun _ => Retains.pure _
  | eraseRange first last =>
      refine Retains.bind (Retains.bind Retains.getTable fun t => ?_) fun _ => Retains.pure _
      cases t.range (kNullIndex + 1) first last with
      | none => exact Retains.undefined
      | some doomed =>
          refine Retains.bind (Retains.forEach fun _ => Idles.retains h (Idles.mayThrow _))
            fun _ => Retains.bind (Retains.forEach fun node => eraseNode_retains h node)
              fun _ => Retains.pure _
  | extractKey key =>
      exact Retains.bind (locate_retains h key fun b => Retains.bind Retains.getTable fun t =>
        Retains.ite (Retains.pure _) (extractLocated_retains h b)) fun _ => Retains.pure _
  | extractAt node =>
      refine Retains.bind (Retains.bind (Idles.retains h (Idles.keyAt node)) fun key =>
        locate_retains h key fun b => extractLocated_retains h b) fun _ => Retains.pure _
  | clear => exact Retains.bind (clear_retains h) fun _ => Retains.pure _
  | find key =>
      refine Retains.bind (locate_retains h key fun b => Retains.bind Retains.getTable fun t =>
        Retains.ite (Retains.pure _) ?_) fun _ => Retains.pure _
      exact Retains.bind (Idles.retains h (Idles.bucketAt b)) fun _ => Retains.pure _

end

/-! ## The potential -/

/-- The elements that rebuilds have moved, each time that one did. -/
def moves (heap : Heap) : ℕ := (heap.rehashes.map Prod.snd).sum

/-- The moves are paid for by `n` insertions, and while there are buckets, what they have not
used up covers the elements beyond half the threshold. -/
structure Paid (n : ℕ) (s : Store τ) : Prop where
  moved : moves s.heap ≤ 2 * n
  saved : s.table.buckets = none ∨
    moves s.heap + 2 * s.table.size ≤ 2 * n + s.table.maxLoadCapacity

theorem Paid.mono (h : Paid n s) (hnm : n ≤ m) : Paid m s where
  moved := by
    have := h.moved
    omega
  saved := h.saved.imp_right fun h' => by omega

theorem moves_congr {heap heap' : Heap} (h : heap'.rehashes = heap.rehashes) :
    moves heap' = moves heap := by
  unfold moves
  rw [h]

/-- With the same record, the same threshold and no more elements, the moves stay paid for. -/
theorem Paid.of_sizes (h : Paid n s) (hbuckets : s.table.buckets = none → s'.table.buckets = none)
    (hcapacity : s'.table.maxLoadCapacity = s.table.maxLoadCapacity)
    (hsize : s'.table.size ≤ s.table.size) (hmoves : moves s'.heap = moves s.heap) : Paid n s' where
  moved := by
    rw [hmoves]
    exact h.moved
  saved := by
    rw [hmoves, hcapacity]
    exact h.saved.imp hbuckets fun h' => by omega

theorem paid_patient (n : ℕ) : Patient (Paid n : Store τ → Prop) where
  idle s s' h hs := hs.of_sizes (fun hnone => h.index.buckets.trans hnone)
    h.index.maxLoadCapacity h.size.le (moves_congr h.rehashes)
  reindex s s' h hs := by
    obtain ⟨cells, hcells⟩ := h.cells
    refine hs.of_sizes (fun hnone => ?_) h.maxLoadCapacity h.size.le (moves_congr ?_)
    · rw [hcells, hnone]
      rfl
    · rw [h.heap]
      rfl
  shrink s l hle hs := hs.of_sizes id rfl hle rfl

/-- Twice the buckets have at least twice the threshold. -/
theorem twice_computeLoadCapacity (factor : LoadFactor τ.rounding) (k : ℕ) :
    2 * computeLoadCapacity factor (2 ^ k) ≤ computeLoadCapacity factor (2 ^ (k + 1)) := by
  have hpos := Nat.two_pow_pos k
  have hpow : 2 ^ (k + 1) = 2 * 2 ^ k := by ring
  cases factor with
  | infinity =>
      show 2 * (2 ^ k - 1) ≤ 2 ^ (k + 1) - 1
      omega
  | finite q pos represented =>
      obtain ⟨hlt, hle⟩ := le_computeLoadCapacity_two_pow.mp
        (le_refl (computeLoadCapacity (.finite q pos represented) (2 ^ k)))
      refine le_computeLoadCapacity_two_pow.mpr ⟨by omega, ?_⟩
      rw [pow_succ]
      push_cast
      linarith

/-! ## Rebuilds -/

/-- What a rebuild leaves, or an exception during one: the elements have been counted as
moved, and the threshold is the new one unless there are no buckets. -/
structure AllMoved (s : Store τ) (newBucketCount : ℕ) (s' : Store τ) : Prop where
  size : s'.table.size = s.table.size
  moves : moves s'.heap = moves s.heap + s.table.size
  capacity : s'.table.buckets = none ∨
    s'.table.maxLoadCapacity = computeLoadCapacity s.table.maxLoadFactor newBucketCount

theorem AllMoved.idle (h : AllMoved s m s') (hi : Idle s' s'') : AllMoved s m s'' where
  size := hi.size.trans h.size
  moves := (moves_congr hi.rehashes).trans h.moves
  capacity := by
    rw [hi.index.buckets, hi.index.maxLoadCapacity]
    exact h.capacity

theorem AllMoved.reindex {ps : List Point} (h : AllMoved s m s') (hr : Reindexes ps s' s'') :
    AllMoved s m s'' where
  size := hr.size.trans h.size
  moves := by
    rw [← h.moves, hr.heap]
    rfl
  capacity := by
    obtain ⟨cells, hcells⟩ := hr.cells
    refine h.capacity.imp (fun hnone => ?_) hr.maxLoadCapacity.trans
    rw [hcells, hnone]
    rfl

theorem rehashTo_moved (newBucketCount : ℕ) :
    Action.Post Stuck.anyhow (rehashTo newBucketCount) s (fun _ => AllMoved s newBucketCount)
      (AllMoved s newBucketCount) := by
  have hrecord : Analysis.moves { s.heap with
      rehashes := s.heap.rehashes ++ [(newBucketCount, s.table.size)] } =
        Analysis.moves s.heap + s.table.size := by
    unfold Analysis.moves
    rw [List.map_append, List.sum_append]
    rfl
  unfold rehashTo
  rw [post_getTable, post_modifyHeap]
  refine Action.Post.bind (Q := fun _ s1 => s1.table.iteration = s.table.iteration ∧
    s1.table.maxLoadFactor = s.table.maxLoadFactor ∧ s1.table.buckets = none ∧
    Analysis.moves s1.heap = Analysis.moves s.heap + s.table.size) (E := fun _ => False) ?_
    (fun _ h' => h'.elim) ?_
  · unfold deallocateBuckets
    rw [post_getTable]
    cases hb : s.table.buckets with
    | none => exact ⟨rfl, rfl, hb, hrecord⟩
    | some array => exact ⟨rfl, rfl, rfl, hrecord⟩
  rintro ⟨⟩ s1 ⟨hiter1, hfactor1, hnone1, hmoves1⟩
  refine Action.Post.bind (Q := fun _ => AllMoved s newBucketCount)
    (E := AllMoved s newBucketCount) ?_ (fun _ h' => h') fun _ s2 h2 => ?_
  · unfold allocateBuckets
    refine post_mayThrow_bind (fun g _ => ?_) fun _ _ =>
      ⟨congrArg List.length hiter1, hmoves1, Or.inl hnone1⟩
    rw [post_freshId, post_modifyHeap, post_modifyTable_last]
    exact ⟨congrArg List.length hiter1, hmoves1,
      Or.inr (congrArg (computeLoadCapacity · newBucketCount) hfactor1)⟩
  · refine (Action.Post.forEach (fun _ => AllMoved s newBucketCount) h2 ?_).mono (fun _ _ h' => h')
      (fun _ h' => h') fun _ h' => h'
    rintro done node rest s3 - h3
    exact (replaceNode_frame node).mono (fun _ s4 h4 => h3.reindex h4)
      (fun s4 h4 => h3.idle h4.idle) fun _ h' => h'

/-- A growth spends what has been saved, and the new threshold leaves as much to be saved. -/
theorem AllMoved.paid (h : AllMoved s (2 ^ (k + 1)) s') (hp : Paid n s)
    (hbuckets : s.table.buckets ≠ none) (hcapacity : s.table.maxLoadCapacity = s.table.size)
    (hthreshold : s.table.size = computeLoadCapacity s.table.maxLoadFactor (2 ^ k)) :
    Paid n s' := by
  have hsaved := hp.saved.resolve_left hbuckets
  have htwice := twice_computeLoadCapacity s.table.maxLoadFactor k
  have hmoves := h.moves
  have hsize := h.size
  refine ⟨by omega, h.capacity.imp_right fun h' => by omega⟩

theorem reserveForOneMore_paid (hb : Below f 0 s.table) (hp : Paid n s)
    (hfound : s.table.bucketCount = 0 ∨ s.table.buckets ≠ none) :
    Action.Post Stuck.anyhow reserveForOneMore s
      (fun _ s' => Paid n s' ∧ s'.table.size = s.table.size)
      (fun s' => Paid n s' ∧ s'.table.size = s.table.size) := by
  unfold reserveForOneMore
  rw [post_getTable]
  rcases hb.room with ⟨hcount, hzero⟩ | ⟨k, hk, hcount, hcapacity, hsize⟩
  · -- the first buckets move nothing
    have hsize0 : s.table.size = 0 := hzero
    have hmoved := hp.moved
    have hfirst : ∀ s', AllMoved s kInitialBucketCount s' →
        Paid n s' ∧ s'.table.size = s.table.size := by
      intro s' h
      have hmoves := h.moves
      have hsize := h.size
      exact ⟨⟨by omega, h.capacity.imp_right fun _ => by omega⟩, hsize⟩
    rw [if_pos hcount]
    exact (rehashTo_moved kInitialBucketCount).mono (fun _ s' h' => hfirst s' h')
      (fun s' h' => hfirst s' h') fun _ h' => h'
  · have hne : s.table.bucketCount ≠ 0 := by
      rw [hcount]
      exact (Nat.two_pow_pos k).ne'
    rw [if_neg hne]
    split
    · next hgrow =>
        have hfull : s.table.maxLoadCapacity = s.table.size := by omega
        have hgrown : ∀ s', AllMoved s (s.table.bucketCount * 2) s' →
            Paid n s' ∧ s'.table.size = s.table.size := by
          intro s' h
          rw [hcount, ← pow_succ] at h
          refine ⟨h.paid hp (hfound.resolve_left hne) hfull ?_, h.size⟩
          rw [hb.factor]
          omega
        exact (rehashTo_moved _).mono (fun _ s' h' => hgrown s' h') (fun s' h' => hgrown s' h')
          fun _ h' => h'
    · exact ⟨hp, rfl⟩

/-! ## Insertions -/

/-- Every element that the table has more than `m` pays for two moves. -/
def Gained (n m : ℕ) (s : Store τ) : Prop := Paid (n + (s.table.size - m)) s

theorem Paid.gained (h : Paid n s) (m : ℕ) : Gained n m s := h.mono (Nat.le_add_right n _)

/-- A call that leaves index and elements alone costs nothing. -/
theorem Paid.gained_of_idle (h : Paid n s) (s' : Store τ) (hidle : Idle s s') :
    Gained n s.table.size s' := ((paid_patient n).idle s s' hidle h).gained _

theorem linkIntoIteration_paid (i : ℕ) (hp : Paid n s) :
    Action.Post Stuck.anyhow (linkIntoIteration i) s
      (fun _ s' => Paid (n + 1) s' ∧ s'.table.size = s.table.size + 1)
      (fun s' => Paid n s' ∧ s'.table.size = s.table.size) := by
  have hidle : ∀ s', Idle s s' → Paid n s' ∧ s'.table.size = s.table.size := fun s' h' =>
    ⟨(paid_patient n).idle s s' h' hp, h'.size⟩
  unfold linkIntoIteration
  refine post_idles trivial (Idles.setNode i) hidle fun _ s1 h1 =>
    post_idles trivial (Idles.mayThrow .iterationGrowth) (fun s' h' => hidle s' (h1.trans h'))
      fun _ s2 h2 => ?_
  obtain ⟨hp2, hsize2⟩ := hidle s2 (h1.trans h2)
  rw [post_modifyTable_last]
  have hlength : (s2.table.iteration ++ [i]).length = s2.table.size + 1 := by
    rw [List.length_append, List.length_singleton]
    rfl
  have hmoved := hp2.moved
  refine ⟨⟨by show moves s2.heap ≤ _; omega, hp2.saved.imp_right fun h' => ?_⟩,
    hlength.trans (congrArg (· + 1) hsize2)⟩
  show moves s2.heap + 2 * (s2.table.iteration ++ [i]).length ≤ _ + s2.table.maxLoadCapacity
  omega

theorem attachNode_paid (i : ℕ) (hb : Below f 0 s.table) (hp : Paid n s)
    (hfound : s.table.bucketCount = 0 ∨ s.table.buckets ≠ none) :
    Action.Post Stuck.anyhow (attachNode i) s (fun _ => Gained n s.table.size)
      (Gained n s.table.size) := by
  have hback : Idles (destroyValue i >>= fun _ => releaseNode i : Exec τ Unit) :=
    Idles.bind (Idles.destroyValue i) fun _ => Idles.releaseNode i
  unfold attachNode
  refine Action.Post.bind (Q := fun _ s' => Paid (n + 1) s' ∧ s'.table.size = s.table.size + 1)
    (E := Paid n) (Action.Post.cleanup (E := Paid n) ?_ fun s1 h1 => ?_)
    (fun s1 h1 => h1.gained _) fun _ s1 h1 => ?_
  · refine Action.Post.bind (reserveForOneMore_paid hb hp hfound) (fun s1 h1 => h1.1) ?_
    rintro ⟨⟩ s1 ⟨h1, hsize1⟩
    rw [← hsize1]
    exact (linkIntoIteration_paid i h1).mono (fun _ _ h' => h') (fun _ h' => h'.1) fun _ h' => h'
  · exact (Idles.retains (paid_patient n) hback) s1 h1
  · obtain ⟨hp1, hsize1⟩ := h1
    -- the element is listed, and its bucket comes last
    have hlisted : ∀ s' : Store τ, s'.table.size = s1.table.size → Paid (n + 1) s' →
        Gained n s.table.size s' := by
      intro s' hsize h'
      unfold Gained
      rwa [hsize, hsize1, Nat.add_sub_cancel_left]
    have hidle : ∀ s', Idle s1 s' → Gained n s.table.size s' := fun s' h' =>
      hlisted s' h'.size ((paid_patient _).idle s1 s' h' hp1)
    refine post_idles trivial (Idles.keyAt i) hidle fun key s2 h2 =>
      post_idles trivial (Idles.callMixedHash key) (fun s' h' => hidle s' (h2.trans h'))
        fun hash s3 h3 => ?_
    have h23 := h2.trans h3
    refine (insertKnownAbsent_frame [] i hash).mono (fun _ s4 h4 => ?_) (fun _ h' => h'.elim)
      fun _ h' => h'
    exact hlisted s4 (h4.size.trans h23.size)
      ((paid_patient _).reindex s3 s4 h4 ((paid_patient _).idle s1 s3 h23 hp1))

/-- A lookup that ends has found a table without buckets, or with its buckets in place. -/
theorem findBucket_found (key : τ.Key) (hash : UInt64) :
    Action.Post Stuck.anyhow (findBucket key hash) s
      (fun _ s' => s'.table = s.table ∧ (s.table.bucketCount = 0 ∨ s.table.buckets ≠ none) ∧
        Idle s s') (Idle s) := by
  have hbuckets : Action.Post Stuck.anyhow (findBucket key hash) s
      (fun _ _ => s.table.bucketCount = 0 ∨ s.table.buckets ≠ none) (fun _ => True) := by
    unfold findBucket
    rw [post_getTable]
    by_cases hzero : s.table.bucketCount = 0
    · rw [if_pos hzero]
      exact Or.inl hzero
    · rw [if_neg hzero]
      cases loopFuel s.table.bucketCount with
      | zero => trivial
      | succ fuel =>
          unfold findBucketLoop
          rw [post_getTable]
          refine post_bucketAt (fun array harray _ => ?_) fun _ => trivial
          refine (Action.Post.any _ _).mono (fun _ _ _ => Or.inr ?_) (fun _ _ => trivial)
            fun _ h' => h'
          rw [harray]
          exact Option.some_ne_none array
  exact (hbuckets.and (findBucket_frame key hash)).mono
    (fun _ s' h' => ⟨h'.2.table, h'.1, h'.2.idle⟩) (fun s' h' => h'.2.idle) fun _ h' => h'

section

variable {Q : β → Store τ → Prop} {E : Store τ → Prop}

/-- A call that leaves index and elements alone, then the rest. -/
theorem post_idles_below {x : Exec τ α} {g : α → Exec τ β} (hx : Idles x)
    (hkeeps : KeepsTable (Below f 0) x) (hb : Below f 0 s.table) (hE : ∀ s', Idle s s' → E s')
    (hg : ∀ a s', Idle s s' → Below f 0 s'.table → Action.Post Stuck.anyhow (g a) s' Q E) :
    Action.Post Stuck.anyhow (x >>= g) s Q E := by
  have hidle := (hx s).mono (fun _ _ h => h) (fun _ h => h) fun _ _ => (trivial : Stuck.anyhow _)
  have hbelow : Action.Post Stuck.anyhow x s (fun _ s' => Below f 0 s'.table)
      fun s' => Below f 0 s'.table := Action.Keeps.post hkeeps hb
  exact Action.Post.bind (hidle.and hbelow) (fun s' h => hE s' h.1) fun a s' h =>
    hg a s' h.1 h.2

/-- A hash and a lookup, then the rest. -/
theorem post_locate_below {key : τ.Key} {g : ℕ → Exec τ β} (hb : Below f 0 s.table)
    (hE : ∀ s', Idle s s' → E s')
    (hg : ∀ b s', Idle s s' → Below f 0 s'.table →
      (s'.table.bucketCount = 0 ∨ s'.table.buckets ≠ none) →
      Action.Post Stuck.anyhow (g b) s' Q E) :
    Action.Post Stuck.anyhow (callMixedHash key >>= fun hash => findBucket key hash >>= g) s Q E :=
  post_idles_below (Idles.callMixedHash key)
    (keeps_callMixedHash below_steady.toForgetful key) hb hE fun hash s1 h1 hb1 => by
      refine Action.Post.bind (findBucket_found key hash) (fun s' h' => hE s' (h1.trans h')) ?_
      rintro b s2 ⟨htable, hfound, h2⟩
      rw [← htable] at hb1 hfound
      exact hg b s2 (h1.trans h2) hb1 hfound

end

section

variable (hb : Below f 0 s.table) (hp : Paid n s)

include hb hp

theorem emplaceImpl_paid (v : τ.Value) :
    Action.Post Stuck.anyhow (emplaceImpl v) s (fun _ => Gained n s.table.size)
      (Gained n s.table.size) := by
  unfold emplaceImpl
  refine post_idles_below (Idles.buildNode v) (keeps_buildNode below_steady v) hb hp.gained_of_idle
    fun i s1 h1 hb1 => post_idles_below (Idles.keyAt i) (keeps_keyAt i) hb1
      (fun s' h' => hp.gained_of_idle s' (h1.trans h')) fun key s2 h2 hb2 => ?_
  have h12 := h1.trans h2
  refine post_locate_below hb2 (fun s' h' => hp.gained_of_idle s' (h12.trans h'))
    fun b s3 h3 hb3 hfound => ?_
  have h13 := h12.trans h3
  rw [post_getTable]
  split
  · have hgone : Idles (do
        let bucket ← bucketAt b
        destroyValue i
        releaseNode i
        pure (bucket.nodeIndex, false) : Exec τ (ℕ × Bool)) :=
      Idles.bind (Idles.bucketAt b) fun _ => Idles.bind (Idles.destroyValue i) fun _ =>
        Idles.bind (Idles.releaseNode i) fun _ => Idles.pure _
    exact (hgone s3).mono (fun _ s' h' => hp.gained_of_idle s' (h13.trans h'))
      (fun s' h' => hp.gained_of_idle s' (h13.trans h')) fun _ _ => trivial
  · have hattach := attachNode_paid i hb3 ((paid_patient n).idle s s3 h13 hp) hfound
    rw [h13.size] at hattach
    exact Action.Post.bind hattach (fun _ h' => h') fun _ _ h' => h'

/-- The element is built and listed, and then nothing moves. -/
theorem insertAbsent_paid {g : ℕ → Exec τ β} (v : τ.Value)
    (hfound : s.table.bucketCount = 0 ∨ s.table.buckets ≠ none) (hg : ∀ i, Idles (g i)) :
    Action.Post Stuck.anyhow (buildNode v >>= fun i => attachNode i >>= fun _ => g i) s
      (fun _ => Gained n s.table.size) (Gained n s.table.size) := by
  refine post_idles_below (Idles.buildNode v) (keeps_buildNode below_steady v) hb
    hp.gained_of_idle fun i s1 h1 hb1 => ?_
  have hattach := attachNode_paid i hb1 ((paid_patient n).idle s s1 h1 hp)
    (by rwa [h1.index.bucketCount, h1.index.buckets])
  rw [h1.size] at hattach
  refine Action.Post.bind hattach (fun _ h' => h') fun _ s2 h2 => ?_
  have hlast : ∀ s', Idle s2 s' → Gained n s.table.size s' := fun s' h' => by
    unfold Gained at h2 ⊢
    rw [h'.size]
    exact (paid_patient _).idle s2 s' h' h2
  exact (hg i s2).mono (fun _ s' h' => hlast s' h') hlast fun _ _ => trivial

theorem tryEmplaceImpl_paid (key : τ.Key) (mapped : τ.Mapped) :
    Action.Post Stuck.anyhow (tryEmplaceImpl key mapped) s (fun _ => Gained n s.table.size)
      (Gained n s.table.size) := by
  unfold tryEmplaceImpl
  refine post_locate_below hb hp.gained_of_idle fun b s1 h1 hb1 hfound => ?_
  rw [post_getTable]
  split
  · exact post_idles trivial (Idles.bucketAt b) (fun s' h' => hp.gained_of_idle s' (h1.trans h'))
      fun bucket s2 h2 => hp.gained_of_idle s2 (h1.trans h2)
  · rw [← h1.size]
    exact insertAbsent_paid hb1 ((paid_patient n).idle s s1 h1 hp) _ hfound fun _ => Idles.pure _

theorem insertOrAssignImpl_paid (key : τ.Key) (mapped : τ.Mapped) :
    Action.Post Stuck.anyhow (insertOrAssignImpl key mapped) s (fun _ => Gained n s.table.size)
      (Gained n s.table.size) := by
  unfold insertOrAssignImpl
  refine post_locate_below hb hp.gained_of_idle fun b s1 h1 hb1 hfound => ?_
  rw [post_getTable]
  split
  · have hassign : Idles (do
        let bucket ← bucketAt b
        assignValue bucket.nodeIndex fun value => τ.assignMapped value mapped
        pure (bucket.nodeIndex, false) : Exec τ (ℕ × Bool)) :=
      Idles.bind (Idles.bucketAt b) fun _ => Idles.bind (Idles.assignValue _ _) fun _ =>
        Idles.pure _
    exact (hassign s1).mono (fun _ s' h' => hp.gained_of_idle s' (h1.trans h'))
      (fun s' h' => hp.gained_of_idle s' (h1.trans h')) fun _ _ => trivial
  · rw [← h1.size]
    exact tryEmplaceImpl_paid hb1 ((paid_patient n).idle s s1 h1 hp) key mapped

theorem insertNode_paid (handle : Handle τ) :
    Action.Post Stuck.anyhow (insertNode handle) s (fun _ => Gained n s.table.size)
      (Gained n s.table.size) := by
  unfold insertNode
  cases handle.value with
  | none => exact hp.gained_of_idle s (Idle.refl s)
  | some cell =>
      refine post_locate_below hb hp.gained_of_idle fun b s1 h1 hb1 hfound => ?_
      rw [post_getTable]
      split
      · exact post_idles trivial (Idles.bucketAt b)
          (fun s' h' => hp.gained_of_idle s' (h1.trans h'))
          fun bucket s2 h2 => hp.gained_of_idle s2 (h1.trans h2)
      · have hrelease : Idles (modifyHeap fun h => h.releaseHandle handle : Exec τ Unit) :=
          Idles.modifyHeap fun h => rehashes_releaseHandle h handle
        rw [← h1.size]
        exact insertAbsent_paid hb1 ((paid_patient n).idle s s1 h1 hp) cell.element.value hfound
          fun i => Idles.bind hrelease fun _ => Idles.pure _

/-- An operation that does not ask for a rebuild or for another load factor. -/
theorem Op.exec_paid {op : Op τ} (hop : ∀ k, op ≠ .rehash k) (hop' : ∀ k, op ≠ .reserve k)
    (hset : ∀ z, op ≠ .maxLoadFactor z) :
    Action.Post Stuck.anyhow op.exec s (fun _ => Gained n s.table.size)
      (Gained n s.table.size) := by
  have hpassive : Passive op → Action.Post Stuck.anyhow op.exec s
      (fun _ => Gained n s.table.size) (Gained n s.table.size) := fun h =>
    (Op.retains (paid_patient n) h s hp).mono (fun _ _ h' => h'.gained _) (fun _ h' => h'.gained _)
      fun _ h' => h'
  cases op with
  | insert value =>
      exact Action.Post.bind (emplaceImpl_paid hb hp value) (fun _ h' => h') fun _ _ h' => h'
  | tryEmplace key mapped =>
      exact Action.Post.bind (tryEmplaceImpl_paid hb hp key mapped) (fun _ h' => h')
        fun _ _ h' => h'
  | insertOrAssign key mapped =>
      exact Action.Post.bind (insertOrAssignImpl_paid hb hp key mapped) (fun _ h' => h')
        fun _ _ h' => h'
  | rehash k => exact absurd rfl (hop k)
  | reserve k => exact absurd rfl (hop' k)
  | maxLoadFactor z => exact absurd rfl (hset z)
  | assign | eraseKey | eraseAt | eraseRange | extractKey | extractAt | clear | find =>
      exact hpassive trivial

end

end Fum.Analysis

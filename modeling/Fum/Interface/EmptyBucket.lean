import Fum.Analysis.SpareBuckets
import Fum.Analysis.Emplacement
import Fum.Interface.Reservation

/-!
# An empty bucket

Every probe ends at an empty bucket, so a table must hold fewer elements than it has buckets.
`rehash` takes the bucket count that it needs for its elements from the load factor alone,
and with a factor above one this can be the number of elements or less; nothing else can use
up the last empty bucket.
-/

set_option autoImplicit false

namespace Fum.Interface

open Fum.Model Fum.Analysis Effects RobinHood

variable {τ : Traits} {s s' : Store τ} {t : Table τ} {k : ℕ}

/-! ## Requests -/

/-- A call of a member function, or the insertion of a node handle. -/
inductive Call (τ : Traits) where
  | member (op : Op τ)
  | insertNode (handle : Handle τ)

/-- A call with the place where it throws, if it does. -/
structure Request (τ : Traits) where
  call : Call τ
  fault : Option (Point × ℕ)

def Call.exec : Call τ → Exec τ Unit
  | .member op => do
      let _ ← op.exec
      pure ()
  | .insertNode handle => do
      let _ ← Model.insertNode handle
      pure ()

def Request.exec (r : Request τ) : Exec τ Unit where
  run s := r.call.exec.run ⟨s.table, withFault s.heap r.fault⟩

/-- The request does not ask for too few buckets. -/
def Request.Fits (t : Table τ) (r : Request τ) : Prop :=
  match r.call with
  | .member op => FitsIn t op
  | .insertNode _ => True

instance (t : Table τ) (r : Request τ) : Decidable (r.Fits t) := by
  unfold Request.Fits
  cases r.call with
  | member op => exact inferInstanceAs (Decidable (FitsIn t op))
  | insertNode handle => exact isTrue trivial

/-- The bucket counts that the request asks for lie within `std::size_t`. -/
def Request.Sizable (t : Table τ) (r : Request τ) : Prop :=
  match r.call with
  | .member op => SizableIn t op
  | .insertNode _ => True

/-- The request returns or throws. -/
def Request.Ends (s : Store τ) (r : Request τ) : Prop :=
  (r.exec.run s).1 = .ok () ∨ (r.exec.run s).1 = .thrown

instance (s : Store τ) (r : Request τ) : Decidable (r.Ends s) :=
  inferInstanceAs (Decidable (_ ∨ _))

/-- The store after a sequence of requests. -/
def after : Store τ → List (Request τ) → Store τ
  | s, [] => s
  | s, r :: rest => after (r.exec.run s).2 rest

/-- Each request satisfies `P` where it is made, and ends. -/
def Served (P : Table τ → Request τ → Prop) : Store τ → List (Request τ) → Prop
  | _, [] => True
  | s, r :: rest => P s.table r ∧ r.Ends s ∧ Served P (r.exec.run s).2 rest

instance Served.decidable {P : Table τ → Request τ → Prop} [∀ t r, Decidable (P t r)] :
    ∀ (requests : List (Request τ)) (s : Store τ), Decidable (Served P s requests)
  | [], _ => isTrue trivial
  | r :: rest, s =>
      @instDecidableAnd _ _ _ (@instDecidableAnd _ _ _ (Served.decidable rest (r.exec.run s).2))

/-- A new table and a memory in which nothing has happened. -/
def fresh (factor : LoadFactor τ.rounding) (hash : τ.Key → UInt64)
    (equal : τ.Key → τ.Key → Bool) (alloc : τ.Alloc) : Store τ :=
  ⟨Table.initial factor hash equal alloc, Heap.empty⟩

/-! ## What fits leaves a bucket to spare -/

/-- The table has no buckets or more buckets than elements, and so it had at every call of
`rehash_to`. -/
def SpareBucket (s : Store τ) : Prop :=
  (s.table.bucketCount = 0 ∨ s.table.size < s.table.bucketCount) ∧
    ∀ r ∈ s.heap.rehashes, r.2 < r.1

instance (s : Store τ) : Decidable (SpareBucket s) := inferInstanceAs (Decidable (_ ∧ _))

/-- The buckets have an empty one among them, and neither a lookup nor a request that fits
gets into a loop that never ends. -/
structure LoopsEnd (s : Store τ) : Prop where
  empty : ∀ array, s.table.buckets = some array →
    ∃ b < array.size, (array.cells b).distAndFingerprint = 0
  lookup : ∀ key hash, ((findBucket key hash).run s).1 ≠ .diverged
  request : ∀ r : Request τ, r.Fits s.table → (r.exec.run s).1 ≠ .diverged

theorem fresh_spare (U : Stuck → Prop) (factor : LoadFactor τ.rounding) (hash : τ.Key → UInt64)
    (equal : τ.Key → τ.Key → Bool) (alloc : τ.Alloc) :
    Spare U 0 (fresh factor hash equal alloc) where
  sizes := Or.inl ⟨rfl, rfl⟩
  rehashes r hr := by cases hr
  within := le_rfl
  cells _ array harray := by cases harray

theorem Request.exec_spare {U : Stuck → Prop} (hU : U .undefined) (r : Request τ)
    (hs : Spare U s.table.size s) (hfits : r.Fits s.table)
    (hroom : ¬ U .diverged → Room s.table) :
    Action.Post U r.exec s (fun _ s' => Spare U s'.table.size s')
      (fun s' => Spare U s'.table.size s') := by
  obtain ⟨call, fault⟩ := r
  have hs' : Spare U s.table.size (⟨s.table, withFault s.heap fault⟩ : Store τ) :=
    ⟨hs.sizes, hs.rehashes, le_rfl, hs.cells⟩
  have hcall : Action.Post U call.exec ⟨s.table, withFault s.heap fault⟩
      (fun _ s' => Spare U s'.table.size s') (fun s' => Spare U s'.table.size s') := by
    cases call with
    | member op =>
        exact Action.Post.bind (Op.exec_spare (s := ⟨s.table, withFault s.heap fault⟩) hU op hs'
          hfits hroom) (fun _ h' => h')
          fun _ _ h' => h'
    | insertNode handle =>
        exact Action.Post.bind (insertNode_spare hU hroom handle hs' rfl) (fun _ h' => h')
          fun _ _ h' => h'
  exact hcall

/-- A request that fits keeps a bucket to spare, a sequence of them too. -/
theorem Served.spare {U : Stuck → Prop} (hU : U .undefined) {requests : List (Request τ)} :
    ∀ s : Store τ, Served (fun t r => r.Fits t ∧ (¬ U .diverged → Room t)) s requests →
      Spare U s.table.size s →
      Spare U (after s requests).table.size (after s requests) := by
  induction requests with
  | nil => exact fun _ _ hs => hs
  | cons r rest ih =>
      rintro s ⟨⟨hfits, hroom⟩, hends, hrest⟩ hs
      have hpost := r.exec_spare hU hs hfits hroom
      refine ih _ hrest ?_
      rcases hends with hok | hthrown
      · have hrun : r.exec.run s = (.ok (), (r.exec.run s).2) := Prod.ext hok rfl
        exact hpost.ok_of_run hrun
      · have hrun : r.exec.run s = (.thrown, (r.exec.run s).2) := Prod.ext hthrown rfl
        exact hpost.thrown_of_run hrun

theorem Served.mono {P P' : Table τ → Request τ → Prop} {requests : List (Request τ)} :
    ∀ s : Store τ, Served P s requests → (∀ t r, P t r → P' t r) → Served P' s requests := by
  induction requests with
  | nil => exact fun _ _ _ => trivial
  | cons r rest ih => exact fun s h hP => ⟨hP _ _ h.1, h.2.1, ih _ h.2.2 hP⟩

theorem loopsEnd_of_spare (hs : Spare Stuck.undefinedOnly s.table.size s) (hroom : Room s.table) :
    LoopsEnd s := by
  have hU : Stuck.undefinedOnly .undefined := rfl
  have hd : ¬ Stuck.undefinedOnly .diverged := fun h => by cases h
  refine ⟨fun array harray => ?_, fun key hash => ?_, fun r hfits => ?_⟩
  · obtain ⟨k, h⟩ := hs.cells hd array harray
    obtain ⟨e, he, hempty⟩ := h.exists_empty (hs.sizes.size_lt h.bucketCount)
    exact ⟨e, by rw [h.size]; exact he, hempty⟩
  · have hpost : Action.Post Stuck.undefinedOnly (findBucket key hash >>= fun b => pure b) s
        (fun _ _ => True) (fun _ => True) :=
      post_findBucket_spare hU (fun _ => hroom) hs (fun _ _ => trivial) fun _ _ _ _ => trivial
    exact hpost.of_bind_pure.ends
  · exact (r.exec_spare hU hs hfits fun _ => hroom).ends

/-! ## What does not fit -/

/-- A request for more buckets than `std::size_t` counts has undefined behaviour. -/
theorem Request.undefined_of_not_sizable (r : Request τ) (h : ¬ r.Sizable s.table) :
    (r.exec.run s).1 = .undefined := by
  obtain ⟨call, fault⟩ := r
  cases call with
  | member op =>
      have hundefined : (op.exec.run ⟨s.table, withFault s.heap fault⟩).1 = .undefined :=
        Op.exec_undefined (s := ⟨s.table, withFault s.heap fault⟩) h
      show ((op.exec >>= fun _ => pure () : Exec τ Unit).run
        ⟨s.table, withFault s.heap fault⟩).1 = .undefined
      rw [Action.run_bind]
      rcases hrun : op.exec.run ⟨s.table, withFault s.heap fault⟩ with ⟨_ | _ | _ | _, s'⟩
      · rw [hrun] at hundefined
        cases hundefined
      · rw [hrun] at hundefined
        cases hundefined
      · rw [hrun] at hundefined
        cases hundefined
      · rfl
  | insertNode handle => exact absurd trivial h

/-- A request that asks for too few buckets, and returns, leaves none to spare. -/
theorem not_spareBucket_of_not_fits (r : Request τ) (hfits : ¬ r.Fits s.table)
    (hok : (r.exec.run s).1 = .ok ()) : ¬ SpareBucket (r.exec.run s).2 := by
  obtain ⟨call, fault⟩ := r
  have hrehash : ∀ n, ¬ RehashFits s.table n →
      Action.Post Stuck.anyhow (rehash n) ⟨s.table, withFault s.heap fault⟩
        (fun _ s' => ¬ SpareBucket s') (fun _ => True) := by
    intro n hn
    refine (rehash_sizes n ⟨s.table, withFault s.heap fault⟩).mono ?_ (fun _ h' => h')
      fun _ h' => h'
    rintro ⟨⟩ s' ⟨hsome, hresized, hsize⟩ ⟨hspare, -⟩
    obtain ⟨c, hc⟩ := Option.isSome_iff_exists.mp hsome
    obtain ⟨hne, hle⟩ := Classical.not_imp.mp fun h => hn ⟨c, hc, h⟩
    have hcount : s'.table.bucketCount = c := (hresized c hc hne).1
    have hsize' : s'.table.size = s.table.size := hsize
    rcases hspare with hzero | hlt
    · omega
    · omega
  have hreturn : ∀ {α : Type} {x : Exec τ α} {f : α → Reply τ},
      Action.Post Stuck.anyhow x ⟨s.table, withFault s.heap fault⟩
        (fun _ s' => ¬ SpareBucket s') (fun _ => True) →
      Action.Post Stuck.anyhow ((x >>= fun a => pure (f a)) >>= fun _ => pure () : Exec τ Unit)
        ⟨s.table, withFault s.heap fault⟩ (fun _ s' => ¬ SpareBucket s') (fun _ => True) :=
    fun hx => Action.Post.bind (Q := fun _ s' => ¬ SpareBucket s')
      (Action.Post.bind hx (fun _ h' => h') fun _ _ h' => h') (fun _ h' => h') fun _ _ h' => h'
  cases call with
  | member op =>
      cases op with
      | rehash requested => exact (hreturn (hrehash requested hfits)).ok_of_run (Prod.ext hok rfl)
      | reserve elementCount =>
          refine (hreturn ?_).ok_of_run (Prod.ext hok rfl)
          exact post_reserve (fun _ => trivial) fun m hm =>
            hrehash m fun hm' => hfits ⟨m, hm, hm'⟩
      | _ => exact absurd trivial hfits
  | insertNode handle => exact absurd trivial hfits

/-- All buckets of an index are occupied by as many nodes. -/
theorem full_of_length {H : ℕ → UInt64} {L : List ℕ} {cells : ℕ → Bucket}
    (I : Indexed H L t k cells) (hL : L.Nodup) (hlen : L.length = 2 ^ k) :
    ∀ q < 2 ^ k, words cells q ≠ 0 := by
  have hall : occupied (2 ^ k) (words cells) = Finset.range (2 ^ k) := by
    refine Finset.eq_of_subset_of_card_le (Finset.filter_subset _ _) ?_
    rw [Finset.card_range, I.card hL, hlen]
  intro q hq
  have hmem : q ∈ occupied (2 ^ k) (words cells) := by
    rw [hall]
    exact Finset.mem_range.mpr hq
  exact (mem_occupied.mp hmem).2

/-- With fewer buckets than elements and nothing that throws, `rehash_to` never returns: once
the buckets are full the next placement goes round for ever. -/
theorem rehashTo_endless (hk : 3 ≤ k) (hc : Consistent s.table) (hroom : Room s.table)
    (hquiet : s.heap.fault = none) (hlt : 2 ^ k < s.table.size) :
    ((rehashTo (2 ^ k)).run s).1 = .diverged := by
  have hL := hc.slots.iteration_nodup
  have hpost : Action.Post (fun h => h = Stuck.diverged) (rehashTo (2 ^ k)) s
      (fun _ _ => False) (fun _ => False) := by
    have hloud : ∀ s', RehashThrown s s' → False := fun s' h' => by
      rcases h'.index with ⟨hpoint, -⟩ | ⟨hpoint, -⟩ <;> exact fault_ne_none hpoint hquiet
    refine post_rehashTo hk hloud fun s1 h1 => ?_
    refine (Action.Post.forEach (fun done s' => Rehashed s k done s' ∧ done.length ≤ 2 ^ k)
      ⟨h1, Nat.zero_le _⟩ ?_).mono (fun _ s' h' => absurd h'.2 (not_le.mpr hlt)) (fun _ h' => h')
      fun _ h' => h'
    rintro done x rest s2 hsplit ⟨h2, hle⟩
    rcases Nat.lt_or_eq_of_le hle with hless | hfull
    · refine (h2.step hsplit hL (fun _ hx => hc.live hx) hless hroom).mono ?_ hloud fun _ h' => h'
      rintro ⟨⟩ s3 h3
      exact ⟨h3, by rw [List.length_append, List.length_singleton]; exact hless⟩
    · obtain ⟨cells, I⟩ := h2.indexed
      obtain ⟨array, harray, -, hcells⟩ := I.buckets
      rw [hsplit] at hL
      have hwords := full_of_length I (List.nodup_append.mp hL).1 hfull
      have hlive : (s2.table.nodeAt x).storage ≠ none := by
        rw [h2.arena.nodeAt]
        exact Option.isSome_iff_ne_none.mp (hc.live (by rw [hsplit]; simp))
      unfold replaceNode
      refine post_keyAt (fun e _ => ?_) fun hnone => absurd hnone hlive
      refine post_callMixedHash (fun f hf => ?_) fun hpoint _ => ?_
      · rw [post_getTable, I.homeFromHash]
        unfold placeAndShiftUp
        rw [post_getTable]
        refine post_getCells (fun array' harray' => ?_) fun hnone => ?_
        · have harray2 : s2.table.buckets = some array' := harray'
          rw [harray] at harray2
          cases harray2
          have hcount : (⟨s2.table, withFault s2.heap f⟩ : Store τ).table.bucketCount = 2 ^ k :=
            I.bucketCount
          rw [hcount, hcells, placeLoop_full _ _ _ _ _ hwords (shiftRight_lt k _)]
          rfl
        · have hnone2 : s2.table.buckets = none := hnone
          rw [harray] at hnone2
          cases hnone2
      · rw [h2.fault.point] at hpoint
        exact fault_ne_none hpoint hquiet
  exact hpost.diverges

/-- `rehash` with buckets to ask for is `rehash_to`. -/
theorem run_rehash (s : Store τ) {n c : ℕ} (hcount : rehashCount s.table n = some c)
    (hc : c ≠ 0) : (Model.rehash n).run s = (rehashTo c).run s := by
  obtain ⟨target, htarget, hround⟩ := Option.bind_eq_some_iff.mp hcount
  have hne : target ≠ 0 := by
    rintro rfl
    cases hround
    exact hc rfl
  rw [if_neg hne] at hround
  show (defined (s.table.rehashTarget n) >>= fun target =>
    if target = 0 then _ else defined (roundUpToPowerOfTwo target) >>= rehashTo :
      Exec τ Unit).run s = _
  rw [htarget]
  show (if target = 0 then _ else defined (roundUpToPowerOfTwo target) >>= rehashTo :
      Exec τ Unit).run s = _
  rw [if_neg hne, hround]
  rfl

/-! ## Sequences of requests -/

/-- Requests that fit, in which nothing throws, leave a consistent table consistent. -/
theorem Served.consistent {requests : List (Request τ)} :
    ∀ s : Store τ, Served (fun t r => r.Fits t ∧ Room t ∧ r.fault = none) s requests →
      Consistent s.table → Consistent (after s requests).table := by
  induction requests with
  | nil => exact fun _ _ hc => hc
  | cons r rest ih =>
      rintro s ⟨⟨hfits, hroom, hquiet⟩, hends, hrest⟩ hc
      refine ih _ hrest ?_
      obtain ⟨call, fault⟩ := r
      have hpost : Action.Post Stuck.undefinedOnly call.exec ⟨s.table, withFault s.heap fault⟩
          (fun _ s' => Consistent s'.table) (fun _ => False) := by
        cases call with
        | member op =>
            refine Action.Post.bind (Op.exec_spec (s := ⟨s.table, withFault s.heap fault⟩) op hc
              hroom hfits (Or.inl rfl)) (fun s' h' => h'.fault hquiet) fun _ _ h' => h'.1
        | insertNode handle =>
            cases hcell : handle.value with
            | none =>
                show Action.Post _ (Model.insertNode handle >>= fun _ => pure ()) _ _ _
                unfold Model.insertNode
                rw [hcell]
                exact hc
            | some cell =>
                exact Action.Post.bind (insertNode_spec
                  (s := ⟨s.table, withFault s.heap fault⟩) hcell hc hroom)
                  (fun s' h' => h'.fault hquiet) fun _ _ h' => h'.1
      rcases hends with hok | hthrown
      · have hrun : call.exec.run ⟨s.table, withFault s.heap fault⟩ =
            (.ok (), ((⟨call, fault⟩ : Request τ).exec.run s).2) := Prod.ext hok rfl
        exact hpost.ok_of_run hrun
      · have hrun : call.exec.run ⟨s.table, withFault s.heap fault⟩ =
            (.thrown, ((⟨call, fault⟩ : Request τ).exec.run s).2) := Prod.ext hthrown rfl
        exact (hpost.thrown_of_run hrun).elim

/-- On a table that starts empty, requests that do not ask for too few buckets always leave an
empty bucket, and every loop of theirs ends as long as the packed words have room for the
elements. A request that asks for too few, and returns, never leaves one, and a request for more
buckets than `std::size_t` counts has undefined behaviour. -/
theorem spareBucket_of_requests (factor : LoadFactor τ.rounding) (hash : τ.Key → UInt64)
    (equal : τ.Key → τ.Key → Bool) (alloc : τ.Alloc) {requests : List (Request τ)}
    (h : Served (fun t r => r.Fits t) (fresh factor hash equal alloc) requests) :
    SpareBucket (after (fresh factor hash equal alloc) requests) ∧
      (Served (fun t r => r.Fits t ∧ Room t) (fresh factor hash equal alloc) requests →
        Room (after (fresh factor hash equal alloc) requests).table →
          LoopsEnd (after (fresh factor hash equal alloc) requests)) ∧
      ∀ (s : Store τ) (r : Request τ),
        ((r.exec.run s).1 = .ok () → ¬ r.Fits s.table → ¬ SpareBucket (r.exec.run s).2) ∧
        (¬ r.Sizable s.table → (r.exec.run s).1 = .undefined) := by
  have hany : Stuck.anyhow .undefined := trivial
  have hend : Stuck.undefinedOnly .undefined := rfl
  refine ⟨?_, fun hserved hroom => ?_, fun s r =>
    ⟨fun hok hfits => not_spareBucket_of_not_fits r hfits hok, r.undefined_of_not_sizable⟩⟩
  · have hs := Served.spare hany _ (h.mono _ fun t r hr => ⟨hr, fun hd => absurd trivial hd⟩)
      (fresh_spare _ factor hash equal alloc)
    exact ⟨hs.sizes.size_lt_or, hs.rehashes⟩
  · have hs := Served.spare hend _ (hserved.mono _ fun t r hr => ⟨hr.1, fun _ => hr.2⟩)
      (fresh_spare _ factor hash equal alloc)
    exact loopsEnd_of_spare hs hroom

/-- Insertions of the keys below `n`, and then the load factor two. -/
def inserts (n : ℕ) : List (Request NatMap) :=
  (List.range n).map (fun i => ⟨.member (.insert (i, i)), none⟩) ++
    [⟨.member (.maxLoadFactor (.finite 2 rfl)), none⟩]

/-- An empty map of naturals. -/
def emptyMap : Store NatMap :=
  fresh (kDefaultMaxLoadFactor _) (fun k : ℕ => UInt64.ofNat k) (fun a b : ℕ => a == b) ()

theorem spareBucket_of_requests_two : SpareBucket (after emptyMap (inserts 2)) :=
  have hserved : Served (fun t r => r.Fits t) emptyMap (inserts 2) := by decide +kernel
  (spareBucket_of_requests _ _ _ _ hserved).1

/-- With a load factor of two, `rehash(0)` puts eight elements into eight buckets, and nine
elements never find a place in eight. -/
theorem rehash_uses_last_bucket :
    Served (fun _ r => r.fault = none) emptyMap (inserts 8 ++ [⟨.member (.rehash 0), none⟩]) ∧
      ¬ SpareBucket (after emptyMap (inserts 8 ++ [⟨.member (.rehash 0), none⟩])) ∧
      (after emptyMap (inserts 8 ++ [⟨.member (.rehash 0), none⟩])).heap.rehashes.getLast? =
        some (8, 8) ∧
      Served (fun _ r => r.fault = none) emptyMap (inserts 9) ∧
      ((Model.rehash 0).run (after emptyMap (inserts 9))).1 = .diverged := by
  refine ⟨by decide +kernel, by decide +kernel, by decide +kernel, by decide +kernel, ?_⟩
  have hserved : Served (fun t r => r.Fits t ∧ Room t ∧ r.fault = none) emptyMap (inserts 9) := by
    decide +kernel
  have hc := hserved.consistent _
    (@initial_wellFormed NatMap (kDefaultMaxLoadFactor _) (fun k : ℕ => UInt64.ofNat k)
      (fun a b : ℕ => a == b) ()).consistent
  have hcount : rehashCount (after emptyMap (inserts 9)).table 0 = some (2 ^ 3) := by
    decide +kernel
  have hmany : 2 ^ 3 < (after emptyMap (inserts 9)).table.size := by decide +kernel
  have hroom : Room (after emptyMap (inserts 9)).table := by decide +kernel
  have hquiet : (after emptyMap (inserts 9)).heap.fault = none := by decide +kernel
  generalize after emptyMap (inserts 9) = s at *
  rw [run_rehash s hcount (by decide)]
  exact rehashTo_endless le_rfl hc hroom hquiet hmany

end Fum.Interface

import Fum.Analysis.SlotNumbers

/-!
# Hashes with homes of their own

Where each key is at home in a bucket of its own, no probe goes past its home and no word
outgrows its 32 bits: insertions return however many elements there are. Such a hasher
takes the bits of a number in reverse order, because the home of a hash is its leading bits.
-/

set_option autoImplicit false

namespace Fum.Analysis

open Fum.Model Effects RobinHood

variable {τ : Traits} {s s' : Store τ} {t t' : Table τ} {g : ℕ → UInt64} {n N k x : ℕ}
  {hash : UInt64} {array : BucketArray τ}

/-! ## Leading bits -/

/-- The leading bits of a reversed word are the low bits of the word. -/
theorem testBit_reverse_shiftRight {w m i b : ℕ} (hm : m ≤ w) (hb : b < m) :
    ((BitVec.ofNat w i).reverse.toNat >>> (w - m)).testBit (m - 1 - b) = i.testBit b := by
  rw [Nat.testBit_shiftRight]
  have hindex : w - 1 - (w - m + (m - 1 - b)) = b := by omega
  have hlt : w - m + (m - 1 - b) < w := by omega
  have hbw : b < w := by omega
  rw [BitVec.testBit_toNat, BitVec.getLsbD_reverse, BitVec.getMsbD_eq_getLsbD, hindex,
    BitVec.getLsbD_ofNat]
  simp [hlt, hbw]

/-- Words below `2 ^ m` differ in the leading `m` bits of their reversals. -/
theorem eq_of_reverse_shiftRight {w m i j : ℕ} (hm : m ≤ w) (hi : i < 2 ^ m) (hj : j < 2 ^ m)
    (h : (BitVec.ofNat w i).reverse.toNat >>> (w - m) =
      (BitVec.ofNat w j).reverse.toNat >>> (w - m)) : i = j := by
  apply Nat.eq_of_testBit_eq
  intro b
  by_cases hb : b < m
  · rw [← testBit_reverse_shiftRight hm hb, h, testBit_reverse_shiftRight hm hb]
  · have hpow : 2 ^ m ≤ 2 ^ b := Nat.pow_le_pow_right (by decide) (not_lt.mp hb)
    rw [Nat.testBit_lt_two_pow (hi.trans_le hpow), Nat.testBit_lt_two_pow (hj.trans_le hpow)]

/-! ## Homes -/

/-- The bucket among `2 ^ k` in which a hash is at home. -/
def homeAt (k : ℕ) (hash : UInt64) : ℕ := hash.toNat >>> (64 - countrZero (2 ^ k))

/-- The first `n` hashes of a sequence have homes of their own among as many buckets. -/
def Spread (g : ℕ → UInt64) (n : ℕ) : Prop :=
  ∀ k i j, i < j → j < 2 ^ k → j < n → homeAt k (g i) ≠ homeAt k (g j)

/-- The bits of a word in reverse order. -/
def reverseBits (word : UInt64) : UInt64 := ⟨word.toBitVec.reverse⟩

theorem spread_reverseBits : Spread (fun i => reverseBits (UInt64.ofNat i)) (2 ^ 63) := by
  intro k i j hij hjk hj heq
  have hlt : j < 2 ^ min k 63 := by
    rcases Nat.le_total k 63 with hle | hle
    · rwa [Nat.min_eq_left hle]
    · rwa [Nat.min_eq_right hle]
  unfold homeAt at heq
  rw [countrZero_two_pow] at heq
  have hij' := eq_of_reverse_shiftRight (w := 64) (m := min k 63) (by omega)
    (hij.trans hlt) hlt heq
  omega

/-- There are `2 ^ k` buckets, and only the homes of the first `n` hashes are occupied. -/
structure Homes (g : ℕ → UInt64) (n k : ℕ) (t : Table τ) : Prop where
  bucketCount : t.bucketCount = 2 ^ k
  bucketShift : t.bucketShift = 64 - countrZero (2 ^ k)
  buckets : ∃ array, t.buckets = some array ∧ array.size = 2 ^ k ∧
    ∀ p < 2 ^ k, words array.cells p ≠ 0 → ∃ i < n, homeAt k (g i) = p

/-- The home bucket of a hash is empty. -/
structure VacantHome (t : Table τ) (array : BucketArray τ) (hash : UInt64) : Prop where
  buckets : t.buckets = some array
  pos : 0 < t.bucketCount
  lt : t.homeFromHash hash < array.size
  empty : words array.cells (t.homeFromHash hash) = 0

theorem Homes.homeFromHash (h : Homes g n k t) (hash : UInt64) :
    t.homeFromHash hash = homeAt k hash := by
  unfold Table.homeFromHash homeAt
  rw [h.bucketShift]

theorem Homes.congr (h : Homes g n k t) (hsame : SameIndex t t') : Homes g n k t' where
  bucketCount := hsame.bucketCount.trans h.bucketCount
  bucketShift := hsame.bucketShift.trans h.bucketShift
  buckets := by
    rw [hsame.buckets]
    exact h.buckets

/-- The next hash is at home in an empty bucket. -/
theorem Homes.vacant (h : Homes g n k t) (hg : Spread g N) (hn : n < N) (hlt : n < 2 ^ k) :
    ∃ array, VacantHome t array (g n) := by
  obtain ⟨array, harray, hsize, hcells⟩ := h.buckets
  refine ⟨array, harray, ?_, ?_, ?_⟩
  · rw [h.bucketCount]
    exact Nat.two_pow_pos k
  · rw [h.homeFromHash, hsize]
    exact shiftRight_lt k _
  · rw [h.homeFromHash]
    by_contra hocc
    obtain ⟨i, hi, heq⟩ := hcells _ (shiftRight_lt k _) hocc
    exact hg k i n hi hlt hn heq

/-- The next node has been put into its home bucket. -/
theorem Homes.place (h : Homes g n k t) (harray : t.buckets = some array) (bucket : Bucket) :
    Homes g (n + 1) k
      (t.setCells (Function.update array.cells (t.homeFromHash (g n)) bucket)) where
  bucketCount := h.bucketCount
  bucketShift := h.bucketShift
  buckets := by
    obtain ⟨array', harray', hsize, hcells⟩ := h.buckets
    rw [harray] at harray'
    cases harray'
    rw [h.homeFromHash]
    refine ⟨{ array with cells := Function.update array.cells (homeAt k (g n)) bucket },
      by simp [Table.setCells, harray], hsize, fun p hp hocc => ?_⟩
    by_cases heq : p = homeAt k (g n)
    · exact ⟨n, Nat.lt_succ_self n, heq.symm⟩
    · have hold : words array.cells p ≠ 0 := by
        simpa [words, Function.update_of_ne heq] using hocc
      obtain ⟨i, hi, hhome⟩ := hcells p hp hold
      exact ⟨i, hi.trans (Nat.lt_succ_self n), hhome⟩

/-! ## Loops that end at the home bucket -/

theorem loopFuel_eq_succ {bucketCount : ℕ} (hpos : 0 < bucketCount) :
    ∃ fuel, loopFuel bucketCount = fuel + 1 := by
  refine ⟨loopFuel bucketCount - 1, (Nat.sub_add_cancel ?_).symm⟩
  exact Nat.mul_pos hpos (Nat.two_pow_pos 24)

theorem VacantHome.findBucketLoop (h : VacantHome s.table array hash) (key : τ.Key) (fuel : ℕ) :
    (findBucketLoop key (fuel + 1) (distAndFingerprintFromHash hash)
      (s.table.homeFromHash hash)).run s = (.ok s.table.bucketCount, s) := by
  have hempty : (array.cells (s.table.homeFromHash hash)).distAndFingerprint = 0 := h.empty
  have hword : 0 < distAndFingerprintFromHash hash := by
    rw [distAndFingerprintFromHash_eq]
    exact Nat.add_pos_left (by decide) _
  unfold Model.findBucketLoop
  rw [run_getTable, Action.run_bind_ok _ (run_bucketAt h.buckets h.lt), hempty,
    if_neg hword.ne', if_pos hword]
  rfl

/-- A key with an empty home bucket is not found. -/
theorem VacantHome.findBucket (h : VacantHome s.table array hash) (key : τ.Key) :
    (findBucket key hash).run s = (.ok s.table.bucketCount, s) := by
  obtain ⟨fuel, hfuel⟩ := loopFuel_eq_succ h.pos
  unfold Model.findBucket
  rw [run_getTable, if_neg h.pos.ne', hfuel]
  have hloop := h.findBucketLoop key fuel
  exact hloop

section

variable {U : Stuck → Prop} {Q : Unit → Store τ → Prop} {E : Store τ → Prop}

/-- The node goes into the empty bucket, and nothing is shifted. -/
theorem VacantHome.post_placeAndShiftUp (h : VacantHome s.table array hash) {word p node : ℕ}
    (hp : s.table.homeFromHash hash = p)
    (hQ : Q () ⟨s.table.setCells (Function.update array.cells p ⟨word, node⟩), s.heap⟩) :
    Action.Post U (placeAndShiftUp word p node) s Q E := by
  have hempty : (array.cells p).distAndFingerprint = 0 := by
    rw [← hp]
    exact h.empty
  have hloop : placeLoop s.table.bucketCount (loopFuel s.table.bucketCount) array.cells word
      p node = some (Function.update array.cells p ⟨word, node⟩) := by
    obtain ⟨fuel, hfuel⟩ := loopFuel_eq_succ h.pos
    rw [hfuel, placeLoop, if_neg (not_not.mpr hempty)]
  unfold placeAndShiftUp
  rw [post_getTable]
  refine post_getCells (fun array' harray' => ?_) fun hnone => ?_
  · rw [h.buckets] at harray'
    cases harray'
    rw [hloop]
    exact hQ
  · rw [h.buckets] at hnone
    cases hnone

theorem VacantHome.post_insertKnownAbsent (h : VacantHome s.table array hash) {node : ℕ}
    (hQ : ∀ word, Q () ⟨s.table.setCells
      (Function.update array.cells (s.table.homeFromHash hash) ⟨word, node⟩), s.heap⟩) :
    Action.Post U (insertKnownAbsent node hash) s Q E := by
  have hempty : (array.cells (s.table.homeFromHash hash)).distAndFingerprint = 0 := h.empty
  obtain ⟨word, p, hp, hloop⟩ : ∃ word p, s.table.homeFromHash hash = p ∧
      probeStartLoop s.table.bucketCount array.cells (loopFuel s.table.bucketCount)
        (distAndFingerprintFromHash hash) (s.table.homeFromHash hash) = some (word, p) := by
    obtain ⟨fuel, hfuel⟩ := loopFuel_eq_succ h.pos
    refine ⟨distAndFingerprintFromHash hash, s.table.homeFromHash hash, rfl, ?_⟩
    rw [hfuel, probeStartLoop, hempty, if_neg (Nat.not_lt_zero _)]
  unfold insertKnownAbsent probeStart
  simp only [Action.bind_assoc]
  rw [post_getTable]
  refine post_getCells (fun array' harray' => ?_) fun hnone => ?_
  · rw [h.buckets] at harray'
    cases harray'
    rw [hloop]
    rw [hp] at hQ
    exact h.post_placeAndShiftUp hp (hQ word)
  · rw [h.buckets] at hnone
    cases hnone

end

/-! ## Rows of nodes -/

/-- The nodes of the table hold keys with the first hashes of the sequence, in order. -/
def InRow (g : ℕ → UInt64) (t : Table τ) : Prop :=
  ∀ j x, t.iteration[j]? = some x →
    ∃ e, (t.nodeAt x).storage = some e ∧ t.mixedHash (τ.keyOf e.value) = g j

/-- The table has no buckets and no elements, or more buckets than elements, of which the
homes of the elements are occupied. -/
def HomesInOrder (g : ℕ → UInt64) (t : Table τ) : Prop :=
  t.bucketCount = 0 ∧ t.size = 0 ∨
    ∃ k, 3 ≤ k ∧ t.size < 2 ^ k ∧ t.maxLoadCapacity < 2 ^ k ∧ Homes g t.size k t

theorem InRow.congr (h : InRow g t) (harena : SameArena t t') (hpolicy : SamePolicy t t') :
    InRow g t' := by
  intro j x hx
  rw [harena.iteration] at hx
  obtain ⟨e, he, hhash⟩ := h j x hx
  refine ⟨e, ?_, ?_⟩
  · rwa [harena.nodeAt]
  · rwa [hpolicy.mixedHash]

/-- The hash of a key that is next in the row is not found. -/
theorem HomesInOrder.findBucket (h : HomesInOrder g s.table) (hg : Spread g N)
    (hN : s.table.size < N) (key : τ.Key) :
    (findBucket key (g s.table.size)).run s = (.ok s.table.bucketCount, s) := by
  rcases h with ⟨hcount, -⟩ | ⟨k, -, hlt, -, hhomes⟩
  · unfold Model.findBucket
    rw [run_getTable, if_pos hcount]
    rfl
  · obtain ⟨array, hvacant⟩ := hhomes.vacant hg hN hlt
    exact hvacant.findBucket key

/-- The table does not contain a key that is next in the row. -/
theorem HomesInOrder.not_containsKey (h : HomesInOrder g t) (hg : Spread g N) (hN : t.size < N)
    {key : τ.Key} (hhash : t.mixedHash key = g t.size) : ¬ ContainsKey t key := by
  intro hthere
  obtain ⟨b, s', hne, hrun⟩ := hthere.run_findBucket
  obtain ⟨s, hs⟩ : ∃ s : Store τ, s = ⟨t, Heap.empty⟩ := ⟨_, rfl⟩
  have htable : s.table = t := by rw [hs]
  rw [← hs] at hrun
  subst htable
  rw [hhash, h.findBucket hg hN key] at hrun
  cases hrun
  exact hne rfl

/-! ## Room for one more -/

/-- The first `m` nodes are at home in `2 ^ k` new buckets, and nothing else has changed. -/
structure Rehomed (g : ℕ → UInt64) (s : Store τ) (k m : ℕ) (s' : Store τ) : Prop where
  arena : SameArena s.table s'.table
  policy : SamePolicy s.table s'.table
  capacity : s'.table.maxLoadCapacity = computeLoadCapacity s.table.maxLoadFactor (2 ^ k)
  homes : Homes g m k s'.table
  quiet : s'.heap.fault = none

theorem Rehashed.rehomed (h : Rehashed s k [] s') (hquiet : s.heap.fault = none) :
    Rehomed g s k 0 s' where
  arena := h.arena
  policy := h.policy
  capacity := h.capacity
  homes := by
    obtain ⟨cells, I⟩ := h.indexed
    obtain ⟨array, harray, hsize, hcells⟩ := I.buckets
    refine ⟨I.bucketCount, I.bucketShift, array, harray, hsize, fun p hp hocc => ?_⟩
    rw [hcells] at hocc
    have hmem : nodes cells p ∈ ([] : List ℕ) := (I.holds _).mp ⟨p, hp, hocc, rfl⟩
    cases hmem
  quiet := Through.none (hquiet ▸ h.fault)

/-- The next node goes to its home. -/
theorem Rehomed.step {j : ℕ} (h : Rehomed g s k j s') (hrow : InRow g s.table)
    (hx : s.table.iteration[j]? = some x) (hg : Spread g N) (hj : j < N) (hlt : j < 2 ^ k) :
    Action.Post Stuck.never (replaceNode x) s' (fun _ => Rehomed g s k (j + 1))
      (fun _ => False) := by
  obtain ⟨e, he, hhash⟩ := hrow j x hx
  obtain ⟨array, hvacant⟩ := h.homes.vacant hg hj hlt
  have hstill : (s'.table.nodeAt x).storage = some e := by rwa [h.arena.nodeAt]
  unfold replaceNode
  refine post_keyAt (fun e' he' => ?_) fun hnone => ?_
  · rw [hstill] at he'
    cases he'
    refine post_callMixedHash (fun f hf => ?_) fun hpoint _ => fault_ne_none hpoint h.quiet
    have hf' : f = s'.heap.fault := hf.eq_of_ne (by simp [h.quiet, faultPoint])
    rw [h.policy.mixedHash, hhash, hf', withFault_self, post_getTable]
    apply hvacant.post_placeAndShiftUp rfl
    exact ⟨h.arena.trans ⟨rfl, rfl, rfl, rfl⟩, h.policy.trans ⟨rfl, rfl, rfl, rfl⟩, h.capacity,
      h.homes.place hvacant.buckets _, h.quiet⟩
  · rw [hstill] at hnone
    cases hnone

theorem rehashTo_homes (hk : 3 ≤ k) (hquiet : s.heap.fault = none) (hrow : InRow g s.table)
    (hg : Spread g N) (hN : s.table.size ≤ N) (hle : s.table.size ≤ 2 ^ k) :
    Action.Post Stuck.never (rehashTo (2 ^ k)) s (fun _ => Rehomed g s k s.table.size)
      (fun _ => False) := by
  have hloud : ∀ s', RehashThrown s s' → False := by
    intro s' h'
    rcases h'.index with ⟨hpoint, -⟩ | ⟨hpoint, -⟩
    · exact fault_ne_none hpoint hquiet
    · exact fault_ne_none hpoint hquiet
  refine post_rehashTo hk hloud fun s1 h1 => ?_
  refine Action.Post.forEach (fun done s' => Rehomed g s k done.length s') (h1.rehomed hquiet) ?_
  intro done x rest s2 hsplit h2
  have hsize : s.table.size = done.length + (rest.length + 1) := by
    unfold Table.size
    rw [hsplit, List.length_append, List.length_cons]
  have hx : s.table.iteration[done.length]? = some x := by
    rw [hsplit]
    simp
  rw [List.length_append, List.length_singleton]
  exact h2.step hrow hx hg (by omega) (by omega)

/-- There is an empty bucket for the next hash, and nothing else has changed. -/
structure HasRoom (g : ℕ → UInt64) (s s' : Store τ) : Prop where
  arena : SameArena s.table s'.table
  policy : SamePolicy s.table s'.table
  homes : ∃ k, 3 ≤ k ∧ s.table.size + 1 < 2 ^ k ∧ s'.table.maxLoadCapacity < 2 ^ k ∧
    Homes g s.table.size k s'.table
  quiet : s'.heap.fault = none

theorem Rehomed.hasRoom (h : Rehomed g s k s.table.size s') (hk : 3 ≤ k)
    (hlt : s.table.size + 1 < 2 ^ k) : HasRoom g s s' where
  arena := h.arena
  policy := h.policy
  homes := by
    refine ⟨k, hk, hlt, ?_, h.homes⟩
    rw [h.capacity]
    exact computeLoadCapacity_lt _ (Nat.two_pow_pos k)
  quiet := h.quiet

theorem reserveForOneMore_homes (hquiet : s.heap.fault = none) (hrow : InRow g s.table)
    (hg : Spread g N) (hN : s.table.size ≤ N) (hindex : HomesInOrder g s.table) :
    Action.Post Stuck.never reserveForOneMore s (fun _ => HasRoom g s) (fun _ => False) := by
  unfold reserveForOneMore
  rw [post_getTable]
  rcases hindex with ⟨hcount, hsize⟩ | ⟨k, hk, hlt, hcap, hhomes⟩
  · rw [if_pos hcount]
    have hle : s.table.size ≤ 2 ^ 3 := by omega
    refine (rehashTo_homes (k := 3) le_rfl hquiet hrow hg hN hle).mono ?_ (fun _ h' => h')
      fun _ h' => h'
    intro _ s' h'
    exact h'.hasRoom le_rfl (by omega)
  · have hpos : s.table.bucketCount ≠ 0 := by
      rw [hhomes.bucketCount]
      exact (Nat.two_pow_pos k).ne'
    rw [if_neg hpos]
    have hdouble : (2 : ℕ) ^ (k + 1) = 2 ^ k * 2 := pow_succ 2 k
    split_ifs with hgrow
    · rw [hhomes.bucketCount, ← hdouble]
      refine (rehashTo_homes (k := k + 1) (by omega) hquiet hrow hg hN (by omega)).mono ?_
        (fun _ h' => h') fun _ h' => h'
      intro _ s' h'
      exact h'.hasRoom (by omega) (by omega)
    · exact ⟨SameArena.refl _, SamePolicy.refl _, ⟨k, hk, by omega, hcap, hhomes⟩, hquiet⟩

/-! ## One insertion -/

theorem inRow_linked {i : ℕ} {e : Element τ} (h : InRow g t) (he : (t.nodeAt i).storage = some e)
    (hhash : t.mixedHash (τ.keyOf e.value) = g t.size) : InRow g (linked t i) := by
  intro j x hx
  have hx' : (t.iteration ++ [i])[j]? = some x := hx
  rw [storage_linked]
  rcases Nat.lt_or_ge j t.iteration.length with hlt | hge
  · rw [List.getElem?_append_left hlt] at hx'
    exact h j x hx'
  · rw [List.getElem?_append_right hge] at hx'
    have hj : j = t.iteration.length := by
      by_contra hne
      rw [List.getElem?_eq_none (by simp; omega)] at hx'
      cases hx'
    subst hj
    rw [Nat.sub_self] at hx'
    cases hx'
    exact ⟨e, he, hhash⟩

/-- The node whose hash is next goes to the end of the row. -/
theorem attachNode_inRow {i : ℕ} {e : Element τ} (hquiet : s.heap.fault = none)
    (hrow : InRow g s.table) (hindex : HomesInOrder g s.table) (hg : Spread g N)
    (hN : s.table.size < N) (he : (s.table.nodeAt i).storage = some e)
    (hhash : s.table.mixedHash (τ.keyOf e.value) = g s.table.size) :
    Action.Post Stuck.never (attachNode i) s (fun _ s' => s'.heap.fault = none ∧
      InRow g s'.table ∧ HomesInOrder g s'.table) (fun _ => False) := by
  have hreserved : Action.Post Stuck.never (do
      reserveForOneMore
      linkIntoIteration i) s
      (fun _ s' => ∃ s1, HasRoom g s s1 ∧ s' = ⟨linked s1.table i, s1.heap⟩)
      (fun _ => False) := by
    refine Action.Post.bind (reserveForOneMore_homes hquiet hrow hg hN.le hindex)
      (fun _ h' => h') fun _ s1 h1 => ?_
    refine (linkIntoIteration_spec i).mono ?_ ?_ fun _ h' => h'
    · rintro _ s2 ⟨f, hf, rfl⟩
      have hf' : f = s1.heap.fault := hf.eq_of_ne (by simp [h1.quiet, faultPoint])
      rw [hf', withFault_self]
      exact ⟨s1, h1, rfl⟩
    · rintro s2 ⟨hpoint, -⟩
      exact fault_ne_none hpoint h1.quiet
  unfold attachNode
  refine Action.Post.bind (hreserved.cleanup fun _ h' => h'.elim) (fun _ h' => h') ?_
  rintro _ s2 ⟨s1, h1, rfl⟩
  obtain ⟨k, hk, hlt, hcap, hhomes⟩ := h1.homes
  have hsize : s1.table.size = s.table.size := by
    unfold Table.size
    rw [h1.arena.iteration]
  have he1 : (s1.table.nodeAt i).storage = some e := by rwa [h1.arena.nodeAt]
  have hhash1 : s1.table.mixedHash (τ.keyOf e.value) = g s.table.size := by
    rwa [h1.policy.mixedHash]
  have hrow2 : InRow g (linked s1.table i) :=
    inRow_linked (hrow.congr h1.arena h1.policy) he1 (by rwa [hsize])
  have hhomes2 : Homes g s.table.size k (linked s1.table i) :=
    hhomes.congr ⟨rfl, rfl, rfl, rfl⟩
  have hsize2 : (linked s1.table i).size = s.table.size + 1 := by
    rw [← hsize]
    exact List.length_append
  obtain ⟨array, hvacant⟩ := hhomes2.vacant hg hN (by omega)
  refine post_keyAt (fun e' he' => ?_) fun hnone => ?_
  · rw [storage_linked, he1] at he'
    cases he'
    refine post_callMixedHash (fun f hf => ?_) fun hpoint _ => fault_ne_none hpoint h1.quiet
    have hf' : f = s1.heap.fault := hf.eq_of_ne (by simp [h1.quiet, faultPoint])
    have hnext : (linked s1.table i).mixedHash (τ.keyOf e.value) = g s.table.size := hhash1
    rw [hnext, hf', withFault_self]
    refine hvacant.post_insertKnownAbsent fun word => ⟨h1.quiet, ?_, Or.inr ⟨k, hk, ?_⟩⟩
    · exact hrow2.congr ⟨rfl, rfl, rfl, rfl⟩ ⟨rfl, rfl, rfl, rfl⟩
    · have hsize3 : ((linked s1.table i).setCells (Function.update array.cells
          ((linked s1.table i).homeFromHash (g s.table.size)) ⟨word, i⟩)).size =
            s.table.size + 1 := hsize2
      rw [hsize3]
      exact ⟨hlt, hcap, hhomes2.place hvacant.buckets _⟩
  · rw [storage_linked, he1] at hnone
    cases hnone

/-- A new key is inserted where its hash is next in the row. -/
theorem emplaceImpl_inRow {v : τ.Value} (h : Arranged s.table []) (hmax : s.table.size ≤ maxSize)
    (hquiet : s.heap.fault = none) (hrow : InRow g s.table) (hindex : HomesInOrder g s.table)
    (hg : Spread g N) (hN : s.table.size < N)
    (hhash : s.table.mixedHash (τ.keyOf v) = g s.table.size) :
    Action.Post Stuck.never (emplaceImpl v) s (fun r s' => r.2 = true ∧ s'.heap.fault = none ∧
      InRow g s'.table ∧ HomesInOrder g s'.table) (fun _ => False) := by
  refine Action.Post.bind (buildNode_spec v h.slots hmax) ?_ fun i s1 hb => ?_
  · rintro s' ⟨-, p, -, hpoint⟩
    exact fault_ne_none hpoint hquiet
  have hquiet1 : s1.heap.fault = none := Through.none (hquiet ▸ hb.fault)
  have hsize : s1.table.size = s.table.size := by
    unfold Table.size
    rw [hb.iteration]
  obtain ⟨serial, hel⟩ := hb.element
  have hhash1 : s1.table.mixedHash (τ.keyOf v) = g s1.table.size := by
    rwa [hb.policy.mixedHash, hsize]
  have hrow1 : InRow g s1.table := by
    intro j x hx
    have hmem : x ∈ s1.table.iteration := List.mem_of_getElem? hx
    have hne : x ≠ i := by
      rintro rfl
      exact hb.slots.not_mem hmem
    rw [hb.iteration] at hx
    obtain ⟨e, he, hj⟩ := hrow j x hx
    refine ⟨e, ?_, ?_⟩
    · rwa [hb.others x hne]
    · rwa [hb.policy.mixedHash]
  have hindex1 : HomesInOrder g s1.table := by
    rcases hindex with ⟨hcount, hzero⟩ | ⟨k, hk, hlt, hcap, hhomes⟩
    · exact Or.inl ⟨hb.index.bucketCount.trans hcount, hsize.trans hzero⟩
    · refine Or.inr ⟨k, hk, ?_, ?_, ?_⟩
      · rwa [hsize]
      · rwa [hb.index.maxLoadCapacity]
      · rw [hsize]
        exact hhomes.congr hb.index
  have hN1 : s1.table.size < N := by rwa [hsize]
  refine post_keyAt (fun e he => ?_) fun hnone => ?_
  · rw [hel] at he
    cases he
    refine Action.Post.bind (Q := fun hash s' => hash = s1.table.mixedHash (τ.keyOf v) ∧ s' = s1)
      (E := fun _ => False) (Action.Post.of_run_ok (run_callMixedHash hquiet1 _) ⟨rfl, rfl⟩)
      (fun _ h' => h') ?_
    intro hash s2 hcall
    rw [hcall.1, hcall.2, hhash1]
    refine Action.Post.bind (Q := fun b s' => b = s1.table.bucketCount ∧ s' = s1)
      (E := fun _ => False)
      (Action.Post.of_run_ok (hindex1.findBucket hg hN1 (τ.keyOf v)) ⟨rfl, rfl⟩)
      (fun _ h' => h') ?_
    intro b s3 hfind
    rw [hfind.1, hfind.2, post_getTable, if_neg (not_not.mpr rfl)]
    refine Action.Post.bind (attachNode_inRow hquiet1 hrow1 hindex1 hg hN1 hel hhash1)
      (fun _ h' => h') fun _ s4 h4 => ?_
    exact ⟨rfl, h4⟩
  · rw [hel] at hnone
    cases hnone

/-! ## Runs of insertions -/

/-- What a table of keys with the hashes of the sequence is like. -/
structure Row (g : ℕ → UInt64) (s : Store τ) : Prop where
  arranged : Arranged s.table []
  quiet : s.heap.fault = none
  inRow : InRow g s.table
  homes : HomesInOrder g s.table

/-- The next key is added to the row. -/
theorem Row.emplace {v : τ.Value} (h : Row g s) (hmax : s.table.size ≤ maxSize)
    (hg : Spread g N) (hN : s.table.size < N)
    (hhash : s.table.mixedHash (τ.keyOf v) = g s.table.size) :
    ∃ s', (Insertion.emplace v).exec.run s = (.ok true, s') ∧ Row g s' ∧
      s'.table.size = s.table.size + 1 ∧ s'.table.hashFunction = s.table.hashFunction := by
  have hignores : Insensitive fun t : Table τ => t.hashFunction = s.table.hashFunction :=
    ⟨fun _ _ _ _ h => h, fun _ _ h => h⟩
  have hsteady := hignores.steady
  have hkeeps := Action.Keeps.bind (f := fun r => pure r.2)
    (keeps_emplaceImpl hsteady (fun _ _ h => h) (fun _ _ h => h) v) fun _ => Action.Keeps.pure _
  have hpost : Action.Post Stuck.never (Insertion.emplace v).exec s (fun added s' =>
      added = true ∧ s'.heap.fault = none ∧ InRow g s'.table ∧ HomesInOrder g s'.table)
      (fun _ => False) :=
    Action.Post.bind (emplaceImpl_inRow h.arranged hmax h.quiet h.inRow h.homes hg hN hhash)
      (fun _ h' => h') fun _ _ h' => h'
  obtain ⟨added, s', hrun, rfl, hquiet, hrow, hhomes⟩ := hpost.returns
  have hcalls : CallsReturn s.heap.fault := by simp [CallsReturn, h.quiet, faultPoint]
  have harranged := ((Insertion.emplace v).exec_arranges h.arranged hmax hcalls).ok_of_run hrun
  have hlarge := ((Insertion.emplace v).exec_enlarged s).ok_of_run hrun
  have hsame : ((Insertion.emplace v).exec.run s).2.table.hashFunction = s.table.hashFunction :=
    hkeeps s rfl
  rw [hrun] at hsame
  exact ⟨s', hrun, ⟨harranged, hquiet, hrow, hhomes⟩, hlarge.size, hsame⟩

end Fum.Analysis

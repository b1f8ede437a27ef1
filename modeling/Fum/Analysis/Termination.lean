import Fum.Analysis.Consistency
import Fum.Base.Words

/-!
# The loops end

With an empty bucket somewhere, every loop over the bucket array ends, whatever nodes the
buckets hold and whatever hashes and answers the functors give. All it takes is that the
words are in order and have room for one more unit. The calls between the loops are `Idles`:
they leave the index alone and have nothing that could run forever.
-/

set_option autoImplicit false

namespace Fum.Analysis

open Fum.Model Effects RobinHood

variable {τ : Traits} {α β : Type} {U : Stuck → Prop} {s s' s'' : Store τ} {t : Table τ}

/-! ## The loops on words alone -/

section

variable {k e p c : ℕ} {cells : ℕ → Bucket}

/-- The words of an array of `2 ^ k` buckets are in order. -/
abbrev BucketWords (k : ℕ) (cells : ℕ → Bucket) : Prop := Words (2 ^ k) kDistInc (words cells)

/-- The number of occupied buckets. -/
abbrev occupancy (k : ℕ) (cells : ℕ → Bucket) : ℕ := (occupied (2 ^ k) (words cells)).card

/-- A word carried past an occupied bucket does not wrap. -/
theorem BucketWords.addDist (W : BucketWords k cells) (he : e < 2 ^ k) (hempty : words cells e = 0)
    (hroom : Roomy k cells) (hp : p < 2 ^ k) (hc : Ranged (2 ^ k) kDistInc c)
    (hfit : Fits (2 ^ k) kDistInc (words cells) p c) (hocc : words cells p ≠ 0) :
    addDist c = c + kDistInc ∧ Ranged (2 ^ k) kDistInc (c + kDistInc) := by
  obtain ⟨hranged, hbound⟩ :=
    W.linked.carry_ranged (by decide) he hempty hp hc hfit hocc
  have hle : ((occupied (2 ^ k) (words cells)).card + 2) * kDistInc ≤ 2 ^ 24 * kDistInc :=
    Nat.mul_le_mul_right _ hroom
  have heq : 2 ^ 24 * kDistInc = 2 ^ 32 := rfl
  exact ⟨addDist_eq (by omega), hranged⟩

theorem probeStartLoop_ends (W : BucketWords k cells) (he : e < 2 ^ k)
    (hempty : words cells e = 0) (hroom : Roomy k cells) :
    ∀ j fuel p c : ℕ, p < 2 ^ k → (p + j) % 2 ^ k = e → j < fuel →
      Ranged (2 ^ k) kDistInc c → Fits (2 ^ k) kDistInc (words cells) p c →
      ∃ c' p', probeStartLoop (2 ^ k) cells fuel c p = some (c', p') ∧ p' < 2 ^ k ∧
        Ranged (2 ^ k) kDistInc c' ∧ Fits (2 ^ k) kDistInc (words cells) p' c' := by
  intro j
  induction j with
  | zero =>
      intro fuel p c hp hje hfuel hc hfit
      obtain ⟨fuel, rfl⟩ : ∃ n, fuel = n + 1 := ⟨fuel - 1, by omega⟩
      have hpe : p = e := by rwa [Nat.add_zero, Nat.mod_eq_of_lt hp] at hje
      have h0 : (cells p).distAndFingerprint = 0 := by
        rw [hpe]
        exact hempty
      refine ⟨c, p, ?_, hp, hc, hfit⟩
      rw [probeStartLoop, h0, if_neg (Nat.not_lt_zero c)]
  | succ j ih =>
      intro fuel p c hp hje hfuel hc hfit
      obtain ⟨fuel, rfl⟩ : ∃ n, fuel = n + 1 := ⟨fuel - 1, by omega⟩
      by_cases hlt : c < (cells p).distAndFingerprint
      · have hocc : words cells p ≠ 0 := by
          unfold words
          omega
        obtain ⟨hadd, hc'⟩ := W.addDist he hempty hroom hp hc hfit hocc
        rw [probeStartLoop, if_pos hlt, hadd, nextBucket_eq]
        exact ih fuel _ _ (succ_lt (by omega) p) (steps_left hje) (by omega) hc'
          (Fits.next hp (le_of_lt hlt))
      · refine ⟨c, p, ?_, hp, hc, hfit⟩
        rw [probeStartLoop, if_neg hlt]

/-- A word that takes the place of a lower one leaves the words in order and as many buckets
occupied, and the lower one fits the next bucket. -/
theorem BucketWords.swap (hk : 3 ≤ k) (W : BucketWords k cells) (hp : p < 2 ^ k) (x : ℕ)
    (hc : Ranged (2 ^ k) kDistInc c) (hfit : Fits (2 ^ k) kDistInc (words cells) p c)
    (hocc : words cells p ≠ 0) (hgt : words cells p < c) :
    BucketWords k (Function.update cells p ⟨c, x⟩) ∧
      occupied (2 ^ k) (words (Function.update cells p ⟨c, x⟩)) =
        occupied (2 ^ k) (words cells) ∧
      Fits (2 ^ k) kDistInc (words (Function.update cells p ⟨c, x⟩)) (succ (2 ^ k) p)
        (words cells p + kDistInc) := by
  have h8 := two_le_two_pow hk
  unfold BucketWords
  rw [words_update]
  refine ⟨W.raise (by omega) hp hc hfit hgt.le, ?_, Fits.next hp ?_⟩
  · rw [occupied_update hp (by omega), Finset.insert_eq_of_mem (mem_occupied.mpr ⟨hp, hocc⟩)]
  · rw [Function.update_self]
    exact hgt.le

/-- In an empty bucket the loop of `place_and_shift_up` ends. -/
theorem placeLoop_ends_empty (hk : 3 ≤ k) (fuel x : ℕ) (W : BucketWords k cells) (hp : p < 2 ^ k)
    (h0 : words cells p = 0) (hc : Ranged (2 ^ k) kDistInc c)
    (hfit : Fits (2 ^ k) kDistInc (words cells) p c) :
    ∃ cells', placeLoop (2 ^ k) (fuel + 1) cells c p x = some cells' ∧ BucketWords k cells' ∧
      occupancy k cells' ≤ occupancy k cells + 1 := by
  have h8 := two_le_two_pow hk
  have hcpos : c ≠ 0 := by
    have hu : 0 < kDistInc := by decide
    have := hc.1
    omega
  refine ⟨Function.update cells p ⟨c, x⟩, ?_, ?_, ?_⟩
  · have h0' : ¬ (cells p).distAndFingerprint ≠ 0 := not_not.mpr h0
    rw [placeLoop, if_neg h0']
  · unfold BucketWords
    rw [words_update]
    exact W.raise (by omega) hp hc hfit (by omega)
  · unfold occupancy
    rw [words_update, occupied_update hp hcpos]
    exact Finset.card_insert_le _ _

/-- The loop of `place_and_shift_up` fills one bucket. The word in hand changes at every
swap; the number of occupied buckets only at the end. -/
theorem placeLoop_ends (hk : 3 ≤ k) (he : e < 2 ^ k) :
    ∀ (j fuel : ℕ) (cells : ℕ → Bucket) (p c x : ℕ), BucketWords k cells →
      words cells e = 0 → Roomy k cells → p < 2 ^ k → (p + j) % 2 ^ k = e → j < fuel →
      Ranged (2 ^ k) kDistInc c → Fits (2 ^ k) kDistInc (words cells) p c →
      ∃ cells', placeLoop (2 ^ k) fuel cells c p x = some cells' ∧ BucketWords k cells' ∧
        occupancy k cells' ≤ occupancy k cells + 1 := by
  have h8 := two_le_two_pow hk
  intro j
  induction j with
  | zero =>
      intro fuel cells p c x W hempty hroom hp hje hfuel hc hfit
      obtain ⟨fuel, rfl⟩ : ∃ n, fuel = n + 1 := ⟨fuel - 1, by omega⟩
      have hpe : p = e := by rwa [Nat.add_zero, Nat.mod_eq_of_lt hp] at hje
      exact placeLoop_ends_empty hk fuel x W hp (hpe ▸ hempty) hc hfit
  | succ j ih =>
      intro fuel cells p c x W hempty hroom hp hje hfuel hc hfit
      obtain ⟨fuel, rfl⟩ : ∃ n, fuel = n + 1 := ⟨fuel - 1, by omega⟩
      by_cases hocc : words cells p = 0
      · exact placeLoop_ends_empty hk fuel x W hp hocc hc hfit
      have hbranch : (cells p).distAndFingerprint ≠ 0 := hocc
      have hsucc := succ_lt (show 0 < 2 ^ k by omega) p
      by_cases hgt : c > (cells p).distAndFingerprint
      · -- the resident's word is carried on
        obtain ⟨hadd, hc'⟩ :=
          W.addDist he hempty hroom hp (W.ranged p hp hocc) (W.linked p hp) hocc
        obtain ⟨W', hsame, hfit'⟩ := W.swap hk hp x hc hfit hocc hgt
        have hempty' := words_update_of_occupied hocc hempty c x
        have hroom' : Roomy k (Function.update cells p ⟨c, x⟩) := by
          unfold Roomy
          rwa [hsame]
        obtain ⟨cells', hrun, W'', hcard⟩ := ih fuel _ (succ (2 ^ k) p) (words cells p + kDistInc)
          (cells p).nodeIndex W' hempty' hroom' hsucc (steps_left hje) (by omega) hc' hfit'
        refine ⟨cells', ?_, W'', ?_⟩
        · rw [placeLoop, if_pos hbranch, if_pos hgt, nextBucket_eq]
          have hadd' : addDist (cells p).distAndFingerprint = words cells p + kDistInc := hadd
          rw [hadd']
          exact hrun
        · unfold occupancy at hcard ⊢
          rwa [hsame] at hcard
      · obtain ⟨hadd, hc'⟩ := W.addDist he hempty hroom hp hc hfit hocc
        obtain ⟨cells', hrun, W', hcard⟩ := ih fuel cells (succ (2 ^ k) p) (c + kDistInc) x W
          hempty hroom hsucc (steps_left hje) (by omega) hc' (Fits.next hp (not_lt.mp hgt))
        refine ⟨cells', ?_, W', hcard⟩
        rw [placeLoop, if_pos hbranch, if_neg hgt, nextBucket_eq, hadd]
        exact hrun

/-- Without an empty bucket the loop of `place_and_shift_up` never ends: every swap leaves the
array as full as it was. -/
theorem placeLoop_full :
    ∀ (fuel : ℕ) (cells : ℕ → Bucket) (p c x : ℕ), (∀ q < 2 ^ k, words cells q ≠ 0) → p < 2 ^ k →
      placeLoop (2 ^ k) fuel cells c p x = none := by
  intro fuel
  induction fuel with
  | zero => exact fun _ _ _ _ _ _ => rfl
  | succ fuel ih =>
      intro cells p c x hfull hp
      have hocc : (cells p).distAndFingerprint ≠ 0 := hfull p hp
      have hsucc := succ_lt (Nat.two_pow_pos k) p
      rw [placeLoop, if_pos hocc, nextBucket_eq]
      split_ifs with hgt
      · refine ih _ _ _ _ (fun q hq => ?_) hsucc
        rw [words_update]
        by_cases hqp : q = p
        · rw [hqp, Function.update_self]
          omega
        · rw [Function.update_of_ne hqp]
          exact hfull q hq
      · exact ih _ _ _ _ hfull hsucc

/-- The loop of `erase_bucket` frees a bucket. -/
theorem eraseLoop_ends (hk : 3 ≤ k) :
    ∀ (j fuel : ℕ) (cells : ℕ → Bucket) (p : ℕ), WordGap (2 ^ k) kDistInc (words cells) p →
      words cells e = 0 → p < 2 ^ k → p ≠ e → (p + (j + 1)) % 2 ^ k = e → j < fuel →
      ∃ cells', eraseLoop (2 ^ k) fuel cells p (succ (2 ^ k) p) = some cells' ∧
        BucketWords k cells' ∧
        occupancy k cells' = ((occupied (2 ^ k) (words cells)).erase p).card := by
  have hu : 0 < kDistInc := by decide
  have h8 := two_le_two_pow hk
  have hclose : ∀ (fuel : ℕ) (cells : ℕ → Bucket) (p : ℕ),
      WordGap (2 ^ k) kDistInc (words cells) p →
      ¬ (cells (succ (2 ^ k) p)).distAndFingerprint ≥ 2 * kDistInc →
      ∃ cells', eraseLoop (2 ^ k) (fuel + 1) cells p (succ (2 ^ k) p) = some cells' ∧
        BucketWords k cells' ∧
        occupancy k cells' = ((occupied (2 ^ k) (words cells)).erase p).card := by
    intro fuel cells p G hlow
    refine ⟨Function.update cells p ⟨0, kNullIndex⟩, ?_, ?_, ?_⟩
    · rw [eraseLoop, if_neg hlow]
    · unfold BucketWords
      rw [words_update]
      exact G.close hu (not_le.mp hlow)
    · unfold occupancy
      rw [words_update, occupied_close]
  intro j
  induction j with
  | zero =>
      intro fuel cells p G hempty hp hpe hje hfuel
      obtain ⟨fuel, rfl⟩ : ∃ n, fuel = n + 1 := ⟨fuel - 1, by omega⟩
      have hnext : succ (2 ^ k) p = e := hje
      refine hclose fuel cells p G ?_
      have h0 : (cells (succ (2 ^ k) p)).distAndFingerprint = 0 := by
        rw [hnext]
        exact hempty
      rw [h0]
      decide
  | succ j ih =>
      intro fuel cells p G hempty hp hpe hje hfuel
      obtain ⟨fuel, rfl⟩ : ∃ n, fuel = n + 1 := ⟨fuel - 1, by omega⟩
      by_cases hnext : (cells (succ (2 ^ k) p)).distAndFingerprint ≥ 2 * kDistInc
      · have hsucc := succ_lt (show 0 < 2 ^ k by omega) p
        have hwords : 2 * kDistInc ≤ words cells (succ (2 ^ k) p) := hnext
        have hfar : words cells (succ (2 ^ k) p) ≠ 0 := by omega
        have hne : succ (2 ^ k) p ≠ e := fun h => hfar (h ▸ hempty)
        have G' := G.shift (show 3 ≤ 2 ^ k by omega) hp hu hwords
        rw [← words_update cells p _ (nodes cells (succ (2 ^ k) p))] at G'
        have hempty' : words (Function.update cells p
            ⟨words cells (succ (2 ^ k) p) - kDistInc, nodes cells (succ (2 ^ k) p)⟩) e = 0 := by
          rwa [words_update, Function.update_of_ne (Ne.symm hpe)]
        obtain ⟨cells', hrun, W', hcard⟩ := ih fuel _ _ G' hempty' hsucc hne
          (steps_left hje) (by omega)
        refine ⟨cells', ?_, W', ?_⟩
        · rw [eraseLoop, if_pos hnext, nextBucket_eq]
          exact hrun
        · rw [hcard, words_update]
          exact card_shift (by omega) hp (by omega) hfar
      · exact hclose fuel cells p G hnext

end

/-! ## Calls without a loop -/

/-- The index, the iteration vector and the record of the rebuilds are what they were. -/
structure Idle (s s' : Store τ) : Prop where
  index : SameIndex s.table s'.table
  iteration : s'.table.iteration = s.table.iteration
  rehashes : s'.heap.rehashes = s.heap.rehashes

theorem Idle.refl (s : Store τ) : Idle s s := ⟨⟨rfl, rfl, rfl, rfl⟩, rfl, rfl⟩

theorem Idle.trans (h : Idle s s') (h' : Idle s' s'') : Idle s s'' :=
  ⟨h.index.trans h'.index, h'.iteration.trans h.iteration, h'.rehashes.trans h.rehashes⟩

theorem Passes.idle {ps : List Point} (h : Passes ps s s') : Idle s s' where
  index := by
    rw [h.table]
    exact SameIndex.refl _
  iteration := by rw [h.table]
  rehashes := by
    rw [h.heap]
    rfl

theorem Throws.idle {ps : List Point} (h : Throws ps s s') : Idle s s' where
  index := by
    rw [h.table]
    exact SameIndex.refl _
  iteration := by rw [h.table]
  rehashes := by
    rw [h.heap]
    rfl

/-- From any store the call ends and leaves it idle, however it ends. -/
def Idles (x : Exec τ α) : Prop :=
  ∀ s : Store τ, Action.Post Stuck.undefinedOnly x s (fun _ => Idle s) (Idle s)

namespace Idles

theorem bind {x : Exec τ α} {f : α → Exec τ β} (hx : Idles x) (hf : ∀ a, Idles (f a)) :
    Idles (x >>= f) := fun s =>
  Action.Post.bind (hx s) (fun _ h => h) fun a s' h =>
    (hf a s').mono (fun _ _ h' => h.trans h') (fun _ h' => h.trans h') fun _ h' => h'

theorem pure (a : α) : Idles (Pure.pure a : Exec τ α) := fun _ => Idle.refl _

theorem undefined : Idles (Action.undefined : Exec τ α) := fun _ => rfl

theorem ite {c : Prop} [Decidable c] {x y : Exec τ α} (hx : Idles x) (hy : Idles y) :
    Idles (if c then x else y) := by
  split
  · exact hx
  · exact hy

theorem cleanup {x : Exec τ α} {handler : Exec τ Unit} (hx : Idles x) (hh : Idles handler) :
    Idles (x.cleanup handler) := fun s =>
  (hx s).cleanup fun s' h =>
    (hh s').mono (fun _ _ h' => h.trans h') (fun _ h' => h.trans h') fun _ h' => h'

theorem forEach {l : List ℕ} {body : ℕ → Exec τ Unit} (h : ∀ a, Idles (body a)) :
    Idles (Action.forEach l body) := by
  induction l with
  | nil => exact pure ()
  | cons a l ih => exact bind (h a) fun _ => ih

theorem getTable : Idles (Model.getTable : Exec τ (Table τ)) := fun _ => Idle.refl _

theorem modifyTable {f : Table τ → Table τ} (hi : ∀ t, SameIndex t (f t))
    (hl : ∀ t, (f t).iteration = t.iteration) : Idles (Model.modifyTable f) :=
  fun s => ⟨hi s.table, hl s.table, rfl⟩

theorem modifyHeap {f : Heap → Heap} (hf : ∀ h, (f h).rehashes = h.rehashes) :
    Idles (Model.modifyHeap f : Exec τ Unit) := fun s => ⟨SameIndex.refl _, rfl, hf s.heap⟩

theorem mayThrow (p : Point) : Idles (Model.mayThrow p : Exec τ Unit) := fun _ =>
  post_mayThrow (fun _ _ => ⟨SameIndex.refl _, rfl, rfl⟩) fun _ _ => ⟨SameIndex.refl _, rfl, rfl⟩

theorem freshId : Idles (Model.freshId : Exec τ ℕ) := fun _ => ⟨SameIndex.refl _, rfl, rfl⟩

theorem setNode {f : Table τ → Node τ} (i : ℕ) :
    Idles (Model.modifyTable fun t => t.setNode i (f t)) :=
  modifyTable (fun _ => ⟨rfl, rfl, rfl, rfl⟩) fun _ => rfl

theorem elementAt (i : ℕ) : Idles (Model.elementAt i : Exec τ (Element τ)) := by
  refine bind getTable fun t => ?_
  cases (t.nodeAt i).storage with
  | some e => exact pure e
  | none => exact undefined

theorem keyAt (i : ℕ) : Idles (Model.keyAt i : Exec τ τ.Key) :=
  bind (elementAt i) fun _ => pure _

theorem bucketAt (i : ℕ) : Idles (Model.bucketAt i : Exec τ Bucket) := by
  refine bind getTable fun t => ?_
  cases t.buckets with
  | none => exact undefined
  | some array => exact ite (pure _) undefined

theorem callMixedHash (key : τ.Key) : Idles (Model.callMixedHash key) :=
  bind (mayThrow _) fun _ => bind getTable fun _ => pure _

theorem ensureArenaSlot : Idles (Model.ensureArenaSlot : Exec τ Unit) := by
  have hallocate : Idles (allocateChunk : Exec τ (Chunk τ)) :=
    bind (mayThrow _) fun _ => bind freshId fun _ => bind (modifyHeap fun _ => rfl) fun _ =>
      bind getTable fun _ => pure _
  refine bind getTable fun t => ite (pure _) (ite (pure _) ?_)
  exact bind hallocate fun _ => bind (mayThrow _) fun _ =>
    modifyTable (fun _ => ⟨rfl, rfl, rfl, rfl⟩) fun _ => rfl

theorem acquireNode : Idles (Model.acquireNode : Exec τ ℕ) := by
  have hslots : ∀ f : Table τ → ℕ × ℕ, Idles (Model.modifyTable fun t : Table τ =>
      { t with arenaHighWater := (f t).1, freeListHead := (f t).2 }) := fun _ =>
    modifyTable (fun _ => ⟨rfl, rfl, rfl, rfl⟩) fun _ => rfl
  refine bind ensureArenaSlot fun _ => bind getTable fun t => ite ?_ ?_
  · exact bind (hslots fun t => (t.arenaHighWater, _)) fun _ => pure _
  · exact bind (hslots fun t => (_, t.freeListHead)) fun _ => pure _

theorem releaseNode (i : ℕ) : Idles (Model.releaseNode i : Exec τ Unit) :=
  modifyTable (fun _ => ⟨rfl, rfl, rfl, rfl⟩) fun _ => rfl

theorem constructElement (v : τ.Value) : Idles (Model.constructElement v) :=
  bind (mayThrow _) fun _ => bind freshId fun _ => bind (modifyHeap fun _ => rfl) fun _ => pure _

theorem destroyValue (i : ℕ) : Idles (Model.destroyValue i : Exec τ Unit) :=
  bind (elementAt i) fun _ => bind (modifyHeap fun _ => rfl) fun _ => setNode i

theorem assignValue (i : ℕ) (g : τ.Value → τ.Value) : Idles (Model.assignValue i g) :=
  bind (elementAt i) fun _ => setNode i

theorem buildNode (v : τ.Value) : Idles (Model.buildNode v) := by
  refine bind acquireNode fun i => bind (cleanup ?_ (releaseNode i)) fun _ => pure _
  exact bind (constructElement v) fun _ => setNode i

theorem destroyAllValues : Idles (Model.destroyAllValues : Exec τ Unit) :=
  bind getTable fun _ => forEach fun i => destroyValue i

theorem allocateCell : Idles (Model.allocateCell : Exec τ ℕ) :=
  bind (mayThrow _) fun _ => bind freshId fun _ => bind (modifyHeap fun _ => rfl) fun _ => pure _

end Idles

/-! ## The index -/

/-- The bucket array has `2 ^ k` buckets, as the table says, with their words in order and at
most `n` of them occupied. -/
structure Ordered (n k : ℕ) (t : Table τ) (array : BucketArray τ) : Prop where
  three_le : 3 ≤ k
  bucketCount : t.bucketCount = 2 ^ k
  bucketShift : t.bucketShift = 64 - countrZero (2 ^ k)
  size : array.size = 2 ^ k
  words : BucketWords k array.cells
  few : occupancy k array.cells ≤ n

section

variable {n k p c : ℕ} {array : BucketArray τ}

theorem Ordered.exists_empty (h : Ordered n k t array) (hlt : n < 2 ^ k) :
    ∃ e < 2 ^ k, Analysis.words array.cells e = 0 :=
  RobinHood.exists_empty (h.few.trans_lt hlt)

theorem Ordered.bucketCount_ne_zero (h : Ordered n k t array) : t.bucketCount ≠ 0 := by
  rw [h.bucketCount]
  exact (Nat.two_pow_pos k).ne'

theorem Ordered.roomy (h : Ordered n k t array) (hroom : n + 2 ≤ 2 ^ 24) :
    Roomy k array.cells := (Nat.add_le_add_right h.few 2).trans hroom

theorem Ordered.mono {m : ℕ} (h : Ordered n k t array) (hle : n ≤ m) : Ordered m k t array :=
  ⟨h.three_le, h.bucketCount, h.bucketShift, h.size, h.words, h.few.trans hle⟩

/-- New cells whose words are in order. -/
theorem Ordered.setCells {m : ℕ} {cells' : ℕ → Bucket} (h : Ordered n k t array)
    (hbuckets : t.buckets = some array) (W : BucketWords k cells')
    (hfew : occupancy k cells' ≤ m) (array' : BucketArray τ)
    (harray' : (t.setCells cells').buckets = some array') :
    Ordered m k (t.setCells cells') array' := by
  have hset : t.buckets.map (fun array => { array with cells := cells' }) = some array' := harray'
  rw [hbuckets] at hset
  cases hset
  exact ⟨h.three_le, h.bucketCount, h.bucketShift, h.size, W, hfew⟩

theorem Ordered.homeFromHash_lt (h : Ordered n k t array) (hash : UInt64) :
    t.homeFromHash hash < 2 ^ k := by
  unfold Table.homeFromHash
  rw [h.bucketShift]
  exact shiftRight_lt k hash

/-- The first word of a probe. -/
theorem ranged_distAndFingerprintFromHash (k : ℕ) (hash : UInt64) :
    Ranged (2 ^ k) kDistInc (distAndFingerprintFromHash hash) := by
  have hlt := fingerprint_lt hash
  have hone : 1 * kDistInc ≤ 2 ^ k * kDistInc := Nat.mul_le_mul_right _ Nat.one_le_two_pow
  have hsucc : (2 ^ k + 1) * kDistInc = 2 ^ k * kDistInc + kDistInc := by ring
  rw [distAndFingerprintFromHash_eq]
  exact ⟨Nat.le_add_right _ _, by omega⟩

/-- The loop of `find_bucket` ends, and a bucket that it finds is occupied. -/
theorem findBucketLoop_ends (key : τ.Key) (hbuckets : t.buckets = some array)
    (h : Ordered n k t array) (hroom : n + 2 ≤ 2 ^ 24) {e : ℕ} (he : e < 2 ^ k)
    (hempty : words array.cells e = 0) :
    ∀ (j fuel p c : ℕ) (s : Store τ), s.table = t → p < 2 ^ k → (p + j) % 2 ^ k = e → j < fuel →
      Ranged (2 ^ k) kDistInc c → Fits (2 ^ k) kDistInc (words array.cells) p c →
      Action.Post Stuck.undefinedOnly (findBucketLoop key fuel c p) s
        (fun b _ => b = t.bucketCount ∨ ∃ x, BucketOf t b x) (fun _ => True) := by
  intro j
  induction j with
  | zero =>
      intro fuel p c s hs hp hje hfuel hc hfit
      obtain ⟨fuel, rfl⟩ : ∃ n, fuel = n + 1 := ⟨fuel - 1, by omega⟩
      have hpe : p = e := by rwa [Nat.add_zero, Nat.mod_eq_of_lt hp] at hje
      have h0 : (array.cells p).distAndFingerprint = 0 := by
        rw [hpe]
        exact hempty
      have hpos : 0 < c := Nat.lt_of_lt_of_le (by decide) hc.1
      unfold findBucketLoop
      rw [post_getTable, hs]
      refine post_bucketAt (fun array' harray' _ => ?_) fun _ => rfl
      rw [hs, hbuckets] at harray'
      cases harray'
      rw [h0, if_neg hpos.ne', if_pos hpos, post_pure]
      exact Or.inl rfl
  | succ j ih =>
      intro fuel p c s hs hp hje hfuel hc hfit
      obtain ⟨fuel, rfl⟩ : ∃ n, fuel = n + 1 := ⟨fuel - 1, by omega⟩
      have hnext : ∀ s' : Store τ, s'.table = t → c ≤ words array.cells p →
          Action.Post Stuck.undefinedOnly
            (findBucketLoop key fuel (addDist c) (nextBucket t.bucketCount p)) s'
            (fun b _ => b = t.bucketCount ∨ ∃ x, BucketOf t b x) (fun _ => True) := by
        intro s' hs' hle
        have hpos : 0 < c := Nat.lt_of_lt_of_le (by decide) hc.1
        obtain ⟨hadd, hc'⟩ :=
          h.words.addDist he hempty (h.roomy hroom) hp hc hfit (by omega)
        have hsucc : nextBucket t.bucketCount p = succ (2 ^ k) p := by
          rw [h.bucketCount, nextBucket_eq]
        rw [hadd, hsucc]
        exact ih fuel _ _ s' hs' (succ_lt (by omega) p) (steps_left hje) (by omega) hc'
          (Fits.next hp hle)
      unfold findBucketLoop
      rw [post_getTable, hs]
      refine post_bucketAt (fun array' harray' hlt => ?_) fun _ => rfl
      rw [hs, hbuckets] at harray'
      cases harray'
      by_cases heq : c = (array.cells p).distAndFingerprint
      · rw [if_pos heq]
        refine post_keyAt (fun el _ => ?_) fun _ => rfl
        refine post_callKeyEqual (fun f _ => ?_) fun _ _ => trivial
        split
        · refine Or.inr ⟨_, array, hbuckets, hlt, ?_, rfl⟩
          rw [← heq]
          exact (Nat.lt_of_lt_of_le (by decide) hc.1 : 0 < c).ne'
        · exact hnext _ hs heq.le
      · rw [if_neg heq]
        by_cases hgt : c > (array.cells p).distAndFingerprint
        · rw [if_pos hgt, post_pure]
          exact Or.inl rfl
        · rw [if_neg hgt]
          exact hnext s hs (not_lt.mp hgt)

theorem findBucket_ends (key : τ.Key) (hash : UInt64) (hbuckets : s.table.buckets = some array)
    (h : Ordered n k s.table array) (hlt : n < 2 ^ k) (hroom : n + 2 ≤ 2 ^ 24) :
    Action.Post Stuck.undefinedOnly (findBucket key hash) s
      (fun b _ => b = s.table.bucketCount ∨ ∃ x, BucketOf s.table b x) (fun _ => True) := by
  have hne := h.bucketCount_ne_zero
  obtain ⟨e, he, hempty⟩ := h.exists_empty hlt
  obtain ⟨j, hj, hje⟩ := exists_steps (s.table.homeFromHash hash) he
  unfold findBucket
  rw [post_getTable, if_neg hne]
  refine findBucketLoop_ends key hbuckets h hroom he hempty j _ _ _ s rfl
    (h.homeFromHash_lt hash) hje ?_ (ranged_distAndFingerprintFromHash k hash) (home_fits _ _ _)
  rw [h.bucketCount]
  exact lt_loopFuel hj

theorem placeAndShiftUp_ends (x : ℕ) (hbuckets : s.table.buckets = some array)
    (h : Ordered n k s.table array) (hlt : n < 2 ^ k) (hroom : n + 2 ≤ 2 ^ 24) (hp : p < 2 ^ k)
    (hc : Ranged (2 ^ k) kDistInc c) (hfit : Fits (2 ^ k) kDistInc (words array.cells) p c) :
    Action.Post Stuck.undefinedOnly (placeAndShiftUp c p x) s
      (fun _ s' => ∀ array', s'.table.buckets = some array' → Ordered (n + 1) k s'.table array')
      (fun _ => False) := by
  obtain ⟨e, he, hempty⟩ := h.exists_empty hlt
  obtain ⟨j, hj, hje⟩ := exists_steps p he
  obtain ⟨cells', hrun, W, hcard⟩ := placeLoop_ends h.three_le he j (loopFuel (2 ^ k)) array.cells
    p c x h.words hempty (h.roomy hroom) hp hje (lt_loopFuel hj) hc hfit
  unfold placeAndShiftUp
  rw [post_getTable]
  refine post_getCells (fun array' harray' => ?_) fun _ => rfl
  rw [hbuckets] at harray'
  cases harray'
  rw [h.bucketCount, hrun]
  exact h.setCells hbuckets W (hcard.trans (Nat.add_le_add_right h.few 1))

theorem insertKnownAbsent_ends (x : ℕ) (hash : UInt64) (hbuckets : s.table.buckets = some array)
    (h : Ordered n k s.table array) (hlt : n < 2 ^ k) (hroom : n + 2 ≤ 2 ^ 24) :
    Action.Post Stuck.undefinedOnly (insertKnownAbsent x hash) s
      (fun _ s' => ∀ array', s'.table.buckets = some array' → Ordered (n + 1) k s'.table array')
      (fun _ => False) := by
  obtain ⟨e, he, hempty⟩ := h.exists_empty hlt
  obtain ⟨j, hj, hje⟩ := exists_steps (s.table.homeFromHash hash) he
  obtain ⟨c, p, hrun, hp, hc, hfit⟩ := probeStartLoop_ends h.words he hempty (h.roomy hroom) j
    (loopFuel (2 ^ k)) _ _ (h.homeFromHash_lt hash) hje (lt_loopFuel hj)
    (ranged_distAndFingerprintFromHash k hash) (home_fits _ _ _)
  unfold insertKnownAbsent probeStart
  simp only [Action.bind_assoc]
  rw [post_getTable]
  refine post_getCells (fun array' harray' => ?_) fun _ => rfl
  rw [hbuckets] at harray'
  cases harray'
  rw [h.bucketCount, hrun]
  exact placeAndShiftUp_ends x hbuckets h hlt hroom hp hc hfit

theorem eraseBucket_ends {b x : ℕ} (hbuckets : s.table.buckets = some array)
    (h : Ordered n k s.table array) (hlt : n < 2 ^ k) (hb : BucketOf s.table b x) :
    Action.Post Stuck.undefinedOnly (eraseBucket b) s
      (fun _ s' => ∀ array', s'.table.buckets = some array' → Ordered (n - 1) k s'.table array')
      (fun _ => False) := by
  obtain ⟨array', harray', hbsize, hocc, -⟩ := hb
  rw [hbuckets] at harray'
  cases harray'
  rw [h.size] at hbsize
  obtain ⟨e, he, hempty⟩ := h.exists_empty hlt
  have hbe : b ≠ e := by
    rintro rfl
    exact hocc hempty
  obtain ⟨j, hj, hje⟩ := exists_steps_succ hbsize he hbe
  obtain ⟨cells', hrun, W, hcard⟩ := eraseLoop_ends h.three_le j (loopFuel (2 ^ k)) array.cells b
    (h.words.gap hbsize) hempty hbsize hbe hje (lt_loopFuel (Nat.lt_of_succ_lt hj))
  rw [Finset.card_erase_of_mem (mem_occupied.mpr ⟨hbsize, hocc⟩)] at hcard
  unfold eraseBucket
  rw [post_getTable]
  refine post_getCells (fun array' harray' => ?_) fun _ => rfl
  rw [hbuckets] at harray'
  cases harray'
  rw [h.bucketCount, nextBucket_eq, hrun]
  exact h.setCells hbuckets W (hcard.trans_le (Nat.sub_le_sub_right h.few 1))

end

end Fum.Analysis

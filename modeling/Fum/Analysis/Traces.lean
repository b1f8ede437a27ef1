import Fum.Analysis.Termination

/-!
# The buckets that a loop examines

Each loop over the bucket array once more, with the list of the buckets whose word it reads;
its result is the one of the loop. From wherever it starts a loop goes up to an empty bucket
at most, so it walks along the array and never comes round.
-/

set_option autoImplicit false

namespace Fum.Analysis

open Fum.Model Effects RobinHood

variable {τ : Traits} {α : Type} {k e n : ℕ} {cells : ℕ → Bucket} {t : Table τ}

/-! ## The loops on words alone -/

/-- What a loop does after it has examined the bucket `p`. -/
def examine (p : ℕ) : Option (List ℕ × α) → Option (List ℕ × α) :=
  Option.map fun r => (p :: r.1, r.2)

@[simp] theorem examine_some (p : ℕ) (r : List ℕ × α) :
    examine p (some r) = some (p :: r.1, r.2) := rfl

@[simp] theorem map_examine (p : ℕ) (o : Option (List ℕ × α)) :
    (examine p o).map Prod.snd = o.map Prod.snd := by
  cases o <;> rfl

/-- The loop of `probe_start`, with the buckets it examines. -/
def probeStartTrace (bucketCount : ℕ) (cells : ℕ → Bucket) :
    ℕ → ℕ → ℕ → Option (List ℕ × ℕ × ℕ)
  | 0, _, _ => none
  | fuel + 1, word, index =>
      if word < (cells index).distAndFingerprint then
        examine index (probeStartTrace bucketCount cells fuel (addDist word)
          (nextBucket bucketCount index))
      else some ([index], word, index)

/-- The loop of `place_and_shift_up`, with the buckets it examines. -/
def placeTrace (bucketCount : ℕ) :
    ℕ → (ℕ → Bucket) → ℕ → ℕ → ℕ → Option (List ℕ × (ℕ → Bucket))
  | 0, _, _, _, _ => none
  | fuel + 1, cells, word, index, node =>
      let resident := cells index
      if resident.distAndFingerprint ≠ 0 then
        if word > resident.distAndFingerprint then
          examine index (placeTrace bucketCount fuel (Function.update cells index ⟨word, node⟩)
            (addDist resident.distAndFingerprint) (nextBucket bucketCount index)
            resident.nodeIndex)
        else
          examine index (placeTrace bucketCount fuel cells (addDist word)
            (nextBucket bucketCount index) node)
      else some ([index], Function.update cells index ⟨word, node⟩)

/-- The loop of `erase_bucket`, with the buckets it examines. -/
def eraseTrace (bucketCount : ℕ) :
    ℕ → (ℕ → Bucket) → ℕ → ℕ → Option (List ℕ × (ℕ → Bucket))
  | 0, _, _, _ => none
  | fuel + 1, cells, index, next =>
      if (cells next).distAndFingerprint ≥ 2 * kDistInc then
        examine next (eraseTrace bucketCount fuel
          (Function.update cells index
            ⟨(cells next).distAndFingerprint - kDistInc, (cells next).nodeIndex⟩)
          next (nextBucket bucketCount next))
      else some ([next], Function.update cells index ⟨0, kNullIndex⟩)

theorem probeStartTrace_result (bucketCount : ℕ) (cells : ℕ → Bucket) (fuel : ℕ) :
    ∀ word index, (probeStartTrace bucketCount cells fuel word index).map Prod.snd =
      probeStartLoop bucketCount cells fuel word index := by
  induction fuel with
  | zero => simp [probeStartTrace, probeStartLoop]
  | succ fuel ih =>
      intro word index
      unfold probeStartTrace probeStartLoop
      split
      · simp [ih]
      · simp

theorem placeTrace_result (bucketCount fuel : ℕ) :
    ∀ cells word index node, (placeTrace bucketCount fuel cells word index node).map Prod.snd =
      placeLoop bucketCount fuel cells word index node := by
  induction fuel with
  | zero => simp [placeTrace, placeLoop]
  | succ fuel ih =>
      intro cells word index node
      unfold placeTrace placeLoop
      simp only
      split
      · split
        · simp [ih]
        · simp [ih]
      · simp

theorem eraseTrace_result (bucketCount fuel : ℕ) :
    ∀ cells index next, (eraseTrace bucketCount fuel cells index next).map Prod.snd =
      eraseLoop bucketCount fuel cells index next := by
  induction fuel with
  | zero => simp [eraseTrace, eraseLoop]
  | succ fuel ih =>
      intro cells index next
      unfold eraseTrace eraseLoop
      split
      · simp [ih]
      · simp

/-! ## How far they go -/

/-- Some steps before an empty bucket, `probe_start` walks over occupied buckets and stops. -/
theorem probeStartTrace_around (he : e < 2 ^ k) (hempty : words cells e = 0) :
    ∀ j fuel p c : ℕ, p < 2 ^ k → (p + j) % 2 ^ k = e → j < fuel →
      ∃ m ≤ j, (∀ q ∈ around (2 ^ k) p m, words cells q ≠ 0) ∧
        ∃ c', ∃ p' < 2 ^ k, probeStartTrace (2 ^ k) cells fuel c p =
          some (around (2 ^ k) p (m + 1), c', p') := by
  intro j
  induction j with
  | zero =>
      intro fuel p c hp hje hfuel
      obtain ⟨fuel, rfl⟩ : ∃ n, fuel = n + 1 := ⟨fuel - 1, by omega⟩
      have hpe : p = e := by rwa [Nat.add_zero, Nat.mod_eq_of_lt hp] at hje
      have h0 : (cells p).distAndFingerprint = 0 := by
        rw [hpe]
        exact hempty
      refine ⟨0, le_rfl, by simp [around], c, p, hp, ?_⟩
      rw [probeStartTrace, h0, if_neg (Nat.not_lt_zero c), around_succ hp]
      rfl
  | succ j ih =>
      intro fuel p c hp hje hfuel
      obtain ⟨fuel, rfl⟩ : ∃ n, fuel = n + 1 := ⟨fuel - 1, by omega⟩
      by_cases hlt : c < (cells p).distAndFingerprint
      · obtain ⟨m, hm, hocc, c', p', hp', hr⟩ := ih fuel (succ (2 ^ k) p) (addDist c)
          (succ_lt (by omega) p) (steps_left hje) (by omega)
        refine ⟨m + 1, by omega, fun q hq => ?_, c', p', hp', ?_⟩
        · rw [around_succ hp] at hq
          rcases List.mem_cons.mp hq with rfl | hq
          · exact (Nat.zero_lt_of_lt hlt).ne'
          · exact hocc q hq
        · rw [probeStartTrace, if_pos hlt, nextBucket_eq, hr, examine_some, around_succ hp]
      · refine ⟨0, Nat.zero_le _, by simp [around], c, p, hp, ?_⟩
        rw [probeStartTrace, if_neg hlt, around_succ hp]
        rfl

/-- Some steps before an empty bucket, `place_and_shift_up` goes up to it at most. It fills
no bucket that it has not reached, so the empty one is there when it comes. -/
theorem placeTrace_around :
    ∀ (j fuel : ℕ) (cells : ℕ → Bucket) (p c x : ℕ), words cells e = 0 → p < 2 ^ k →
      (p + j) % 2 ^ k = e → j < fuel →
      ∃ m ≤ j, ∃ cells',
        placeTrace (2 ^ k) fuel cells c p x = some (around (2 ^ k) p (m + 1), cells') := by
  intro j
  induction j with
  | zero =>
      intro fuel cells p c x hempty hp hje hfuel
      obtain ⟨fuel, rfl⟩ : ∃ n, fuel = n + 1 := ⟨fuel - 1, by omega⟩
      have hpe : p = e := by rwa [Nat.add_zero, Nat.mod_eq_of_lt hp] at hje
      have h0 : ¬ (cells p).distAndFingerprint ≠ 0 := by
        rw [hpe]
        exact not_not.mpr hempty
      refine ⟨0, le_rfl, Function.update cells p ⟨c, x⟩, ?_⟩
      rw [placeTrace, if_neg h0, around_succ hp]
      rfl
  | succ j ih =>
      intro fuel cells p c x hempty hp hje hfuel
      obtain ⟨fuel, rfl⟩ : ∃ n, fuel = n + 1 := ⟨fuel - 1, by omega⟩
      have hsucc := succ_lt (Nat.two_pow_pos k) p
      by_cases hocc : (cells p).distAndFingerprint ≠ 0
      · have hpe : e ≠ p := by
          rintro rfl
          exact hocc hempty
        by_cases hgt : c > (cells p).distAndFingerprint
        · have hempty' : words (Function.update cells p ⟨c, x⟩) e = 0 := by
            rwa [words_update, Function.update_of_ne hpe]
          obtain ⟨m, hm, cells', hrun⟩ := ih fuel _ (succ (2 ^ k) p)
            (addDist (cells p).distAndFingerprint) (cells p).nodeIndex hempty' hsucc
            (steps_left hje) (by omega)
          refine ⟨m + 1, by omega, cells', ?_⟩
          rw [placeTrace, if_pos hocc, if_pos hgt, nextBucket_eq, hrun, examine_some,
            around_succ hp]
        · obtain ⟨m, hm, cells', hrun⟩ := ih fuel cells (succ (2 ^ k) p) (addDist c) x hempty
            hsucc (steps_left hje) (by omega)
          refine ⟨m + 1, by omega, cells', ?_⟩
          rw [placeTrace, if_pos hocc, if_neg hgt, nextBucket_eq, hrun, examine_some,
            around_succ hp]
      · refine ⟨0, Nat.zero_le _, Function.update cells p ⟨c, x⟩, ?_⟩
        rw [placeTrace, if_neg hocc, around_succ hp]
        rfl

/-- `erase_bucket` looks at the buckets after the hole, up to an empty one at most. -/
theorem eraseTrace_around :
    ∀ (j fuel : ℕ) (cells : ℕ → Bucket) (p : ℕ), words cells e = 0 → p < 2 ^ k → p ≠ e →
      (p + (j + 1)) % 2 ^ k = e → j < fuel →
      ∃ m ≤ j, ∃ cells', eraseTrace (2 ^ k) fuel cells p (succ (2 ^ k) p) =
        some (around (2 ^ k) (succ (2 ^ k) p) (m + 1), cells') := by
  have hclose : ∀ (j fuel : ℕ) (cells : ℕ → Bucket) (p : ℕ),
      ¬ (cells (succ (2 ^ k) p)).distAndFingerprint ≥ 2 * kDistInc →
      ∃ m ≤ j, ∃ cells', eraseTrace (2 ^ k) (fuel + 1) cells p (succ (2 ^ k) p) =
        some (around (2 ^ k) (succ (2 ^ k) p) (m + 1), cells') := by
    intro j fuel cells p hlow
    refine ⟨0, Nat.zero_le _, Function.update cells p ⟨0, kNullIndex⟩, ?_⟩
    rw [eraseTrace, if_neg hlow, around_succ (succ_lt (Nat.two_pow_pos k) p)]
    rfl
  intro j
  induction j with
  | zero =>
      intro fuel cells p hempty hp hpe hje hfuel
      obtain ⟨fuel, rfl⟩ : ∃ n, fuel = n + 1 := ⟨fuel - 1, by omega⟩
      have hnext : succ (2 ^ k) p = e := hje
      apply hclose
      have h0 : (cells (succ (2 ^ k) p)).distAndFingerprint = 0 := by
        rw [hnext]
        exact hempty
      rw [h0]
      decide
  | succ j ih =>
      intro fuel cells p hempty hp hpe hje hfuel
      obtain ⟨fuel, rfl⟩ : ∃ n, fuel = n + 1 := ⟨fuel - 1, by omega⟩
      by_cases hnext : (cells (succ (2 ^ k) p)).distAndFingerprint ≥ 2 * kDistInc
      · have hsucc := succ_lt (Nat.two_pow_pos k) p
        have hne : succ (2 ^ k) p ≠ e := by
          rintro rfl
          unfold words at hempty
          rw [hempty] at hnext
          exact absurd hnext (by decide)
        have hempty' : words (Function.update cells p
            ⟨(cells (succ (2 ^ k) p)).distAndFingerprint - kDistInc,
              (cells (succ (2 ^ k) p)).nodeIndex⟩) e = 0 := by
          rwa [words_update, Function.update_of_ne (Ne.symm hpe)]
        obtain ⟨m, hm, cells', hrun⟩ := ih fuel _ (succ (2 ^ k) p) hempty' hsucc hne
          (steps_left hje) (by omega)
        refine ⟨m + 1, by omega, cells', ?_⟩
        rw [eraseTrace, if_pos hnext, nextBucket_eq, hrun, examine_some, around_succ hsucc]
      · exact hclose _ fuel cells p hnext

/-! ## Lookup -/

/-- One round of the loop of `find_bucket`: what it returns, or nothing if the loop goes on. -/
def findBucketRound (key : τ.Key) (word index : ℕ) : Exec τ (Option ℕ) := do
  let t ← getTable
  let bucket ← bucketAt index
  if word = bucket.distAndFingerprint then do
    let other ← keyAt bucket.nodeIndex
    let same ← callKeyEqual key other
    if same then
      pure (some index)
    else pure none
  else if word > bucket.distAndFingerprint then
    pure (some t.bucketCount)
  else pure none

/-- The loop of `find_bucket`, with the buckets it examines, also where it throws. -/
def findBucketTrace (key : τ.Key) : ℕ → ℕ → ℕ → Store τ → List ℕ × Result ℕ × Store τ
  | 0, _, _, s => ([], .diverged, s)
  | fuel + 1, word, index, s =>
      match (findBucketRound key word index).run s with
      | (.ok none, s') =>
          let r := findBucketTrace key fuel (addDist word)
            (nextBucket s.table.bucketCount index) s'
          (index :: r.1, r.2)
      | (.ok (some b), s') => ([index], .ok b, s')
      | (.thrown, s') => ([index], .thrown, s')
      | (.diverged, s') => ([index], .diverged, s')
      | (.undefined, s') => ([index], .undefined, s')

/-- The loop of `find_bucket`, round by round. -/
theorem findBucketLoop_succ (key : τ.Key) (fuel word index : ℕ) (s : Store τ) :
    (findBucketLoop key (fuel + 1) word index).run s =
      match (findBucketRound key word index).run s with
      | (.ok none, s') =>
          (findBucketLoop key fuel (addDist word) (nextBucket s.table.bucketCount index)).run s'
      | (.ok (some b), s') => (.ok b, s')
      | (.thrown, s') => (.thrown, s')
      | (.diverged, s') => (.diverged, s')
      | (.undefined, s') => (.undefined, s') := by
  rw [findBucketLoop, findBucketRound, run_getTable, run_getTable, Action.run_bind, Action.run_bind]
  rcases (bucketAt index).run s with ⟨bucket | _ | _ | _, s1⟩ <;> simp only
  by_cases heq : word = bucket.distAndFingerprint
  · rw [if_pos heq, if_pos heq, Action.run_bind, Action.run_bind]
    rcases (keyAt bucket.nodeIndex).run s1 with ⟨other | _ | _ | _, s2⟩ <;> simp only
    rw [Action.run_bind, Action.run_bind]
    rcases (callKeyEqual key other).run s2 with ⟨same | _ | _ | _, s3⟩ <;> simp only
    cases same <;> rfl
  · rw [if_neg heq, if_neg heq]
    split <;> rfl

theorem findBucketTrace_result (key : τ.Key) (fuel : ℕ) :
    ∀ word index s, (findBucketTrace key fuel word index s).2 =
      (findBucketLoop key fuel word index).run s := by
  induction fuel with
  | zero =>
      intro word index s
      rfl
  | succ fuel ih =>
      intro word index s
      rw [findBucketLoop_succ, findBucketTrace]
      rcases (findBucketRound key word index).run s with ⟨(_ | b) | _ | _ | _, s'⟩
      · exact ih _ _ _
      all_goals rfl

/-- A round that ends without an answer leaves the table alone, and its bucket was occupied by
a word that is not below the carried one. -/
theorem findBucketRound_goes_on (key : τ.Key) (word index : ℕ) (s : Store τ) :
    Action.Post Stuck.anyhow (findBucketRound key word index) s
      (fun r s' => r = none → s'.table = s.table ∧
        ∀ array, s.table.buckets = some array → word ≤ words array.cells index)
      (fun _ => True) := by
  unfold findBucketRound
  rw [post_getTable]
  refine post_bucketAt (fun array harray _ => ?_) fun _ => trivial
  have hgoes : ∀ s' : Store τ, s'.table = s.table →
      word ≤ (array.cells index).distAndFingerprint → s'.table = s.table ∧
        ∀ array', s.table.buckets = some array' → word ≤ words array'.cells index := by
    intro s' hs' hle
    refine ⟨hs', fun array' harray' => ?_⟩
    rw [harray] at harray'
    cases harray'
    exact hle
  split
  · next heq =>
      refine post_keyAt (fun other _ => ?_) fun _ => trivial
      refine post_callKeyEqual (fun f _ => ?_) fun _ _ => trivial
      split
      · exact fun h => by cases h
      · exact fun _ => hgoes _ rfl heq.le
  · split
    · exact fun h => by cases h
    · next hgt => exact fun _ => hgoes s rfl (not_lt.mp hgt)

/-- Some steps before an empty bucket, `find_bucket` walks over occupied buckets and stops. A
word that wrapped could be the one of the empty bucket, so the words need room. -/
theorem findBucketTrace_around (key : τ.Key) {array : BucketArray τ}
    (hbuckets : t.buckets = some array) (h : Ordered n k t array) (hroom : n + 2 ≤ 2 ^ 24)
    (he : e < 2 ^ k) (hempty : words array.cells e = 0) :
    ∀ (j fuel p c : ℕ) (s : Store τ), s.table = t → p < 2 ^ k → (p + j) % 2 ^ k = e → j < fuel →
      Ranged (2 ^ k) kDistInc c → Fits (2 ^ k) kDistInc (words array.cells) p c →
      ∃ m ≤ j, (∀ q ∈ around (2 ^ k) p m, words array.cells q ≠ 0) ∧
        (findBucketTrace key fuel c p s).1 = around (2 ^ k) p (m + 1) := by
  have hstop : ∀ (j p : ℕ), p < 2 ^ k → ∃ m ≤ j, (∀ q ∈ around (2 ^ k) p m,
      words array.cells q ≠ 0) ∧ [p] = around (2 ^ k) p (m + 1) := by
    intro j p hp
    refine ⟨0, Nat.zero_le j, by simp [around], ?_⟩
    rw [around_succ hp]
    rfl
  intro j
  induction j with
  | zero =>
      intro fuel p c s hs hp hje hfuel hc hfit
      obtain ⟨fuel, rfl⟩ : ∃ n, fuel = n + 1 := ⟨fuel - 1, by omega⟩
      have hpe : p = e := by rwa [Nat.add_zero, Nat.mod_eq_of_lt hp] at hje
      have hgoes := findBucketRound_goes_on key c p s
      have hpos : 0 < c := Nat.lt_of_lt_of_le (by decide) hc.1
      rw [findBucketTrace]
      rcases hround : (findBucketRound key c p).run s with ⟨(_ | b) | _ | _ | _, s'⟩
      · exfalso
        have hle := (hgoes.ok_of_run hround rfl).2 array (by rw [hs, hbuckets])
        rw [hpe, hempty] at hle
        omega
      all_goals exact hstop 0 p hp
  | succ j ih =>
      intro fuel p c s hs hp hje hfuel hc hfit
      obtain ⟨fuel, rfl⟩ : ∃ n, fuel = n + 1 := ⟨fuel - 1, by omega⟩
      have hgoes := findBucketRound_goes_on key c p s
      have hpos : 0 < c := Nat.lt_of_lt_of_le (by decide) hc.1
      rw [findBucketTrace]
      rcases hround : (findBucketRound key c p).run s with ⟨(_ | b) | _ | _ | _, s'⟩
      · obtain ⟨htable, hword⟩ := hgoes.ok_of_run hround rfl
        have hle := hword array (by rw [hs, hbuckets])
        obtain ⟨hadd, hc'⟩ := h.words.addDist he hempty (h.roomy hroom) hp hc hfit (by omega)
        have hsucc : nextBucket s.table.bucketCount p = succ (2 ^ k) p := by
          rw [hs, h.bucketCount, nextBucket_eq]
        obtain ⟨m, hm, hocc, hexamined⟩ := ih fuel (succ (2 ^ k) p) (c + kDistInc) s'
          (htable.trans hs) (succ_lt (by omega) p) (steps_left hje) (by omega) hc'
          (Fits.next hp hle)
        refine ⟨m + 1, by omega, fun q hq => ?_, ?_⟩
        · rw [around_succ hp] at hq
          rcases List.mem_cons.mp hq with rfl | hq
          · omega
          · exact hocc q hq
        · simp only [hadd, hsucc, hexamined]
          rw [around_succ hp]
      all_goals exact hstop (j + 1) p hp

/-- An index in order has its words in order. -/
theorem Indexed.ordered {H : ℕ → UInt64} {L : List ℕ} (I : Indexed H L t k cells)
    (hL : L.Nodup) : ∃ array, t.buckets = some array ∧ Ordered L.length k t array := by
  obtain ⟨array, harray, hsize, hcells⟩ := I.buckets
  refine ⟨array, harray, I.three_le, I.bucketCount, I.bucketShift, hsize, ?_, ?_⟩
  · rw [hcells]
    exact I.layout.words (fpOf_lt H)
  · rw [hcells]
    exact (I.card hL).le

/-! ## The functions around the loops -/

/-- The cells behind `buckets_`. -/
def cellsOf (t : Table τ) : ℕ → Bucket :=
  (t.buckets.map BucketArray.cells).getD emptyCells

/-- The buckets that a loop has examined, if it ends. -/
def examined (o : Option (List ℕ × α)) : List ℕ := (o.map Prod.fst).getD []

@[simp] theorem examined_some (r : List ℕ × α) : examined (some r) = r.1 := rfl

/-- The buckets that `probe_start` examines. -/
def probeStartExamined (t : Table τ) (hash : UInt64) : List ℕ :=
  examined (probeStartTrace t.bucketCount (cellsOf t) (loopFuel t.bucketCount)
    (distAndFingerprintFromHash hash) (t.homeFromHash hash))

/-- The buckets that `place_and_shift_up` examines. -/
def placeExamined (t : Table τ) (word index node : ℕ) : List ℕ :=
  examined (placeTrace t.bucketCount (loopFuel t.bucketCount) (cellsOf t) word index node)

/-- The buckets that `erase_bucket` examines. -/
def eraseExamined (t : Table τ) (index : ℕ) : List ℕ :=
  examined (eraseTrace t.bucketCount (loopFuel t.bucketCount) (cellsOf t) index
    (nextBucket t.bucketCount index))

/-- The buckets that `find_bucket` examines. -/
def findBucketExamined (key : τ.Key) (hash : UInt64) (s : Store τ) : List ℕ :=
  if s.table.bucketCount = 0 then []
  else (findBucketTrace key (loopFuel s.table.bucketCount) (distAndFingerprintFromHash hash)
    (s.table.homeFromHash hash) s).1

end Fum.Analysis

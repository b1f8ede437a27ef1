import Fum.Analysis.Distances
import Fum.Analysis.Histories
import Fum.Interface.ProbeLoops

/-!
# The packed probe distance

The distance of a node from its home takes the upper 24 bits of its word, and `max_size()`
allows for 2 ^ 32 elements. What the hasher decides is how many of them have the same home.
Up to 2 ^ 24 - 2 elements no hasher brings a distance beyond its 24 bits; one element more,
all with one hash, and a lookup carries a distance of 2 ^ 24, which is the word of an empty
bucket.
-/

set_option autoImplicit false

namespace Fum.Interface

open Fum.Model Fum.Analysis Effects RobinHood

variable {τ : Traits} {s : Store τ} {t : Table τ} {array : BucketArray τ} {n k N : ℕ}

/-! ## What the code relies on -/

/-- No loop over the buckets of the table adds beyond 32 bits, whichever key of its own
hasher it goes by. -/
structure SumsFit (t : Table τ) : Prop where
  findBucket : ∀ (key : τ.Key) (heap : Heap) (fuel : ℕ), FindBucketFits key fuel
    (distAndFingerprintFromHash (t.mixedHash key)) (t.homeFromHash (t.mixedHash key)) ⟨t, heap⟩
  probeStart : ∀ (key : τ.Key) (fuel : ℕ), ProbeStartFits t.bucketCount (cellsOf t) fuel
    (distAndFingerprintFromHash (t.mixedHash key)) (t.homeFromHash (t.mixedHash key))
  placeAndShiftUp : ∀ (key : τ.Key) (heap : Heap) (word index : ℕ),
    (Model.probeStart (t.mixedHash key)).run ⟨t, heap⟩ = (.ok (word, index), ⟨t, heap⟩) →
      ∀ node fuel, PlaceFits t.bucketCount fuel (cellsOf t) word index node
  /-- As `rehash_to` places its nodes. -/
  fromHome : ∀ (key : τ.Key) (node fuel : ℕ), PlaceFits t.bucketCount fuel (cellsOf t)
    (distAndFingerprintFromHash (t.mixedHash key)) (t.homeFromHash (t.mixedHash key)) node

/-- The distances in the buckets are true, and no loop over them adds beyond 32 bits: as they
stand, and at any time during a rebuild and after it. -/
structure DistancesFit (t : Table τ) : Prop where
  sums : t.bucketCount ≠ 0 → SumsFit t
  rebuild : ∀ k, 3 ≤ k → t.size < 2 ^ k → ∀ done rest, t.iteration = done ++ rest →
    ∀ (heap : Heap) (s : Store τ), (rebuildUpTo (2 ^ k) done).run ⟨t, heap⟩ = (.ok (), s) →
      SumsFit s.table
  distance : ∀ p, Occupied t p → ∀ e, (t.nodeAt (nodeIn t p)).storage = some e →
    wordAt t p >>> 8 = (p + t.bucketCount - t.homeFromHash (t.mixedHash (τ.keyOf e.value))) %
      t.bucketCount + 1
  occupied : ∀ x, (t.nodeAt x).storage.isSome → ∃ p, Occupied t p ∧ nodeIn t p = x

/-! ## Up to 2 ^ 24 - 2 elements -/

/-- Where `probe_start` stops, its word fits. -/
theorem probeStart_fits (hbuckets : s.table.buckets = some array)
    (h : Ordered n k s.table array) (hlt : n < 2 ^ k) (hroom : n + 2 ≤ 2 ^ 24) (hash : UInt64) :
    ∃ word index, (probeStart hash).run s = (.ok (word, index), s) ∧ index < 2 ^ k ∧
      Ranged (2 ^ k) kDistInc word ∧
      RobinHood.Fits (2 ^ k) kDistInc (words array.cells) index word := by
  obtain ⟨e, he, hempty⟩ := h.exists_empty hlt
  obtain ⟨j, hj, hje⟩ := exists_steps (s.table.homeFromHash hash) he
  obtain ⟨word, index, hloop, hindex, hranged, hfit⟩ := probeStartLoop_ends h.words he hempty
    (h.roomy hroom) j (loopFuel (2 ^ k)) _ _ (h.homeFromHash_lt hash) hje (lt_loopFuel hj)
    (ranged_distAndFingerprintFromHash k hash) (home_fits _ _ _)
  refine ⟨word, index, ?_, hindex, hranged, hfit⟩
  rw [run_probeStart hbuckets, h.bucketCount, hloop]
  rfl

theorem sumsFit_of_ordered (hbuckets : t.buckets = some array) (h : Ordered n k t array)
    (hlt : n < 2 ^ k) (hroom : n + 2 ≤ 2 ^ 24) : SumsFit t := by
  obtain ⟨e, he, hempty⟩ := h.exists_empty hlt
  have hhome := fun key => h.homeFromHash_lt (t.mixedHash key)
  have hranged := fun key => ranged_distAndFingerprintFromHash k (t.mixedHash key)
  have hroomy := h.roomy hroom
  refine ⟨fun key heap fuel => ?_, fun key fuel => ?_, fun key heap word index hrun node fuel => ?_,
    fun key node fuel => ?_⟩
  · exact findBucketFits he key hbuckets h hroom hempty fuel _ _ _ rfl (hhome key) (hranged key)
      (home_fits _ _ _)
  · rw [cellsOf_eq hbuckets, h.bucketCount]
    exact probeStartFits he h.words hempty hroomy fuel _ _ (hhome key) (hranged key)
      (home_fits _ _ _)
  · obtain ⟨c, p, hrun', hp, hc, hfit⟩ :=
      probeStart_fits (s := ⟨t, heap⟩) hbuckets h hlt hroom (t.mixedHash key)
    rw [hrun'] at hrun
    cases hrun
    rw [cellsOf_eq hbuckets, h.bucketCount]
    exact placeFits he h.three_le fuel _ _ _ node h.words hempty hroomy hp hc hfit
  · rw [cellsOf_eq hbuckets, h.bucketCount]
    exact placeFits he h.three_le fuel _ _ _ node h.words hempty hroomy (hhome key) (hranged key)
      (home_fits _ _ _)

theorem distancesFit_of_consistent (hc : Consistent t) (hroom : Room t) : DistancesFit t where
  sums hcount := by
    rcases hc.index with ⟨-, hzero, -⟩ | ⟨k, cells, I, hlt, -⟩
    · exact absurd hzero hcount
    · obtain ⟨array, harray, hordered⟩ := I.ordered hc.slots.iteration_nodup
      exact sumsFit_of_ordered harray hordered hlt hroom
  rebuild k hk hsize done rest hsplit heap s hrun := by
    have hdone : done.length ≤ t.size := by
      unfold Table.size
      rw [hsplit, List.length_append]
      exact Nat.le_add_right _ _
    have hroom' : t.size + 2 ≤ 2 ^ 24 := hroom
    obtain ⟨array, harray, h⟩ :=
      (rebuildUpTo_ordered hk (by omega) (by omega)).ok_of_run hrun
    exact sumsFit_of_ordered harray h (by omega) (by omega)
  distance p hp e he := by
    rcases hc.index with ⟨-, hzero, -⟩ | ⟨k, cells, I, -, -⟩
    · have hlt := hp.1
      omega
    · have hfp := fingerprint_lt (t.mixedHash (τ.keyOf e.value))
      rw [word_in_bucket I hp he, Nat.shiftRight_eq_div_pow]
      rw [kDistInc_eq] at hfp ⊢
      omega
  occupied x hx := by
    have hmem := (hc.filled x).mp hx
    rcases hc.index with ⟨-, -, hempty⟩ | ⟨k, cells, I, -, -⟩
    · rw [hempty] at hmem
      cases hmem
    · obtain ⟨p, hp, hocc, hnode⟩ := (I.holds x).mpr hmem
      exact ⟨p, (occupied_iff I).mpr ⟨hp, hocc⟩, by rw [nodeIn_eq I]; exact hnode⟩

/-! ## Tables of a bounded size -/

/-- The step leaves every table with at most `N` elements, asks for buckets enough, and
throws, if at all, where an exception does no harm. -/
def RegularWithin (N : ℕ) (w : World τ) (step : Step τ) : Prop :=
  Everywhere (fun t => t.size ≤ N) (step.exec.run w).2 ∧ Analysis.Fits w step.op ∧
    ((step.exec.run w).1 = .thrown → Harmless w step.fault step.op)

/-- A table of a program with lawful functors in which no table ever has more than `N`
elements. -/
def ReachableWithin (N : ℕ) (t : Table τ) : Prop :=
  ∃ steps w i, Run World.empty steps w ∧ EachStep (RegularWithin N) World.empty steps ∧
    (∀ step ∈ steps, LawfulFunctors step.op) ∧ w.table? i = some t

theorem ReachableWithin.reachable (h : ReachableWithin N t) (hN : N + 2 ≤ 2 ^ 24) :
    Reachable t := by
  obtain ⟨steps, w, i, hrun, hsteps, hlaw, ht⟩ := h
  refine ⟨steps, w, i, hrun, hsteps.mono fun w1 step hstep => ?_, hlaw, ht⟩
  refine ⟨fun j t' ht' => ?_, hstep.2⟩
  have hsize : t'.size ≤ N := hstep.1 j t' ht'
  exact (Nat.add_le_add_right hsize 2).trans hN

/-! ## One element more -/

/-- Nodes that all have the hash zero sit one after another from the first bucket on. -/
theorem words_of_zero_hash {H : ℕ → UInt64} {L : List ℕ} {cells : ℕ → Bucket}
    (I : Indexed H L t k cells) (hL : L.Nodup) (hzero : ∀ x ∈ L, H x = 0) {d : ℕ}
    (hd : d < L.length) : d < 2 ^ k ∧ words cells d = (d + 1) * kDistInc := by
  have hseated : ∀ q < 2 ^ k, words cells q ≠ 0 →
      words cells q = (q + 1) * kDistInc ∧ ∀ j < q, words cells j ≠ 0 := by
    intro q hq hocc
    obtain ⟨d, hd, hword, hpos⟩ := I.layout.seated q hq hocc
    have hbefore := I.layout.linked.occupied_before (by decide) (by omega) hword hpos
      (I.layout.linked q hq)
    have hmem : nodes cells q ∈ L := (I.holds _).mp ⟨q, hq, hocc, rfl⟩
    have hhome : homeOf k H (nodes cells q) = 0 := by
      simp [homeOf, hzero _ hmem]
    have hfp : fpOf H (nodes cells q) = 0 := by
      simp [fpOf, hzero _ hmem, fingerprint]
    rw [hhome, Nat.zero_add, Nat.mod_eq_of_lt hd] at hpos
    subst hpos
    refine ⟨by rw [hword, hfp, Nat.add_zero], fun j hj => ?_⟩
    have hj' := hbefore j hj
    rwa [hhome, Nat.zero_add, Nat.mod_eq_of_lt (hj.trans hq)] at hj'
  have hocc : d < 2 ^ k ∧ words cells d ≠ 0 := by
    by_contra hnot
    -- without it all nodes would sit before `d`
    have hsub : occupied (2 ^ k) (words cells) ⊆ Finset.range d := by
      intro q hq
      obtain ⟨hqk, hqocc⟩ := mem_occupied.mp hq
      rw [Finset.mem_range]
      by_contra hge
      apply hnot
      rcases Nat.lt_or_eq_of_le (not_lt.mp hge) with hlt | rfl
      · exact ⟨by omega, (hseated q hqk hqocc).2 d hlt⟩
      · exact ⟨hqk, hqocc⟩
    have hcard := Finset.card_le_card hsub
    rw [I.card hL, Finset.card_range] at hcard
    omega
  exact ⟨hocc.1, (hseated d hocc.1 hocc.2).1⟩

/-- A lookup that meets its own word in a bucket with another key goes on. -/
theorem findBucketRound_passes {key : τ.Key} {d : ℕ} {e : Element τ}
    (hbuckets : s.table.buckets = some array) (hd : d < array.size)
    (he : (s.table.nodeAt (array.cells d).nodeIndex).storage = some e)
    (hne : s.table.keyEqual key (τ.keyOf e.value) = false) (hquiet : s.heap.fault = none) :
    (findBucketRound key (array.cells d).distAndFingerprint d).run s = (.ok none, s) := by
  have hpost : Action.Post Stuck.never
      (findBucketRound key (array.cells d).distAndFingerprint d) s
      (fun r s' => r = none ∧ s' = s) (fun _ => False) := by
    unfold findBucketRound
    rw [post_getTable]
    refine post_bucketAt (fun array' harray' _ => ?_) fun hout => ?_
    · rw [hbuckets] at harray'
      cases harray'
      rw [if_pos rfl]
      refine post_keyAt (fun e' he' => ?_) fun hnone => ?_
      · rw [he] at he'
        cases he'
        refine post_callKeyEqual (fun f hf => ?_) fun hpoint _ => ?_
        · have hfnone : f = none := by
            rw [hquiet] at hf
            exact hf.eq_of_ne (by simp [faultPoint])
          rw [hne, if_neg Bool.false_ne_true, hfnone, ← hquiet, withFault_self]
          exact ⟨rfl, rfl⟩
        · exact fault_ne_none hpoint hquiet
      · rw [hnone] at he
        cases he
    · have := hout array hbuckets
      omega
  obtain ⟨r, s', hrun, rfl, rfl⟩ := hpost.returns
  exact hrun

/-- A lookup that passes `n` nodes of its own hash adds `n` times. -/
theorem sum_of_findBucketFits {key : τ.Key} {H : ℕ → UInt64} {L : List ℕ} {cells : ℕ → Bucket}
    (I : Indexed H L s.table k cells) (hL : L.Nodup) (hzero : ∀ x ∈ L, H x = 0)
    (hdiffers : ∀ x ∈ L, ∃ e, (s.table.nodeAt x).storage = some e ∧
      s.table.keyEqual key (τ.keyOf e.value) = false) (hquiet : s.heap.fault = none) :
    ∀ j d, d + (j + 1) = L.length →
      FindBucketFits key (j + 1) ((d + 1) * kDistInc) d s →
        (L.length + 1) * kDistInc < 2 ^ 32 := by
  obtain ⟨array, harray, hsize, hcells⟩ := I.buckets
  have hround : ∀ d < L.length,
      (findBucketRound key ((d + 1) * kDistInc) d).run s = (.ok none, s) := by
    intro d hd
    obtain ⟨hlt, hword⟩ := words_of_zero_hash I hL hzero hd
    have hmem : nodes cells d ∈ L := (I.holds _).mp ⟨d, hlt, by
      rw [hword]
      exact (Nat.mul_pos (Nat.succ_pos d) (by decide)).ne', rfl⟩
    obtain ⟨e, he, hne⟩ := hdiffers _ hmem
    rw [← hcells] at he hword
    rw [← hword]
    exact findBucketRound_passes harray (by omega) he hne hquiet
  intro j
  induction j with
  | zero =>
      intro d hd hfits
      have hsum := (hfits.2 s (hround d (by omega))).1
      rw [← hd, Nat.zero_add, Nat.add_mul, Nat.one_mul]
      exact hsum
  | succ j ih =>
      intro d hd hfits
      obtain ⟨hsum, hrest⟩ := hfits.2 s (hround d (by omega))
      have hlt := (words_of_zero_hash I hL hzero (d := d + 1) (by omega)).1
      rw [addDist_eq hsum, I.bucketCount, nextBucket_eq, succ, Nat.mod_eq_of_lt hlt,
        ← Nat.succ_mul] at hrest
      exact ih (d + 1) (by omega) hrest

/-- A table of more than 2 ^ 24 - 2 elements, all with the hash zero, and one more key. -/
theorem not_distancesFit_of_zero_hash (hc : Consistent t) (hzero : ∀ key, t.mixedHash key = 0)
    {key : τ.Key} (habsent : Absent t key) (hmany : 2 ^ 24 ≤ t.size + 1) : ¬ DistancesFit t := by
  intro h
  have hsize : t.size = t.iteration.length := rfl
  rcases hc.index with ⟨-, -, hempty⟩ | ⟨k, cells, I, hlt, -⟩
  · rw [hsize, hempty] at hmany
    exact absurd hmany (by decide)
  · have hcount := I.bucketCount_ne_zero
    have hfits := (h.sums hcount).findBucket key Heap.empty t.iteration.length
    obtain ⟨j, hj⟩ : ∃ j, t.iteration.length = j + 1 := ⟨t.iteration.length - 1, by omega⟩
    have hhome : t.homeFromHash 0 = 0 := by simp [Table.homeFromHash]
    have hword : distAndFingerprintFromHash 0 = (0 + 1) * kDistInc := rfl
    rw [hzero, hhome, hword, hj] at hfits
    have hsum := sum_of_findBucketFits (s := ⟨t, Heap.empty⟩) I hc.slots.iteration_nodup
      (fun x _ => ?_) (fun x hx => ?_) rfl j 0 (by rw [hj, Nat.zero_add]) hfits
    · rw [kDistInc_eq] at hsum
      omega
    · unfold ownHash
      split
      · exact hzero _
      · rfl
    · obtain ⟨e, he⟩ := Option.isSome_iff_exists.mp (hc.live hx)
      exact ⟨e, he,
        habsent x hx ((ownHash_of_storage he).trans ((hzero _).trans (hzero _).symm)) e he⟩

/-! ## A crowd -/

/-- The numbers below `n` in a map whose hasher returns zero. -/
def crowdSteps (n : ℕ) : List (Step NatMap) :=
  ⟨.construct 0 (fun _ => 0) (fun a b : ℕ => a == b) (), none⟩ ::
    (List.range n).map fun i => ⟨.table 0 (.insert (i, i)), none⟩

/-- The table that they lead to. -/
structure Crowd (n : ℕ) (t : Table NatMap) : Prop where
  wellFormed : WellFormed t
  moderate : Moderate t
  hashFunction : t.hashFunction = fun _ => 0
  keyEqual : t.keyEqual = fun a b => a == b
  contents : contents t = (List.range n).map fun i => (i, i)

namespace Crowd

variable {t : Table NatMap}

theorem lawful (h : Crowd n t) : LawfulTable t := by
  unfold LawfulTable
  rw [h.hashFunction, h.keyEqual]
  exact lawful_beq _

theorem size (h : Crowd n t) : t.size = n := by
  rw [← h.wellFormed.consistent.length_contents, h.contents]
  simp

/-- The next number is not in the table. -/
theorem present_eq_false (h : Crowd n t) :
    DenseMap.present NatMap.keyOf t.keyEqual n (Analysis.contents t) = false := by
  rw [h.contents, h.keyEqual, ← Bool.not_eq_true, DenseMap.present_eq_true]
  rintro ⟨v, hv, hequal⟩
  obtain ⟨i, hi, rfl⟩ := List.mem_map.mp hv
  have heq : n = i := beq_iff_eq.mp hequal
  rw [List.mem_range] at hi
  omega

theorem absent (h : Crowd n t) : Absent t n := by
  intro x hx _
  apply not_matches_iff.mp
  intro hmatch
  have hpresent := present_of_matches hx hmatch
  rw [h.present_eq_false] at hpresent
  cases hpresent

/-- The insertion of the next number. -/
theorem insert (h : Crowd n t) (hn : n + 2 ≤ 2 ^ 24) (heap : Heap) (hquiet : heap.fault = none) :
    ∃ it flag s', (Op.insert (n, n) : Op NatMap).exec.run ⟨t, heap⟩ =
      (.ok (.inserted it flag), s') ∧ Crowd (n + 1) s'.table := by
  have hroom : Room t := by
    unfold Room
    rwa [h.size]
  obtain ⟨reply, s', hrun, heffect, hc', -⟩ := (Op.exec_playable (U := Stuck.never)
    (s := ⟨t, heap⟩) (.insert (n, n)) ⟨h.wellFormed, hroom, h.lawful, h.moderate, rfl⟩ hquiet
    trivial trivial trivial).returns
  cases reply with
  | inserted it flag =>
      have hentered : Entered t n (n, n) it flag s'.table := heffect
      have hcontents := (Entered.contents (v := (n, n)) hentered h.wellFormed.consistent
        h.lawful).1
      have hpolicy : SamePolicy t s'.table := by
        cases hentered with
        | inserted _ _ inserted => exact inserted.policy
        | found _ _ _ same _ => exact same.policy
      refine ⟨it, flag, s', hrun, h.wellFormed.of_effect heffect hc', ?_,
        hpolicy.hashFunction.trans h.hashFunction, hpolicy.keyEqual.trans h.keyEqual, ?_⟩
      · unfold Moderate
        rw [hpolicy.maxLoadFactor]
        exact h.moderate
      · unfold DenseMap.enter at hcontents
        have hnot : ¬ DenseMap.present NatMap.keyOf t.keyEqual (NatMap.keyOf (n, n))
            (Analysis.contents t) = true := by
          rw [Bool.not_eq_true]
          exact h.present_eq_false
        rw [hcontents, if_neg hnot, h.contents, List.range_succ, List.map_append]
        rfl
  | _ => exact heffect.elim

end Crowd

theorem crowdSteps_succ (n : ℕ) :
    crowdSteps (n + 1) = crowdSteps n ++ [⟨.table 0 (.insert (n, n)), none⟩] := by
  unfold crowdSteps
  rw [List.range_succ, List.map_append]
  rfl

/-- The map that the program starts with. -/
def emptyCrowd : Table NatMap :=
  Table.initial (kDefaultMaxLoadFactor _) (fun _ : ℕ => 0) (fun a b : ℕ => a == b) ()

theorem crowd_zero : Crowd 0 emptyCrowd where
  wellFormed := initial_wellFormed _ _ _ _
  moderate := RoundedArithmetic.Rounding.round_le_one _ (by norm_num)
  hashFunction := rfl
  keyEqual := rfl
  contents := rfl

/-- A program with one table. -/
theorem everywhere_of_single {I : Table τ → Prop} {w : World τ} (hw : w.tables = [some t])
    (ht : I t) : Everywhere I w := by
  intro j t' ht'
  unfold World.table? at ht'
  rw [hw] at ht'
  cases j with
  | zero => exact Option.some.inj ht' ▸ ht
  | succ j => cases ht'

/-- Up to 2 ^ 24 - 1 numbers the program runs as it should. -/
theorem crowd_run (n : ℕ) (hn : n + 1 ≤ 2 ^ 24) (hN : n ≤ N) :
    ∃ w t, Run World.empty (crowdSteps n) w ∧
      EachStep (RegularWithin N) World.empty (crowdSteps n) ∧ w.tables = [some t] ∧ Crowd n t := by
  have hregular : ∀ (w w' : World NatMap) (step : Step NatMap) (t : Table NatMap) (n : ℕ),
      n ≤ N → step.exec.run w = (.ok (), w') → Analysis.Fits w step.op → w'.tables = [some t] →
        Crowd n t → RegularWithin N w step := by
    intro w w' step t n hN hexec hfits htables hcrowd
    refine ⟨?_, hfits, fun hthrown => ?_⟩
    · rw [hexec]
      apply everywhere_of_single htables
      rwa [hcrowd.size]
    · rw [hexec] at hthrown
      cases hthrown
  induction n with
  | zero =>
      have hexec : (Step.exec ⟨.construct 0 (fun _ => 0) (fun a b : ℕ => a == b) (), none⟩ :
          Action (World NatMap) Unit).run World.empty =
            (.ok (), ⟨[some emptyCrowd], [], Heap.empty⟩) := rfl
      exact ⟨_, emptyCrowd, Run.snoc (Run.nil _) (Or.inl hexec),
        ⟨hregular _ _ _ _ 0 hN hexec trivial rfl crowd_zero, trivial⟩, rfl, crowd_zero⟩
  | succ n ih =>
      obtain ⟨w, t, hrun, hsteps, htables, hcrowd⟩ := ih (by omega) (by omega)
      obtain ⟨it, flag, s', hinsert, hcrowd'⟩ := hcrowd.insert (by omega)
        { w.heap with fault := none } rfl
      let step : Step NatMap := ⟨.table 0 (.insert (n, n)), none⟩
      have ht : (started step w).table? 0 = some t := by
        show w.tables[0]?.join = some t
        rw [htables]
        rfl
      have htable : (onTable 0 (Op.insert (n, n) : Op NatMap).exec).run (started step w) =
          (.ok (.inserted it flag), withStore (started step w) 0 s') := by
        rw [run_onTable ht]
        exact congrArg (fun r : Result (Reply NatMap) × Store NatMap =>
          (r.1, withStore (started step w) 0 r.2)) hinsert
      have hexec : step.exec.run w = (.ok (), withStore (started step w) 0 s') :=
        Action.run_bind_ok _ htable
      have htables' : (withStore (started step w) 0 s').tables = [some s'.table] := by
        show w.tables.set 0 (some s'.table) = _
        rw [htables]
        rfl
      refine ⟨_, s'.table, ?_, ?_, htables', hcrowd'⟩
      · rw [crowdSteps_succ]
        exact Run.snoc hrun (Or.inl hexec)
      · rw [crowdSteps_succ, eachStep_append, Run.finish hrun]
        exact ⟨hsteps, hregular _ _ _ _ _ hN hexec (fun _ _ => trivial) htables' hcrowd', trivial⟩

theorem crowdSteps_lawful (n : ℕ) : ∀ step ∈ crowdSteps n, LawfulFunctors step.op := by
  intro step hstep
  rcases List.mem_cons.mp hstep with rfl | hstep
  · exact lawful_beq _
  · obtain ⟨i, -, rfl⟩ := List.mem_map.mp hstep
    trivial

/-- 2 ^ 24 - 1 numbers with one hash are too many. -/
theorem crowd_overflows (hN : 2 ^ 24 ≤ N + 1) :
    ∃ w t, Run World.empty (crowdSteps (2 ^ 24 - 1)) w ∧
      EachStep (RegularWithin N) World.empty (crowdSteps (2 ^ 24 - 1)) ∧ w.table? 0 = some t ∧
      t.size = 2 ^ 24 - 1 ∧ ¬ DistancesFit t := by
  obtain ⟨w, t, hrun, hsteps, htables, hcrowd⟩ :=
    crowd_run (N := N) (2 ^ 24 - 1) (by decide) (by omega)
  refine ⟨w, t, hrun, hsteps, ?_, hcrowd.size, ?_⟩
  · unfold World.table?
    rw [htables]
    rfl
  · have hmixed : mixBits 0 = 0 := by decide
    refine not_distancesFit_of_zero_hash hcrowd.wellFormed.consistent (fun key => ?_)
      hcrowd.absent (by rw [hcrowd.size]; decide)
    unfold Table.mixedHash
    rw [hcrowd.hashFunction]
    exact hmixed

/-- The packed distances of all tables within a bound are true and never overflow, whatever
lawful hasher and however badly it collides, exactly if the bound is at most 2 ^ 24 - 2. -/
theorem distances_fit_iff (N : ℕ) :
    (∀ (τ : Traits) (t : Table τ), ReachableWithin N t → DistancesFit t) ↔ N + 2 ≤ 2 ^ 24 := by
  constructor
  · intro h
    by_contra hmany
    obtain ⟨w, t, hrun, hsteps, ht, -, hnot⟩ := crowd_overflows (N := N) (by omega)
    exact hnot (h NatMap t ⟨_, w, 0, hrun, hsteps, crowdSteps_lawful _, ht⟩)
  · intro hN τ t hreach
    obtain ⟨hwell, hroom⟩ := (hreach.reachable hN).sturdy
    exact distancesFit_of_consistent hwell.consistent hroom

/-- `max_size()` is no such bound: it allows for a program that inserts 2 ^ 24 - 1 numbers
into a map whose hasher returns zero. -/
theorem maxSize_overflows :
    ∃ w t, Run World.empty (crowdSteps (2 ^ 24 - 1)) w ∧
      EachStep (RegularWithin maxSize) World.empty (crowdSteps (2 ^ 24 - 1)) ∧
      (∀ step ∈ crowdSteps (2 ^ 24 - 1), LawfulFunctors step.op) ∧ w.table? 0 = some t ∧
      t.size ≤ maxSize ∧ ¬ DistancesFit t := by
  obtain ⟨w, t, hrun, hsteps, ht, hsize, hnot⟩ := crowd_overflows (N := maxSize) (by decide)
  exact ⟨w, t, hrun, hsteps, crowdSteps_lawful _, ht, by rw [hsize]; decide, hnot⟩

end Fum.Interface

import Fum.Analysis.QuietCalls
import Fum.Analysis.Traces
import Fum.Base.ShortestWalks

/-!
# How long a search is

`find_bucket` examines the buckets from the home of a key on. If it finds the key, the last of
them is the bucket of the element with it; if it does not, every bucket but the last one keeps
an element that is at least as far from its home as the bucket is from the home of the key.
-/

set_option autoImplicit false

namespace Fum.Analysis

open Fum.Model Effects RobinHood

variable {τ : Traits} {s s' : Store τ} {t : Table τ} {H : ℕ → UInt64} {L : List ℕ}
  {k : ℕ} {cells : ℕ → Bucket} {key : τ.Key} {hash : UInt64}

/-! ## Traces -/

/-- A round that has an answer has found the key in its bucket, or it answers that there is
none. -/
theorem findBucketRound_answers (key : τ.Key) (word index : ℕ) (s : Store τ) :
    Action.Post Stuck.anyhow (findBucketRound key word index) s
      (fun r _ => ∀ b, r = some b → b = index ∨ b = s.table.bucketCount) (fun _ => True) := by
  unfold findBucketRound
  rw [post_getTable]
  refine post_bucketAt (fun array _ _ => ?_) fun _ => trivial
  split
  · refine post_keyAt (fun other _ => ?_) fun _ => trivial
    refine post_callKeyEqual (fun f _ => ?_) fun _ _ => trivial
    split
    · exact Action.Post.pure fun b hb => Or.inl (Option.some.inj hb).symm
    · exact Action.Post.pure fun b hb => by cases hb
  · split
    · exact Action.Post.pure fun b hb => Or.inr (Option.some.inj hb).symm
    · exact Action.Post.pure fun b hb => by cases hb

/-- The last bucket examined is the one that is returned. -/
theorem findBucketTrace_last (key : τ.Key) (fuel : ℕ) : ∀ (word index b : ℕ) (s : Store τ),
    (findBucketTrace key fuel word index s).2.1 = .ok b → b ≠ s.table.bucketCount →
      (findBucketTrace key fuel word index s).1.getLast? = some b := by
  induction fuel with
  | zero =>
      intro word index b s hrun
      cases hrun
  | succ fuel ih =>
      intro word index b s hrun hne
      have hgoes := findBucketRound_goes_on key word index s
      have hanswers := findBucketRound_answers key word index s
      rw [findBucketTrace] at hrun ⊢
      rcases hround : (findBucketRound key word index).run s with ⟨(_ | _) | _ | _ | _, s'⟩ <;>
        rw [hround] at hrun
      · obtain ⟨htable, -⟩ := hgoes.ok_of_run hround rfl
        have hlast := ih _ _ b s' hrun (by rwa [htable])
        show (index :: _).getLast? = _
        rw [List.getLast?_cons, hlast]
        rfl
      · cases hrun
        rcases hanswers.ok_of_run hround b rfl with rfl | hnone
        · rfl
        · exact absurd hnone hne
      all_goals cases hrun

/-- All buckets examined but the last one are occupied by words that are not below the carried
one. -/
theorem findBucketTrace_over (key : τ.Key) {array : BucketArray τ}
    (hbuckets : t.buckets = some array) (hcount : t.bucketCount = 2 ^ k) :
    ∀ (i fuel p c : ℕ) (s : Store τ), s.table = t → p < 2 ^ k → c + i * kDistInc < 2 ^ 32 →
      i + 1 < (findBucketTrace key fuel c p s).1.length →
        c + i * kDistInc ≤ words array.cells ((p + i) % 2 ^ k) := by
  intro i
  induction i with
  | zero =>
      intro fuel p c s hs hp hfits hlong
      cases fuel with
      | zero => cases hlong
      | succ fuel =>
          have hgoes := findBucketRound_goes_on key c p s
          rw [findBucketTrace] at hlong
          rcases hround : (findBucketRound key c p).run s with ⟨(_ | b) | _ | _ | _, s'⟩ <;>
            rw [hround] at hlong
          · obtain ⟨-, hword⟩ := hgoes.ok_of_run hround rfl
            rw [Nat.zero_mul, Nat.add_zero, Nat.add_zero, Nat.mod_eq_of_lt hp]
            exact hword array (by rw [hs, hbuckets])
          all_goals simp at hlong
  | succ i ih =>
      intro fuel p c s hs hp hfits hlong
      cases fuel with
      | zero => cases hlong
      | succ fuel =>
          have hgoes := findBucketRound_goes_on key c p s
          rw [findBucketTrace] at hlong
          rcases hround : (findBucketRound key c p).run s with ⟨(_ | b) | _ | _ | _, s'⟩ <;>
            rw [hround] at hlong
          · obtain ⟨htable, -⟩ := hgoes.ok_of_run hround rfl
            have hmul : (i + 1) * kDistInc = kDistInc + i * kDistInc := by ring
            rw [hmul] at hfits ⊢
            rw [hs, hcount, nextBucket_eq, addDist_eq (by omega)] at hlong
            have hrest := ih fuel (succ (2 ^ k) p) (c + kDistInc) s' (htable.trans hs)
              (succ_lt (Nat.two_pow_pos k) p) (by omega) (by simpa using hlong)
            have hcell : (succ (2 ^ k) p + i) % 2 ^ k = (p + (i + 1)) % 2 ^ k := by
              unfold succ
              rw [Nat.mod_add_mod, Nat.add_assoc, Nat.add_comm 1 i]
            rw [hcell] at hrest
            omega
          all_goals simp at hlong

/-! ## Searches in an index -/

/-- The buckets that a search for a key examines. -/
def searchLength (t : Table τ) (heap : Heap) (key : τ.Key) : ℕ :=
  (findBucketExamined key (t.mixedHash key) ⟨t, heap⟩).length

/-- The home bucket of a node. -/
def homeBucket (t : Table τ) (x : ℕ) : ℕ := t.homeFromHash (ownHash t x)

theorem Indexed.homeBucket_eq (I : Indexed (ownHash t) L t k cells) :
    homeBucket t = homeOf k (ownHash t) := funext fun x => I.homeFromHash (ownHash t x)

/-- A search examines buckets in a row, and goes on only where the words let it. -/
theorem Indexed.examined (I : Indexed H L t k cells) (hL : L.Nodup) (hlt : L.length < 2 ^ k)
    (hroom : L.length + 2 ≤ 2 ^ 24) (key : τ.Key) (hash : UInt64) (heap : Heap) :
    ∃ m < 2 ^ k, findBucketExamined key hash ⟨t, heap⟩ =
        around (2 ^ k) (t.homeFromHash hash) (m + 1) ∧
      ∀ i < m, (i + 1) * kDistInc + fingerprint hash ≤
        words cells ((t.homeFromHash hash + i) % 2 ^ k) := by
  obtain ⟨array, harray, h⟩ := I.ordered hL
  have hcells : array.cells = cells := by
    obtain ⟨array', harray', -, hcells⟩ := I.buckets
    rw [harray] at harray'
    cases harray'
    exact hcells
  obtain ⟨e, he, hempty⟩ := h.exists_empty hlt
  have hhome := h.homeFromHash_lt hash
  obtain ⟨j, hj, hje⟩ := exists_steps (t.homeFromHash hash) he
  obtain ⟨m, hm, hocc, htrace⟩ := findBucketTrace_around key harray h hroom he hempty j
    (loopFuel (2 ^ k)) _ _ ⟨t, heap⟩ rfl hhome hje (lt_loopFuel hj)
    (ranged_distAndFingerprintFromHash k hash) (home_fits _ _ _)
  have hexamined : findBucketExamined key hash ⟨t, heap⟩ =
      around (2 ^ k) (t.homeFromHash hash) (m + 1) := by
    unfold findBucketExamined
    rw [if_neg I.bucketCount_ne_zero, I.bucketCount]
    exact htrace
  refine ⟨m, by omega, hexamined, fun i hi => ?_⟩
  have hfew : m ≤ L.length := (around_le_card (by omega) hocc).trans h.few
  have hword : kDistInc + fingerprint hash + i * kDistInc = (i + 1) * kDistInc + fingerprint hash :=
    by ring
  have hfp := fingerprint_lt hash
  have hover := findBucketTrace_over key harray I.bucketCount i (loopFuel (2 ^ k))
    (t.homeFromHash hash) (distAndFingerprintFromHash hash) ⟨t, heap⟩ rfl hhome (by
      rw [distAndFingerprintFromHash_eq]
      rw [kDistInc_eq] at hfp ⊢
      omega) (by
      rw [htrace, length_around]
      omega)
  rwa [distAndFingerprintFromHash_eq, hword, hcells] at hover

/-- A search is hardly longer than some walk from the home of an element to its bucket. -/
theorem Indexed.searchLength_le {seat : ℕ → ℕ} (I : Indexed (ownHash t) L t k cells)
    (hL : L.Nodup) (hlt : L.length < 2 ^ k) (hroom : L.length + 2 ≤ 2 ^ 24)
    (S : Seats (2 ^ k) (words cells) (nodes cells) L.toFinset seat) (key : τ.Key) (heap : Heap) :
    searchLength t heap key ≤ 1 ∨
      ∃ x ∈ L, searchLength t heap key ≤ walk (2 ^ k) (homeBucket t) seat x + 2 := by
  obtain ⟨m, hm, hexamined, hover⟩ := I.examined hL hlt hroom key (t.mixedHash key) heap
  have hlength : searchLength t heap key = m + 1 := by
    unfold searchLength
    rw [hexamined, length_around]
  rw [hlength]
  cases m with
  | zero => exact Or.inl le_rfl
  | succ m =>
      right
      have hword := hover m (Nat.lt_succ_self m)
      set p := (t.homeFromHash (t.mixedHash key) + m) % 2 ^ k with hp
      have hpk : p < 2 ^ k := Nat.mod_lt _ (Nat.two_pow_pos k)
      have hocc : words cells p ≠ 0 := by
        have hpos := word_pos m (fingerprint (t.mixedHash key))
        omega
      have hmem := S.mem p hpk hocc
      refine ⟨nodes cells p, List.mem_toFinset.mp hmem, ?_⟩
      have hseat := I.layout.word_seat S hmem
      rw [S.seat_item p hpk hocc, ← I.homeBucket_eq] at hseat
      have hfp := fpOf_lt (ownHash t) (nodes cells p)
      have hlt' : m + 1 < walk (2 ^ k) (homeBucket t) seat (nodes cells p) + 2 := by
        refine Nat.lt_of_mul_lt_mul_right (a := kDistInc) ?_
        have hmul : (walk (2 ^ k) (homeBucket t) seat (nodes cells p) + 2) * kDistInc =
          (walk (2 ^ k) (homeBucket t) seat (nodes cells p) + 1) * kDistInc + kDistInc := by ring
        omega
      omega

/-- A search that finds a key walks from its home to the bucket of the element. -/
theorem WellFormed.searchLength_eq {seat : ℕ → ℕ} (h : WellFormed t) (hlaw : LawfulTable t)
    (hroom : Room t) (I : Indexed (ownHash t) t.iteration t k cells)
    (hlt : t.iteration.length < 2 ^ k)
    (S : Seats (2 ^ k) (words cells) (nodes cells) t.iteration.toFinset seat) {heap : Heap}
    (hquiet : heap.fault = none) {x : ℕ} (hx : x ∈ t.iteration) (hkey : Matches t key x) :
    searchLength t heap key = walk (2 ^ k) (homeBucket t) seat x + 1 := by
  have hL := h.consistent.slots.iteration_nodup
  obtain ⟨m, hm, hexamined, -⟩ := I.examined hL hlt hroom key (t.mixedHash key) heap
  -- the search returns the bucket of the element
  have hfind : Action.Post Stuck.never (findBucket key (t.mixedHash key)) ⟨t, heap⟩
      (fun b s' => Passes [.equal] ⟨t, heap⟩ s' ∧
        Located t (ownHash t) t.iteration key (t.mixedHash key) b) (Throws [.equal] ⟨t, heap⟩) :=
    findBucket_spec h.consistent.index hL (fun _ hy => h.consistent.live hy) hroom
  obtain ⟨b, hrun, -, hlocated⟩ := run_of_passes hfind (findBucket_frame key (t.mixedHash key))
    (fun s' h' => by
      obtain ⟨p, -, hp⟩ := h'.point
      rw [hquiet] at hp
      cases hp) hquiet
  obtain ⟨array, harray, hsize, hocc, hnode⟩ : BucketOf t b x := by
    rcases hlocated with ⟨-, hnone⟩ | ⟨y, hy, hmatch, hb⟩
    · exact absurd hkey (not_matches_iff.mpr (hnone x hx (hkey.ownHash hlaw)))
    · rwa [← (h.distinct hlaw).unique hlaw hy hx hmatch hkey]
  obtain ⟨array', harray', hsize', rfl⟩ := I.buckets
  rw [harray] at harray'
  cases harray'
  rw [hsize'] at hsize
  have hseat : seat x = b := by
    rw [← hnode]
    exact S.seat_item b hsize hocc
  -- which is the last one it examines
  have hlast : (findBucketExamined key (t.mixedHash key) ⟨t, heap⟩).getLast? = some b := by
    have hne := I.bucketCount_ne_zero
    unfold findBucket at hrun
    unfold findBucketExamined
    rw [run_getTable, if_neg hne, ← findBucketTrace_result] at hrun
    rw [if_neg hne]
    refine findBucketTrace_last _ _ _ _ _ _ (by rw [hrun]) ?_
    show b ≠ t.bucketCount
    rw [I.bucketCount]
    omega
  have hend : (t.homeFromHash (t.mixedHash key) + m) % 2 ^ k = b := by
    rw [hexamined] at hlast
    unfold around at hlast
    rw [List.range_succ, List.map_append, List.map_singleton, List.getLast?_concat] at hlast
    exact Option.some.inj hlast
  have hwalk : m = walk (2 ^ k) (homeBucket t) seat x := by
    unfold walk homeBucket
    rw [hkey.ownHash hlaw, hseat]
    exact eq_steps hsize hm hend
  unfold searchLength
  rw [hexamined, length_around, hwalk]

end Fum.Analysis

import Fum.Analysis.Histories
import Fum.Analysis.LoadFactors
import Fum.Interface.IndexInvariant

/-!
# History independence

The words of the bucket array are a function of the hasher, the keys and the bucket count: no
insertion or erasure that is undone leaves a trace in them.
-/

set_option autoImplicit false

namespace Fum.Interface

open Fum.Model Fum.Analysis Effects RobinHood

variable {τ : Traits} {U : Stuck → Prop} {t t' : Table τ} {s s' : Store τ} {heap : Heap}
  {key : τ.Key} {v : τ.Value} {i : ℕ}

/-! ## Tables with the same keys -/

/-- An element of the table has a key equal to `key`. -/
def Present (t : Table τ) (key : τ.Key) : Prop := ∃ x, Matches t key x

/-- Both tables go by the same functors. -/
structure SameFunctors (t t' : Table τ) : Prop where
  hashFunction : t'.hashFunction = t.hashFunction
  keyEqual : t'.keyEqual = t.keyEqual

/-- The same buckets are occupied, by the same words. -/
def SameWords (t t' : Table τ) : Prop := ∀ p < t.bucketCount, wordAt t' p = wordAt t p

theorem SameFunctors.of_policy (h : SamePolicy t t') : SameFunctors t t' :=
  ⟨h.hashFunction, h.keyEqual⟩

theorem SameFunctors.lawful (h : SameFunctors t t') (hlaw : LawfulTable t) : LawfulTable t' := by
  unfold LawfulTable at hlaw ⊢
  rwa [h.hashFunction, h.keyEqual]

theorem SameFunctors.mixedHash (h : SameFunctors t t') (key : τ.Key) :
    t'.mixedHash key = t.mixedHash key := by
  unfold Table.mixedHash
  rw [h.hashFunction]

/-- In a consistent table an element that matches a key is listed. -/
theorem listed_of_matches (hc : Consistent t) {x : ℕ} (h : Matches t key x) :
    x ∈ t.iteration := by
  obtain ⟨e, he, -⟩ := h
  exact (hc.filled x).mp (by rw [he]; rfl)

/-- Every element of a table has one with an equal key in a table with the same keys. -/
theorem exists_twin (hc : Consistent t) (hlaw : LawfulTable t)
    (hkeys : ∀ key, Present t key ↔ Present t' key) {x : ℕ} (hx : x ∈ t.iteration) :
    ∃ y, ∃ e, (t.nodeAt x).storage = some e ∧ Matches t' (τ.keyOf e.value) y := by
  obtain ⟨e, he⟩ := Option.isSome_iff_exists.mp (hc.live hx)
  obtain ⟨y, hy⟩ := (hkeys (τ.keyOf e.value)).mp ⟨x, e, he, hlaw.refl _⟩
  exact ⟨y, e, he, hy⟩

/-- **The canonical words.** Well-formed tables with the same functors, the same keys and the
same bucket count have the same words. -/
theorem sameWords_of_sameKeys (hw : WellFormed t) (hw' : WellFormed t') (hlaw : LawfulTable t)
    (hsame : SameFunctors t t') (hkeys : ∀ key, Present t key ↔ Present t' key)
    (hcount : t'.bucketCount = t.bucketCount) : SameWords t t' := by
  have hc := hw.consistent
  have hc' := hw'.consistent
  have hlaw' := hsame.lawful hlaw
  intro p hp
  rcases hc.index with ⟨-, hzero, -⟩ | ⟨k, cells, I, hlt, -⟩
  · omega
  rcases hc'.index with ⟨-, hzero, -⟩ | ⟨k', cells', I', hlt', -⟩
  · omega
  have hk : k' = k := Nat.pow_right_injective le_rfl (by
    show 2 ^ k' = 2 ^ k
    rw [← I.bucketCount, ← I'.bucketCount, hcount])
  subst hk
  rw [wordAt_eq I, wordAt_eq I']
  -- each element goes with the one that has an equal key
  have htwin := fun x (hx : x ∈ t.iteration) => exists_twin hc hlaw hkeys hx
  choose! f hf using htwin
  have hash : ∀ x ∈ t.iteration, ownHash t' (f x) = ownHash t x := by
    intro x hx
    obtain ⟨e, he, e', he', hequal⟩ := hf x hx
    rw [ownHash_of_storage he, ownHash_of_storage he', hsame.mixedHash]
    rw [hsame.keyEqual] at hequal
    exact (hlaw.mixedHash hequal).symm
  have hbij : Set.BijOn f t.iteration.toFinset t'.iteration.toFinset := by
    refine ⟨fun x hx => ?_, fun x hx y hy heq => ?_, fun y hy => ?_⟩
    · obtain ⟨e, -, hmatch⟩ := hf x (List.mem_toFinset.mp hx)
      exact List.mem_toFinset.mpr (listed_of_matches hc' hmatch)
    · have hxL := List.mem_toFinset.mp hx
      have hyL := List.mem_toFinset.mp hy
      obtain ⟨a, ha, el, hel, hael⟩ := hf x hxL
      obtain ⟨b, hb, el', hel', hbel⟩ := hf y hyL
      rw [← heq, hel] at hel'
      cases hel'
      rw [hsame.keyEqual] at hael hbel
      exact hw.distinct hlaw x hxL y hyL _ _ (nodeKey_of_storage ha) (nodeKey_of_storage hb)
        (hlaw.trans _ _ _ hael (hlaw.symm _ _ hbel))
    · have hyL := List.mem_toFinset.mp hy
      obtain ⟨e, he⟩ := Option.isSome_iff_exists.mp (hc'.live hyL)
      obtain ⟨x, hx⟩ := (hkeys (τ.keyOf e.value)).mpr ⟨y, e, he, hlaw'.refl _⟩
      have hxL := listed_of_matches hc hx
      obtain ⟨a, ha, el, hel, hael⟩ := hf x hxL
      obtain ⟨a', ha', hequal⟩ := hx
      rw [ha] at ha'
      cases ha'
      rw [← hsame.keyEqual] at hequal
      refine ⟨x, Finset.mem_coe.mpr (List.mem_toFinset.mpr hxL), ?_⟩
      exact hw'.distinct hlaw' _ (listed_of_matches hc' ⟨el, hel, hael⟩) y hyL _ _
        (nodeKey_of_storage hel) (nodeKey_of_storage he)
        (hlaw'.trans _ _ _ (hlaw'.symm _ _ hael) (hlaw'.symm _ _ hequal))
  have hhash : ∀ x ∈ t.iteration.toFinset, ownHash t' (f x) = ownHash t x := fun x hx =>
    hash x (List.mem_toFinset.mp hx)
  exact (I.layout.word_eq I'.layout (by decide)
    (fun x => by rw [List.mem_toFinset, ← I.holds])
    (fun y => by rw [List.mem_toFinset, ← I'.holds])
    (I.exists_empty hc.slots.iteration_nodup hlt)
    (I'.exists_empty hc'.slots.iteration_nodup hlt') f hbij
    (fun x hx => by unfold homeOf; rw [hhash x hx])
    (fun x hx => by unfold fpOf; rw [hhash x hx]) (by rwa [← I.bucketCount])).symm

/-! ## Changes that leave no trace -/

theorem not_present_of_absent (h : Absent t key) (hc : Consistent t) (hlaw : LawfulTable t) :
    ¬ Present t key := fun ⟨_, hmatch⟩ => h.not_matches hlaw (listed_of_matches hc hmatch) hmatch

/-- The keys that are left when the element with the key `key` has gone. -/
theorem present_of_erased (hw : WellFormed t) (hlaw : LawfulTable t) {x : ℕ}
    (he : Erased t [x] t') (hx : x ∈ t.iteration) (hmatch : Matches t key x) (k : τ.Key) :
    Present t' k ↔ Present t k ∧ t.keyEqual key k = false := by
  have hd := hw.distinct hlaw
  constructor
  · rintro ⟨y, e, hy, hequal⟩
    have hyx : y ≠ x := by
      rintro rfl
      rw [he.gone y (List.mem_singleton_self y)] at hy
      cases hy
    rw [he.others y (by simpa using hyx)] at hy
    rw [he.policy.keyEqual] at hequal
    have hmatchy : Matches t k y := ⟨e, hy, hequal⟩
    refine ⟨⟨y, hmatchy⟩, Bool.eq_false_iff.mpr fun hkey => hyx ?_⟩
    have hkeyy : Matches t key y := ⟨e, hy, hlaw.trans _ _ _ hkey hequal⟩
    exact hd.unique hlaw (listed_of_matches hw.consistent hkeyy) hx hkeyy hmatch
  · rintro ⟨⟨y, e, hy, hequal⟩, hkey⟩
    have hyx : y ≠ x := by
      rintro rfl
      obtain ⟨e', he', hequal'⟩ := hmatch
      rw [hy] at he'
      cases he'
      rw [hlaw.trans _ _ _ hequal' (hlaw.symm _ _ hequal)] at hkey
      cases hkey
    refine ⟨y, e, ?_, by rwa [he.policy.keyEqual]⟩
    rw [he.others y (by simpa using hyx)]
    exact hy

/-- The keys that are there when an element has been added. -/
theorem present_of_inserted (hi : Inserted t v i t') (k : τ.Key) :
    Present t' k ↔ Present t k ∨ t.keyEqual k (τ.keyOf v) = true := by
  obtain ⟨serial, hel⟩ := hi.element
  constructor
  · rintro ⟨y, e, hy, hequal⟩
    rw [hi.policy.keyEqual] at hequal
    by_cases hyi : y = i
    · subst hyi
      rw [hel] at hy
      cases hy
      exact Or.inr hequal
    · rw [hi.others y hyi] at hy
      exact Or.inl ⟨y, e, hy, hequal⟩
  · rintro (⟨y, e, hy, hequal⟩ | hequal)
    · have hyi : y ≠ i := by
        rintro rfl
        rw [hi.fresh] at hy
        cases hy
      exact ⟨y, e, by rw [hi.others y hyi]; exact hy, by rwa [hi.policy.keyEqual]⟩
    · exact ⟨i, ⟨serial, v⟩, hel, by rwa [hi.policy.keyEqual]⟩

/-- An insertion that adds an element leaves a well-formed table with it. -/
theorem Insertion.exec_inserted (x : Insertion τ) (hw : WellFormed s.table)
    (hroom : Room s.table) :
    Action.Post U x.exec s (fun added s' => added = true → WellFormed s'.table ∧
      ∃ v i, Inserted s.table v i s'.table) (fun _ => True) := by
  have hentered : ∀ {v : τ.Value} {it : ℕ} {flag : Bool} {t' : Table τ}, Consistent t' →
      Entered s.table (τ.keyOf v) v it flag t' → flag = true → WellFormed t' ∧
        ∃ v i, Inserted s.table v i t' := by
    intro v it flag t' hc' he hflag
    refine ⟨hw.of_entered he hc', ?_⟩
    cases he with
    | inserted flag_eq absent inserted => exact ⟨v, it, inserted⟩
    | found flag_eq listed same_key same index =>
        rw [flag_eq] at hflag
        cases hflag
  have hmade : ∀ {key mapped it flag} {t' : Table τ}, Consistent t' →
      Entered s.table key (τ.makeValue key mapped) it flag t' → flag = true → WellFormed t' ∧
        ∃ v i, Inserted s.table v i t' := by
    intro key mapped it flag t' hc' he
    have he' : Entered s.table (τ.keyOf (τ.makeValue key mapped)) (τ.makeValue key mapped) it
        flag t' := by
      rw [τ.keyOf_makeValue]
      exact he
    exact hentered hc' he'
  cases x with
  | emplace value =>
      exact Action.Post.bind (emplaceImpl_spec value hw.consistent hroom) (fun _ _ => trivial)
        fun r s' h' => hentered h'.1 h'.2.1
  | tryEmplace key mapped =>
      exact Action.Post.bind (tryEmplaceImpl_spec key mapped hw.consistent hroom)
        (fun _ _ => trivial) fun r s' h' => hmade h'.1 h'.2
  | insertOrAssign key mapped =>
      refine Action.Post.bind (insertOrAssignImpl_spec key mapped hw.consistent hroom)
        (fun _ _ => trivial) fun r s' h' => ?_
      obtain ⟨hc', ⟨-, he⟩ | ⟨hflag, -, -, -⟩⟩ := h'
      · exact hmade hc' he
      · intro hr
        rw [hflag] at hr
        cases hr
  | node handle =>
      obtain ⟨value, alloc⟩ := handle
      cases value with
      | none =>
          intro hfalse
          cases hfalse
      | some cell =>
          exact Action.Post.bind (insertNode_spec rfl hw.consistent hroom) (fun _ _ => trivial)
            fun r s' h' => hentered h'.1 h'.2.1

/-- Erasures and a rebuild leave no trace in the words. -/
structure Traceless (t : Table τ) : Prop where
  /-- What was inserted without growth and erased again might never have been there. -/
  undone : ∀ (x : Insertion τ) (heap heap' : Heap) (s1 : Store τ) (key : τ.Key),
    x.exec.run ⟨t, heap⟩ = (.ok true, s1) → s1.table.bucketCount = t.bucketCount →
    Room s1.table → Present s1.table key → ¬ Present t key →
      Action.Post Stuck.never (eraseKey key) ⟨s1.table, heap'⟩
        (fun n s2 => n = 1 ∧ s2.table.bucketCount = t.bucketCount ∧ SameWords t s2.table)
        (fun _ => heap'.fault ≠ none)
  /-- After an erasure the words are those of any table that has the other keys. -/
  erased : ∀ (key : τ.Key) (heap : Heap), Action.Post Stuck.never (eraseKey key) ⟨t, heap⟩
    (fun _ s1 => ∀ u : Table τ, WellFormed u → SameFunctors t u →
      u.bucketCount = t.bucketCount →
      (∀ k, Present u k ↔ Present t k ∧ t.keyEqual key k = false) → SameWords u s1.table)
    (fun _ => heap.fault ≠ none)
  rebuilt : t.bucketCount ≠ 0 → ∀ heap : Heap,
    Action.Post Stuck.never (rehashTo t.bucketCount) ⟨t, heap⟩
      (fun _ s1 => s1.table.bucketCount = t.bucketCount ∧ SameWords t s1.table)
      (fun _ => heap.fault ≠ none)

theorem traceless (hs : Sturdy t) (hlaw : LawfulTable t) : Traceless t := by
  obtain ⟨hw, hroom⟩ := hs
  refine ⟨fun x heap heap' s1 key hrun hcount hroom1 hpresent habsent => ?_, fun key heap => ?_,
    fun hne heap => ?_⟩
  · obtain ⟨hw1, v, i, hi⟩ :=
      (Insertion.exec_inserted (U := Stuck.never) (s := ⟨t, heap⟩) x hw hroom).ok_of_run hrun rfl
    have hlaw1 : LawfulTable s1.table := hi.policy.lawfulTable.mpr hlaw
    -- the key to be erased is the one that was added
    have hkey : t.keyEqual key (τ.keyOf v) = true :=
      ((present_of_inserted hi key).mp hpresent).resolve_left habsent
    refine (eraseKey_spec (s := ⟨s1.table, heap'⟩) key hw1.consistent hroom1).mono ?_
      (fun _ h' => h'.fault) fun _ h' => h'
    rintro n s2 ⟨hc2, ⟨-, habs, -⟩ | ⟨hn, x, hx, hmatch, he⟩⟩
    · exact absurd hpresent (not_present_of_absent habs hw1.consistent hlaw1)
    · have hcount2 : s2.table.bucketCount = t.bucketCount := he.bucketCount.trans hcount
      refine ⟨hn, hcount2, ?_⟩
      have hpolicy := hi.policy.trans he.policy
      refine sameWords_of_sameKeys hw (hw1.of_erased he hc2) hlaw (.of_policy hpolicy)
        (fun k => ?_) hcount2
      rw [present_of_erased hw1 hlaw1 he hx hmatch k, present_of_inserted hi k, hi.policy.keyEqual]
      constructor
      · intro hk
        refine ⟨Or.inl hk, Bool.eq_false_iff.mpr fun hequal => habsent ?_⟩
        obtain ⟨y, e, hy, hye⟩ := hk
        exact ⟨y, e, hy, hlaw.trans _ _ _ hequal hye⟩
      · rintro ⟨hk | hk, hne⟩
        · exact hk
        · rw [hlaw.trans _ _ _ hkey (hlaw.symm _ _ hk)] at hne
          cases hne
  · refine (eraseKey_spec (s := ⟨t, heap⟩) key hw.consistent hroom).mono ?_
      (fun _ h' => h'.fault) fun _ h' => h'
    rintro n s1 ⟨hc1, herased⟩ u hwu hsame hcount hkeys
    have hlawu := hsame.lawful hlaw
    cases herased with
    | absent count absent same =>
        rw [same]
        refine sameWords_of_sameKeys hwu hw hlawu ⟨hsame.hashFunction.symm, hsame.keyEqual.symm⟩
          (fun k => ?_) hcount.symm
        rw [hkeys]
        refine and_iff_left_of_imp fun hk => Bool.eq_false_iff.mpr fun hequal => ?_
        obtain ⟨y, e, hy, hye⟩ := hk
        exact not_present_of_absent absent hw.consistent hlaw
          ⟨y, e, hy, hlaw.trans _ _ _ hequal hye⟩
    | erased count x listed same_key erased =>
        refine sameWords_of_sameKeys hwu (hw.of_erased erased hc1) hlawu
          ⟨erased.policy.hashFunction.trans hsame.hashFunction.symm,
            erased.policy.keyEqual.trans hsame.keyEqual.symm⟩ (fun k => ?_)
          (erased.bucketCount.trans hcount.symm)
        rw [hkeys, present_of_erased hw hlaw erased listed same_key]
  · rcases hw.consistent.index with ⟨-, hzero, -⟩ | ⟨k, cells, I, hlt, -⟩
    · exact absurd hzero hne
    · rw [I.bucketCount]
      refine (rehashTo_consistent (s := ⟨t, heap⟩) I.three_le hw.consistent hroom hlt).mono ?_
        (fun _ h' => h'.fault) fun _ h' => h'
      rintro - s1 ⟨hsame, hc1, hcount, -⟩
      refine ⟨hcount, sameWords_of_sameKeys hw (hw.of_sameElements hsame hc1) hlaw
        (.of_policy hsame.policy) (fun k => ?_) (hcount.trans I.bucketCount.symm)⟩
      refine exists_congr fun y => exists_congr fun e => ?_
      rw [hsame.storage y, hsame.policy.keyEqual]

/-- Two reachable tables with the same functors, the same keys and the same bucket count have
the same words, however they came about, and in every well-formed table with room a removed
insertion, an erasure and a rebuild leave no trace. -/
theorem words_independent_of_history (hreach : Reachable t) (hreach' : Reachable t')
    (hsame : SameFunctors t t') (hkeys : ∀ key, Present t key ↔ Present t' key)
    (hcount : t'.bucketCount = t.bucketCount) :
    SameWords t t' ∧ ∀ u : Table τ, Sturdy u → LawfulTable u → Traceless u :=
  ⟨sameWords_of_sameKeys hreach.sturdy.1 hreach'.sturdy.1 hreach.lawful hsame hkeys hcount,
    fun _ hs hlaw => traceless hs hlaw⟩

/-! ## Two tables of one program -/

theorem present_iff_contents (hc : Consistent t) :
    Present t key ↔ ∃ v ∈ contents t, t.keyEqual key (τ.keyOf v) = true := by
  constructor
  · rintro ⟨x, hmatch⟩
    obtain ⟨v, hv, hequal⟩ := matches_iff_valueAt.mp hmatch
    exact ⟨v, mem_contents.mpr ⟨x, listed_of_matches hc hmatch, hv⟩, hequal⟩
  · rintro ⟨v, hv, hequal⟩
    obtain ⟨x, -, hvx⟩ := mem_contents.mp hv
    exact ⟨x, matches_iff_valueAt.mpr ⟨v, hvx, hequal⟩⟩

theorem present_iff_of_perm (hc : Consistent t) (hc' : Consistent t')
    (hequal : t'.keyEqual = t.keyEqual) (hperm : (contents t).Perm (contents t')) :
    Present t key ↔ Present t' key := by
  rw [present_iff_contents hc, present_iff_contents hc', hequal]
  exact exists_congr fun v => and_congr_left' hperm.mem_iff

/-- Two maps with the keys 1, 9 and 17, which share their home bucket or not, the second after
a key that has gone and with another order of insertion. -/
def twoHistories : List (Step NatMap) :=
  [⟨.construct 0 (fun k => UInt64.ofNat k) (fun a b => a == b) (), none⟩,
    ⟨.construct 0 (fun k => UInt64.ofNat k) (fun a b => a == b) (), none⟩,
    ⟨.table 0 (.insert (1, 10)), none⟩, ⟨.table 0 (.insert (9, 90)), none⟩,
    ⟨.table 0 (.insert (17, 170)), none⟩, ⟨.table 1 (.insert (17, 170)), none⟩,
    ⟨.table 1 (.insert (5, 50)), none⟩, ⟨.table 1 (.insert (9, 90)), none⟩,
    ⟨.table 1 (.eraseKey 5), none⟩, ⟨.table 1 (.insert (1, 10)), none⟩]

theorem two_reachable (i : Fin 2) (t : Table NatMap)
    (ht : (finish World.empty twoHistories).table? i = some t) : Reachable t := by
  have hcompletes : EachStep Step.Completes World.empty twoHistories := by decide +kernel
  refine ⟨_, _, i, run_of_completes hcompletes, by decide +kernel, ?_, ht⟩
  simp only [twoHistories, List.forall_mem_cons, List.not_mem_nil, LawfulFunctors]
  exact ⟨lawful_beq _, lawful_beq _, trivial, trivial, trivial, trivial, trivial, trivial,
    trivial, trivial, fun _ h => h.elim⟩

theorem two_functors : Everywhere (fun t : Table NatMap =>
    t.hashFunction = (fun k => UInt64.ofNat k) ∧ t.keyEqual = fun a b => a == b)
    (finish World.empty twoHistories) := by
  refine functors_of_run (run_of_completes (by decide +kernel)) ?_
  intro step hstep n hash' equal' alloc values hop
  simp only [twoHistories, List.mem_cons, List.not_mem_nil, or_false] at hstep
  rcases hstep with rfl | rfl | rfl | rfl | rfl | rfl | rfl | rfl | rfl | rfl <;>
    rcases hop with hop | hop <;> cases hop <;> exact ⟨rfl, rfl⟩

theorem words_independent_of_history_two :
    SameWords (((finish World.empty twoHistories).table? 0).get (by decide +kernel))
      (((finish World.empty twoHistories).table? 1).get (by decide +kernel)) := by
  have ht : (finish World.empty twoHistories).table? 0 =
      some (((finish World.empty twoHistories).table? 0).get (by decide +kernel)) :=
    (Option.some_get _).symm
  have ht' : (finish World.empty twoHistories).table? 1 =
      some (((finish World.empty twoHistories).table? 1).get (by decide +kernel)) :=
    (Option.some_get _).symm
  have hreach := two_reachable 0 _ ht
  have hreach' := two_reachable 1 _ ht'
  have hf := two_functors 0 _ ht
  have hf' := two_functors 1 _ ht'
  exact (words_independent_of_history hreach hreach'
    ⟨hf'.1.trans hf.1.symm, hf'.2.trans hf.2.symm⟩
    (fun _ => present_iff_of_perm hreach.sturdy.1.consistent hreach'.sturdy.1.consistent
      (hf'.2.trans hf.2.symm) (by decide +kernel)) (by decide +kernel)).1

end Fum.Interface

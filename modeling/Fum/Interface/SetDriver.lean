import Fum.Interface.DriverLoop

/-!
# The set fuzzer never fails

The same for the driver for sets, whose elements are their keys.
-/

set_option autoImplicit false

namespace Fum.Interface

open Fum.Model Fum.Analysis Effects DenseMap PlainMap RoundedArithmetic

variable {R : Rounding} {w w' : World (IntSet R)} {i : ℕ} {t : Table (IntSet R)}
  {oracle : SetOracle} {key : Int32} {hash : Int32 → UInt64} {stream : ByteStream}

/-- The container `i` is `t`, which holds what the other set does. -/
abbrev MirrorsSet (i : ℕ) (oracle : SetOracle) (t : Table (IntSet R)) (w : World (IntSet R)) :
    Prop := @Mirrors (IntSet R) i sameKey oracle t w

/-- The container `i` holds what the other set does. -/
abbrev FollowsSet (i : ℕ) (oracle : SetOracle) (w : World (IntSet R)) : Prop :=
  @Follows (IntSet R) i sameKey decodedKeys oracle w

/-! ## The cross-check -/

theorem lookup_key (h : MirrorsSet i oracle t w) (hkey : key ∈ oracle) :
    lookup (IntSet R).keyOf sameKey key oracle = some key :=
  lookup_eq_some comparison_sameKey h.distinct hkey (comparison_sameKey.refl _)

theorem passes_checkKey (h : MirrorsSet i oracle t w) (hkey : key ∈ oracle) :
    Checked.Passes (SetFuzzer.checkKey i key) w fun _ => MirrorsSet i oracle t := by
  have hlookup := lookup_key h hkey
  refine passes_contains h fun w1 h1 => Checked.Passes.check_bind (by rw [hlookup]; rfl) ?_
  refine passes_count h1 fun w2 h2 => Checked.Passes.check_bind (by rw [hlookup]; rfl) ?_
  refine passes_find h2 fun it w3 hit h3 => ?_
  rw [hlookup] at hit
  exact Checked.Passes.check (bne_iff_ne.mpr (h.ne_null hit)) h3

theorem passes_checkMember (h : MirrorsSet i oracle t w) (hkey : key ∈ oracle) :
    Checked.Passes (SetFuzzer.checkElement oracle key) w fun _ => MirrorsSet i oracle t := by
  have hcount : oracle.count key = 1 := by
    have hlookup : lookup id sameKey key oracle = some key := lookup_key h hkey
    unfold SetOracle.count
    rw [hlookup]
    rfl
  exact Checked.Passes.check (by rw [hcount]; rfl) h

/-! ## The operations -/

/-- The comparison of containers with the same contents. -/
theorem run_setEquals_self {j : ℕ} {a b : Table (IntSet R)} (hquiet : w.heap.fault = none)
    (ha : w.table? j = some a) (hb : w.table? i = some b) (hua : WellKept a) (hub : WellKept b)
    (hcontents : contents a = contents b) : (setEquals j i).run w = (.ok true, w) := by
  obtain ⟨c, hrun, hiff⟩ := run_equals ha hb hua.wellFormed.consistent
    (run_holdsKey hb ⟨hub.wellFormed, hub.room⟩ hub.lawful hquiet)
  have hc : c = true := by
    refine hiff.mpr ⟨?_, fun v hv => ⟨v, hcontents ▸ hv, hub.lawful.refl _⟩⟩
    rw [← hua.wellFormed.consistent.length_contents, hcontents,
      hub.wellFormed.consistent.length_contents]
  rwa [hc] at hrun

/-- `insert` and `emplace`. -/
theorem passes_enter {β : Type} {f : ℕ × Bool → Checked (World (IntSet R)) β}
    {Q : β → World (IntSet R) → Prop} (h : FollowsSet i oracle w) (hkey : key ∈ decodedKeys)
    (hf : ∀ a w', (a.2 == (oracle.count key == 0)) = true →
      FollowsSet i (oracle.after (.put key)) w' → (∀ k, k ≠ i → w'.table? k = w.table? k) →
      Checked.Passes (f a) w' Q) :
    Checked.Passes (on i (emplaceImpl key) >>= f) w Q := by
  obtain ⟨⟨t, hm⟩, hkeys⟩ := h
  have hput : (PlainMap.Call.put key).Within (IntSet R).keyOf decodedKeys := hkey
  refine passes_operation (.insert key : Op (IntSet R)) (fun a => .inserted a.1 a.2) (by rfl) hm
    hkeys decodedKeys_few trivial (fun _ h => by cases h) (Nat.zero_le _)
    fun a t' w' ha h' hothers => ?_
  refine hf a w' ?_ ⟨⟨t', h'⟩, hput.next hkeys⟩ hothers
  rw [hm.inserted ha]
  show ((lookup id sameKey key oracle).isNone ==
    ((lookup id sameKey key oracle).isSome.toNat == 0)) = true
  cases lookup id sameKey key oracle <;> rfl

/-- `erase` of what `find` has found. -/
theorem passes_findEraseKey (hash : Int32 → UInt64) (h : FollowsSet i oracle w) :
    Checked.Passes (SetFuzzer.applyOpcode hash i key stream oracle 6) w fun r w' =>
      remaining r.1 ≤ remaining stream ∧ FollowsSet i r.2 w' := by
  obtain ⟨⟨t, hm⟩, hkeys⟩ := h
  refine passes_find hm fun it w1 hit h1 => ?_
  split
  · exact Checked.Passes.pure ⟨le_rfl, ⟨t, h1⟩, hkeys⟩
  · next hne =>
      exact passes_eraseFound (fun _ _ => beq_iff_eq.mp) h1 hkeys decodedKeys_few hit hne
        fun _ w' h' => Checked.Passes.pure ⟨le_rfl, h'⟩

theorem passes_applySetOpcode (h : FollowsSet i oracle w) (stream : ByteStream) (n : ℕ)
    (hkey : key ∈ decodedKeys) :
    Checked.Passes (SetFuzzer.applyOpcode hash i key stream oracle n) w fun r w' =>
      remaining r.1 ≤ remaining stream ∧ FollowsSet i r.2 w' := by
  have hrest : remaining stream.nextU32.2 ≤ remaining stream := by
    rw [remaining_nextU32]
    exact Nat.sub_le _ _
  have hrequest : stream.nextU32.1.toNat % 4096 ≤ 2 ^ 24 :=
    (Nat.mod_lt _ (by decide)).le.trans (by decide)
  unfold SetFuzzer.applyOpcode
  split
  iterate 4
    · exact passes_enter h hkey fun a w' hflag h' _ =>
        Checked.Passes.check_bind hflag (Checked.Passes.pure ⟨le_rfl, h'⟩)
  iterate 2
    · refine passes_follow (.eraseKey key : Op (IntSet R)) (.erase [key]) .erased (by rfl) h
        decodedKeys_few (fun _ => trivial) (fun _ h => by cases h) (Nat.zero_le _) (fun _ => rfl)
        trivial fun n t t' w' hm ha h' => ?_
      exact Checked.Passes.check_bind (beq_iff_eq.mpr (hm.erased ha))
        (Checked.Passes.pure ⟨le_rfl, h'⟩)
  · exact passes_findEraseKey hash h
  · -- `contains`
    obtain ⟨⟨t, hm⟩, hkeys⟩ := h
    refine passes_contains hm fun w1 h1 => Checked.Passes.check_bind ?_
      (Checked.Passes.pure ⟨le_rfl, ⟨t, h1⟩, hkeys⟩)
    show ((lookup id sameKey key oracle).isSome ==
      ((lookup id sameKey key oracle).isSome.toNat != 0)) = true
    cases lookup id sameKey key oracle <;> rfl
  · -- `rehash`
    exact passes_follow (.rehash _ : Op (IntSet R)) .keep (fun _ => .none) (by rfl) h
      decodedKeys_few (fun _ => trivial) (fun _ h => by cases h) hrequest (fun _ => rfl) trivial
      fun _ _ _ w' _ _ h' => Checked.Passes.pure ⟨hrest, h'⟩
  · -- `extract` and `insert`
    obtain ⟨⟨t, hm⟩, hkeys⟩ := h
    exact (passes_extractRoundTrip hm).bind fun _ w1 h1 =>
      Checked.Passes.pure ⟨le_rfl, h1, hkeys⟩
  · -- a copy
    obtain ⟨⟨t, hm⟩, hkeys⟩ := h
    exact (passes_copyRoundTrip hm fun _ _ _ _ => run_setEquals_self).bind fun _ w1 h1 =>
      Checked.Passes.pure ⟨le_rfl, h1, hkeys⟩
  · -- two swaps
    obtain ⟨⟨t, hm⟩, hkeys⟩ := h
    refine (passes_swapRoundTrip hm (lawful_beq hash) (fun _ _ => rfl) ?_).bind fun _ w1 h1 =>
      Checked.Passes.pure ⟨le_rfl, h1, hkeys⟩
    intro w1 j u hu
    refine passes_enter ⟨⟨u, hu⟩, fun v hv => by cases hv⟩ hkey ?_
    rintro a w2 - ⟨⟨u', hu'⟩, -⟩ hothers
    exact Checked.Passes.pure ⟨hu'.serviceable, by rw [hu'.table]; rfl, hothers⟩
  · exact Checked.Passes.pure ⟨le_rfl, h⟩

theorem passes_applyOneSetOperation (hash : Int32 → UInt64) (h : FollowsSet i oracle w)
    (stream : ByteStream) :
    Checked.Passes (SetFuzzer.applyOneOperation hash i stream oracle) w fun r w' =>
      r.elim (FollowsSet i oracle w') fun next =>
        remaining next.1 < remaining stream ∧ FollowsSet i next.2 w' := by
  unfold SetFuzzer.applyOneOperation
  rw [exhausted_eq]
  split
  · exact Checked.Passes.pure h
  · next hleft =>
      have hpos : remaining stream ≠ 0 := fun hzero => hleft (decide_eq_true hzero)
      refine (passes_applySetOpcode h _ _ (decodeKey_mem _)).bind ?_
      rintro ⟨rest, oracle'⟩ w1 ⟨hrest, h1⟩
      rw [remaining_nextU32, remaining_nextByte] at hrest
      refine (passes_checkOperation h1 _).bind fun _ w2 h2 => Checked.Passes.pure ⟨?_, h2⟩
      show remaining rest < _
      have hrest' : remaining rest ≤ remaining stream - 1 - 4 := hrest
      omega

/-! ## The whole run -/

/-- For every buffer, every `std::hash` and every order in which the set of the standard library
is iterated, `run_operations` returns zero: no check fails, nothing throws, and nothing is
undefined. -/
theorem set_fuzzer_passes (R : Rounding) (hash : Int32 → UInt64)
    (visited : ℕ → SetOracle → SetOracle) (hvisited : ∀ n oracle, (visited n oracle).Perm oracle)
    (data : List UInt8) :
    ∃ w, (ExceptT.run (SetFuzzer.runOperations hash visited data)).run
      (World.empty : World (IntSet R)) = (.ok (.ok 0), w) := by
  have hrun := @passes_runOperations (IntSet R) sameKey decodedKeys hash _ _ (lawful_beq hash)
    (fun _ stream _ _ h => passes_applyOneSetOperation hash h stream)
    (fun _ n oracle _ h => passes_fullCrossCheck h (hvisited n oracle)
      (fun _ _ hv _ h' => passes_checkKey h' hv) fun _ _ hv _ h' => passes_checkMember h' hv) data
  obtain ⟨_, w, hrun, rfl, -⟩ := hrun.returns
  exact ⟨w, hrun⟩

theorem set_fuzzer_passes_backwards : ∃ w, (ExceptT.run (SetFuzzer.runOperations
    (fun key => key.toUInt32.toUInt64) (fun _ => List.reverse)
    [0, 0, 0, 0, 7, 9, 0, 0, 0, 7, 11, 0, 0, 0, 8, 10])).run
      (World.empty : World (IntSet .exact)) = (.ok (.ok 0), w) :=
  set_fuzzer_passes .exact _ _ (fun _ oracle => oracle.reverse_perm) _

end Fum.Interface

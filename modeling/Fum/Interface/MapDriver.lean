import Fum.Interface.DriverLoop

/-!
# The map fuzzer never fails

Whatever bytes it is given, no check of the driver for maps fails, and nothing that it calls
throws or has undefined behaviour.
-/

set_option autoImplicit false

namespace Fum.Interface

open Fum.Model Fum.Analysis Effects DenseMap PlainMap RoundedArithmetic

variable {R : Rounding} {w w' : World (IntMap R)} {i : ℕ} {t : Table (IntMap R)}
  {oracle : MapOracle} {key value : Int32} {hash : Int32 → UInt64} {stream : ByteStream}

/-- The container `i` is `t`, which holds what the other map does. -/
abbrev MirrorsMap (i : ℕ) (oracle : MapOracle) (t : Table (IntMap R)) (w : World (IntMap R)) :
    Prop := @Mirrors (IntMap R) i sameKey oracle t w

/-- The container `i` holds what the other map does. -/
abbrev FollowsMap (i : ℕ) (oracle : MapOracle) (w : World (IntMap R)) : Prop :=
  @Follows (IntMap R) i sameKey decodedKeys oracle w

/-! ## The cross-check -/

/-- An entry of the map is what a lookup of its key finds. -/
theorem entry_eq (h : MirrorsMap i oracle t w) {entry : Int32 × Int32}
    (hentry : entry ∈ oracle) : oracle.entry entry.1 = some entry :=
  lookup_eq_some comparison_sameKey h.distinct hentry (comparison_sameKey.refl _)

theorem passes_checkEntry {entry : Int32 × Int32} (h : MirrorsMap i oracle t w)
    (hentry : entry ∈ oracle) :
    Checked.Passes (MapFuzzer.checkEntry i entry) w fun _ => MirrorsMap i oracle t := by
  have hlookup : lookup (IntMap R).keyOf sameKey entry.1 oracle = some entry := entry_eq h hentry
  refine passes_find h fun it w1 hit h1 => ?_
  rw [hlookup] at hit
  refine Checked.Passes.check_bind (bne_iff_ne.mpr (h.ne_null hit)) ?_
  refine passes_elementAt h1 hit.2 fun e w2 he h2 => ?_
  refine Checked.Passes.check_bind (by rw [he]; exact beq_self_eq_true _) ?_
  refine passes_contains h2 fun w3 h3 => Checked.Passes.check_bind (by rw [hlookup]; rfl) ?_
  refine passes_count h3 fun w4 h4 => Checked.Passes.check_bind (by rw [hlookup]; rfl) ?_
  refine passes_read (a := .ok entry.2) h4 (fun heap hquiet => ?_) fun w5 h5 => ?_
  · rw [h4.agrees.atKey heap entry.1 hquiet, h4.entryFor, hlookup]
    rfl
  · exact Checked.Passes.check (beq_self_eq_true _) h5

theorem passes_checkElement {element : Int32 × Int32} (h : MirrorsMap i oracle t w)
    (helement : element ∈ oracle) :
    Checked.Passes (MapFuzzer.checkElement oracle element) w fun _ => MirrorsMap i oracle t := by
  unfold MapFuzzer.checkElement
  rw [entry_eq h helement]
  exact Checked.Passes.check (beq_self_eq_true _) h

/-! ## The operations -/

/-- `m[key] = value`. -/
theorem passes_assignSubscript (value : Int32) (h : FollowsMap i oracle w)
    (hkey : key ∈ decodedKeys) :
    Checked.Passes (MapFuzzer.assignSubscript i key value) w fun _ w' =>
      FollowsMap i ((oracle.after (.put (key, 0))).after
        (.update key fun element => (element.1, value))) w' ∧
      ∀ k, k ≠ i → w'.table? k = w.table? k := by
  obtain ⟨⟨t, hm⟩, hkeys⟩ := h
  have hput : (PlainMap.Call.put (key, (0 : Int32))).Within (IntMap R).keyOf decodedKeys := hkey
  have hupdate : (PlainMap.Call.update key fun element : Int32 × Int32 =>
      (element.1, value)).Within (IntMap R).keyOf decodedKeys := fun _ => rfl
  refine passes_operation (.tryEmplace key (0 : Int32) : Op (IntMap R))
    (fun a => .inserted a.1 a.2) (by rfl) hm hkeys decodedKeys_few trivial
    (fun _ h => by cases h) (Nat.zero_le _) ?_
  rintro a t1 w1 ⟨it, flag, heq, -, hit⟩ h1 hothers1
  cases heq
  -- the entry with the key is there now, and the iterator designates it
  rw [hm.entryFor] at hit
  obtain ⟨v, hv⟩ := Option.isSome_iff_exists.mp
    (isSome_lookup_put (IntMap R).keyOf comparison_sameKey (key, 0) oracle)
  have hentry : lookup (IntMap R).keyOf sameKey key
      ((PlainMap.Call.put (key, 0)).next (IntMap R).keyOf sameKey oracle) = some v := hv
  have hvkey : v.1 = key := (beq_iff_eq.mp (of_lookup hv).2).symm
  have hdesignates : @Designates (IntMap R) t1 a.1 (some v) := by
    rw [← hentry]
    exact hit
  have hnode : nodeKey t1 a.1 = some key := by
    rw [nodeKey_eq, hdesignates.2, ← hvkey]
    rfl
  have hlive : (t1.nodeAt a.1).storage.isSome := by
    obtain ⟨e, he, -⟩ := Option.map_eq_some_iff.mp hdesignates.2
    rw [he]
    rfl
  refine Checked.Passes.of_bind_pure ?_
  refine passes_operation (.assign a.1 value : Op (IntMap R)) (fun _ => .none) (by rfl) h1
    (hput.next hkeys) decodedKeys_few hlive (fun _ h => by cases h) (Nat.zero_le _) ?_
  rintro _ t2 w2 - h2 hothers2
  have hcall : meaning t1 (.assign a.1 value) = .update key fun element => (element.1, value) := by
    simp only [meaning, hnode]
  rw [hcall] at h2
  exact Checked.Passes.pure ⟨⟨⟨t2, h2⟩, hupdate.next (hput.next hkeys)⟩,
    fun k hk => (hothers2 k hk).trans (hothers1 k hk)⟩

/-- The comparison of containers with the same contents. -/
theorem run_mapEquals_self {j : ℕ} {a b : Table (IntMap R)} (hquiet : w.heap.fault = none)
    (ha : w.table? j = some a) (hb : w.table? i = some b) (hua : WellKept a) (hub : WellKept b)
    (hcontents : contents a = contents b) :
    (mapEquals (fun a b : Int32 => a == b) j i).run w = (.ok true, w) := by
  obtain ⟨c, hrun, hiff⟩ := run_equals ha hb hua.wellFormed.consistent
    (run_holdsEntry hb ⟨hub.wellFormed, hub.room⟩ hub.lawful hquiet fun a b : Int32 => a == b)
  have hc : c = true := by
    refine hiff.mpr ⟨?_, fun v hv => ⟨v, hcontents ▸ hv, hub.lawful.refl _, beq_self_eq_true _⟩⟩
    rw [← hua.wellFormed.consistent.length_contents, hcontents,
      hub.wellFormed.consistent.length_contents]
  rwa [hc] at hrun

/-- An insertion, and the check of what it says. -/
theorem passes_inserted (op : Op (IntMap R)) (call : PlainMap.Call (Int32 × Int32) Int32)
    {x : Exec (IntMap R) (ℕ × Bool)} (message : String)
    (hop : op.exec = x >>= fun a => pure (.inserted a.1 a.2)) (h : FollowsMap i oracle w)
    (hvalid : ∀ t : Table (IntMap R), ValidIn t op) (hset : ∀ z, op ≠ .maxLoadFactor z)
    (hrequested : requested op ≤ 2 ^ 24) (hcall : ∀ t : Table (IntMap R), meaning t op = call)
    (hwithin : call.Within (IntMap R).keyOf decodedKeys)
    (hanswer : ∀ (t t' : Table (IntMap R)) m' (a : ℕ × Bool),
      Answers t t' oracle m' (.inserted a.1 a.2) op →
        InsertAnswer t t' oracle m' key (.inserted a.1 a.2)) :
    Checked.Passes (do
        let a ← on i x
        Checked.check (a.2 == (oracle.entry key).isNone) message
        pure (stream, oracle.after call)) w fun r w' =>
      remaining r.1 ≤ remaining stream ∧ FollowsMap i r.2 w' := by
  refine passes_follow op call _ hop h decodedKeys_few hvalid hset hrequested hcall
    hwithin fun a t t' w' hm ha h' => ?_
  exact Checked.Passes.check_bind (beq_iff_eq.mpr (hm.inserted (hanswer _ _ _ _ ha)))
    (Checked.Passes.pure ⟨le_rfl, h'⟩)

/-- `erase` of a key, and the check of what it says. -/
theorem passes_eraseKey (h : FollowsMap i oracle w) :
    Checked.Passes (do
        let n ← on i (eraseKey key)
        Checked.check (n == oracle.count key) "erase count mismatch"
        pure (stream, oracle.after (.erase [key]))) w fun r w' =>
      remaining r.1 ≤ remaining stream ∧ FollowsMap i r.2 w' := by
  refine passes_follow (.eraseKey key : Op (IntMap R)) (.erase [key]) .erased (by rfl) h
    decodedKeys_few (fun _ => trivial) (fun _ h => by cases h) (Nat.zero_le _) (fun _ => rfl)
    trivial fun n t t' w' hm ha h' => ?_
  exact Checked.Passes.check_bind (beq_iff_eq.mpr (hm.erased ha))
    (Checked.Passes.pure ⟨le_rfl, h'⟩)

/-- `erase` of what `find` has found. -/
theorem passes_findErase (hash : Int32 → UInt64) (value : Int32) (h : FollowsMap i oracle w) :
    Checked.Passes (MapFuzzer.applyOpcode hash i key value stream oracle 8) w fun r w' =>
      remaining r.1 ≤ remaining stream ∧ FollowsMap i r.2 w' := by
  obtain ⟨⟨t, hm⟩, hkeys⟩ := h
  refine passes_find hm fun it w1 hit h1 => ?_
  split
  · exact Checked.Passes.pure ⟨le_rfl, ⟨t, h1⟩, hkeys⟩
  · next hne =>
      exact passes_eraseFound (fun _ _ => beq_iff_eq.mp) h1 hkeys decodedKeys_few hit hne
        fun _ w' h' => Checked.Passes.pure ⟨le_rfl, h'⟩

/-- `find`, and what it has found. -/
theorem passes_findValue (hash : Int32 → UInt64) (value : Int32) (h : FollowsMap i oracle w) :
    Checked.Passes (MapFuzzer.applyOpcode hash i key value stream oracle 9) w fun r w' =>
      remaining r.1 ≤ remaining stream ∧ FollowsMap i r.2 w' := by
  obtain ⟨⟨t, hm⟩, hkeys⟩ := h
  refine passes_find hm fun it w1 hit h1 => ?_
  have hfound : @Designates (IntMap R) t it (oracle.entry key) := hit
  unfold MapOracle.count
  cases hentry : oracle.entry key with
  | none =>
      rw [hentry] at hfound
      have hend : it = kNullIndex := hfound
      rw [hend]
      exact Checked.Passes.check_bind rfl (Checked.Passes.pure ⟨le_rfl, ⟨t, h1⟩, hkeys⟩)
  | some entry =>
      rw [hentry] at hfound
      have hne : (it != kNullIndex) = true := bne_iff_ne.mpr (h1.ne_null hfound)
      rw [hne]
      refine Checked.Passes.check_bind rfl (passes_elementAt h1 hfound.2 fun e w2 he h2 => ?_)
      refine Checked.Passes.check_bind (by rw [he]; exact beq_self_eq_true _) ?_
      exact Checked.Passes.pure ⟨le_rfl, ⟨t, h2⟩, hkeys⟩

theorem passes_applyOpcode (h : FollowsMap i oracle w) (stream : ByteStream) (n : ℕ)
    (hkey : key ∈ decodedKeys) :
    Checked.Passes (MapFuzzer.applyOpcode hash i key value stream oracle n) w fun r w' =>
      remaining r.1 ≤ remaining stream ∧ FollowsMap i r.2 w' := by
  have hsubscript := passes_assignSubscript value h hkey
  have hput : (PlainMap.Call.put (key, value)).Within (IntMap R).keyOf decodedKeys := hkey
  have hrest : remaining stream.nextU32.2 ≤ remaining stream := by
    rw [remaining_nextU32]
    exact Nat.sub_le _ _
  have hrequest : stream.nextU32.1.toNat % 4096 ≤ 2 ^ 24 :=
    (Nat.mod_lt _ (by decide)).le.trans (by decide)
  unfold MapFuzzer.applyOpcode
  split
  · exact hsubscript.bind fun _ w' h' => Checked.Passes.pure ⟨le_rfl, h'.1⟩
  · exact hsubscript.bind fun _ w' h' => Checked.Passes.pure ⟨le_rfl, h'.1⟩
  · exact passes_inserted (.insert (key, value)) (.put (key, value)) _ (by rfl) h
      (fun _ => trivial) (fun _ h => by cases h) (Nat.zero_le _) (fun _ => rfl) hput
      fun _ _ _ _ ha => ha
  · exact passes_inserted (.insert (key, value)) (.put (key, value)) _ (by rfl) h
      (fun _ => trivial) (fun _ h => by cases h) (Nat.zero_le _) (fun _ => rfl) hput
      fun _ _ _ _ ha => ha
  · exact passes_inserted (.tryEmplace key value) (.put (key, value)) _ (by rfl) h
      (fun _ => trivial) (fun _ h => by cases h) (Nat.zero_le _) (fun _ => rfl) hput
      fun _ _ _ _ ha => ha
  · exact passes_inserted (.insertOrAssign key value)
      (.putOrUpdate (key, value) fun element => (element.1, value)) _ (by rfl) h
      (fun _ => trivial) (fun _ h => by cases h) (Nat.zero_le _) (fun _ => rfl)
      ⟨hkey, fun _ => rfl⟩ fun _ _ _ _ ha => ha
  · exact passes_eraseKey h
  · exact passes_eraseKey h
  · exact passes_findErase hash value h
  · exact passes_findValue hash value h
  · -- `rehash`
    exact passes_follow (.rehash _ : Op (IntMap R)) .keep (fun _ => .none) (by rfl) h
      decodedKeys_few (fun _ => trivial) (fun _ h => by cases h) hrequest (fun _ => rfl) trivial
      fun _ _ _ w' _ _ h' => Checked.Passes.pure ⟨hrest, h'⟩
  · -- `reserve`
    exact passes_follow (.reserve _ : Op (IntMap R)) .keep (fun _ => .none) (by rfl) h
      decodedKeys_few (fun _ => trivial) (fun _ h => by cases h) hrequest (fun _ => rfl) trivial
      fun _ _ _ w' _ _ h' => Checked.Passes.pure ⟨hrest, h'⟩
  · -- `clear`
    split
    · exact passes_follow (.clear : Op (IntMap R)) .clear (fun _ => .none) (by rfl) h
        decodedKeys_few (fun _ => trivial) (fun _ h => by cases h) (Nat.zero_le _) (fun _ => rfl)
        trivial fun _ _ _ w' _ _ h' => Checked.Passes.pure ⟨le_rfl, h'⟩
    · exact Checked.Passes.pure ⟨le_rfl, h⟩
  · -- `extract` and `insert`
    obtain ⟨⟨t, hm⟩, hkeys⟩ := h
    exact (passes_extractRoundTrip hm).bind fun _ w1 h1 =>
      Checked.Passes.pure ⟨le_rfl, h1, hkeys⟩
  · -- a copy
    obtain ⟨⟨t, hm⟩, hkeys⟩ := h
    exact (passes_copyRoundTrip hm fun _ _ _ _ => run_mapEquals_self).bind fun _ w1 h1 =>
      Checked.Passes.pure ⟨le_rfl, h1, hkeys⟩
  · -- two swaps
    obtain ⟨⟨t, hm⟩, hkeys⟩ := h
    refine (passes_swapRoundTrip hm (lawful_beq hash) (fun _ _ => rfl) ?_).bind fun _ w1 h1 =>
      Checked.Passes.pure ⟨le_rfl, h1, hkeys⟩
    intro w1 j u hu
    refine (passes_assignSubscript value ⟨⟨u, hu⟩, fun v hv => by cases hv⟩ hkey).mono ?_
    rintro ⟨⟩ w2 ⟨⟨⟨u', hu'⟩, -⟩, hothers⟩
    exact ⟨hu'.serviceable, by rw [hu'.table]; rfl, hothers⟩
  · exact Checked.Passes.pure ⟨le_rfl, h⟩

theorem passes_applyOneOperation (hash : Int32 → UInt64) (h : FollowsMap i oracle w)
    (stream : ByteStream) :
    Checked.Passes (MapFuzzer.applyOneOperation hash i stream oracle) w fun r w' =>
      r.elim (FollowsMap i oracle w') fun next =>
        remaining next.1 < remaining stream ∧ FollowsMap i next.2 w' := by
  unfold MapFuzzer.applyOneOperation
  rw [exhausted_eq]
  split
  · exact Checked.Passes.pure h
  · next hleft =>
      have hpos : remaining stream ≠ 0 := fun hzero => hleft (decide_eq_true hzero)
      refine (passes_applyOpcode h _ _ (decodeKey_mem _)).bind ?_
      rintro ⟨rest, oracle'⟩ w1 ⟨hrest, h1⟩
      rw [remaining_nextU32, remaining_nextU32, remaining_nextByte] at hrest
      refine (passes_checkOperation h1 _).bind fun _ w2 h2 => Checked.Passes.pure ⟨?_, h2⟩
      show remaining rest < _
      have hrest' : remaining rest ≤ remaining stream - 1 - 4 - 4 := hrest
      omega

/-! ## The whole run -/

/-- For every buffer, every `std::hash` and every order in which the map of the standard library
is iterated, `run_operations` returns zero: no check fails, nothing throws, and nothing is
undefined. -/
theorem map_fuzzer_passes (R : Rounding) (hash : Int32 → UInt64)
    (visited : ℕ → MapOracle → MapOracle) (hvisited : ∀ n oracle, (visited n oracle).Perm oracle)
    (data : List UInt8) :
    ∃ w, (ExceptT.run (MapFuzzer.runOperations hash visited data)).run
      (World.empty : World (IntMap R)) = (.ok (.ok 0), w) := by
  have hrun := @passes_runOperations (IntMap R) sameKey decodedKeys hash _ _ (lawful_beq hash)
    (fun _ stream _ _ h => passes_applyOneOperation hash h stream)
    (fun _ n oracle _ h => passes_fullCrossCheck h (hvisited n oracle)
      (fun _ _ hv _ h' => passes_checkEntry h' hv) fun _ _ hv _ h' => passes_checkElement h' hv)
    data
  obtain ⟨_, w, hrun, rfl, -⟩ := hrun.returns
  exact ⟨w, hrun⟩

theorem map_fuzzer_passes_backwards : ∃ w, (ExceptT.run (MapFuzzer.runOperations
    (fun key => key.toUInt32.toUInt64) (fun _ => List.reverse)
    [0, 0, 0, 0, 7, 0, 0, 0, 9, 13, 0, 0, 0, 7, 0, 0, 0, 0, 15, 1])).run
      (World.empty : World (IntMap .exact)) = (.ok (.ok 0), w) :=
  map_fuzzer_passes .exact _ _ (fun _ oracle => oracle.reverse_perm) _

end Fum.Interface

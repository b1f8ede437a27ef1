import Fum.Interface.DriverCalls

/-!
# The loop of a differential fuzzer

What holds of the container and its map before and after each operation, and that a driver whose
operations keep it reads its buffer to the end.
-/

set_option autoImplicit false

namespace Fum.Interface

open Fum.Model Fum.Analysis Effects DenseMap PlainMap RoundedArithmetic

/-! ## The stream -/

/-- How many bytes are left. -/
def remaining (stream : ByteStream) : ℕ := stream.data.length - stream.cursor

theorem remaining_nextByte (stream : ByteStream) :
    remaining stream.nextByte.2 = remaining stream - 1 := by
  unfold remaining ByteStream.nextByte
  split
  · show stream.data.length - stream.cursor = _
    omega
  · show stream.data.length - (stream.cursor + 1) = _
    omega

theorem remaining_nextU32 (stream : ByteStream) :
    remaining stream.nextU32.2 = remaining stream - 4 := by
  unfold ByteStream.nextU32
  simp only [Function.iterate_succ, Function.comp_apply, Function.iterate_zero, id_eq,
    remaining_nextByte]
  omega

theorem exhausted_eq (stream : ByteStream) :
    stream.exhausted = decide (remaining stream = 0) := by
  unfold ByteStream.exhausted remaining
  exact decide_eq_decide.mpr (by omega)

/-! ## The keys of a driver -/

/-- `==` of keys. -/
abbrev sameKey (a b : Int32) : Bool := a == b

theorem comparison_sameKey : Comparison sameKey where
  refl a := beq_self_eq_true a
  symm _ _ h := beq_iff_eq.mpr (beq_iff_eq.mp h).symm
  trans _ _ _ h h' := beq_iff_eq.mpr ((beq_iff_eq.mp h).trans (beq_iff_eq.mp h'))

/-- The keys that a driver decodes. -/
def decodedKeys : List Int32 := (List.range 256).map fun n => decodeKey (UInt32.ofNat n)

theorem decodeKey_mem (word : UInt32) : decodeKey word ∈ decodedKeys := by
  refine List.mem_map.mpr ⟨word.toNat % 256, List.mem_range.mpr (Nat.mod_lt _ (by norm_num)), ?_⟩
  unfold decodeKey
  refine congrArg UInt32.toInt32 (UInt32.toNat_inj.mp ?_)
  have h256 : (kKeyDomain : UInt32).toNat = 256 := rfl
  rw [UInt32.toNat_mod, UInt32.toNat_mod, UInt32.toNat_ofNat', h256]
  omega

theorem decodedKeys_few : decodedKeys.length + 3 ≤ 2 ^ 24 := by
  unfold decodedKeys
  rw [List.length_map, List.length_range]
  norm_num

/-! ## What holds between operations -/

variable {τ : Traits} {β : Type} {w w' : World τ} {i : ℕ} {t : Table τ}
  {equal : τ.Key → τ.Key → Bool} {keys : List τ.Key} {l : List τ.Value} {key : τ.Key}
  {Q : β → World τ → Prop}

/-- The container `i` holds the entries `l`, whose keys are among `keys`. -/
structure Follows (i : ℕ) (equal : τ.Key → τ.Key → Bool) (keys : List τ.Key) (l : List τ.Value)
    (w : World τ) : Prop where
  mirrors : ∃ t, Mirrors i equal l t w
  keys : ∀ v ∈ l, τ.keyOf v ∈ keys

theorem Mirrors.length_le (h : Mirrors i equal l t w) (hkeys : ∀ v ∈ l, τ.keyOf v ∈ keys) :
    l.length ≤ keys.length := by
  have hlaw : LawfulTable t := h.playable.lawful
  refine h.distinct.length_le (fun k => ?_) hkeys
  rw [← h.keyEqual]
  exact hlaw.refl k

theorem Mirrors.mapAfter (h : Mirrors i equal l t w) (op : Op τ) :
    mapAfter t l op = (meaning t op).next τ.keyOf equal l := by
  unfold Fum.Analysis.mapAfter
  rw [h.keyEqual]

/-- A call of a driver that changes the container as the map. -/
theorem passes_operation (op : Op τ) {α : Type} {x : Exec τ α} (g : α → Reply τ)
    {f : α → Checked (World τ) β} (hop : op.exec = x >>= fun a => pure (g a))
    (h : Mirrors i equal l t w) (hkeys : ∀ v ∈ l, τ.keyOf v ∈ keys)
    (hfew : keys.length + 3 ≤ 2 ^ 24) (hvalid : ValidIn t op) (hset : ∀ z, op ≠ .maxLoadFactor z)
    (hrequested : requested op ≤ 2 ^ 24)
    (hf : ∀ a t' w', Answers t t' l ((meaning t op).next τ.keyOf equal l) (g a) op →
      Mirrors i equal ((meaning t op).next τ.keyOf equal l) t' w' →
      (∀ k, k ≠ i → w'.table? k = w.table? k) → Checked.Passes (f a) w' Q) :
    Checked.Passes (on i x >>= f) w Q := by
  have hle := h.length_le hkeys
  have hnext : ((meaning t op).next τ.keyOf equal l).length ≤ l.length + 1 :=
    (meaning t op).length_next_le l
  refine passes_change hop h hvalid hset hrequested (by rw [h.mapAfter]; omega)
    fun a t' w' ha hm ho => ?_
  rw [h.mapAfter] at ha hm
  exact hf a t' w' ha hm ho

/-- The same for a call that means one thing for every table. -/
theorem passes_follow (op : Op τ) (call : PlainMap.Call τ.Value τ.Key) {α : Type} {x : Exec τ α}
    (g : α → Reply τ) {f : α → Checked (World τ) β} (hop : op.exec = x >>= fun a => pure (g a))
    (h : Follows i equal keys l w) (hfew : keys.length + 3 ≤ 2 ^ 24)
    (hvalid : ∀ t : Table τ, ValidIn t op) (hset : ∀ z, op ≠ .maxLoadFactor z)
    (hrequested : requested op ≤ 2 ^ 24) (hcall : ∀ t : Table τ, meaning t op = call)
    (hwithin : call.Within τ.keyOf keys)
    (hf : ∀ a t t' w', Mirrors i equal l t w →
      Answers t t' l (call.next τ.keyOf equal l) (g a) op →
      Follows i equal keys (call.next τ.keyOf equal l) w' → Checked.Passes (f a) w' Q) :
    Checked.Passes (on i x >>= f) w Q := by
  obtain ⟨⟨t, hm⟩, hkeys⟩ := h
  refine passes_operation op g hop hm hkeys hfew (hvalid t) hset hrequested
    fun a t' w' ha h' _ => ?_
  rw [hcall] at ha h'
  exact hf a t t' w' hm ha ⟨⟨t', h'⟩, hwithin.next hkeys⟩

/-- An insertion says whether the key is new. -/
theorem Mirrors.inserted {t' : Table τ} {m' : List τ.Value} {a : ℕ × Bool}
    (h : Mirrors i equal l t w) (ha : InsertAnswer t t' l m' key (.inserted a.1 a.2)) :
    a.2 = (lookup τ.keyOf equal key l).isNone := by
  obtain ⟨it, flag, heq, hflag, -⟩ := ha
  cases heq
  rwa [h.entryFor] at hflag

/-- An erasure says how many elements had the key. -/
theorem Mirrors.erased {t' : Table τ} {m' : List τ.Value} {n : ℕ} (h : Mirrors i equal l t w)
    (ha : Answers t t' l m' (.erased n) (.eraseKey key)) :
    n = (lookup τ.keyOf equal key l).isSome.toNat := by
  rw [← h.entryFor]
  cases ha
  rfl

/-- The erasure of an element that has been found, where equal keys are one. -/
theorem passes_eraseFound {it : ℕ} {f : ℕ → Checked (World τ) β}
    (heq : ∀ a b, equal a b = true → a = b) (h : Mirrors i equal l t w)
    (hkeys : ∀ v ∈ l, τ.keyOf v ∈ keys) (hfew : keys.length + 3 ≤ 2 ^ 24)
    (hit : Designates t it (lookup τ.keyOf equal key l)) (hne : it ≠ kNullIndex)
    (hf : ∀ a w', Follows i equal keys (PlainMap.erase τ.keyOf equal [key] l) w' →
      Checked.Passes (f a) w' Q) :
    Checked.Passes (on i (eraseAt it) >>= f) w Q := by
  cases hentry : lookup τ.keyOf equal key l with
  | none =>
      rw [hentry] at hit
      exact absurd hit hne
  | some v =>
      rw [hentry] at hit
      have hkey : key = τ.keyOf v := heq _ _ (of_lookup hentry).2
      have hkeysAt : keysAt t [it] = [key] := by
        have hnode : nodeKey t it = some key := by
          rw [nodeKey_eq, hit.2, hkey]
          rfl
        rw [keysAt, List.filterMap_cons, hnode]
        rfl
      have hcall : meaning t (.eraseAt it) = .erase [key] := congrArg PlainMap.Call.erase hkeysAt
      have hlive : (t.nodeAt it).storage.isSome := by
        obtain ⟨e, he, -⟩ := Option.map_eq_some_iff.mp hit.2
        rw [he]
        rfl
      refine passes_operation (.eraseAt it) .iterator rfl h hkeys hfew hlive
        (fun _ h => by cases h) (Nat.zero_le _) fun a t' w' _ h' _ =>
          hf a w' ⟨⟨t', ?_⟩, fun u hu => ?_⟩
      · rwa [hcall] at h'
      · exact hkeys u (List.mem_of_mem_filter hu)

/-! ## Checks -/

/-- A table within its threshold passes the check of the load factor. -/
theorem withinMaximum_of_below (h : Below (kDefaultMaxLoadFactor τ.rounding) 0 t) :
    t.withinMaximum = true := by
  have hle : t.loadFactor ≤ τ.rounding.round (4 / 5) := h.loadFactor_le
  have hnonneg : 0 ≤ τ.rounding.round (1 / 1000000) := τ.rounding.round_nonneg (by norm_num)
  have hmono : τ.rounding.round (τ.rounding.round (4 / 5)) ≤
      τ.rounding.round (τ.rounding.round (4 / 5) + τ.rounding.round (1 / 1000000)) :=
    τ.rounding.mono (le_add_of_nonneg_right hnonneg)
  rw [τ.rounding.idem] at hmono
  unfold Table.withinMaximum
  rw [h.factor]
  exact decide_eq_true (hle.trans hmono)

/-- The nodes from `begin()` to `end()`. -/
theorem Mirrors.traversal (h : Mirrors i equal l t w) :
    ∃ nodes, t.traversal = some nodes ∧ nodes.length = t.size ∧
      ∀ x ∈ nodes, ∃ v ∈ l, valueAt t x = some v := by
  obtain ⟨nodes, htraversal, hperm⟩ := h.agrees.traversal
  refine ⟨nodes, htraversal, ?_, fun x hx => ?_⟩
  · have hlen := hperm.length_eq
    rw [List.length_map, List.length_map] at hlen
    rw [hlen, h.size]
  · obtain ⟨v, hv, heq⟩ := List.mem_map.mp (hperm.mem_iff.mp (List.mem_map_of_mem hx))
    exact ⟨v, hv, heq.symm⟩

theorem passes_checkElements {checkElement : τ.Value → Checked (World τ) Unit}
    (helement : ∀ v ∈ l, ∀ w', Mirrors i equal l t w' →
      Checked.Passes (checkElement v) w' fun _ => Mirrors i equal l t)
    (nodes : List ℕ) : ∀ (iterated : ℕ) (w : World τ), Mirrors i equal l t w →
      (∀ x ∈ nodes, ∃ v ∈ l, valueAt t x = some v) →
      Checked.Passes (checkElements i checkElement nodes iterated) w fun n w' =>
        n = iterated + nodes.length ∧ Mirrors i equal l t w' := by
  induction nodes with
  | nil => exact fun iterated w h _ => Checked.Passes.pure ⟨rfl, h⟩
  | cons x rest ih =>
      intro iterated w h hnodes
      obtain ⟨v, hv, hvalue⟩ := hnodes x List.mem_cons_self
      refine passes_elementAt h hvalue fun e w1 he h1 => ?_
      rw [he]
      refine (helement v hv w1 h1).bind fun _ w2 h2 => ?_
      refine (ih (iterated + 1) w2 h2 fun y hy => hnodes y (List.mem_cons_of_mem _ hy)).mono ?_
      rintro n w3 ⟨rfl, h3⟩
      refine ⟨?_, h3⟩
      rw [List.length_cons]
      omega

/-- The cross-check, in any order, if the checks of one entry and of one element pass. -/
theorem passes_fullCrossCheck {checkEntry checkElement : τ.Value → Checked (World τ) Unit}
    {visited : List τ.Value} (h : Follows i equal keys l w) (hvisited : visited.Perm l)
    (hentry : ∀ t, ∀ v ∈ l, ∀ w', Mirrors i equal l t w' →
      Checked.Passes (checkEntry v) w' fun _ => Mirrors i equal l t)
    (helement : ∀ t, ∀ v ∈ l, ∀ w', Mirrors i equal l t w' →
      Checked.Passes (checkElement v) w' fun _ => Mirrors i equal l t) :
    Checked.Passes (fullCrossCheck i checkEntry checkElement visited l) w fun _ =>
      Follows i equal keys l := by
  obtain ⟨⟨t, hm⟩, hkeys⟩ := h
  obtain ⟨nodes, htraversal, hlength, hnodes⟩ := hm.traversal
  refine passes_getTable hm fun w1 h1 => ?_
  refine Checked.Passes.check_bind (by rw [hm.size]; exact beq_self_eq_true _) ?_
  refine (Checked.Passes.forEach (Mirrors i equal l t) h1 fun v hv w2 h2 =>
    hentry t v (hvisited.mem_iff.mp hv) w2 h2).bind fun _ w2 h2 => ?_
  refine passes_getTable h2 fun w3 h3 => ?_
  rw [htraversal]
  refine (passes_checkElements (helement t) nodes 0 w3 h3 hnodes).bind ?_
  rintro n w4 ⟨rfl, h4⟩
  refine Checked.Passes.check_bind (by rw [Nat.zero_add, hlength]; exact beq_self_eq_true _) ?_
  exact Checked.Passes.check (withinMaximum_of_below (hm.serviceable i t hm.table).below)
    ⟨⟨t, h4⟩, hkeys⟩

/-- The checks after an operation. -/
theorem passes_checkOperation (h : Follows i equal keys l w) (key : τ.Key) :
    Checked.Passes (checkOperation i key l.length (lookup τ.keyOf equal key l).isSome.toNat) w
      fun _ => Follows i equal keys l := by
  obtain ⟨⟨t, hm⟩, hkeys⟩ := h
  refine passes_getTable hm fun w1 h1 => ?_
  refine Checked.Passes.check_bind (by rw [hm.size]; exact beq_self_eq_true _) ?_
  refine passes_contains h1 fun w2 h2 => Checked.Passes.check ?_ ⟨⟨t, h2⟩, hkeys⟩
  cases lookup τ.keyOf equal key l <;> rfl

/-! ## The loop -/

/-- The loop over operations that keep `I` and use up the stream. -/
theorem passes_operationsLoop {Oracle : Type} {I : Oracle → World τ → Prop}
    {applyOneOperation : ByteStream → Oracle → Checked (World τ) (Option (ByteStream × Oracle))}
    {fullCrossCheck : ℕ → Oracle → Checked (World τ) Unit}
    (happly : ∀ stream oracle w, I oracle w → Checked.Passes (applyOneOperation stream oracle) w
      fun r w' => r.elim (I oracle w') fun next =>
        remaining next.1 < remaining stream ∧ I next.2 w')
    (hcheck : ∀ n oracle w, I oracle w →
      Checked.Passes (fullCrossCheck n oracle) w fun _ => I oracle) :
    ∀ (fuel : ℕ) (stream : ByteStream) (oracle : Oracle) (n : ℕ) (w : World τ),
      remaining stream < fuel → I oracle w →
      Checked.Passes (operationsLoop applyOneOperation fullCrossCheck fuel stream oracle n) w
        fun _ w' => ∃ oracle', I oracle' w' := by
  intro fuel
  induction fuel with
  | zero => exact fun _ _ _ _ h => absurd h (Nat.not_lt_zero _)
  | succ fuel ih =>
      intro stream oracle n w hfuel hI
      unfold operationsLoop
      refine (happly stream oracle w hI).bind fun r w' hr => ?_
      cases r with
      | none => exact (hcheck n oracle w' hr).mono fun _ _ h => ⟨oracle, h⟩
      | some next =>
          obtain ⟨stream', oracle'⟩ := next
          obtain ⟨hless, hI'⟩ := hr
          have hchecked : Checked.Passes (if (n + 1) &&& 0x3FF = 0 then
              fullCrossCheck (n + 1) oracle' else pure ()) w' fun _ => I oracle' := by
            split
            · exact hcheck (n + 1) oracle' w' hI'
            · exact Checked.Passes.pure hI'
          exact hchecked.bind fun _ w2 hw2 => ih stream' oracle' (n + 1) w2 (by
            have : remaining stream' < remaining stream := hless
            omega) hw2

/-- A driver whose operations and checks keep its container and its map together returns zero,
and all its containers are gone. -/
theorem passes_runOperations {hash : τ.Key → UInt64} {applyOneOperation : ℕ → ByteStream →
      List τ.Value → Checked (World τ) (Option (ByteStream × List τ.Value))}
    {fullCrossCheck : ℕ → ℕ → List τ.Value → Checked (World τ) Unit} (hlaw : Lawful hash equal)
    (happly : ∀ tested stream l w, Follows tested equal keys l w →
      Checked.Passes (applyOneOperation tested stream l) w fun r w' =>
        r.elim (Follows tested equal keys l w') fun next =>
          remaining next.1 < remaining stream ∧ Follows tested equal keys next.2 w')
    (hcheck : ∀ tested n l w, Follows tested equal keys l w →
      Checked.Passes (fullCrossCheck tested n l) w fun _ => Follows tested equal keys l)
    (data : List UInt8) :
    Checked.Passes (runOperations hash equal [] applyOneOperation fullCrossCheck data)
      World.empty fun r w => r = 0 ∧ Everywhere Serviceable w := by
  refine passes_result (.construct 0 hash equal τ.defaultAlloc) rfl
    (construct_index 0 hash _) (eachTable_empty _) rfl
    (Roomy.addMap (roomy_of_serviceable (eachTable_empty _)) (by norm_num)) hlaw rfl rfl
    (Nat.zero_le _) trivial ?_
  rintro _ w1 rfl hm1 hw1
  have hmade : (asMaps w1).map? 0 = some ⟨[], equal, τ.defaultAlloc⟩ := by
    rw [hm1]
    rfl
  have hfollows : Follows 0 equal keys [] w1 :=
    ⟨mirrors_of_map? hw1 hmade rfl (List.Perm.refl _), fun v hv => by cases hv⟩
  refine (passes_operationsLoop (I := Follows 0 equal keys) (happly 0) (hcheck 0)
    (data.length + 1) ⟨data, 0⟩ [] 0 w1 ?_ hfollows).bind ?_
  · exact Nat.lt_succ_self _
  · rintro ⟨⟩ w2 ⟨l, ⟨t, h⟩, -⟩
    refine (passes_destroy (i := 1) h.serviceable rfl h.map? one_ne_zero).bind ?_
    rintro ⟨⟩ w3 ⟨-, hw3⟩
    exact Checked.Passes.pure ⟨rfl, hw3⟩

end Fum.Interface

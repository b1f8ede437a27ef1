import Fum.Base.Checked
import Fum.Base.PlainMap
import Fum.Model.Instances
import Fum.Model.Observers

/-!
# The differential fuzzers

Two drivers decode a buffer of bytes into operations, apply each of them to a container of
the library and to one of the standard library, and stop at the first difference. A container
of the standard library is its entries; the order in which it is iterated is left open, as is
what `std::hash` computes. Nothing the drivers call throws: `bad_alloc` would end them before
any check does.
SOURCE: differential_fuzz.cpp:28-261, differential_fuzz_set.cpp:21-194
-/

set_option autoImplicit false

namespace Fum.Model

open Effects RoundedArithmetic

/-! ## The stream of bytes -/

/-- `ByteStream`. SOURCE: differential_fuzz.cpp:32-52, differential_fuzz_set.cpp:23-42 -/
structure ByteStream where
  data : List UInt8
  cursor : ℕ
  deriving DecidableEq, Repr

namespace ByteStream

/-- `exhausted`. -/
def exhausted (stream : ByteStream) : Bool := decide (stream.cursor ≥ stream.data.length)

/-- `next_byte`: past the end of the buffer every byte is zero. -/
def nextByte (stream : ByteStream) : UInt8 × ByteStream :=
  if stream.cursor ≥ stream.data.length then (0, stream)
  else (stream.data.getD stream.cursor 0, { stream with cursor := stream.cursor + 1 })

/-- `next_u32`: four bytes, the first one the most significant. -/
def nextU32 (stream : ByteStream) : UInt32 × ByteStream :=
  (fun r : UInt32 × ByteStream =>
    let next := r.2.nextByte
    ((r.1 <<< 8) ||| next.1.toUInt32, next.2))^[4] (0, stream)

end ByteStream

/-- `kKeyDomain`. -/
def kKeyDomain : UInt32 := 256

/-! ## Calls of a driver -/

variable {τ : Traits} {α : Type}

/-- A statement during which nothing throws. -/
def undisturbed (x : Action (World τ) α) : Action (World τ) α where
  run w := x.run { w with heap := { w.heap with fault := none } }

/-- A statement of a driver. -/
def calling (x : Action (World τ) α) : Checked (World τ) α := Checked.call (undisturbed x)

/-- A member function of the container `i`. -/
def on (i : ℕ) (x : Exec τ α) : Checked (World τ) α := calling (onTable i x)

/-- `load_factor() <= max_load_factor() + 1e-6f`.
SOURCE: differential_fuzz.cpp:95, differential_fuzz_set.cpp:68 -/
def Table.withinMaximum (t : Table τ) : Bool :=
  match t.maxLoadFactor with
  | .infinity => true
  | .finite q _ _ => decide (t.loadFactor ≤ τ.rounding.round (q + τ.rounding.round (1 / 1000000)))

/-- `static_cast<int>(stream.next_u32() % kKeyDomain)`. -/
def decodeKey (word : UInt32) : Int32 := (word % kKeyDomain).toInt32

/-- The second loop of `full_cross_check` over the nodes ahead, with the check of one element.
SOURCE: differential_fuzz.cpp:85-91, differential_fuzz_set.cpp:62-66 -/
def checkElements (tested : ℕ) (checkElement : τ.Value → Checked (World τ) Unit) :
    List ℕ → ℕ → Checked (World τ) ℕ
  | [], iterated => pure iterated
  | node :: rest, iterated => do
      let element ← on tested (elementAt node)
      checkElement element.value
      checkElements tested checkElement rest (iterated + 1)

/-- `full_cross_check`, for what it checks of an entry of the other container and of an element
of the container, and the order in which the other container is iterated.
SOURCE: differential_fuzz.cpp:69-97, differential_fuzz_set.cpp:54-70 -/
def fullCrossCheck (tested : ℕ) (checkEntry checkElement : τ.Value → Checked (World τ) Unit)
    (visited oracle : List τ.Value) : Checked (World τ) Unit := do
  let t ← on tested getTable
  Checked.check (t.size == oracle.length) "size mismatch"
  Checked.forEach visited checkEntry
  let t ← on tested getTable
  match t.traversal with
  | none => Checked.call Action.undefined
  | some nodes => do
      let iterated ← checkElements tested checkElement nodes 0
      Checked.check (iterated == t.size) "iteration count != size"
      Checked.check t.withinMaximum "load factor exceeds the maximum"

/-- The checks after an operation, for the size of the other container and its `count(key)`.
SOURCE: differential_fuzz.cpp:206-208, differential_fuzz_set.cpp:143-145 -/
def checkOperation (tested : ℕ) (key : τ.Key) (size n : ℕ) : Checked (World τ) Unit := do
  let t ← on tested getTable
  Checked.check (t.size == size) "size mismatch after operation"
  let contained ← on tested (contains key)
  Checked.check (contained == (n != 0)) "containment mismatch after op"

/-- `extract`, and back with the node, where the other container holds `n` elements with the
key. SOURCE: differential_fuzz.cpp:179-188, differential_fuzz_set.cpp:117-126 -/
def extractRoundTrip (tested : ℕ) (key : τ.Key) (n : ℕ) : Checked (World τ) Unit := do
  let node ← on tested (extractKey key)
  let h ← calling (newHandle node)
  -- what `insert` returns of the node dies at once, as with a hint
  if node.value.isSome then do
    Checked.check (n == 1) "extract present mismatch"
    let _ ← calling (insertHandle true tested h)
    pure ()
  else Checked.check (n == 0) "extract absent mismatch"
  calling (destroyHandle h)

/-- A copy that is compared by `same` and assigned back.
SOURCE: differential_fuzz.cpp:189-194, differential_fuzz_set.cpp:127-132 -/
def copyRoundTrip (same : ℕ → ℕ → Action (World τ) Bool) (tested : ℕ) :
    Checked (World τ) Unit := do
  let copy ← calling (copyConstruct tested)
  let equal ← calling (same copy tested)
  Checked.check equal "copy not equal to original"
  calling (copyAssign tested copy)
  calling (destroy copy)

/-- Two swaps with a container that `fill` has put something in.
SOURCE: differential_fuzz.cpp:195-202, differential_fuzz_set.cpp:133-140 -/
def swapRoundTrip (hash : τ.Key → UInt64) (equal : τ.Key → τ.Key → Bool)
    (fill : ℕ → Checked (World τ) Unit) (tested : ℕ) : Checked (World τ) Unit := do
  let other ← calling (construct 0 hash equal τ.defaultAlloc)
  fill other
  calling (swap tested other)
  calling (swap tested other)
  calling (destroy other)

/-- The loop of `run_operations` and the check after it, for the two functions that it calls:
one operation, which answers with what is left of the stream and with the other container, or
with nothing, and the cross-check after some number of operations. The loop consumes the
stream, and is over before the fuel is.
SOURCE: differential_fuzz.cpp:217-221, differential_fuzz_set.cpp:153-157 -/
def operationsLoop {Oracle : Type}
    (applyOneOperation : ByteStream → Oracle → Checked (World τ) (Option (ByteStream × Oracle)))
    (fullCrossCheck : ℕ → Oracle → Checked (World τ) Unit) :
    ℕ → ByteStream → Oracle → ℕ → Checked (World τ) Unit
  | 0, _, _, _ => Checked.call Action.diverge
  | fuel + 1, stream, oracle, operations => do
      let next ← applyOneOperation stream oracle
      match next with
      | none => fullCrossCheck operations oracle
      | some (stream, oracle) => do
          (if (operations + 1) &&& 0x3FF = 0 then fullCrossCheck (operations + 1) oracle
          else pure ())
          operationsLoop applyOneOperation fullCrossCheck fuel stream oracle (operations + 1)

/-- `run_operations`, with the end of its containers.
SOURCE: differential_fuzz.cpp:212-223, differential_fuzz_set.cpp:149-159 -/
def runOperations {Oracle : Type} (hash : τ.Key → UInt64) (equal : τ.Key → τ.Key → Bool)
    (empty : Oracle)
    (applyOneOperation : ℕ → ByteStream → Oracle →
      Checked (World τ) (Option (ByteStream × Oracle)))
    (fullCrossCheck : ℕ → ℕ → Oracle → Checked (World τ) Unit) (data : List UInt8) :
    Checked (World τ) ℕ := do
  let tested ← calling (construct 0 hash equal τ.defaultAlloc)
  operationsLoop (applyOneOperation tested) (fullCrossCheck tested) (data.length + 1) ⟨data, 0⟩
    empty 0
  calling (destroy tested)
  pure 0

/-! ## The map driver -/

/-- `fum::unordered_map<int, int>`. -/
abbrev IntMap (R : Rounding) : Traits := mapTraits Int32 Int32 false R id

/-- `std::unordered_map<int, int>`: its entries. -/
abbrev MapOracle := List (Int32 × Int32)

namespace MapOracle

/-- What a call does to the map. -/
def after (oracle : MapOracle) (call : PlainMap.Call (Int32 × Int32) Int32) : MapOracle :=
  call.next Prod.fst (fun a b => a == b) oracle

/-- `find(key)`. -/
def entry (oracle : MapOracle) (key : Int32) : Option (Int32 × Int32) :=
  DenseMap.lookup Prod.fst (fun a b => a == b) key oracle

/-- `count(key)`. -/
def count (oracle : MapOracle) (key : Int32) : ℕ := (oracle.entry key).isSome.toNat

end MapOracle

namespace MapFuzzer

variable {R : Rounding} (hash : Int32 → UInt64) (tested : ℕ)

/-- One round of the first loop of `full_cross_check`.
SOURCE: differential_fuzz.cpp:74-81 -/
def checkEntry (entry : Int32 × Int32) : Checked (World (IntMap R)) Unit := do
  let it ← on tested (find entry.1)
  Checked.check (it != kNullIndex) "key missing from tested map"
  let element ← on tested (elementAt it)
  Checked.check (element.value.2 == entry.2) "value mismatch (oracle -> tested)"
  let contained ← on tested (contains entry.1)
  Checked.check contained "contains disagrees with find"
  let n ← on tested (count entry.1)
  Checked.check (n == 1) "count should be 1 for present key"
  let value ← on tested (atKey entry.1)
  match value with
  | .ok value => Checked.check (value == entry.2) "at() value mismatch"
  | .error text => throw text

/-- One round of the second loop of `full_cross_check`.
SOURCE: differential_fuzz.cpp:86-91 -/
def checkElement (oracle : MapOracle) (element : Int32 × Int32) :
    Checked (World (IntMap R)) Unit :=
  match oracle.entry element.1 with
  | none => throw "tested has a key the oracle lacks"
  | some entry => Checked.check (entry.2 == element.2) "value mismatch (tested -> oracle)"

/-- `full_cross_check`. SOURCE: differential_fuzz.cpp:69-97 -/
def fullCrossCheck (visited oracle : MapOracle) : Checked (World (IntMap R)) Unit :=
  Model.fullCrossCheck tested (checkEntry tested) (checkElement oracle) visited oracle

/-- `m[key] = value`. -/
def assignSubscript (i : ℕ) (key value : Int32) : Checked (World (IntMap R)) Unit := do
  let r ← on i (tryEmplaceImpl key (0 : Int32))
  on i (assignValue r.1 fun element : Int32 × Int32 => (element.1, value))

/-- The `switch` of `apply_one_operation`: what is left of the stream, and the other map.
SOURCE: differential_fuzz.cpp:109-203 -/
def applyOpcode (key value : Int32) (stream : ByteStream) (oracle : MapOracle) :
    ℕ → Checked (World (IntMap R)) (ByteStream × MapOracle)
  | 0 | 1 => do
      assignSubscript tested key value
      pure (stream, (oracle.after (.put (key, 0))).after
        (.update key fun element => (element.1, value)))
  | 2 => do
      let a ← on tested (emplaceImpl (key, value))
      Checked.check (a.2 == (oracle.entry key).isNone) "insert insertedness mismatch"
      pure (stream, oracle.after (.put (key, value)))
  | 3 => do
      let a ← on tested (emplaceImpl (key, value))
      Checked.check (a.2 == (oracle.entry key).isNone) "emplace insertedness mismatch"
      pure (stream, oracle.after (.put (key, value)))
  | 4 => do
      let a ← on tested (tryEmplaceImpl key value)
      Checked.check (a.2 == (oracle.entry key).isNone) "try_emplace insertedness mismatch"
      pure (stream, oracle.after (.put (key, value)))
  | 5 => do
      let a ← on tested (insertOrAssignImpl key value)
      Checked.check (a.2 == (oracle.entry key).isNone) "insert_or_assign mismatch"
      pure (stream, oracle.after (.putOrUpdate (key, value) fun element => (element.1, value)))
  | 6 | 7 => do
      let n ← on tested (eraseKey key)
      Checked.check (n == oracle.count key) "erase count mismatch"
      pure (stream, oracle.after (.erase [key]))
  | 8 => do
      let it ← on tested (find key)
      if it = kNullIndex then
        pure (stream, oracle)
      else do
        let _ ← on tested (eraseAt it)
        pure (stream, oracle.after (.erase [key]))
  | 9 => do
      let it ← on tested (find key)
      Checked.check ((it != kNullIndex) == (oracle.count key != 0)) "find presence mismatch"
      match oracle.entry key with
      | none => pure (stream, oracle)
      | some entry => do
          let element ← on tested (elementAt it)
          Checked.check (element.value.2 == entry.2) "find value mismatch"
          pure (stream, oracle)
  | 10 => do
      let request := stream.nextU32
      on tested (rehash (request.1.toNat % 4096))
      pure (request.2, oracle)
  | 11 => do
      let request := stream.nextU32
      on tested (reserve (request.1.toNat % 4096))
      pure (request.2, oracle)
  | 12 =>
      if value &&& 0x3F = 0 then do
        on tested clear
        pure (stream, oracle.after .clear)
      else pure (stream, oracle)
  | 13 => do
      extractRoundTrip tested key (oracle.count key)
      pure (stream, oracle)
  | 14 => do
      copyRoundTrip (mapEquals fun a b : Int32 => a == b) tested
      pure (stream, oracle)
  | 15 => do
      swapRoundTrip hash (fun a b : Int32 => a == b)
        (fun other => assignSubscript other key value) tested
      pure (stream, oracle)
  | _ => pure (stream, oracle)

/-- `apply_one_operation`. SOURCE: differential_fuzz.cpp:101-210 -/
def applyOneOperation (stream : ByteStream) (oracle : MapOracle) :
    Checked (World (IntMap R)) (Option (ByteStream × MapOracle)) :=
  if stream.exhausted then
    pure none
  else do
    let opcode := stream.nextByte
    let key := opcode.2.nextU32
    let value := key.2.nextU32
    let r ← applyOpcode hash tested (decodeKey key.1) value.1.toInt32 value.2 oracle
      (opcode.1.toNat % 16)
    checkOperation tested (decodeKey key.1) r.2.length (r.2.count (decodeKey key.1))
    pure (some r)

/-- `run_operations`, for the order in which the other map is iterated after each number of
operations. SOURCE: differential_fuzz.cpp:212-223 -/
def runOperations (visited : ℕ → MapOracle → MapOracle) (data : List UInt8) :
    Checked (World (IntMap R)) ℕ :=
  Model.runOperations hash (fun a b : Int32 => a == b) [] (applyOneOperation hash)
    (fun tested operations oracle => fullCrossCheck tested (visited operations oracle) oracle) data

end MapFuzzer

/-! ## The set driver -/

/-- `fum::unordered_set<int>`. -/
abbrev IntSet (R : Rounding) : Traits := setTraits Int32 false R id

/-- `std::unordered_set<int>`: its keys. -/
abbrev SetOracle := List Int32

namespace SetOracle

/-- What a call does to the set. -/
def after (oracle : SetOracle) (call : PlainMap.Call Int32 Int32) : SetOracle :=
  call.next id (fun a b => a == b) oracle

/-- `count(key)`. -/
def count (oracle : SetOracle) (key : Int32) : ℕ :=
  (DenseMap.lookup id (fun a b => a == b) key oracle).isSome.toNat

end SetOracle

namespace SetFuzzer

variable {R : Rounding} (hash : Int32 → UInt64) (tested : ℕ)

/-- One round of the first loop of `full_cross_check`.
SOURCE: differential_fuzz_set.cpp:57-61 -/
def checkKey (key : Int32) : Checked (World (IntSet R)) Unit := do
  let contained ← on tested (contains key)
  Checked.check contained "key missing from tested set"
  let n ← on tested (count key)
  Checked.check (n == 1) "count should be 1 for present key"
  let it ← on tested (find key)
  Checked.check (it != kNullIndex) "find disagrees with contains"

/-- One round of the second loop of `full_cross_check`.
SOURCE: differential_fuzz_set.cpp:63-66 -/
def checkElement (oracle : SetOracle) (element : Int32) : Checked (World (IntSet R)) Unit :=
  Checked.check (oracle.count element == 1) "tested has a key the oracle lacks"

/-- `full_cross_check`. SOURCE: differential_fuzz_set.cpp:54-70 -/
def fullCrossCheck (visited oracle : SetOracle) : Checked (World (IntSet R)) Unit :=
  Model.fullCrossCheck tested (checkKey tested) (checkElement oracle) visited oracle

/-- The `switch` of `apply_one_operation`: what is left of the stream, and the other set.
SOURCE: differential_fuzz_set.cpp:78-141 -/
def applyOpcode (key : Int32) (stream : ByteStream) (oracle : SetOracle) :
    ℕ → Checked (World (IntSet R)) (ByteStream × SetOracle)
  | 0 | 1 | 2 => do
      let a ← on tested (emplaceImpl key)
      Checked.check (a.2 == (oracle.count key == 0)) "insert insertedness mismatch"
      pure (stream, oracle.after (.put key))
  | 3 => do
      let a ← on tested (emplaceImpl key)
      Checked.check (a.2 == (oracle.count key == 0)) "emplace insertedness mismatch"
      pure (stream, oracle.after (.put key))
  | 4 | 5 => do
      let n ← on tested (eraseKey key)
      Checked.check (n == oracle.count key) "erase count mismatch"
      pure (stream, oracle.after (.erase [key]))
  | 6 => do
      let it ← on tested (find key)
      if it = kNullIndex then
        pure (stream, oracle)
      else do
        let _ ← on tested (eraseAt it)
        pure (stream, oracle.after (.erase [key]))
  | 7 => do
      let contained ← on tested (contains key)
      Checked.check (contained == (oracle.count key != 0)) "containment mismatch"
      pure (stream, oracle)
  | 8 => do
      let request := stream.nextU32
      on tested (rehash (request.1.toNat % 4096))
      pure (request.2, oracle)
  | 9 => do
      extractRoundTrip tested key (oracle.count key)
      pure (stream, oracle)
  | 10 => do
      copyRoundTrip setEquals tested
      pure (stream, oracle)
  | 11 => do
      swapRoundTrip hash (fun a b : Int32 => a == b) (fun other => do
        let _ ← on other (emplaceImpl key)
        pure ()) tested
      pure (stream, oracle)
  | _ => pure (stream, oracle)

/-- `apply_one_operation`. SOURCE: differential_fuzz_set.cpp:72-147 -/
def applyOneOperation (stream : ByteStream) (oracle : SetOracle) :
    Checked (World (IntSet R)) (Option (ByteStream × SetOracle)) :=
  if stream.exhausted then
    pure none
  else do
    let opcode := stream.nextByte
    let key := opcode.2.nextU32
    let r ← applyOpcode hash tested (decodeKey key.1) key.2 oracle (opcode.1.toNat % 12)
    checkOperation tested (decodeKey key.1) r.2.length (r.2.count (decodeKey key.1))
    pure (some r)

/-- `run_operations`, for the order in which the other set is iterated after each number of
operations. SOURCE: differential_fuzz_set.cpp:149-159 -/
def runOperations (visited : ℕ → SetOracle → SetOracle) (data : List UInt8) :
    Checked (World (IntSet R)) ℕ :=
  Model.runOperations hash (fun a b : Int32 => a == b) [] (applyOneOperation hash)
    (fun tested operations oracle => fullCrossCheck tested (visited operations oracle) oracle) data

end SetFuzzer

end Fum.Model

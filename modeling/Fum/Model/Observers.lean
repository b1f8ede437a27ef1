import Fum.Model.World

/-!
# Looking at tables

The bucket interface with its local iterators, the load factor, the comparison of two
containers and the key of a node handle.
SOURCE: hash_table.hpp:208-280, 1011-1046, 1136-1140; unordered_map.hpp:167-183,
unordered_set.hpp:79-92
-/

set_option autoImplicit false

namespace Fum.Model

open Effects

variable {τ : Traits}

/-! ## The bucket interface -/

/-- `home_bucket_of`. SOURCE: hash_table.hpp:326-328 -/
def homeBucketOf (node : ℕ) : Exec τ ℕ := do
  let key ← keyAt node
  let hash ← callMixedHash key
  let t ← getTable
  pure (t.homeFromHash hash)

/-- `bucket(key)`. SOURCE: hash_table.hpp:1020-1022 -/
def bucket (key : τ.Key) : Exec τ ℕ := do
  let t ← getTable
  if t.bucketCount = 0 then
    pure 0
  else do
    let hash ← callMixedHash key
    pure (t.homeFromHash hash)

/-- The loop of `bucket_size`. -/
def bucketSizeLoop (n : ℕ) : List ℕ → ℕ → Exec τ ℕ
  | [], total => pure total
  | node :: rest, total => do
      let home ← homeBucketOf node
      bucketSizeLoop n rest (if home = n then total + 1 else total)

/-- `bucket_size(n)`. SOURCE: hash_table.hpp:1013-1019 -/
def bucketSize (n : ℕ) : Exec τ ℕ := do
  let t ← getTable
  bucketSizeLoop n t.iteration 0

/-- `basic_local_iterator` of a table: `home_bucket_` and `position_`.
SOURCE: hash_table.hpp:212-219 -/
structure LocalIterator where
  homeBucket : ℕ
  position : ℕ
  deriving DecidableEq, Repr

/-- The loop of `advance_to_match` over what lies from `position` on. -/
def advanceLoop (homeBucket : ℕ) : List ℕ → ℕ → Exec τ ℕ
  | [], position => pure position
  | node :: rest, position => do
      let home ← homeBucketOf node
      if home ≠ homeBucket then advanceLoop homeBucket rest (position + 1) else pure position

/-- `advance_to_match`. SOURCE: hash_table.hpp:227-233 -/
def advanceToMatch (it : LocalIterator) : Exec τ LocalIterator := do
  let t ← getTable
  let position ← advanceLoop it.homeBucket (t.iteration.drop it.position) it.position
  pure { it with position := position }

/-- `begin(n)`. SOURCE: hash_table.hpp:1023 -/
def beginLocal (n : ℕ) : Exec τ LocalIterator := advanceToMatch ⟨n, 0⟩

/-- `end(n)`. SOURCE: hash_table.hpp:1030-1032 -/
def endLocal (n : ℕ) : Exec τ LocalIterator := do
  let t ← getTable
  advanceToMatch ⟨n, t.size⟩

/-- `basic_local_iterator::operator++`. SOURCE: hash_table.hpp:261-265 -/
def nextLocal (it : LocalIterator) : Exec τ LocalIterator :=
  advanceToMatch { it with position := it.position + 1 }

/-- The node that a local iterator designates. SOURCE: hash_table.hpp:254-259 -/
def nodeOfLocal (it : LocalIterator) : Exec τ ℕ := do
  let t ← getTable
  match t.iteration[it.position]? with
  | none => Action.undefined
  | some node => do
      let _ ← elementAt node
      pure node

/-- The nodes from `it` up to `last`, by repeated `++`; two local iterators are equal when
their positions are. SOURCE: hash_table.hpp:272-275 -/
def localRangeLoop : ℕ → LocalIterator → LocalIterator → Exec τ (List ℕ)
  | 0, _, _ => Action.diverge
  | fuel + 1, it, last =>
      if it.position = last.position then
        pure []
      else do
        let node ← nodeOfLocal it
        let following ← nextLocal it
        let rest ← localRangeLoop fuel following last
        pure (node :: rest)

/-- The nodes from `begin(n)` to `end(n)`. -/
def localRange (n : ℕ) : Exec τ (List ℕ) := do
  let first ← beginLocal n
  let last ← endLocal n
  localRangeLoop (kNullIndex + 1) first last

/-! ## The load factor -/

/-- `load_factor`. SOURCE: hash_table.hpp:1042-1046 -/
def Table.loadFactor (t : Table τ) : ℚ :=
  if t.bucketCount = 0 then 0
  else τ.rounding.round (τ.rounding.round t.size / τ.rounding.round t.bucketCount)

/-! ## Comparison -/

/-- The loop of `operator==` over nodes of `lhs`, with the check that an element of it has
its counterpart in `rhs`. -/
def equalsLoop (lhs : ℕ) (check : τ.Value → Action (World τ) Bool) :
    List ℕ → Action (World τ) Bool
  | [] => pure true
  | node :: rest => do
      let element ← onTable lhs (elementAt node)
      let same ← check element.value
      if same then equalsLoop lhs check rest else pure false

/-- The sizes, and then the elements of `lhs` from `begin()` to `end()`. -/
def equals (lhs rhs : ℕ) (check : τ.Value → Action (World τ) Bool) : Action (World τ) Bool := do
  let a ← readTable lhs
  let b ← readTable rhs
  if a.size ≠ b.size then
    pure false
  else
    match a.traversal with
    | none => Action.undefined
    | some nodes => equalsLoop lhs check nodes

/-- The loop body of `operator==` of maps, for the `==` of mapped values: the key is found
in `rhs` with an equal mapped value. SOURCE: unordered_map.hpp:171-173 -/
def holdsEntry (sameMapped : τ.Mapped → τ.Mapped → Bool) (rhs : ℕ) (value : τ.Value) :
    Action (World τ) Bool := do
  let it ← onTable rhs (find (τ.keyOf value))
  if it = kNullIndex then
    pure false
  else do
    let found ← onTable rhs (elementAt it)
    pure (sameMapped (τ.mappedOf found.value) (τ.mappedOf value))

/-- The loop body of `operator==` of sets. SOURCE: unordered_set.hpp:83-85 -/
def holdsKey (rhs : ℕ) (value : τ.Value) : Action (World τ) Bool :=
  onTable rhs (contains (τ.keyOf value))

/-- `operator==` of maps. SOURCE: unordered_map.hpp:167-176 -/
def mapEquals (sameMapped : τ.Mapped → τ.Mapped → Bool) (lhs rhs : ℕ) :
    Action (World τ) Bool :=
  equals lhs rhs (holdsEntry sameMapped rhs)

/-- `operator==` of sets. SOURCE: unordered_set.hpp:79-87 -/
def setEquals (lhs rhs : ℕ) : Action (World τ) Bool := equals lhs rhs (holdsKey rhs)

/-! ## The key of a node handle -/

/-- A write through the reference that `key()` returns. -/
def Handle.setKey (handle : Handle τ) (key : τ.Key) : Handle τ :=
  { handle with
    value := handle.value.map fun cell =>
      { cell with
        element := { cell.element with
          value := τ.makeValue key (τ.mappedOf cell.element.value) } } }

/-- `handle.key() = key`, undefined for an empty handle. SOURCE: hash_table.hpp:1136-1140 -/
def writeKey (h : ℕ) (key : τ.Key) : Action (World τ) Unit := do
  let handle ← readHandle h
  match handle.value with
  | none => Action.undefined
  | some _ => Action.modify fun w => w.setHandle h (some (handle.setKey key))

end Fum.Model

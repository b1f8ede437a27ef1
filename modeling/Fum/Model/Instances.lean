import Fum.Model.World

/-!
# Maps and sets

The two instances of the engine, over `std::allocator`, and a program's first table.
SOURCE: unordered_map.hpp:50-69, unordered_set.hpp:30-42
-/

set_option autoImplicit false

namespace Fum.Model

open RoundedArithmetic

/-- `map_traits` for a hasher that is avalanching or not; a moved-from value is what
`movedFrom` says. -/
@[reducible] def mapTraits (K T : Type) (isAvalanching : Bool) (R : Rounding)
    (movedFrom : T → T) : Traits where
  Key := K
  Mapped := T
  Value := K × T
  Alloc := Unit
  keyOf := Prod.fst
  mappedOf := Prod.snd
  makeValue := Prod.mk
  assignMapped value mapped := (value.1, mapped)
  movedFrom value := (value.1, movedFrom value.2)
  isAvalanching := isAvalanching
  rounding := R
  allocEq := inferInstance
  defaultAlloc := ()
  selectOnCopy := id
  pocca := false
  pocma := true
  pocs := false
  movedVectorEmpty := false
  keyOf_makeValue _ _ := rfl
  keyOf_assignMapped _ _ := rfl
  mappedOf_makeValue _ _ := rfl
  mappedOf_assignMapped _ _ := rfl

/-- `set_traits`: a value is its key, and there is nothing mapped. -/
@[reducible] def setTraits (K : Type) (isAvalanching : Bool) (R : Rounding)
    (movedFrom : K → K) : Traits where
  Key := K
  Mapped := Unit
  Value := K
  Alloc := Unit
  keyOf := id
  mappedOf _ := ()
  makeValue key _ := key
  assignMapped value _ := value
  movedFrom := movedFrom
  isAvalanching := isAvalanching
  rounding := R
  allocEq := inferInstance
  defaultAlloc := ()
  selectOnCopy := id
  pocca := false
  pocma := true
  pocs := false
  movedVectorEmpty := false
  keyOf_makeValue _ _ := rfl
  keyOf_assignMapped _ _ := rfl
  mappedOf_makeValue _ _ := rfl
  mappedOf_assignMapped _ _ := rfl

/-- A map of naturals to naturals whose values survive a move, as integers do. -/
abbrev NatMap : Traits := mapTraits ℕ ℕ false .exact id

/-- The same map over allocators that are equal when their numbers are, with the given
propagation. -/
abbrev CountedMap (pocca pocma pocs : Bool) : Traits :=
  { NatMap with
    Alloc := ℕ
    allocEq := inferInstance
    defaultAlloc := 0
    selectOnCopy := id
    pocca := pocca
    pocma := pocma
    pocs := pocs }

end Fum.Model

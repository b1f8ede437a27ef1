import Fum.Analysis.Lifetime
import Fum.Base.Conservation

/-!
# Who owns what

The identities that a table, a node handle or anybody else answers for, and the
judgement `Sound`: the slots of a table are in order, its elements sit in exactly the
listed ones, and the memory has handed out what the table and the others own, no more
and no less.
-/

set_option autoImplicit false

namespace Fum.Analysis

open Fum.Model Effects Conservation

variable {τ : Traits}

/-! ## Holdings -/

/-- Elements, arena chunks, bucket arrays and handle cells, by identity. -/
@[ext] structure Holdings where
  elements : Multiset ℕ
  chunks : Multiset ℕ
  arrays : Multiset ℕ
  cells : Multiset ℕ

namespace Holdings

instance : Zero Holdings := ⟨⟨0, 0, 0, 0⟩⟩

instance : Add Holdings :=
  ⟨fun a b => ⟨a.elements + b.elements, a.chunks + b.chunks, a.arrays + b.arrays,
    a.cells + b.cells⟩⟩

instance : AddCommMonoid Holdings where
  add_assoc a b c := Holdings.ext (add_assoc ..) (add_assoc ..) (add_assoc ..) (add_assoc ..)
  zero_add a := Holdings.ext (zero_add _) (zero_add _) (zero_add _) (zero_add _)
  add_zero a := Holdings.ext (add_zero _) (add_zero _) (add_zero _) (add_zero _)
  add_comm a b := Holdings.ext (add_comm ..) (add_comm ..) (add_comm ..) (add_comm ..)
  nsmul := nsmulRec

@[simp] theorem add_elements (a b : Holdings) : (a + b).elements = a.elements + b.elements := rfl

@[simp] theorem add_chunks (a b : Holdings) : (a + b).chunks = a.chunks + b.chunks := rfl

@[simp] theorem add_arrays (a b : Holdings) : (a + b).arrays = a.arrays + b.arrays := rfl

@[simp] theorem add_cells (a b : Holdings) : (a + b).cells = a.cells + b.cells := rfl

/-- One element. -/
def element (id : ℕ) : Holdings := ⟨{id}, 0, 0, 0⟩

/-- One arena chunk. -/
def chunk (id : ℕ) : Holdings := ⟨0, {id}, 0, 0⟩

/-- One bucket array. -/
def array (id : ℕ) : Holdings := ⟨0, 0, {id}, 0⟩

/-- One handle cell. -/
def cell (id : ℕ) : Holdings := ⟨0, 0, 0, {id}⟩

end Holdings

/-- The heap after the allocation of a bucket array. -/
def withArray (h : Heap) : Heap :=
  { h with nextId := h.nextId + 1, arrays := h.arrays.acquire h.nextId }

/-- The heap after the allocation of a handle cell. -/
def withCell (h : Heap) : Heap :=
  { h with nextId := h.nextId + 1, cells := h.cells.acquire h.nextId }

/-- The memory answers for exactly these holdings. -/
structure Balanced (h : Heap) (held : Holdings) : Prop where
  elements : Settled h.nextId h.elements.opened h.elements.closed held.elements
  chunks : Settled h.nextId h.chunks.opened h.chunks.closed held.chunks
  arrays : Settled h.nextId h.arrays.opened h.arrays.closed held.arrays
  cells : Settled h.nextId h.cells.opened h.cells.closed held.cells

namespace Balanced

variable {h : Heap} {held : Holdings}

theorem withFault (hb : Balanced h held) (f : Option (Point × ℕ)) :
    Balanced (withFault h f) held := ⟨hb.1, hb.2, hb.3, hb.4⟩

theorem withElement (hb : Balanced h held) :
    Balanced (withElement h) (held + .element h.nextId) where
  elements := hb.elements.acquire
  chunks := hb.chunks.keep (Nat.le_succ _)
  arrays := hb.arrays.keep (Nat.le_succ _)
  cells := hb.cells.keep (Nat.le_succ _)

theorem withoutElement {e : Element τ} (hb : Balanced h (held + .element e.serial)) :
    Balanced (withoutElement h e) held where
  elements := hb.elements.giveBack
  chunks := hb.chunks.spare
  arrays := hb.arrays.spare
  cells := hb.cells.spare

theorem withChunk (hb : Balanced h held) : Balanced (withChunk h) (held + .chunk h.nextId) where
  elements := hb.elements.keep (Nat.le_succ _)
  chunks := hb.chunks.acquire
  arrays := hb.arrays.keep (Nat.le_succ _)
  cells := hb.cells.keep (Nat.le_succ _)

theorem withoutChunk {id : ℕ} (hb : Balanced h (held + .chunk id)) :
    Balanced { h with chunks := h.chunks.giveBack id } held where
  elements := hb.elements.spare
  chunks := hb.chunks.giveBack
  arrays := hb.arrays.spare
  cells := hb.cells.spare

theorem withArray (hb : Balanced h held) : Balanced (withArray h) (held + .array h.nextId) where
  elements := hb.elements.keep (Nat.le_succ _)
  chunks := hb.chunks.keep (Nat.le_succ _)
  arrays := hb.arrays.acquire
  cells := hb.cells.keep (Nat.le_succ _)

theorem withoutArray {id : ℕ} (hb : Balanced h (held + .array id)) :
    Balanced { h with arrays := h.arrays.giveBack id } held where
  elements := hb.elements.spare
  chunks := hb.chunks.spare
  arrays := hb.arrays.giveBack
  cells := hb.cells.spare

theorem withCell (hb : Balanced h held) : Balanced (withCell h) (held + .cell h.nextId) where
  elements := hb.elements.keep (Nat.le_succ _)
  chunks := hb.chunks.keep (Nat.le_succ _)
  arrays := hb.arrays.keep (Nat.le_succ _)
  cells := hb.cells.acquire

theorem withoutCell {id : ℕ} (hb : Balanced h (held + .cell id)) :
    Balanced { h with cells := h.cells.giveBack id } held where
  elements := hb.elements.spare
  chunks := hb.chunks.spare
  arrays := hb.arrays.spare
  cells := hb.cells.giveBack

/-- The record of rehashes is not an account. -/
theorem withRehash (hb : Balanced h held) (n : List (ℕ × ℕ)) :
    Balanced { h with rehashes := n } held := ⟨hb.1, hb.2, hb.3, hb.4⟩

end Balanced

/-! ## What a table owns -/

/-- The elements in the slots of `l`. -/
def elementIds (t : Table τ) (l : List ℕ) : List ℕ :=
  l.filterMap fun i => (t.nodeAt i).storage.map Element.serial

/-- The identity of the bucket array. -/
def arrayIds (t : Table τ) : List ℕ := (t.buckets.map BucketArray.id).toList

/-- What a table answers for whose elements are in the slots of `l`. -/
def owns (t : Table τ) (l : List ℕ) : Holdings :=
  ⟨elementIds t l, chunkIds t, arrayIds t, 0⟩

variable {t t' : Table τ} {l l' : List ℕ} {i : ℕ}

theorem owns_congr (hs : ∀ i ∈ l, (t'.nodeAt i).storage = (t.nodeAt i).storage)
    (hc : chunkIds t' = chunkIds t) (ha : arrayIds t' = arrayIds t) : owns t' l = owns t l := by
  have he : elementIds t' l = elementIds t l := by
    unfold elementIds
    exact List.filterMap_congr fun i hi => by rw [hs i hi]
  unfold owns
  rw [he, hc, ha]

theorem owns_perm (h : l.Perm l') : owns t l = owns t l' := by
  have he : (elementIds t l).Perm (elementIds t l') := h.filterMap _
  unfold owns
  rw [Multiset.coe_eq_coe.mpr he]

theorem owns_append_singleton {e : Element τ} (he : (t.nodeAt i).storage = some e) :
    owns t (l ++ [i]) = owns t l + .element e.serial := by
  ext1
  · show ((elementIds t (l ++ [i]) : List ℕ) : Multiset ℕ) = ↑(elementIds t l) + {e.serial}
    unfold elementIds
    rw [List.filterMap_append, ← Multiset.coe_add]
    simp [he]
  · simp [owns, Holdings.element]
  · simp [owns, Holdings.element]
  · simp [owns, Holdings.element]

/-- A new chunk is one more that the table answers for. -/
theorem owns_append_chunk {id : ℕ} (hs : ∀ i ∈ l, (t'.nodeAt i).storage = (t.nodeAt i).storage)
    (hc : chunkIds t' = chunkIds t ++ [id]) (ha : arrayIds t' = arrayIds t) :
    owns t' l = owns t l + .chunk id := by
  have he : elementIds t' l = elementIds t l := by
    unfold elementIds
    exact List.filterMap_congr fun i hi => by rw [hs i hi]
  ext1
  · show ((elementIds t' l : List ℕ) : Multiset ℕ) = _
    rw [he]
    exact (add_zero _).symm
  · show ((chunkIds t' : List ℕ) : Multiset ℕ) = ↑(chunkIds t) + {id}
    rw [hc, ← Multiset.coe_add]
    rfl
  · show ((arrayIds t' : List ℕ) : Multiset ℕ) = _
    rw [ha]
    exact (add_zero _).symm
  · exact (add_zero _).symm

theorem SameIndex.arrayIds (h : SameIndex t t') : arrayIds t' = arrayIds t := by
  unfold Analysis.arrayIds
  rw [h.buckets]

theorem SameArena.owns (h : SameArena t t') (ha : Analysis.arrayIds t' = Analysis.arrayIds t) :
    Analysis.owns t' l = Analysis.owns t l :=
  owns_congr (fun i _ => by rw [h.nodeAt]) h.chunkIds ha

/-! ## The judgement -/

/-- The slots are in order but for those in `pending`, the elements are in the slots of
`l`, and the memory answers for the table and for `others`. -/
structure Sound (others : Holdings) (pending l : List ℕ) (s : Store τ) : Prop where
  slots : Slots s.table pending
  filled : Filled s.table l
  balanced : Balanced s.heap (owns s.table l + others)

/-- Sound with nothing in hand. -/
abbrev SoundTable (others : Holdings) (s : Store τ) : Prop :=
  Sound others [] s.table.iteration s

/-- What an exception at `point` can lose: the chunk for which `chunks_` failed to grow. -/
def LostAt (point : Option Point) (lost : Holdings) : Prop :=
  lost = 0 ∨ point = some .chunksGrowth ∧ ∃ id, lost = .chunk id

theorem LostAt.eq_zero {point : Option Point} {lost : Holdings} (h : LostAt point lost)
    (hpoint : point ≠ some .chunksGrowth) : lost = 0 :=
  h.resolve_right fun h' => hpoint h'.1

/-- How a member function leaves a sound table when it throws at `point`: sound but for what is
lost there. -/
def SoundThrown (others : Holdings) (point : Option Point) (s' : Store τ) : Prop :=
  ∃ lost, SoundTable (others + lost) s' ∧ LostAt point lost

theorem SoundTable.thrown {others : Holdings} {s : Store τ} (h : SoundTable others s)
    (point : Option Point) : SoundThrown others point s :=
  ⟨0, by rwa [add_zero], Or.inl rfl⟩

/-- No call of a user function throws. -/
def CallsReturn (fault : Option (Point × ℕ)) : Prop :=
  faultPoint fault ≠ some .hash ∧ faultPoint fault ≠ some .equal

theorem CallsReturn.of_point {fault fault' : Option (Point × ℕ)} (h : CallsReturn fault)
    (hpoint : faultPoint fault' = faultPoint fault) : CallsReturn fault' := by
  unfold CallsReturn
  rwa [hpoint]

variable {others : Holdings} {s : Store τ} {U : Stuck → Prop}

/-- What leaves the elements and the identities of the memory alone keeps a table sound, if it
keeps the slots in order. -/
theorem Sound.sameStorage {pending pending' : List ℕ} (h : Sound others pending l s)
    (hslots : Slots t' pending') (hs : ∀ j, (t'.nodeAt j).storage = (s.table.nodeAt j).storage)
    (hc : chunkIds t' = chunkIds s.table) (ha : arrayIds t' = arrayIds s.table)
    (fault : Option (Point × ℕ)) :
    Sound others pending' l ⟨t', Analysis.withFault s.heap fault⟩ where
  slots := hslots
  filled := h.filled.congr fun j => congrArg Option.isSome (hs j)
  balanced := by
    have howns : owns t' l = owns s.table l := owns_congr (fun j _ => hs j) hc ha
    have hbal := h.balanced.withFault fault
    rw [← howns] at hbal
    exact hbal

/-- Functions that leave the arena alone and only count down the fault keep a table
sound, if they keep the identity of the bucket array. -/
theorem Sound.sameArena {pending : List ℕ} {s' : Store τ} (h : Sound others pending l s)
    (ha : SameArena s.table s'.table) (hids : arrayIds s'.table = arrayIds s.table)
    (hheap : ∃ f, s'.heap = Analysis.withFault s.heap f) : Sound others pending l s' where
  slots := ha.slots h.slots
  filled := ha.filled h.filled
  balanced := by
    obtain ⟨f, hf⟩ := hheap
    rw [hf, ha.owns hids]
    exact h.balanced.withFault f

end Fum.Analysis

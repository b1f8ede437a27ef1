import Fum.Analysis.Rules
import Fum.Base.SwapRemove

/-!
# The arena and the iteration vector

`Slots` is the invariant of the node lifetime functions: every slot below the
high-water mark is live, free or in the hands of the operation in progress, and the
one field `aux` is read as an iteration position exactly in live slots and as a link
exactly in free ones. `Filled` says which slots hold an element. The bucket array plays
no part here.
-/

set_option autoImplicit false

namespace Fum.Analysis

open Fum.Model Effects SwapRemove

variable {τ : Traits}

/-! ## Nodes -/

theorem div_mod_eq {i j : ℕ} (hdiv : i / kChunkSize = j / kChunkSize)
    (hmod : i % kChunkSize = j % kChunkSize) : i = j := by
  rw [← Nat.div_add_mod i kChunkSize, ← Nat.div_add_mod j kChunkSize, hdiv, hmod]

/-- A write to a slot of the arena is read back. -/
theorem nodeAt_setNode_self {t : Table τ} {i : ℕ} (node : Node τ) (hi : i < t.arenaSize) :
    (t.setNode i node).nodeAt i = node := by
  have hdiv : i / kChunkSize < t.chunks.length := by
    unfold Table.arenaSize at hi
    exact Nat.div_lt_of_lt_mul (by rwa [Nat.mul_comm] at hi)
  simp only [Table.nodeAt, Table.setNode]
  rw [List.getElem?_modify_eq, List.getElem?_eq_getElem hdiv]
  simp

/-- A write to a slot leaves the other slots alone. -/
theorem nodeAt_setNode_of_ne (t : Table τ) {i j : ℕ} (node : Node τ) (hne : j ≠ i) :
    (t.setNode i node).nodeAt j = t.nodeAt j := by
  simp only [Table.nodeAt, Table.setNode]
  by_cases hdiv : i / kChunkSize = j / kChunkSize
  · rw [hdiv, List.getElem?_modify_eq]
    cases hc : t.chunks[j / kChunkSize]? with
    | none => simp
    | some chunk =>
        have hmod : j % kChunkSize ≠ i % kChunkSize := fun h => hne (div_mod_eq hdiv.symm h)
        simp [Function.update_of_ne hmod]
  · rw [List.getElem?_modify_ne _ _ hdiv]

/-- A node beyond the chunks is raw storage. -/
theorem nodeAt_of_arenaSize_le {t : Table τ} {i : ℕ} (hi : t.arenaSize ≤ i) :
    t.nodeAt i = Node.raw := by
  have hdiv : t.chunks.length ≤ i / kChunkSize := by
    rw [Nat.le_div_iff_mul_le (by decide)]
    exact hi
  simp [Table.nodeAt, List.getElem?_eq_none hdiv]

/-- A node that holds an element lies in a chunk. -/
theorem lt_arenaSize_of_isSome {t : Table τ} {i : ℕ} (h : (t.nodeAt i).storage.isSome) :
    i < t.arenaSize := by
  by_contra hge
  rw [nodeAt_of_arenaSize_le (not_lt.mp hge)] at h
  simp [Node.raw] at h

/-- A fresh chunk changes no node. -/
theorem nodeAt_append_raw (t : Table τ) (chunk : Chunk τ) (hraw : ∀ i, chunk.nodes i = Node.raw)
    (i : ℕ) : ({ t with chunks := t.chunks ++ [chunk] } : Table τ).nodeAt i = t.nodeAt i := by
  simp only [Table.nodeAt]
  rcases Nat.lt_trichotomy (i / kChunkSize) t.chunks.length with hlt | heq | hgt
  · rw [List.getElem?_append_left hlt]
  · rw [heq, List.getElem?_concat_length, List.getElem?_eq_none (by omega)]
    exact hraw _
  · rw [List.getElem?_eq_none (by simp; omega), List.getElem?_eq_none (by omega)]

/-- The identities of the chunks. -/
def chunkIds (t : Table τ) : List ℕ := t.chunks.map Chunk.id

/-! ## What a function leaves alone -/

/-- The index and its size are untouched. -/
structure SameIndex (t t' : Table τ) : Prop where
  buckets : t'.buckets = t.buckets
  bucketCount : t'.bucketCount = t.bucketCount
  maxLoadCapacity : t'.maxLoadCapacity = t.maxLoadCapacity
  bucketShift : t'.bucketShift = t.bucketShift

/-- The load factor, the functors and the allocator are untouched. -/
structure SamePolicy (t t' : Table τ) : Prop where
  maxLoadFactor : t'.maxLoadFactor = t.maxLoadFactor
  hashFunction : t'.hashFunction = t.hashFunction
  keyEqual : t'.keyEqual = t.keyEqual
  allocator : t'.allocator = t.allocator

/-- The arena and the iteration vector are untouched. -/
structure SameArena (t t' : Table τ) : Prop where
  chunks : t'.chunks = t.chunks
  arenaHighWater : t'.arenaHighWater = t.arenaHighWater
  freeListHead : t'.freeListHead = t.freeListHead
  iteration : t'.iteration = t.iteration

theorem SameIndex.refl (t : Table τ) : SameIndex t t := ⟨rfl, rfl, rfl, rfl⟩

theorem SamePolicy.refl (t : Table τ) : SamePolicy t t := ⟨rfl, rfl, rfl, rfl⟩

theorem SameArena.refl (t : Table τ) : SameArena t t := ⟨rfl, rfl, rfl, rfl⟩

variable {t t' t'' : Table τ}

theorem SameIndex.trans (h : SameIndex t t') (h' : SameIndex t' t'') : SameIndex t t'' :=
  ⟨h'.1.trans h.1, h'.2.trans h.2, h'.3.trans h.3, h'.4.trans h.4⟩

theorem SamePolicy.trans (h : SamePolicy t t') (h' : SamePolicy t' t'') : SamePolicy t t'' :=
  ⟨h'.1.trans h.1, h'.2.trans h.2, h'.3.trans h.3, h'.4.trans h.4⟩

theorem SameArena.trans (h : SameArena t t') (h' : SameArena t' t'') : SameArena t t'' :=
  ⟨h'.1.trans h.1, h'.2.trans h.2, h'.3.trans h.3, h'.4.trans h.4⟩

theorem SamePolicy.mixedHash (h : SamePolicy t t') (key : τ.Key) :
    t'.mixedHash key = t.mixedHash key := by
  unfold Table.mixedHash
  rw [h.hashFunction]

theorem SameArena.nodeAt (h : SameArena t t') (i : ℕ) : t'.nodeAt i = t.nodeAt i := by
  unfold Table.nodeAt
  rw [h.chunks]

theorem SameArena.arenaSize (h : SameArena t t') : t'.arenaSize = t.arenaSize := by
  unfold Table.arenaSize
  rw [h.chunks]

theorem SameArena.chunkIds (h : SameArena t t') : chunkIds t' = chunkIds t := by
  unfold Analysis.chunkIds
  rw [h.chunks]

@[simp] theorem arenaSize_setNode (t : Table τ) (i : ℕ) (node : Node τ) :
    (t.setNode i node).arenaSize = t.arenaSize := by
  simp [Table.arenaSize, Table.setNode]

@[simp] theorem chunkIds_setNode (t : Table τ) (i : ℕ) (node : Node τ) :
    chunkIds (t.setNode i node) = chunkIds t := by
  unfold chunkIds Table.setNode
  apply List.ext_getElem?
  intro j
  simp only [List.getElem?_map]
  by_cases h : i / kChunkSize = j
  · rw [h, List.getElem?_modify_eq]
    cases t.chunks[j]? <;> rfl
  · rw [List.getElem?_modify_ne _ _ h]

/-! ## The invariant -/

/-- The link field of a node. -/
def link (t : Table τ) (i : ℕ) : ℕ := (t.nodeAt i).aux

/-- A free list from `head`: linked through `next`, ended by `kNullIndex`. -/
def FreeList (next : ℕ → ℕ) : ℕ → List ℕ → Prop
  | head, [] => head = kNullIndex
  | head, i :: rest => head = i ∧ FreeList next (next i) rest

/-- A free list reads only the links of its own slots. -/
theorem FreeList.congr {next next' : ℕ → ℕ} {free : List ℕ} (h : ∀ i ∈ free, next' i = next i) :
    ∀ {head : ℕ}, FreeList next head free → FreeList next' head free := by
  induction free with
  | nil => exact fun hf => hf
  | cons i rest ih =>
      intro head hf
      refine ⟨hf.1, ?_⟩
      rw [h i (by simp)]
      exact ih (fun j hj => h j (by simp [hj])) hf.2

/-- The slots of the arena, of which those in `pending` are in the hands of the
operation in progress. -/
structure Slots (t : Table τ) (pending : List ℕ) : Prop where
  split : ∃ free, FreeList (link t) t.freeListHead free ∧
    (t.iteration ++ free ++ pending).Perm (List.range t.arenaHighWater)
  bounded : t.arenaHighWater ≤ kNullIndex
  covered : t.arenaHighWater ≤ t.arenaSize
  position : ∀ i j : ℕ, t.iteration[i]? = some j → (t.nodeAt j).aux = i

/-- The slots in `l`, and no others, hold an element. -/
def Filled (t : Table τ) (l : List ℕ) : Prop := ∀ i, (t.nodeAt i).storage.isSome ↔ i ∈ l

variable {pending : List ℕ} {i : ℕ}

theorem Slots.nodup (h : Slots t pending) : (t.iteration ++ pending).Nodup := by
  obtain ⟨free, -, hperm⟩ := h.split
  have hall : (t.iteration ++ free ++ pending).Nodup := hperm.nodup_iff.mpr List.nodup_range
  refine hall.sublist ?_
  rw [List.append_assoc]
  exact (List.sublist_append_right _ _).append_left _

theorem Slots.iteration_nodup (h : Slots t pending) : t.iteration.Nodup :=
  (List.nodup_append.mp h.nodup).1

theorem Slots.lt_highWater (h : Slots t pending) (hi : i ∈ t.iteration ∨ i ∈ pending) :
    i < t.arenaHighWater := by
  obtain ⟨free, -, hperm⟩ := h.split
  have hmem : i ∈ t.iteration ++ free ++ pending := by
    rcases hi with hi | hi <;> simp [hi]
  exact List.mem_range.mp (hperm.mem_iff.mp hmem)

theorem Slots.lt_arenaSize (h : Slots t pending) (hi : i ∈ t.iteration ∨ i ∈ pending) :
    i < t.arenaSize :=
  Nat.lt_of_lt_of_le (h.lt_highWater hi) h.covered

theorem Slots.ne_null (h : Slots t pending) (hi : i ∈ t.iteration ∨ i ∈ pending) :
    i < kNullIndex :=
  Nat.lt_of_lt_of_le (h.lt_highWater hi) h.bounded

theorem Slots.not_mem (h : Slots t [i]) : i ∉ t.iteration := by
  intro hmem
  have hdisj := (List.nodup_append.mp h.nodup).2.2
  exact hdisj i hmem i (by simp) rfl

theorem Slots.size_le (h : Slots t pending) : t.size + pending.length ≤ t.arenaHighWater := by
  obtain ⟨free, -, hperm⟩ := h.split
  have hlen := hperm.length_eq
  simp only [List.length_append, List.length_range] at hlen
  unfold Table.size
  omega

/-- The slots depend on the link fields, the iteration vector and the three counters. -/
theorem Slots.congr (h : Slots t pending) (haux : ∀ j, (t'.nodeAt j).aux = (t.nodeAt j).aux)
    (hhead : t'.freeListHead = t.freeListHead) (hiter : t'.iteration = t.iteration)
    (hmark : t'.arenaHighWater = t.arenaHighWater) (hsize : t.arenaSize ≤ t'.arenaSize) :
    Slots t' pending where
  split := by
    obtain ⟨free, hfree, hperm⟩ := h.split
    rw [hhead, hiter, hmark]
    exact ⟨free, hfree.congr fun j _ => haux j, hperm⟩
  bounded := by
    rw [hmark]
    exact h.bounded
  covered := by
    rw [hmark]
    exact h.covered.trans hsize
  position := by
    simp only [hiter, haux]
    exact h.position

theorem SameArena.slots (h : SameArena t t') (hs : Slots t pending) : Slots t' pending :=
  hs.congr (fun j => by rw [h.nodeAt]) h.freeListHead h.iteration h.arenaHighWater
    h.arenaSize.ge

section

variable {l l' : List ℕ}

/-- The same slots hold elements. -/
theorem Filled.congr (h : Filled t l)
    (hs : ∀ j, (t'.nodeAt j).storage.isSome = (t.nodeAt j).storage.isSome) : Filled t' l := by
  intro j
  rw [hs]
  exact h j

/-- One slot more holds an element. -/
theorem Filled.occupy (h : Filled t l) (hi : (t'.nodeAt i).storage.isSome)
    (hs : ∀ j, j ≠ i → (t'.nodeAt j).storage = (t.nodeAt j).storage) : Filled t' (l ++ [i]) := by
  intro j
  by_cases hj : j = i
  · subst hj
    simp [hi]
  · rw [hs j hj, h j]
    simp [hj]

/-- One slot does not hold an element any more. -/
theorem Filled.vacate (h : Filled t l) (hi : (t'.nodeAt i).storage = none)
    (hs : ∀ j, j ≠ i → (t'.nodeAt j).storage = (t.nodeAt j).storage)
    (hl : ∀ j, j ∈ l' ↔ j ∈ l ∧ j ≠ i) : Filled t' l' := by
  intro j
  rw [hl]
  by_cases hj : j = i
  · subst hj
    simp [hi]
  · rw [hs j hj, h j]
    simp [hj]

theorem SameArena.filled (h : SameArena t t') (hf : Filled t l) : Filled t' l := by
  apply hf.congr
  intro j
  rw [h.nodeAt]

end

/-! ## Taking and giving back a slot -/

/-- A head of the free list that is not null is a free slot, and the rest of the list
hangs on its link. -/
theorem Slots.pop (h : Slots t []) (hhead : t.freeListHead ≠ kNullIndex) :
    Slots { t with freeListHead := (t.nodeAt t.freeListHead).aux } [t.freeListHead] where
  split := by
    obtain ⟨free, hfree, hperm⟩ := h.split
    cases free with
    | nil => exact absurd hfree hhead
    | cons i rest =>
        obtain ⟨heq, hrest⟩ := hfree
        refine ⟨rest, ?_, ?_⟩
        · rw [heq]
          exact hrest
        · rw [heq]
          refine List.Perm.trans ?_ hperm
          simp only [List.append_nil, List.append_assoc]
          exact List.perm_append_singleton i rest |>.append_left _
  bounded := h.bounded
  covered := h.covered
  position := h.position

/-- With an empty free list, all slots below the mark are live. -/
theorem Slots.highWater_eq (h : Slots t []) (hhead : t.freeListHead = kNullIndex) :
    t.arenaHighWater = t.size := by
  obtain ⟨free, hfree, hperm⟩ := h.split
  cases free with
  | nil =>
      have hlen := hperm.length_eq
      simpa [Table.size] using hlen.symm
  | cons i rest =>
      exfalso
      have hmem : i ∈ t.iteration ++ (i :: rest) ++ [] := by simp
      have hlt := List.mem_range.mp (hperm.mem_iff.mp hmem)
      have hi : i = kNullIndex := hfree.1.symm.trans hhead
      have := h.bounded
      omega

/-- The slot at the mark is taken by raising the mark, which does not wrap below
`max_size`. -/
theorem Slots.bump (h : Slots t []) (hhead : t.freeListHead = kNullIndex)
    (hroom : t.arenaHighWater < t.arenaSize) (hmax : t.size ≤ maxSize) :
    Slots { t with arenaHighWater := wrap32 (t.arenaHighWater + 1) } [t.arenaHighWater] := by
  have hmark := h.highWater_eq hhead
  have hmaxSize : maxSize + 1 = kNullIndex := by decide
  have hnull : kNullIndex < 2 ^ 32 := by decide
  have hwrap : wrap32 (t.arenaHighWater + 1) = t.arenaHighWater + 1 :=
    Nat.mod_eq_of_lt (by omega)
  rw [hwrap]
  refine ⟨?_, by simp only; omega, hroom, h.position⟩
  obtain ⟨free, hfree, hperm⟩ := h.split
  refine ⟨free, hfree, ?_⟩
  rw [List.range_succ]
  rw [List.append_nil] at hperm
  exact hperm.append_right _

/-- Giving a slot back puts it at the head of the free list. -/
theorem Slots.release (h : Slots t [i]) : Slots (t.release i) [] := by
  have hin := h.lt_arenaSize (i := i) (Or.inr (by simp))
  have hnot := h.not_mem
  refine ⟨?_, h.bounded, ?_, ?_⟩
  · obtain ⟨free, hfree, hperm⟩ := h.split
    refine ⟨i :: free, ⟨rfl, ?_⟩, ?_⟩
    · have hself : link (t.release i) i = t.freeListHead := by
        show ((t.setNode i _).nodeAt i).aux = _
        rw [nodeAt_setNode_self _ hin]
      rw [hself]
      refine hfree.congr fun j hj => ?_
      have hne : j ≠ i := by
        rintro rfl
        have hall : (t.iteration ++ free ++ [j]).Nodup := hperm.nodup_iff.mpr List.nodup_range
        exact (List.nodup_append.mp hall).2.2 j (by simp [hj]) j (by simp) rfl
      show ((t.setNode i _).nodeAt j).aux = _
      rw [nodeAt_setNode_of_ne _ _ hne]
      rfl
    · refine List.Perm.trans ?_ hperm
      show (t.iteration ++ (i :: free) ++ []).Perm (t.iteration ++ free ++ [i])
      simp only [List.append_nil, List.append_assoc]
      exact (List.perm_append_singleton i free).symm.append_left _
  · show t.arenaHighWater ≤ (t.setNode i _).arenaSize
    rw [arenaSize_setNode]
    exact h.covered
  · intro p j hj
    have hne : j ≠ i := by
      rintro rfl
      exact hnot (List.mem_of_getElem? hj)
    show ((t.setNode i _).nodeAt j).aux = p
    rw [nodeAt_setNode_of_ne _ _ hne]
    exact h.position p j hj

/-- A write to the storage of a slot leaves its link field alone. -/
theorem aux_setStorage (t : Table τ) (i : ℕ) (storage : Option (Element τ)) (j : ℕ) :
    ((t.setStorage i storage).nodeAt j).aux = (t.nodeAt j).aux := by
  unfold Table.setStorage
  by_cases hj : j = i
  · subst hj
    by_cases hin : j < t.arenaSize
    · rw [nodeAt_setNode_self _ hin]
    · have hle := not_lt.mp hin
      rw [nodeAt_of_arenaSize_le hle,
        nodeAt_of_arenaSize_le (show (t.setNode j _).arenaSize ≤ j by rwa [arenaSize_setNode])]
  · rw [nodeAt_setNode_of_ne _ _ hj]

theorem Slots.setStorage (h : Slots t pending) (i : ℕ) (storage : Option (Element τ)) :
    Slots (t.setStorage i storage) pending :=
  h.congr (aux_setStorage t i storage) rfl rfl rfl (arenaSize_setNode ..).ge

theorem storage_setStorage_self (hi : i < t.arenaSize) (storage : Option (Element τ)) :
    ((t.setStorage i storage).nodeAt i).storage = storage := by
  unfold Table.setStorage
  rw [nodeAt_setNode_self _ hi]

theorem storage_setStorage_of_ne {j : ℕ} (hne : j ≠ i) (storage : Option (Element τ)) :
    ((t.setStorage i storage).nodeAt j).storage = (t.nodeAt j).storage := by
  unfold Table.setStorage
  rw [nodeAt_setNode_of_ne _ _ hne]

/-- A write to the link field of a slot leaves every storage alone. -/
theorem storage_setAux (t : Table τ) (i aux j : ℕ) :
    ((t.setAux i aux).nodeAt j).storage = (t.nodeAt j).storage := by
  unfold Table.setAux
  by_cases hj : j = i
  · subst hj
    by_cases hin : j < t.arenaSize
    · rw [nodeAt_setNode_self _ hin]
    · have hle := not_lt.mp hin
      rw [nodeAt_of_arenaSize_le hle,
        nodeAt_of_arenaSize_le (show (t.setNode j _).arenaSize ≤ j by rwa [arenaSize_setNode])]
  · rw [nodeAt_setNode_of_ne _ _ hj]

theorem storage_release (t : Table τ) (i j : ℕ) :
    ((t.release i).nodeAt j).storage = (t.nodeAt j).storage :=
  storage_setAux t i t.freeListHead j

theorem aux_setAux_self (hi : i < t.arenaSize) (aux : ℕ) :
    ((t.setAux i aux).nodeAt i).aux = aux := by
  unfold Table.setAux
  rw [nodeAt_setNode_self _ hi]

theorem aux_setAux_of_ne {j : ℕ} (hne : j ≠ i) (aux : ℕ) :
    ((t.setAux i aux).nodeAt j).aux = (t.nodeAt j).aux := by
  unfold Table.setAux
  rw [nodeAt_setNode_of_ne _ _ hne]

/-- An element in the place of another one. -/
theorem Filled.setStorage {l : List ℕ} {e : Element τ} (h : Filled t l)
    (he : (t.nodeAt i).storage = some e) (e' : Element τ) :
    Filled (t.setStorage i (some e')) l := by
  apply h.congr
  intro j
  by_cases hj : j = i
  · subst hj
    have hlive : (t.nodeAt j).storage.isSome := by simp [he]
    rw [storage_setStorage_self (lt_arenaSize_of_isSome hlive), he]
    rfl
  · rw [storage_setStorage_of_ne hj]

/-- The first of the elements has been destroyed. -/
theorem Filled.destroy {l : List ℕ} (h : Filled t (i :: l)) (hnodup : (i :: l).Nodup) :
    ∃ e, (t.nodeAt i).storage = some e ∧ Filled (t.setStorage i none) l := by
  have hlive : (t.nodeAt i).storage.isSome := (h i).mpr (by simp)
  obtain ⟨e, he⟩ := Option.isSome_iff_exists.mp hlive
  refine ⟨e, he, ?_⟩
  apply h.vacate
  · exact storage_setStorage_self (lt_arenaSize_of_isSome hlive) none
  · intro j hj
    exact storage_setStorage_of_ne hj none
  · intro j
    have hnot := (List.nodup_cons.mp hnodup).1
    by_cases hj : j = i
    · subst hj
      simp [hnot]
    · simp [hj]

/-- The element in hand has been destroyed, and its slot given back. -/
theorem Slots.filled_dropped (h : Slots t [i]) (hf : Filled t (t.iteration ++ [i])) :
    Filled ((t.setStorage i none).release i) t.iteration := by
  apply hf.vacate
  · rw [storage_release]
    exact storage_setStorage_self (h.lt_arenaSize (Or.inr (by simp))) none
  · intro j hj
    rw [storage_release, storage_setStorage_of_ne hj]
  · intro j
    have hnot := h.not_mem
    by_cases hj : j = i
    · subst hj
      simp [hnot]
    · simp [hj]

/-! ## Entering and leaving the iteration vector -/

/-- The link field of a slot in hand may hold anything. -/
theorem Slots.setAux (h : Slots t [i]) (aux : ℕ) : Slots (t.setAux i aux) [i] where
  split := by
    obtain ⟨free, hfree, hperm⟩ := h.split
    refine ⟨free, hfree.congr fun j hj => aux_setAux_of_ne ?_ aux, hperm⟩
    rintro rfl
    have hall : (t.iteration ++ free ++ [j]).Nodup := hperm.nodup_iff.mpr List.nodup_range
    exact (List.nodup_append.mp hall).2.2 j (by simp [hj]) j (by simp) rfl
  bounded := h.bounded
  covered := by
    show t.arenaHighWater ≤ (t.setNode i _).arenaSize
    rw [arenaSize_setNode]
    exact h.covered
  position p j hj := by
    have hne : j ≠ i := by
      rintro rfl
      exact h.not_mem (List.mem_of_getElem? hj)
    show ((t.setAux i aux).nodeAt j).aux = p
    rw [aux_setAux_of_ne hne]
    exact h.position p j hj

/-- A slot whose link field holds the length of the vector may be appended to it. -/
theorem Slots.append (h : Slots t [i]) (haux : (t.nodeAt i).aux = t.size) :
    Slots { t with iteration := t.iteration ++ [i] } [] where
  split := by
    obtain ⟨free, hfree, hperm⟩ := h.split
    refine ⟨free, hfree, List.Perm.trans ?_ hperm⟩
    simp only [List.append_nil, List.append_assoc]
    exact List.perm_append_comm.append_left _
  bounded := h.bounded
  covered := h.covered
  position p j hj := by
    have hj' : (t.iteration ++ [i])[p]? = some j := hj
    by_cases hlt : p < t.iteration.length
    · rw [List.getElem?_append_left hlt] at hj'
      exact h.position p j hj'
    · rw [List.getElem?_append_right (not_lt.mp hlt)] at hj'
      have hp : p - t.iteration.length = 0 := by
        by_contra hne
        rw [List.getElem?_singleton, if_neg hne] at hj'
        cases hj'
      rw [hp] at hj'
      have hji : i = j := by simpa using hj'
      rw [← hji, show p = t.size by unfold Table.size; omega]
      exact haux

/-- What `unlink_from_iteration` does to the table. -/
def unlinked (t : Table τ) (i : ℕ) : Table τ :=
  match t.iteration.getLast? with
  | none => t
  | some last =>
      { t.setAux last (t.nodeAt i).aux with
        iteration := swapRemove t.iteration (t.nodeAt i).aux }

/-- The position of a live slot. -/
theorem Slots.position_of_mem (h : Slots t pending) (hi : i ∈ t.iteration) :
    ∃ hlt : (t.nodeAt i).aux < t.iteration.length, t.iteration[(t.nodeAt i).aux] = i := by
  obtain ⟨j, hj⟩ := List.mem_iff_getElem?.mp hi
  rw [h.position j i hj]
  exact List.getElem?_eq_some_iff.mp hj

/-- A vector that is not empty has a back. -/
theorem exists_getLast? {l : List ℕ} (hne : l ≠ []) : ∃ last ∈ l, l.getLast? = some last :=
  ⟨l.getLast hne, List.getLast_mem hne, List.getLast?_eq_some_getLast hne⟩

/-- Unlinking takes a live slot in hand. The node at the back of the vector may be the
removed one itself; its link field then holds a stale position, which nothing reads. -/
theorem Slots.unlink (h : Slots t []) (hi : i ∈ t.iteration) : Slots (unlinked t i) [i] := by
  obtain ⟨hlt, hget⟩ := h.position_of_mem hi
  obtain ⟨last, hlastMem, hlast⟩ := exists_getLast? (List.ne_nil_of_mem hi)
  have hperm' : (swapRemove t.iteration (t.nodeAt i).aux ++ [i]).Perm t.iteration := by
    have := swapRemove_perm hlt
    rwa [hget] at this
  have hun : unlinked t i = { t.setAux last (t.nodeAt i).aux with
      iteration := swapRemove t.iteration (t.nodeAt i).aux } := by
    unfold unlinked
    rw [hlast]
  rw [hun]
  refine ⟨?_, h.bounded, ?_, ?_⟩
  · obtain ⟨free, hfree, hperm⟩ := h.split
    have hfree' : FreeList (link (t.setAux last (t.nodeAt i).aux)) t.freeListHead free := by
      refine hfree.congr fun j hj => aux_setAux_of_ne ?_ _
      rintro rfl
      rw [List.append_nil] at hperm
      have hall : (t.iteration ++ free).Nodup := hperm.nodup_iff.mpr List.nodup_range
      exact (List.nodup_append.mp hall).2.2 j hlastMem j hj rfl
    refine ⟨free, hfree', ?_⟩
    · refine List.Perm.trans ?_ hperm
      show (swapRemove t.iteration (t.nodeAt i).aux ++ free ++ [i]).Perm _
      have hcomm : (swapRemove t.iteration (t.nodeAt i).aux ++ free ++ [i]).Perm
          (swapRemove t.iteration (t.nodeAt i).aux ++ [i] ++ free) := by
        simp only [List.append_assoc]
        exact List.perm_append_comm.append_left _
      refine hcomm.trans ?_
      rw [List.append_nil]
      exact hperm'.append_right free
  · show t.arenaHighWater ≤ (t.setNode last _).arenaSize
    rw [arenaSize_setNode]
    exact h.covered
  · intro p j hj
    have hget' : (swapRemove t.iteration (t.nodeAt i).aux)[p]? = some j := hj
    have hp : p < t.iteration.length - 1 := by
      have := (List.getElem?_eq_some_iff.mp hget').1
      rwa [length_swapRemove] at this
    rw [getElem?_swapRemove hp] at hget'
    show ((t.setAux last (t.nodeAt i).aux).nodeAt j).aux = p
    by_cases hpi : p = (t.nodeAt i).aux
    · rw [if_pos hpi, hlast] at hget'
      cases hget'
      rw [aux_setAux_self (h.lt_arenaSize (Or.inl hlastMem)), hpi]
    · rw [if_neg hpi] at hget'
      have hne : j ≠ last := by
        rintro rfl
        rw [List.getLast?_eq_getElem?] at hlast
        have h1 := h.position _ _ hlast
        have h2 := h.position _ _ hget'
        omega
      rw [aux_setAux_of_ne hne]
      exact h.position p j hget'

/-- The vector after unlinking, up to order. -/
theorem Slots.unlinked_perm (h : Slots t pending) (hi : i ∈ t.iteration) :
    ((unlinked t i).iteration ++ [i]).Perm t.iteration := by
  obtain ⟨hlt, hget⟩ := h.position_of_mem hi
  obtain ⟨last, -, hlast⟩ := exists_getLast? (List.ne_nil_of_mem hi)
  unfold unlinked
  rw [hlast]
  have := swapRemove_perm hlt
  rwa [hget] at this

/-- The back of the vector takes the place of the unlinked node. -/
theorem Slots.unlinked_order (h : Slots t pending) (hi : i ∈ t.iteration) :
    (unlinked t i).iteration = swapErase t.iteration i := by
  obtain ⟨hlt, hget⟩ := h.position_of_mem hi
  have hpos : t.iteration[(t.nodeAt i).aux]? = some i := by
    rw [List.getElem?_eq_getElem hlt, hget]
  rw [swapErase_eq h.iteration_nodup hpos]
  obtain ⟨last, -, hlast⟩ := exists_getLast? (List.ne_nil_of_mem hi)
  unfold unlinked
  rw [hlast]

theorem storage_unlinked (t : Table τ) (i j : ℕ) :
    ((unlinked t i).nodeAt j).storage = (t.nodeAt j).storage := by
  unfold unlinked
  cases t.iteration.getLast? with
  | none => rfl
  | some last => exact storage_setAux t last _ j

theorem chunkIds_unlinked (t : Table τ) (i : ℕ) : chunkIds (unlinked t i) = chunkIds t := by
  unfold unlinked
  cases t.iteration.getLast? with
  | none => rfl
  | some last => exact chunkIds_setNode t last _

theorem SameIndex.unlinked (t : Table τ) (i : ℕ) : SameIndex t (unlinked t i) := by
  unfold Analysis.unlinked
  cases t.iteration.getLast? <;> exact ⟨rfl, rfl, rfl, rfl⟩

theorem SamePolicy.unlinked (t : Table τ) (i : ℕ) : SamePolicy t (unlinked t i) := by
  unfold Analysis.unlinked
  cases t.iteration.getLast? <;> exact ⟨rfl, rfl, rfl, rfl⟩

end Fum.Analysis

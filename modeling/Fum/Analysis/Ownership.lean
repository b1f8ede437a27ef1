import Fum.Analysis.Growth
import Fum.Analysis.Runs

/-!
# Who owns the bucket arrays and the chunks

Every bucket array and every chunk carries the allocator that allocated it. A table only
adds storage that its own allocator has just allocated, and storage changes hands as a
whole: between two tables, each of which takes over what the other one had.
-/

set_option autoImplicit false

namespace Fum.Analysis

open Fum.Model Effects

variable {τ : Traits} {α β : Type} {w w' : World τ} {i j : ℕ} {t t' : Table τ} {s : Store τ}

/-! ## The storage of one table -/

/-- The bucket array and the chunks of a table, each with the allocator that allocated it. -/
def storageOf (t : Table τ) : List (ℕ × τ.Alloc) :=
  (t.buckets.map fun array => (array.id, array.tag)).toList ++
    t.chunks.map fun chunk => (chunk.id, chunk.tag)

theorem storageOf_setNode (t : Table τ) (x : ℕ) (node : Node τ) :
    storageOf (t.setNode x node) = storageOf t := by
  unfold storageOf Table.setNode
  congr 1
  apply List.ext_getElem?
  intro j
  simp only [List.getElem?_map, List.getElem?_modify]
  cases t.chunks[j]? with
  | none => rfl
  | some chunk => by_cases hx : x / kChunkSize = j <;> simp [hx]

theorem storageOf_setCells (t : Table τ) (cells : ℕ → Bucket) :
    storageOf (t.setCells cells) = storageOf t := by
  unfold storageOf Table.setCells
  rw [Option.map_map]
  rfl

theorem storageOf_append_chunk (t : Table τ) (chunk : Chunk τ) :
    storageOf { t with chunks := t.chunks ++ [chunk] } =
      storageOf t ++ [(chunk.id, chunk.tag)] := by
  unfold storageOf
  rw [List.map_append, List.append_assoc]
  rfl

theorem chunks_mem_storageOf {p : ℕ × τ.Alloc}
    (hp : p ∈ t.chunks.map fun chunk => (chunk.id, chunk.tag)) : p ∈ storageOf t :=
  List.mem_append_right _ hp

/-- The storage of the table was allocated by an equal allocator, and none of it is `taken`
by other tables. What will be allocated later is taken by nobody. -/
structure Keeper (taken : Set ℕ) (s : Store τ) : Prop where
  tagged : ∀ p ∈ storageOf s.table, p.2 = s.table.allocator
  known : ∀ p ∈ storageOf s.table, p.1 < s.heap.nextId
  apart : ∀ p ∈ storageOf s.table, p.1 ∉ taken
  below : ∀ x ∈ taken, x < s.heap.nextId

variable {taken : Set ℕ}

/-- The storage may be kept, given up, or extended by a fresh block. -/
theorem Keeper.of_storage {s' : Store τ} (h : Keeper taken s)
    (halloc : s'.table.allocator = s.table.allocator)
    (hstorage : ∀ p ∈ storageOf s'.table,
      p ∈ storageOf s.table ∨ p.1 = s.heap.nextId ∧ p.2 = s.table.allocator)
    (hnext : s.heap.nextId ≤ s'.heap.nextId)
    (hfresh : ∀ p ∈ storageOf s'.table, p.1 = s.heap.nextId → s.heap.nextId < s'.heap.nextId) :
    Keeper taken s' where
  tagged p hp := by
    rw [halloc]
    rcases hstorage p hp with hold | ⟨-, htag⟩
    · exact h.tagged p hold
    · exact htag
  known p hp := by
    rcases hstorage p hp with hold | ⟨hid, -⟩
    · exact Nat.lt_of_lt_of_le (h.known p hold) hnext
    · rw [hid]
      exact hfresh p hp hid
  apart p hp := by
    rcases hstorage p hp with hold | ⟨hid, -⟩
    · exact h.apart p hold
    · intro hmem
      exact absurd (h.below _ hmem) (by omega)
  below x hx := Nat.lt_of_lt_of_le (h.below x hx) hnext

/-- The storage may be kept or given up. -/
theorem Keeper.of_subset {s' : Store τ} (h : Keeper taken s)
    (halloc : s'.table.allocator = s.table.allocator)
    (hstorage : storageOf s'.table ⊆ storageOf s.table) (hnext : s.heap.nextId ≤ s'.heap.nextId) :
    Keeper taken s' :=
  h.of_storage halloc (fun _ hp => Or.inl (hstorage hp)) hnext fun p hp hid =>
    absurd (h.known p (hstorage hp)) (by omega)

theorem keeper_steady (taken : Set ℕ) : Steady (Keeper taken : Store τ → Prop) where
  heap _ _ hnext h := h.of_subset rfl (List.Subset.refl _) hnext
  node s x node h := h.of_subset rfl (storageOf_setNode s.table x node ▸ List.Subset.refl _) le_rfl
  slots _ _ _ h := h.of_subset rfl (List.Subset.refl _) le_rfl
  cells s cells h := h.of_subset rfl (storageOf_setCells s.table cells ▸ List.Subset.refl _) le_rfl
  chunk s h := by
    refine h.of_storage rfl (fun p hp => ?_) (Nat.le_succ _) fun _ _ _ => Nat.lt_succ_self _
    rw [storageOf_append_chunk, List.mem_append, List.mem_singleton] at hp
    rcases hp with hold | rfl
    · exact Or.inl hold
    · exact Or.inr ⟨rfl, rfl⟩
  unchunk s h := h.of_subset rfl (fun p hp => by
    rcases List.mem_append.mp hp with hp | hp
    · exact List.mem_append_left _ hp
    · cases hp) le_rfl
  unbucket s h := h.of_subset rfl (fun p hp => chunks_mem_storageOf hp) le_rfl

theorem keeper_durable (taken : Set ℕ) : Durable (Keeper taken : Store τ → Prop) where
  toSteady := keeper_steady taken
  order _ _ h := h.of_subset rfl (List.Subset.refl _) le_rfl
  refill s n h := by
    refine h.of_storage rfl (fun p hp => ?_) (Nat.le_succ _) fun _ _ _ => Nat.lt_succ_self _
    rcases List.mem_cons.mp hp with rfl | hp
    · exact Or.inr ⟨rfl, rfl⟩
    · exact Or.inl (chunks_mem_storageOf hp)
  drop _ h := h.of_subset rfl (List.Subset.refl _) le_rfl

/-! ## The storage of all tables -/

/-- The table `i` owns the block `x`. -/
def OwnsBlock (w : World τ) (i x : ℕ) : Prop :=
  ∃ t, w.table? i = some t ∧ x ∈ (storageOf t).map Prod.fst

/-- Every table owns what an equal allocator has allocated, and no block has two owners. -/
structure Owned (w : World τ) : Prop where
  tagged : ∀ i t, w.table? i = some t → ∀ p ∈ storageOf t, p.2 = t.allocator
  known : ∀ i x, OwnsBlock w i x → x < w.heap.nextId
  unique : ∀ i j x, OwnsBlock w i x → OwnsBlock w j x → i = j

theorem Owned.empty : Owned (World.empty : World τ) where
  tagged i t ht := absurd ht not_table?_empty
  known := by
    rintro i x ⟨t, ht, -⟩
    exact absurd ht not_table?_empty
  unique := by
    rintro i j x ⟨t, ht, -⟩
    exact absurd ht not_table?_empty

/-- Tables that take over what other tables had, no two of them from the same one. -/
theorem Owned.rearrange (h : Owned w) (ρ : Equiv.Perm ℕ)
    (hnext : w.heap.nextId ≤ w'.heap.nextId)
    (htables : ∀ j t', w'.table? j = some t' → (∀ p ∈ storageOf t', p.2 = t'.allocator) ∧
      ∀ x ∈ (storageOf t').map Prod.fst, OwnsBlock w (ρ j) x) : Owned w' where
  tagged j t' ht' := (htables j t' ht').1
  known := by
    rintro j x ⟨t', ht', hx⟩
    exact Nat.lt_of_lt_of_le (h.known _ _ ((htables j t' ht').2 x hx)) hnext
  unique := by
    rintro i j x ⟨t', ht', hx⟩ ⟨u', hu', hx'⟩
    exact ρ.injective (h.unique _ _ x ((htables i t' ht').2 x hx) ((htables j u' hu').2 x hx'))

/-- A table keeps its place and its storage. -/
theorem Owned.stays (h : Owned w) (ht : w.table? i = some t) :
    (∀ p ∈ storageOf t, p.2 = t.allocator) ∧
      ∀ x ∈ (storageOf t).map Prod.fst, OwnsBlock w i x :=
  ⟨h.tagged i t ht, fun _ hx => ⟨t, ht, hx⟩⟩

/-- A table without storage. -/
theorem owns_nothing (hs : storageOf t = []) :
    (∀ p ∈ storageOf t, p.2 = t.allocator) ∧
      ∀ x ∈ (storageOf t).map Prod.fst, OwnsBlock w i x := by
  rw [hs]
  exact ⟨fun _ hp => absurd hp List.not_mem_nil, fun _ hx => absurd hx List.not_mem_nil⟩

theorem storageOf_initial (factor : LoadFactor τ.rounding) (hash : τ.Key → UInt64)
    (equal : τ.Key → τ.Key → Bool) (alloc : τ.Alloc) :
    storageOf (Table.initial factor hash equal alloc) = [] := rfl

theorem storageOf_afterSteal (t : Table τ) : storageOf t.afterSteal = [] := rfl

/-- The blocks of all tables but `i`. -/
def othersOf (w : World τ) (i : ℕ) : Set ℕ := { x | ∃ j, j ≠ i ∧ OwnsBlock w j x }

theorem Owned.keeper (h : Owned w) (ht : w.table? i = some t) :
    Keeper (othersOf w i) ⟨t, w.heap⟩ where
  tagged := h.tagged i t ht
  known p hp := h.known i p.1 ⟨t, ht, List.mem_map_of_mem hp⟩
  apart := by
    rintro p hp ⟨j, hne, hj⟩
    exact hne (h.unique j i p.1 hj ⟨t, ht, List.mem_map_of_mem hp⟩)
  below := by
    rintro x ⟨j, -, hj⟩
    exact h.known j x hj

/-- The world after a call on one table. -/
theorem Owned.after (h : Owned w) (ht : w.table? i = some t)
    (hs : Keeper (othersOf w i) s) : Owned (withStore w i s) := by
  have howns : ∀ {j x}, OwnsBlock (withStore w i s) j x →
      j = i ∧ x ∈ (storageOf s.table).map Prod.fst ∨ j ≠ i ∧ OwnsBlock w j x := by
    rintro j x ⟨t', ht', hx⟩
    by_cases hij : i = j
    · subst hij
      rw [table?_withStore_self ht] at ht'
      cases ht'
      exact Or.inl ⟨rfl, hx⟩
    · rw [table?_withStore_of_ne hij] at ht'
      exact Or.inr ⟨fun heq => hij heq.symm, t', ht', hx⟩
  refine ⟨fun j t' ht' => ?_, fun j x hj => ?_, fun j k x hj hk => ?_⟩
  · by_cases hij : i = j
    · subst hij
      rw [table?_withStore_self ht] at ht'
      cases ht'
      exact hs.tagged
    · rw [table?_withStore_of_ne hij] at ht'
      exact h.tagged j t' ht'
  · rcases howns hj with ⟨-, hx⟩ | ⟨hne, hx⟩
    · obtain ⟨p, hp, rfl⟩ := List.mem_map.mp hx
      exact hs.known p hp
    · exact hs.below x ⟨j, hne, hx⟩
  · rcases howns hj with ⟨rfl, hx⟩ | ⟨hne, hx⟩ <;> rcases howns hk with ⟨rfl, hx'⟩ | ⟨hne', hx'⟩
    · rfl
    · obtain ⟨p, hp, rfl⟩ := List.mem_map.mp hx
      exact absurd ⟨k, hne', hx'⟩ (hs.apart p hp)
    · obtain ⟨p, hp, rfl⟩ := List.mem_map.mp hx'
      exact absurd ⟨j, hne, hx⟩ (hs.apart p hp)
    · exact h.unique j k x hx hx'

theorem owned_handleless : Handleless (Owned : World τ → Prop) where
  call _ _ hx := keeps_call fun _ _ ht hw =>
    hw.after ht (hx _ (keeper_durable _) _ (hw.keeper ht))
  heap _ _ hnext hw := hw.rearrange (Equiv.refl ℕ) hnext fun _ _ ht => hw.stays ht
  handles _ _ hw := hw.rearrange (Equiv.refl ℕ) le_rfl fun _ _ ht => hw.stays ht

/-! ## Objects that come and go -/

theorem Owned.newTable (h : Owned w) (hs : storageOf t = []) :
    Owned { w with tables := w.tables ++ [some t] } := by
  refine h.rearrange (Equiv.refl ℕ) le_rfl fun j t' ht' => ?_
  rw [table?_append] at ht'
  split at ht'
  · cases ht'
    exact owns_nothing hs
  · exact h.stays ht'

theorem owned_enduring : Enduring (Owned : World τ → Prop) where
  toLasting := owned_handleless.toLasting
  fresh _ _ _ _ _ hw := hw.newTable (storageOf_initial ..)
  drop i w hw := by
    refine hw.rearrange (Equiv.refl ℕ) le_rfl fun j t' ht' => ?_
    have hdrop : (w.setTable i none).table? j = some t' := ht'
    by_cases hij : i = j
    · subst hij
      rw [table?_setTable_none] at hdrop
      cases hdrop
    · rw [table?_setTable_of_ne hij] at hdrop
      exact hw.stays hdrop

/-- Two tables, each of which takes over what the other one had. -/
theorem Owned.exchange {a b a' b' : Table τ} (h : Owned w) (ha : w.table? i = some a)
    (hb : w.table? j = some b) (hne : i ≠ j)
    (ha' : ∀ p ∈ storageOf a', p ∈ storageOf b ∧ b.allocator = a'.allocator)
    (hb' : ∀ p ∈ storageOf b', p ∈ storageOf a ∧ a.allocator = b'.allocator) :
    Owned (withStore (withStore w i ⟨a', w.heap⟩) j ⟨b', w.heap⟩) := by
  have hside : ∀ {k : ℕ} {c c' : Table τ}, w.table? k = some c →
      (∀ p ∈ storageOf c', p ∈ storageOf c ∧ c.allocator = c'.allocator) →
      (∀ p ∈ storageOf c', p.2 = c'.allocator) ∧
        ∀ x ∈ (storageOf c').map Prod.fst, OwnsBlock w k x := by
    intro k c c' hc hc'
    refine ⟨fun p hp => (h.tagged k c hc p (hc' p hp).1).trans (hc' p hp).2, fun x hx => ?_⟩
    obtain ⟨p, hp, rfl⟩ := List.mem_map.mp hx
    exact ⟨c, hc, List.mem_map_of_mem (hc' p hp).1⟩
  refine h.rearrange (Equiv.swap i j) le_rfl fun k t ht => ?_
  by_cases hjk : j = k
  · subst hjk
    rw [table?_withStore_self ((table?_withStore_of_ne hne _).trans hb)] at ht
    cases ht
    rw [Equiv.swap_apply_right]
    exact hside ha hb'
  · rw [table?_withStore_of_ne hjk] at ht
    by_cases hik : i = k
    · subst hik
      rw [table?_withStore_self ha] at ht
      cases ht
      rw [Equiv.swap_apply_left]
      exact hside hb ha'
    · rw [table?_withStore_of_ne hik] at ht
      rw [Equiv.swap_apply_of_ne_of_ne (fun h => hik h.symm) fun h => hjk h.symm]
      exact h.stays ht

/-- `steal_storage_from` between tables with equal allocators. -/
theorem stealStorage_owned {this other : ℕ} {source : Table τ} (h : Owned w) (hne : this ≠ other)
    (ht : w.table? this = some t) (hother : w.table? other = some source)
    (heq : t.allocator = source.allocator) :
    Action.Post Stuck.anyhow (stealStorage this other) w (fun _ => Owned) Owned := by
  refine post_stealStorage ht hother hne (fun _ => trivial) fun _ => ?_
  exact h.exchange ht hother hne (fun p hp => ⟨hp, heq.symm⟩) fun p hp => by
    rw [storageOf_afterSteal] at hp
    cases hp

/-! ## Statements -/

section

variable {this other source : ℕ}

theorem withStore_newTable (w : World τ) (t t' : Table τ) :
    withStore { w with tables := w.tables ++ [some t] } w.tables.length ⟨t', w.heap⟩ =
      { w with tables := w.tables ++ [some t'] } := by
  unfold withStore World.setTable
  simp

theorem moveConstruct_owned (h : Owned w) :
    Action.Post Stuck.anyhow (moveConstruct source) w (fun _ => Owned) Owned := by
  unfold moveConstruct
  refine post_readTable (fun other hother => ?_) fun _ => trivial
  rw [post_newTable]
  refine post_modify_onTable (table?_append_of_some hother other) ?_
  have hne : w.tables.length ≠ source := (lt_of_join_eq_some hother).ne'
  have h1 := h.newTable (storageOf_afterSteal other)
  have hgiven : ∀ p ∈ storageOf other, p ∈ storageOf other ∧ other.allocator = other.allocator :=
    fun p hp => ⟨hp, rfl⟩
  have hleft : ∀ p ∈ storageOf other.afterSteal, p ∈ storageOf other.afterSteal ∧
      other.afterSteal.allocator = other.afterSteal.allocator := fun p hp => ⟨hp, rfl⟩
  have h2 := h1.exchange (table?_newTable w other.afterSteal)
    (table?_append_of_some hother _) hne hgiven hleft
  rw [withStore_newTable] at h2
  exact h2

theorem moveConstructWith_owned {alloc : τ.Alloc} (h : Owned w) :
    Action.Post Stuck.anyhow (moveConstructWith source alloc) w (fun _ => Owned) Owned := by
  unfold moveConstructWith
  refine post_readTable (fun other hother => ?_) fun _ => trivial
  rw [post_newTable]
  have h1 := h.newTable (storageOf_initial other.maxLoadFactor other.hashFunction
    other.keyEqual alloc)
  refine Action.Post.bind (Action.Post.cleanup (E := Owned) (F := Owned) ?_
    fun w' hw' => (owned_enduring.drop _).post hw') (fun _ h' => h') fun _ _ h' => h'
  split
  · next heq =>
      exact stealStorage_owned h1 (lt_of_join_eq_some hother).ne' (table?_newTable ..)
        (table?_append_of_some hother _) heq
  · exact owned_handleless.bare.moveContentsFrom.post h1

/-- A table that is torn down and reset may take any allocator. -/
theorem teardown_owned {f : Table τ → Table τ} {k : Unit → Action (World τ) β}
    {Q : β → World τ → Prop} {E : World τ → Prop} (h : Owned w) (ht : w.table? i = some t)
    (hf : ∀ u, u.chunks = [] → storageOf (f u) = [])
    (hk : ∀ w' u, Owned w' → u.allocator = t.allocator → w'.table? i = some (f u) →
      Elsewhere i w w' → Action.Post Stuck.anyhow (k ()) w' Q E) :
    Action.Post Stuck.anyhow
      (onTable i destroyEverything >>= fun _ => onTable i (modifyTable f) >>= k) w Q E := by
  refine post_onTable_bind (fun t' ht' => ?_) fun _ => trivial
  rw [ht] at ht'
  cases ht'
  have halloc : Insensitive fun u : Table τ => u.allocator = t.allocator :=
    ⟨fun _ _ _ _ h' => h', fun _ _ h' => h'⟩
  have hkeeper := (keeps_destroyEverything (keeper_steady (othersOf w i))).post (h.keeper ht)
  refine ((destroyEverything_chunks.and ((keeps_destroyEverything halloc.steady).post
    (s := ⟨t, w.heap⟩) rfl)).and hkeeper).mono ?_ (fun _ h' => h'.1.1.elim) fun _ h' => h'
  rintro ⟨⟩ s' ⟨⟨hchunks, hsame⟩, hs'⟩
  refine post_modify_onTable (table?_withStore_self ht s') ?_
  have hnone := hf s'.table hchunks
  refine hk _ s'.table ?_ hsame (table?_withStore_self (table?_withStore_self ht s') _) ?_
  · refine (h.after ht hs').after (table?_withStore_self ht s') ⟨?_, ?_, ?_, ?_⟩
    · exact fun p hp => absurd (hnone ▸ hp : p ∈ []) List.not_mem_nil
    · exact fun p hp => absurd (hnone ▸ hp : p ∈ []) List.not_mem_nil
    · exact fun p hp => absurd (hnone ▸ hp : p ∈ []) List.not_mem_nil
    · rintro x ⟨j, -, hj⟩
      exact (h.after ht hs').known j x hj
  · rw [withStore_withStore]
    exact elsewhere_withStore w i _

theorem copyAssign_owned (h : Owned w) :
    Action.Post Stuck.anyhow (copyAssign this other) w (fun _ => Owned) Owned := by
  unfold copyAssign
  by_cases hself : this = other
  · rw [if_pos hself]
    exact h
  rw [if_neg hself]
  refine post_readTable (fun source _ => ?_) fun _ => trivial
  refine post_readTable (fun t ht => ?_) fun _ => trivial
  by_cases hafresh : τ.pocca = true ∧ t.allocator ≠ source.allocator
  · rw [if_pos hafresh]
    refine teardown_owned h ht (fun u hu => ?_) fun w' u hw' _ _ _ =>
      owned_handleless.bare.copyContentsFrom.post hw'
    show u.chunks.map _ = []
    rw [hu]
    rfl
  · rw [if_neg hafresh]
    have hsame : (if τ.pocca then { t with allocator := source.allocator } else t) = t := by
      cases hpocca : τ.pocca with
      | false => rfl
      | true =>
          have heq : t.allocator = source.allocator := by
            by_contra hne
            exact hafresh ⟨hpocca, hne⟩
          simp only [if_true]
          rw [← heq]
    refine post_modify_onTable ht ?_
    simp only [hsame]
    rw [withStore_self ht]
    refine Action.Keeps.post (Action.Keeps.bind owned_handleless.bare.clear fun _ =>
      Action.Keeps.bind (keeps_call fun w1 t1 ht1 hw1 => ?_) fun _ =>
        owned_handleless.bare.copyContentsFrom) h
    exact hw1.after ht1 ((hw1.keeper ht1).of_subset rfl (List.Subset.refl _) le_rfl)

theorem moveAssign_owned (h : Owned w) :
    Action.Post Stuck.anyhow (moveAssign this other) w (fun _ => Owned) Owned := by
  unfold moveAssign
  by_cases hself : this = other
  · rw [if_pos hself]
    exact h
  rw [if_neg hself]
  refine post_readTable (fun source hsource => ?_) fun _ => trivial
  refine post_readTable (fun t ht => ?_) fun _ => trivial
  by_cases htake : τ.pocma = true ∨ t.allocator = source.allocator
  · rw [if_pos htake]
    refine teardown_owned h ht (fun u hu => ?_) fun w' u hw' halloc hu helse => ?_
    · show storageOf (if τ.pocma then _ else _) = []
      cases τ.pocma <;> (show u.chunks.map _ = []; rw [hu]; rfl)
    · refine stealStorage_owned hw' hself hu ((helse other hself).trans hsource) ?_
      cases hpocma : τ.pocma with
      | true => rfl
      | false =>
          rw [hpocma] at htake
          exact halloc.trans (htake.resolve_left Bool.false_ne_true)
  · rw [if_neg htake]
    refine Action.Keeps.post (Action.Keeps.bind owned_handleless.bare.clear fun _ =>
      Action.Keeps.bind (keeps_call fun w1 t1 ht1 hw1 => ?_) fun _ =>
        owned_handleless.bare.moveContentsFrom) h
    exact hw1.after ht1 ((hw1.keeper ht1).of_subset rfl (List.Subset.refl _) le_rfl)

theorem swap_owned (h : Owned w) :
    Action.Post Stuck.anyhow (swap this other) w (fun _ => Owned) Owned := by
  refine post_swap_any (fun _ => h) fun a b ha hb hne => ?_
  exact h.exchange ha hb hne (fun p hp => ⟨hp, rfl⟩) fun p hp => ⟨hp, rfl⟩

/-- Every statement, however it ends, leaves the storage with its owners. -/
theorem WorldOp.exec_owned (op : WorldOp τ) (h : Owned w) :
    Action.Post Stuck.anyhow op.exec w (fun _ => Owned) Owned := by
  have hignoring : ∀ {α : Type} {x : Action (World τ) α},
      Action.Post Stuck.anyhow x w (fun _ => Owned) Owned →
        Action.Post Stuck.anyhow (ignoring x) w (fun _ => Owned) Owned :=
    fun hx => Action.Post.bind hx (fun _ h' => h') fun _ _ h' => h'
  cases op with
  | construct n hash equal alloc => exact hignoring (owned_enduring.construct.post h)
  | constructRange values n hash equal alloc =>
      exact hignoring (owned_enduring.constructRange.post h)
  | copyConstruct source =>
      exact hignoring
        ((owned_handleless.bare.readTable fun _ => owned_enduring.copyConstructWith).post h)
  | copyConstructWith source alloc => exact hignoring (owned_enduring.copyConstructWith.post h)
  | moveConstruct source => exact hignoring (moveConstruct_owned h)
  | moveConstructWith source alloc => exact hignoring (moveConstructWith_owned h)
  | destroy this => exact owned_enduring.destroy.post h
  | copyAssign this other => exact copyAssign_owned h
  | moveAssign this other => exact moveAssign_owned h
  | assignValues this values => exact owned_handleless.bare.assignValues.post h
  | swap this other => exact swap_owned h
  | merge this source => exact owned_handleless.mergeFrom.post h
  | table this op =>
      refine (owned_handleless.bare.tableOp op ?_).post h
      rintro z rfl
      exact keeps_call fun w1 t1 ht1 hw1 => hw1.after ht1
        (Op.keeps (keeper_durable _) _ (fun _ _ s hs =>
          hs.of_subset rfl (List.Subset.refl _) le_rfl) _
          (hw1.keeper ht1))
  | insertHandle hinted this hd => exact hignoring (owned_handleless.bare.insertHandle.post h)
  | handleDefault => exact hignoring ((owned_handleless.bare.newHandle _).post h)
  | handleMove source => exact hignoring (owned_handleless.bare.handleMove.post h)
  | handleAssign this source => exact owned_handleless.bare.handleAssign.post h
  | handleSwap this source => exact owned_handleless.bare.handleSwap.post h
  | handleDestroy hd => exact owned_handleless.bare.destroyHandle.post h

end

/-- In every state of every run, whatever throws, the storage is with its owners. -/
theorem run_owned {steps : List (Step τ)} (hrun : Run World.empty steps w) : Owned w := by
  refine Run.invariant (P := fun _ _ => True) hrun Owned.empty ?_
    (eachStep_of_forall fun _ _ => trivial)
  intro w1 step w2 hw1 _ hends
  have hstart : Owned (started step w1) := owned_handleless.heap w1 _ le_rfl hw1
  rcases Step.ends_post (WorldOp.exec_owned step.op hstart) hends with h | ⟨-, h⟩
  · exact h
  · exact h

end Fum.Analysis

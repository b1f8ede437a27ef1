import Fum.Analysis.Footprints
import Fum.Interface.AmortisedGrowth

/-!
# The memory of a table

A table never holds more memory than its largest size asked for. However many elements have
come and gone, and wherever allocations and constructors threw, it has no more chunks than fit
that many elements and one, and no more buckets than growing to that size takes. Only the chunk
that is allocated when `chunks_` fails to grow is never found again.
-/

set_option autoImplicit false

namespace Fum.Interface

open Fum.Model Fum.Analysis Effects Conservation

variable {τ : Traits} {s : Store τ} {m p : ℕ} {factor : LoadFactor τ.rounding}
  {requests : List (Request τ)}

/-- No functor throws during the request. -/
def Frugal (_ : Table τ) (r : Request τ) : Prop := CallsReturn r.fault

instance (t : Table τ) (r : Request τ) : Decidable (Frugal t r) :=
  inferInstanceAs (Decidable (_ ∧ _))

/-- Opened and not closed. -/
def Outstanding (account : Account) (id : ℕ) : Prop := id ∈ account.opened ∧ id ∉ account.closed

/-- The node of the handle, if it has one, is alive, and its element is not in the table. -/
def InHand (s : Store τ) (handle : Handle τ) : Prop :=
  ∀ cell ∈ handle.value, Outstanding s.heap.elements cell.element.serial ∧
    cell.element.serial ∉ elementIds s.table s.table.iteration ∧ Outstanding s.heap.cells cell.id

/-- What the request inserts is in hand. -/
def Request.Holds (s : Store τ) (r : Request τ) : Prop :=
  match r.call with
  | .member _ => True
  | .insertNode handle => InHand s handle

/-- Each request inserts only what is in hand. -/
def NodesHeld : Store τ → List (Request τ) → Prop
  | _, [] => True
  | s, r :: rest => r.Holds s ∧ NodesHeld (r.exec.run s).2 rest

instance (account : Account) (id : ℕ) : Decidable (Outstanding account id) :=
  inferInstanceAs (Decidable (_ ∧ _))

instance (s : Store τ) (handle : Handle τ) : Decidable (InHand s handle) :=
  inferInstanceAs (Decidable (∀ cell ∈ handle.value, _))

instance Request.decidableHolds (s : Store τ) : ∀ r : Request τ, Decidable (r.Holds s)
  | ⟨.member _, _⟩ => isTrue trivial
  | ⟨.insertNode handle, _⟩ => inferInstanceAs (Decidable (InHand s handle))

instance NodesHeld.decidable :
    ∀ (requests : List (Request τ)) (s : Store τ), Decidable (NodesHeld s requests)
  | [], _ => isTrue trivial
  | r :: rest, s => @instDecidableAnd _ _ _ (NodesHeld.decidable rest (r.exec.run s).2)

/-- The chunk that an exception loses, if it strikes where `chunks_` grows. -/
def lostBy (fault : Option (Point × ℕ)) : ℕ :=
  if faultPoint fault = some .chunksGrowth then 1 else 0

/-- The chunks that are lost because `chunks_` could not grow. -/
def chunksLost : Store τ → List (Request τ) → ℕ
  | _, [] => 0
  | s, r :: rest =>
      (if (r.exec.run s).1 = .thrown then lostBy r.fault else 0) +
        chunksLost (r.exec.run s).2 rest

/-- The largest size that the table has at a request, or at the end. -/
def largest : Store τ → List (Request τ) → ℕ
  | s, [] => s.table.size
  | s, r :: rest => max s.table.size (largest (r.exec.run s).2 rest)

/-- The accounts are in order, at most `m` chunks are on no list, and there is no bucket array but
that of the table. -/
def Accounted (m : ℕ) (s : Store τ) : Prop :=
  ∃ others, SoundTable others s ∧ others.chunks.card ≤ m ∧ others.arrays = 0

theorem accounted_of_thrown {others : Holdings} {fault : Option (Point × ℕ)}
    (h : SoundThrown others (faultPoint fault) s) (hchunks : others.chunks.card ≤ m)
    (harrays : others.arrays = 0) : Accounted (m + lostBy fault) s := by
  obtain ⟨lost, hs, rfl | ⟨hpoint, id, rfl⟩⟩ := h
  · rw [add_zero] at hs
    exact ⟨others, hs, hchunks.trans (Nat.le_add_right _ _), harrays⟩
  · refine ⟨_, hs, ?_, ?_⟩
    · unfold lostBy
      rw [if_pos hpoint, Holdings.add_chunks, Multiset.card_add]
      exact Nat.add_le_add_right hchunks 1
    · rw [Holdings.add_arrays, harrays]
      rfl

/-- What a handle owns has neither chunks nor arrays. -/
theorem handleOwns_apart (handle : Handle τ) :
    (handleOwns handle).chunks = 0 ∧ (handleOwns handle).arrays = 0 := by
  unfold handleOwns
  cases handle.value with
  | none => exact ⟨rfl, rfl⟩
  | some cell => exact ⟨rfl, rfl⟩

theorem accounted_of_sound {others more : Holdings} (h : SoundTable (others + more) s)
    (hchunks : others.chunks.card ≤ m) (harrays : others.arrays = 0)
    (hmore : more.chunks = 0 ∧ more.arrays = 0) : Accounted m s := by
  refine ⟨_, h, ?_, ?_⟩
  · rwa [Holdings.add_chunks, hmore.1, add_zero]
  · rw [Holdings.add_arrays, hmore.2, add_zero, harrays]

/-- The node in hand is among what others own. -/
theorem InHand.exists_rest {others : Holdings} {handle : Handle τ} (h : SoundTable others s)
    (hhand : InHand s handle) : ∃ rest, others = rest + handleOwns handle ∧
      rest.chunks = others.chunks ∧ rest.arrays = others.arrays := by
  unfold handleOwns
  cases hv : handle.value with
  | none => exact ⟨others, (add_zero others).symm, rfl, rfl⟩
  | some cell =>
      obtain ⟨⟨hopened, hclosed⟩, hnot, hcell, hfree⟩ := hhand cell hv
      have helement : cell.element.serial ∈ others.elements :=
        (Multiset.mem_add.mp (h.balanced.elements.mem_held hopened hclosed)).resolve_left hnot
      have hid : cell.id ∈ others.cells :=
        (Multiset.mem_add.mp (h.balanced.cells.mem_held hcell hfree)).resolve_left
          (Multiset.notMem_zero _)
      obtain ⟨elements, helements⟩ := Multiset.exists_cons_of_mem helement
      obtain ⟨cells, hcells⟩ := Multiset.exists_cons_of_mem hid
      refine ⟨⟨elements, others.chunks, others.arrays, cells⟩, ?_, rfl, rfl⟩
      ext1
      · show others.elements = elements + ({cell.element.serial} + 0)
        rw [helements, add_zero, add_comm, Multiset.singleton_add]
      · exact (add_zero others.chunks).symm
      · exact (add_zero others.arrays).symm
      · show others.cells = cells + (0 + {cell.id})
        rw [hcells, zero_add, add_comm, Multiset.singleton_add]

/-- One request leaves the accounts in order, and loses a chunk at most. -/
theorem Request.exec_accounted (r : Request τ) (hcalls : CallsReturn r.fault) (hheld : r.Holds s)
    (h : Accounted m s) (hmax : s.table.size ≤ maxSize) :
    Action.Post Stuck.anyhow r.exec s (fun _ => Accounted m) (Accounted (m + lostBy r.fault)) := by
  obtain ⟨call, fault⟩ := r
  obtain ⟨others, hs, hchunks, harrays⟩ := h
  have hs1 : SoundTable others (⟨s.table, withFault s.heap fault⟩ : Store τ) :=
    ⟨hs.slots, hs.filled, hs.balanced.withFault fault⟩
  have hcall : Action.Post Stuck.anyhow call.exec ⟨s.table, withFault s.heap fault⟩
      (fun _ => Accounted m) (Accounted (m + lostBy fault)) := by
    cases call with
    | member op =>
        refine Action.Post.bind (Op.exec_sound op hs1 hmax hcalls)
          (fun s' h' => accounted_of_thrown h' hchunks harrays) fun reply s' h' => ?_
        refine accounted_of_sound h'.1 hchunks harrays ?_
        cases reply with
        | node handle => exact handleOwns_apart handle
        | none | inserted | erased | iterator => exact ⟨rfl, rfl⟩
    | insertNode handle =>
        obtain ⟨rest, rfl, hrest, hrest'⟩ := InHand.exists_rest hs hheld
        refine Action.Post.bind (insertNode_sound handle hs1 hmax hcalls)
          (fun s' h' => accounted_of_thrown h' hchunks harrays) fun r s' h' => ?_
        have hsound := h'.1
        rw [add_assoc] at hsound
        refine accounted_of_sound hsound (hrest ▸ hchunks) (hrest' ▸ harrays) ?_
        obtain ⟨hchunks1, harrays1⟩ := handleOwns_apart r.1.node
        obtain ⟨hchunks2, harrays2⟩ := handleOwns_apart r.2
        exact ⟨by rw [Holdings.add_chunks, hchunks1, hchunks2, add_zero],
          by rw [Holdings.add_arrays, harrays1, harrays2, add_zero]⟩
  exact hcall

/-- One request leaves no more chunks than needed. -/
theorem Request.exec_fewChunks (r : Request τ) (h : Lodged p s.table) :
    Action.Post Stuck.anyhow r.exec s (fun _ s' => FewChunks p s'.table)
      (fun s' => FewChunks p s'.table) := by
  obtain ⟨call, fault⟩ := r
  have h1 : Lodged p (⟨s.table, withFault s.heap fault⟩ : Store τ).table := h
  have hcall : Action.Post Stuck.anyhow call.exec ⟨s.table, withFault s.heap fault⟩
      (fun _ s' => FewChunks p s'.table) (fun s' => FewChunks p s'.table) := by
    cases call with
    | member op => exact Action.Post.bind (h1.exec op) (fun _ h' => h') fun _ _ h' => h'
    | insertNode handle =>
        exact Action.Post.bind (h1.insertNode handle) (fun _ h' => h') fun _ _ h' => h'
  exact hcall

/-- The chunks stay few from one request to the next, those on the list and those that are
lost. -/
theorem Served.fewChunks (s : Store τ) (hserved : Served Frugal s requests)
    (hheld : NodesHeld s requests) (hlargest : largest s requests ≤ p) (hmax : p ≤ maxSize)
    (h : Accounted m s) (hfew : FewChunks p s.table) :
    Accounted (m + chunksLost s requests) (after s requests) ∧
      FewChunks p (after s requests).table := by
  induction requests generalizing s m with
  | nil => exact ⟨h, hfew⟩
  | cons r rest ih =>
      obtain ⟨hcalls, hends, hrest⟩ := hserved
      obtain ⟨hholds, hheldrest⟩ := hheld
      have hsize : s.table.size ≤ p := (le_max_left _ _).trans hlargest
      have hslots : Slots s.table [] := by
        obtain ⟨others, hs, -⟩ := h
        exact hs.slots
      have hpost := (r.exec_accounted hcalls hholds h (hsize.trans hmax)).and
        (r.exec_fewChunks ⟨hslots, hsize, hfew⟩)
      have hnext : Accounted (m + if (r.exec.run s).1 = .thrown then lostBy r.fault else 0)
          (r.exec.run s).2 ∧ FewChunks p (r.exec.run s).2.table := by
        rcases hends with hok | hthrown
        · rw [hok, if_neg (by rintro ⟨⟩)]
          exact hpost.ok_of_run (Prod.ext hok rfl)
        · rw [hthrown, if_pos rfl]
          exact hpost.thrown_of_run (Prod.ext hthrown rfl)
      have hlast := ih _ hrest hheldrest ((le_max_right _ _).trans hlargest) hnext.1 hnext.2
      rwa [Nat.add_assoc] at hlast

end Fum.Interface

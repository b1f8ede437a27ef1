import Fum.Analysis.PerfectHashing
import Fum.Interface.EmptyBucket

/-!
# Slot numbers

A slot number has 32 bits, and the last one is the end. `max_size()` is the number of
elements that leaves a slot to spare, but no insertion asks for it: the high-water mark is
compared with the chunks only. As long as nothing is added at `max_size()` every slot that
is handed out is a new one; what is added there is never refused.
-/

set_option autoImplicit false

namespace Fum.Interface

open Fum.Model Fum.Analysis Effects

variable {τ : Traits} {s s' : Store τ} {t : Table τ}

/-! ## Runs of insertions -/

/-- An insertion, in which the constructor of the element throws or nothing does. -/
structure Attempt (τ : Traits) where
  insertion : Insertion τ
  constructorThrows : Bool

/-- The exception that is due. -/
def Attempt.fault (a : Attempt τ) : Option (Point × ℕ) :=
  if a.constructorThrows then some (.construct, 0) else none

def Attempt.exec (a : Attempt τ) : Exec τ Bool where
  run s := a.insertion.exec.run ⟨s.table, withFault s.heap a.fault⟩

/-- The attempt returns or throws. -/
def Attempt.Ends (s : Store τ) (a : Attempt τ) : Prop :=
  (a.exec.run s).1 = .ok true ∨ (a.exec.run s).1 = .ok false ∨ (a.exec.run s).1 = .thrown

instance (s : Store τ) (a : Attempt τ) : Decidable (a.Ends s) :=
  inferInstanceAs (Decidable (_ ∨ _))

/-- Each attempt of the run satisfies `P` where it is made; one that gets stuck is the last. -/
def EachAttempt (P : Store τ → Attempt τ → Prop) : Store τ → List (Attempt τ) → Prop
  | _, [] => True
  | s, a :: rest => P s a ∧ (a.Ends s → EachAttempt P (a.exec.run s).2 rest)

/-- The store after a run. -/
def attempted : Store τ → List (Attempt τ) → Store τ
  | s, [] => s
  | s, a :: rest => attempted (a.exec.run s).2 rest

/-! ## What is asked of the slots -/

/-- A slot that `acquire_node` hands out is neither the end nor the slot of an element. -/
def AcquiresNew (t : Table τ) : Prop :=
  ∀ (heap : Heap) (slot : ℕ) (s' : Store τ),
    (acquireNode : Exec τ ℕ).run ⟨t, heap⟩ = (.ok slot, s') →
      slot ≠ kNullIndex ∧ slot ∉ t.iteration ∧ (t.nodeAt slot).storage = none

/-- The attempt would take the table past `max_size()`: the key is not there, and the element
can be constructed. -/
def Attempt.Overfills (t : Table τ) (a : Attempt τ) : Prop :=
  maxSize ≤ t.size ∧ a.constructorThrows = false ∧ ¬ a.insertion.Redundant t

instance (t : Table τ) (a : Attempt τ) : Decidable (a.Overfills t) :=
  inferInstanceAs (Decidable (_ ∧ _))

/-- An exception refuses the attempt and leaves the table alone. -/
def Attempt.Refused (s : Store τ) (a : Attempt τ) : Prop :=
  (a.exec.run s).1 = .thrown ∧ (a.exec.run s).2.table = s.table

/-- Every slot handed out is new, and what would take the table past `max_size()` is
refused. -/
def SlotsValid (s : Store τ) (a : Attempt τ) : Prop :=
  AcquiresNew s.table ∧ (a.Overfills s.table → a.Refused s)

/-! ## One attempt -/

theorem Attempt.callsReturn (a : Attempt τ) (heap : Heap) :
    CallsReturn (withFault heap a.fault).fault := by
  unfold Attempt.fault
  cases a.constructorThrows <;> simp [CallsReturn, faultPoint, withFault]

/-- Nothing refuses an attempt whose constructor does not throw. -/
theorem Attempt.not_refused (a : Attempt τ) (h : Arranged s.table [])
    (hmax : s.table.size ≤ maxSize) (hquiet : a.constructorThrows = false) : ¬ a.Refused s := by
  intro hrefused
  have hpost := a.insertion.exec_arranges (s := ⟨s.table, withFault s.heap a.fault⟩) h hmax
    (a.callsReturn s.heap)
  have hrun : a.exec.run s = (.thrown, (a.exec.run s).2) := Prod.ext hrefused.1 rfl
  have hloud := (hpost.thrown_of_run hrun).2
  apply hloud
  simp [Attempt.fault, hquiet, withFault]

/-- An attempt that does not overfill the table leaves the slots in order, and no more
elements than `max_size()`. -/
theorem Attempt.exec_within (a : Attempt τ) (h : Arranged s.table [])
    (hmax : s.table.size ≤ maxSize) (hfits : ¬ a.Overfills s.table) (hends : a.Ends s) :
    Arranged (a.exec.run s).2.table [] ∧ (a.exec.run s).2.table.size ≤ maxSize := by
  have harranges := a.insertion.exec_arranges (s := ⟨s.table, withFault s.heap a.fault⟩) h hmax
    (a.callsReturn s.heap)
  have hsizes := a.insertion.exec_enlarged ⟨s.table, withFault s.heap a.fault⟩
  have hfails := a.insertion.exec_fails (s := ⟨s.table, withFault s.heap a.fault⟩) h hmax
  have hredundant := a.insertion.exec_redundant (s := ⟨s.table, withFault s.heap a.fault⟩) h hmax
  rcases hends with hadded | hkept | hthrown
  · have hrun : a.exec.run s = (.ok true, (a.exec.run s).2) := Prod.ext hadded rfl
    have hlarge := hsizes.ok_of_run hrun
    refine ⟨harranges.ok_of_run hrun, ?_⟩
    have hsize : (a.exec.run s).2.table.size = s.table.size + 1 := hlarge.size
    have hquiet : a.constructorThrows = false := by
      by_contra hne
      have hthrows : a.constructorThrows = true := by simpa using hne
      have hfalse := (hfails (by simp [Attempt.fault, hthrows, withFault])).ok_of_run hrun
      cases hfalse
    have hnew : ¬ a.insertion.Redundant s.table := by
      intro hthere
      have hfalse := (hredundant (by simp [Attempt.fault, hquiet, withFault]) hthere).ok_of_run hrun
      cases hfalse
    have hlt : s.table.size < maxSize := by
      by_contra hge
      exact hfits ⟨not_lt.mp hge, hquiet, hnew⟩
    omega
  · have hrun : a.exec.run s = (.ok false, (a.exec.run s).2) := Prod.ext hkept rfl
    have hsame := hsizes.ok_of_run hrun
    exact ⟨harranges.ok_of_run hrun, hsame.size.trans_le hmax⟩
  · have hrun : a.exec.run s = (.thrown, (a.exec.run s).2) := Prod.ext hthrown rfl
    obtain ⟨harranged, hloud⟩ := harranges.thrown_of_run hrun
    have hthrows : a.constructorThrows = true := by
      by_contra hne
      apply hloud
      simp [Attempt.fault, hne, withFault]
    have hsame := (hfails (by simp [Attempt.fault, hthrows, withFault])).thrown_of_run hrun
    refine ⟨harranged, ?_⟩
    unfold Table.size
    rw [hsame]
    exact hmax

theorem acquiresNew_of_arranged (h : Arranged t []) (hmax : t.size ≤ maxSize) : AcquiresNew t := by
  intro heap slot s' hrun
  obtain ⟨hnull, hnot, hempty⟩ := h.acquire hmax hrun
  exact ⟨Nat.ne_of_lt hnull, hnot, hempty⟩

/-! ## Runs -/

/-- From slots in order, the slots stay valid exactly as long as nothing is added past
`max_size()`. -/
theorem eachAttempt_slotsValid_iff (attempts : List (Attempt τ)) :
    ∀ s : Store τ, Arranged s.table [] → s.table.size ≤ maxSize →
      (EachAttempt SlotsValid s attempts ↔
        EachAttempt (fun s a => ¬ a.Overfills s.table) s attempts) := by
  induction attempts with
  | nil => exact fun _ _ _ => Iff.rfl
  | cons a rest ih =>
      intro s h hmax
      have hfirst : SlotsValid s a ↔ ¬ a.Overfills s.table := by
        constructor
        · rintro ⟨-, hrefuses⟩ hover
          exact a.not_refused h hmax hover.2.1 (hrefuses hover)
        · intro hfits
          exact ⟨acquiresNew_of_arranged h hmax, fun hover => absurd hover hfits⟩
      unfold EachAttempt
      rw [hfirst]
      apply and_congr_right
      intro hfits
      apply forall_congr'
      intro hends
      obtain ⟨harranged, hwithin⟩ := a.exec_within h hmax hfits hends
      exact ih _ harranged hwithin

theorem fresh_arranged (factor : LoadFactor τ.rounding) (hash : τ.Key → UInt64)
    (equal : τ.Key → τ.Key → Bool) (alloc : τ.Alloc) :
    Arranged (fresh factor hash equal alloc).table [] := by
  obtain ⟨hslots, hfilled, -⟩ := initial_sound factor hash equal alloc
  exact Arranged.of_filled hslots hfilled

/-- In a run of insertions into a new table, in which constructors may throw and nothing else
does, every slot handed out is new and every insertion past `max_size()` is refused if and
only if none is attempted. -/
theorem slots_valid_iff_never_overfilled (factor : LoadFactor τ.rounding)
    (hash : τ.Key → UInt64) (equal : τ.Key → τ.Key → Bool) (alloc : τ.Alloc)
    (attempts : List (Attempt τ)) :
    EachAttempt SlotsValid (fresh factor hash equal alloc) attempts ↔
      EachAttempt (fun s a => ¬ a.Overfills s.table) (fresh factor hash equal alloc) attempts :=
  eachAttempt_slotsValid_iff attempts _ (fresh_arranged factor hash equal alloc) (Nat.zero_le _)

/-! ## A run that reaches the end -/

theorem attempted_append (xs ys : List (Attempt τ)) :
    ∀ s : Store τ, attempted s (xs ++ ys) = attempted (attempted s xs) ys := by
  induction xs with
  | nil => exact fun _ => rfl
  | cons a rest ih => exact fun s => ih _

theorem EachAttempt.snoc {P : Store τ → Attempt τ → Prop} {xs : List (Attempt τ)}
    {a : Attempt τ} : ∀ s : Store τ, EachAttempt P s xs → P (attempted s xs) a →
      EachAttempt P s (xs ++ [a]) := by
  induction xs with
  | nil => exact fun s _ ha => ⟨ha, fun _ => trivial⟩
  | cons b rest ih => exact fun s h ha => ⟨h.1, fun hends => ih _ (h.2 hends) ha⟩

theorem EachAttempt.mono {P P' : Store τ → Attempt τ → Prop} {xs : List (Attempt τ)} :
    ∀ s : Store τ, EachAttempt P s xs → (∀ s a, P s a → P' s a) → EachAttempt P' s xs := by
  induction xs with
  | nil => exact fun _ _ _ => trivial
  | cons b rest ih => exact fun s h hP => ⟨hP _ _ h.1, fun hends => ih _ (h.2 hends) hP⟩

/-- What holds of each attempt holds of the last, if those before it end. -/
theorem EachAttempt.last {P : Store τ → Attempt τ → Prop} {xs : List (Attempt τ)}
    {a : Attempt τ} : ∀ s : Store τ, EachAttempt P s (xs ++ [a]) →
      EachAttempt (fun s a => a.Ends s) s xs → P (attempted s xs) a := by
  induction xs with
  | nil => exact fun s h _ => h.1
  | cons b rest ih => exact fun s h hends => ih _ (h.2 hends.1) (hends.2 hends.1)

/-- A set of words whose hasher is avalanching. -/
abbrev WordSet : Traits := setTraits UInt64 true .exact id

/-- A new set of words under the hasher that reverses their bits. -/
def emptyWordSet : Store WordSet :=
  fresh (kDefaultMaxLoadFactor _) reverseBits (fun a b : UInt64 => a == b) ()

/-- The attempt to insert the number `n`. -/
def number (n : ℕ) : Attempt WordSet := ⟨.emplace (UInt64.ofNat n), false⟩

/-- Insertions of the numbers below `n`. -/
def numbers (n : ℕ) : List (Attempt WordSet) := (List.range n).map number

theorem numbers_succ (n : ℕ) : numbers (n + 1) = numbers n ++ [number n] := by
  unfold numbers
  rw [List.range_succ, List.map_append]
  rfl

/-- The hashes of the numbers. -/
def numberHash (n : ℕ) : UInt64 := reverseBits (UInt64.ofNat n)

/-- The set that holds the numbers below `n`. -/
structure HoldsNumbers (n : ℕ) (s : Store WordSet) : Prop where
  row : Row numberHash s
  size : s.table.size = n
  hashFunction : s.table.hashFunction = reverseBits

theorem HoldsNumbers.mixedHash {n : ℕ} {s : Store WordSet} (h : HoldsNumbers n s) :
    s.table.mixedHash (UInt64.ofNat n) = numberHash s.table.size := by
  unfold Table.mixedHash numberHash
  rw [h.hashFunction, h.size]
  rfl

/-- The next number is added, even past `max_size()`. -/
theorem HoldsNumbers.next {n : ℕ} {s : Store WordSet} (h : HoldsNumbers n s) (hn : n ≤ maxSize) :
    ((number n).exec.run s).1 = .ok true ∧ HoldsNumbers (n + 1) ((number n).exec.run s).2 := by
  have hmax : s.table.size ≤ maxSize := h.size.trans_le hn
  have hN : s.table.size < 2 ^ 63 := hmax.trans_lt (by decide)
  have hhash : s.table.mixedHash (WordSet.keyOf (UInt64.ofNat n)) = numberHash s.table.size :=
    h.mixedHash
  obtain ⟨s', hrun, hrow, hsize, hfunction⟩ :=
    h.row.emplace hmax spread_reverseBits hN hhash
  have hstart : (number n).exec.run s = (.ok true, s') := by
    have hheap : withFault s.heap (number n).fault = s.heap := by
      rw [show (number n).fault = s.heap.fault from h.row.quiet.symm, withFault_self]
    unfold Attempt.exec
    show (Insertion.emplace (UInt64.ofNat n)).exec.run ⟨s.table, withFault s.heap _⟩ = _
    rw [hheap]
    exact hrun
  rw [hstart]
  refine ⟨rfl, hrow, ?_, hfunction.trans h.hashFunction⟩
  rw [hsize, h.size]

theorem emptyWordSet_holds : HoldsNumbers 0 emptyWordSet where
  row :=
    { arranged := fresh_arranged _ _ _ _
      quiet := rfl
      inRow := fun j x hx => by cases hx
      homes := Or.inl ⟨rfl, rfl⟩ }
  size := rfl
  hashFunction := rfl

/-- The numbers are all added, as long as there are slots for them. -/
theorem numbers_added (n : ℕ) (hn : n ≤ maxSize + 1) :
    EachAttempt (fun s a => (a.exec.run s).1 = .ok true) emptyWordSet (numbers n) ∧
      HoldsNumbers n (attempted emptyWordSet (numbers n)) := by
  induction n with
  | zero => exact ⟨trivial, emptyWordSet_holds⟩
  | succ n ih =>
      obtain ⟨hadded, hholds⟩ := ih (by omega)
      obtain ⟨hnext, hholds'⟩ := hholds.next (by omega)
      rw [numbers_succ]
      refine ⟨hadded.snoc _ hnext, ?_⟩
      rw [attempted_append]
      exact hholds'

/-- The number that comes next is not in the set. -/
theorem HoldsNumbers.not_redundant {n : ℕ} {s : Store WordSet} (h : HoldsNumbers n s)
    (hn : n ≤ maxSize) : ¬ (number n).insertion.Redundant s.table := by
  have hN : s.table.size < 2 ^ 63 := (h.size.trans_le hn).trans_lt (by decide)
  exact h.row.homes.not_containsKey spread_reverseBits hN h.mixedHash

/-- At `max_size()` the next number is not refused. -/
theorem HoldsNumbers.not_slotsValid {n : ℕ} {s : Store WordSet} (h : HoldsNumbers n s)
    (hn : n = maxSize) : ¬ SlotsValid s (number n) := by
  intro hvalid
  have hover : (number n).Overfills s.table :=
    ⟨by rw [h.size, hn], rfl, h.not_redundant hn.le⟩
  exact (number n).not_refused h.row.arranged (h.size.trans_le hn.le) rfl (hvalid.2 hover)

theorem numbers_not_slotsValid {n : ℕ} (hn : n = maxSize) :
    ¬ EachAttempt SlotsValid emptyWordSet (numbers (n + 1)) := by
  intro hvalid
  obtain ⟨hadded, hholds⟩ := numbers_added n (by omega)
  rw [numbers_succ] at hvalid
  have hends : EachAttempt (fun s a => a.Ends s) emptyWordSet (numbers n) :=
    hadded.mono _ fun s a h => Or.inl h
  exact hholds.not_slotsValid hn (EachAttempt.last _ hvalid hends)

theorem numbers_overfill {n : ℕ} (hn : n = maxSize) :
    ¬ EachAttempt SlotsValid emptyWordSet (numbers (n + 1)) ∧
      EachAttempt (fun s a => (a.exec.run s).1 = .ok true) emptyWordSet (numbers (n + 1)) ∧
      ∃ s s1 s2, attempted emptyWordSet (numbers (n + 1)) = s ∧ s.table.size = n + 1 ∧
        (acquireNode : Exec WordSet ℕ).run s = (.ok kNullIndex, s1) ∧
        (acquireNode : Exec WordSet ℕ).run s1 = (.ok 0, s2) ∧ 0 ∈ s.table.iteration := by
  obtain ⟨hadded, hholds⟩ := numbers_added (n + 1) (by omega)
  have hsize : (attempted emptyWordSet (numbers (n + 1))).table.size = maxSize + 1 := by
    rw [hholds.size, hn]
  obtain ⟨s1, s2, hacquires⟩ := hholds.row.arranged.acquires_end hsize
  exact ⟨numbers_not_slotsValid hn, hadded, _, s1, s2, rfl, hholds.size, hacquires⟩

/-- The numbers below `2 ^ 32 - 1` are all added to a new set, one past `max_size()`, and the
last one is not refused. The next two slots that are handed out are the end, and the slot of
an element. -/
theorem numbers_overfill_slots :
    ¬ EachAttempt SlotsValid emptyWordSet (numbers (maxSize + 1)) ∧
      EachAttempt (fun s a => (a.exec.run s).1 = .ok true) emptyWordSet (numbers (maxSize + 1)) ∧
      ∃ s s1 s2, attempted emptyWordSet (numbers (maxSize + 1)) = s ∧
        s.table.size = maxSize + 1 ∧
        (acquireNode : Exec WordSet ℕ).run s = (.ok kNullIndex, s1) ∧
        (acquireNode : Exec WordSet ℕ).run s1 = (.ok 0, s2) ∧ 0 ∈ s.table.iteration :=
  numbers_overfill rfl

end Fum.Interface

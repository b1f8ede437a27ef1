import Fum.Analysis.GrowthCosts
import Fum.Interface.EmptyBucket

/-!
# Amortised growth

A table that nobody asks to rebuild pays for its growths out of its insertions: over any
sequence of calls from a new table on, all `rehash_to` together place at most two elements anew
for each element that the calls inserted, whatever is erased in between and wherever calls throw.
-/

set_option autoImplicit false

namespace Fum.Interface

open Fum.Model Fum.Analysis Effects

variable {τ : Traits} {s : Store τ} {n : ℕ} {factor : LoadFactor τ.rounding}
  {requests : List (Request τ)}

/-- The call asks for buckets, or sets the load factor. -/
def plansGrowth : Call τ → Bool
  | .member (.rehash _) | .member (.reserve _) | .member (.maxLoadFactor _) => true
  | _ => false

/-- The request leaves it to the table when to grow. -/
def LeavesGrowth (_ : Table τ) (r : Request τ) : Prop := plansGrowth r.call = false

instance (t : Table τ) (r : Request τ) : Decidable (LeavesGrowth t r) :=
  inferInstanceAs (Decidable (_ = false))

/-- The elements by which the requests made the table larger, each of them by its own. -/
def gained : Store τ → List (Request τ) → ℕ
  | _, [] => 0
  | s, r :: rest =>
      ((r.exec.run s).2.table.size - s.table.size) + gained (r.exec.run s).2 rest

/-- One request adds to what has been paid in what it adds to the table, and the growth that
comes with it never needs more. -/
theorem Request.exec_paid (hf : Ample factor) (r : Request τ) (hr : LeavesGrowth s.table r)
    (hb : Below factor 0 s.table) (hp : Paid n s) :
    Action.Post Stuck.anyhow r.exec s
      (fun _ s' => Gained n s.table.size s' ∧ Below factor 0 s'.table)
      (fun s' => Gained n s.table.size s' ∧ Below factor 0 s'.table) := by
  obtain ⟨call, fault⟩ := r
  have hp' : Paid n (⟨s.table, withFault s.heap fault⟩ : Store τ) := ⟨hp.moved, hp.saved⟩
  have hbelow : Resilient fun s : Store τ => Below factor 0 s.table := below_resilient hf
  have hcall : Action.Post Stuck.anyhow call.exec ⟨s.table, withFault s.heap fault⟩
      (fun _ s' => Gained n s.table.size s' ∧ Below factor 0 s'.table)
      (fun s' => Gained n s.table.size s' ∧ Below factor 0 s'.table) := by
    cases call with
    | member op =>
        have hkeeps : Action.Keeps (fun s : Store τ => Below factor 0 s.table) op.exec :=
          hbelow.op op fun z hz => by
            subst hz
            cases hr
        have hpaid : Action.Post Stuck.anyhow op.exec ⟨s.table, withFault s.heap fault⟩
            (fun _ => Gained n s.table.size) (Gained n s.table.size) :=
          Op.exec_paid (s := ⟨s.table, withFault s.heap fault⟩) hb hp'
            (fun k hk => by subst hk; cases hr) (fun k hk => by subst hk; cases hr)
            fun z hz => by subst hz; cases hr
        exact Action.Post.bind (hpaid.and (Action.Keeps.post hkeeps hb)) (fun _ h' => h')
          fun _ _ h' => h'
    | insertNode handle =>
        have hkeeps := hbelow.attach.insertNode hbelow.toSteady handle
        have hpaid := insertNode_paid (s := ⟨s.table, withFault s.heap fault⟩) hb hp' handle
        exact Action.Post.bind (hpaid.and (Action.Keeps.post hkeeps hb)) (fun _ h' => h')
          fun _ _ h' => h'
  exact hcall

/-- The requests pay one after another. -/
theorem Served.paid (hf : Ample factor) (s : Store τ) (hserved : Served LeavesGrowth s requests)
    (hb : Below factor 0 s.table) (hp : Paid n s) :
    Paid (n + gained s requests) (after s requests) := by
  induction requests generalizing s n with
  | nil => exact hp
  | cons r rest ih =>
      obtain ⟨hr, hends, hrest⟩ := hserved
      have hpost := r.exec_paid hf hr hb hp
      have hnext : Gained n s.table.size (r.exec.run s).2 ∧
          Below factor 0 (r.exec.run s).2.table := by
        rcases hends with hok | hthrown
        · exact hpost.ok_of_run (Prod.ext hok rfl)
        · exact hpost.thrown_of_run (Prod.ext hthrown rfl)
      have hlast := ih _ hrest hnext.2 hnext.1
      rwa [Nat.add_assoc] at hlast

/-- From a new table on, with a load factor between 1/8 and one, calls that ask for no buckets
and set no load factor rebuild the index at the cost of at most two moves for each element
that they inserted. -/
theorem growth_amortised (hf : Ample factor) (hash : τ.Key → UInt64)
    (equal : τ.Key → τ.Key → Bool) (alloc : τ.Alloc)
    (hserved : Served LeavesGrowth (fresh factor hash equal alloc) requests) :
    moves (after (fresh factor hash equal alloc) requests).heap ≤
      2 * gained (fresh factor hash equal alloc) requests := by
  have hnew : Paid 0 (fresh factor hash equal alloc : Store τ) := ⟨le_rfl, Or.inl rfl⟩
  have hpaid := Served.paid hf _ hserved (below_initial hash equal alloc) hnew
  have hmoved := hpaid.moved
  rwa [Nat.zero_add] at hmoved

/-- Fifteen insertions into a map of naturals that outgrows 8 and then 16 buckets. One more
throws after it has grown the index, and two erasures come in between. -/
def outgrowing : List (Request NatMap) :=
  (List.range 6).map (fun i => ⟨.member (.insert (i, i)), none⟩) ++
    [⟨.member (.insert (6, 6)), some (.iterationGrowth, 0)⟩, ⟨.member (.insert (6, 6)), none⟩,
      ⟨.member (.eraseKey 2), none⟩, ⟨.member (.insertOrAssign 2 20), none⟩,
      ⟨.member (.eraseKey 3), none⟩] ++
    (List.range 7).map (fun i => ⟨.member (.tryEmplace (i + 7) i), none⟩)

theorem growth_amortised_outgrowing :
    moves (after emptyMap outgrowing).heap ≤ 2 * gained emptyMap outgrowing ∧
      moves (after emptyMap outgrowing).heap = 18 ∧ gained emptyMap outgrowing = 15 := by
  have hserved : Served LeavesGrowth emptyMap outgrowing := by decide +kernel
  exact ⟨growth_amortised ample_default _ _ _ hserved, by decide +kernel, by decide +kernel⟩

end Fum.Interface

import Mathlib.Algebra.Order.Group.Multiset
import Mathlib.Data.List.Nodup
import Mathlib.Data.List.Perm.Basic

/-!
# Conservation of identities

Two logs record which identities were opened and which were closed. The account is
settled against what is held if every identity opened has been closed or is held, and
none was opened twice; then none is closed twice, and when nothing is held, everything
opened has been closed exactly once.
-/

set_option autoImplicit false

namespace Conservation

/-- Every identity opened is closed or held; identities are opened once, from a counter
that has reached `next`. -/
structure Settled (next : ℕ) (opened closed : List ℕ) (held : Multiset ℕ) : Prop where
  conserved : (opened : Multiset ℕ) = (closed : Multiset ℕ) + held
  nodup : opened.Nodup
  below : ∀ id ∈ opened, id < next

variable {next next' id : ℕ} {opened closed : List ℕ} {held : Multiset ℕ}

theorem Settled.empty (next : ℕ) : Settled next [] [] 0 where
  conserved := rfl
  nodup := List.nodup_nil
  below := by simp

theorem Settled.mono (h : Settled next opened closed held) (hle : next ≤ next') :
    Settled next' opened closed held where
  conserved := h.conserved
  nodup := h.nodup
  below id hid := Nat.lt_of_lt_of_le (h.below id hid) hle

/-- An account that a step leaves alone, while the counter moves on. -/
theorem Settled.keep (h : Settled next opened closed held) (hle : next ≤ next') :
    Settled next' opened closed (held + 0) := by
  rw [add_zero]
  exact h.mono hle

/-- An account that a step leaves alone, when nothing of it is given up. -/
theorem Settled.spare (h : Settled next opened closed (held + 0)) :
    Settled next opened closed held := by
  rwa [add_zero] at h

/-- An identity taken from the counter is held. -/
theorem Settled.acquire (h : Settled next opened closed held) :
    Settled (next + 1) (opened ++ [next]) closed (held + {next}) where
  conserved := by
    rw [← Multiset.coe_add, h.conserved, add_assoc]
    rfl
  nodup := by
    rw [List.nodup_append]
    refine ⟨h.nodup, List.nodup_singleton _, fun a ha b hb heq => ?_⟩
    rw [List.mem_singleton] at hb
    have := h.below a ha
    omega
  below id hid := by
    rcases List.mem_append.mp hid with hid | hid
    · exact Nat.lt_succ_of_lt (h.below id hid)
    · rw [List.mem_singleton.mp hid]
      exact Nat.lt_succ_self _

/-- A held identity is given back. -/
theorem Settled.giveBack (h : Settled next opened closed (held + {id})) :
    Settled next opened (closed ++ [id]) held where
  conserved := by
    have hc := h.conserved
    rw [← Multiset.coe_add]
    rw [hc, add_assoc, add_comm held]
    rfl
  nodup := h.nodup
  below := h.below

/-- What has been opened and not closed is held. -/
theorem Settled.mem_held (h : Settled next opened closed held) (hopened : id ∈ opened)
    (hclosed : id ∉ closed) : id ∈ held := by
  have hmem : id ∈ (closed : Multiset ℕ) + held := by
    rw [← h.conserved]
    exact hopened
  exact (Multiset.mem_add.mp hmem).resolve_left hclosed

/-- When nothing is held, everything opened has been closed, and exactly once. -/
theorem Settled.all_closed (h : Settled next opened closed 0) :
    closed.Perm opened ∧ closed.Nodup := by
  have hc := h.conserved
  rw [add_zero] at hc
  have hperm := Multiset.coe_eq_coe.mp hc.symm
  exact ⟨hperm, hperm.nodup_iff.mpr h.nodup⟩

end Conservation

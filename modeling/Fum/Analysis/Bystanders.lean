import Fum.Analysis.Merging
import Fum.Analysis.TableInvariants

/-!
# Statements about other objects

A statement that does not write to a table leaves everything about it as it is, also
where it reads the table or brings a new one into the program.
-/

set_option autoImplicit false

namespace Fum.Analysis

open Fum.Model Effects

variable {τ : Traits} {α β : Type} {i j : ℕ} {u : Table τ} {I : Table τ → Prop}

/-- The statement does not write to the table `i`. -/
def Aside (i : ℕ) : WorldOp τ → Prop
  | .table j _ | .insertHandle _ j _ | .assignValues j _ | .destroy j => j ≠ i
  | .moveConstruct j | .moveConstructWith j _ => j ≠ i
  | .copyAssign j k => j ≠ i ∨ j = k
  | .moveAssign j k | .swap j k => j ≠ i ∧ k ≠ i ∨ j = k
  | .merge j k => j ≠ i ∧ k ≠ i
  | _ => True

instance (i : ℕ) : ∀ op : WorldOp τ, Decidable (Aside i op)
  | .table j _ | .insertHandle _ j _ | .assignValues j _ | .destroy j | .moveConstruct j
  | .moveConstructWith j _ => inferInstanceAs (Decidable (j ≠ i))
  | .copyAssign j k => inferInstanceAs (Decidable (j ≠ i ∨ j = k))
  | .moveAssign j k | .swap j k => inferInstanceAs (Decidable (j ≠ i ∧ k ≠ i ∨ j = k))
  | .merge j k => inferInstanceAs (Decidable (j ≠ i ∧ k ≠ i))
  | .construct _ _ _ _ | .constructRange _ _ _ _ _ | .copyConstruct _ | .copyConstructWith _ _
  | .handleDefault | .handleMove _ | .handleAssign _ _ | .handleSwap _ _ | .handleDestroy _ =>
      isTrue trivial

/-- A call that writes nothing may be one on the table itself. -/
theorem keeps_look {x : Exec τ α} (hx : ∀ J : Store τ → Prop, Action.Keeps J x) :
    Action.Keeps (On i I) (onTable j x) := by
  by_cases hj : j = i
  · subst hj
    exact keeps_onTable (hx _)
  · exact keeps_onTable_of_ne hj x

theorem keeps_readTable_on {f : Table τ → Action (World τ) β}
    (hf : ∀ t, Action.Keeps (On i I) (f t)) : Action.Keeps (On i I) (readTable j >>= f) :=
  Action.Keeps.bind (keeps_look fun _ _ hs => hs) hf

/-- A new table is not the table `i`. -/
theorem keeps_newTable_on {f : ℕ → Action (World τ) β}
    (hf : ∀ n, n ≠ i → Action.Keeps (On i I) (f n)) :
    Action.Keeps (On i I) (newTable u >>= f) := by
  rintro w ⟨t, ht, hI⟩
  have hlt := lt_of_join_eq_some ht
  exact hf w.tables.length (Nat.ne_of_gt hlt) _ ⟨t, table?_append_of_some ht u, hI⟩

theorem keeps_dropTable_on (hne : j ≠ i) :
    Action.Keeps (On i I) (dropTable j : Action (World τ) Unit) := by
  rintro w ⟨t, ht, hI⟩
  exact ⟨t, (table?_setTable_of_ne hne none).trans ht, hI⟩

theorem keeps_destroy_on (hne : j ≠ i) :
    Action.Keeps (On i I) (destroy j : Action (World τ) Unit) :=
  Action.Keeps.bind (keeps_onTable_of_ne hne _) fun _ => keeps_dropTable_on hne

theorem keeps_copyContentsFrom_on (hne : j ≠ i) (source : ℕ) :
    Action.Keeps (On i I) (copyContentsFrom j source : Action (World τ) Unit) := by
  apply keeps_readTable_on
  intro other
  refine Action.Keeps.ite (Action.Keeps.pure _) ?_
  apply Action.Keeps.bind (keeps_onTable_of_ne hne _)
  intro _
  apply Action.Keeps.forEach
  intro node _
  exact Action.Keeps.bind (keeps_look fun _ => keeps_elementAt node) fun _ =>
    Action.Keeps.bind (keeps_onTable_of_ne hne _) fun _ => Action.Keeps.pure _

theorem keeps_moveContentsFrom_on {source : ℕ} (hne : j ≠ i) (hsource : source ≠ i) :
    Action.Keeps (On i I) (moveContentsFrom j source : Action (World τ) Unit) := by
  apply keeps_readTable_on
  intro other
  apply Action.Keeps.bind (keeps_onTable_of_ne hne _)
  intro _
  refine Action.Keeps.bind (Action.Keeps.forEach fun node _ => ?_) fun _ =>
    keeps_onTable_of_ne hsource _
  exact Action.Keeps.bind (keeps_onTable_of_ne hsource _) fun _ =>
    Action.Keeps.bind (keeps_movingNode (keeps_onTable_of_ne hne _)
      (keeps_onTable_of_ne hsource _)) fun _ => Action.Keeps.pure _

theorem keeps_stealStorage_on {source : ℕ} (hne : j ≠ i) (hsource : source ≠ i) :
    Action.Keeps (On i I) (stealStorage j source : Action (World τ) Unit) :=
  keeps_readTable_on fun _ => keeps_readTable_on fun _ => Action.Keeps.ite
    (Action.Keeps.bind (keeps_onTable_of_ne hne _) fun _ => keeps_onTable_of_ne hsource _)
    Action.Keeps.undefined

theorem keeps_construct_on {n : ℕ} {hash : τ.Key → UInt64} {equal : τ.Key → τ.Key → Bool}
    {alloc : τ.Alloc} {f : ℕ → Action (World τ) β}
    (hf : ∀ k, k ≠ i → Action.Keeps (On i I) (f k)) :
    Action.Keeps (On i I) (construct n hash equal alloc >>= f) := by
  unfold construct
  rw [Action.bind_assoc]
  apply keeps_newTable_on
  intro k hk
  rw [Action.bind_assoc]
  refine Action.Keeps.bind (Action.Keeps.cleanup ?_ (keeps_dropTable_on hk)) fun _ => hf k hk
  exact Action.Keeps.ite (keeps_onTable_of_ne hk _) (Action.Keeps.pure _)

theorem keeps_constructRange_on {values : List τ.Value} {n : ℕ} {hash : τ.Key → UInt64}
    {equal : τ.Key → τ.Key → Bool} {alloc : τ.Alloc} :
    Action.Keeps (On i I) (constructRange values n hash equal alloc) := by
  apply keeps_construct_on
  intro k hk
  exact Action.Keeps.bind (Action.Keeps.cleanup (keeps_onTable_of_ne hk _) (keeps_destroy_on hk))
    fun _ => Action.Keeps.pure _

theorem keeps_copyConstructWith_on (source : ℕ) (alloc : τ.Alloc) :
    Action.Keeps (On i I) (copyConstructWith source alloc) := by
  apply keeps_readTable_on
  intro other
  apply keeps_newTable_on
  intro k hk
  exact Action.Keeps.bind (Action.Keeps.cleanup (keeps_copyContentsFrom_on hk source)
    (keeps_dropTable_on hk)) fun _ => Action.Keeps.pure _

theorem keeps_moveConstructWith_on {source : ℕ} (hsource : source ≠ i) (alloc : τ.Alloc) :
    Action.Keeps (On i I) (moveConstructWith source alloc) := by
  apply keeps_readTable_on
  intro other
  apply keeps_newTable_on
  intro k hk
  exact Action.Keeps.bind (Action.Keeps.cleanup (Action.Keeps.ite
    (keeps_stealStorage_on hk hsource) (keeps_moveContentsFrom_on hk hsource))
    (keeps_dropTable_on hk)) fun _ => Action.Keeps.pure _

theorem keeps_copyAssign_on {k : ℕ} (h : j ≠ i ∨ j = k) :
    Action.Keeps (On i I) (copyAssign j k : Action (World τ) Unit) := by
  unfold copyAssign
  split
  · exact Action.Keeps.pure _
  rename_i hjk
  have hj : j ≠ i := h.resolve_right hjk
  refine keeps_readTable_on fun source => keeps_readTable_on fun t => Action.Keeps.ite ?_ ?_
  · exact Action.Keeps.bind (keeps_onTable_of_ne hj _) fun _ =>
      Action.Keeps.bind (keeps_onTable_of_ne hj _) fun _ => keeps_copyContentsFrom_on hj k
  · exact Action.Keeps.bind (keeps_onTable_of_ne hj _) fun _ =>
      Action.Keeps.bind (keeps_onTable_of_ne hj _) fun _ =>
        Action.Keeps.bind (keeps_onTable_of_ne hj _) fun _ => keeps_copyContentsFrom_on hj k

theorem keeps_moveAssign_on {k : ℕ} (h : j ≠ i ∧ k ≠ i ∨ j = k) :
    Action.Keeps (On i I) (moveAssign j k : Action (World τ) Unit) := by
  unfold moveAssign
  split
  · exact Action.Keeps.pure _
  rename_i hjk
  obtain ⟨hj, hk⟩ := h.resolve_right hjk
  refine keeps_readTable_on fun source => keeps_readTable_on fun t => Action.Keeps.ite ?_ ?_
  · exact Action.Keeps.bind (keeps_onTable_of_ne hj _) fun _ =>
      Action.Keeps.bind (keeps_onTable_of_ne hj _) fun _ => keeps_stealStorage_on hj hk
  · exact Action.Keeps.bind (keeps_onTable_of_ne hj _) fun _ =>
      Action.Keeps.bind (keeps_onTable_of_ne hj _) fun _ => keeps_moveContentsFrom_on hj hk

theorem keeps_swap_on {k : ℕ} (h : j ≠ i ∧ k ≠ i ∨ j = k) :
    Action.Keeps (On i I) (swap j k : Action (World τ) Unit) := by
  unfold swap
  split
  · exact Action.Keeps.pure _
  rename_i hjk
  obtain ⟨hj, hk⟩ := h.resolve_right hjk
  refine keeps_readTable_on fun a => keeps_readTable_on fun b => ?_
  exact Action.Keeps.ite (Action.Keeps.bind (keeps_onTable_of_ne hj _) fun _ =>
    keeps_onTable_of_ne hk _) Action.Keeps.undefined

theorem keeps_mergeFrom_on {k : ℕ} (hj : j ≠ i) (hk : k ≠ i) :
    Action.Keeps (On i I) (mergeFrom j k : Action (World τ) Unit) := by
  apply Action.Keeps.bind (keeps_onTable_of_ne hj _)
  intro _
  apply keeps_readTable_on
  intro other
  apply Action.Keeps.forEach
  intro node _
  apply Action.Keeps.bind (keeps_onTable_of_ne hk _)
  intro key
  apply Action.Keeps.bind (keeps_onTable_of_ne hj _)
  intro present
  refine Action.Keeps.ite (Action.Keeps.pure _) ?_
  exact Action.Keeps.bind (keeps_onTable_of_ne hk _) fun _ =>
    Action.Keeps.bind (keeps_onTable_of_ne hk _) fun _ =>
      Action.Keeps.bind (keeps_onTable_of_ne hk _) fun _ =>
        Action.Keeps.bind (keeps_movingNode (keeps_onTable_of_ne hj _)
          (keeps_onTable_of_ne hk _)) fun _ => keeps_onTable_of_ne hk _

theorem keeps_insertHandle_on {hinted : Bool} {h : ℕ} (hj : j ≠ i) :
    Action.Keeps (On i I) (insertHandle hinted j h : Action (World τ) (ℕ × Bool)) := by
  apply keeps_readHandle
  intro handle
  have hcall := keeps_onTable_of_ne (I := I) hj (insertNode handle)
  have hmoving : Action.Keeps (On i I) (movingHandle h (onTable j (insertNode handle))) := by
    intro w hw
    have h' := hcall { w with heap := { w.heap with moved := false } } hw
    simp only [movingHandle]
    split
    · exact h'
    · exact h'
  refine Action.Keeps.bind hmoving fun r => Action.Keeps.bind (fun _ hw => hw) fun _ => ?_
  cases hinted with
  | true => exact Action.Keeps.bind (fun _ hw => hw) fun _ => Action.Keeps.pure _
  | false => exact Action.Keeps.bind (fun _ hw => hw) fun _ => Action.Keeps.pure _

theorem keeps_keepReply_on (reply : Reply τ) : Action.Keeps (On i I) (keepReply reply) := by
  cases reply with
  | node handle => exact Action.Keeps.bind (fun _ hw => hw) fun _ => Action.Keeps.pure _
  | _ => exact Action.Keeps.pure _

theorem keeps_aside {op : WorldOp τ} (h : Aside i op) : Action.Keeps (On i I) op.exec := by
  have hignoring : ∀ {γ : Type} {y : Action (World τ) γ}, Action.Keeps (On i I) y →
      Action.Keeps (On i I) (ignoring y) := fun hy =>
    Action.Keeps.bind hy fun _ => Action.Keeps.pure _
  cases op with
  | construct n hash equal alloc => exact keeps_construct_on fun _ _ => Action.Keeps.pure _
  | constructRange values n hash equal alloc => exact hignoring keeps_constructRange_on
  | copyConstruct source =>
      exact hignoring (keeps_readTable_on fun _ => keeps_copyConstructWith_on source _)
  | copyConstructWith source alloc => exact hignoring (keeps_copyConstructWith_on source alloc)
  | moveConstruct source =>
      apply hignoring
      refine keeps_readTable_on fun _ => keeps_newTable_on fun _ _ => ?_
      exact Action.Keeps.bind (keeps_onTable_of_ne h _) fun _ => Action.Keeps.pure _
  | moveConstructWith source alloc => exact hignoring (keeps_moveConstructWith_on h alloc)
  | destroy j => exact keeps_destroy_on h
  | copyAssign j k => exact keeps_copyAssign_on h
  | moveAssign j k => exact keeps_moveAssign_on h
  | assignValues j values => exact keeps_onTable_of_ne h _
  | swap j k => exact keeps_swap_on h
  | merge j k => exact keeps_mergeFrom_on h.1 h.2
  | table j op => exact Action.Keeps.bind (keeps_onTable_of_ne h _) keeps_keepReply_on
  | insertHandle hinted j hd => exact hignoring (keeps_insertHandle_on h)
  | handleDefault => exact hignoring fun _ hw => hw
  | handleMove source =>
      exact hignoring (keeps_readHandle fun _ => Action.Keeps.bind (fun _ hw => hw) fun _ =>
        Action.Keeps.bind (fun _ hw => hw) fun _ => Action.Keeps.pure _)
  | handleAssign j k =>
      exact Action.Keeps.ite (Action.Keeps.pure _) (keeps_readHandle fun _ =>
        keeps_readHandle fun _ => Action.Keeps.bind (fun _ hw => hw) fun _ =>
          Action.Keeps.bind (fun _ hw => hw) fun _ _ hw => hw)
  | handleSwap j k =>
      exact keeps_readHandle fun _ => keeps_readHandle fun _ =>
        Action.Keeps.bind (fun _ hw => hw) fun _ _ hw => hw
  | handleDestroy hd =>
      exact keeps_readHandle fun _ => Action.Keeps.bind (fun _ hw => hw) fun _ _ hw => hw

end Fum.Analysis

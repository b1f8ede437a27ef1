import Fum.Analysis.FieldInvariants
import Fum.Analysis.Objects

/-!
# The statements of a program keep the accounts

Constructors, assignments, swap, merge and the operations on node handles, each judged
on the whole program. What an exception can lose is named: a chunk for which `chunks_`
did not grow, and the contents of a table whose constructor did not complete.
-/

set_option autoImplicit false

namespace Fum.Analysis

open Fum.Model Effects

variable {τ : Traits} {α β : Type} {lost lost' : Holdings} {w w' w1 : World τ} {i j : ℕ}
  {t : Table τ} {s : Store τ}

/-! ## Calls on one table -/

/-- The statement keeps the accounts, and the fault stays where it is. -/
def WorldAccounts (lost : Holdings) (w w' : World τ) : Prop :=
  WorldSound lost w' ∧ faultPoint w'.heap.fault = faultPoint w.heap.fault

theorem WorldSound.accounts (h : WorldSound lost w) (ht : w.table? i = some t)
    (hs : Accounts (restOf w i + lost') ⟨t, w.heap⟩ s) :
    WorldAccounts lost' w (withStore w i s) := ⟨h.store ht hs.1, hs.2⟩

/-- A member function called on one table of a sound world. -/
theorem onTable_sound {x : Exec τ α} {gain : α → Holdings} (h : WorldSound lost w)
    (hx : ∀ t, w.table? i = some t → Action.Post Stuck.anyhow x ⟨t, w.heap⟩
      (fun a => Accounts (restOf w i + lost + gain a) ⟨t, w.heap⟩)
      (SoundThrown (restOf w i + lost) (faultPoint w.heap.fault))) :
    Action.Post Stuck.anyhow (onTable i x) w (fun a => WorldAccounts (lost + gain a) w)
      (WorldThrown lost (NoChunksGrowth w.heap.fault)) := by
  refine post_onTable (fun t ht => ?_) fun _ => trivial
  refine (hx t ht).mono (fun a s' h' => ?_) (fun s' h' => h.store_thrown ht h') fun _ h' => h'
  rw [add_assoc] at h'
  exact h.accounts ht h'

/-- Reading an element of a table changes nothing. -/
theorem post_elementAt_onTable {node : ℕ} {k : Element τ → Action (World τ) β}
    {Q : β → World τ → Prop} {E : World τ → Prop}
    (hk : ∀ e, Action.Post Stuck.anyhow (k e) w Q E) :
    Action.Post Stuck.anyhow (onTable i (elementAt node) >>= k) w Q E := by
  refine post_onTable_bind (fun t ht => ?_) fun _ => trivial
  refine Action.Post.of_bind_pure (post_elementAt (fun e _ => ?_) fun _ => trivial)
  rw [post_pure, withStore_self ht]
  exact hk e

theorem WorldSound.reset (h : WorldSound lost w) (fault : Option (Point × ℕ)) (moved : Bool) :
    WorldSound lost { w with heap := { w.heap with fault := fault, moved := moved } } :=
  h.reheap fun hb => ⟨hb.1, hb.2, hb.3, hb.4⟩

/-! ## Objects that come and go -/

theorem table?_append (w : World τ) (i : ℕ) (t : Table τ) :
    ({ w with tables := w.tables ++ [some t] } : World τ).table? i =
      if i = w.tables.length then some t else w.table? i := by
  unfold World.table?
  by_cases hi : i = w.tables.length
  · rw [if_pos hi, hi]
    simp
  · rw [if_neg hi]
    rcases Nat.lt_or_gt_of_ne hi with hlt | hgt
    · rw [List.getElem?_append_left hlt]
    · rw [List.getElem?_eq_none (by simp; omega), List.getElem?_eq_none (by omega)]

/-- A new object that owns nothing. -/
theorem WorldSound.newTable (h : WorldSound lost w) (hs : Slots t [])
    (hf : Filled t t.iteration) (howns : tableOwns t = 0) :
    WorldSound lost { w with tables := w.tables ++ [some t] } where
  tables j t' ht' := by
    rw [table?_append] at ht'
    split at ht'
    · cases ht'
      exact ⟨hs, hf⟩
    · exact h.tables j t' ht'
  balanced := by
    have heq : World.owns { w with tables := w.tables ++ [some t] } = World.owns w := by
      unfold World.owns
      rw [total_append, show (some t).elim 0 tableOwns = tableOwns t from rfl, howns, add_zero]
    rw [heq]
    exact h.balanced

theorem initial_sound (factor : LoadFactor τ.rounding) (hash : τ.Key → UInt64)
    (equal : τ.Key → τ.Key → Bool) (alloc : τ.Alloc) :
    Slots (Table.initial factor hash equal alloc : Table τ) [] ∧
      Filled (Table.initial factor hash equal alloc : Table τ)
        (Table.initial factor hash equal alloc : Table τ).iteration ∧
      tableOwns (Table.initial factor hash equal alloc : Table τ) = 0 := by
  refine ⟨⟨⟨[], rfl, List.Perm.refl _⟩, Nat.zero_le _, Nat.zero_le _, fun p j hj => ?_⟩,
    fun j => ?_, rfl⟩
  · cases hj
  · have hnode : (Table.initial factor hash equal alloc : Table τ).nodeAt j = Node.raw := by
      simp [Table.nodeAt, Table.initial]
    rw [hnode]
    simp [Node.raw, Table.initial]

/-- A table that goes without a destructor loses what it owns. -/
theorem WorldSound.dropTable (h : WorldSound lost w) (ht : w.table? i = some t) :
    WorldSound (lost + tableOwns t) (w.setTable i none) where
  tables j t' ht' := by
    by_cases hj : i = j
    · subst hj
      rw [table?_setTable_self ht] at ht'
      cases ht'
    · rw [table?_setTable_of_ne hj] at ht'
      exact h.tables j t' ht'
  balanced := by
    have hbal := h.balanced
    rw [World.owns_eq ht, add_comm (tableOwns t), add_assoc, add_comm (tableOwns t)] at hbal
    exact hbal

/-- A destroyed table leaves nothing behind. -/
theorem destroy_sound (h : WorldSound lost w) :
    Action.Post Stuck.anyhow (destroy i) w (fun _ => WorldAccounts lost w)
      (fun _ => False) := by
  unfold destroy
  refine post_onTable_bind (fun t ht => ?_) fun _ => trivial
  refine (destroyEverything_sound (h.table ht)).mono ?_ (fun _ h' => h') fun _ h' => h'
  rintro - s' ⟨hb, -, -, -, hfault⟩
  refine ⟨⟨fun j t' ht' => ?_, ?_⟩, congrArg faultPoint hfault⟩
  · have ht'' : ((w.setTable i (some s'.table)).setTable i none).table? j = some t' := ht'
    by_cases hj : i = j
    · subst hj
      rw [table?_setTable_self (table?_setTable_self ht)] at ht''
      cases ht''
    · rw [table?_setTable_of_ne hj, table?_setTable_of_ne hj] at ht''
      exact h.tables j t' ht''
  · have heq : (w.setTable i (some s'.table)).setTable i none = w.setTable i none := by
      unfold World.setTable
      rw [List.set_set]
    show Balanced s'.heap (World.owns ((w.setTable i (some s'.table)).setTable i none) + lost)
    rw [heq]
    exact hb

/-! ## Insertions in a row -/

/-- A table of at most `n` elements. -/
def AtMost (w : World τ) (i n : ℕ) : Prop := ∀ t, w.table? i = some t → t.size ≤ n

theorem AtMost.mono {n m : ℕ} (h : AtMost w i n) (hle : n ≤ m) : AtMost w i m :=
  fun t ht => (h t ht).trans hle

theorem atMost_withStore (ht : w.table? i = some t) {n : ℕ} (hs : s.table.size ≤ n) :
    AtMost (withStore w i s) i n := by
  intro t' ht'
  have hself : (withStore w i s).table? i = some s.table := table?_setTable_self ht
  rw [hself] at ht'
  cases ht'
  exact hs

theorem atMost_withStore_of_ne (hne : i ≠ j) {n : ℕ} (h : AtMost w j n) :
    AtMost (withStore w i s) j n := by
  intro t' ht'
  have hother : (withStore w i s).table? j = w.table? j := table?_setTable_of_ne hne _
  rw [hother] at ht'
  exact h t' ht'

/-- `insert(first, last)`, of which no beginning exceeds `max_size`. -/
theorem insertRange_sound {others : Holdings} (values : List τ.Value)
    (h : SoundTable others s)
    (hmax : ∀ done rest s', values = done ++ rest → (insertRange done).run s = (.ok (), s') →
      s'.table.size ≤ maxSize)
    (hcalls : CallsReturn s.heap.fault) :
    Action.Post Stuck.anyhow (insertRange values) s (fun _ => Accounts others s)
      (SoundThrown others (faultPoint s.heap.fault)) := by
  unfold insertRange
  refine Action.Post.forEach_run (fun _ => Accounts others s) ⟨h, rfl⟩ ?_
  rintro done v rest s1 hsplit hrun ⟨h1, hpoint⟩
  have hcalls1 : CallsReturn s1.heap.fault := hcalls.of_point hpoint
  have hins := emplaceImpl_sound v h1 (hmax done _ s1 hsplit hrun) hcalls1
  rw [hpoint] at hins
  refine Action.Post.bind hins (fun _ h' => h') ?_
  rintro r s2 ⟨h2, -⟩
  exact h2.trans hpoint

/-- An insertion into one table, after which `k` more fit. -/
theorem emplace_onTable_sound (v : τ.Value) (h : WorldSound lost w) {n : ℕ}
    (hn : AtMost w i n) (hmax : n ≤ maxSize) (hcalls : CallsReturn w.heap.fault) :
    Action.Post Stuck.anyhow (onTable i (emplaceImpl v)) w
      (fun _ w' => WorldAccounts lost w w' ∧ AtMost w' i (n + 1))
      (WorldThrown lost (NoChunksGrowth w.heap.fault)) := by
  refine post_onTable (fun t ht => ?_) fun _ => trivial
  have hsize := hn t ht
  refine (emplaceImpl_sound v (h.table ht) (by simp only; omega) hcalls).mono ?_
    (fun s' h' => h.store_thrown ht h') fun _ h' => h'
  rintro r s' ⟨h', hgrow⟩
  refine ⟨h.accounts ht h', atMost_withStore ht ?_⟩
  simp only at hgrow
  omega

/-- An assignment to a stored value keeps the world sound, whatever it does. -/
theorem assign_keeps (node : ℕ) (g : τ.Value → τ.Value) (lost : Holdings)
    (f : Option (Point × ℕ)) (n : ℕ) :
    Action.Keeps (fun w : World τ => WorldSound lost w ∧ w.heap.fault = f ∧ AtMost w j n)
      (onTable i (assignValue node g)) := by
  refine keeps_call fun w t ht => ?_
  rintro ⟨h, hf, hn⟩
  have hpost := assignValue_sound node g (h.table ht)
  unfold Action.Post at hpost
  cases he : (t.nodeAt node).storage with
  | none =>
      rw [run_assignValue_none he, withStore_self ht]
      exact ⟨h, hf, hn⟩
  | some e =>
      rw [run_assignValue he] at hpost ⊢
      refine ⟨h.store ht hpost.1.1, hf, ?_⟩
      by_cases hij : i = j
      · subst hij
        exact atMost_withStore ht (hn t ht)
      · exact atMost_withStore_of_ne hij hn

/-- The world after a call with the element in `node` of the table `other` as argument. -/
def afterMove (other node : ℕ) (w : World τ) : World τ :=
  if w.heap.moved then ((onTable other (assignValue node τ.movedFrom)).run w).2 else w

/-- A call with an element as rvalue argument, which is moved from if the call says so. -/
theorem post_movingNode_flag {U : Stuck → Prop} {other node : ℕ} {x : Action (World τ) α}
    {Q : α → World τ → Prop} {E : World τ → Prop}
    (hx : Action.Post U x { w with heap := { w.heap with moved := false } }
      (fun a w' => Q a (afterMove other node w')) (fun w' => E (afterMove other node w'))) :
    Action.Post U (movingNode other node x) w Q E := by
  unfold Action.Post at hx ⊢
  simp only [movingNode]
  rcases hr : x.run { w with heap := { w.heap with moved := false } } with
    ⟨_ | _ | _ | _, w1⟩ <;> rw [hr] at hx <;> cases hm : w1.heap.moved
  any_goals exact hx
  all_goals
    simp only [afterMove, hm] at hx
    exact hx

/-- What holds after the call must survive that the element is moved from. -/
theorem post_movingNode {U : Stuck → Prop} {other node : ℕ} {x : Action (World τ) α}
    {Q : α → World τ → Prop} {E : World τ → Prop}
    (hx : Action.Post U x { w with heap := { w.heap with moved := false } } Q E)
    (hQ : ∀ a w', Q a w' → Q a ((onTable other (assignValue node τ.movedFrom)).run w').2)
    (hE : ∀ w', E w' → E ((onTable other (assignValue node τ.movedFrom)).run w').2) :
    Action.Post U (movingNode other node x) w Q E := by
  refine post_movingNode_flag (hx.mono (fun a w' h' => ?_) (fun w' h' => ?_) fun _ h' => h')
  · unfold afterMove
    split
    · exact hQ a w' h'
    · exact h'
  · unfold afterMove
    split
    · exact hE w' h'
    · exact h'

theorem emplace_moving_sound (other node : ℕ) (v : τ.Value) (h : WorldSound lost w) {n : ℕ}
    (hn : AtMost w i n) (hmax : n ≤ maxSize) (hcalls : CallsReturn w.heap.fault) :
    Action.Post Stuck.anyhow (movingNode other node (onTable i (emplaceImpl v))) w
      (fun _ w' => WorldAccounts lost w w' ∧ AtMost w' i (n + 1))
      (WorldThrown lost (NoChunksGrowth w.heap.fault)) := by
  have h0 : WorldSound lost { w with heap := { w.heap with moved := false } } :=
    h.reset w.heap.fault false
  refine post_movingNode (emplace_onTable_sound v h0 hn hmax hcalls) ?_ ?_
  · rintro r w' ⟨⟨h', hpoint⟩, hn'⟩
    obtain ⟨h2, hf2, hn2⟩ := assign_keeps (i := other) (j := i) node τ.movedFrom lost
      w'.heap.fault (n + 1) w' ⟨h', rfl, hn'⟩
    exact ⟨⟨h2, by rw [hf2]; exact hpoint⟩, hn2⟩
  · rintro w' ⟨lost', h', hclean⟩
    obtain ⟨h2, -, -⟩ := assign_keeps (i := other) (j := other) node τ.movedFrom lost'
      w'.heap.fault (((w'.table? other).map Table.size).getD 0) w' ⟨h', rfl, fun t ht => by
        rw [ht]
        exact le_rfl⟩
    exact ⟨lost', h2, hclean⟩

/-! ## Contents copied and moved -/

theorem reserve_onTable_sound (m : ℕ) (h : WorldSound lost w) {n : ℕ} (hn : AtMost w i n) :
    Action.Post Stuck.anyhow (onTable i (reserve m)) w
      (fun _ w' => WorldAccounts lost w w' ∧ AtMost w' i n) (WorldSound lost) := by
  refine post_onTable (fun t ht => ?_) fun _ => trivial
  refine (reserve_sound m (h.table ht)).mono ?_ (fun s' h' => h.store ht h'.1) fun _ h' => h'
  rintro - s' ⟨h', hiter⟩
  refine ⟨h.accounts ht h', atMost_withStore ht ?_⟩
  unfold Table.size
  rw [hiter]
  exact hn t ht

/-- A round for every element of another table, each of which adds at most one element to a
table that was empty. -/
theorem refill_sound {source : Table τ} {round : ℕ → Action (World τ) Unit}
    (h1 : WorldAccounts lost w w1) (hn1 : AtMost w1 i 0) (hmax : source.size ≤ maxSize)
    (hcalls : CallsReturn w.heap.fault)
    (hround : ∀ node w2 n, WorldSound lost w2 → AtMost w2 i n → n ≤ maxSize →
      CallsReturn w2.heap.fault →
        Action.Post Stuck.anyhow (round node) w2
          (fun _ w' => WorldAccounts lost w2 w' ∧ AtMost w' i (n + 1))
          (WorldThrown lost (NoChunksGrowth w2.heap.fault))) :
    Action.Post Stuck.anyhow (Action.forEach source.iteration round) w1
      (fun _ => WorldAccounts lost w) (WorldThrown lost (NoChunksGrowth w.heap.fault)) := by
  refine (Action.Post.forEach (fun done w' => WorldAccounts lost w w' ∧
    AtMost w' i done.length) ⟨h1, hn1⟩ ?_).mono (fun _ _ h' => h'.1) (fun _ h' => h')
    fun _ h' => h'
  rintro done node rest w2 hsplit ⟨⟨h2, hpoint⟩, hn2⟩
  have hlen : done.length + 1 ≤ source.size := by
    unfold Table.size
    rw [hsplit, List.length_append, List.length_cons]
    omega
  have hcalls2 : CallsReturn w2.heap.fault := hcalls.of_point hpoint
  have h3 := hround node w2 done.length h2 hn2 (by omega) hcalls2
  unfold NoChunksGrowth at h3
  rw [hpoint] at h3
  refine h3.mono ?_ (fun _ h' => h') fun _ h' => h'
  rintro ⟨⟩ w3 ⟨⟨h3, hpoint3⟩, hn3⟩
  rw [List.length_append, List.length_singleton]
  exact ⟨⟨h3, hpoint3.trans hpoint⟩, hn3⟩

/-- The element-wise copy into an empty table. -/
theorem copyContentsFrom_sound {other : ℕ} (h : WorldSound lost w) (hn : AtMost w i 0)
    (hmax : ∀ t, w.table? other = some t → t.size ≤ maxSize)
    (hcalls : CallsReturn w.heap.fault) :
    Action.Post Stuck.anyhow (copyContentsFrom i other) w (fun _ => WorldAccounts lost w)
      (WorldThrown lost (NoChunksGrowth w.heap.fault)) := by
  unfold copyContentsFrom
  refine post_readTable (fun source hsource => ?_) fun _ => trivial
  have hsize := hmax source hsource
  split
  · exact ⟨h, rfl⟩
  · refine Action.Post.bind (reserve_onTable_sound source.size h hn)
      (fun _ h' => h'.thrown _) ?_
    rintro - w1 ⟨h1, hn1⟩
    refine refill_sound h1 hn1 hsize hcalls fun node w2 n h2 hn2 hmax2 hcalls2 => ?_
    refine post_elementAt_onTable fun e => ?_
    exact Action.Post.bind (emplace_onTable_sound e.value h2 hn2 hmax2 hcalls2)
      (fun _ h' => h') fun _ _ h' => h'

/-- The element-wise move into an empty table. -/
theorem moveContentsFrom_sound {other : ℕ} (h : WorldSound lost w) (hn : AtMost w i 0)
    (hmax : ∀ t, w.table? other = some t → t.size ≤ maxSize)
    (hcalls : CallsReturn w.heap.fault) :
    Action.Post Stuck.anyhow (moveContentsFrom i other) w (fun _ => WorldAccounts lost w)
      (WorldThrown lost (NoChunksGrowth w.heap.fault)) := by
  unfold moveContentsFrom
  refine post_readTable (fun source hsource => ?_) fun _ => trivial
  have hsize := hmax source hsource
  refine Action.Post.bind (reserve_onTable_sound source.size h hn)
    (fun _ h' => h'.thrown _) ?_
  rintro - w1 ⟨h1, hn1⟩
  refine Action.Post.bind (refill_sound h1 hn1 hsize hcalls
    fun node w2 n h2 hn2 hmax2 hcalls2 => ?_) (fun _ h' => h') ?_
  · refine post_elementAt_onTable fun e => ?_
    exact Action.Post.bind (emplace_moving_sound other node e.value h2 hn2 hmax2 hcalls2)
      (fun _ h' => h') fun _ _ h' => h'
  · rintro - w2 ⟨h2, hpoint⟩
    refine post_onTable (fun t ht => ?_) fun _ => trivial
    refine (clear_sound (h2.table ht)).mono ?_ (fun _ h' => h'.elim) fun _ h' => h'
    rintro - s' ⟨h', -, -⟩
    exact ⟨h2.store ht h'.1, h'.2.trans hpoint⟩

end Fum.Analysis

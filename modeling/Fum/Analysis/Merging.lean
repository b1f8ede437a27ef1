import Fum.Analysis.Assignments

/-!
# Merging keeps the accounts

The loop of `merge_from` moves a node of the source into the receiver and erases it from
the source. A receiver that has outgrown `max_size()` stays so, since merging erases
nothing from it; until then every step keeps the accounts.
-/

set_option autoImplicit false

namespace Fum.Analysis

open Fum.Model Effects

variable {τ : Traits} {α β : Type} {lost lost' : Holdings} {w w' : World τ} {i j : ℕ}
  {t : Table τ} {s : Store τ} {Q : β → World τ → Prop} {E : World τ → Prop}

/-! ## Calls that only look -/

/-- Nothing has happened since `w` but passages of throwing points. -/
def Looked (lost : Holdings) (w w' : World τ) : Prop :=
  WorldAccounts lost w w' ∧ w'.tables = w.tables

theorem Looked.atMost {n : ℕ} (h : Looked lost w w') (hn : AtMost w i n) : AtMost w' i n := by
  intro t ht
  unfold World.table? at ht
  rw [h.2] at ht
  exact hn t ht

/-- A call that passes throwing points and changes nothing else, then the rest. -/
theorem post_look {ps : List Point} {x : Exec τ α} {k : α → Action (World τ) β}
    (h : Looked lost w w')
    (hx : ∀ s : Store τ, Action.Post Stuck.anyhow x s (fun _ => Passes ps s) (Throws ps s))
    (hE : ∀ w'', WorldSound lost w'' → E w'')
    (hk : ∀ a w'', Looked lost w w'' → Action.Post Stuck.anyhow (k a) w'' Q E) :
    Action.Post Stuck.anyhow (onTable i x >>= k) w' Q E := by
  obtain ⟨⟨hsound, hpoint⟩, htables⟩ := h
  refine post_onTable_bind (fun t ht => ?_) fun _ => trivial
  refine (hx ⟨t, w'.heap⟩).mono (fun a s' hp => ?_) (fun s' hp => ?_) fun _ h' => h'
  · have hs' := Sound.passes (s := ⟨t, w'.heap⟩) (hsound.table ht) hp
    rw [← show s'.table.iteration = t.iteration from congrArg Table.iteration hp.table] at hs'
    refine hk a _ ⟨⟨hsound.store ht hs', hp.fault.point.trans hpoint⟩, ?_⟩
    show (w'.setTable i (some s'.table)).tables = w.tables
    rw [hp.table, setTable_self ht, htables]
  · have hs' := Sound.throws (s := ⟨t, w'.heap⟩) (hsound.table ht) hp
    rw [← show s'.table.iteration = t.iteration from congrArg Table.iteration hp.table] at hs'
    exact hE _ (hsound.store ht hs')

theorem keyAt_frame (ps : List Point) (node : ℕ) :
    Action.Post Stuck.anyhow (keyAt node) s (fun _ => Passes ps s) (Throws ps s) :=
  Action.Post.of_bind_pure (post_keyAt (fun _ _ => Passes.refl ps s) fun _ => trivial)

theorem callMixedHash_frame (key : τ.Key) :
    Action.Post Stuck.anyhow (callMixedHash key) s (fun _ => Passes [.hash] s)
      (Throws [.hash] s) :=
  Action.Post.of_bind_pure
    (post_callMixedHash (fun _ hf => hf.passes_self) fun hpoint _ => Throws.here hpoint)

theorem mayThrow_frame (p : Point) :
    Action.Post Stuck.anyhow (mayThrow p) s (fun _ => Passes [p] s) (Throws [p] s) :=
  post_mayThrow (fun _ hf => hf.passes_self) fun hpoint _ => Throws.here hpoint

/-! ## A predicate on one table -/

/-- The table `i` is alive and satisfies `I`. -/
def On (i : ℕ) (I : Table τ → Prop) (w : World τ) : Prop := ∃ t, w.table? i = some t ∧ I t

variable {I : Table τ → Prop}

theorem keeps_onTable {x : Exec τ α} (hx : KeepsTable I x) :
    Action.Keeps (On i I) (onTable i x) := by
  rintro w ⟨t, ht, hI⟩
  rw [run_onTable ht]
  exact ⟨_, table?_withStore_self ht _, hx ⟨t, w.heap⟩ hI⟩

theorem keeps_onTable_of_ne (hne : j ≠ i) (x : Exec τ α) :
    Action.Keeps (On i I) (onTable j x) :=
  keeps_call fun _ _ _ ⟨t, ht, hI⟩ => ⟨t, (table?_withStore_of_ne hne _).trans ht, hI⟩

theorem keeps_movingNode {other node : ℕ} {x : Action (World τ) α}
    (hx : Action.Keeps (On i I) x)
    (ha : Action.Keeps (On i I) (onTable other (assignValue node τ.movedFrom))) :
    Action.Keeps (On i I) (movingNode other node x) := by
  intro w hw
  have h := hx { w with heap := { w.heap with moved := false } } hw
  simp only [movingNode]
  split
  · exact ha _ h
  · exact h

/-! ## The loop -/

theorem mergeNode_keeps_over (hne : j ≠ i) (node : ℕ) :
    Action.Keeps (On i (Over maxSize : Table τ → Prop)) (mergeNode i j node) := by
  refine Action.Keeps.bind (keeps_onTable_of_ne hne _) fun _ =>
    Action.Keeps.bind (keeps_onTable (keeps_contains (forgetful_table _) _)) fun _ =>
      Action.Keeps.ite (Action.Keeps.pure _) ?_
  refine Action.Keeps.bind (keeps_onTable_of_ne hne _) fun _ =>
    Action.Keeps.bind (keeps_onTable_of_ne hne _) fun _ =>
      Action.Keeps.bind (keeps_onTable_of_ne hne _) fun _ =>
        Action.Keeps.bind (keeps_movingNode ?_ (keeps_onTable_of_ne hne _)) fun _ =>
          keeps_onTable_of_ne hne _
  exact keeps_onTable (keeps_emplaceImpl (over_insensitive _).steady (over_appendable _).linkable
    (over_rebuildable _).refillable _)

/-- A table is within `max_size()` or over it. -/
theorem atMost_or_over (ht : w.table? i = some t) : AtMost w i maxSize ∨ On i (Over maxSize) w := by
  rcases Nat.lt_or_ge maxSize t.size with hlt | hge
  · exact Or.inr ⟨t, ht, hlt⟩
  · left
    intro t' ht'
    rw [ht] at ht'
    cases ht'
    exact hge

/-- One round of the loop, with a receiver that is not full. -/
theorem mergeNode_sound (this source node : ℕ) (h : WorldSound lost w)
    (hmax : AtMost w this maxSize) (hcalls : CallsReturn w.heap.fault) :
    Action.Post Stuck.anyhow (mergeNode this source node) w
      (fun _ w' => WorldAccounts lost w w' ∧ AtMost w' this (maxSize + 1) ∧
        (this = source → AtMost w' this maxSize))
      (WorldThrown lost (NoChunksGrowth w.heap.fault)) := by
  have hthrown : ∀ w' : World τ, WorldSound lost w' →
      WorldThrown lost (NoChunksGrowth w.heap.fault) w' := fun w' h' => h'.thrown _
  unfold mergeNode
  refine post_look ⟨⟨h, rfl⟩, rfl⟩ (fun s => keyAt_frame [] node) hthrown ?_
  intro key w1 h1
  refine post_look h1 (fun s => contains_frame key) hthrown fun present w2 h2 => ?_
  split
  · exact ⟨h2.1, (h2.atMost hmax).mono (Nat.le_succ _), fun _ => h2.atMost hmax⟩
  refine post_look h2 (fun s => callMixedHash_frame key) hthrown fun hash w3 h3 => ?_
  refine post_look h3 (fun s => findBucket_frame key hash) hthrown fun sourceBucket w4 h4 => ?_
  refine post_elementAt_onTable fun e => ?_
  have hins := emplace_moving_sound source node e.value h4.1.1 (h4.atMost hmax) le_rfl
    (h4.1.calls hcalls)
  unfold NoChunksGrowth at hins
  rw [h4.1.2] at hins
  refine Action.Post.bind hins (fun _ h' => h') ?_
  rintro r w5 ⟨⟨h5, hpoint5⟩, hn5⟩
  refine post_onTable (fun t ht => ?_) fun _ => trivial
  refine (eraseLocated_sound sourceBucket (h5.table ht)).mono ?_ (fun _ h' => h'.elim)
    fun _ h' => h'
  rintro - s' ⟨h', hsize⟩
  refine ⟨⟨h5.store ht h'.1, h'.2.trans (hpoint5.trans h4.1.2)⟩, ?_, fun heq => ?_⟩
  · by_cases heq : source = this
    · subst heq
      refine atMost_withStore ht ?_
      have := hn5 t ht
      simp only at hsize
      omega
    · exact atMost_withStore_of_ne heq hn5
  · subst heq
    refine atMost_withStore ht ?_
    have := hn5 t ht
    simp only at hsize
    omega

/-- The loop, and the states it may leave behind when it throws. -/
theorem mergeFrom_sound (this source : ℕ) (h : WorldSound lost w)
    (hmax : AtMost w this maxSize)
    (hend : ∀ w', (mergeFrom this source).run w = (.ok (), w') ∨
      (mergeFrom this source).run w = (.thrown, w') → Bounded w')
    (hcalls : CallsReturn w.heap.fault) :
    Action.Post Stuck.anyhow (mergeFrom this source) w (fun _ => WorldAccounts lost w)
      (WorldThrown lost (NoChunksGrowth w.heap.fault)) := by
  have hover : ∀ w', Bounded w' → ¬ On this (Over maxSize : Table τ → Prop) w' := by
    rintro w' hb ⟨t, ht, ho⟩
    exact absurd (hb this t ht) (not_le.mpr ho)
  have hrun : Action.Post Stuck.anyhow (mergeFrom this source) w
      (fun _ w' => WorldAccounts lost w w' ∨ On this (Over maxSize) w')
      (fun w' =>
        WorldThrown lost (NoChunksGrowth w.heap.fault) w' ∨ On this (Over maxSize) w') := by
    unfold mergeFrom
    refine post_look ⟨⟨h, rfl⟩, rfl⟩ (fun s => mayThrow_frame .scratch)
      (fun w' h' => Or.inl (h'.thrown _)) fun _ w1 h1 => ?_
    refine post_readTable (fun other _ => ?_) fun _ => trivial
    refine (Action.Post.forEach (fun _ w' =>
      (WorldAccounts lost w w' ∧ AtMost w' this maxSize) ∨
        this ≠ source ∧ On this (Over maxSize) w')
      (Or.inl ⟨h1.1, h1.atMost hmax⟩) ?_).mono ?_ (fun _ h' => h') fun _ h' => h'
    · rintro done node rest w2 - (⟨h2, hn2⟩ | ⟨hne, ho⟩)
      · have hnode := mergeNode_sound this source node h2.1 hn2 (h2.calls hcalls)
        unfold NoChunksGrowth at hnode
        rw [h2.2] at hnode
        refine hnode.mono ?_ (fun _ h' => Or.inl h') fun _ h' => h'
        rintro - w3 ⟨h3, -, hself⟩
        have h3' : WorldAccounts lost w w3 := ⟨h3.1, h3.2.trans h2.2⟩
        by_cases heq : this = source
        · exact Or.inl ⟨h3', hself heq⟩
        · cases ht : w3.table? this with
          | none => exact Or.inl ⟨h3', fun t ht' => by rw [ht] at ht'; cases ht'⟩
          | some t =>
              rcases atMost_or_over ht with hn | ho
              · exact Or.inl ⟨h3', hn⟩
              · exact Or.inr ⟨heq, ho⟩
      · -- a receiver that is over the bound stays so
        refine ((mergeNode_keeps_over (fun h' => hne h'.symm) node).post ho).mono
          (fun _ _ h' => Or.inr ⟨hne, h'⟩) (fun _ h' => Or.inr h') fun _ h' => h'
    · rintro - w' (h' | h')
      · exact Or.inl h'.1
      · exact Or.inr h'.2
  refine hrun.with_run.mono ?_ ?_ fun _ h' => h'
  · rintro ⟨⟩ w' ⟨h' | h', hdone⟩
    · exact h'
    · exact absurd h' (hover w' (hend w' (Or.inl hdone)))
  · rintro w' ⟨h' | h', hdone⟩
    · exact h'
    · exact absurd h' (hover w' (hend w' (Or.inr hdone)))

end Fum.Analysis

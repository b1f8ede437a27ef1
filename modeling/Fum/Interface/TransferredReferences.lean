import Fum.Analysis.Addresses
import Fum.Analysis.Extraction
import Fum.Interface.NodeInsertion
import Fum.Interface.SwapIterators

/-!
# References to elements that are transferred

Neither a node handle nor a merge hands storage over: the element is moved into a cell of its
own and from there, or at once, into a slot of the receiver. A slot of another table has
another address; only a table that takes its own node back puts it where it was.
-/

set_option autoImplicit false

namespace Fum.Interface

open Fum.Model Fum.Analysis Effects

variable {τ : Traits} {s : Store τ} {w w' : World τ} {i j b x : ℕ} {t u : Table τ}

/-! ## The slot that an insertion takes -/

/-- `acquire_node` takes the head of the free list. -/
theorem buildNode_reuses (v : τ.Value) (hfree : s.table.freeListHead ≠ kNullIndex) :
    Action.Post Stuck.anyhow (buildNode v) s (fun i _ => i = s.table.freeListHead)
      (fun _ => True) := by
  have hacquire : Action.Post Stuck.anyhow acquireNode s (fun i _ => i = s.table.freeListHead)
      (fun _ => True) := by
    unfold acquireNode ensureArenaSlot
    rw [Action.bind_assoc, post_getTable, if_pos hfree, Action.pure_bind, post_getTable,
      if_pos hfree, post_modifyTable]
    exact rfl
  unfold buildNode
  refine Action.Post.bind hacquire (fun _ h' => h') fun i s1 hi => ?_
  refine Action.Post.bind (Action.Post.any _ _) (fun _ h' => h') fun _ s2 _ => ?_
  exact hi

theorem insertNode_reuses {handle : Handle τ} (hfree : s.table.freeListHead ≠ kNullIndex) :
    Action.Post Stuck.anyhow (insertNode handle) s
      (fun r _ => r.1.inserted = true → r.1.position = s.table.freeListHead)
      (fun _ => True) := by
  unfold insertNode
  cases handle.value with
  | none =>
      intro hflag
      cases hflag
  | some cell =>
      refine locate_frame (fun _ _ => trivial) fun existing s1 hpass => ?_
      rw [post_getTable]
      split
      · refine Action.Post.bind (Action.Post.any _ _) (fun _ h' => h') fun bucket s2 _ => ?_
        intro hflag
        cases hflag
      · rw [← hpass.table] at hfree ⊢
        refine Action.Post.bind (buildNode_reuses _ hfree) (fun _ h' => h') fun i s2 hi => ?_
        refine Action.Post.bind (Action.Post.any _ _) (fun _ h' => h') fun _ s3 _ => ?_
        refine Action.Post.bind (Action.Post.any _ _) (fun _ h' => h') fun _ s4 _ => ?_
        exact fun _ => hi

/-- The node of a handle goes to the head of the free list of the table that takes it. -/
theorem insertHandle_reuses {hinted : Bool} {h : ℕ} (hj : w.table? j = some u)
    (hfree : u.freeListHead ≠ kNullIndex) :
    Action.Post Stuck.anyhow (insertHandle hinted j h) w
      (fun r _ => r.2 = true → r.1 = u.freeListHead) (fun _ => True) := by
  unfold insertHandle
  refine post_readHandle (fun handle _ => ?_) fun _ => trivial
  have hmoving : Action.Post Stuck.anyhow (movingHandle h (onTable j (insertNode handle))) w
      (fun r _ => r.1.inserted = true → r.1.position = u.freeListHead) (fun _ => True) := by
    refine post_movingHandle (post_onTable (fun u' hu' => ?_) fun _ => trivial)
    cases hj.symm.trans hu'
    exact (insertNode_reuses (s := ⟨u, _⟩) hfree).mono (fun r _ h' => ⟨h', h'⟩)
      (fun _ _ => ⟨trivial, trivial⟩) fun _ h' => h'
  refine Action.Post.bind hmoving (fun _ h' => h') fun r w1 hr => ?_
  refine Action.Post.bind (Action.Post.any _ _) (fun _ h' => h') fun _ w2 _ => ?_
  cases hinted with
  | true => exact hr
  | false => exact hr

/-! ## The two transfers -/

/-- `extract` from the table `source`, and `insert` of the node into the table `dest`. -/
def transferNode (hinted : Bool) (source dest : ℕ) (extraction : Exec τ (Handle τ)) :
    Action (World τ) (ℕ × Bool) := do
  let handle ← onTable source extraction
  let h ← newHandle handle
  insertHandle hinted dest h

theorem transferNode_owned {hinted : Bool} {call : Exec τ (Handle τ)} (h : Owned w)
    (hcall : Extracts t x call) :
    Action.Post Stuck.anyhow (transferNode hinted i j call) w (fun _ => Owned) Owned := by
  have hextract : Action.Keeps (Owned : World τ → Prop) (onTable i call) :=
    owned_handleless.call i call fun _ hJ => hcall.keeps hJ
  have hnew : ∀ handle : Handle τ, Action.Keeps (Owned : World τ → Prop) (newHandle handle) :=
    fun handle w1 h1 => owned_handleless.handles w1 (w1.handles ++ [some handle]) h1
  exact ((hextract.bind fun handle => (hnew handle).bind fun _ =>
    owned_handleless.bare.insertHandle)).post h

/-- An entered node has an address in the table, which keeps the chunks that it has. -/
theorem insertHandle_placed {hinted : Bool} {h : ℕ} {handle : Handle τ} {cell : Cell τ}
    (hu : w.table? j = some u) (hcell : handle.value = some cell) (hh : w.handle? h = some handle)
    (hc : Consistent u) (hroom : Room u) :
    Action.Post Stuck.anyhow (insertHandle hinted j h) w
      (fun r w' => (∀ k, k ≠ j → w'.table? k = w.table? k) ∧ (r.2 = true →
        ∃ u', w'.table? j = some u' ∧ (addressOf u' r.1).isSome ∧ chunkIds u <+: chunkIds u'))
      (fun _ => True) := by
  refine (insertHandle_spec hinted hu hcell hh hc hroom).mono ?_ (fun _ _ => trivial) fun _ h' => h'
  rintro r w' ⟨u', node, hi⟩
  refine ⟨hi.others, fun hflag => ⟨u', hi.table, ?_⟩⟩
  rcases hi.entered with ⟨-, -, hins⟩ | ⟨hfound, -⟩
  · obtain ⟨serial, he⟩ := hins.element
    refine ⟨addressOf_isSome ?_, hins.chunks⟩
    rw [he]
    rfl
  · rw [hflag] at hfound
    cases hfound

/-- A successful transfer puts the element into a slot of the destination, the old one if
the source takes its own node back, and leaves the chunks of the source alone. -/
structure Transferred (t : Table τ) (x i j : ℕ) (r : ℕ × Bool) (w' : World τ) : Prop where
  source : ∃ t', w'.table? i = some t' ∧ chunkIds t <+: chunkIds t'
  dest : ∃ u', w'.table? j = some u' ∧ (addressOf u' r.1).isSome
  reuses : i = j → r.1 = x

theorem transferNode_spec {hinted : Bool} {call : Exec τ (Handle τ)} (ht : w.table? i = some t)
    (hu : w.table? j = some u) (hst : Sturdy t) (hsu : Sturdy u) (hlaw : LawfulTable t)
    (hx : x ∈ t.iteration) (hcall : Extracts t x call) :
    Action.Post Stuck.anyhow (transferNode hinted i j call) w
      (fun r w' => r.2 = true → Transferred t x i j r w') (fun _ => True) := by
  unfold transferNode
  refine Action.Post.bind (post_onTable (fun t1 ht1 => ?_) fun _ => trivial)
    (fun _ h' => h') fun handle w1 h1 => h1
  cases ht.symm.trans ht1
  refine (extracts_spec (s := ⟨t, w.heap⟩) hst.1 hst.2 hlaw hx hcall).mono ?_
    (fun _ _ => trivial) fun _ _ => trivial
  rintro handle s1 ⟨hc1, herased, ⟨e, cell, he, hcell, -⟩, hfree, -⟩
  rw [post_newHandle]
  obtain ⟨w1, hw1⟩ : ∃ w1 : World τ, w1 =
      { withStore w i s1 with handles := (withStore w i s1).handles ++ [some handle] } := ⟨_, rfl⟩
  rw [← hw1]
  have hh : w1.handle? (withStore w i s1).handles.length = some handle := by
    rw [hw1]
    simp [World.handle?]
  have hself : w1.table? i = some s1.table := by
    rw [hw1]
    exact table?_withStore_self ht s1
  by_cases hij : i = j
  · subst hij
    have hx1 : s1.table.freeListHead ≠ kNullIndex := by
      rw [hfree]
      exact (hst.1.consistent.slots.ne_null (Or.inl hx)).ne
    refine ((insertHandle_placed hself hcell hh hc1 (herased.room hst.2)).and
      (insertHandle_reuses hself hx1)).mono ?_ (fun _ _ => trivial) fun _ h' => h'
    rintro r w' ⟨⟨-, hplaced⟩, hreuses⟩ hflag
    obtain ⟨u', hu', haddress, hchunks⟩ := hplaced hflag
    rw [herased.chunks] at hchunks
    exact ⟨⟨u', hu', hchunks⟩, ⟨u', hu', haddress⟩, fun _ => (hreuses hflag).trans hfree⟩
  · have hother : w1.table? j = some u := by
      rw [hw1]
      exact (table?_withStore_of_ne hij s1).trans hu
    refine (insertHandle_placed hother hcell hh hsu.1.consistent hsu.2).mono ?_
      (fun _ _ => trivial) fun _ h' => h'
    rintro r w' ⟨hothers, hplaced⟩ hflag
    obtain ⟨u', hu', haddress, -⟩ := hplaced hflag
    refine ⟨⟨s1.table, (hothers i hij).trans hself, ?_⟩, ⟨u', hu', haddress⟩,
      fun heq => absurd heq hij⟩
    rw [herased.chunks]

/-- The address of a transferred element is the old one exactly if its own table takes the
node back. A merge never keeps an address: what it transfers goes to another table. -/
theorem references_survive_iff {steps : List (Step τ)} (hrun : Run World.empty steps w)
    (hsteps : EachStep Regular World.empty steps) (hlaw : ∀ step ∈ steps, LawfulFunctors step.op)
    (ht : w.table? i = some t) (hu : w.table? j = some u) :
    (∀ x ∈ t.iteration, ∀ hinted call it w', Extracts t x call →
      (transferNode hinted i j call).run w = (.ok (it, true), w') →
      ∃ u', w'.table? j = some u' ∧ (addressOf u' it = addressOf t x ↔ i = j)) ∧
    ∀ w', (mergeFrom j i).run w = (.ok (), w') →
      ∃ t' u', w'.table? i = some t' ∧ w'.table? j = some u' ∧
        ∀ x ∈ t.iteration, x ∉ t'.iteration → i ≠ j ∧ ∀ y, addressOf u' y ≠ addressOf t x := by
  have howned := run_owned hrun
  have hst := run_sturdy hrun hsteps hlaw i t ht
  have hsu := run_sturdy hrun hsteps hlaw j u hu
  have hlawt := run_lawful hrun hlaw i t ht
  have haddress : ∀ x ∈ t.iteration, ∃ p, addressOf t x = some p := fun x hx =>
    Option.isSome_iff_exists.mp (addressOf_isSome (hst.1.consistent.live hx))
  constructor
  · intro x hx hinted call it w' hcall hok
    obtain ⟨p, hp⟩ := haddress x hx
    have howned' := (transferNode_owned howned hcall).ok_of_run hok
    obtain ⟨⟨t', ht', hchunks⟩, ⟨u', hu', hplaced⟩, hreuses⟩ :=
      (transferNode_spec ht hu hst hsu hlawt hx hcall).ok_of_run hok rfl
    have hold := addressOf_prefix hchunks hp
    refine ⟨u', hu', fun heq => ?_, fun hij => ?_⟩
    · exact howned'.same_table ht' hu' hold (heq.trans hp)
    · subst hij
      cases ht'.symm.trans hu'
      rw [show it = x from hreuses rfl, hold, hp]
  · intro w' hok
    by_cases hij : i = j
    · subst hij
      have hself : Action.Post Stuck.anyhow (mergeFrom i i) w
          (fun _ w' => w' = { w with heap := w'.heap } ∧ Quiet True w'.heap) (fun _ => True) :=
        (mergeFrom_self ht hst.1 hst.2 hlawt (Or.inl trivial)).mono (fun _ _ h' => h')
          (fun _ _ => trivial) fun _ h' => h'
      have ht' : w'.table? i = some t := by
        rw [(hself.ok_of_run hok).1]
        exact ht
      exact ⟨t, t, ht', ht', fun x hx hgone => absurd hx hgone⟩
    · obtain ⟨u', t', moved, hpair, -, herased, -⟩ :=
        (mergeFrom_growing (Ne.symm hij) hu ht hsu.1 hst.1 hlawt hst.2).ok_of_run hok
      refine ⟨t', u', hpair.right, hpair.left, fun x hx _ => ⟨hij, fun y heq => hij ?_⟩⟩
      obtain ⟨p, hp⟩ := haddress x hx
      have howned' : Owned w' := (owned_handleless.mergeFrom.post howned).ok_of_run hok
      exact howned'.same_table hpair.right hpair.left ((addressOf_congr herased.chunks).trans hp)
        (heq.trans hp)

theorem references_survive_iff_swapped :
    ∃ w' u', (transferNode false 0 1 (extractAt 0)).run (finish World.empty swappedSteps) =
        (.ok (1, true), w') ∧ w'.table? 1 = some u' ∧
      addressOf u' 1 ≠ addressOf
        (((finish World.empty swappedSteps).table? 0).get (by decide +kernel)) 0 := by
  have hcompletes : EachStep Step.Completes World.empty swappedSteps := by decide +kernel
  have hlive : 0 ∈ (((finish World.empty swappedSteps).table? 0).get
      (by decide +kernel)).iteration := by decide +kernel
  have hcall : Extracts (((finish World.empty swappedSteps).table? 0).get (by decide +kernel)) 0
      (extractAt 0) := Or.inl rfl
  have hok : ((transferNode false 0 1 (extractAt 0)).run (finish World.empty swappedSteps)).1 =
      .ok (1, true) := by decide +kernel
  obtain ⟨u', hu', hiff⟩ := (references_survive_iff (i := 0) (j := 1)
    (run_of_completes hcompletes) (by decide +kernel) swapped_lawful
    (Option.some_get (by decide +kernel)).symm (Option.some_get (by decide +kernel)).symm).1
    0 hlive false (extractAt 0) 1 _ hcall (Prod.ext hok rfl)
  exact ⟨_, u', Prod.ext hok rfl, hu', fun heq => absurd (hiff.mp heq) (by decide)⟩

/-- The element (1, 10) has another address after its node went to the second map, and after
the second map has merged the first. -/
theorem transferred_element_moves :
    (∃ t, (finish World.empty swappedSteps).table? 0 = some t ∧ Reachable t) ∧
    (∃ t, (finish World.empty swappedSteps).table? 1 = some t ∧ Reachable t) ∧
    ((transferNode false 0 1 (extractAt 0)).run (finish World.empty swappedSteps)).1 =
      .ok (1, true) ∧
    (designated (finish World.empty swappedSteps) ⟨0, 0⟩).map Prod.snd = some (1, 10) ∧
    (designated ((transferNode false 0 1 (extractAt 0)).run
      (finish World.empty swappedSteps)).2 ⟨1, 1⟩).map Prod.snd = some (1, 10) ∧
    (designated ((transferNode false 0 1 (extractAt 0)).run
      (finish World.empty swappedSteps)).2 ⟨1, 1⟩).map Prod.fst ≠
        (designated (finish World.empty swappedSteps) ⟨0, 0⟩).map Prod.fst ∧
    ((mergeFrom 1 0).run (finish World.empty swappedSteps)).1 = .ok () ∧
    (designated ((mergeFrom 1 0).run (finish World.empty swappedSteps)).2 ⟨1, 1⟩).map Prod.snd =
      some (1, 10) ∧
    (designated ((mergeFrom 1 0).run (finish World.empty swappedSteps)).2 ⟨1, 1⟩).map Prod.fst ≠
      (designated (finish World.empty swappedSteps) ⟨0, 0⟩).map Prod.fst := by
  have hcompletes : EachStep Step.Completes World.empty swappedSteps := by decide +kernel
  have hregular : EachStep Regular World.empty swappedSteps := by decide +kernel
  have hreachable : ∀ n, ((finish World.empty swappedSteps).table? n).isSome →
      ∃ t, (finish World.empty swappedSteps).table? n = some t ∧ Reachable t :=
    fun n hsome => ⟨_, (Option.some_get hsome).symm,
      reachable_of_completes hcompletes hregular swapped_lawful hsome⟩
  exact ⟨hreachable 0 (by decide +kernel), hreachable 1 (by decide +kernel), by decide +kernel,
    by decide +kernel, by decide +kernel, by decide +kernel, by decide +kernel, by decide +kernel,
    by decide +kernel⟩

end Fum.Interface

import Fum.Analysis.TableInvariants
import Fum.Analysis.WellFormedness

/-!
# Extraction

Both overloads of `extract` at once: the element of a node goes into a handle, and its slot
becomes the head of the free list.
-/

set_option autoImplicit false

namespace Fum.Analysis

open Fum.Model Effects

variable {τ : Traits} {s : Store τ} {b x : ℕ} {t : Table τ}

/-- `erase_located` leaves the slot of its bucket at the head of the free list. -/
theorem eraseLocated_frees (hb : BucketOf s.table b x) :
    Action.Post Stuck.anyhow (eraseLocated b) s (fun _ s' => s'.table.freeListHead = x)
      (fun _ => True) := by
  unfold eraseLocated
  refine post_bucketOf hb fun bucket hnode => ?_
  rw [hnode]
  refine Action.Post.bind (Action.Post.any _ _) (fun _ _ => trivial) fun _ s1 _ => ?_
  refine Action.Post.bind (Action.Post.any _ _) (fun _ _ => trivial) fun _ s2 _ => ?_
  refine Action.Post.bind (Action.Post.any _ _) (fun _ _ => trivial) fun _ s3 _ => ?_
  exact rfl

theorem extractLocated_frees (hb : BucketOf s.table b x) :
    Action.Post Stuck.anyhow (extractLocated b) s (fun _ s' => s'.table.freeListHead = x)
      (fun _ => True) := by
  have hforgetful : Forgetful fun s' : Store τ => BucketOf s'.table b x :=
    forgetful_table fun t' : Table τ => BucketOf t' b x
  have hcell : KeepsTable (fun t' : Table τ => BucketOf t' b x) allocateCell :=
    (keeps_mayThrow hforgetful _).bind fun _ => (keeps_freshId hforgetful).bind fun _ =>
      Action.Keeps.bind (fun _ h' => h') fun _ => Action.Keeps.pure _
  unfold extractLocated
  refine post_bucketOf hb fun bucket hnode => ?_
  refine Action.Post.bind (hcell.post hb) (fun _ _ => trivial) fun id s1 h1 => ?_
  have hread : KeepsTable (fun t' : Table τ => BucketOf t' b x) (elementAt bucket.nodeIndex) :=
    keeps_elementAt _
  refine Action.Post.bind (hread.post h1) (fun _ _ => trivial) fun source s2 h2 => ?_
  have hconstruct : KeepsTable (fun t' : Table τ => BucketOf t' b x)
      ((constructElement source.value).cleanup
        (modifyHeap fun h => { h with cells := h.cells.giveBack id })) :=
    (keeps_constructElement hforgetful _).cleanup fun _ h' => h'
  refine Action.Post.bind (hconstruct.post h2) (fun _ _ => trivial) fun element s3 h3 => ?_
  have hassign : KeepsTable (fun t' : Table τ => BucketOf t' b x)
      (assignValue bucket.nodeIndex τ.movedFrom) :=
    (keeps_elementAt _).bind fun _ _ h' => h'
  refine Action.Post.bind (hassign.post h3) (fun _ _ => trivial) fun _ s4 h4 => ?_
  refine Action.Post.bind (eraseLocated_frees h4) (fun _ _ => trivial) fun _ s5 h5 => ?_
  exact h5

/-- A call of one of the two overloads of `extract` for the element in `x`. -/
def Extracts (t : Table τ) (x : ℕ) (call : Exec τ (Handle τ)) : Prop :=
  call = extractAt x ∨ ∃ key, Matches t key x ∧ call = extractKey key

/-- An extraction takes the element in `x` into the handle and frees the slot. -/
theorem extracts_spec {call : Exec τ (Handle τ)} (hw : WellFormed s.table) (hroom : Room s.table)
    (hlaw : LawfulTable s.table) (hx : x ∈ s.table.iteration) (hcall : Extracts s.table x call) :
    Action.Post Stuck.never call s
      (fun handle s' => Consistent s'.table ∧ Erased s.table [x] s'.table ∧
        Owns s.table x handle ∧ s'.table.freeListHead = x ∧
        faultPoint s'.heap.fault = faultPoint s.heap.fault) (ExtractThrown s) := by
  have hc := hw.consistent
  have hlocated : ∀ {key b y s1}, Matches s.table key x → Probed s s1 → y ∈ s.table.iteration →
      Matches s.table key y → BucketOf s.table b y →
      Action.Post Stuck.never (extractLocated b) s1
        (fun handle s' => Consistent s'.table ∧ Erased s.table [x] s'.table ∧
          Owns s.table x handle ∧ s'.table.freeListHead = x ∧
          faultPoint s'.heap.fault = faultPoint s.heap.fault) (ExtractThrown s) := by
    intro key b y s1 hmx hprobed hy hmy hb
    have heq : y = x := (hw.distinct hlaw).unique hlaw hy hx hmy hmx
    subst heq
    rw [← hprobed.table] at hb
    refine ((extractLocated_spec (by rw [hprobed.table]; exact hc) hb
      (by rw [hprobed.table]; exact hx)).and (extractLocated_frees hb)).mono ?_ ?_ fun _ h' => h'
    · rintro handle s2 ⟨⟨hc2, herased, howns, hpoint⟩, hfree⟩
      rw [hprobed.table] at herased howns
      exact ⟨hc2, herased, howns, hfree, hpoint.trans hprobed.point⟩
    · rintro s2 ⟨⟨htable, hpoint⟩, -⟩
      rw [hprobed.point] at hpoint
      exact Or.inr ⟨htable.trans hprobed.table, hpoint⟩
  rcases hcall with rfl | ⟨key, hm, rfl⟩
  · unfold extractAt
    obtain ⟨e, he⟩ := Option.isSome_iff_exists.mp (hc.live hx)
    have hself : Matches s.table (τ.keyOf e.value) x := ⟨e, he, hlaw.refl _⟩
    refine post_keyAt (fun e' he' => ?_) fun hnone => by rw [he] at hnone; cases hnone
    cases he.symm.trans he'
    refine post_probe (hc.searchable hroom) (fun _ h' => Or.inl h') ?_ ?_
    · intro b y s1 hprobed hy hmy hb _
      exact hlocated hself hprobed hy hmy hb
    · intro s1 _ habs
      exact absurd hself (habs.not_matches hlaw hx)
  · unfold extractKey
    refine post_probe (hc.searchable hroom) (fun _ h' => Or.inl h') ?_ ?_
    · intro b y s1 hprobed hy hmy hb hne
      rw [post_getTable, hprobed.table, if_neg hne]
      exact hlocated hm hprobed hy hmy hb
    · intro s1 _ habs
      exact absurd hm (habs.not_matches hlaw hx)

theorem Extracts.keeps {call : Exec τ (Handle τ)} (h : Extracts t x call) {J : Store τ → Prop}
    (hJ : Durable J) : Action.Keeps J call := by
  rcases h with rfl | ⟨key, -, rfl⟩
  · exact keeps_extractAt hJ.toSteady hJ.order x
  · exact keeps_extractKey hJ.toSteady hJ.order key

end Fum.Analysis

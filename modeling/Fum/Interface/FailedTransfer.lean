import Fum.Analysis.Interruption
import Fum.Interface.StrongGuarantee
import Fum.Interface.MergeLaw

/-!
# Failed transfers

`insert(node_type&&)` and `merge` move the element out of its old home before the bucket
array and the iteration vector have grown. When one of these allocations throws, the new
copy is destroyed and the old one is left as it is after a move.
-/

set_option autoImplicit false

namespace Fum.Interface

open Fum.Model Fum.Analysis Effects DenseMap

variable {τ : Traits} {w w' : World τ} {i j h node : ℕ} {t t0 t' u u0 u' : Table τ}
  {s' : Store τ} {handle : Handle τ} {cell : Cell τ} {e : Element τ} {moved : List ℕ}
  {steps : List (Step τ)}

/-! ## A node handle -/

/-- The destination is unchanged and the handle owns its element, with the value it had. -/
structure HandleKept (t : Table τ) (i h : ℕ) (handle : Handle τ) (w' : World τ) : Prop where
  dest : ∃ t', w'.table? i = some t' ∧ Unaffected t t'
  owner : w'.handle? h = some handle

/-- The table loses its buckets, or the element has been moved from and that shows. -/
def InsertLoses (t : Table τ) (v : τ.Value) (fault : Option (Point × ℕ)) : Prop :=
  LosesBuckets t fault ∨ Late fault ∧ τ.movedFrom v ≠ v

/-- An insertion that throws for want of memory has thrown early or late. -/
theorem early_or_late {s : Store τ} (h : InsertThrown s s')
    (halloc : AllocationThrows s.heap.fault) :
    (Early s.heap.fault ∨ Late s.heap.fault) ∧ AllocationFault s.heap.fault := by
  obtain ⟨q, hq, hpoint⟩ := halloc
  have hne : q ≠ .scratch ∧ q ≠ .hash := by
    constructor
    · rintro rfl
      rcases h with ⟨⟨p, hp, hp'⟩, -, -⟩ | ⟨hp', -⟩ | ⟨hp', -⟩ <;> rw [hpoint] at hp' <;> cases hp'
      simp at hp
    · rintro rfl
      simp at hq
  simp only [List.mem_cons, List.not_mem_nil, or_false] at hq
  refine ⟨?_, q, ?_, hpoint⟩
  · unfold Early Late
    rw [hpoint]
    rcases hq with rfl | rfl | rfl | rfl | rfl <;> simp at hne ⊢
  · rcases hq with rfl | rfl | rfl | rfl | rfl <;> simp at hne ⊢

theorem not_late_of_early {fault : Option (Point × ℕ)} (h : Early fault) : ¬ Late fault := by
  rintro (h' | h') <;> rcases h with h | h <;> rw [h] at h' <;> cases h'

theorem movedFrom_eq_iff (hcell : handle.value = some cell) :
    handle.movedFrom = handle ↔ τ.movedFrom cell.element.value = cell.element.value := by
  obtain ⟨value, allocator⟩ := handle
  have hvalue : value = some cell := hcell
  subst hvalue
  obtain ⟨id, tag, serial, v⟩ := cell
  simp [Handle.movedFrom]

/-- What is left of the handle. -/
theorem handle_afterHandleMove (hh : w.handle? h = some handle) :
    (afterHandleMove h w).handle? h =
      some (if w.heap.moved then handle.movedFrom else handle) := by
  unfold afterHandleMove
  cases w.heap.moved with
  | false => exact hh
  | true =>
      have hlt : h < w.handles.length := lt_of_join_eq_some hh
      rw [if_pos rfl, if_pos rfl, hh]
      unfold World.handle? World.setHandle
      rw [List.getElem?_set_self hlt]
      rfl

theorem table_afterHandleMove (w : World τ) (i : ℕ) :
    (afterHandleMove h w).table? i = w.table? i := by
  unfold afterHandleMove
  split <;> rfl

/-- An insertion of a node that throws for want of memory keeps the destination and the handle
if and only if it loses neither. -/
theorem handle_kept_iff (hreach : Reachable t) (ht : w.table? i = some t)
    (hh : w.handle? h = some handle) (hcell : handle.value = some cell)
    (halloc : AllocationThrows w.heap.fault)
    (hrun : (insertHandle false i h).run w = (.thrown, w')) :
    HandleKept t i h handle w' ↔ ¬ InsertLoses t cell.element.value w.heap.fault := by
  obtain ⟨hw, hroom⟩ := hreach.sturdy
  have hlaw := hreach.lawful
  refine Action.Post.thrown_of_run (U := Stuck.anyhow) (Q := fun _ _ => True)
    (E := fun w' => HandleKept t i h handle w' ↔
      ¬ InsertLoses t cell.element.value w.heap.fault) ?_ hrun
  unfold insertHandle
  refine post_readHandle (fun handle' hh' => ?_) fun _ => trivial
  cases hh.symm.trans hh'
  refine Action.Post.bind (Q := fun _ _ => True) (post_movingHandle_flag ?_) (fun _ h' => h')
    fun _ _ _ => trivial
  refine post_onTable (fun t1 ht1 => ?_) fun _ => trivial
  cases ht.symm.trans ht1
  let start : Store τ := ⟨t, { w.heap with moved := false }⟩
  refine ((insertNode_spec (U := Stuck.anyhow) (s := start) hcell hw.consistent hroom).and
    (insertNode_transit hw.consistent hroom)).mono (fun _ _ _ => trivial) ?_ fun _ h' => h'
  rintro s' ⟨hthrown, htransit⟩
  have hins : InsertThrown start s' := by
    rcases hthrown with hrefused | ⟨-, hins⟩
    · rcases hrefused.cause with hequal | ⟨n, -, hn⟩
      · exact absurd hequal (halloc.ne_functor (by simp))
      · have hn' : w.heap.fault = some (.hash, n) := hn
        exact absurd (by rw [hn']; rfl) (halloc.ne_functor (p := .hash) (by simp))
    · exact hins
  obtain ⟨hwhen, hfault⟩ := early_or_late hins halloc
  have hdest : Unaffected t s'.table ↔ ¬ LosesBuckets t w.heap.fault :=
    insertThrown_iff (s := start) ⟨hw, hroom⟩ hlaw hins hfault
  -- the destination and the handle after the call
  have htable : (afterHandleMove h (withStore { w with heap := { w.heap with moved := false } }
      i s')).table? i = some s'.table :=
    (table_afterHandleMove _ i).trans (table?_withStore_self ht s')
  have hhandle : (afterHandleMove h
      (withStore { w with heap := { w.heap with moved := false } } i s')).handle? h =
        some (if s'.heap.moved then handle.movedFrom else handle) :=
    handle_afterHandleMove hh
  have howner : (if s'.heap.moved then handle.movedFrom else handle) = handle ↔
      ¬ (Late w.heap.fault ∧ τ.movedFrom cell.element.value ≠ cell.element.value) := by
    rcases hwhen with hearly | hlate
    · have hmoved : s'.heap.moved = false := htransit.early hearly
      rw [hmoved]
      exact iff_of_true rfl fun h => not_late_of_early hearly h.1
    · have hmoved : s'.heap.moved = true := htransit.late hlate
      rw [hmoved, if_pos rfl, movedFrom_eq_iff hcell]
      have hlate' : Late w.heap.fault := hlate
      tauto
  have hkept : ∀ w1 : World τ, w1.table? i = some s'.table →
      w1.handle? h = some (if s'.heap.moved then handle.movedFrom else handle) →
      (HandleKept t i h handle w1 ↔ Unaffected t s'.table ∧
        (if s'.heap.moved then handle.movedFrom else handle) = handle) := by
    intro w1 htable1 hhandle1
    constructor
    · rintro ⟨⟨t', ht', hun⟩, hown⟩
      cases htable1.symm.trans ht'
      exact ⟨hun, Option.some.inj (hhandle1.symm.trans hown)⟩
    · rintro ⟨hun, hown⟩
      exact ⟨⟨_, htable1, hun⟩, by rw [hhandle1, hown]⟩
  rw [hkept _ htable hhandle, hdest, howner]
  unfold InsertLoses
  tauto

/-! ## A merge -/

/-- The table can be used: it has its buckets and its invariants. -/
structure Usable (t : Table τ) : Prop where
  buckets : t.bucketCount ≠ 0 → ∃ array, t.buckets = some array ∧ array.size = t.bucketCount
  intact : Intact t

/-- Every element of the two tables is in one of them, with its key and its value, and both
find all their keys. -/
structure NothingLost (t0 u0 t u : Table τ) : Prop where
  dest : Usable t
  source : Usable u
  elements : (contents t ++ contents u).Perm (contents t0 ++ contents u0)

/-- The element on its way has been moved from and that shows, or the receiver has buckets
by then and loses them. -/
def MergeLoses (dest source : Table τ) (fault : Option (Point × ℕ)) : Prop :=
  (∃ n v, fault = some (.iterationGrowth, n) ∧ (movedBy dest source)[n]? = some v ∧
      τ.movedFrom v ≠ v) ∨
    ∃ n v, fault = some (.bucketArray, n) ∧ (movedBy dest source)[0]? = some v ∧
      (dest.bucketCount = 0 → n = 0 → τ.movedFrom v ≠ v)

theorem Unaffected.usable (h : Unaffected t t') : Usable t' := ⟨h.buckets, h.intact⟩

theorem usable_of_sturdy (hs : Sturdy t) (hlaw : LawfulTable t) : Usable t :=
  (unaffected_of_sameElements hs hlaw (SameElements.refl t) hs.1.consistent).usable

theorem not_usable_of_lost (h : LostBuckets t t') (hne : t.bucketCount ≠ 0) : ¬ Usable t' := by
  intro husable
  obtain ⟨array, harray, -⟩ := husable.buckets (by rwa [h.bucketCount])
  rw [h.buckets] at harray
  cases harray

theorem Absorbs.conserved {done : List ℕ} (h : Absorbs t0 u0 done moved t)
    (herased : Erased u0 moved u) (hc : Consistent u0) :
    (contents t ++ contents u).Perm (contents t0 ++ contents u0) := by
  rw [h.contents, List.append_assoc]
  exact (List.perm_append_comm.trans (herased.contents_perm hc)).append_left _

/-- A value that survives a move is not missed. -/
theorem sameElements_of_assigned {g : τ.Value → τ.Value} {x : ℕ} (h : Assigned t x g t')
    (he : (t.nodeAt x).storage = some e) (hg : g e.value = e.value) : SameElements t t' where
  iteration := h.iteration
  storage y := by
    by_cases hy : y = x
    · subst hy
      obtain ⟨e', he', hnew⟩ := h.element
      cases he.symm.trans he'
      rw [hnew, he, hg]
    · exact h.others y hy
  policy := h.policy
  chunks := by rw [h.chunks]

section

variable (hu0 : WellFormed u0) (hroom : Room u0) (hlaw : LawfulTable u0)
  (turn : AtTurn t0 u0 moved node e t u) (hsame : SameElements t t')
  (hleft : LeftBehind u node true u')

include hu0 turn hsame hleft

/-- The elements are all there if and only if the one on its way has not changed. -/
theorem elements_iff_of_turn : (contents t' ++ contents u').Perm (contents t0 ++ contents u0) ↔
    τ.movedFrom e.value = e.value := by
  obtain ⟨done, rest, -, habsorbs⟩ := turn.absorbs
  obtain ⟨hassigned, -⟩ := hleft
  have hconserved := Absorbs.conserved habsorbs turn.erased hu0.consistent
  have hc := turn.formed.consistent
  obtain ⟨p, hp⟩ := List.mem_iff_getElem?.mp turn.listed
  have he : (u.nodeAt node).storage = some e := turn.element
  have hvalue := hc.getElem?_contents hp (valueAt_of_storage he)
  have hperm := modify_perm (f := τ.movedFrom) hvalue
  rw [← hassigned.contents hc hp] at hperm
  rw [hsame.contents habsorbs.wellFormed.consistent]
  constructor
  · intro h
    have hleft := (List.perm_append_left_iff _).mp (h.trans hconserved.symm)
    have hsingle := (hleft.append_right [e.value]).symm.trans hperm
    have hone := (List.perm_append_left_iff _).mp hsingle
    rw [List.perm_singleton] at hone
    exact (List.cons.inj hone).1.symm
  · intro h
    rw [h] at hperm
    exact (((List.perm_append_right_iff _).mp hperm).append_left _).trans hconserved

include hroom hlaw

/-- What is lost when the element on its way has been moved from. -/
theorem nothingLost_iff_of_turn : NothingLost t0 u0 t' u' ↔
    Usable t' ∧ τ.movedFrom e.value = e.value := by
  have hiff := elements_iff_of_turn hu0 turn hsame hleft
  constructor
  · exact fun h => ⟨h.dest, hiff.mp h.elements⟩
  · rintro ⟨husable, hmoved⟩
    refine ⟨husable, ?_, hiff.mpr hmoved⟩
    have hsame' := sameElements_of_assigned hleft.1 turn.element hmoved
    have hc := turn.formed.consistent
    exact (unaffected_of_sameElements ⟨turn.formed, turn.erased.room hroom⟩
      (turn.erased.policy.lawfulTable.mpr hlaw) hsame'
      (hc.of_sameElements hsame' hleft.2 (hc.index.sameIndex hleft.1.index))).usable

end

theorem mergeThrown_iff (hthrown : MergeThrown w i j t0 u0 w') (hlawt : LawfulTable t0)
    (hu0 : WellFormed u0) (hroomu : Room u0) (hlawu : LawfulTable u0)
    (hroom : Everywhere Room w') : ∃ t u, w'.table? i = some t ∧ w'.table? j = some u ∧
      (NothingLost t0 u0 t u ↔ ¬ MergeLoses t0 u0 w.heap.fault) := by
  have hsturdy : ∀ {done moved : List ℕ} {t t' u : Table τ}, Absorbs t0 u0 done moved t →
      SameElements t t' → Pair w i j t' u w' → Sturdy t ∧ LawfulTable t := by
    intro done moved t t' u habsorbs hsame hpair
    have hroom' : Room t' := hroom i t' hpair.left
    refine ⟨⟨habsorbs.wellFormed, ?_⟩, habsorbs.grown.policy.lawfulTable.mpr hlawt⟩
    unfold Room Table.size at hroom' ⊢
    rwa [hsame.iteration] at hroom'
  cases hthrown with
  | between done moved t u t' absorbs erased formed early same consistent pair =>
      obtain ⟨hs, hlaw⟩ := hsturdy absorbs same pair
      refine ⟨t', u, pair.left, pair.right, iff_of_true ⟨?_, ?_, ?_⟩ ?_⟩
      · exact (unaffected_of_sameElements hs hlaw same consistent).usable
      · exact usable_of_sturdy ⟨formed, erased.room hroomu⟩ (erased.policy.lawfulTable.mpr hlawu)
      · rw [same.contents absorbs.wellFormed.consistent]
        exact Absorbs.conserved absorbs erased hu0.consistent
      · rintro (⟨n, v, hfault, -⟩ | ⟨n, v, hfault, -⟩)
        · exact early (Or.inl (by rw [hfault]; rfl))
        · exact early (Or.inr (by rw [hfault]; rfl))
  | unlinked moved node e t u t' u' turn fault same consistent left pair =>
      obtain ⟨done, rest, -, habsorbs⟩ := turn.absorbs
      obtain ⟨hs, hlaw⟩ := hsturdy habsorbs same pair
      have husable := (unaffected_of_sameElements hs hlaw same consistent).usable
      have hnext : (movedBy t0 u0)[moved.length]? = some e.value := turn.next hu0.consistent hlawt
      refine ⟨t', u', pair.left, pair.right,
        (nothingLost_iff_of_turn hu0 hroomu hlawu turn same left).trans ?_⟩
      have hloses : MergeLoses t0 u0 w.heap.fault ↔ τ.movedFrom e.value ≠ e.value := by
        constructor
        · rintro (⟨n, v, hfault, hv, hmoved⟩ | ⟨n, v, hfault, -⟩) <;> rw [fault] at hfault <;>
            cases hfault
          cases hnext.symm.trans hv
          exact hmoved
        · exact fun hmoved => Or.inl ⟨_, _, fault, hnext, hmoved⟩
      rw [hloses, not_not]
      exact and_iff_right husable
  | unhoused moved node n e t u t' u' turn unmoved fault first lost left pair =>
      obtain ⟨done, rest, -, habsorbs⟩ := turn.absorbs
      obtain ⟨hs, hlaw⟩ := hsturdy habsorbs lost.same pair
      have hnext : (movedBy t0 u0)[moved.length]? = some e.value := turn.next hu0.consistent hlawt
      refine ⟨t', u', pair.left, pair.right,
        (nothingLost_iff_of_turn hu0 hroomu hlawu turn lost.same left).trans ?_⟩
      have hloses : MergeLoses t0 u0 w.heap.fault ↔ ∃ v, (movedBy t0 u0)[0]? = some v ∧
          (t0.bucketCount = 0 → n = 0 → τ.movedFrom v ≠ v) := by
        constructor
        · rintro (⟨n', v, hfault, -⟩ | ⟨n', v, hfault, hv⟩) <;> rw [fault] at hfault <;>
            cases hfault
          exact ⟨v, hv⟩
        · rintro ⟨v, hv⟩
          exact Or.inr ⟨n, v, fault, hv⟩
      rw [hloses]
      by_cases hnil : moved = []
      · have hcount := unmoved hnil
        rw [hnil, List.length_nil] at hnext
        by_cases hzero : t0.bucketCount = 0
        · have hn := (first hzero).mp hnil
          have husable := (unaffected_of_sameElements hs hlaw lost.same
            (lost.consistent hs.1.consistent (hcount.trans hzero))).usable
          simp [hnext, hzero, hn, husable]
        · have hnot := not_usable_of_lost lost (hcount ▸ hzero)
          simp [hnext, hzero, hnot]
      · -- the receiver has got an element, so it has buckets
        have hne : t.bucketCount ≠ 0 := by
          intro hzero
          have hlen := hs.1.consistent.length_contents
          rw [habsorbs.contents, List.length_append,
            length_values hu0.consistent turn.erased.moved_mem] at hlen
          have hpos := List.length_pos_iff.mpr hnil
          have hempty := hs.1.consistent.index.eq_nil hzero
          rw [show t.size = 0 from congrArg List.length hempty] at hlen
          omega
        have hnot := not_usable_of_lost lost hne
        obtain ⟨v, hv⟩ : ∃ v, (movedBy t0 u0)[0]? = some v := by
          obtain ⟨hlt, -⟩ := List.getElem?_eq_some_iff.mp hnext
          exact ⟨_, List.getElem?_eq_getElem (Nat.zero_lt_of_lt hlt)⟩
        simp only [hnot, false_and, false_iff, not_not]
        exact ⟨v, hv, fun hzero hn => absurd ((first hzero).mpr hn) hnil⟩

/-- A table merged with itself has nothing to move. -/
theorem movedBy_self (hlaw : LawfulTable t) : movedBy t t = [] := by
  refine absorbed_eq_nil fun v hv => present_eq_true.mpr ⟨v, hv, hlaw.refl _⟩

theorem ignoring_thrown {α : Type} {x : Action (World τ) α}
    (h : (ignoring x).run w = (.thrown, w')) : x.run w = (.thrown, w') := by
  unfold ignoring at h
  rw [Action.run_bind] at h
  rcases hx : x.run w with ⟨_ | _ | _ | _, w1⟩ <;> rw [hx] at h
  all_goals cases h
  rfl

/-- In every state of a program, when an allocation of a transfer throws: an insertion of a node
keeps the destination and the handle, and a merge keeps all elements and both tables, if and
only if the allocation is one that loses nothing. -/
theorem failed_transfer_iff {fault : Option (Point × ℕ)} (hrun : Run World.empty steps w)
    (hsteps : EachStep Regular World.empty steps) (hlaw : ∀ step ∈ steps, LawfulFunctors step.op)
    (halloc : AllocationThrows fault) :
    (∀ i h t handle cell w', w.table? i = some t → w.handle? h = some handle →
      handle.value = some cell →
      (Step.exec ⟨.insertHandle false i h, fault⟩).run w = (.thrown, w') →
      (HandleKept t i h handle w' ↔ ¬ InsertLoses t cell.element.value fault)) ∧
    ∀ i j t0 u0 w', w.table? i = some t0 → w.table? j = some u0 →
      (Step.exec ⟨.merge i j, fault⟩).run w = (.thrown, w') → Everywhere Room w' →
      ∃ t u, w'.table? i = some t ∧ w'.table? j = some u ∧
        (NothingLost t0 u0 t u ↔ ¬ MergeLoses t0 u0 fault) := by
  have hsturdy := run_sturdy hrun hsteps hlaw
  have hlawful := run_lawful hrun hlaw
  constructor
  · intro i h t handle cell w' ht hh hcell hthrown
    exact handle_kept_iff (w := started ⟨.insertHandle false i h, fault⟩ w)
      ⟨steps, w, i, hrun, hsteps, hlaw, ht⟩ ht hh hcell halloc (ignoring_thrown hthrown)
  · intro i j t0 u0 w' hi hj hthrown hroom
    by_cases hij : i = j
    · subst hij
      cases hi.symm.trans hj
      have hself : Action.Post Stuck.anyhow (mergeFrom i i) (started ⟨.merge i i, fault⟩ w)
          (fun _ _ => True)
          (fun w' => w' = { started ⟨.merge i i, fault⟩ w with heap := w'.heap }) :=
        (mergeFrom_self (X := True) (w := started ⟨.merge i i, fault⟩ w) hi (hsturdy i t0 hi).1
          (hsturdy i t0 hi).2 (hlawful i t0 hi) (Or.inl trivial)).mono (fun _ _ _ => trivial)
          (fun _ h' => h'.1) fun _ h' => h'
      have heq := hself.thrown_of_run hthrown
      have hi' : w'.table? i = some t0 := by
        rw [heq]
        exact hi
      have husable := usable_of_sturdy (hsturdy i t0 hi) (hlawful i t0 hi)
      refine ⟨t0, t0, hi', hi', iff_of_true ⟨husable, husable, List.Perm.refl _⟩ ?_⟩
      unfold MergeLoses
      rw [movedBy_self (hlawful i t0 hi)]
      simp
    · have hpost := mergeFrom_thrown (w := started ⟨.merge i j, fault⟩ w) hij hi hj
        (hsturdy i t0 hi).1 (hsturdy i t0 hi).2 (hlawful i t0 hi) (hsturdy j u0 hj).1
        (hsturdy j u0 hj).2 (hlawful j u0 hj) halloc
      rcases hpost.thrown_of_run hthrown with h | ⟨t, ht, hnot⟩
      · exact mergeThrown_iff h (hlawful i t0 hi) (hsturdy j u0 hj).1 (hsturdy j u0 hj).2
          (hlawful j u0 hj) hroom
      · exact absurd (hroom i t ht) hnot

/-- A map whose values are zero after a move, as strings are empty. -/
abbrev EmptiedMap : Traits := mapTraits ℕ ℕ false .exact fun _ => 0

/-- Six elements in eight buckets, a second map with the key 8, the node of its key 7 in
handle 0, and a third map without buckets. -/
def transferSteps : List (Step EmptiedMap) :=
  [⟨.construct 0 (fun k => UInt64.ofNat k) (fun a b => a == b) (), none⟩,
    ⟨.table 0 (.insert (1, 10)), none⟩, ⟨.table 0 (.insert (2, 20)), none⟩,
    ⟨.table 0 (.insert (3, 30)), none⟩, ⟨.table 0 (.insert (4, 40)), none⟩,
    ⟨.table 0 (.insert (5, 50)), none⟩, ⟨.table 0 (.insert (6, 60)), none⟩,
    ⟨.construct 0 (fun k => UInt64.ofNat k) (fun a b => a == b) (), none⟩,
    ⟨.table 1 (.insert (7, 70)), none⟩, ⟨.table 1 (.insert (8, 80)), none⟩,
    ⟨.table 1 (.extractKey 7), none⟩,
    ⟨.construct 0 (fun k => UInt64.ofNat k) (fun a b => a == b) (), none⟩]

theorem transfer_lawful : ∀ step ∈ transferSteps, LawfulFunctors step.op := by
  simp only [transferSteps, List.forall_mem_cons, List.not_mem_nil, LawfulFunctors]
  exact ⟨lawful_beq _, trivial, trivial, trivial, trivial, trivial, trivial, lawful_beq _, trivial,
    trivial, trivial, lawful_beq _, fun _ h => h.elim⟩

theorem eq_of_thrown {α σ : Type} {r : Result α × σ} (h : r.1 = .thrown) : r = (.thrown, r.2) :=
  Prod.ext h rfl

/-- The third map cannot get a chunk: the node stays in its handle, and a merge of the second
map loses nothing. -/
theorem failed_transfer_iff_chunk :
    HandleKept (((finish World.empty transferSteps).table? 2).get (by decide +kernel)) 2 0
        (((finish World.empty transferSteps).handle? 0).get (by decide +kernel))
        ((Step.exec ⟨.insertHandle false 2 0, some (.chunk, 0)⟩).run
          (finish World.empty transferSteps)).2 ∧
      ∃ t u, NothingLost (((finish World.empty transferSteps).table? 2).get (by decide +kernel))
        (((finish World.empty transferSteps).table? 1).get (by decide +kernel)) t u := by
  have hcompletes : EachStep Step.Completes World.empty transferSteps := by decide +kernel
  have hregular : EachStep Regular World.empty transferSteps := by decide +kernel
  have halloc : AllocationThrows (some (.chunk, 0)) := ⟨.chunk, by simp, rfl⟩
  obtain ⟨hinsert, hmerge⟩ := failed_transfer_iff (run_of_completes hcompletes) hregular
    transfer_lawful halloc
  constructor
  · refine (hinsert 2 0 _ _ _ _ (Option.some_get (by decide +kernel)).symm
      (Option.some_get (by decide +kernel)).symm
      (Option.some_get (by decide +kernel)).symm ?_).mpr ?_
    · exact eq_of_thrown (by decide +kernel)
    · rintro (⟨h, -⟩ | ⟨h | h, -⟩) <;> cases h
  · obtain ⟨t, u, -, -, hiff⟩ := hmerge 2 1 _ _ _ (Option.some_get (by decide +kernel)).symm
      (Option.some_get (by decide +kernel)).symm (eq_of_thrown (by decide +kernel))
      (by decide +kernel)
    refine ⟨t, u, hiff.mpr ?_⟩
    rintro (⟨n, v, h, -⟩ | ⟨n, v, h, -⟩) <;> cases h

/-- In the first map the larger bucket array cannot be allocated: the insertion of the node
loses the buckets of the map and leaves a moved-from element in the handle, and the merge
does the same to the element in the second map. -/
theorem failed_transfer_loses_element :
    ∃ w, Run World.empty transferSteps w ∧ EachStep Regular World.empty transferSteps ∧
      (∀ step ∈ transferSteps, LawfulFunctors step.op) ∧
      (∃ handle w', w.handle? 0 = some handle ∧
        (Step.exec ⟨.insertHandle false 0 0, some (.bucketArray, 0)⟩).run w = (.thrown, w') ∧
        (handle.value.map fun cell => cell.element.value) = some (7, 70) ∧
        ((w'.handle? 0).bind fun handle => handle.value.map fun cell => cell.element.value) =
          some (7, 0) ∧
        ∀ t, w.table? 0 = some t → ¬ HandleKept t 0 0 handle w') ∧
      ∃ w' u, (Step.exec ⟨.merge 0 1, some (.bucketArray, 0)⟩).run w = (.thrown, w') ∧
        w'.table? 1 = some u ∧ contents u = [(8, 0)] ∧
        ∀ t0 u0 t, w.table? 0 = some t0 → w.table? 1 = some u0 → w'.table? 0 = some t →
          ¬ NothingLost t0 u0 t u := by
  have hcompletes : EachStep Step.Completes World.empty transferSteps := by decide +kernel
  refine ⟨finish World.empty transferSteps, run_of_completes hcompletes, by decide +kernel,
    transfer_lawful, ?_, ?_⟩
  · refine ⟨_, _, (Option.some_get (by decide +kernel)).symm, eq_of_thrown (by decide +kernel),
      by decide +kernel, by decide +kernel, fun t _ hkept => ?_⟩
    have howner := congrArg (Option.bind · fun handle => handle.value.map fun cell =>
      cell.element.value) hkept.owner
    exact absurd howner (by decide +kernel)
  · refine ⟨_, _, eq_of_thrown (by decide +kernel), (Option.some_get (by decide +kernel)).symm,
      by decide +kernel, fun t0 u0 t _ hu0 ht hlost => ?_⟩
    have hsource : ((finish World.empty transferSteps).table? 1).map contents = some [(8, 80)] := by
      decide +kernel
    have hdest : (((Step.exec ⟨.merge 0 1, some (.bucketArray, 0)⟩).run
        (finish World.empty transferSteps)).2.table? 0).map contents =
          some [(1, 10), (2, 20), (3, 30), (4, 40), (5, 50), (6, 60)] := by decide +kernel
    rw [hu0] at hsource
    rw [ht] at hdest
    have hmem := hlost.elements.mem_iff.mpr (List.mem_append_right (contents t0)
      (Option.some.inj hsource ▸ List.mem_singleton_self (8, 80)))
    rw [Option.some.inj hdest] at hmem
    exact absurd hmem (by decide +kernel)

end Fum.Interface

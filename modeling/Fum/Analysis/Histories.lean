import Fum.Analysis.Contents
import Fum.Analysis.Reachability

/-!
# Calls on one table

A table on which a program calls member functions that do not throw, with lawful functors and
load factors of at most one. What such a call observes is what a dense map says, so nothing
that only tunes the index can be seen.
-/

set_option autoImplicit false

namespace Fum.Analysis

open Fum.Model Effects SwapRemove DenseMap

variable {τ : Traits} {U : Stuck → Prop} {s s' : Store τ} {t t' : Table τ}

/-! ## Calls that do not throw -/

/-- A table that a program can use, compared by `equal`. -/
structure Playable (equal : τ.Key → τ.Key → Bool) (t : Table τ) : Prop where
  wellFormed : WellFormed t
  room : Room t
  lawful : LawfulTable t
  moderate : Moderate t
  keyEqual : t.keyEqual = equal

/-- A load factor that the call sets is at most one. -/
def Modest : Op τ → Prop
  | .maxLoadFactor z => LoadFactor.AtMostOne (LoadFactor.ofFloat z)
  | _ => True

instance : ∀ op : Op τ, Decidable (Modest op)
  | .maxLoadFactor z => inferInstanceAs (Decidable (LoadFactor.AtMostOne (LoadFactor.ofFloat z)))
  | .insert _ | .tryEmplace _ _ | .insertOrAssign _ _ | .assign _ _ | .eraseKey _ | .eraseAt _
  | .eraseRange _ _ | .extractKey _ | .extractAt _ | .clear | .rehash _ | .reserve _ | .find _ =>
      isTrue trivial

theorem robust_keyEqual (equal : τ.Key → τ.Key → Bool) :
    Robust fun t : Table τ => t.keyEqual = equal where
  arena _ _ _ _ h := h
  buckets _ _ h := h
  iteration _ _ h := h
  rebuild _ _ _ h := h
  drop _ h := h
  reset _ h := h
  allocators _ _ _ h := h
  fresh _ _ h := h

/-- Every table of a run compares keys as the tables do that it constructs. -/
theorem keyEqual_of_run {w : World τ} {steps : List (Step τ)} {equal : τ.Key → τ.Key → Bool}
    (hrun : Run World.empty steps w)
    (hsteps : ∀ step ∈ steps, ∀ n hash equal' alloc values,
      (step.op = .construct n hash equal' alloc ∨
        step.op = .constructRange values n hash equal' alloc) → equal' = equal) :
    Everywhere (fun t : Table τ => t.keyEqual = equal) w := by
  refine run_everywhere (robust_keyEqual equal) (fun _ _ _ h => h) hrun fun step hstep => ?_
  exact ⟨fun n hash equal' alloc values hop => hsteps step hstep n hash equal' alloc values hop,
    fun _ _ _ _ h => h⟩

/-- Every table of a run has the functors that its tables are constructed with. -/
theorem functors_of_run {w : World τ} {steps : List (Step τ)} {hash : τ.Key → UInt64}
    {equal : τ.Key → τ.Key → Bool} (hrun : Run World.empty steps w)
    (hsteps : ∀ step ∈ steps, ∀ n hash' equal' alloc values,
      (step.op = .construct n hash' equal' alloc ∨
        step.op = .constructRange values n hash' equal' alloc) → hash' = hash ∧ equal' = equal) :
    Everywhere (fun t : Table τ => t.hashFunction = hash ∧ t.keyEqual = equal) w := by
  have hrobust : Robust fun t : Table τ => t.hashFunction = hash ∧ t.keyEqual = equal :=
    { arena := fun _ _ _ _ h => h
      buckets := fun _ _ h => h
      iteration := fun _ _ h => h
      rebuild := fun _ _ _ h => h
      drop := fun _ h => h
      reset := fun _ h => h
      allocators := fun _ _ _ h => h
      fresh := fun _ _ h => h }
  refine run_everywhere hrobust (fun _ _ _ h => h) hrun fun step hstep => ?_
  exact ⟨fun n hash' equal' alloc values hop => hsteps step hstep n hash' equal' alloc values hop,
    fun _ _ _ _ h => h⟩

theorem Op.keeps_of_robust {I : Table τ → Prop} (h : Robust I) (op : Op τ)
    (hz : ∀ z, op = .maxLoadFactor z → ∀ t, I t → I (withFactor t (LoadFactor.ofFloat z))) :
    KeepsTable I op.exec :=
  Op.keeps h.durable op fun z hop s hs => hz z hop s.table hs

/-- A call with valid iterators in which nothing throws returns, and leaves a table that can
be used as long as it has room. -/
theorem Op.exec_playable (op : Op τ) {equal : τ.Key → τ.Key → Bool}
    (h : Playable equal s.table) (hquiet : s.heap.fault = none) (hvalid : ValidIn s.table op)
    (hmodest : Modest op) (hsized : SizableIn s.table op) :
    Action.Post U op.exec s
      (fun reply s' => EffectOf s.table s'.table op reply ∧ Consistent s'.table ∧
        (Room s'.table → Playable equal s'.table)) (fun _ => False) := by
  have hspec := Op.exec_spec (U := U) op h.wellFormed.consistent h.room
    (hsized.fitsIn h.moderate)
    (Or.inr ⟨hvalid, h.lawful, h.wellFormed.distinct h.lawful⟩)
  have hlaw := (Op.keeps_of_robust robust_lawfulTable op fun _ _ _ h' => h').post h.lawful
  have hmoderate := (Op.keeps_of_robust robust_moderate op (by
    rintro z rfl t -
    exact hmodest)).post h.moderate
  have hequal := (Op.keeps_of_robust (robust_keyEqual equal) op fun _ _ _ h' => h').post h.keyEqual
  refine (((hspec.and hlaw).and hmoderate).and hequal).mono ?_ ?_ fun _ h' => h'
  · rintro reply s' ⟨⟨⟨⟨hc', heffect⟩, hlaw'⟩, hmoderate'⟩, hequal'⟩
    exact ⟨heffect, hc', fun hroom' =>
      ⟨h.wellFormed.of_effect heffect hc', hroom', hlaw', hmoderate', hequal'⟩⟩
  · rintro s' ⟨⟨⟨hthrown, -⟩, -⟩, -⟩
    exact hthrown.fault hquiet

/-- The call on the same table with a memory in which nothing throws. -/
def quietly {α : Type} (x : Exec τ α) : Exec τ α where
  run s := x.run ⟨s.table, { s.heap with fault := none }⟩

theorem post_quietly {α : Type} {x : Exec τ α} {Q : α → Store τ → Prop} {E : Store τ → Prop}
    (h : Action.Post U x ⟨s.table, { s.heap with fault := none }⟩ Q E) :
    Action.Post U (quietly x) s Q E := h

/-! ## What a history shows -/

/-- A call that can be made without knowing the hasher: an iterator is the position of its
element in the iteration. -/
inductive Call (K M V : Type) where
  | insert (value : V)
  | tryEmplace (key : K) (mapped : M)
  | insertOrAssign (key : K) (mapped : M)
  | eraseKey (key : K)
  | erasePosition (p : ℕ)
  | clear

/-- A call that only tunes the index. -/
inductive Tuning (R : RoundedArithmetic.Rounding) where
  | rehash (requested : ℕ)
  | reserve (elementCount : ℕ)
  | maxLoadFactor (newFactor : RoundedArithmetic.FloatValue R)

/-- The flags and counts that calls return. -/
inductive Answer where
  | none
  | flag (inserted : Bool)
  | count (n : ℕ)
  deriving DecidableEq

/-- One entry of a history. -/
inductive Event (τ : Traits) where
  | call (c : Call τ.Key τ.Mapped τ.Value)
  | tune (u : Tuning τ.rounding)

/-- The member function that a call means for the table. -/
def Call.op (t : Table τ) : Call τ.Key τ.Mapped τ.Value → Op τ
  | .insert value => .insert value
  | .tryEmplace key mapped => .tryEmplace key mapped
  | .insertOrAssign key mapped => .insertOrAssign key mapped
  | .eraseKey key => .eraseKey key
  | .erasePosition p => .eraseAt (nodeAtPosition t p)
  | .clear => .clear

def Tuning.op : Tuning τ.rounding → Op τ
  | .rehash requested => .rehash requested
  | .reserve elementCount => .reserve elementCount
  | .maxLoadFactor newFactor => .maxLoadFactor newFactor

/-- What a reply shows: the iterators are left out. -/
def answerOf : Reply τ → Answer
  | .inserted _ flag => .flag flag
  | .erased n => .count n
  | .none | .iterator _ | .node _ => .none

/-- A history of a table in which nothing throws: what each call answers, with the values
that an iteration then reads. -/
def observe : List (Event τ) → Exec τ (List (Answer × List τ.Value))
  | [] => pure []
  | .call c :: rest => do
      let t ← getTable
      let reply ← quietly (c.op t).exec
      let t ← getTable
      let seen ← observe rest
      pure ((answerOf reply, contents t) :: seen)
  | .tune u :: rest => do
      let _ ← quietly u.op.exec
      observe rest

/-- The calls of a history. -/
def callsOf : List (Event τ) → List (Call τ.Key τ.Mapped τ.Value)
  | [] => []
  | .call c :: rest => c :: callsOf rest
  | .tune _ :: rest => callsOf rest

/-- The load factors that a history sets are at most one. -/
def Event.Modest : Event τ → Prop
  | .tune u => Analysis.Modest (Tuning.op u)
  | .call _ => True

/-- The store that a history goes on from after the entry. -/
def Event.next (s : Store τ) : Event τ → Store τ
  | .call c => ((quietly (c.op s.table).exec).run s).2
  | .tune u => ((quietly (Tuning.op u).exec).run s).2

/-- Each call of the history that tunes the index asks, where it stands, for bucket counts
within `std::size_t`. -/
def SizableHistory : List (Event τ) → Store τ → Prop
  | [], _ => True
  | .call c :: rest, s => SizableHistory rest (Event.next s (.call c))
  | .tune u :: rest, s =>
      SizableIn s.table (Tuning.op u) ∧ SizableHistory rest (Event.next s (.tune u))

instance decidableSizableHistory :
    ∀ (events : List (Event τ)) (s : Store τ), Decidable (SizableHistory events s)
  | [], _ => isTrue trivial
  | .call c :: rest, s => decidableSizableHistory rest (Event.next s (.call c))
  | .tune u :: rest, s =>
      have := decidableSizableHistory rest (Event.next s (.tune u))
      inferInstanceAs (Decidable (SizableIn s.table (Tuning.op u) ∧ _))

/-- A history that shows anything asks for bucket counts within `std::size_t`. -/
theorem sizableHistory_of_observe {events : List (Event τ)} {s s' : Store τ}
    {seen : List (Answer × List τ.Value)} (h : (observe events).run s = (.ok seen, s')) :
    SizableHistory events s := by
  induction events generalizing s s' seen with
  | nil => trivial
  | cons e rest ih =>
      cases e with
      | call c =>
          obtain ⟨t, s1, ht, hcall⟩ := Action.run_bind_eq_ok.mp h
          cases ht
          obtain ⟨reply, s2, hreply, hshown⟩ := Action.run_bind_eq_ok.mp hcall
          obtain ⟨t2, s3, ht2, hrest⟩ := Action.run_bind_eq_ok.mp hshown
          cases ht2
          obtain ⟨seen', s4, hseen, -⟩ := Action.run_bind_eq_ok.mp hrest
          have hsized := ih hseen
          rwa [show s2 = Event.next s (.call c) from (congrArg Prod.snd hreply).symm] at hsized
      | tune u =>
          obtain ⟨reply, s1, hreply, hrest⟩ := Action.run_bind_eq_ok.mp h
          have hsized := ih hrest
          rw [show s1 = Event.next s (.tune u) from (congrArg Prod.snd hreply).symm] at hsized
          exact ⟨(post_quietly (Op.exec_sizableIn (s := ⟨s.table,
            { s.heap with fault := none }⟩) (Tuning.op u))).ok_of_run hreply, hsized⟩

/-! ## The dense map -/

/-- What a call answers and does when the table is a dense map; there is no answer to an
erasure past the end. -/
def Call.dense (equal : τ.Key → τ.Key → Bool) (l : List τ.Value) :
    Call τ.Key τ.Mapped τ.Value → Option (Answer × List τ.Value)
  | .insert value =>
      some (.flag (!present τ.keyOf equal (τ.keyOf value) l), enter τ.keyOf equal value l)
  | .tryEmplace key mapped =>
      some (.flag (!present τ.keyOf equal key l),
        enter τ.keyOf equal (τ.makeValue key mapped) l)
  | .insertOrAssign key mapped =>
      some (.flag (!present τ.keyOf equal key l),
        if present τ.keyOf equal key l then
          assign τ.keyOf equal key (fun v => τ.assignMapped v mapped) l
        else l ++ [τ.makeValue key mapped])
  | .eraseKey key =>
      some (.count (present τ.keyOf equal key l).toNat, remove τ.keyOf equal key l)
  | .erasePosition p => if p < l.length then some (.none, swapRemove l p) else none
  | .clear => some (.none, [])

theorem Call.dense_erasePosition {equal : τ.Key → τ.Key → Bool} {l : List τ.Value} {p : ℕ}
    {r : Answer × List τ.Value}
    (h : Call.dense equal l (.erasePosition p : Call τ.Key τ.Mapped τ.Value) = some r) :
    p < l.length ∧ r = (.none, swapRemove l p) := by
  have h' : (if p < l.length then some (Answer.none, swapRemove l p) else none) = some r := h
  split at h'
  · next hp => exact ⟨hp, (Option.some.inj h').symm⟩
  · cases h'

/-- The answers of a dense map to a sequence of calls, with its entries after each. -/
def denseHistory (equal : τ.Key → τ.Key → Bool) :
    List (Call τ.Key τ.Mapped τ.Value) → List τ.Value → Option (List (Answer × List τ.Value))
  | [], _ => some []
  | c :: rest, l =>
      match c.dense equal l with
      | none => none
      | some r => (denseHistory equal rest r.2).map (r :: ·)

/-- The answer of a call, and the contents it leaves, are those of the dense map. -/
theorem Call.effect_dense (c : Call τ.Key τ.Mapped τ.Value) {reply : Reply τ}
    (heffect : EffectOf t t' (c.op t) reply) (hw : WellFormed t) (hlaw : LawfulTable t)
    {r : Answer × List τ.Value} (hdense : c.dense t.keyEqual (contents t) = some r) :
    (answerOf reply, contents t') = r := by
  have hc := hw.consistent
  have hd := hw.distinct hlaw
  have h := heffect.effect
  cases c with
  | insert value =>
      cases h with
      | insert _ it flag entered =>
          obtain ⟨hcontents, hflag⟩ := entered.contents hc hlaw
          rw [← Option.some.inj hdense, hcontents, hflag]
          rfl
  | tryEmplace key mapped =>
      cases h with
      | tryEmplace _ _ it flag entered =>
          obtain ⟨hcontents, hflag⟩ := entered.keyed.contents hc hlaw
          rw [τ.keyOf_makeValue] at hflag
          rw [← Option.some.inj hdense, hcontents, hflag]
          rfl
  | insertOrAssign key mapped =>
      cases h with
      | insertOrAssign _ _ it flag entered =>
          obtain ⟨hcontents, hflag⟩ := entered.contents hc hlaw hd
          rw [← Option.some.inj hdense, hcontents, hflag]
          rfl
  | eraseKey key =>
      cases h with
      | eraseKey _ n erased =>
          obtain ⟨hcontents, hcount⟩ := erased.contents hc hlaw hd
          rw [← Option.some.inj hdense, hcontents, hcount]
          rfl
  | erasePosition p =>
      cases h with
      | eraseAt _ it erased =>
          obtain ⟨hp, rfl⟩ := Call.dense_erasePosition hdense
          rw [hc.length_contents] at hp
          rw [(erased.erased hlaw hd hc.filled).2.contents hc (nodeAtPosition_of_lt hp)]
          rfl
  | clear =>
      cases h with
      | clear cleared =>
          have hempty : contents t' = [] := by
            unfold contents
            rw [cleared.iteration]
            rfl
          rw [← Option.some.inj hdense, hempty]
          rfl

/-- A call answers as the dense map does and changes the contents in the same way. -/
theorem Call.exec_dense (c : Call τ.Key τ.Mapped τ.Value) {equal : τ.Key → τ.Key → Bool}
    (h : Playable equal s.table) (hquiet : s.heap.fault = none) {r : Answer × List τ.Value}
    (hdense : c.dense equal (contents s.table) = some r) (hroom : r.2.length + 2 ≤ 2 ^ 24) :
    Action.Post U (c.op s.table).exec s
      (fun reply s' => (answerOf reply, contents s'.table) = r ∧ Playable equal s'.table)
      (fun _ => False) := by
  have hc := h.wellFormed.consistent
  have hvalid : ValidIn s.table (c.op s.table) := by
    cases c with
    | erasePosition p =>
        have hp := (Call.dense_erasePosition hdense).1
        rw [hc.length_contents] at hp
        exact hc.live (List.mem_of_getElem? (nodeAtPosition_of_lt hp))
    | insert | tryEmplace | insertOrAssign | eraseKey | clear => trivial
  have hmodest : Analysis.Modest (c.op s.table) := by cases c <;> trivial
  have hsized : SizableIn s.table (c.op s.table) := by cases c <;> trivial
  refine (Op.exec_playable (c.op s.table) h hquiet hvalid hmodest hsized).mono ?_ (fun _ h' => h')
    fun _ h' => h'
  rintro reply s' ⟨heffect, hc', hplayable⟩
  rw [← h.keyEqual] at hdense
  have hanswer := c.effect_dense heffect h.wellFormed h.lawful hdense
  refine ⟨hanswer, hplayable ?_⟩
  rw [← hanswer, hc'.length_contents] at hroom
  exact hroom

/-- A call that tunes the index changes nothing that can be seen. -/
theorem Tuning.exec_unseen (u : Tuning τ.rounding) {equal : τ.Key → τ.Key → Bool}
    (h : Playable equal s.table) (hquiet : s.heap.fault = none)
    (hmodest : Analysis.Modest (Tuning.op u : Op τ)) (hsized : SizableIn s.table (Tuning.op u)) :
    Action.Post U (Tuning.op u).exec s
      (fun _ s' => contents s'.table = contents s.table ∧ Playable equal s'.table)
      (fun _ => False) := by
  have hc := h.wellFormed.consistent
  have hvalid : ValidIn s.table (Tuning.op u) := by cases u <;> trivial
  refine (Op.exec_playable (Tuning.op u) h hquiet hvalid hmodest hsized).mono ?_ (fun _ h' => h')
    fun _ h' => h'
  rintro reply s' ⟨heffect, hc', hplayable⟩
  have hcontents : contents s'.table = contents s.table := by
    have h' := heffect.effect
    cases u with
    | rehash requested =>
        cases h' with
        | rehash _ same => exact same.contents hc
    | reserve elementCount =>
        cases h' with
        | reserve _ same => exact same.contents hc
    | maxLoadFactor newFactor =>
        cases h' with
        | maxLoadFactor _ refactored => exact refactored.contents hc
  refine ⟨hcontents, hplayable ?_⟩
  have hroom := h.room
  unfold Room at hroom ⊢
  rwa [← hc'.length_contents, hcontents, hc.length_contents]

/-- A history shows what the dense map answers to its calls. -/
theorem observe_dense {equal : τ.Key → τ.Key → Bool} (events : List (Event τ)) :
    ∀ (s : Store τ) (seen : List (Answer × List τ.Value)), Playable equal s.table →
      (∀ e ∈ events, e.Modest) → SizableHistory events s →
      denseHistory equal (callsOf events) (contents s.table) = some seen →
      (∀ o ∈ seen, o.2.length + 2 ≤ 2 ^ 24) →
        Action.Post U (observe events) s
          (fun seen' s' => seen' = seen ∧
            contents s'.table = (seen.getLast?.map Prod.snd).getD (contents s.table))
          (fun _ => False) := by
  induction events with
  | nil =>
      intro s seen h _ _ hseen _
      cases hseen
      exact ⟨rfl, rfl⟩
  | cons e rest ih =>
      intro s seen h hmodest hsized hseen hroom
      have hrest : ∀ e ∈ rest, e.Modest := fun e he => hmodest e (by simp [he])
      cases e with
      | call c =>
          unfold callsOf denseHistory at hseen
          cases hdense : c.dense equal (contents s.table) with
          | none =>
              rw [hdense] at hseen
              cases hseen
          | some r =>
              rw [hdense] at hseen
              obtain ⟨seen', hseen', rfl⟩ := Option.map_eq_some_iff.mp hseen
              unfold observe
              rw [post_getTable]
              refine Action.Post.bind (post_quietly (c.exec_dense
                (s := ⟨s.table, { s.heap with fault := none }⟩) h rfl hdense
                (hroom r (by simp)))).with_run (fun _ h' => h'.1) ?_
              rintro reply s1 ⟨⟨hanswer, h1⟩, hrun⟩
              have hsized1 : SizableHistory rest s1 := by
                rw [show s1 = Event.next s (.call c) from (congrArg Prod.snd hrun).symm]
                exact hsized
              rw [post_getTable]
              rw [← hanswer] at hseen'
              refine Action.Post.bind
                (ih s1 seen' h1 hrest hsized1 hseen' fun o ho => hroom o (by simp [ho]))
                (fun _ h' => h') ?_
              rintro seen2 s2 ⟨rfl, hlast⟩
              refine ⟨by rw [hanswer], ?_⟩
              rw [hlast, ← hanswer]
              cases seen2 with
              | nil => rfl
              | cons o seen2 =>
                  rw [List.getLast?_cons_cons]
                  rw [List.getLast?_eq_some_getLast (List.cons_ne_nil o seen2)]
                  rfl
      | tune u =>
          unfold observe
          obtain ⟨hsized1, hsized2⟩ := hsized
          refine Action.Post.bind (post_quietly (u.exec_unseen
            (s := ⟨s.table, { s.heap with fault := none }⟩) h rfl (hmodest (.tune u) (by simp))
            hsized1)).with_run (fun _ h' => h'.1) ?_
          rintro reply s1 ⟨⟨hcontents, h1⟩, hrun⟩
          rw [show Event.next s (.tune u) = s1 from congrArg Prod.snd hrun] at hsized2
          rw [← hcontents] at hseen ⊢
          exact ih s1 seen h1 hrest hsized2 hseen hroom

/-! ## Histories that ask for the same buckets -/

/-- The load factor that a call leaves. -/
def factorAfter (f : LoadFactor τ.rounding) : Op τ → LoadFactor τ.rounding
  | .maxLoadFactor z => LoadFactor.ofFloat z
  | _ => f

theorem robust_maxLoadFactor (f : LoadFactor τ.rounding) :
    Robust fun t : Table τ => t.maxLoadFactor = f where
  arena _ _ _ _ h := h
  buckets _ _ h := h
  iteration _ _ h := h
  rebuild _ _ _ h := h
  drop _ h := h
  reset _ h := h
  allocators _ _ _ h := h
  fresh _ _ h := h

theorem Op.exec_factor (op : Op τ) (s : Store τ) :
    (op.exec.run s).2.table.maxLoadFactor = factorAfter s.table.maxLoadFactor op := by
  cases op with
  | maxLoadFactor z =>
      show (if s.table.bucketCount ≠ 0 then _ else _ : Table τ).maxLoadFactor = _
      split <;> rfl
  | insert | tryEmplace | insertOrAssign | assign | eraseKey | eraseAt | eraseRange | extractKey
  | extractAt | clear | rehash | reserve | find =>
      exact Op.keeps_of_robust (robust_maxLoadFactor s.table.maxLoadFactor) _
        (fun _ h => by cases h) s rfl

theorem Event.next_call_factor (c : Call τ.Key τ.Mapped τ.Value) (s : Store τ) :
    (Event.next s (.call c)).table.maxLoadFactor = s.table.maxLoadFactor := by
  refine (Op.exec_factor (c.op s.table) ⟨s.table, { s.heap with fault := none }⟩).trans ?_
  cases c <;> rfl

theorem Event.next_tune_factor (u : Tuning τ.rounding) (s : Store τ) :
    (Event.next s (.tune u)).table.maxLoadFactor =
      factorAfter s.table.maxLoadFactor (Tuning.op u : Op τ) :=
  Op.exec_factor (Tuning.op u) ⟨s.table, { s.heap with fault := none }⟩

/-- What a call asks for depends on the size and the load factor alone. -/
theorem sizableIn_congr (hsize : t.size = t'.size) (hfactor : t.maxLoadFactor = t'.maxLoadFactor)
    (op : Op τ) : SizableIn t op ↔ SizableIn t' op := by
  have hcount : ∀ n, rehashCount t n = rehashCount t' n := fun n => by
    unfold rehashCount Table.rehashTarget
    rw [hsize, hfactor]
  cases op with
  | rehash n =>
      show rehashCount t n ≠ none ↔ rehashCount t' n ≠ none
      rw [hcount n]
  | reserve n =>
      show (∃ m ∈ bucketCountForElements t.maxLoadFactor n, rehashCount t m ≠ none) ↔
        ∃ m ∈ bucketCountForElements t'.maxLoadFactor n, rehashCount t' m ≠ none
      rw [hfactor]
      exact exists_congr fun m => and_congr_right fun _ => by rw [hcount m]
  | insert | tryEmplace | insertOrAssign | assign | eraseKey | eraseAt | eraseRange | extractKey
  | extractAt | clear | maxLoadFactor | find => exact Iff.rfl

/-- Two tables with the same contents and the same load factor can tell no more than that. -/
theorem sizableHistory_congr {equal : τ.Key → τ.Key → Bool} (events : List (Event τ)) :
    ∀ (s s' : Store τ) (seen : List (Answer × List τ.Value)), Playable equal s.table →
      Playable equal s'.table → contents s.table = contents s'.table →
      s.table.maxLoadFactor = s'.table.maxLoadFactor → (∀ e ∈ events, e.Modest) →
      denseHistory equal (callsOf events) (contents s.table) = some seen →
      (∀ o ∈ seen, o.2.length + 2 ≤ 2 ^ 24) →
        (SizableHistory events s ↔ SizableHistory events s') := by
  induction events with
  | nil => exact fun _ _ _ _ _ _ _ _ _ _ => Iff.rfl
  | cons e rest ih =>
      intro s s' seen h h' hcontents hfactor hmodest hseen hroom
      have hrest : ∀ e ∈ rest, e.Modest := fun e he => hmodest e (List.mem_cons_of_mem _ he)
      cases e with
      | call c =>
          unfold callsOf denseHistory at hseen
          cases hdense : c.dense equal (contents s.table) with
          | none =>
              rw [hdense] at hseen
              cases hseen
          | some r =>
              rw [hdense] at hseen
              obtain ⟨seen', hseen', rfl⟩ := Option.map_eq_some_iff.mp hseen
              have hr := hroom r List.mem_cons_self
              obtain ⟨reply, s1, hrun, hanswer, h1⟩ := (Call.exec_dense (U := Stuck.never) c
                (s := ⟨s.table, { s.heap with fault := none }⟩) h rfl hdense hr).returns
              obtain ⟨reply', s1', hrun', hanswer', h1'⟩ := (Call.exec_dense (U := Stuck.never) c
                (s := ⟨s'.table, { s'.heap with fault := none }⟩) h' rfl
                (hcontents ▸ hdense) hr).returns
              have hnext : Event.next s (.call c) = s1 := congrArg Prod.snd hrun
              have hnext' : Event.next s' (.call c) = s1' := congrArg Prod.snd hrun'
              have hsame : contents s1.table = contents s1'.table :=
                (congrArg Prod.snd hanswer).trans (congrArg Prod.snd hanswer').symm
              have hfactors : s1.table.maxLoadFactor = s1'.table.maxLoadFactor := by
                rw [← hnext, ← hnext', Event.next_call_factor, Event.next_call_factor, hfactor]
              show SizableHistory rest _ ↔ SizableHistory rest _
              rw [hnext, hnext']
              refine ih s1 s1' seen' h1 h1' hsame hfactors hrest ?_
                fun o ho => hroom o (List.mem_cons_of_mem _ ho)
              rw [show contents s1.table = r.2 from congrArg Prod.snd hanswer]
              exact hseen'
      | tune u =>
          have hsize : s.table.size = s'.table.size := by
            rw [← h.wellFormed.consistent.length_contents,
              ← h'.wellFormed.consistent.length_contents, hcontents]
          have hasks := sizableIn_congr hsize hfactor (Tuning.op u)
          refine (and_congr_right fun hsized => ?_).trans (and_congr_left' hasks)
          have hu := hmodest (.tune u) List.mem_cons_self
          obtain ⟨reply, s1, hrun, hunseen, h1⟩ := (u.exec_unseen (U := Stuck.never)
            (s := ⟨s.table, { s.heap with fault := none }⟩) h rfl hu hsized).returns
          obtain ⟨reply', s1', hrun', hunseen', h1'⟩ := (u.exec_unseen (U := Stuck.never)
            (s := ⟨s'.table, { s'.heap with fault := none }⟩) h' rfl hu
            (hasks.mp hsized)).returns
          have hnext : Event.next s (.tune u) = s1 := congrArg Prod.snd hrun
          have hnext' : Event.next s' (.tune u) = s1' := congrArg Prod.snd hrun'
          have hfactors : s1.table.maxLoadFactor = s1'.table.maxLoadFactor := by
            rw [← hnext, ← hnext', Event.next_tune_factor, Event.next_tune_factor, hfactor]
          rw [hnext, hnext']
          refine ih s1 s1' seen h1 h1' (hunseen.trans (hcontents.trans hunseen'.symm)) hfactors
            hrest ?_ hroom
          rw [show contents s1.table = contents s.table from hunseen]
          exact hseen

end Fum.Analysis

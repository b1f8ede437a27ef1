import Mathlib.Tactic.Common

/-!
# Calls that may throw, diverge or have undefined behaviour

A call of a C++ function is an action on the state it runs in: it returns a
value, leaves with an exception, never ends, or steps outside the language. The
state survives an exception, since a caller may catch it and go on; that is what
separates this monad from `ExceptT` over a pure state.

`Action.Post U x s Q E` is the one judgement about actions. Run from `s`, the call
`x` returns only into `Q`, throws only into `E`, and gets stuck only in a way that `U`
allows: `Stuck.never` is total correctness, `Stuck.anyhow` partial correctness, and
`Stuck.undefinedOnly` says that every loop ends. All three share the rules below.
-/

set_option autoImplicit false

namespace Effects

/-- How a call ends. -/
inductive Result (α : Type) where
  /-- The call returns `a`. -/
  | ok (a : α)
  /-- An exception leaves the call. -/
  | thrown
  /-- A loop of the call never ends. -/
  | diverged
  /-- The call has undefined behaviour. -/
  | undefined
  deriving DecidableEq, Repr

/-- The ways in which a call gets stuck. -/
inductive Stuck where
  | diverged
  | undefined
  deriving DecidableEq, Repr

namespace Stuck

/-- Total correctness: the call gets stuck in no way. -/
def never : Stuck → Prop := fun _ => False

/-- Termination: the call may step outside the language, but every loop of it ends. -/
def undefinedOnly : Stuck → Prop := fun k => k = undefined

/-- Partial correctness. -/
def anyhow : Stuck → Prop := fun _ => True

end Stuck

/-- A call of a C++ function on a state of type `σ`. -/
structure Action (σ α : Type) where
  /-- The outcome of the call and the state it leaves behind. -/
  run : σ → Result α × σ

namespace Action

variable {σ α β ι : Type}

/-- Sequencing: only a call that returns lets the rest run. -/
protected def bind (x : Action σ α) (f : α → Action σ β) : Action σ β where
  run s := match x.run s with
    | (.ok a, s') => (f a).run s'
    | (.thrown, s') => (.thrown, s')
    | (.diverged, s') => (.diverged, s')
    | (.undefined, s') => (.undefined, s')

instance : Monad (Action σ) where
  pure a := ⟨fun s => (.ok a, s)⟩
  bind := Action.bind

/-- Read the state. -/
def get : Action σ σ := ⟨fun s => (.ok s, s)⟩

/-- Update the state. -/
def modify (f : σ → σ) : Action σ Unit := ⟨fun s => (.ok (), f s)⟩

/-- Throw an exception. -/
def throw : Action σ α := ⟨fun s => (.thrown, s)⟩

/-- A loop that never ends. -/
def diverge : Action σ α := ⟨fun s => (.diverged, s)⟩

/-- Undefined behaviour. -/
def undefined : Action σ α := ⟨fun s => (.undefined, s)⟩

/-- `try { x } catch (...) { handler; throw; }`. -/
def cleanup (x : Action σ α) (handler : Action σ Unit) : Action σ α where
  run s := match x.run s with
    | (.thrown, s') => (handler.bind fun _ => throw).run s'
    | (.ok a, s') => (.ok a, s')
    | (.diverged, s') => (.diverged, s')
    | (.undefined, s') => (.undefined, s')

/-- `for (a : l) body(a);`. -/
def forEach : List ι → (ι → Action σ Unit) → Action σ Unit
  | [], _ => pure ()
  | a :: l, body => do
      body a
      forEach l body

/-! ## What a run computes -/

@[simp] theorem run_pure (a : α) (s : σ) : (pure a : Action σ α).run s = (.ok a, s) := rfl

@[simp] theorem run_get (s : σ) : (get : Action σ σ).run s = (.ok s, s) := rfl

@[simp] theorem run_modify (f : σ → σ) (s : σ) : (modify f).run s = (.ok (), f s) := rfl

@[simp] theorem run_throw (s : σ) : (throw : Action σ α).run s = (.thrown, s) := rfl

@[simp] theorem run_diverge (s : σ) : (diverge : Action σ α).run s = (.diverged, s) := rfl

@[simp] theorem run_undefined (s : σ) : (undefined : Action σ α).run s = (.undefined, s) := rfl

theorem run_bind (x : Action σ α) (f : α → Action σ β) (s : σ) :
    (x >>= f).run s = match x.run s with
      | (.ok a, s') => (f a).run s'
      | (.thrown, s') => (.thrown, s')
      | (.diverged, s') => (.diverged, s')
      | (.undefined, s') => (.undefined, s') := rfl

/-- A call that returns hands its value and its state to the rest. -/
theorem run_bind_ok {x : Action σ α} {s r : σ} {a : α} (f : α → Action σ β)
    (h : x.run s = (.ok a, r)) : (x >>= f).run s = (f a).run r := by
  rw [run_bind, h]

/-- A sequence that returns has returned from both of its parts. -/
theorem run_bind_eq_ok {x : Action σ α} {f : α → Action σ β} {s r : σ} {b : β} :
    (x >>= f).run s = (.ok b, r) ↔
      ∃ a s', x.run s = (.ok a, s') ∧ (f a).run s' = (.ok b, r) := by
  constructor
  · intro h
    rw [run_bind] at h
    rcases hx : x.run s with ⟨_ | _ | _ | _, s'⟩ <;> rw [hx] at h
    · exact ⟨_, s', rfl, h⟩
    all_goals cases h
  · rintro ⟨a, s', hx, hf⟩
    rw [run_bind_ok f hx, hf]

@[simp] theorem pure_bind (a : α) (f : α → Action σ β) : (pure a >>= f : Action σ β) = f a := rfl

@[simp] theorem bind_assoc {γ : Type} (x : Action σ α) (f : α → Action σ β)
    (g : β → Action σ γ) : (x >>= f) >>= g = x >>= fun a => f a >>= g := by
  show Action.mk _ = Action.mk _
  congr 1
  funext s
  rcases hx : x.run s with ⟨_ | _ | _ | _, s'⟩ <;> simp only [run_bind, hx]

theorem bind_pure (x : Action σ α) : (x >>= fun a => pure a) = x := by
  show Action.mk _ = Action.mk x.run
  congr 1
  funext s
  rcases hx : x.run s with ⟨_ | _ | _ | _, s'⟩ <;> simp only [run_pure]

/-! ## The judgement -/

/-- Run from `s`, the call returns into `Q`, throws into `E`, or gets stuck in a way
that `U` allows. -/
def Post (U : Stuck → Prop) (x : Action σ α) (s : σ) (Q : α → σ → Prop) (E : σ → Prop) : Prop :=
  match x.run s with
  | (.ok a, s') => Q a s'
  | (.thrown, s') => E s'
  | (.diverged, _) => U .diverged
  | (.undefined, _) => U .undefined

variable {U : Stuck → Prop} {x : Action σ α} {s : σ} {Q : α → σ → Prop} {E : σ → Prop}

theorem Post.of_run_ok {a : α} {r : σ} (h : x.run s = (.ok a, r)) (hQ : Q a r) :
    Post U x s Q E := by
  unfold Post
  rw [h]
  exact hQ

theorem Post.of_run_thrown {r : σ} (h : x.run s = (.thrown, r)) (hE : E r) :
    Post U x s Q E := by
  unfold Post
  rw [h]
  exact hE

theorem Post.pure {a : α} (h : Q a s) : Post U (Pure.pure a) s Q E := h

theorem Post.get {Q : σ → σ → Prop} (h : Q s s) : Post U Action.get s Q E := h

theorem Post.modify {f : σ → σ} {Q : Unit → σ → Prop} (h : Q () (f s)) :
    Post U (Action.modify f) s Q E := h

theorem Post.undefined (h : U .undefined) : Post U (Action.undefined : Action σ α) s Q E := h

theorem Post.diverge (h : U .diverged) : Post U (Action.diverge : Action σ α) s Q E := h

theorem Post.throw (h : E s) : Post U (Action.throw : Action σ α) s Q E := h

/-- The consequence rule. -/
theorem Post.mono {U' : Stuck → Prop} {Q' : α → σ → Prop} {E' : σ → Prop} (h : Post U x s Q E)
    (hQ : ∀ a s', Q a s' → Q' a s') (hE : ∀ s', E s' → E' s') (hU : ∀ k, U k → U' k) :
    Post U' x s Q' E' := by
  unfold Post at h ⊢
  rcases hx : x.run s with ⟨_ | _ | _ | _, s'⟩ <;> rw [hx] at h
  · exact hQ _ _ h
  · exact hE _ h
  · exact hU _ h
  · exact hU _ h

/-- A judgement may take what another says about the same run. -/
theorem Post.and {U' : Stuck → Prop} {Q' : α → σ → Prop} {E' : σ → Prop} (h : Post U x s Q E)
    (h' : Post U' x s Q' E') :
    Post U x s (fun a s' => Q a s' ∧ Q' a s') (fun s' => E s' ∧ E' s') := by
  unfold Post at h h' ⊢
  rcases hx : x.run s with ⟨_ | _ | _ | _, s'⟩ <;> rw [hx] at h h'
  · exact ⟨h, h'⟩
  · exact ⟨h, h'⟩
  · exact h
  · exact h

/-- A judgement for each value of a parameter. -/
theorem Post.forall {P : ι → Prop} {Q : ι → α → σ → Prop} {E : ι → σ → Prop}
    (h : ∀ i, P i → Post Stuck.anyhow x s (Q i) (E i)) :
    Post Stuck.anyhow x s (fun a s' => ∀ i, P i → Q i a s') (fun s' => ∀ i, P i → E i s') := by
  unfold Post at h ⊢
  rcases hx : x.run s with ⟨_ | _ | _ | _, s'⟩ <;> rw [hx] at h
  · exact h
  · exact h
  · trivial
  · trivial

/-- The rule of sequencing. -/
theorem Post.bind {f : α → Action σ β} {Q' : β → σ → Prop} {E' : σ → Prop}
    (h : Post U x s Q E) (hE : ∀ s', E s' → E' s')
    (hf : ∀ a s', Q a s' → Post U (f a) s' Q' E') : Post U (x >>= f) s Q' E' := by
  unfold Post at h ⊢
  rw [run_bind]
  rcases hx : x.run s with ⟨_ | _ | _ | _, s'⟩ <;> rw [hx] at h
  · exact hf _ _ h
  · exact hE _ h
  · exact h
  · exact h

/-- A rule for a call and what follows it holds of the call alone. -/
theorem Post.of_bind_pure (h : Post U (x >>= fun a => Pure.pure a) s Q E) : Post U x s Q E := by
  rwa [bind_pure] at h

/-- What is known of a result that is passed on in another form. -/
theorem Post.of_map {g : α → β} {Q : β → σ → Prop}
    (h : Post U (x >>= fun a => Pure.pure (g a)) s Q E) :
    Post U x s (fun a => Q (g a)) E := by
  unfold Post at h ⊢
  rw [run_bind] at h
  rcases hx : x.run s with ⟨_ | _ | _ | _, s'⟩ <;> rw [hx] at h <;> exact h

/-- The rule of `catch (...) { handler; throw; }`. -/
theorem Post.cleanup {handler : Action σ Unit} {F : σ → Prop} (h : Post U x s Q E)
    (hh : ∀ s', E s' → Post U handler s' (fun _ => F) F) :
    Post U (x.cleanup handler) s Q F := by
  unfold Post at h ⊢
  simp only [Action.cleanup]
  rcases hx : x.run s with ⟨_ | _ | _ | _, s'⟩ <;> rw [hx] at h
  · exact h
  · have hs := hh s' h
    unfold Post at hs
    simp only [Action.bind]
    rcases hy : handler.run s' with ⟨_ | _ | _ | _, s''⟩ <;> rw [hy] at hs <;> exact hs
  · exact h
  · exact h

/-- The rule of loops: an invariant on the items already done. -/
theorem Post.forEach {l : List ι} {body : ι → Action σ Unit} (I : List ι → σ → Prop)
    (h0 : I [] s)
    (hstep : ∀ (done : List ι) (a : ι) (rest : List ι) (s' : σ), l = done ++ a :: rest →
      I done s' → Post U (body a) s' (fun _ s'' => I (done ++ [a]) s'') E) :
    Post U (Action.forEach l body) s (fun _ s' => I l s') E := by
  suffices ∀ (todo done : List ι) (s' : σ), l = done ++ todo → I done s' →
      Post U (Action.forEach todo body) s' (fun _ s'' => I l s'') E from this l [] s rfl h0
  intro todo
  induction todo with
  | nil =>
      intro done s' hl hI
      rw [List.append_nil] at hl
      exact Post.pure (hl ▸ hI)
  | cons a rest ih =>
      intro done s' hl hI
      refine Post.bind (hstep done a rest s' hl hI) (fun _ h => h) fun _ s'' hI' => ?_
      exact ih (done ++ [a]) s'' (by simp [hl]) hI'

/-- The rule of loops: an invariant on the items still to be done. -/
theorem Post.forEach_rest {l : List ι} {body : ι → Action σ Unit} (I : List ι → σ → Prop)
    (h0 : I l s)
    (hstep : ∀ (a : ι) (rest : List ι) (s' : σ), a :: rest <:+ l → I (a :: rest) s' →
      Post U (body a) s' (fun _ s'' => I rest s'') E) :
    Post U (Action.forEach l body) s (fun _ s' => I [] s') E := by
  induction l generalizing s with
  | nil => exact Post.pure h0
  | cons a rest ih =>
      apply Post.bind (hstep a rest s (List.suffix_refl _) h0) (fun _ h => h)
      intro _ s' h'
      apply ih h'
      intro b rest' s'' hsuffix
      exact hstep b rest' s'' (hsuffix.trans (List.suffix_cons a rest))

/-- A judgement may name the run it is about. -/
theorem Post.with_run (h : Post U x s Q E) :
    Post U x s (fun a s' => Q a s' ∧ x.run s = (.ok a, s'))
      (fun s' => E s' ∧ x.run s = (.thrown, s')) := by
  unfold Post at h ⊢
  rcases hx : x.run s with ⟨_ | _ | _ | _, s'⟩ <;> rw [hx] at h
  · exact ⟨h, rfl⟩
  · exact ⟨h, rfl⟩
  · exact h
  · exact h

/-- A loop over one more item. -/
theorem run_forEach_append {l : List ι} {body : ι → Action σ Unit} {a : ι} {s s' : σ}
    (h : (forEach l body).run s = (.ok (), s')) :
    (forEach (l ++ [a]) body).run s = (body a).run s' := by
  induction l generalizing s with
  | nil =>
      rw [show s' = s from (congrArg Prod.snd h).symm]
      show (body a >>= fun _ => forEach [] body).run s = (body a).run s
      rw [run_bind]
      rcases (body a).run s with ⟨_ | _ | _ | _, r⟩ <;> rfl
  | cons b l ih =>
      have hcons : (body b >>= fun _ => forEach l body).run s = (.ok (), s') := h
      show (body b >>= fun _ => forEach (l ++ [a]) body).run s = (body a).run s'
      rw [run_bind] at hcons ⊢
      rcases hb : (body b).run s with ⟨_ | _ | _ | _, r⟩ <;> rw [hb] at hcons
      · exact ih hcons
      all_goals cases hcons

/-- The rule of loops, with the run of the loop over the items already done. -/
theorem Post.forEach_run {l : List ι} {body : ι → Action σ Unit} (I : List ι → σ → Prop)
    (h0 : I [] s)
    (hstep : ∀ (done : List ι) (a : ι) (rest : List ι) (s' : σ), l = done ++ a :: rest →
      (Action.forEach done body).run s = (.ok (), s') → I done s' →
      Post U (body a) s' (fun _ s'' => I (done ++ [a]) s'') E) :
    Post U (Action.forEach l body) s (fun _ s' => I l s') E := by
  refine (Post.forEach (fun done s' => I done s' ∧
    (Action.forEach done body).run s = (.ok (), s')) ⟨h0, rfl⟩ ?_).mono
    (fun _ _ h => h.1) (fun _ h => h) fun _ h => h
  rintro done a rest s' hl ⟨hI, hrun⟩
  refine (hstep done a rest s' hl hrun hI).with_run.mono ?_ (fun _ h => h.1) fun _ h => h
  rintro ⟨⟩ s'' ⟨hI', hbody⟩
  exact ⟨hI', by rw [run_forEach_append hrun, hbody]⟩

/-- What a judgement says about a run that is known to return. -/
theorem Post.ok_of_run {a : α} {s' : σ} (h : Post U x s Q E) (hx : x.run s = (.ok a, s')) :
    Q a s' := by
  unfold Post at h
  rwa [hx] at h

/-- What a judgement says about a run that is known to throw. -/
theorem Post.thrown_of_run {s' : σ} (h : Post U x s Q E) (hx : x.run s = (.thrown, s')) :
    E s' := by
  unfold Post at h
  rwa [hx] at h

/-- A call that cannot throw or get stuck returns. -/
theorem Post.returns (h : Post Stuck.never x s Q (fun _ => False)) :
    ∃ a s', x.run s = (.ok a, s') ∧ Q a s' := by
  unfold Post at h
  rcases hx : x.run s with ⟨_ | _ | _ | _, s'⟩ <;> rw [hx] at h
  · exact ⟨_, _, rfl, h⟩
  all_goals exact h.elim

/-- A call whose loops end does not run forever. -/
theorem Post.ends (h : Post Stuck.undefinedOnly x s Q E) : (x.run s).1 ≠ .diverged := by
  unfold Post at h
  rcases hx : x.run s with ⟨_ | _ | _ | _, s'⟩ <;> rw [hx] at h
  · exact fun heq => by cases heq
  · exact fun heq => by cases heq
  · cases h
  · exact fun heq => by cases heq

/-- A call that can neither end nor step outside the language runs forever. -/
theorem Post.diverges
    (h : Post (fun k => k = .diverged) x s (fun _ _ => False) (fun _ => False)) :
    (x.run s).1 = .diverged := by
  unfold Post at h
  rcases hx : x.run s with ⟨_ | _ | _ | _, s'⟩
  · rw [hx] at h
    exact h.elim
  · rw [hx] at h
    exact h.elim
  · rfl
  · rw [hx] at h
    cases h

/-- A call that can neither end nor run forever steps outside the language. -/
theorem Post.steps_outside
    (h : Post Stuck.undefinedOnly x s (fun _ _ => False) (fun _ => False)) :
    (x.run s).1 = .undefined := by
  unfold Post at h
  rcases hx : x.run s with ⟨_ | _ | _ | _, s'⟩
  · rw [hx] at h
    exact h.elim
  · rw [hx] at h
    exact h.elim
  · rw [hx] at h
    cases h
  · rfl

/-- A call that gets stuck only without `C`, and returns only with it, returns exactly with
it. -/
theorem Post.returns_iff {C : Prop}
    (h : Post (fun _ => ¬ C) x s (fun a s' => C ∧ Q a s') (fun _ => False)) :
    (∃ a s', x.run s = (.ok a, s') ∧ Q a s') ↔ C := by
  refine ⟨fun ⟨a, s', hx, _⟩ => (h.ok_of_run hx).1, fun hC => ?_⟩
  have hnever : Post Stuck.never x s (fun a s' => C ∧ Q a s') (fun _ => False) :=
    h.mono (fun _ _ h' => h') (fun _ h' => h') fun _ hstuck => hstuck hC
  obtain ⟨a, s', hx, -, hQ⟩ := hnever.returns
  exact ⟨a, s', hx, hQ⟩

/-- Nothing is asked of the call. -/
theorem Post.any (x : Action σ α) (s : σ) :
    Post Stuck.anyhow x s (fun _ _ => True) (fun _ => True) := by
  unfold Post
  rcases x.run s with ⟨_ | _ | _ | _, s'⟩ <;> trivial

/-! ## Invariants -/

/-- The call keeps `I`, however it ends. -/
def Keeps (I : σ → Prop) (x : Action σ α) : Prop := ∀ s, I s → I (x.run s).2

variable {I : σ → Prop}

theorem Keeps.pure (a : α) : Keeps I (Pure.pure a : Action σ α) := fun _ h => h

theorem Keeps.get : Keeps I (Action.get : Action σ σ) := fun _ h => h

theorem Keeps.throw : Keeps I (Action.throw : Action σ α) := fun _ h => h

theorem Keeps.undefined : Keeps I (Action.undefined : Action σ α) := fun _ h => h

theorem Keeps.diverge : Keeps I (Action.diverge : Action σ α) := fun _ h => h

theorem Keeps.modify {f : σ → σ} (h : ∀ s, I s → I (f s)) : Keeps I (Action.modify f) := h

theorem Keeps.bind {f : α → Action σ β} (hx : Keeps I x) (hf : ∀ a, Keeps I (f a)) :
    Keeps I (x >>= f) := by
  intro s hs
  have h := hx s hs
  rw [run_bind]
  rcases hr : x.run s with ⟨_ | _ | _ | _, s'⟩ <;> rw [hr] at h
  · exact hf _ _ h
  all_goals exact h

/-- What is known of the result of a call is known to the rest. -/
theorem Keeps.bind_post {f : α → Action σ β} {Q : α → σ → Prop} (hx : Keeps I x)
    (hQ : ∀ s, I s → Post Stuck.anyhow x s Q fun _ => True)
    (hf : ∀ a s, Q a s → I ((f a).run s).2) : Keeps I (x >>= f) := by
  intro s hs
  have h := hx s hs
  have hpost := hQ s hs
  unfold Post at hpost
  rw [run_bind]
  rcases hr : x.run s with ⟨_ | _ | _ | _, s'⟩ <;> rw [hr] at h hpost
  · exact hf _ _ hpost
  all_goals exact h

theorem Keeps.cleanup {handler : Action σ Unit} (hx : Keeps I x) (hh : Keeps I handler) :
    Keeps I (x.cleanup handler) := by
  intro s hs
  have h := hx s hs
  simp only [Action.cleanup]
  rcases hr : x.run s with ⟨_ | _ | _ | _, s'⟩ <;> rw [hr] at h
  · exact h
  · exact (Keeps.bind hh fun _ => Keeps.throw) s' h
  all_goals exact h

theorem Keeps.forEach {l : List ι} {body : ι → Action σ Unit} (h : ∀ a ∈ l, Keeps I (body a)) :
    Keeps I (Action.forEach l body) := by
  induction l with
  | nil => exact Keeps.pure ()
  | cons a l ih =>
      exact Keeps.bind (h a (by simp)) fun _ => ih fun b hb => h b (by simp [hb])

/-- A call that cannot get stuck ends where its ends are. -/
theorem Post.final (h : Post Stuck.never x s (fun _ s' => I s') I) : I (x.run s).2 := by
  unfold Post at h
  rcases hx : x.run s with ⟨_ | _ | _ | _, s'⟩ <;> rw [hx] at h
  · exact h
  · exact h
  · exact h.elim
  · exact h.elim

/-- A call that cannot get stuck and ends in the invariant keeps it. -/
theorem Keeps.of_post (h : ∀ s, I s → Post Stuck.never x s (fun _ s' => I s') I) : Keeps I x :=
  fun s hs => (h s hs).final

/-- What an invariant says about the ends of a call. -/
theorem Keeps.post (h : Keeps I x) (hs : I s) :
    Post Stuck.anyhow x s (fun _ s' => I s') I := by
  have h' := h s hs
  unfold Post
  rcases hx : x.run s with ⟨_ | _ | _ | _, s'⟩ <;> rw [hx] at h'
  · exact h'
  · exact h'
  · trivial
  · trivial

theorem Keeps.ite {c : Prop} [Decidable c] {y : Action σ α} (hx : Keeps I x) (hy : Keeps I y) :
    Keeps I (if c then x else y) := by
  split
  · exact hx
  · exact hy

end Action

end Effects

import Fum.Base.Outcome

/-!
# Programs with checks

A test driver calls a library and checks what it gets back: the first check that fails ends
the driver with the text of the failure. `Checked.Passes x s Q` says that from `s` every check
of `x` succeeds, no call on the way throws or gets stuck, and `x` returns into `Q`.
-/

set_option autoImplicit false

namespace Effects

/-- A program that calls actions and stops at the first check that fails. -/
abbrev Checked (σ α : Type) := ExceptT String (Action σ) α

namespace Checked

variable {σ α β ι : Type}

/-- A call of an action. -/
def call (x : Action σ α) : Checked σ α := ExceptT.lift x

/-- `check(condition, message)`. -/
def check (condition : Bool) (message : String) : Checked σ Unit :=
  if condition then pure () else throw message

/-- `for (a : l) body(a);`. -/
def forEach : List ι → (ι → Checked σ Unit) → Checked σ Unit
  | [], _ => pure ()
  | a :: l, body => do
      body a
      forEach l body

/-! ## What a passing program establishes -/

/-- Every check passes, and the program returns into `Q`. -/
def Passes (x : Checked σ α) (s : σ) (Q : α → σ → Prop) : Prop :=
  Action.Post Stuck.never (ExceptT.run x) s (fun r s' => ∃ a, r = .ok a ∧ Q a s') fun _ => False

variable {x : Checked σ α} {s : σ} {Q : α → σ → Prop} {Q' : β → σ → Prop}

theorem Passes.pure {a : α} (h : Q a s) : Passes (Pure.pure a) s Q :=
  Action.Post.pure ⟨a, rfl, h⟩

theorem Passes.bind {f : α → Checked σ β} (hx : Passes x s Q)
    (hf : ∀ a s', Q a s' → Passes (f a) s' Q') : Passes (x >>= f) s Q' := by
  refine Action.Post.bind hx (fun _ h => h) ?_
  rintro r s' ⟨a, rfl, hQ⟩
  exact hf a s' hQ

theorem Passes.mono {Q' : α → σ → Prop} (h : Passes x s Q) (hQ : ∀ a s', Q a s' → Q' a s') :
    Passes x s Q' :=
  Action.Post.mono h (fun _ s' ⟨a, hr, ha⟩ => ⟨a, hr, hQ a s' ha⟩) (fun _ h' => h') fun _ h' => h'

theorem Passes.call {y : Action σ α} (h : Action.Post Stuck.never y s Q fun _ => False) :
    Passes (call y) s Q := by
  refine Action.Post.bind h (fun _ h' => h') fun a s' hQ => ?_
  exact ⟨a, rfl, hQ⟩

theorem Passes.check {c : Bool} {message : String} {Q : Unit → σ → Prop} (hc : c = true)
    (h : Q () s) : Passes (check c message) s Q := by
  unfold Checked.check
  rw [if_pos hc]
  exact Passes.pure h

/-- A check that passes, then the rest. -/
theorem Passes.check_bind {c : Bool} {message : String} {f : Unit → Checked σ β} (hc : c = true)
    (hf : Passes (f ()) s Q') : Passes (Checked.check c message >>= f) s Q' :=
  (Passes.check (Q := fun _ s' => s' = s) hc rfl).bind fun _ _ h => h ▸ hf

/-- A program that is the last one. -/
theorem Passes.of_bind_pure (h : Passes (x >>= fun a => Pure.pure a) s Q) : Passes x s Q := by
  have hcont : (fun r : Except String α => (ExceptT.bindCont (fun a => Pure.pure a) r :
      Action σ (Except String α))) = fun r => Pure.pure r := by
    funext r
    cases r <;> rfl
  have h' : Action.Post Stuck.never (ExceptT.run x >>= fun r => ExceptT.bindCont
    (fun a => Pure.pure a) r) s (fun r s' => ∃ a, r = .ok a ∧ Q a s') fun _ => False := h
  rw [hcont] at h'
  exact Action.Post.of_bind_pure h'

/-- A loop whose body keeps `I`. -/
theorem Passes.forEach {l : List ι} {body : ι → Checked σ Unit} (I : σ → Prop) (hs : I s)
    (hbody : ∀ a ∈ l, ∀ s', I s' → Passes (body a) s' fun _ => I) :
    Passes (forEach l body) s fun _ => I := by
  induction l generalizing s with
  | nil => exact Passes.pure hs
  | cons a l ih =>
      refine Passes.bind (hbody a List.mem_cons_self s hs) fun _ s' hs' => ?_
      exact ih hs' fun b hb => hbody b (List.mem_cons_of_mem a hb)

theorem Passes.returns (h : Passes x s Q) :
    ∃ a s', (ExceptT.run x).run s = (.ok (.ok a), s') ∧ Q a s' := by
  obtain ⟨r, s', hrun, a, rfl, hQ⟩ := Action.Post.returns h
  exact ⟨a, s', hrun, hQ⟩

end Checked

end Effects

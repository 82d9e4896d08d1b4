import Mathlib.Tactic

/-!
# Inverting successful executions

`EStateM ε σ` is the monad of methods that may raise: the state reached so far
is kept when an error is raised. The lemmas below peel a successful execution of
a `do` block apart, one statement at a time, so that a proof about a method
never unfolds the monad.
-/

namespace Rma.Base

variable {ε σ α β : Type}

/-- The statement `if (c) raise e;`. -/
def raiseIf (c : Prop) [Decidable c] (e : ε) : EStateM ε σ Unit :=
  if c then throw e else pure ()

/-- The statement `if (c) { x; }`. -/
def runIf (c : Prop) [Decidable c] (x : EStateM ε σ Unit) : EStateM ε σ Unit :=
  if c then x else pure ()

/-- Run a method of a member object on the member itself. -/
def onMember {τ : Type} (getMember : σ → τ) (setMember : σ → τ → σ)
    (method : EStateM ε τ α) : EStateM ε σ α := fun s =>
  match method (getMember s) with
  | .ok a m => .ok a (setMember s m)
  | .error e m => .error e (setMember s m)

theorem bind_eq_ok {x : EStateM ε σ α} {f : α → EStateM ε σ β} {s t : σ} {b : β} :
    (x >>= f) s = .ok b t ↔ ∃ a m, x s = .ok a m ∧ f a m = .ok b t := by
  change EStateM.bind x f s = .ok b t ↔ _
  unfold EStateM.bind
  cases h : x s with
  | ok a m =>
      constructor
      · exact fun rest => ⟨a, m, rfl, rest⟩
      · rintro ⟨_, _, ⟨rfl, rfl⟩, rest⟩
        exact rest
  | error e m => simp

/-- A statement that raises ends the block. -/
theorem bind_of_error {x : EStateM ε σ α} {f : α → EStateM ε σ β} {s t : σ} {e : ε}
    (raised : x s = .error e t) : (x >>= f) s = .error e t := by
  change EStateM.bind x f s = _
  rw [EStateM.bind, raised]

theorem bind_of_ok {x : EStateM ε σ α} {f : α → EStateM ε σ β} {s t : σ} {a : α}
    (done : x s = .ok a t) : (x >>= f) s = f a t := by
  change EStateM.bind x f s = _
  rw [EStateM.bind, done]

theorem bind_get {f : σ → EStateM ε σ β} {s : σ} : (get >>= f) s = f s s := rfl

theorem pure_eq_ok {a b : α} {s t : σ} :
    (pure a : EStateM ε σ α) s = .ok b t ↔ a = b ∧ s = t := by
  change EStateM.Result.ok a s = .ok b t ↔ _
  simp

theorem get_eq_ok {s t a : σ} :
    (get : EStateM ε σ σ) s = .ok a t ↔ s = a ∧ s = t := by
  change EStateM.Result.ok s s = .ok a t ↔ _
  simp

theorem set_eq_ok {s s' t : σ} {u : PUnit} :
    (set s' : EStateM ε σ PUnit) s = .ok u t ↔ s' = t := by
  change EStateM.Result.ok PUnit.unit s' = .ok u t ↔ _
  simp

theorem modify_eq_ok {f : σ → σ} {s t : σ} {u : PUnit} :
    (modify f : EStateM ε σ PUnit) s = .ok u t ↔ f s = t := by
  change EStateM.Result.ok PUnit.unit (f s) = .ok u t ↔ _
  simp

theorem raiseIf_eq_ok {c : Prop} [Decidable c] {e : ε} {s t : σ} {u : Unit} :
    (raiseIf c e : EStateM ε σ Unit) s = .ok u t ↔ ¬c ∧ s = t := by
  unfold raiseIf
  by_cases h : c
  · rw [if_pos h]
    change EStateM.Result.error e s = .ok u t ↔ _
    simp [h]
  · rw [if_neg h, pure_eq_ok]
    simp [h]

theorem raiseIf_of_pos {c : Prop} [Decidable c] {e : ε} {s : σ} (holds : c) :
    (raiseIf c e : EStateM ε σ Unit) s = .error e s := by
  rw [raiseIf, if_pos holds]
  rfl

theorem raiseIf_of_neg {c : Prop} [Decidable c] {e : ε} {s : σ} (fails : ¬c) :
    (raiseIf c e : EStateM ε σ Unit) s = .ok () s := by
  rw [raiseIf, if_neg fails]
  rfl

theorem runIf_eq_ok {c : Prop} [Decidable c] {x : EStateM ε σ Unit} {s t : σ} {u : Unit} :
    (runIf c x) s = .ok u t ↔ (c ∧ x s = .ok u t) ∨ (¬c ∧ s = t) := by
  unfold runIf
  by_cases h : c
  · simp [h]
  · rw [if_neg h, pure_eq_ok]
    simp [h]

theorem onMember_eq_ok {τ : Type} {getMember : σ → τ} {setMember : σ → τ → σ}
    {method : EStateM ε τ α} {s t : σ} {a : α} :
    onMember getMember setMember method s = .ok a t ↔
      ∃ m, method (getMember s) = .ok a m ∧ setMember s m = t := by
  unfold onMember
  cases h : method (getMember s) with
  | ok b m =>
      simp only [EStateM.Result.ok.injEq]
      constructor
      · rintro ⟨rfl, rfl⟩
        exact ⟨m, ⟨rfl, rfl⟩, rfl⟩
      · rintro ⟨_, ⟨rfl, rfl⟩, rfl⟩
        exact ⟨rfl, rfl⟩
  | error e m => simp

end Rma.Base

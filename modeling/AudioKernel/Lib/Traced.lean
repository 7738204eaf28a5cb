import Mathlib.Tactic.SplitIfs

/-! Computations that record events as they go and that may stop. What has been recorded up to there is kept. -/
namespace AudioKernel.Lib

structure Traced (τ ε α : Type) where
  events : List τ
  result : Except ε α

namespace Traced

variable {τ ε α β : Type} {P : τ → Prop}

/-- `f` runs if `x` has not stopped. -/
def andThen (x : Traced τ ε α) (f : α → Traced τ ε β) : Traced τ ε β :=
  match x.result with
  | .ok a => ⟨x.events ++ (f a).events, (f a).result⟩
  | .error e => ⟨x.events, .error e⟩

instance : Monad (Traced τ ε) where
  pure a := ⟨[], .ok a⟩
  bind := andThen

def note (t : τ) : Traced τ ε Unit := ⟨[t], .ok ()⟩

def lift (r : Except ε α) : Traced τ ε α := ⟨[], r⟩

def All (P : τ → Prop) (x : Traced τ ε α) : Prop := ∀ t ∈ x.events, P t

@[simp] theorem result_pure (a : α) : (pure a : Traced τ ε α).result = .ok a := rfl

@[simp] theorem result_note (t : τ) : (note t : Traced τ ε Unit).result = .ok () := rfl

@[simp] theorem result_lift (r : Except ε α) : (lift r : Traced τ ε α).result = r := rfl

@[simp] theorem result_bind (x : Traced τ ε α) (f : α → Traced τ ε β) :
    (x >>= f).result = x.result.bind fun a => (f a).result := by
  show (x.andThen f).result = _
  unfold andThen
  cases x.result <;> rfl

theorem ok_bind (a : α) (f : α → Traced τ ε β) : (lift (.ok a) >>= f) = f a := rfl

theorem error_bind (e : ε) (f : α → Traced τ ε β) : (lift (.error e) >>= f) = lift (.error e) := rfl

@[simp] theorem result_ite {b : Prop} [Decidable b] {x y : Traced τ ε α} :
    (if b then x else y).result = if b then x.result else y.result := by
  split_ifs <;> rfl

@[simp] theorem all_pure (a : α) : All P (pure a : Traced τ ε α) := by
  simp [All, pure]

@[simp] theorem all_note (t : τ) : All P (note t : Traced τ ε Unit) ↔ P t := by
  simp [All, note]

@[simp] theorem all_lift (r : Except ε α) : All P (lift r : Traced τ ε α) := by
  simp [All, lift]

/-- The events of a sequence are those of its parts, as far as it gets. -/
@[simp] theorem all_bind (x : Traced τ ε α) (f : α → Traced τ ε β) :
    All P (x >>= f) ↔ All P x ∧ ∀ a, x.result = .ok a → All P (f a) := by
  show All P (x.andThen f) ↔ _
  unfold andThen
  cases hx : x.result with
  | error e => simp [All]
  | ok a => simp [All, or_imp, forall_and]

/-- A sequence goes on behind its first part. -/
theorem bind_of_ok {x : Traced τ ε α} {a : α} (h : x.result = .ok a) (f : α → Traced τ ε β) :
    (x >>= f) = ⟨x.events ++ (f a).events, (f a).result⟩ := by
  show x.andThen f = _
  rw [andThen, h]

theorem bind_of_error {x : Traced τ ε α} {e : ε} (h : x.result = .error e) (f : α → Traced τ ε β) :
    (x >>= f) = ⟨x.events, .error e⟩ := by
  show x.andThen f = _
  rw [andThen, h]

theorem result_of_ok {x : Traced τ ε α} {a : α} (h : x.result = .ok a) (f : α → Traced τ ε β) :
    (x >>= f).result = (f a).result := by
  rw [result_bind, h]
  rfl

theorem result_of_error {x : Traced τ ε α} {e : ε} (h : x.result = .error e) (f : α → Traced τ ε β) :
    (x >>= f).result = .error e := by
  rw [result_bind, h]
  rfl

theorem all_of_ok {x : Traced τ ε α} {a : α} (h : x.result = .ok a) (f : α → Traced τ ε β) :
    All P (x >>= f) ↔ All P x ∧ All P (f a) := by
  rw [all_bind, h]
  simp

theorem all_of_error {x : Traced τ ε α} {e : ε} (h : x.result = .error e) (f : α → Traced τ ε β) :
    All P (x >>= f) ↔ All P x := by
  rw [all_bind, h]
  simp

@[simp] theorem all_ite {b : Prop} [Decidable b] {x y : Traced τ ε α} :
    All P (if b then x else y) ↔ (b → All P x) ∧ (¬ b → All P y) := by
  split_ifs with h <;> simp [h]

end Traced
end AudioKernel.Lib

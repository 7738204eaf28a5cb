import Mathlib.Init

/-! What a kernel routine does when it does not return. -/
namespace AudioKernel

/-- `Debug::panic` stops the processor with a message. A loop or a wait may also never end, and a call
through a null pointer goes on wherever the words at its address lead. -/
inductive Stop
  | panic (msg : String)
  | diverge
  | wild
  deriving DecidableEq, Repr

theorem ok_bind {α β : Type} (a : α) (f : α → Except Stop β) : (Except.ok a >>= f) = f a := rfl

theorem error_bind {α β : Type} (e : Stop) (f : α → Except Stop β) : (Except.error e >>= f) = .error e := rfl

/-- A routine that returns has come through its first part. -/
theorem bind_eq_ok {α β : Type} {x : Except Stop α} {f : α → Except Stop β} {b : β} (h : (x >>= f) = .ok b) :
    ∃ a, x = .ok a ∧ f a = .ok b := by
  cases x with
  | error e => cases h
  | ok a => exact ⟨a, rfl, h⟩

theorem bind_ne_diverge {α β : Type} {x : Except Stop α} {f : α → Except Stop β} (hx : x ≠ .error .diverge)
    (hf : ∀ a, x = .ok a → f a ≠ .error .diverge) : (x >>= f) ≠ .error .diverge := by
  cases x with
  | error e => exact fun h => hx (congrArg Except.error (Except.error.inj h))
  | ok a => exact hf a rfl

end AudioKernel

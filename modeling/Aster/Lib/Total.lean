import Mathlib.Logic.Basic

/-!
# Computations that succeed

A computation that can fail, as a caller sees it that relies on its success: `x` returns a result,
and the result satisfies `Q`.  The rules follow the way the computation is put together.
-/

namespace Aster.Lib

variable {ε α β : Type}

/-- The computation returns, with a result that satisfies `Q`. -/
def Yields (x : Except ε α) (Q : α → Prop) : Prop := ∃ a, x = .ok a ∧ Q a

namespace Yields

variable {x : Except ε α} {f : α → Except ε β} {Q : α → Prop} {R : β → Prop}

theorem pure {a : α} (h : Q a) : Yields (pure a : Except ε α) Q := ⟨a, rfl, h⟩

theorem bind (hx : Yields x Q) (hf : ∀ a, Q a → Yields (f a) R) : Yields (x >>= f) R := by
  obtain ⟨a, rfl, hQ⟩ := hx
  exact hf a hQ

end Yields

end Aster.Lib

import Mathlib.Tactic.SplitIfs

/-! Arithmetic of the type `int`, which must not overflow. -/

namespace MicroOS.Ints

/-- The values of the type `int`. -/
def Fits (x : Int) : Prop := -2147483648 ≤ x ∧ x < 2147483648

instance (x : Int) : Decidable (Fits x) := inferInstanceAs (Decidable (_ ∧ _))

/-- The result of an operation on `int`; there is none when it overflows. -/
def int (x : Int) : Option Int := if Fits x then some x else none

theorem int_fits {x : Int} (fits : Fits x) : int x = some x := if_pos fits

theorem int_some {x y : Int} : int x = some y ↔ Fits x ∧ x = y := by
  unfold int
  split_ifs with fits <;> simp [fits]

end MicroOS.Ints

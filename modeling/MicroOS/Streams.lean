import Mathlib.Logic.Function.Basic
import Mathlib.Data.List.Basic

/-! Streams of events for several components, and what is said of every event by those in front of it. -/

namespace MicroOS.Streams

section
variable {ι α : Type} [DecidableEq ι]

/-- The events of one component. -/
def own (i : ι) (stream : List (ι × α)) : List α := (stream.filter (·.1 = i)).map (·.2)

@[simp] theorem own_nil (i : ι) : own i ([] : List (ι × α)) = [] := rfl

theorem own_snoc_self (i : ι) (front : List (ι × α)) (a : α) : own i (front ++ [(i,a)]) = own i front ++ [a] := by
  simp [own]

theorem own_snoc_other {i j : ι} (other : j ≠ i) (front : List (ι × α)) (a : α) : own i (front ++ [(j,a)]) = own i front := by
  simp [own,other]

end

/-- Something about every element of a list with those before and those behind it. -/
theorem forall_splits_cons {α : Type} {a : α} {l : List α} {P : List α → α → List α → Prop} :
    (∀ before x behind, a :: l = before ++ x :: behind → P before x behind) ↔
      P [] a l ∧ ∀ before x behind, l = before ++ x :: behind → P (a :: before) x behind := by
  constructor
  · intro all
    exact ⟨all [] a l rfl,fun before x behind split => all (a :: before) x behind (by rw [split]; rfl)⟩
  · rintro ⟨first,later⟩ before x behind split
    cases before with
    | nil =>
      obtain ⟨rfl,rfl⟩ := List.cons.inj split
      exact first
    | cons b before =>
      obtain ⟨rfl,split'⟩ := List.cons.inj split
      exact later before x behind split'

end MicroOS.Streams

import Mathlib.Tactic

/-! Computations that may fail, one of whose failures must not happen. -/

namespace MicroOS.Outcomes

section
variable {ε α β : Type} {bad : ε} {P : α → Prop} {Q : β → Prop}

theorem ok_bind (a : α) (next : α → Except ε β) : (Except.ok a >>= next) = next a := rfl

theorem error_bind (e : ε) (next : α → Except ε β) : (Except.error e >>= next) = .error e := rfl

/-- The computation does not fail in that way, and its result has a property. -/
structure Safe (bad : ε) (P : α → Prop) (r : Except ε α) : Prop where
  fails : r ≠ .error bad
  result : ∀ a, r = .ok a → P a

theorem safe_ok {a : α} (holds : P a) : Safe bad P (.ok a) where
  fails same := by cases same
  result _ same := Except.ok.inj same ▸ holds

theorem safe_error {e : ε} (other : e ≠ bad) : Safe bad P (.error e : Except ε α) :=
  ⟨fun same => other (Except.error.inj same),fun _ same => by cases same⟩

/-- What comes first does not fail in that way, nor does what follows its result. -/
theorem safe_bind {r : Except ε α} {next : α → Except ε β} (first : Safe bad P r) (rest : ∀ a, P a → Safe bad Q (next a)) :
    Safe bad Q (r >>= next) := by
  cases r with
  | ok a => exact rest a (first.result a rfl)
  | error e => exact safe_error fun same => first.fails (congrArg _ same)

theorem safe_mono {r : Except ε α} {P' : α → Prop} (safe : Safe bad P r) (weaker : ∀ a, P a → P' a) : Safe bad P' r :=
  ⟨safe.fails,fun a same => weaker a (safe.result a same)⟩

theorem safe_if {c : Prop} [Decidable c] {yes no : Except ε α} (first : c → Safe bad P yes) (second : ¬c → Safe bad P no) :
    Safe bad P (if c then yes else no) := by
  split_ifs with holds
  · exact first holds
  · exact second holds

end

end MicroOS.Outcomes

import Mathlib.Tactic

/-!
A pool of `n` places is searched from a place on, behind the last one from the first one on again, and the next search begins
behind the place that was found. A search that comes to all places finds one that will do if there is one, and the place where
the search before ended only if no other will do.
-/
namespace MicroOS.CyclicSearch
variable {n : Nat} [NeZero n]

/-- The place at which a search begins or goes on. -/
def slot (n : Nat) [NeZero n] (next : Nat) : Fin n := if inside : next < n then ⟨next,inside⟩ else 0

/-- Looks at so many places. -/
def search (free : Fin n → Bool) : Nat → Nat → Option (Fin n) × Nat
  | 0,next => (none,next)
  | attempts + 1,next =>
    if free (slot n next) then (some (slot n next),(slot n next).val + 1)
    else search free attempts ((slot n next).val + 1)

/-- How far a place is behind the one where a search begins. -/
def distance (next : Nat) (i : Fin n) : Nat :=
  if (slot n next).val ≤ i.val then i.val - (slot n next).val else i.val + n - (slot n next).val

theorem slot_succ (i : Fin n) : (slot n (i.val + 1)).val = if i.val + 1 < n then i.val + 1 else 0 := by
  unfold slot
  split <;> rfl

theorem distance_lt (next : Nat) (i : Fin n) : distance next i < n := by
  have small := i.isLt
  have start := (slot n next).isLt
  unfold distance
  split <;> omega

theorem distance_zero {next : Nat} {i : Fin n} : distance next i = 0 ↔ i = slot n next := by
  have small := i.isLt
  have start := (slot n next).isLt
  rw [distance,Fin.ext_iff]
  split <;> omega

theorem distance_injective {next : Nat} {i j : Fin n} (same : distance next i = distance next j) : i = j := by
  have a := i.isLt
  have b := j.isLt
  have c := (slot n next).isLt
  unfold distance at same
  apply Fin.ext
  split at same <;> split at same <;> omega

/-- Behind the first place the search goes on with the next one; the first comes last then. -/
theorem distance_next (next : Nat) (i : Fin n) :
    distance next i = distance ((slot n next).val + 1) i + 1 ∨
      distance next i = 0 ∧ distance ((slot n next).val + 1) i + 1 = n := by
  have small := i.isLt
  have start := (slot n next).isLt
  rw [distance,distance,slot_succ]
  split <;> split <;> split <;> omega

/-- The place behind which a search begins comes last. -/
theorem distance_last (i : Fin n) : distance (i.val + 1) i + 1 = n := by
  have small := i.isLt
  rw [distance,slot_succ]
  split <;> split <;> omega

/-- The search finds the first place that will do, or none of those it comes to will. -/
theorem search_spec (free : Fin n → Bool) (attempts next : Nat) (bound : attempts ≤ n) :
    (∃ i : Fin n, search free attempts next = (some i,i.val + 1) ∧ free i = true ∧ distance next i < attempts ∧
      ∀ j : Fin n, distance next j < distance next i → free j = false) ∨
    ∃ next', search free attempts next = (none,next') ∧ ∀ j : Fin n, distance next j < attempts → free j = false := by
  induction attempts generalizing next with
  | zero => exact .inr ⟨next,rfl,fun j less => absurd less (Nat.not_lt_zero _)⟩
  | succ attempts ih =>
    have here : distance next (slot n next) = 0 := distance_zero.2 rfl
    rw [search]
    cases found : free (slot n next) with
    | true => exact .inl ⟨_,if_pos rfl,found,by omega,fun j less => by omega⟩
    | false =>
      rw [if_neg Bool.false_ne_true]
      rcases ih ((slot n next).val + 1) (by omega) with ⟨i,later,free_i,near,first⟩ | ⟨next',later,all⟩
      · have moved := (distance_next next i).resolve_right fun both => by omega
        refine .inl ⟨i,later,free_i,by omega,fun j less => ?_⟩
        rcases distance_next next j with moved' | ⟨zero,_⟩
        · exact first j (by omega)
        · rwa [distance_zero.1 zero]
      · refine .inr ⟨next',later,fun j less => ?_⟩
        rcases distance_next next j with moved' | ⟨zero,_⟩
        · exact all j (by omega)
        · rwa [distance_zero.1 zero]

/-- A search of the whole pool: the place that was found will do, and when it is the last one no other does. -/
theorem search_all (free : Fin n → Bool) (next : Nat) :
    (∃ i : Fin n, search free n next = (some i,i.val + 1) ∧ free i = true ∧
      (distance next i + 1 = n → ∀ j ≠ i, free j = false)) ∨
    ∃ next', search free n next = (none,next') ∧ ∀ j, free j = false := by
  rcases search_spec free n next le_rfl with ⟨i,found,free_i,_,first⟩ | ⟨next',found,all⟩
  · refine .inl ⟨i,found,free_i,fun last j other => first j ?_⟩
    have small := distance_lt next j
    have different : distance next j ≠ distance next i := fun same => other (distance_injective same)
    omega
  · exact .inr ⟨next',found,fun j => all j (distance_lt next j)⟩

/-- A search that begins behind a place finds another one, unless no other will do. -/
theorem search_behind (free : Fin n → Bool) (i : Fin n) :
    (∃ j : Fin n, search free n (i.val + 1) = (some j,j.val + 1) ∧ free j = true ∧ (j = i → ∀ k ≠ i, free k = false)) ∨
    ∃ next', search free n (i.val + 1) = (none,next') ∧ ∀ j, free j = false := by
  rcases search_all free (i.val + 1) with ⟨j,found,free_j,last⟩ | none
  · exact .inl ⟨j,found,free_j,fun same => by rw [← same]; exact last (same ▸ distance_last i)⟩
  · exact .inr none

end MicroOS.CyclicSearch

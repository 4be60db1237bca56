import Mathlib.Tactic

/-!
Who holds what. Every live item has one holder, and only live items are held: no item is
lost, and none is given back twice (`Held`). An item comes to life with a holder, changes
its holder, or goes with all that held it.
-/
namespace MicroOS.Holders
universe u v

section
variable {Holder : Type u} {Item : Type v}

structure Held (holds : Holder → Item → Prop) (live : Item → Prop) : Prop where
  live : ∀ x, live x ↔ ∃ h, holds h x
  alone : ∀ h h' x, holds h x → holds h' x → h = h'

variable {holds holds' : Holder → Item → Prop} {live live' : Item → Prop} {x : Item} {h h' : Holder}

section
variable (held : Held holds live)
include held

theorem held_same (same : ∀ h x, holds' h x ↔ holds h x) (alive : ∀ x, live' x ↔ live x) : Held holds' live' where
  live x := (alive x).trans ((held.live x).trans (exists_congr fun h => (same h x).symm))
  alone h h' x first second := held.alone h h' x ((same h x).1 first) ((same h' x).1 second)

theorem held_holder (holder : holds h x) : live x := (held.live x).2 ⟨h,holder⟩

/-- A new item with its holder. -/
theorem held_new (fresh : ¬ live x)
    (same : ∀ g y, holds' g y ↔ holds g y ∨ g = h ∧ y = x) (alive : ∀ y, live' y ↔ live y ∨ y = x) :
    Held holds' live' := by
  have unheld (g : Holder) : ¬ holds g x := fun holder => fresh (held_holder held holder)
  constructor
  · intro y
    rw [alive]
    constructor
    · rintro (before | rfl)
      · obtain ⟨g,holder⟩ := (held.live y).1 before
        exact ⟨g,(same g y).2 (.inl holder)⟩
      · exact ⟨h,(same h y).2 (.inr ⟨rfl,rfl⟩)⟩
    · rintro ⟨g,holder⟩
      rcases (same g y).1 holder with before | ⟨-,new⟩
      · exact .inl (held_holder held before)
      · exact .inr new
  · intro g g' y first second
    rcases (same g y).1 first with first | ⟨rfl,rfl⟩
    · rcases (same g' y).1 second with second | ⟨rfl,rfl⟩
      · exact held.alone g g' y first second
      · exact absurd first (unheld g)
    · rcases (same g' y).1 second with second | ⟨rfl,-⟩
      · exact absurd second (unheld g')
      · rfl

/-- An item goes, and nobody holds it any more. -/
theorem held_gone (same : ∀ g y, holds' g y ↔ holds g y ∧ y ≠ x)
    (alive : ∀ y, live' y ↔ live y ∧ y ≠ x) : Held holds' live' := by
  constructor
  · intro y
    rw [alive]
    constructor
    · rintro ⟨before,other⟩
      obtain ⟨g,holder⟩ := (held.live y).1 before
      exact ⟨g,(same g y).2 ⟨holder,other⟩⟩
    · rintro ⟨g,holder⟩
      obtain ⟨holder,other⟩ := (same g y).1 holder
      exact ⟨held_holder held holder,other⟩
  · intro g g' y first second
    exact held.alone g g' y ((same g y).1 first).1 ((same g' y).1 second).1

/-- An item gets another holder. -/
theorem held_moved (holder : holds h x)
    (same : ∀ g y, holds' g y ↔ holds g y ∧ y ≠ x ∨ g = h' ∧ y = x) : Held holds' live := by
  constructor
  · intro y
    constructor
    · intro before
      by_cases this : y = x
      · exact ⟨h',(same h' y).2 (.inr ⟨rfl,this⟩)⟩
      · obtain ⟨g,holder⟩ := (held.live y).1 before
        exact ⟨g,(same g y).2 (.inl ⟨holder,this⟩)⟩
    · rintro ⟨g,holder'⟩
      rcases (same g y).1 holder' with ⟨before,-⟩ | ⟨-,rfl⟩
      · exact held_holder held before
      · exact held_holder held holder
  · intro g g' y first second
    rcases (same g y).1 first with ⟨first,other⟩ | ⟨rfl,this⟩
    · rcases (same g' y).1 second with ⟨second,-⟩ | ⟨-,this⟩
      · exact held.alone g g' y first second
      · exact absurd this other
    · rcases (same g' y).1 second with ⟨-,other⟩ | ⟨rfl,-⟩
      · exact absurd this other
      · rfl

end

end
end MicroOS.Holders

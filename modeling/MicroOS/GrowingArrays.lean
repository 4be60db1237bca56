import Mathlib.Tactic

/-! The growing arrays of the library (`array.c`). A result is none when a block is used that is freed. -/

namespace MicroOS.GrowingArrays
variable {α : Type}

/-- The header of an array and the elements behind it; its length is their number. -/
structure Block (α : Type) where
  capacity : Nat
  elements : List α

/-- The blocks in the order they were allocated; there is none left where one is freed. -/
abbrev Memory (α : Type) := List (Option (Block α))

def array_create (heap : Memory α) (initial_capacity : Nat) : Nat × Memory α :=
  (heap.length,heap ++ [some ⟨initial_capacity,[]⟩])

def block (heap : Memory α) (arr : Nat) : Option (Block α) := heap[arr]?.join

/-- The doubled block does not fit the place of the old one, so that `realloc` moves it. -/
def array_grow (heap : Memory α) (arr : Nat) : Option (Nat × Memory α) := do
  let header ← block heap arr
  pure (heap.length,heap.set arr none ++ [some {header with capacity := header.capacity * 2}])

def array_push (heap : Memory α) (arr : Nat) (element : α) : Option (Nat × Memory α) := do
  let header ← block heap arr
  let (arr,heap) ← (if header.elements.length ≥ header.capacity then array_grow heap arr else some (arr,heap) : Option _)
  let header ← block heap arr
  if header.elements.length < header.capacity then
    pure (arr,heap.set arr (some {header with elements := header.elements ++ [element]}))
  else none

def array_length (heap : Memory α) (arr : Nat) : Option Nat := (block heap arr).map (·.elements.length)

section
variable {heap : Memory α} {arr : Nat}

theorem block_lt {header : Block α} (held : block heap arr = some header) : arr < heap.length := by
  by_contra beyond
  simp [block,List.getElem?_eq_none (Nat.le_of_not_lt beyond)] at held

theorem block_set (inside : arr < heap.length) (header : Option (Block α)) : block (heap.set arr header) arr = header := by
  simp [block,inside]

theorem push_freed (freed : block heap arr = none) (element : α) : array_push heap arr element = none := by
  simp [array_push,freed]

section
variable {header : Block α} (held : block heap arr = some header)
include held

/-- An array that is not full keeps its place. -/
theorem push_room (room : header.elements.length < header.capacity)
    (element : α) : ∃ heap', array_push heap arr element = some (arr,heap') ∧
      block heap' arr = some ⟨header.capacity,header.elements ++ [element]⟩ := by
  refine ⟨_,?_,block_set (block_lt held) _⟩
  simp [array_push,held,Nat.not_le.mpr room,room]

theorem grow_moves : ∃ heap',
    array_grow heap arr = some (heap.length,heap') ∧ block heap' arr = none ∧ heap.length < heap'.length ∧
      block heap' heap.length = some ⟨header.capacity * 2,header.elements⟩ := by
  have inside := block_lt held
  have old : block (heap.set arr none ++ [some {header with capacity := header.capacity * 2}]) arr = none := by
    rw [block,List.getElem?_append_left (by simpa using inside)]
    simp [inside]
  have new : block (heap.set arr none ++ [some {header with capacity := header.capacity * 2}]) heap.length =
      some {header with capacity := header.capacity * 2} := by
    simp [block]
  exact ⟨_,by rw [array_grow,held]; rfl,old,by simp,new⟩

/-- One that is full moves, and its old block is freed. -/
theorem push_full (full : header.elements.length = header.capacity)
    (some_capacity : 0 < header.capacity) (element : α) :
    ∃ heap', array_push heap arr element = some (heap.length,heap') ∧ block heap' arr = none ∧
      block heap' heap.length = some ⟨header.capacity * 2,header.elements ++ [element]⟩ := by
  obtain ⟨heap',grown,old,longer,new⟩ := grow_moves held
  have larger : header.elements.length < header.capacity * 2 := by omega
  refine ⟨heap'.set heap.length (some ⟨header.capacity * 2,header.elements ++ [element]⟩),?_,?_,block_set longer _⟩
  · simp only [array_push,held,Option.bind_eq_bind,Option.bind_some,if_pos full.ge,grown,new,if_pos larger]
    rfl
  · rw [block,List.getElem?_set_ne (block_lt held).ne',← block,old]

end

end

end MicroOS.GrowingArrays

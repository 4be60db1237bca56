import MicroOS.Heap

/-!
The functions on segment headers that the kernel and the C library both have, for a
header of any size: the length, the next and the previous header are its first three
words and the flag is its last one.
-/
namespace MicroOS.Segments
open Memory Heap

/-- The size of a segment header, and what the lengths of all segments are multiples of. -/
structure Header where
  size : Nat
  unit : Nat
  large : 16 ≤ size
  word : 4 ∣ unit
  aligned : unit ∣ size

section
variable (h : Header)

def free (s : HeapState) (seg : Nat) : Bool := s.mem (seg + (h.size - 4)) != 0

def setFree (s : HeapState) (seg : Nat) (b : Bool) : HeapState :=
  { s with mem := storeByte s.mem (seg + (h.size - 4)) (if b then 1 else 0) }

def combine_forward (s : HeapState) (this : Nat) : HeapState :=
  if s.next this = 0 then s
  else if !free h s (s.next this) then s
  else
    let s := if s.next this = s.last_hdr then { s with last_hdr := this } else s
    let s := if s.next (s.next this) ≠ 0 then s.setLast (s.next (s.next this)) this else s
    let s := s.setLength this (wrap (s.length this + s.length (s.next this) + h.size))
    s.setNext this (s.next (s.next this))

def combine_backward (s : HeapState) (this : Nat) : HeapState :=
  if s.last this ≠ 0 && free h s (s.last this) then combine_forward h s (s.last this) else s

def divide (s : HeapState) (this split_length : Nat) : HeapState × Nat :=
  if split_length < 0x10 then (s,0)
  else if s.length this < wrap (split_length + h.size + 0x10) then (s,0)
  else
    let split_seg_length := s.length this - split_length - h.size
    let new_split_hdr := wrap (this + split_length + h.size)
    let s := if s.next this ≠ 0 then s.setLast (s.next this) new_split_hdr else s
    let s := s.setNext new_split_hdr (s.next this)
    let s := s.setNext this new_split_hdr
    let s := s.setLast new_split_hdr this
    let s := s.setLength new_split_hdr split_seg_length
    let s := setFree h s new_split_hdr (free h s this)
    let s := s.setLength this split_length
    let s := if s.last_hdr = this then { s with last_hdr := new_split_hdr } else s
    (s,new_split_hdr)

/-- The only segment of a new heap. -/
def new_heap (mem : Bytes) (heap_start page_count : Nat) : HeapState :=
  let heap_length := page_count * 0x1000
  let s : HeapState := { mem := mem, heap_start := heap_start, heap_end := heap_start + heap_length, last_hdr := 0 }
  let s := s.setLength heap_start (heap_length - h.size)
  let s := s.setNext heap_start 0
  let s := s.setLast heap_start 0
  let s := setFree h s heap_start true
  { s with last_hdr := heap_start }

def canary_at (s : HeapState) (seg : Nat) : Nat := wrap (seg + h.size + s.length seg - 4)

def check_canaries (s : HeapState) : Nat → Nat → Except Panic Unit
  | 0, _ => .error .endless
  | fuel + 1, current_seg =>
    if !free h s current_seg && load32 s.mem (canary_at h s current_seg) != HEAP_CANARY_VALUE then
      .error (.canary current_seg)
    else if s.next current_seg = 0 then .ok ()
    else check_canaries s fuel (s.next current_seg)

/-- Hands a segment out; `note` is what is written to the rest of its header. -/
def prepare (note : Bytes → Nat → Bytes) (s : HeapState) (segment : Nat) : HeapState × Nat :=
  let s := setFree h { s with mem := note s.mem segment } segment false
  ({ s with mem := store32 s.mem (canary_at h s segment) HEAP_CANARY_VALUE },wrap (segment + h.size))

/-- The first-fit search; none if no free segment is large enough. -/
def search (note : Bytes → Nat → Bytes) (s : HeapState) (size : Nat) : Nat → Nat → Except Panic (Option (HeapState × Nat))
  | 0, _ => .error .endless
  | fuel + 1, current_seg =>
    if free h s current_seg && size < s.length current_seg then
      .ok (some (prepare h note (divide h s current_seg size).1 current_seg))
    else if free h s current_seg && s.length current_seg = size then .ok (some (prepare h note s current_seg))
    else if s.next current_seg = 0 then .ok none
    else search note s size fuel (s.next current_seg)

/-- The size with its canary, rounded up to a multiple of a unit. -/
def rounded_up (unit size : Nat) : Nat :=
  let size := wrap (size + 4)
  if size % unit > 0 then wrap (size - size % unit + unit) else size

/-- The block in front of an address is freed. -/
def give_back (s : HeapState) (address : Nat) : Except Panic HeapState := do
  check_canaries h s s.walk s.heap_start
  let segment := wrap (address + 2 ^ 32 - h.size)
  let s := setFree h s segment true
  let s := combine_forward h s segment
  return combine_backward h s segment

end
end MicroOS.Segments

import MicroOS.Memory

/-!
The kernel heap: `hsh_combine_forward`, `hsh_combine_backward` and `hsh_split` on
segment headers in memory, and `kmalloc`, `krealloc` and `kfree` over them, with
heap canaries. A header takes 16 bytes: the length, the addresses of the next and
the previous header, and a flag byte padded to a word.
-/
namespace MicroOS.Heap
open Memory

/-- The heap's globals and the memory they point into. -/
structure HeapState where
  mem : Bytes
  heap_start : Nat
  heap_end : Nat
  last_hdr : Nat

namespace HeapState

def length (s : HeapState) (seg : Nat) : Nat := load32 s.mem seg
def next (s : HeapState) (seg : Nat) : Nat := load32 s.mem (seg + 4)
def last (s : HeapState) (seg : Nat) : Nat := load32 s.mem (seg + 8)
def free (s : HeapState) (seg : Nat) : Bool := s.mem (seg + 12) != 0

def setLength (s : HeapState) (seg v : Nat) : HeapState := { s with mem := store32 s.mem seg v }
def setNext (s : HeapState) (seg v : Nat) : HeapState := { s with mem := store32 s.mem (seg + 4) v }
def setLast (s : HeapState) (seg v : Nat) : HeapState := { s with mem := store32 s.mem (seg + 8) v }
def setFree (s : HeapState) (seg : Nat) (b : Bool) : HeapState :=
  { s with mem := storeByte s.mem (seg + 12) (if b then 1 else 0) }

/-- More headers than this do not fit into the address space; the loops over the
    segments stop after that many. -/
def walk (_ : HeapState) : Nat := 0x10000000

end HeapState

/-- Why a call does not return: the two `abortf` calls, or a loop over a list of
    segments that has no end. -/
inductive Panic where
  | heap_full (size : Nat)
  | canary (segment : Nat)
  | endless
  deriving DecidableEq, Repr

def HEAP_CANARY_VALUE : Nat := 0xDEADBEEF

def hsh_combine_forward (s : HeapState) (this : Nat) : HeapState :=
  if s.next this = 0 then s
  else if !s.free (s.next this) then s
  else
    let s := if s.next this = s.last_hdr then { s with last_hdr := this } else s
    let s := if s.next (s.next this) ≠ 0 then s.setLast (s.next (s.next this)) this else s
    let s := s.setLength this (wrap (s.length this + s.length (s.next this) + 16))
    s.setNext this (s.next (s.next this))

def hsh_combine_backward (s : HeapState) (this : Nat) : HeapState :=
  if s.last this ≠ 0 && s.free (s.last this) then hsh_combine_forward s (s.last this) else s

/-- The heap after the split and the new header, NULL where nothing was split. -/
def hsh_split (s : HeapState) (this split_length : Nat) : HeapState × Nat :=
  if split_length < 0x10 then (s,0)
  else if s.length this < wrap (split_length + 16 + 0x10) then (s,0)
  else
    let split_seg_length := s.length this - split_length - 16
    let new_split_hdr := wrap (this + split_length + 16)
    let s := if s.next this ≠ 0 then s.setLast (s.next this) new_split_hdr else s
    let s := s.setNext new_split_hdr (s.next this)
    let s := s.setNext this new_split_hdr
    let s := s.setLast new_split_hdr this
    let s := s.setLength new_split_hdr split_seg_length
    let s := s.setFree new_split_hdr (s.free this)
    let s := s.setLength this split_length
    let s := if s.last_hdr = this then { s with last_hdr := new_split_hdr } else s
    (s,new_split_hdr)

/-- `heap_start` is what `vmm_alloc` returned for `page_count` pages. -/
def initialize_heap (mem : Bytes) (heap_start page_count : Nat) : HeapState :=
  let heap_length := page_count * 0x1000
  let s : HeapState := { mem := mem, heap_start := heap_start, heap_end := heap_start + heap_length, last_hdr := 0 }
  let s := s.setLength heap_start (heap_length - 16)
  let s := s.setNext heap_start 0
  let s := s.setLast heap_start 0
  let s := s.setFree heap_start true
  { s with last_hdr := heap_start }

/-- Where the canary of a segment lies: the last four bytes of its payload. -/
def canary_ptr (s : HeapState) (seg : Nat) : Nat := wrap (seg + 16 + s.length seg - 4)

def check_heap_canaries_from (s : HeapState) : Nat → Nat → Except Panic Unit
  | 0, _ => .error .endless
  | fuel + 1, current_seg =>
    if !s.free current_seg && load32 s.mem (canary_ptr s current_seg) != HEAP_CANARY_VALUE then
      .error (.canary current_seg)
    else if s.next current_seg = 0 then .ok ()
    else check_heap_canaries_from s fuel (s.next current_seg)

def check_heap_canaries (s : HeapState) : Except Panic Unit := check_heap_canaries_from s s.walk s.heap_start

def prepare_segment (s : HeapState) (segment : Nat) : HeapState × Nat :=
  let s := s.setFree segment false
  ({ s with mem := store32 s.mem (canary_ptr s segment) HEAP_CANARY_VALUE },wrap (segment + 16))

/-- The first-fit search of `kmalloc`, from the segment `current_seg` on. -/
def kmalloc_from (s : HeapState) (size : Nat) : Nat → Nat → Except Panic (HeapState × Nat)
  | 0, _ => .error .endless
  | fuel + 1, current_seg =>
    if s.free current_seg && size < s.length current_seg then
      .ok (prepare_segment (hsh_split s current_seg size).1 current_seg)
    else if s.free current_seg && s.length current_seg = size then .ok (prepare_segment s current_seg)
    else if s.next current_seg = 0 then .error (.heap_full size)
    else kmalloc_from s size fuel (s.next current_seg)

/-- Adds the canary and rounds up to a multiple of 0x10. -/
def rounded (size : Nat) : Nat :=
  let size := wrap (size + 4)
  if size % 0x10 > 0 then wrap (size - size % 0x10 + 0x10) else size

def kmalloc (s : HeapState) (size : Nat) : Except Panic (HeapState × Nat) :=
  if size = 0 then .ok (s,0)
  else do
    check_heap_canaries s
    kmalloc_from s (rounded size) s.walk s.heap_start

def kfree (s : HeapState) (address : Nat) : Except Panic HeapState :=
  if address = 0 then .ok s
  else do
    check_heap_canaries s
    let segment := wrap (address + 2 ^ 32 - 16)
    let s := s.setFree segment true
    let s := hsh_combine_forward s segment
    return hsh_combine_backward s segment

def krealloc (s : HeapState) (ptr size : Nat) : Except Panic (HeapState × Nat) :=
  let segment := wrap (ptr + 2 ^ 32 - 16)
  if size = 0 then do
    let s ← kfree s ptr
    return (s,0)
  else if ptr = 0 then kmalloc s size
  else if wrap (size + 4) ≤ s.length segment then .ok (s,ptr)
  else do
    let (s',new_ptr) ← kmalloc s size
    if new_ptr = 0 then return (s',new_ptr)
    else do
      let s'' ← kfree { s' with mem := memcpy s'.mem new_ptr ptr (s'.length segment) } ptr
      return (s'',new_ptr)

end MicroOS.Heap

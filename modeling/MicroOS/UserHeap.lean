import MicroOS.HeapSpecs

/-!
The heap of the C library: the same segments as in the kernel under larger headers,
which also keep where an allocation was made. When no segment is large enough the heap
grows by whole pages and `malloc` calls itself.
-/
namespace MicroOS.UserHeap
open Memory Heap Segments

def HEAP_ADDRESS : Nat := 0xD0000000
def HEAP_PAGES : Nat := 0x10

/-- `heap_segment_header_t` with the three members of `ALLOC_STORE_LOCATION`. -/
def header : Header := ⟨28,4,by decide,by decide,by decide⟩

/-- `__FILE__` and `__func__`, as addresses, and `__LINE__`. -/
structure Location where
  file : Nat
  func : Nat
  line : Nat

/-- What `prepare_segment` writes before it marks a segment as used. -/
def note (location : Location) (m : Bytes) (segment : Nat) : Bytes :=
  store32 (store32 (store32 m (segment + 12) location.file) (segment + 16) location.func) (segment + 20) location.line

/-- Why a call does not return: a canary or an endless list; a page that `mmap` does not
    provide, where the kernel stops the task; or calls of `malloc` nested too deeply. -/
inductive Stop where
  | panic (reason : Panic)
  | unmapped
  | deep

def hsh_combine_forward (s : HeapState) (this : Nat) : HeapState := combine_forward header s this

def hsh_combine_backward (s : HeapState) (this : Nat) : HeapState := combine_backward header s this

def hsh_split (s : HeapState) (this split_length : Nat) : HeapState × Nat := divide header s this split_length

def check_heap_canaries (s : HeapState) : Except Panic Unit := check_canaries header s s.walk s.heap_start

def prepare_segment (location : Location) (s : HeapState) (segment : Nat) : HeapState × Nat :=
  prepare header (note location) s segment

/-- The size with its canary in whole headers. -/
def rounded (size : Nat) : Nat := rounded_up 28 size

/-- The system call `mmap` on the memory of the task and the rest of its program: what `malloc` is
    compiled with. -/
structure Environment where
  mmap : Bytes → Nat → Option Bytes
  heap_c : Location

section
variable (env : Environment)

/-- The loops over the pages behind the heap. -/
def map_pages : Nat → HeapState → Option HeapState
  | 0,s => some s
  | n + 1,s => do
    let mem ← env.mmap s.mem s.heap_end
    map_pages n { s with mem := mem, heap_end := wrap (s.heap_end + 0x1000) }

def initialize_heap (mem : Bytes) (heap_address page_count : Nat) : Option HeapState := do
  let s ← map_pages env page_count { mem := mem, heap_start := heap_address, heap_end := heap_address, last_hdr := 0 }
  return new_heap header s.mem heap_address page_count

/-- Rounds up to whole pages. -/
def whole_pages (length : Nat) : Nat :=
  if length % 0x1000 > 0 then wrap (length - length % 0x1000 + 0x1000) else length

/-- Without a page there is nothing at `heap_end` for the new header, and the task ends there. -/
def expand_heap (s : HeapState) (length : Nat) : Option HeapState :=
  let length := whole_pages length
  let page_count := length / 0x1000
  let new_segment := s.heap_end
  if page_count = 0 then none
  else do
    let s ← map_pages env page_count s
    let s := setFree header s new_segment true
    let s := s.setLast new_segment s.last_hdr
    let s := s.setNext s.last_hdr new_segment
    let s := { s with last_hdr := new_segment }
    let s := s.setNext new_segment 0
    let s := s.setLength new_segment (wrap (length + 2 ^ 32 - 28))
    return hsh_combine_backward s new_segment

/-- `malloc_debug`, nested at most so many times. -/
def malloc : Nat → Location → HeapState → Nat → Except Stop (HeapState × Nat)
  | 0,_,_,_ => .error .deep
  | depth + 1,location,s,size =>
    if size = 0 then .ok (s,0)
    else match check_heap_canaries s with
      | .error reason => .error (.panic reason)
      | .ok () => match search header (note location) s (rounded size) s.walk s.heap_start with
        | .error reason => .error (.panic reason)
        | .ok (some result) => .ok result
        | .ok none => match expand_heap env s (rounded size) with
          | none => .error .unmapped
          | some s => malloc depth env.heap_c s (rounded size)

def free (s : HeapState) (address : Nat) : Except Stop HeapState :=
  if address = 0 then .ok s
  else match give_back header s address with
    | .error reason => .error (.panic reason)
    | .ok s => .ok s

def realloc (depth : Nat) (location : Location) (s : HeapState) (ptr size : Nat) : Except Stop (HeapState × Nat) :=
  let segment := wrap (ptr + 2 ^ 32 - 28)
  if size = 0 then do
    let s ← free s ptr
    return (s,0)
  else if ptr = 0 then malloc env depth location s size
  else if wrap (size + 4) ≤ s.length segment then .ok (s,ptr)
  else do
    let (s',new_ptr) ← malloc env depth location s size
    if new_ptr = 0 then return (s',new_ptr)
    else do
      let s'' ← free { s' with mem := memcpy s'.mem new_ptr ptr (s'.length segment) } ptr
      return (s'',new_ptr)

def memset (m : Bytes) (a n : Nat) : Bytes := storeBytes m a (List.replicate n 0)

def calloc (depth : Nat) (location : Location) (s : HeapState) (count size : Nat) : Except Stop (HeapState × Nat) := do
  let (s,addr) ← malloc env depth location s (wrap (count * size))
  return ({ s with mem := memset s.mem addr (wrap (count * size)) },addr)

end
end MicroOS.UserHeap

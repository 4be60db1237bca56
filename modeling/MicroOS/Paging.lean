import MicroOS.Pmm
import MicroOS.Tasks

/-!
Page directories and page tables of `vmm.c`. Pages are named by their number. Of their
contents only what contexts, directories and tables hold is kept, as words of a page; the
accesses of the kernel to these go to physical pages, as all of the pool is identity mapped.
-/
namespace MicroOS.Paging
open Tasks

structure Flags where
  present : Bool
  write : Bool
  user : Bool
deriving DecidableEq

def PTE_PRESENT : Flags := ⟨true,false,false⟩
def kernel_flags : Flags := ⟨true,true,false⟩

/-- The address of a page and the flags in its low bits. -/
structure Entry where
  frame : Nat
  flags : Flags
deriving DecidableEq

def zero : Entry := ⟨0,⟨false,false,false⟩⟩

/-- The word 0 of a context is its `pagedir`. -/
structure Memory where
  pmm : Pmm.Memory
  word : Nat → Nat → Entry
  kernel_context : Nat

def store (m : Memory) (page index : Nat) (e : Entry) : Memory :=
  { m with word := Function.update m.word page (Function.update (m.word page) index e) }

def clear (m : Memory) (page : Nat) : Memory := { m with word := Function.update m.word page (fun _ => zero) }

/-- The words of a page, as the loops count them. -/
def indices : List Nat := List.range 1024

theorem mem_indices {i : Nat} : i ∈ indices ↔ i < 1024 := List.mem_range

def pagedir (m : Memory) (context : Nat) : Nat := (m.word context 0).frame
def pde (m : Memory) (context i : Nat) : Entry := m.word (pagedir m context) i
def pte (m : Memory) (context i j : Nat) : Entry := m.word (pde m context i).frame j

def alloc_pagetable (m : Memory) : Option (Memory × Nat) :=
  (Pmm.pmm_alloc_pagetable m.pmm).map (fun r => ({ m with pmm := r.1 },r.2 / 0x1000))

def free_page (m : Memory) (page : Nat) : Memory := { m with pmm := Pmm.pmm_free m.pmm (page * 0x1000) }

def vmm_create_context (m : Memory) : Option (Memory × Nat) :=
  match alloc_pagetable m with
  | none => none
  | some (m,context) =>
    match alloc_pagetable m with
    | none => none
    | some (m,dir) => some (clear (store m context 0 ⟨dir,zero.flags⟩) dir,context)

/-- The kernel's entry goes into the directories of all active tasks. -/
def push (tasks : Nat → Task) (m : Memory) (dir pd_index : Nat) : Memory :=
  (List.range MAX_TASKS).foldl (fun m t =>
    if (tasks t).active then store m (pagedir m (tasks t).context) pd_index (m.word dir pd_index) else m) m

/-- `dir` is `context->pagedir` and `kernel` says that `context` is the kernel's; `none`
    when the kernel stops without a page. -/
def vmm_map_page_unsafe (tasks : Nat → Task) (m : Memory) (dir : Nat) (kernel : Bool) (virt phys : Nat) (flags : Flags) :
    Option Memory :=
  let pd_index := virt / 0x1000 / 1024
  let pt_index := virt / 0x1000 % 1024
  if (m.word dir pd_index).flags.present then
    some (store m (m.word dir pd_index).frame pt_index ⟨phys / 0x1000,flags⟩)
  else
    match alloc_pagetable m with
    | none => none
    | some (m,page_table) =>
      let m := store (clear m page_table) dir pd_index ⟨page_table,{ flags with present := true }⟩
      let m := if kernel then push tasks m dir pd_index else m
      some (store m page_table pt_index ⟨phys / 0x1000,flags⟩)

/-- `cr3` is the directory in use. The kernel stops where a page overlaps with its own. -/
def vmm_map_page (tasks : Nat → Task) (cr3 : Nat) (m : Memory) (context virt phys : Nat) (flags : Flags) :
    Option (Memory × Int) :=
  if virt % 0x1000 ≠ 0 ∨ phys % 0x1000 ≠ 0 then some (m,-1)
  else if context ≠ m.kernel_context then
    if (pde m m.kernel_context (virt / 0x1000 / 1024)).flags.present then none
    else ( vmm_map_page_unsafe tasks m (pagedir m context) false virt phys flags).map (fun m => (m,0))
  else
    match if cr3 ≠ pagedir m context then vmm_map_page_unsafe tasks m cr3 false virt phys flags else some m with
    | none => none
    | some m => ( vmm_map_page_unsafe tasks m (pagedir m context) true virt phys flags).map (fun m => (m,0))

def vmm_clone_kernel_context (m : Memory) (context : Nat) : Memory :=
  indices.foldl (fun m i =>
    if (pde m m.kernel_context i).flags.present then store m (pagedir m context) i (pde m m.kernel_context i) else m) m

/-- The inner loop of `vmm_destroy_context`, for the page `j` of the table `i`. -/
def destroy_page (context i : Nat) (m : Memory) (j : Nat) : Memory :=
  if (pte m context i j).flags.present then
    if (pde m m.kernel_context i).flags.present ∧ (pte m m.kernel_context i j).flags.present then m
    else free_page m (pte m context i j).frame
  else m

def destroy_table (context : Nat) (m : Memory) (i : Nat) : Memory :=
  if (pde m context i).flags.present then
    let m := indices.foldl (destroy_page context i) m
    if (pde m m.kernel_context i).flags.present then m else free_page m (pde m context i).frame
  else m

def vmm_destroy_context (m : Memory) (context : Nat) : Memory :=
  let m := indices.foldl (destroy_table context) m
  free_page (free_page m (pagedir m context)) context

/-- NULL is 0. -/
def vmm_lookup (m : Memory) (ptr context : Nat) : Nat :=
  let pd_index := ptr / 0x1000 / 1024
  let pt_index := ptr / 0x1000 % 1024
  if (pde m context pd_index).flags.present then
    if (pte m context pd_index pt_index).flags.present then (pte m context pd_index pt_index).frame * 0x1000 + ptr % 0x1000
    else 0
  else 0

end MicroOS.Paging

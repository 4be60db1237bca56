import MicroOS.Runs
import MicroOS.HeapKernel

/-!
The kernel heap under its clients. A client calls `kmalloc`, `krealloc` and
`kfree` on pointers it was given and writes within the sizes it asked for; a
panic ends the run. In every state reached the segment list tiles the heap, its
links are mutual, no two free segments are neighbours, and the live allocations
are apart.
-/
namespace MicroOS.HeapRuns
open Memory Heap HeapChain HeapOps HeapCalls HeapSpecs HeapKernel Runs
open Segments (Header)

/-- The heap and, for every live allocation, its pointer and the size last asked for. -/
structure Client where
  heap : HeapState
  live : List (Nat × Nat)

inductive Call where
  | kmalloc (size : Nat)
  | krealloc (ptr size : Nat)
  | kfree (ptr : Nat)
  | write (ptr offset : Nat) (byte : UInt8)

/-- A returned pointer joins the live ones unless it is NULL. -/
def record (p size : Nat) (live : List (Nat × Nat)) : List (Nat × Nat) :=
  if p = 0 then live else (p,size) :: live

def forget (p : Nat) (live : List (Nat × Nat)) : List (Nat × Nat) := live.eraseP (fun x => x.1 == p)

def perform (c : Client) : Call → Except Panic Client
  | .kmalloc size => do
    let (heap,p) ← kmalloc c.heap size
    return ⟨heap,record p size c.live⟩
  | .krealloc ptr size => do
    let (heap,p) ← krealloc c.heap ptr size
    return ⟨heap,record p size (forget ptr c.live)⟩
  | .kfree ptr => do
    let heap ← kfree c.heap ptr
    return ⟨heap,forget ptr c.live⟩
  | .write ptr offset byte =>
    .ok { c with heap := { c.heap with mem := storeByte c.heap.mem (ptr + offset) byte } }

/-- `size + 4` rounded up to a multiple of 0x10 is still a 32-bit word. -/
def Unwrapped (size : Nat) : Prop := (size + 4 + 15) / 16 * 16 < 2 ^ 32

instance (size : Nat) : Decidable (Unwrapped size) := inferInstanceAs (Decidable (_ < _))

/-- What a client may do: free or reallocate what it holds (or NULL), and write
    within a size it asked for. -/
def Permitted (c : Client) : Call → Prop
  | .kmalloc size => Unwrapped size
  | .krealloc ptr size => (ptr = 0 ∨ ∃ n, (ptr,n) ∈ c.live) ∧ Unwrapped size
  | .kfree ptr => ptr = 0 ∨ ∃ n, (ptr,n) ∈ c.live
  | .write ptr offset _ => ∃ n, (ptr,n) ∈ c.live ∧ offset < n

/-- The heap from `initialize_heap` on: `vmm_alloc` returned pages of the address
    space, not the zero page. -/
def heap_system : System Client Call where
  start c := ∃ mem heap_start page_count, 0 < heap_start ∧ 0 < page_count ∧
    heap_start + page_count * 0x1000 < 2 ^ 32 ∧ c = ⟨initialize_heap mem heap_start page_count,[]⟩
  step c call c' := Permitted c call ∧ perform c call = .ok c'

def segments_from (s : HeapState) : Nat → Nat → List Nat
  | 0, _ => []
  | fuel + 1, seg => seg :: if s.next seg = 0 then [] else segments_from s fuel (s.next seg)

/-- The headers met when following `next` from `heap_start`. -/
def segments (s : HeapState) : List Nat := segments_from s s.walk s.heap_start

/-- The segments fill the heap one after the other, `last` undoes `next`, and free
    segments are not neighbours. -/
structure Tiled (s : HeapState) : Prop where
  first : (segments s).head? = some s.heap_start ∧ s.last s.heap_start = 0
  links : (segments s).IsChain
    (fun seg next => s.next seg = next ∧ seg + 16 + s.length seg = next ∧ s.last next = seg)
  final : (segments s).getLast? = some s.last_hdr ∧ s.next s.last_hdr = 0 ∧
    s.last_hdr + 16 + s.length s.last_hdr = s.heap_end
  apart : (segments s).IsChain (fun seg next => ¬ (s.free seg = true ∧ s.free next = true))

/-- The length of the segment before a pointer, canary included. -/
def payload (s : HeapState) (ptr : Nat) : Nat := s.length (ptr - 16)

/-- Live allocations are payloads of used segments, within the heap and with no
    byte in common. -/
structure Separate (c : Client) : Prop where
  inside : ∀ x ∈ c.live, x.1 - 16 ∈ segments c.heap ∧ c.heap.free (x.1 - 16) = false ∧
    c.heap.heap_start + 16 ≤ x.1 ∧ x.2 + 4 ≤ payload c.heap x.1 ∧ x.1 + payload c.heap x.1 ≤ c.heap.heap_end
  apart : c.live.Pairwise (fun x y => x.1 + payload c.heap x.1 ≤ y.1 ∨ y.1 + payload c.heap y.1 ≤ x.1)

structure Tiling (h : Header) (s : HeapState) : Prop where
  first : (segments s).head? = some s.heap_start ∧ s.last s.heap_start = 0
  links : (segments s).IsChain
    (fun seg next => s.next seg = next ∧ seg + h.size + s.length seg = next ∧ s.last next = seg)
  final : (segments s).getLast? = some s.last_hdr ∧ s.next s.last_hdr = 0 ∧
    s.last_hdr + h.size + s.length s.last_hdr = s.heap_end
  apart : (segments s).IsChain (fun seg next => ¬ (Segments.free h s seg = true ∧ Segments.free h s next = true))

structure Spaced (h : Header) (c : Client) : Prop where
  inside : ∀ x ∈ c.live, x.1 - h.size ∈ segments c.heap ∧ Segments.free h c.heap (x.1 - h.size) = false ∧
    c.heap.heap_start + h.size ≤ x.1 ∧ x.2 + 4 ≤ c.heap.length (x.1 - h.size) ∧
    x.1 + c.heap.length (x.1 - h.size) ≤ c.heap.heap_end
  apart : c.live.Pairwise (fun x y => x.1 + c.heap.length (x.1 - h.size) ≤ y.1 ∨ y.1 + c.heap.length (y.1 - h.size) ≤ x.1)

/-- Where the segments lie. -/
def starts (h : Header) : Nat → List Block → List Nat
  | _, [] => []
  | a, b :: rest => a :: starts h (a + h.size + b.length) rest

theorem starts_append (h : Header) (a : Nat) (xs ys : List Block) : starts h a (xs ++ ys) = starts h a xs ++ starts h (a + span h xs) ys := by
  induction xs generalizing a with
  | nil => rfl
  | cons b rest ih =>
    have shift : a + h.size + b.length + span h rest = a + span h (b :: rest) := by simp; omega
    rw [List.cons_append,starts,starts,ih,shift]
    rfl

section
variable {h : Header} {s : HeapState}

theorem segments_from_eq {pre post : List Block} {c : Block} {fuel : Nat} (rep : Represents h s (pre ++ c :: post))
    (enough : post.length < fuel) :
    segments_from s fuel (s.heap_start + span h pre) = starts h (s.heap_start + span h pre) (c :: post) := by
  induction post generalizing pre c fuel with
  | nil =>
    obtain ⟨fuel,rfl⟩ : ∃ k, fuel = k + 1 := ⟨fuel - 1,by omega⟩
    rw [segments_from,if_pos (next_at_end rep)]
    rfl
  | cons d rest ih =>
    obtain ⟨fuel,rfl⟩ : ∃ k, fuel = k + 1 := ⟨fuel - 1,by omega⟩
    have positive := rep.positive
    have shorter : rest.length < fuel := by simpa using enough
    have further := ih (shift_block rep) shorter
    rw [shift_start] at further
    rw [segments_from,next_at rep,if_neg (by omega),further]
    rfl

theorem segments_eq {blocks : List Block} (rep : Represents h s blocks) (nonempty : blocks ≠ []) :
    segments s = starts h s.heap_start blocks := by
  have enough := walk_enough rep
  obtain ⟨c,post,rfl⟩ := List.exists_cons_of_ne_nil nonempty
  exact @segments_from_eq h _ [] _ _ _ rep (by simp at enough; omega)

/-- A relation between neighbours in the chain holds along the headers. -/
theorem chain_starts {tail prev a : Nat} {blocks : List Block} {R : Nat → Nat → Prop} {Q : Block → Block → Prop}
    (chain : Chain h s.mem tail prev a blocks) (beside : blocks.IsChain Q)
    (related : ∀ b c prev next x, Q b c → At h s.mem prev (x + h.size + b.length) x b →
      At h s.mem x next (x + h.size + b.length) c → R x (x + h.size + b.length)) : (starts h a blocks).IsChain R := by
  induction blocks generalizing prev a with
  | nil => exact .nil
  | cons b rest ih =>
    obtain ⟨here,beyond⟩ := chain
    cases rest with
    | nil => exact .singleton _
    | cons c more =>
      have after := ih beyond beside.tail
      exact .cons_cons (related b c _ _ _ (List.isChain_cons_cons.mp beside).1 here beyond.1) after

theorem tiling_of_represents {blocks : List Block} (rep : Represents h s blocks) (sound : Sound h blocks)
    (nonempty : blocks ≠ []) : Tiling h s := by
  have listed := segments_eq rep nonempty
  have final := rep.final
  refine ⟨?_,?_,?_,?_⟩
  · obtain ⟨c,post,rfl⟩ := List.exists_cons_of_ne_nil nonempty
    exact ⟨by rw [listed]; rfl,rep.chain.1.last⟩
  · rw [listed]
    refine chain_starts (Q := fun _ _ => True) rep.chain ?_ ?_
    · exact List.IsChain.imp (fun _ _ _ => trivial) sound.apart
    · intro b c prev next x _ here there
      exact ⟨here.next,by rw [HeapState.length,here.length],there.last⟩
  · obtain ⟨front,b,rfl⟩ := (List.eq_nil_or_concat blocks).resolve_left nonempty
    rw [List.concat_eq_append] at *
    have ends := span_le_end rep
    rw [lastStart_append] at final
    simp only [lastStart] at final
    rw [listed,starts_append,final,length_at rep]
    exact ⟨by simp [starts],next_at_end rep,by simpa using ends⟩
  · rw [listed]
    refine chain_starts rep.chain sound.apart ?_
    intro b c prev next x beside here there
    have flags : Segments.free h s x = b.isFree ∧ Segments.free h s (x + h.size + b.length) = c.isFree := by
      constructor
      · cases b <;> simp [Segments.free,here.free]
      · cases c <;> simp [Segments.free,there.free]
    rw [flags.1,flags.2]
    exact beside

theorem holds_segment {live : List (Nat × List UInt8)} {p : Nat} {bytes : List UInt8}
    (holds : Holds h s ((p,bytes) :: live)) : p - h.size ∈ segments s := by
  obtain ⟨pre,post,rep,-,rfl,-⟩ := holds_split holds
  rw [segments_eq rep (by simp),starts_append]
  simp [starts]

end

/-- A client's record of an allocation: the pointer, and room for the size and a canary. -/
def Fits (x : Nat × Nat) (y : Nat × List UInt8) : Prop := x.1 = y.1 ∧ x.2 + 4 ≤ y.2.length

/-- The heap holds exactly the client's live allocations. -/
def Tracks (h : Header) (c : Client) : Prop := ∃ allocs, Holds h c.heap allocs ∧ List.Forall₂ Fits c.live allocs

section
variable {live : List (Nat × Nat)} {allocs : List (Nat × List UInt8)} {p n : Nat} (fits : List.Forall₂ Fits live allocs)
  (member : (p,n) ∈ live)
include fits member

/-- The allocation behind a live pointer. -/
theorem fits_split : ∃ bytes rest, allocs.Perm ((p,bytes) :: rest) ∧ n + 4 ≤ bytes.length ∧
      ∀ bytes', bytes'.length = bytes.length →
        ∃ allocs', allocs'.Perm ((p,bytes') :: rest) ∧ List.Forall₂ Fits live allocs' := by
  induction fits with
  | nil => simp at member
  | @cons x y live allocs here fits ih =>
    rcases List.mem_cons.mp member with rfl | later
    · obtain ⟨q,bytes⟩ := y
      obtain ⟨place,room⟩ := here
      dsimp only at place room
      subst place
      exact ⟨bytes,allocs,.refl _,room,fun bytes' same => ⟨_,.refl _,.cons ⟨rfl,by dsimp only; omega⟩ fits⟩⟩
    · obtain ⟨bytes,rest,shape,room,rewrite⟩ := ih later
      refine ⟨bytes,y :: rest,(shape.cons y).trans (.swap _ _ _),room,?_⟩
      intro bytes' same
      obtain ⟨allocs',shape',fits'⟩ := rewrite bytes' same
      exact ⟨y :: allocs',(shape'.cons y).trans (.swap _ _ _),.cons here fits'⟩

/-- Forgetting a live pointer takes exactly one allocation away. -/
theorem fits_forget : ∃ bytes rest, allocs.Perm ((p,bytes) :: rest) ∧ List.Forall₂ Fits (forget p live) rest := by
  induction fits with
  | nil => simp at member
  | @cons x y live allocs here fits ih =>
    by_cases first : x.1 = p
    · refine ⟨y.2,allocs,?_,?_⟩
      · rw [← first,here.1]
      · rw [forget,List.eraseP_cons_of_pos (by simpa using first)]
        exact fits
    · rcases List.mem_cons.mp member with rfl | later
      · exact absurd rfl first
      · obtain ⟨bytes,rest,shape,fits'⟩ := ih later
        refine ⟨bytes,y :: rest,(shape.cons y).trans (.swap _ _ _),?_⟩
        rw [forget,List.eraseP_cons_of_neg (by simpa using first)]
        exact .cons here fits'

end

variable {c : Client} {ptr : Nat}

/-- NULL is never live. -/
theorem tracks_null {h : Header} (tracks : Tracks h c) (n : Nat) : (0,n) ∉ c.live := by
  have large := h.large
  obtain ⟨allocs,holds,fits⟩ := tracks
  intro member
  obtain ⟨bytes,rest,shape,-,-⟩ := fits_split fits member
  obtain ⟨-,-,-,-,-,low,-,-⟩ := holds_payload (holds_perm holds shape.symm)
  omega

theorem forget_null {h : Header} (tracks : Tracks h c) : forget 0 c.live = c.live := by
  refine List.eraseP_of_forall_not ?_
  rintro ⟨p,n⟩ member zero
  simp only [beq_iff_eq] at zero
  subst zero
  exact tracks_null tracks n member

/-- A write within the size asked for changes the bytes of its allocation and nothing else. -/
theorem write_holds {h : Header} {offset n : Nat} (byte : UInt8) (tracks : Tracks h c)
    (member : (ptr,n) ∈ c.live) (inside : offset < n) : ∃ allocs bytes bytes' rest, Holds h c.heap allocs ∧
      List.Forall₂ Fits c.live allocs ∧ allocs.Perm ((ptr,bytes) :: rest) ∧
      Holds h { c.heap with mem := storeByte c.heap.mem (ptr + offset) byte } ((ptr,bytes') :: rest) ∧
      ∃ allocs', allocs'.Perm ((ptr,bytes') :: rest) ∧ List.Forall₂ Fits c.live allocs' := by
  have large := h.large
  obtain ⟨allocs,holds,listed⟩ := tracks
  obtain ⟨bytes,rest,shape,room,rewrite⟩ := fits_split listed member
  have found := holds_perm holds shape.symm
  obtain ⟨stored,⟨front,rfl⟩,-,-,-,low,high,-⟩ := holds_payload found
  simp only [List.length_append] at room
  have shorter : offset < front.length := by simp [canaryBytes] at room; omega
  have written : slice (storeByte c.heap.mem (ptr + offset) byte) ptr (front ++ canaryBytes).length =
      front.set offset byte ++ canaryBytes := by
    apply List.ext_getElem?
    intro i
    have before := congrArg (fun l => l[i]?) stored
    simp only [slice_getElem?] at before
    rw [← List.set_append_left _ _ shorter,List.getElem?_set,slice_getElem?,← before]
    by_cases here : offset = i
    · subst here
      have within : offset < (front ++ canaryBytes).length := by simp only [List.length_append]; omega
      rw [if_pos within,if_pos rfl,if_pos within,storeByte_same]
    · rw [storeByte_outside _ _ _ (by omega),if_neg here]
  obtain ⟨allocs',shape',listed'⟩ := rewrite (front.set offset byte ++ canaryBytes) (by simp)
  refine ⟨allocs,_,_,rest,holds,listed,shape,holds_write found (by simp) ⟨_,rfl⟩ ?_ ?_ ?_,allocs',shape',listed'⟩
  · rw [← written]
    simp
  · exact storeByte_agree _ _ _ (by omega)
  · exact storeByte_agree _ _ _ (by simp only [List.length_append]; omega)

theorem write_tracks {h : Header} {offset n : Nat} {byte : UInt8} (tracks : Tracks h c)
    (member : (ptr,n) ∈ c.live) (inside : offset < n) :
    Tracks h { c with heap := { c.heap with mem := storeByte c.heap.mem (ptr + offset) byte } } := by
  obtain ⟨_,_,_,_,_,_,_,written,allocs',shape,listed⟩ := write_holds byte tracks member inside
  exact ⟨allocs',holds_perm written shape,listed⟩

theorem fits_pairwise {h : Header} {live : List (Nat × Nat)} {allocs : List (Nat × List UInt8)} {len : Nat → Nat}
    (fits : List.Forall₂ Fits live allocs) (lengths : ∀ y ∈ allocs, len y.1 = y.2.length)
    (ordered : allocs.Pairwise (fun x y => x.1 + x.2.length + h.size ≤ y.1 ∨ y.1 + y.2.length + h.size ≤ x.1)) :
    live.Pairwise (fun x y => x.1 + len x.1 ≤ y.1 ∨ y.1 + len y.1 ≤ x.1) := by
  induction fits with
  | nil => exact .nil
  | @cons x y live allocs here fits ih =>
    obtain ⟨first,later⟩ := List.pairwise_cons.mp ordered
    refine .cons ?_ (ih (fun z member => lengths z (List.mem_cons_of_mem _ member)) later)
    rintro ⟨p,n⟩ member
    obtain ⟨bytes,rest,shape,-,-⟩ := fits_split fits member
    have listed : (p,bytes) ∈ allocs := shape.symm.subset (List.mem_cons_self ..)
    have beside := first _ listed
    have length := lengths _ (List.mem_cons_of_mem y listed)
    have length' := lengths y (List.mem_cons_self ..)
    have place := here.1
    rw [← place] at length' beside
    dsimp only at beside length ⊢
    omega

theorem spaced_of_tracks {h : Header} (tracks : Tracks h c) : Spaced h c := by
  obtain ⟨allocs,holds,listed⟩ := tracks
  constructor
  · rintro ⟨p,n⟩ member
    obtain ⟨bytes,rest,shape,room,-⟩ := fits_split listed member
    have found := holds_perm holds shape.symm
    obtain ⟨-,-,-,length,used,low,high,-⟩ := holds_payload found
    refine ⟨holds_segment found,used,low,?_,?_⟩
    · rw [length]
      exact room
    · rw [length]
      exact high
  · have lengths : ∀ y ∈ allocs, c.heap.length (y.1 - h.size) = y.2.length := by
      intro y member
      obtain ⟨before,after,rfl⟩ := List.append_of_mem member
      obtain ⟨-,-,-,length,-⟩ := holds_payload (holds_perm holds List.perm_middle.symm)
      exact length
    exact @fits_pairwise h _ _ (fun x => c.heap.length (x - h.size)) listed lengths (holds_apart holds)

theorem tiled_of_tiling {s : HeapState} (tiling : Tiling header s) : Tiled s :=
  ⟨tiling.first,tiling.links,tiling.final,tiling.apart⟩

theorem separate_of_spaced (spaced : Spaced header c) : Separate c := ⟨spaced.inside,spaced.apart⟩

/-- A step ends in a state the client's record still describes, or the heap is
    full: neither a canary nor an endless list stops it. -/
def Continues (result : Except Panic Client) : Prop :=
  (∃ c', result = .ok c' ∧ Tracks header c') ∨ ∃ size, result = .error (.heap_full size)

theorem kmalloc_continues {size : Nat} (tracks : Tracks header c) (fits : Unwrapped size) :
    Continues (perform c (.kmalloc size)) := by
  obtain ⟨allocs,holds,listed⟩ := id tracks
  rw [Unwrapped] at fits
  by_cases asked : size = 0
  · subst asked
    exact .inl ⟨c,rfl,tracks⟩
  · rcases @kmalloc_spec _ size _ holds (by omega) with full | ⟨s',p,made,bytes,holds',room,place⟩
    · exact .inr ⟨rounded size,by rw [perform,full]; rfl⟩
    · obtain ⟨-,-,-,-,-,low,-,-⟩ := holds_payload holds'
      obtain ⟨enough,-,-⟩ := rounded_spec size (by omega)
      have past : 16 ≤ p := Nat.le_trans (Nat.le_add_left _ _) low
      refine .inl ⟨⟨s',(p,size) :: c.live⟩,?_,_,holds',.cons ⟨rfl,by dsimp only; omega⟩ listed⟩
      rw [perform,made]
      simp only [bind,Except.bind,record]
      rw [if_neg (by omega)]
      rfl

theorem kfree_continues (tracks : Tracks header c) (live : ptr = 0 ∨ ∃ n, (ptr,n) ∈ c.live) :
    ∃ heap, kfree c.heap ptr = .ok heap ∧ Tracks header ⟨heap,forget ptr c.live⟩ := by
  rcases live with rfl | ⟨n,member⟩
  · rw [forget_null tracks]
    exact ⟨c.heap,rfl,tracks⟩
  · obtain ⟨allocs,holds,listed⟩ := tracks
    obtain ⟨bytes,rest,shape,listed'⟩ := fits_forget listed member
    obtain ⟨s',freed,holds',-⟩ := kfree_spec (holds_perm holds shape.symm)
    exact ⟨s',freed,rest,holds',listed'⟩

theorem krealloc_continues {size : Nat} (tracks : Tracks header c)
    (live : ptr = 0 ∨ ∃ n, (ptr,n) ∈ c.live) (fits : Unwrapped size) : Continues (perform c (.krealloc ptr size)) := by
  by_cases asked : size = 0
  · subst asked
    obtain ⟨heap,freed,tracks'⟩ := kfree_continues tracks live
    refine .inl ⟨_,?_,tracks'⟩
    rw [perform,krealloc,if_pos rfl,freed]
    rfl
  · rcases live with rfl | ⟨n,member⟩
    · have same : perform c (.krealloc 0 size) = perform c (.kmalloc size) := by
        simp only [perform]
        rw [krealloc,if_neg asked,if_pos rfl,forget_null tracks]
      rw [same]
      exact kmalloc_continues tracks fits
    · obtain ⟨allocs,holds,listed⟩ := tracks
      obtain ⟨bytes,rest,shape,listed'⟩ := fits_forget listed member
      have found := holds_perm holds shape.symm
      rw [Unwrapped] at fits
      obtain ⟨enough,-,-⟩ := rounded_spec size (by omega)
      rcases @krealloc_spec _ size _ _ _ found (by omega) (by omega) with
        ⟨kept,room⟩ | ⟨full,-⟩ | ⟨s',q,bytes',moved,holds',room,-,-⟩
      · obtain ⟨-,-,-,-,-,low,-,-⟩ := holds_payload found
        have past : 16 ≤ ptr := Nat.le_trans (Nat.le_add_left _ _) low
        refine .inl ⟨⟨c.heap,(ptr,size) :: forget ptr c.live⟩,?_,_,found,.cons ⟨rfl,room⟩ listed'⟩
        rw [perform,kept]
        simp only [bind,Except.bind,record]
        rw [if_neg (by omega)]
        rfl
      · exact .inr ⟨rounded size,by rw [perform,full]; rfl⟩
      · obtain ⟨-,-,-,-,-,low,-,-⟩ := holds_payload holds'
        have past : 16 ≤ q := Nat.le_trans (Nat.le_add_left _ _) low
        refine .inl ⟨⟨s',(q,size) :: forget ptr c.live⟩,?_,_,holds',.cons ⟨rfl,by dsimp only; omega⟩ listed'⟩
        rw [perform,moved]
        simp only [bind,Except.bind,record]
        rw [if_neg (by omega)]
        rfl

/-- Every permitted call keeps the client's record true. -/
theorem perform_continues {call : Call} (tracks : Tracks header c) (permitted : Permitted c call) :
    Continues (perform c call) := by
  cases call with
  | kmalloc size => exact kmalloc_continues tracks permitted
  | krealloc ptr size => exact krealloc_continues tracks permitted.1 permitted.2
  | kfree ptr =>
    obtain ⟨heap,freed,tracks'⟩ := kfree_continues tracks permitted
    exact .inl ⟨_,by rw [perform,freed]; rfl,tracks'⟩
  | write ptr offset byte =>
    obtain ⟨n,member,inside⟩ := permitted
    exact .inl ⟨_,rfl,write_tracks tracks member inside⟩

theorem reached_tracks (reached : Reached heap_system c) : Tracks header c := by
  refine reached_invariant ?_ ?_ reached
  · rintro c ⟨mem,heap_start,page_count,positive,pages,fits,rfl⟩
    exact ⟨[],initialize_heap_spec mem heap_start page_count positive pages fits,.nil⟩
  · rintro c call c' tracks ⟨permitted,performed⟩
    rcases perform_continues tracks permitted with ⟨c'',done,tracks'⟩ | ⟨size,stopped⟩
    · rw [performed] at done
      cases done
      exact tracks'
    · rw [performed] at stopped
      cases stopped

/-- In every state reached from `initialize_heap` the segments tile the heap and the
    live allocations are apart. -/
theorem heap_reached {c : Client} (reached : Reached heap_system c) : Tiled c.heap ∧ Separate c := by
  have tracks := reached_tracks reached
  obtain ⟨allocs,⟨blocks,rep,sound,nonempty,-⟩,-⟩ := id tracks
  exact ⟨tiled_of_tiling (tiling_of_represents rep sound nonempty),separate_of_spaced (spaced_of_tracks tracks)⟩

/-- A heap of one page at 0x1000 after one call. -/
theorem heap_reached_kmalloc : ∃ heap, perform ⟨initialize_heap (fun _ => 0) 0x1000 1,[]⟩ (.kmalloc 10) =
    .ok ⟨heap,[(0x1010,10)]⟩ ∧ Tiled heap ∧ Separate ⟨heap,[(0x1010,10)]⟩ := by
  have performed : ∃ heap, perform ⟨initialize_heap (fun _ => 0) 0x1000 1,[]⟩ (.kmalloc 10) =
      .ok ⟨heap,[(0x1010,10)]⟩ := ⟨_,rfl⟩
  obtain ⟨heap,performed⟩ := performed
  have permitted : Unwrapped 10 := by decide
  exact ⟨heap,performed,heap_reached ⟨_,[.kmalloc 10],⟨_,0x1000,1,by decide,by decide,by decide,rfl⟩,
    .step ⟨permitted,performed⟩ (.done _)⟩⟩

end MicroOS.HeapRuns

import MicroOS.HeapRuns

/-!
What `krealloc` does to the bytes of a client: the block it returns begins with the old
contents, the old block is given up unless it is the one returned, and every other live
allocation keeps its place, its bytes and its canary.
-/
namespace MicroOS.HeapRealloc
open Memory Heap HeapChain HeapOps HeapCalls HeapSpecs HeapKernel HeapRuns
open Runs
open Segments (Header)

section
variable {h : Header} {s : HeapState}

theorem starts_mem {a seg : Nat} {blocks : List Block} (member : seg ∈ starts h a blocks) :
    ∃ pre c post, blocks = pre ++ c :: post ∧ seg = a + span h pre := by
  induction blocks generalizing a with
  | nil => cases member
  | cons b rest ih =>
    rcases List.mem_cons.1 member with rfl | later
    · exact ⟨[],b,rest,rfl,rfl⟩
    · obtain ⟨pre,c,post,rfl,place⟩ := ih later
      refine ⟨b :: pre,c,post,rfl,?_⟩
      rw [place,span_cons]
      omega

/-- A block of the list is a segment. -/
theorem block_segment {pre post : List Block} {c : Block} (rep : Represents h s (pre ++ c :: post)) :
    s.heap_start + span h pre ∈ segments s := by
  rw [segments_eq rep (by simp),starts_append]
  exact List.mem_append_right _ (List.mem_cons_self ..)

variable {live : List (Nat × List UInt8)} {p : Nat} {bytes : List UInt8}

/-- A used segment is the header of an allocation. -/
theorem used_segment {seg : Nat} (holds : Holds h s live) (member : seg ∈ segments s)
    (used : Segments.free h s seg = false) : ∃ bytes, (seg + h.size,bytes) ∈ live := by
  obtain ⟨blocks,rep,sound,nonempty,listed⟩ := holds
  rw [segments_eq rep nonempty] at member
  obtain ⟨pre,c,post,rfl,rfl⟩ := starts_mem member
  rw [free_at rep] at used
  cases c with
  | free n => cases used
  | used bytes =>
    refine ⟨bytes,listed.symm.subset ?_⟩
    rw [allocations_append]
    exact List.mem_append_right _ (List.mem_cons_self ..)

/-- Being longer than every free block and than every free segment is the same. -/
theorem free_shorter {blocks : List Block} {size : Nat} (rep : Represents h s blocks) (nonempty : blocks ≠ []) :
    (∀ n, .free n ∈ blocks → n < size) ↔ ∀ seg ∈ segments s, Segments.free h s seg = true → s.length seg < size := by
  constructor
  · intro shorter seg member flag
    rw [segments_eq rep nonempty] at member
    obtain ⟨pre,c,post,rfl,rfl⟩ := starts_mem member
    rw [free_at rep] at flag
    rw [length_at rep]
    cases c with
    | free n => exact shorter n (List.mem_append_right _ (List.mem_cons_self ..))
    | used bytes => cases flag
  · intro shorter n member
    obtain ⟨pre,post,rfl⟩ := List.append_of_mem member
    have here := shorter _ (block_segment rep) (free_at rep)
    rwa [length_at rep] at here

/-- What is stored at one of the allocations. -/
theorem holds_member (holds : Holds h s live) (member : (p,bytes) ∈ live) :
    slice s.mem p bytes.length = bytes ∧ s.length (p - h.size) = bytes.length ∧ s.heap_start + h.size ≤ p ∧
      load32 s.mem (Segments.canary_at h s (p - h.size)) = HEAP_CANARY_VALUE := by
  obtain ⟨before,after,rfl⟩ := List.append_of_mem member
  have first := holds_perm holds List.perm_middle.symm
  obtain ⟨stored,guarded,-,length,-,low,-⟩ := holds_payload first
  obtain ⟨pre,post,rep,-,rfl,-⟩ := holds_split first
  have place : s.heap_start + span h pre + h.size - h.size = s.heap_start + span h pre := Nat.add_sub_cancel _ _
  refine ⟨stored,length,low,?_⟩
  rw [place]
  exact canary_stored rep guarded

/-- One address holds one allocation. -/
theorem holds_unique {others : List UInt8} (holds : Holds h s live)
    (member : (p,bytes) ∈ live) (other : (p,others) ∈ live) : bytes = others := by
  obtain ⟨stored,length,-⟩ := holds_member holds member
  obtain ⟨stored',length',-⟩ := holds_member holds other
  rw [← stored,← stored',← length,← length']

theorem holds_once {others : List UInt8} (holds : Holds h s ((p,bytes) :: live)) : (p,others) ∉ live := by
  intro member
  have large := h.large
  have beside := (List.pairwise_cons.1 (holds_apart holds)).1 _ member
  dsimp only at beside
  omega

/-- An allocation has kept its length, its bytes and its canary. -/
structure Preserved (h : Header) (s s' : HeapState) (ptr : Nat) : Prop where
  length : s'.length (ptr - h.size) = s.length (ptr - h.size)
  bytes : slice s'.mem ptr (s.length (ptr - h.size)) = slice s.mem ptr (s.length (ptr - h.size))
  canary : load32 s'.mem (Segments.canary_at h s' (ptr - h.size)) = HEAP_CANARY_VALUE

/-- What is listed before and after is kept. -/
theorem preserved_of_holds {s' : HeapState} {live' : List (Nat × List UInt8)} {ptr : Nat}
    (before : Holds h s live) (member : (ptr,bytes) ∈ live) (after : Holds h s' live') (member' : (ptr,bytes) ∈ live') :
    Preserved h s s' ptr := by
  obtain ⟨stored,length,-,-⟩ := holds_member before member
  obtain ⟨stored',length',-,canary⟩ := holds_member after member'
  refine ⟨length'.trans length.symm,?_,canary⟩
  rw [length]
  exact stored'.trans stored.symm

theorem slice_take (m : Bytes) (a : Nat) {n k : Nat} (less : k ≤ n) : (slice m a n).take k = slice m a k := by
  obtain ⟨more,rfl⟩ := Nat.exists_eq_add_of_le less
  rw [slice_append,List.take_left' (slice_length m a k)]

end

/-- A live allocation has kept its length, its bytes and its canary. -/
structure Kept (s s' : HeapState) (ptr : Nat) : Prop where
  length : payload s' ptr = payload s ptr
  bytes : slice s'.mem ptr (payload s ptr) = slice s.mem ptr (payload s ptr)
  canary : load32 s'.mem (canary_ptr s' (ptr - 16)) = HEAP_CANARY_VALUE

/-- No used segment begins in front of a pointer. -/
def Gone (s : HeapState) (ptr : Nat) : Prop := ¬ (ptr - 16 ∈ segments s ∧ s.free (ptr - 16) = false)

/-- `krealloc` found no free segment for the new size. -/
structure Full (s : HeapState) (ptr size : Nat) : Prop where
  larger : payload s ptr < size + 4
  segments : ∀ seg ∈ segments s, s.free seg = true → s.length seg < rounded size

section
variable {s s' : HeapState} {live live' : List (Nat × List UInt8)}

/-- What is listed before and after is kept. -/
theorem kept_of_holds {ptr : Nat} {bytes : List UInt8} (before : Holds header s live) (member : (ptr,bytes) ∈ live)
    (after : Holds header s' live') (member' : (ptr,bytes) ∈ live') : Kept s s' ptr := by
  obtain ⟨length,same,canary⟩ := preserved_of_holds before member after member'
  exact ⟨length,same,canary⟩

theorem gone_of_holds {ptr : Nat} (holds : Holds header s live) (low : 16 ≤ ptr) (absent : ∀ bytes, (ptr,bytes) ∉ live) : Gone s ptr := by
  rintro ⟨member,used⟩
  obtain ⟨bytes,listed⟩ := used_segment holds member used
  have place : ptr - 16 + header.size = ptr := Nat.sub_add_cancel low
  rw [place] at listed
  exact absent bytes listed

end

/-- Every record of a client has its allocation. -/
theorem fits_member {live : List (Nat × Nat)} {allocs : List (Nat × List UInt8)} {x : Nat × Nat}
    (fits : List.Forall₂ Fits live allocs) (member : x ∈ live) : ∃ bytes, (x.1,bytes) ∈ allocs ∧ x.2 + 4 ≤ bytes.length := by
  obtain ⟨p,n⟩ := x
  obtain ⟨bytes,rest,shape,room,-⟩ := fits_split fits member
  exact ⟨bytes,shape.symm.subset (List.mem_cons_self ..),room⟩

/-- For every reachable heap, live pointer and size: size 0 frees the block; otherwise the heap is full, or the call
    returns a live block with the old contents. The other live allocations keep everything. -/
theorem krealloc_semantics {c : Client} {p old n : Nat} (reached : Reached heap_system c) (live : (p,old) ∈ c.live)
    (fits : Unwrapped n) :
    (n = 0 → ∃ heap, perform c (.krealloc p n) = .ok ⟨heap,forget p c.live⟩ ∧ Gone heap p ∧
      ∀ x ∈ forget p c.live, Kept c.heap heap x.1) ∧
    (n ≠ 0 → (perform c (.krealloc p n) = .error (.heap_full (rounded n)) ∧ Full c.heap p n) ∨
      ∃ heap q, perform c (.krealloc p n) = .ok ⟨heap,(q,n) :: forget p c.live⟩ ∧
        Separate ⟨heap,(q,n) :: forget p c.live⟩ ∧ slice heap.mem q (min old n) = slice c.heap.mem p (min old n) ∧
        (q = p ∨ Gone heap p) ∧ ∀ x ∈ forget p c.live, Kept c.heap heap x.1) := by
  obtain ⟨allocs,holds,listed⟩ := reached_tracks reached
  obtain ⟨bytes,rest,shape,others⟩ := fits_forget listed live
  have here := holds_perm holds shape.symm
  obtain ⟨bytes',member,room⟩ := fits_member listed live
  obtain rfl : bytes' = bytes := holds_unique here (shape.subset member) (List.mem_cons_self ..)
  obtain ⟨stored,-,-,length,-,low,-,-⟩ := holds_payload here
  have past : 16 ≤ p := Nat.le_trans (Nat.le_add_left _ _) low
  have absent : ∀ others, (p,others) ∉ rest := fun _ => holds_once here
  rw [Unwrapped] at fits
  have kept {heap : HeapState} {news : List (Nat × List UInt8)} (after : Holds header heap news) (all : ∀ y ∈ rest, y ∈ news) :
      ∀ x ∈ forget p c.live, Kept c.heap heap x.1 := by
    intro x member
    obtain ⟨bytes,there,-⟩ := fits_member others member
    exact kept_of_holds here (List.mem_cons_of_mem _ there) after (all _ there)
  constructor
  · rintro rfl
    obtain ⟨heap,freed,after,-⟩ := kfree_spec here
    refine ⟨heap,?_,gone_of_holds after past absent,kept after fun _ member => member⟩
    rw [perform,krealloc,if_pos rfl,freed]
    rfl
  · intro asked
    obtain ⟨enough,-,-⟩ := rounded_spec n (by omega)
    rcases @krealloc_spec _ n _ _ _ here (by omega) (by omega) with ⟨stays,fits_here⟩ | ⟨full,larger,blocks,rep,small⟩ |
      ⟨heap,q,bytes'',moved,after,room',same,-,differ⟩
    · right
      have tracks : Tracks header ⟨c.heap,(p,n) :: forget p c.live⟩ := ⟨_,here,.cons ⟨rfl,fits_here⟩ others⟩
      refine ⟨c.heap,p,?_,separate_of_spaced (spaced_of_tracks tracks),rfl,.inl rfl,kept here fun _ => List.mem_cons_of_mem _⟩
      rw [perform,stays]
      simp only [bind,Except.bind,record]
      rw [if_neg (by omega)]
      rfl
    · left
      have larger' : payload c.heap p < n + 4 := by
        have length : payload c.heap p = bytes'.length := length
        omega
      have nonempty : blocks ≠ [] := by
        rintro rfl
        have tiles := rep.tiles
        have ends := holds_payload here
        rw [span_nil] at tiles
        omega
      refine ⟨?_,larger',(free_shorter rep nonempty).1 small⟩
      rw [perform,full]
      rfl
    · right
      have tracks : Tracks header ⟨heap,(q,n) :: forget p c.live⟩ := ⟨_,after,.cons ⟨rfl,by dsimp only; omega⟩ others⟩
      obtain ⟨stored',-,-,-,-,low',-,-⟩ := holds_payload after
      have past' : 16 ≤ q := Nat.le_trans (Nat.le_add_left _ _) low'
      have least : min old n ≤ bytes'.length := by omega
      have same_length : bytes'.length ≤ bytes''.length := by
        have taken := congrArg List.length same
        rw [List.length_take] at taken
        omega
      refine ⟨heap,q,?_,separate_of_spaced (spaced_of_tracks tracks),?_,.inr (gone_of_holds after past ?_),
        kept after fun _ => List.mem_cons_of_mem _⟩
      · rw [perform,moved]
        simp only [bind,Except.bind,record]
        rw [if_neg (by omega)]
        rfl
      · rw [← slice_take _ _ (Nat.le_trans least same_length),stored',← slice_take c.heap.mem p least,stored,← same,
          List.take_take,Nat.min_eq_left least]
      · intro others member
        rcases List.mem_cons.1 member with equal | later
        · exact differ (Prod.mk.inj equal).1.symm
        · exact absent others later

/-- A heap of one page at 0x1000. -/
def one_page : Client := ⟨initialize_heap (fun _ => 0) 0x1000 1,[]⟩

/-- The same after one call. -/
def one_block : Client := ((perform one_page (.kmalloc 10)).toOption).getD one_page

theorem one_block_live : (0x1010,10) ∈ one_block.live := by
  have listed : one_block.live = [(0x1010,10)] := rfl
  rw [listed]
  exact List.mem_singleton_self _

theorem one_block_reached : Reached heap_system one_block := by
  have start : heap_system.start one_page := ⟨_,0x1000,1,by decide,by decide,by decide,rfl⟩
  have permitted : Permitted one_page (.kmalloc 10) := by
    change Unwrapped 10
    decide
  have performed : perform one_page (.kmalloc 10) = .ok one_block := rfl
  exact ⟨one_page,[.kmalloc 10],start,.step ⟨permitted,performed⟩ (.done _)⟩

/-- The block grows to 100 bytes and moves. -/
theorem krealloc_semantics_moves : ∃ heap, perform one_block (.krealloc 0x1010 100) = .ok ⟨heap,[(0x1030,100)]⟩ ∧
    slice heap.mem 0x1030 10 = slice one_block.heap.mem 0x1010 10 ∧ Gone heap 0x1010 := by
  have moved : ∃ heap, perform one_block (.krealloc 0x1010 100) = .ok ⟨heap,[(0x1030,100)]⟩ := ⟨_,rfl⟩
  obtain ⟨heap,moved⟩ := moved
  have small : Unwrapped 100 := by decide
  have other : forget 0x1010 one_block.live = [] := rfl
  rcases (krealloc_semantics one_block_reached one_block_live small).2 (by decide) with ⟨full,-⟩ | ⟨heap',q,same,-,begins,gone,-⟩
  · rw [moved] at full
    cases full
  · rw [moved,other] at same
    cases same
    refine ⟨heap,moved,begins,?_⟩
    rcases gone with stays | gone
    · exact absurd stays (by decide)
    · exact gone

/-- The kernel aborts when the page has no room for the new size. -/
theorem krealloc_full : ¬ ∀ (c : Client) (p old n : Nat), Reached heap_system c → (p,old) ∈ c.live → Unwrapped n →
    ∃ heap q, perform c (.krealloc p n) = .ok ⟨heap,(q,n) :: forget p c.live⟩ := by
  intro claim
  obtain ⟨heap,q,moved⟩ := claim one_block 0x1010 10 5000 one_block_reached one_block_live (by decide)
  have full : perform one_block (.krealloc 0x1010 5000) = .error (.heap_full 5008) := rfl
  rw [full] at moved
  cases moved

end MicroOS.HeapRealloc

import MicroOS.UserSpecs
import MicroOS.HeapRealloc

/-!
The heap of a program under its calls: what they do in every state reached, and that the
heap grows without moving anything, as long as there is a page above it that is not provided.
-/
namespace MicroOS.UserRuns
open Memory HeapCalls HeapSpecs Runs UserHeap UserGrowth UserSpecs
open Heap (HeapState)
open HeapRuns (Client record forget Fits Tracks Tiling Spaced segments fits_forget forget_null write_holds write_tracks spaced_of_tracks
  tiling_of_represents)
open HeapRealloc (Preserved preserved_of_holds fits_member)

inductive Request where
  | malloc (location : Location) (size : Nat)
  | free (ptr : Nat)
  | realloc (location : Location) (ptr size : Nat)
  | calloc (location : Location) (count size : Nat)
  | write (ptr offset : Nat) (byte : UInt8)

def serve (env : Environment) (depth : Nat) (c : Client) : Request → Except Stop Client
  | .malloc location size => do
    let (heap,p) ← malloc env depth location c.heap size
    return ⟨heap,record p size c.live⟩
  | .free ptr => do
    let heap ← free c.heap ptr
    return ⟨heap,forget ptr c.live⟩
  | .realloc location ptr size => do
    let (heap,p) ← realloc env depth location c.heap ptr size
    return ⟨heap,record p size (forget ptr c.live)⟩
  | .calloc location count size => do
    let (heap,p) ← calloc env depth location c.heap count size
    return ⟨heap,record p (count * size) c.live⟩
  | .write ptr offset byte =>
    .ok { c with heap := { c.heap with mem := storeByte c.heap.mem (ptr + offset) byte } }

/-- What a program may do: ask for sizes that do not wrap around, free or reallocate what it holds
    (or NULL), and write within a size it asked for. -/
def Allowed (c : Client) : Request → Prop
  | .malloc _ size => Unwrapped size
  | .free ptr => ptr = 0 ∨ ∃ n, (ptr,n) ∈ c.live
  | .realloc _ ptr size => (ptr = 0 ∨ ∃ n, (ptr,n) ∈ c.live) ∧ Unwrapped size
  | .calloc _ count size => Unwrapped (count * size)
  | .write ptr offset _ => ∃ n, (ptr,n) ∈ c.live ∧ offset < n

/-- A program from the call of `initialize_heap` on. -/
def user_heap (env : Environment) (depth : Nat) : System Client Request where
  start c := ∃ mem s, initialize_heap env mem HEAP_ADDRESS HEAP_PAGES = some s ∧ c = ⟨s,[]⟩
  step c request c' := Allowed c request ∧ serve env depth c request = .ok c'

/-- The allocation that a request is about. -/
def Touches (ptr : Nat) : Request → Prop
  | .free p => p = ptr
  | .realloc _ p _ => p = ptr
  | .write p _ _ => p = ptr
  | _ => False

/-- The pages for so many bytes. -/
def pages (n : Nat) : Nat := (n + 0xFFF) / 0x1000

/-- `mmap` provides the pages behind the heap, as many as a request can need: its own and those of a nested one. -/
def Provided (env : Environment) (s : HeapState) (size : Nat) : Prop :=
  ∀ i < pages (rounded size) + pages (rounded (rounded size)), ∀ m, env.mmap m (s.heap_end + i * 0x1000) ≠ none

section
variable {env : Environment} {lapic depth : Nat} {c : Client} {s heap : HeapState}

variable {allocs : List (Nat × List UInt8)} {x : Nat × Nat} {n p : Nat} {request : Request}

/-- The allocations that are listed after a call have been kept. -/
theorem kept_live {live : List (Nat × Nat)} {before after : List (Nat × List UInt8)} (holds : Holds header s before)
    (listed : List.Forall₂ Fits live allocs) (old : ∀ y ∈ allocs, y ∈ before) (holds' : Holds header heap after)
    (new : ∀ y ∈ allocs, y ∈ after) : ∀ x ∈ live, Preserved header s heap x.1 := by
  intro x member
  obtain ⟨bytes,there,-⟩ := fits_member listed member
  exact preserved_of_holds holds (old _ there) holds' (new _ there)

variable {ptr size : Nat}

theorem forget_mem {live : List (Nat × Nat)} (member : x ∈ live) (other : ptr ≠ x.1) : x ∈ forget ptr live := by
  apply (List.mem_eraseP_of_neg _).2 member
  simpa using fun same => other same.symm

/-- A write within one allocation leaves the others alone. -/
theorem write_preserves {offset : Nat} {byte : UInt8} (tracks : Tracks header c) (member : (ptr,n) ∈ c.live) (inside : offset < n)
    (live : x ∈ c.live) (other : ptr ≠ x.1) :
    Preserved header c.heap { c.heap with mem := storeByte c.heap.mem (ptr + offset) byte } x.1 := by
  obtain ⟨allocs,bytes,bytes',rest,holds,listed,shape,written,-⟩ := write_holds byte tracks member inside
  obtain ⟨others,there,-⟩ := fits_member listed live
  rcases List.mem_cons.1 (shape.subset there) with same | later
  · exact absurd (Prod.mk.inj same).1.symm other
  · exact preserved_of_holds holds there written (List.mem_cons_of_mem _ later)

/-- What a request leads to: every allocation that it is not about is kept, or `mmap` does not provide a page. -/
def Served (lapic : Nat) (c : Client) (request : Request) (result : Except Stop Client) : Prop :=
  (∃ c', result = .ok c' ∧ Tracks header c' ∧ Below lapic c'.heap ∧
    ∀ x ∈ c.live, ¬ Touches x.1 request → x ∈ c'.live ∧ Preserved header c.heap c'.heap x.1) ∨ result = .error .unmapped

theorem null_free {bytes : List UInt8} {live : List (Nat × List UInt8)} (holds : Holds header s ((p,bytes) :: live)) : p ≠ 0 := by
  obtain ⟨-,-,-,-,-,low,-,-⟩ := holds_payload holds
  have large := header.large
  omega

/-- A block that is handed out. -/
theorem served_new {s' : HeapState} {payload : List UInt8}
    (holds : Holds header c.heap allocs) (listed : List.Forall₂ Fits c.live allocs) (holds' : Holds header s' ((p,payload) :: allocs))
    (larger : size + 4 ≤ payload.length) (below' : Below lapic s') :
    Served lapic c request (.ok ⟨s',record p size c.live⟩) := by
  have new : record p size c.live = (p,size) :: c.live := if_neg (null_free holds')
  rw [new]
  refine .inl ⟨_,rfl,⟨_,holds',.cons ⟨rfl,larger⟩ listed⟩,below',fun x member _ => ⟨List.mem_cons_of_mem _ member,?_⟩⟩
  exact kept_live holds listed (fun _ => id) holds' (fun _ => List.mem_cons_of_mem _) x member

section
variable (contract : Contract env lapic) (nested : 3 ≤ depth) (tracks : Tracks header c) (below : Below lapic c.heap)
  (location : Location)
include contract nested tracks below

theorem malloc_served (fits : Unwrapped size) :
    Served lapic c (.malloc location size) (serve env depth c (.malloc location size)) := by
  obtain ⟨deeper,rfl⟩ := Nat.exists_eq_add_of_le' nested
  obtain ⟨allocs,holds,listed⟩ := id tracks
  by_cases asked : size = 0
  · subst asked
    refine .inl ⟨c,rfl,tracks,below,fun x member _ => ⟨member,?_⟩⟩
    exact kept_live holds listed (fun _ => id) holds (fun _ => id) x member
  · rcases malloc_spec contract location holds below asked with ⟨stopped,-⟩ | ⟨-,t,s',p,payload,made,extends_,holds',larger,place⟩
    · right
      rw [serve,stopped]
      rfl
    · have enough := (rounded_spec fits).1
      obtain ⟨inside,page⟩ := extends_.below
      obtain ⟨-,end_⟩ := place
      rw [serve,made]
      exact served_new holds listed holds' (by omega) ⟨by omega,by omega⟩

theorem calloc_served {count : Nat} (fits : Unwrapped (count * size)) :
    Served lapic c (.calloc location count size) (serve env depth c (.calloc location count size)) := by
  obtain ⟨deeper,rfl⟩ := Nat.exists_eq_add_of_le' nested
  obtain ⟨allocs,holds,listed⟩ := id tracks
  by_cases asked : count * size = 0
  · have nothing : calloc env (deeper + 3) location c.heap count size = .ok (c.heap,0) := by
      rw [calloc,asked]
      rfl
    refine .inl ⟨c,?_,tracks,below,fun x member _ => ⟨member,?_⟩⟩
    · rw [serve,nothing]
      rfl
    · exact kept_live holds listed (fun _ => id) holds (fun _ => id) x member
  · rcases calloc_spec contract location holds below asked fits with ⟨stopped,-⟩ | ⟨s',p,payload,made,holds',larger,-,below',-,-⟩
    · right
      rw [serve,stopped]
      rfl
    · have enough := (rounded_spec fits).1
      rw [serve,made]
      exact served_new holds listed holds' (by omega) below'

end

theorem free_served (tracks : Tracks header c) (below : Below lapic c.heap) (live : ptr = 0 ∨ ∃ n, (ptr,n) ∈ c.live) :
    ∃ heap, free c.heap ptr = .ok heap ∧ Tracks header ⟨heap,forget ptr c.live⟩ ∧ Below lapic heap ∧
      ∀ x ∈ c.live, ptr ≠ x.1 → x ∈ forget ptr c.live ∧ Preserved header c.heap heap x.1 := by
  obtain ⟨allocs,holds,listed⟩ := id tracks
  rcases live with rfl | ⟨n,member⟩
  · rw [forget_null tracks]
    exact ⟨c.heap,rfl,tracks,below,fun x member _ => ⟨member,kept_live holds listed (fun _ => id) holds (fun _ => id) x member⟩⟩
  · obtain ⟨bytes,rest,shape,listed'⟩ := fits_forget listed member
    have here := holds_perm holds shape.symm
    obtain ⟨heap,freed,holds',start,end_⟩ := free_spec here
    obtain ⟨inside,page⟩ := below
    refine ⟨heap,freed,⟨rest,holds',listed'⟩,⟨by omega,by omega⟩,fun x live other => ?_⟩
    have member' := forget_mem live other
    exact ⟨member',kept_live here listed' (fun _ => List.mem_cons_of_mem _) holds' (fun _ => id) x member'⟩

theorem realloc_served (contract : Contract env lapic) (nested : 3 ≤ depth) (tracks : Tracks header c) (below : Below lapic c.heap)
    (location : Location) (live : ptr = 0 ∨ ∃ n, (ptr,n) ∈ c.live) (fits : Unwrapped size) :
    Served lapic c (.realloc location ptr size) (serve env depth c (.realloc location ptr size)) := by
  by_cases asked : size = 0
  · subst asked
    obtain ⟨heap,freed,tracks',below',kept⟩ := free_served tracks below live
    refine .inl ⟨_,?_,tracks',below',kept⟩
    rw [serve,realloc,if_pos rfl,freed]
    rfl
  · rcases live with rfl | ⟨n,member⟩
    · have same : serve env depth c (.realloc location 0 size) = serve env depth c (.malloc location size) := by
        simp only [serve]
        rw [realloc,if_neg asked,if_pos rfl,forget_null tracks]
      rw [same]
      rcases malloc_served contract nested tracks below location fits with ⟨c',made,tracks',below',kept⟩ | stopped
      · exact .inl ⟨c',made,tracks',below',fun x live _ => kept x live id⟩
      · exact .inr stopped
    · obtain ⟨deeper,rfl⟩ := Nat.exists_eq_add_of_le' nested
      obtain ⟨allocs,holds,listed⟩ := tracks
      obtain ⟨bytes,rest,shape,listed'⟩ := fits_forget listed member
      have here := holds_perm holds shape.symm
      have enough := (rounded_spec fits).1
      have kept {heap : HeapState} {news : List (Nat × List UInt8)} (after : Holds header heap news) (all : ∀ y ∈ rest, y ∈ news)
          {q : Nat} (x : Nat × Nat) (live : x ∈ c.live) (other : ptr ≠ x.1) :
          x ∈ (q,size) :: forget ptr c.live ∧ Preserved header c.heap heap x.1 := by
        have member' := forget_mem live other
        exact ⟨List.mem_cons_of_mem _ member',kept_live here listed' (fun _ => List.mem_cons_of_mem _) after all x member'⟩
      rcases realloc_spec contract location here below asked fits with ⟨room,stays⟩ | ⟨stopped,-⟩ |
        ⟨s',q,bytes',moved,holds',room,-,below',-,-⟩
      · left
        refine ⟨⟨c.heap,(ptr,size) :: forget ptr c.live⟩,?_,⟨_,here,.cons ⟨rfl,room⟩ listed'⟩,below,
          kept here fun _ => List.mem_cons_of_mem _⟩
        rw [serve,stays]
        simp only [bind,Except.bind,record]
        rw [if_neg (null_free here)]
        rfl
      · right
        rw [serve,stopped]
        rfl
      · left
        refine ⟨⟨s',(q,size) :: forget ptr c.live⟩,?_,⟨_,holds',.cons ⟨rfl,by dsimp only; omega⟩ listed'⟩,below',
          kept holds' fun _ => List.mem_cons_of_mem _⟩
        rw [serve,moved]
        simp only [bind,Except.bind,record]
        rw [if_neg (null_free holds')]
        rfl

theorem request_served (contract : Contract env lapic) (nested : 3 ≤ depth) (tracks : Tracks header c) (below : Below lapic c.heap)
    (allowed : Allowed c request) : Served lapic c request (serve env depth c request) := by
  cases request with
  | malloc location size => exact malloc_served contract nested tracks below location allowed
  | free ptr =>
    obtain ⟨heap,freed,tracks',below',kept⟩ := free_served tracks below allowed
    refine .inl ⟨_,?_,tracks',below',kept⟩
    rw [serve,freed]
    rfl
  | realloc location ptr size => exact realloc_served contract nested tracks below location allowed.1 allowed.2
  | calloc location count size => exact calloc_served contract nested tracks below location allowed
  | write ptr offset byte =>
    obtain ⟨n,member,inside⟩ := allowed
    exact .inl ⟨_,rfl,write_tracks tracks member inside,⟨below.end_,below.page⟩,
      fun x live other => ⟨live,write_preserves tracks member inside live other⟩⟩

theorem initialize_heap_spec (contract : Contract env lapic) {mem : Bytes} (started : initialize_heap env mem HEAP_ADDRESS HEAP_PAGES = some s) :
    Holds header s [] ∧ Below lapic s := by
  obtain ⟨u,mapped,new⟩ := Option.bind_eq_some_iff.1 started
  obtain rfl := Option.some.inj new
  refine ⟨new_heap_spec u.mem HEAP_ADDRESS HEAP_PAGES (by decide) (by decide) (by decide) (by decide) (by decide) (by decide),?_,?_⟩
  · exact contract.above
  · change 0x1000 ∣ HEAP_ADDRESS + HEAP_PAGES * 0x1000
    decide

theorem reached_heap (contract : Contract env lapic) (nested : 3 ≤ depth) (reached : Reached (user_heap env depth) c) :
    Tracks header c ∧ Below lapic c.heap := by
  have start : ∀ c, (user_heap env depth).start c → Tracks header c ∧ Below lapic c.heap := by
    rintro c ⟨mem,s,started,rfl⟩
    obtain ⟨holds,below⟩ := initialize_heap_spec contract started
    exact ⟨⟨[],holds,.nil⟩,below⟩
  refine reached_invariant start ?_ reached
  rintro c request c' ⟨tracks,below⟩ ⟨allowed,served⟩
  rcases request_served contract nested tracks below allowed with ⟨c'',done,tracks',below',-⟩ | stopped
  · rw [served] at done
    cases done
    exact ⟨tracks',below'⟩
  · rw [served] at stopped
    cases stopped

theorem pages_cover (pages_fit : n ≤ 2 ^ 32 - 0x1000) : whole_pages n = pages n * 0x1000 := by
  rw [whole_pages,pages]
  split
  · rw [wrap_of_lt (by omega)]
    omega
  · omega

/-- If the heap is stuck, `mmap` does not provide one of the pages. -/
theorem stuck_refused (contract : Contract env lapic) {blocks : List HeapChain.Block} {live : List (Nat × List UInt8)} (here : Listed s live blocks)
    (below : Below lapic s) (stuck : Stuck env s (rounded size)) (asked : rounded size ≠ 0) : ¬ Provided env s size := by
  intro provided
  have word := rounded_word size
  have inside := below.end_
  have page := below.page
  have last := contract.page
  have fits := contract.fits
  -- the page of the local APIC is among the pages of a request that is too large
  have fit : rounded size ≤ 2 ^ 32 - 0x1000 := by
    by_contra large
    refine provided ((lapic - s.heap_end) / 0x1000) ?_ s.mem ?_
    · rw [pages]
      omega
    · rw [Nat.div_mul_cancel (Nat.dvd_sub last page),Nat.add_sub_cancel' inside]
      exact contract.refused s.mem
  have cover := pages_cover fit
  have some_page : 0 < pages (rounded size) := by
    rw [pages]
    omega
  rcases stuck with ⟨-,none_grown | ⟨t,grown,small,none_grown⟩⟩
  · rcases expand_heap_none contract inside page none_grown with nothing | ⟨i,less,m,refused⟩
    · omega
    · exact provided i (by omega) m refused
  · have first := expand_grown contract here below word grown
    have end_ := first.end_
    have inside' := first.below.end_
    have enough := first.enough
    have unwrapped : Unwrapped (rounded size) := by
      rw [Unwrapped]
      omega
    obtain ⟨more,less,word'⟩ := rounded_spec unwrapped
    have tiles := here.rep.tiles
    have positive := here.rep.positive
    have cover' := pages_cover (n := rounded (rounded size)) (by omega)
    rcases expand_heap_none contract inside' first.below.page none_grown with nothing | ⟨i,less,m,refused⟩
    · have some_page' : 0 < pages (rounded (rounded size)) := by
        rw [pages]
        omega
      omega
    · refine provided (pages (rounded size) + i) (by omega) m ?_
      rw [show s.heap_end + (pages (rounded size) + i) * 0x1000 = t.heap_end + i * 0x1000 by omega]
      exact refused

/-- What is true of a heap after a call: the segments tile it without free neighbours, and the live allocations are
    apart. -/
structure Intact (c : Client) : Prop where
  tiling : Tiling header c.heap
  spaced : Spaced header c

theorem intact_of_tracks (tracks : Tracks header c) : Intact c := by
  obtain ⟨allocs,⟨blocks,rep,sound,nonempty,-⟩,-⟩ := id tracks
  exact ⟨tiling_of_represents rep sound nonempty,spaced_of_tracks tracks⟩

/-- In every heap reached below the page of the local APIC: `malloc` returns, within two nested calls; with the pages
    provided it returns a block. A heap that has grown is tiled and has kept every allocation, and so it is after every
    request. -/
theorem heap_growth (contract : Contract env lapic) (nested : 3 ≤ depth) (reached : Reached (user_heap env depth) c) :
    (∀ location size, ∃ result, (∀ deeper, malloc env (deeper + 3) location c.heap size = result) ∧
      ((∃ heap p, result = .ok (heap,p)) ∨ result = .error .unmapped)) ∧
    (∀ location size, Unwrapped size → size ≠ 0 → Provided env c.heap size → ∃ heap p, p ≠ 0 ∧
      (∀ deeper, malloc env (deeper + 3) location c.heap size = .ok (heap,p)) ∧ Intact ⟨heap,(p,size) :: c.live⟩ ∧
      ∀ x ∈ c.live, Preserved header c.heap heap x.1) ∧
    (∀ length heap, length < 2 ^ 32 → expand_heap env c.heap length = some heap → length ≤ heap.heap_end - c.heap.heap_end ∧
      heap.heap_start = c.heap.heap_start ∧ Intact ⟨heap,c.live⟩ ∧ ∀ x ∈ c.live, Preserved header c.heap heap x.1) ∧
    ∀ request, Allowed c request → serve env depth c request = .error .unmapped ∨
      ∃ c', serve env depth c request = .ok c' ∧ Intact c' ∧
        ∀ x ∈ c.live, ¬ Touches x.1 request → x ∈ c'.live ∧ Preserved header c.heap c'.heap x.1 := by
  obtain ⟨tracks,below⟩ := reached_heap contract nested reached
  obtain ⟨allocs,holds,listed⟩ := id tracks
  refine ⟨?_,?_,?_,?_⟩
  · intro location size
    by_cases asked : size = 0
    · exact ⟨.ok (c.heap,0),fun deeper => by rw [asked]; rfl,.inl ⟨c.heap,0,rfl⟩⟩
    · rcases malloc_spec contract location holds below asked with ⟨stopped,-⟩ | ⟨-,t,s',p,payload,made,-⟩
      · exact ⟨_,stopped,.inr rfl⟩
      · exact ⟨_,made,.inl ⟨s',p,rfl⟩⟩
  · intro location size fits asked provided
    obtain ⟨enough,-,-⟩ := rounded_spec fits
    rcases malloc_spec contract location holds below asked with ⟨-,stuck⟩ | ⟨-,t,s',p,payload,made,-,holds',larger,-⟩
    · obtain ⟨blocks,here⟩ := holds_listed.1 holds
      exact absurd provided (stuck_refused contract here below stuck (by omega))
    · refine ⟨s',p,null_free holds',made,intact_of_tracks ⟨_,holds',.cons ⟨rfl,by dsimp only; omega⟩ listed⟩,?_⟩
      exact kept_live holds listed (fun _ => id) holds' (fun _ => List.mem_cons_of_mem _)
  · intro length heap word grown
    obtain ⟨blocks,here⟩ := holds_listed.1 holds
    have more := expand_grown contract here below word grown
    obtain ⟨front,k,there,-⟩ := more.last
    have holds' := holds_listed.2 ⟨_,there⟩
    have end_ := more.end_
    have enough := more.enough
    exact ⟨by omega,more.start,intact_of_tracks ⟨allocs,holds',listed⟩,kept_live holds listed (fun _ => id) holds' (fun _ => id)⟩
  · intro request allowed
    rcases request_served contract nested tracks below allowed with ⟨c',done,tracks',-,kept⟩ | stopped
    · exact .inr ⟨c',done,intact_of_tracks tracks',kept⟩
    · exact .inl stopped

end

/-- An `mmap` that provides every page but that of the local APIC. -/
def all_pages : Environment where
  mmap m a := if a = 0xFEE00000 then none else some (fun x => if a ≤ x ∧ x < a + 0x1000 then 0 else m x)
  heap_c := ⟨0,0,0⟩

theorem all_pages_contract : Contract all_pages 0xFEE00000 where
  kept m a m' provided x outside := by
    rw [all_pages] at provided
    dsimp only at provided
    split at provided
    · cases provided
    · obtain rfl := Option.some.inj provided
      exact if_neg (by omega)
  refused m := by
    rw [all_pages]
    dsimp only
    rw [if_pos rfl]
  above := by decide
  page := by decide
  fits := by decide

theorem all_pages_start : ∃ s, initialize_heap all_pages (fun _ => 0) HEAP_ADDRESS HEAP_PAGES = some s ∧ s.heap_end = 0xD0010000 :=
  ⟨_,rfl,rfl⟩

/-- A block that is larger than the 16 pages at the start. -/
theorem heap_growth_block : ∃ s, initialize_heap all_pages (fun _ => 0) HEAP_ADDRESS HEAP_PAGES = some s ∧
    ∃ heap p, p ≠ 0 ∧ malloc all_pages 3 ⟨0,0,0⟩ s 70000 = .ok (heap,p) ∧ Intact ⟨heap,[(p,70000)]⟩ := by
  obtain ⟨s,started,end_⟩ := all_pages_start
  have reached : Reached (user_heap all_pages 3) ⟨s,[]⟩ := ⟨_,[],⟨_,s,started,rfl⟩,.done _⟩
  have provided : Provided all_pages s 70000 := by
    intro i less m
    have few : i < 18 + 18 := less
    rw [end_,all_pages]
    dsimp only
    rw [if_neg (by omega)]
    exact Option.some_ne_none _
  obtain ⟨heap,p,some_block,made,intact,-⟩ :=
    (heap_growth all_pages_contract (Nat.le_refl 3) reached).2.1 ⟨0,0,0⟩ 70000 (by decide) (by decide) provided
  exact ⟨s,started,heap,p,some_block,made 0,intact⟩

/-- `n` pages of zeros from `a` on. -/
def cleared (a n : Nat) (m : Bytes) : Bytes := fun x => if a ≤ x ∧ x < a + n * 0x1000 then 0 else m x

/-- An `mmap` that provides every page. -/
def every_page : Environment where
  mmap m a := some (cleared a 1 m)
  heap_c := ⟨0,0,0⟩

theorem map_every_page {n : Nat} {s : HeapState} (fits : s.heap_end + n * 0x1000 ≤ 2 ^ 32) (some_page : n ≠ 0) :
    map_pages every_page n s =
      some { s with mem := cleared s.heap_end n s.mem, heap_end := wrap (s.heap_end + n * 0x1000) } := by
  induction n generalizing s with
  | zero => exact absurd rfl some_page
  | succ n ih =>
    have one : map_pages every_page (n + 1) s =
        map_pages every_page n { s with mem := cleared s.heap_end 1 s.mem, heap_end := wrap (s.heap_end + 0x1000) } := rfl
    rw [one]
    rcases Nat.eq_zero_or_pos n with rfl | more
    · rfl
    · have next : wrap (s.heap_end + 0x1000) = s.heap_end + 0x1000 := wrap_of_lt (by omega)
      rw [next]
      have rest := @ih { s with mem := cleared s.heap_end 1 s.mem, heap_end := s.heap_end + 0x1000 }
      dsimp only at rest
      rw [rest (by omega) (by omega)]
      have joined : cleared (s.heap_end + 0x1000) n (cleared s.heap_end 1 s.mem) = cleared s.heap_end (n + 1) s.mem := by
        funext x
        simp only [cleared]
        split_ifs <;> first | rfl | omega
      have end_ : s.heap_end + 0x1000 + n * 0x1000 = s.heap_end + (n + 1) * 0x1000 := by omega
      rw [joined,end_]

/-- The heap of 16 pages. -/
def new : HeapState := Segments.new_heap header (cleared HEAP_ADDRESS HEAP_PAGES fun _ => 0) HEAP_ADDRESS HEAP_PAGES

theorem new_started : initialize_heap every_page (fun _ => 0) HEAP_ADDRESS HEAP_PAGES = some new := by
  rw [initialize_heap,map_every_page (by decide) (by decide)]
  rfl

/-- A size whose growth ends with the address space. -/
def last_size : Nat := 0x2FFEFFF8

theorem last_pages : rounded last_size = 805240828 ∧ whole_pages (rounded last_size) = 0x2FFF0000 := by decide

/-- The heap has grown to the end of the address space. -/
def full : HeapState :=
  let s := { new with mem := cleared new.heap_end 0x2FFF0 new.mem, heap_end := 0 }
  let s := Segments.setFree header s new.heap_end true
  let s := s.setLast new.heap_end s.last_hdr
  let s := s.setNext s.last_hdr new.heap_end
  let s := { s with last_hdr := new.heap_end }
  let s := s.setNext new.heap_end 0
  let s := s.setLength new.heap_end (0x2FFF0000 - 28)
  hsh_combine_backward s new.heap_end

theorem full_grown : expand_heap every_page new (rounded last_size) = some full := by
  rw [expand_heap,last_pages.2]
  dsimp only
  rw [if_neg (by decide),map_every_page (by decide) (by decide)]
  rfl

/-- The block for the last size, and the heap with it. -/
def last_block : HeapState × Nat :=
  prepare_segment every_page.heap_c (hsh_split full HEAP_ADDRESS (rounded (rounded last_size))).1 HEAP_ADDRESS

theorem last_made : malloc every_page 3 ⟨0,0,0⟩ new last_size = .ok last_block := by
  have intact : check_heap_canaries new = .ok () := by
    rw [check_heap_canaries,HeapState.walk,Segments.check_canaries,if_neg (by decide +kernel),if_pos (by decide +kernel)]
  have shorter : Segments.search header (note ⟨0,0,0⟩) new (rounded last_size) new.walk new.heap_start = .ok none := by
    rw [HeapState.walk,Segments.search,if_neg (by decide +kernel),if_neg (by decide +kernel),if_pos (by decide +kernel)]
  have intact' : check_heap_canaries full = .ok () := by
    rw [check_heap_canaries,HeapState.walk,Segments.check_canaries,if_neg (by decide +kernel),if_pos (by decide +kernel)]
  have found : Segments.search header (note every_page.heap_c) full (rounded (rounded last_size)) full.walk full.heap_start =
      .ok (some last_block) := by
    rw [HeapState.walk,Segments.search,if_pos (by decide +kernel)]
    rfl
  rw [malloc,if_neg (by decide),intact,shorter,full_grown]
  dsimp only
  rw [malloc,if_neg (by decide),intact',found]

/-- With every page of the address space provided, the heap's end wraps around to NULL. The segment of the next growth is
    at NULL, where the list ends: its pages are lost. -/
theorem growth_lost : ∃ c t, Reached (user_heap every_page 3) c ∧ expand_heap every_page c.heap 70000 = some t ∧
    c.heap.heap_end = 0 ∧ t.heap_end = 0x12000 ∧ segments t = segments c.heap ∧ ¬ Tiling header t := by
  have step : (user_heap every_page 3).step ⟨new,[]⟩ (.malloc ⟨0,0,0⟩ last_size)
      ⟨last_block.1,record last_block.2 last_size []⟩ := by
    have small : Unwrapped last_size := by decide
    refine ⟨small,?_⟩
    rw [serve,last_made]
    rfl
  refine ⟨_,_,⟨_,_,⟨_,new,new_started,rfl⟩,.step step (.done _)⟩,rfl,?_,?_,?_,?_⟩
  · decide +kernel
  · decide +kernel
  · decide +kernel
  · intro tiling
    exact absurd tiling.final.1 (by decide +kernel)

end MicroOS.UserRuns

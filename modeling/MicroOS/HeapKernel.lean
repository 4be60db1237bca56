import MicroOS.HeapSpecs

/-!
The kernel's heap functions as the functions on segments with headers of 16 bytes, and
what `kmalloc`, `kfree` and `krealloc` do to the list of allocations.
-/
namespace MicroOS.HeapKernel
open Memory Heap Segments HeapChain HeapOps HeapCalls HeapSpecs

/-- `heap_segment_header_t`; all lengths in the kernel's heap are multiples of its size. -/
def header : Header := ⟨16,16,by decide,by decide,by decide⟩

/-- The kernel notes nothing in a header. -/
def quiet (m : Bytes) (_ : Nat) : Bytes := m

theorem quiet_notes : Notes header quiet := fun _ _ _ _ _ _ _ _ => rfl

theorem check_heap_canaries_eq (s : HeapState) (fuel seg : Nat) :
    check_heap_canaries_from s fuel seg = check_canaries header s fuel seg := by
  induction fuel generalizing seg with
  | zero => rfl
  | succ fuel ih =>
    rw [check_heap_canaries_from,check_canaries,ih]
    rfl

/-- What the end of the search means for `kmalloc`. -/
def found (size : Nat) : Option (HeapState × Nat) → Except Panic (HeapState × Nat)
  | some result => .ok result
  | none => .error (.heap_full size)

theorem kmalloc_from_eq (s : HeapState) (size fuel seg : Nat) :
    kmalloc_from s size fuel seg = search header quiet s size fuel seg >>= found size := by
  induction fuel generalizing seg with
  | zero => rfl
  | succ fuel ih =>
    have flag : s.free seg = free header s seg := rfl
    rw [kmalloc_from,search,ih,flag]
    split
    · rfl
    · split
      · rfl
      · split
        · rfl
        · rfl

theorem setFree_eq (s : HeapState) (seg : Nat) (b : Bool) : s.setFree seg b = setFree header s seg b := rfl

theorem combine_forward_eq (s : HeapState) (this : Nat) : hsh_combine_forward s this = combine_forward header s this := rfl

theorem combine_backward_eq (s : HeapState) (this : Nat) : hsh_combine_backward s this = combine_backward header s this := rfl

theorem kfree_eq (s : HeapState) (address : Nat) :
    kfree s address = if address = 0 then .ok s else give_back header s address := by
  have size : header.size = 16 := rfl
  rw [kfree,give_back,check_heap_canaries,check_heap_canaries_eq,size]
  simp only [setFree_eq,combine_forward_eq,combine_backward_eq]

section
variable {s : HeapState} {size : Nat}

theorem rounded_spec (size : Nat) (fits : size + 4 + 16 ≤ 2 ^ 32) :
    size + 4 ≤ rounded size ∧ 16 ∣ rounded size ∧ rounded size < size + 4 + 16 :=
  rounded_up_spec (by decide) fits

/-- What is asked of the search: nothing at all if the size wrapped around. -/
theorem rounded_sized (size : Nat) : rounded size = 0 ∨ Sized header (rounded size) := by
  have aligned : 16 ∣ rounded size := by
    have sum : rounded size = if wrap (size + 4) % 0x10 > 0 then wrap (wrap (size + 4) - wrap (size + 4) % 0x10 + 0x10)
        else wrap (size + 4) := rfl
    rw [sum,wrap,wrap]
    by_cases part : (size + 4) % 2 ^ 32 % 0x10 > 0
    · rw [if_pos part]
      omega
    · rw [if_neg part]
      omega
  by_cases none_asked : rounded size = 0
  · exact .inl none_asked
  · exact .inr ⟨aligned,Nat.le_of_dvd (by omega) aligned⟩

/-- Some free block is at least this long. -/
def Room (h : Header) (s : HeapState) (size : Nat) : Prop :=
  ∃ blocks n, Represents h s blocks ∧ .free n ∈ blocks ∧ size ≤ n

section
variable {live : List (Nat × List UInt8)}

/-- `kmalloc` returns a new allocation if there is a free block for it, and otherwise the heap is full. -/
theorem kmalloc_search (holds : Holds header s live) (asked : size ≠ 0) :
    (kmalloc s size = .error (.heap_full (rounded size)) ∧
      ∃ blocks, Represents header s blocks ∧ ∀ n, .free n ∈ blocks → n < rounded size) ∨
      ∃ s' p, kmalloc s size = .ok (s',p) ∧ Allocated header s s' live p (rounded size) ∧ Room header s (rounded size) := by
  obtain ⟨blocks,rep,sound,nonempty,listed⟩ := holds
  have checked := check_ok rep sound nonempty
  have length := walk_enough rep
  obtain ⟨c,post,rfl⟩ := List.exists_cons_of_ne_nil nonempty
  have unfolded : kmalloc s size = search header quiet s (rounded size) s.walk (s.heap_start + span header []) >>= found (rounded size) := by
    rw [kmalloc,if_neg asked,check_heap_canaries,check_heap_canaries_eq,checked]
    exact kmalloc_from_eq _ _ _ _
  have enough : post.length < s.walk := by
    rw [List.length_cons] at length
    omega
  have enough : post.length < s.walk := by
    rw [List.length_cons] at length
    omega
  rw [unfolded]
  rcases @search_spec header s (rounded size) quiet quiet_notes [] post c s.walk rep sound (rounded_sized size) enough with
    ⟨full,small⟩ | ⟨s',p,returned,⟨payload,holds,room,place⟩,n,member,fits⟩
  · left
    rw [full]
    exact ⟨rfl,_,rep,small⟩
  · right
    refine ⟨s',p,?_,⟨payload,holds_perm holds (listed.cons _),room,place⟩,_,n,rep,member,fits⟩
    rw [returned]
    rfl

/-- `kmalloc` returns a new allocation of at least the requested size and its
    canary, or the heap is full. -/
theorem kmalloc_spec (holds : Holds header s live) (asked : 0 < size) :
    kmalloc s size = .error (.heap_full (rounded size)) ∨
      ∃ s' p, kmalloc s size = .ok (s',p) ∧ Allocated header s s' live p (rounded size) := by
  rcases kmalloc_search holds (Nat.ne_of_gt asked) with ⟨full,_⟩ | ⟨s',p,made,allocated,_⟩
  · exact .inl full
  · exact .inr ⟨s',p,made,allocated⟩

/-- `kfree` takes its allocation away and nothing else. -/
theorem kfree_spec {p : Nat} {payload : List UInt8}
    (holds : Holds header s ((p,payload) :: live)) : ∃ s', kfree s p = .ok s' ∧ Holds header s' live ∧ SamePlace s s' := by
  obtain ⟨-,-,-,-,-,low,-,-⟩ := holds_payload holds
  have past : 16 ≤ p := Nat.le_trans (Nat.le_add_left _ _) low
  rw [kfree_eq,if_neg (by omega)]
  exact give_back_spec holds

/-- `krealloc` of an allocation: it stays where it is, or its bytes move to a longer
    one and it is freed, or the heap is full. -/
theorem krealloc_spec {p : Nat} {payload : List UInt8}
    (holds : Holds header s ((p,payload) :: live)) (asked : 0 < size) (fits : size + 4 + 16 ≤ 2 ^ 32) :
    (krealloc s p size = .ok (s,p) ∧ size + 4 ≤ payload.length) ∨
      (krealloc s p size = .error (.heap_full (rounded size)) ∧ payload.length < size + 4 ∧
        ∃ blocks, Represents header s blocks ∧ ∀ n, .free n ∈ blocks → n < rounded size) ∨
      ∃ s' q room, krealloc s p size = .ok (s',q) ∧ Holds header s' ((q,room) :: live) ∧ rounded size ≤ room.length ∧
        room.take payload.length = payload ∧ SamePlace s s' ∧ q ≠ p := by
  obtain ⟨-,-,aligned,length,-,low,high,below⟩ := holds_payload holds
  have large : 16 ≤ p := Nat.le_trans (Nat.le_add_left _ _) low
  have length : s.length (p - 16) = payload.length := length
  obtain ⟨enough,multiple,-⟩ := rounded_spec size fits
  have words : header.size = 16 := rfl
  have segment : wrap (p + 2 ^ 32 - 16) = p - 16 := segment_of (h := header) p large (by omega)
  have sum : wrap (size + 4) = size + 4 := wrap_of_lt (by omega)
  by_cases inPlace : size + 4 ≤ payload.length
  · left
    rw [krealloc,segment,sum,length,if_neg (by omega),if_neg (by omega),if_pos inPlace]
    exact ⟨rfl,inPlace⟩
  · right
    have moves : krealloc s p size = kmalloc s size >>= fun made =>
        if made.2 = 0 then return made
        else do
          let s'' ← kfree { made.1 with mem := memcpy made.1.mem made.2 p (made.1.length (p - 16)) } p
          return (s'',made.2) := by
      rw [krealloc,segment,sum,length,if_neg (by omega),if_neg (by omega),if_neg inPlace]
    rcases kmalloc_search holds (Nat.ne_of_gt asked) with ⟨full,small⟩ | ⟨s',q,made,⟨room,holds',large',place⟩,_⟩
    · left
      rw [moves,full]
      exact ⟨rfl,by omega,small⟩
    · right
      obtain ⟨-,-,-,-,-,low',-,-⟩ := holds_payload holds'
      obtain ⟨-,-,-,length',-⟩ := holds_payload (holds_perm holds' (.swap _ _ _))
      have length' : s'.length (p - 16) = payload.length := length'
      have past : 16 ≤ q := Nat.le_trans (Nat.le_add_left _ _) low'
      obtain ⟨room',copied,same_length,same⟩ := holds_copy holds' (by omega)
      obtain ⟨s'',freed,holds'',place'⟩ := kfree_spec (holds_perm copied (.swap _ _ _))
      have apart := holds_apart holds'
      rw [List.pairwise_cons] at apart
      have beside := apart.1 (p,payload) (List.mem_cons_self ..)
      have differ : q ≠ p := by
        rintro rfl
        have positive : 16 ≤ header.size := header.large
        dsimp only at beside
        omega
      refine ⟨s'',q,room',?_,holds'',by omega,same,⟨place'.1.trans place.1,place'.2.trans place.2⟩,differ⟩
      rw [moves,made]
      simp only [bind,Except.bind]
      rw [if_neg (by omega),length',freed]
      rfl

end

/-- A new heap is one free block. -/
theorem initialize_heap_spec (mem : Bytes) (heap_start page_count : Nat) (positive : 0 < heap_start)
    (pages : 0 < page_count) (fits : heap_start + page_count * 0x1000 < 2 ^ 32) :
    Holds header (initialize_heap mem heap_start page_count) [] :=
  new_heap_spec mem heap_start page_count positive pages fits (by decide) (Nat.le_add_left _ _) (by decide)

end
end MicroOS.HeapKernel

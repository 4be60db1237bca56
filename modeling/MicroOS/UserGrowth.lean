import MicroOS.UserHeap

/-!
Growing the heap: what `expand_heap` does to the list of blocks. The new pages become one
free block at the end, or join the free block that was there.
-/
namespace MicroOS.UserGrowth
open Memory Heap Segments HeapChain HeapOps HeapCalls HeapSpecs
open UserHeap

/-- What the heap relies on: `mmap` writes to no page but the one it provides, and it does not provide the page
    of the local APIC, which the kernel has mapped for itself above the heap. -/
structure Contract (env : Environment) (lapic : Nat) : Prop where
  kept : ∀ m a m', env.mmap m a = some m' → ∀ x, x < a ∨ a + 0x1000 ≤ x → m' x = m x
  refused : ∀ m, env.mmap m lapic = none
  above : HEAP_ADDRESS + HEAP_PAGES * 0x1000 ≤ lapic
  page : 0x1000 ∣ lapic
  fits : lapic < 2 ^ 32

section
variable {env : Environment} {lapic : Nat} {s t : HeapState}

theorem Contract.apart (contract : Contract env lapic) {m m' : Bytes} {a : Nat} (provided : env.mmap m a = some m') : a ≠ lapic := by
  rintro rfl
  rw [contract.refused] at provided
  cases provided

/-- The pages that were mapped lie behind the heap and below the local APIC. -/
theorem map_pages_spec (contract : Contract env lapic) {n : Nat} (below : s.heap_end ≤ lapic) (page : 0x1000 ∣ s.heap_end)
    (mapped : map_pages env n s = some t) :
    s.heap_end + n * 0x1000 ≤ lapic ∧ t.heap_end = s.heap_end + n * 0x1000 ∧ t.heap_start = s.heap_start ∧
      t.last_hdr = s.last_hdr ∧ Agree s.mem t.mem 0 s.heap_end := by
  induction n generalizing s with
  | zero =>
    obtain rfl := Option.some.inj mapped
    exact ⟨by omega,by omega,rfl,rfl,agree_refl _ _ _⟩
  | succ n ih =>
    have fits := contract.fits
    obtain ⟨whole,last⟩ := And.intro contract.page page
    rw [map_pages] at mapped
    obtain ⟨mem,provided,rest⟩ := Option.bind_eq_some_iff.1 mapped
    have apart := contract.apart provided
    have next : wrap (s.heap_end + 0x1000) = s.heap_end + 0x1000 := wrap_of_lt (by omega)
    obtain ⟨bound,end_,start,last_hdr,same⟩ := ih (s := { s with mem := mem, heap_end := wrap (s.heap_end + 0x1000) })
      (by simp only [next]; omega) (by simp only [next]; omega) rest
    simp only [next] at bound end_ same
    refine ⟨by omega,by omega,start,last_hdr,?_⟩
    intro x low high
    rw [same x low (by omega)]
    exact contract.kept _ _ _ provided x (.inl (by omega))

/-- If the pages are not mapped, `mmap` does not provide one of them. -/
theorem map_pages_none (contract : Contract env lapic) {n : Nat} (below : s.heap_end ≤ lapic) (page : 0x1000 ∣ s.heap_end)
    (stopped : map_pages env n s = none) : ∃ i < n, ∃ m, env.mmap m (s.heap_end + i * 0x1000) = none := by
  induction n generalizing s with
  | zero => cases stopped
  | succ n ih =>
    rw [map_pages] at stopped
    cases provided : env.mmap s.mem s.heap_end with
    | none => exact ⟨0,by omega,s.mem,by simpa using provided⟩
    | some mem =>
      have fits := contract.fits
      obtain ⟨whole,last⟩ := And.intro contract.page page
      have apart := contract.apart provided
      have next : wrap (s.heap_end + 0x1000) = s.heap_end + 0x1000 := wrap_of_lt (by omega)
      rw [provided] at stopped
      obtain ⟨i,inside,m,refused⟩ := ih (s := { s with mem := mem, heap_end := wrap (s.heap_end + 0x1000) })
        (by simp only [next]; omega) (by simp only [next]; omega) stopped
      simp only [next] at refused
      have place : s.heap_end + (i + 1) * 0x1000 = s.heap_end + 0x1000 + i * 0x1000 := by omega
      refine ⟨i + 1,by omega,m,?_⟩
      rw [place]
      exact refused

end

section
variable {h : Header} {s : HeapState} {front : List Block} {c : Block}

/-- The header of a block after its `next` was stored. -/
theorem at_next {m m' : Bytes} {prev next next' a : Nat} {b : Block} (here : At h m prev next a b)
    (before : Agree m m' a (a + 4)) (after : Agree m m' (a + 8) (a + h.size + b.length)) (linked : load32 m' (a + 4) = next') :
    At h m' prev next' a b := by
  have large := h.large
  refine ⟨?_,linked,?_,?_,?_⟩
  · exact (load32_agree before).trans here.length
  · exact (load32_agree (agree_mono after (by omega) (by omega))).trans here.last
  · exact (after _ (by omega) (by omega)).trans here.free
  · rintro bytes rfl
    exact (slice_agree (agree_mono after (by omega) (by simp))).trans (here.payload bytes rfl)

/-- The state with one more free block of `n` bytes behind its last one. -/
def appended (h : Header) (m : Bytes) (s : HeapState) (n : Nat) : HeapState :=
  { s with
    mem := store32 (store32 (store32 (store32 (storeByte m (s.heap_end + (h.size - 4)) 1) (s.heap_end + 8) s.last_hdr)
      (s.last_hdr + 4) s.heap_end) (s.heap_end + 4) 0) s.heap_end n
    heap_end := s.heap_end + h.size + n
    last_hdr := s.heap_end }

theorem appended_blocks {m : Bytes} {n : Nat} (rep : Represents h s (front ++ [c])) (same : Agree s.mem m 0 s.heap_end)
    (fits : s.heap_end + h.size + n < 2 ^ 32) : Represents h (appended h m s n) ((front ++ [c]) ++ [.free n]) := by
  have large := h.large
  have ends := span_le_end rep
  have final := rep.final
  have positive := rep.positive
  have here := header_at rep
  obtain ⟨before,_⟩ := (chain_append front c []).1 rep.chain
  rw [lastStart_append] at final
  have last : s.last_hdr = s.heap_start + span h front := final
  rw [span_nil] at ends
  have below {lo hi : Nat} (inside : hi ≤ s.last_hdr + 4 ∨ s.last_hdr + 8 ≤ lo) (low : hi ≤ s.heap_end) :
      Agree s.mem (appended h m s n).mem lo hi := by
    intro x from_lo to_hi
    simp only [appended]
    rw [store32_outside _ _ _ (by omega),store32_outside _ _ _ (by omega),store32_outside _ _ _ (by omega),
      store32_outside _ _ _ (by omega),storeByte_outside _ _ _ (by omega)]
    exact same x (by omega) (by omega)
  have shape : (front ++ [c]) ++ [.free n] = front ++ c :: [.free n] := List.append_assoc _ _ _
  have place : s.heap_start + span h front + h.size + c.length = s.heap_end := by omega
  have start : (appended h m s n).heap_start = s.heap_start := rfl
  rw [shape]
  refine ⟨(chain_append front c _).2 ⟨?_,?_,?_,trivial⟩,?_,?_,positive,rep.margin,fits⟩
  · rw [start]
    exact chain_agree (below (by omega) (by omega)) before
  · have link : load32 (appended h m s n).mem (s.heap_start + span h front + 4) = s.heap_end := by
      rw [← last]
      simp only [appended]
      rw [load32_store32_apart _ _ (by omega),load32_store32_apart _ _ (by omega),load32_store32 _ _ (by omega)]
    have moved := at_next here (below (by omega) (by omega)) (below (by omega) (by omega)) link
    rw [start]
    simpa [place] using moved
  · rw [start,place]
    refine ⟨?_,?_,?_,?_,?_⟩
    · exact load32_store32 _ _ (by omega)
    · simp only [appended]
      rw [load32_store32_apart _ _ (by omega),load32_store32 _ _ (by omega)]
      rfl
    · simp only [appended]
      rw [load32_store32_apart _ _ (by omega),load32_store32_apart _ _ (by omega),load32_store32_apart _ _ (by omega),
        load32_store32 _ _ (by omega),last]
    · simp only [appended]
      rw [store32_outside _ _ _ (by omega),store32_outside _ _ _ (by omega),store32_outside _ _ _ (by omega),
        store32_outside _ _ _ (by omega),storeByte_same]
      rfl
    · rintro bytes ⟨⟩
  · simp only [span_append,span_cons,span_nil,free_length]
    simp only [appended]
    omega
  · rw [lastStart_append]
    simp only [lastStart,appended]
    omega

end

section
variable {h : Header} {pre : List Block} {n : Nat}

theorem sound_joined (sound : Sound h pre) (sized : Sized h n) : Sound h (joined h pre [.free n]) := by
  cases List.eq_nil_or_concat pre with
  | inl empty =>
    subst empty
    refine ⟨?_,?_,.singleton _⟩
    · intro b member
      obtain rfl := List.mem_singleton.1 member
      exact sized
    · intro bytes member
      cases List.mem_singleton.1 member
  | inr split =>
    obtain ⟨front,b,rfl⟩ := split
    rw [List.concat_eq_append] at *
    cases b with
    | used bytes =>
      simp only [joined,List.getLast?_concat]
      refine ⟨?_,?_,List.isChain_append.2 ⟨sound.apart,.singleton _,by simp⟩⟩
      · intro b member
        rcases List.mem_append.1 member with before | here
        · exact sound.aligned b before
        · obtain rfl := List.mem_singleton.1 here
          exact sized
      · intro others member
        rcases List.mem_append.1 member with before | here
        · exact sound.guarded others before
        · cases List.mem_singleton.1 here
    | free j =>
      have last : Sized h j := sound.aligned (.free j) (by simp)
      obtain ⟨before,_,beside⟩ := List.isChain_append.1 sound.apart
      simp only [joined,List.getLast?_concat,List.dropLast_concat,mergeNext]
      refine ⟨?_,?_,List.isChain_append.2 ⟨before,.singleton _,?_⟩⟩
      · intro b member
        rcases List.mem_append.1 member with before | here
        · exact sound.aligned b (List.mem_append_left _ before)
        · obtain rfl := List.mem_singleton.1 here
          obtain ⟨words,low⟩ := last
          exact ⟨(words.add sized.1).add h.aligned,by simp only [free_length]; omega⟩
      · intro others member
        rcases List.mem_append.1 member with before | here
        · exact sound.guarded others (List.mem_append_left _ before)
        · cases List.mem_singleton.1 here
      · intro x final y first
        have separate := beside x final (.free j) (by simp)
        simp only [List.head?_cons,Option.mem_def,Option.some.injEq] at first
        rw [← first]
        exact separate

theorem allocations_joined (a : Nat) : allocations h a (joined h pre [.free n]) = allocations h a pre := by
  cases List.eq_nil_or_concat pre with
  | inl empty =>
    subst empty
    rfl
  | inr split =>
    obtain ⟨front,b,rfl⟩ := split
    rw [List.concat_eq_append] at *
    cases b with
    | used bytes => simp only [joined,List.getLast?_concat,allocations_append,allocations,List.append_nil]
    | free j => simp only [joined,List.getLast?_concat,List.dropLast_concat,mergeNext,allocations_append,allocations]

/-- What becomes of the last block: free, and longer by the new one if it was free. -/
theorem joined_last (nonempty : pre ≠ []) : ∃ front k, joined h pre [.free n] = front ++ [.free k] ∧ n ≤ k ∧
    ∀ more last, pre = more ++ [.free last] → k = last + n + h.size := by
  obtain ⟨front,b,rfl⟩ := (List.eq_nil_or_concat pre).resolve_left nonempty
  rw [List.concat_eq_append] at *
  cases b with
  | used bytes =>
    refine ⟨front ++ [.used bytes],n,?_,Nat.le_refl n,?_⟩
    · simp only [joined,List.getLast?_concat]
    · intro more last same
      cases (List.append_inj' same rfl).2
  | free j =>
    refine ⟨front,j + n + h.size,?_,by omega,?_⟩
    · simp only [joined,List.getLast?_concat,List.dropLast_concat,mergeNext]
    · intro more last same
      obtain ⟨_,tail⟩ := List.append_inj' same rfl
      cases tail
      rfl

end

section
variable {env : Environment} {lapic : Nat} {s t : HeapState}

/-- The size of the growth is rounded up to whole pages, or wraps around to none. -/
theorem whole_pages_spec {length : Nat} (fits : length < 2 ^ 32) :
    0x1000 ∣ whole_pages length ∧ (whole_pages length = 0 ∨ length ≤ whole_pages length) ∧ whole_pages length < 2 ^ 32 := by
  unfold whole_pages
  split
  · rw [wrap]
    omega
  · omega

theorem expand_heap_spec (contract : Contract env lapic) {blocks : List Block} {length : Nat} (rep : Represents header s blocks)
    (nonempty : blocks ≠ []) (below : s.heap_end ≤ lapic) (page : 0x1000 ∣ s.heap_end) (fits : length < 2 ^ 32)
    (grown : expand_heap env s length = some t) :
    whole_pages length ≠ 0 ∧ s.heap_end + whole_pages length ≤ lapic ∧ t.heap_start = s.heap_start ∧
      t.heap_end = s.heap_end + whole_pages length ∧
      Represents header t (joined header blocks [.free (whole_pages length - 28)]) := by
  obtain ⟨pages,_,small⟩ := whole_pages_spec fits
  have limit := contract.fits
  rw [expand_heap] at grown
  dsimp only at grown
  split at grown
  · cases grown
  · rename_i some_page
    obtain ⟨u,mapped,result⟩ := Option.bind_eq_some_iff.1 grown
    obtain ⟨bound,end_,start,last,same⟩ := map_pages_spec contract below page mapped
    have whole : whole_pages length / 0x1000 * 0x1000 = whole_pages length := Nat.div_mul_cancel pages
    rw [whole] at bound end_
    have large : 0x1000 ≤ whole_pages length := by omega
    obtain ⟨front,c,rfl⟩ := (List.eq_nil_or_concat blocks).resolve_left nonempty
    rw [List.concat_eq_append] at *
    have size : header.size = 28 := rfl
    have room : s.heap_end + header.size + (whole_pages length - 28) = s.heap_end + whole_pages length := by omega
    have stored : wrap (whole_pages length + 2 ^ 32 - 28) = whole_pages length - 28 := by
      rw [wrap]
      omega
    have there := appended_blocks rep same (n := whole_pages length - 28) (by omega)
    have place : s.heap_end = (appended header u.mem s (whole_pages length - 28)).heap_start + span header (front ++ [c]) := rep.tiles.symm
    have joins := combine_backward_free there
    rw [← place] at joins
    have state : t = combine_backward header (appended header u.mem s (whole_pages length - 28)) s.heap_end := by
      obtain ⟨mem,heap_start,heap_end,last_hdr⟩ := u
      obtain rfl : heap_start = s.heap_start := start
      obtain rfl : last_hdr = s.last_hdr := last
      obtain rfl : heap_end = s.heap_end + whole_pages length := end_
      rw [stored] at result
      rw [← Option.some.inj result,appended,room]
      rfl
    refine ⟨by omega,bound,?_,?_,?_⟩
    · rw [state]
      exact (combine_backward_place header _ _).1
    · rw [state,(combine_backward_place header _ _).2]
      exact room
    · rw [state]
      exact joins

/-- It does not return if it does not ask for a page at all, or if `mmap` does not provide one of the pages. -/
theorem expand_heap_none (contract : Contract env lapic) {length : Nat} (below : s.heap_end ≤ lapic) (page : 0x1000 ∣ s.heap_end)
    (stopped : expand_heap env s length = none) :
    whole_pages length / 0x1000 = 0 ∨ ∃ i < whole_pages length / 0x1000, ∃ m, env.mmap m (s.heap_end + i * 0x1000) = none := by
  rw [expand_heap] at stopped
  dsimp only at stopped
  split at stopped
  · exact .inl ‹_›
  · right
    apply map_pages_none contract below page
    cases mapped : map_pages env (whole_pages length / 0x1000) s with
    | none => rfl
    | some u =>
      rw [mapped] at stopped
      cases stopped

end
end MicroOS.UserGrowth

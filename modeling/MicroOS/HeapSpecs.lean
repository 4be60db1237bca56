import MicroOS.HeapCalls

/-!
The heap as what it is for: a list of allocations, each an address and the bytes
kept there. The first-fit search adds one and giving a block back takes one away;
all the other allocations keep their addresses and their bytes.
-/
namespace MicroOS.HeapSpecs
open Memory Heap Segments HeapChain HeapOps HeapCalls

variable {h : Header}

/-- The payload of every used block, with its address. -/
def allocations (h : Header) : Nat → List Block → List (Nat × List UInt8)
  | _, [] => []
  | a, .free n :: rest => allocations h (a + h.size + n) rest
  | a, .used payload :: rest => (a + h.size,payload) :: allocations h (a + h.size + payload.length) rest

theorem allocations_append (a : Nat) (xs ys : List Block) :
    allocations h a (xs ++ ys) = allocations h a xs ++ allocations h (a + span h xs) ys := by
  induction xs generalizing a with
  | nil => rfl
  | cons b rest ih =>
    have shift : a + h.size + b.length + span h rest = a + span h (b :: rest) := by simp; omega
    cases b <;> simp only [List.cons_append,allocations,ih,← shift] <;> rfl

theorem allocations_mergeNext (a n : Nat) (rest : List Block) :
    allocations h a (mergeNext h n rest) = allocations h (a + h.size + n) rest := by
  cases rest with
  | nil => rfl
  | cons b more =>
    cases b with
    | used bytes => rfl
    | free k =>
      simp only [mergeNext,allocations]
      congr 1
      omega

theorem allocations_release (a n : Nat) (pre post : List Block) :
    allocations h a (release h pre n post) = allocations h a pre ++ allocations h (a + span h pre + h.size + n) post := by
  cases List.eq_nil_or_concat pre with
  | inl empty =>
    subst empty
    exact allocations_mergeNext a n post
  | inr split =>
    obtain ⟨front,b,rfl⟩ := split
    rw [List.concat_eq_append]
    cases b with
    | used bytes => simp only [release,List.getLast?_concat,allocations_append,allocations_mergeNext]
    | free k =>
      have shift : a + span h front + h.size + k = a + span h (front ++ [.free k]) := by simp; omega
      simp only [release,List.getLast?_concat,List.dropLast_concat,allocations_append,allocations_mergeNext,
        allocations,List.append_nil,shift]

theorem allocation_split {a p : Nat} {payload : List UInt8} {blocks : List Block} {before after : List (Nat × List UInt8)}
    (listed : allocations h a blocks = before ++ (p,payload) :: after) :
    ∃ pre post, blocks = pre ++ .used payload :: post ∧ p = a + span h pre + h.size ∧ before = allocations h a pre ∧
      after = allocations h (a + span h pre + h.size + payload.length) post := by
  induction blocks generalizing a before with
  | nil => simp [allocations] at listed
  | cons b rest ih =>
    cases b with
    | free n =>
      obtain ⟨pre,post,rfl,place,first,second⟩ := ih listed
      refine ⟨.free n :: pre,post,rfl,?_,first,?_⟩
      · simp; omega
      · rw [second]
        congr 1
        simp; omega
    | used bytes =>
      cases before with
      | nil =>
        simp only [allocations,List.nil_append,List.cons.injEq,Prod.mk.injEq] at listed
        obtain ⟨⟨rfl,rfl⟩,rfl⟩ := listed
        exact ⟨[],rest,rfl,rfl,rfl,rfl⟩
      | cons x before =>
        simp only [allocations,List.cons_append,List.cons.injEq] at listed
        obtain ⟨rfl,listed⟩ := listed
        obtain ⟨pre,post,rfl,place,first,second⟩ := ih listed
        refine ⟨.used bytes :: pre,post,rfl,?_,?_,?_⟩
        · simp; omega
        · rw [first]
          rfl
        · rw [second]
          congr 1
          simp; omega

theorem allocations_bounds {a p : Nat} {payload : List UInt8} {blocks : List Block}
    (listed : (p,payload) ∈ allocations h a blocks) : a + h.size ≤ p ∧ p + payload.length ≤ a + span h blocks := by
  obtain ⟨before,after,shape⟩ := List.append_of_mem listed
  obtain ⟨pre,post,rfl,rfl,-,-⟩ := allocation_split shape
  simp; omega

/-- Allocations lie one after the other, each behind a header of its own. -/
theorem allocations_apart (a : Nat) (blocks : List Block) :
    (allocations h a blocks).Pairwise (fun x y => x.1 + x.2.length + h.size ≤ y.1) := by
  induction blocks generalizing a with
  | nil => exact .nil
  | cons b rest ih =>
    cases b with
    | free n => exact ih _
    | used payload =>
      refine .cons ?_ (ih _)
      intro y listed
      have bounds := (allocations_bounds listed).1
      simpa using bounds

/-- The heap keeps exactly these allocations, in whatever order they are listed. -/
def Holds (h : Header) (s : HeapState) (live : List (Nat × List UInt8)) : Prop :=
  ∃ blocks, Represents h s blocks ∧ Sound h blocks ∧ blocks ≠ [] ∧ live.Perm (allocations h s.heap_start blocks)

/-- What no call changes: where the heap lies. -/
def SamePlace (s s' : HeapState) : Prop := s'.heap_start = s.heap_start ∧ s'.heap_end = s.heap_end

section
variable {s : HeapState} {pre post : List Block} {c : Block} {n size : Nat}

theorem divide_place (h : Header) (s : HeapState) (a size : Nat) : SamePlace s (divide h s a size).1 := by
  simp only [divide]
  split_ifs <;> exact ⟨rfl,rfl⟩

theorem combine_forward_place (h : Header) (s : HeapState) (a : Nat) : SamePlace s (combine_forward h s a) := by
  simp only [combine_forward]
  split_ifs <;> exact ⟨rfl,rfl⟩

theorem combine_backward_place (h : Header) (s : HeapState) (a : Nat) : SamePlace s (combine_backward h s a) := by
  simp only [combine_backward]
  split
  · exact combine_forward_place h s _
  · exact ⟨rfl,rfl⟩

variable {live : List (Nat × List UInt8)} {payload : List UInt8}

/-- An allocation found in the list of blocks. -/
theorem holds_split {p : Nat}
    (holds : Holds h s ((p,payload) :: live)) : ∃ pre post, Represents h s (pre ++ .used payload :: post) ∧
      Sound h (pre ++ .used payload :: post) ∧ p = s.heap_start + span h pre + h.size ∧
      live.Perm (allocations h s.heap_start pre ++ allocations h (s.heap_start + span h pre + h.size + payload.length) post) := by
  obtain ⟨blocks,rep,sound,-,listed⟩ := holds
  obtain ⟨before,after,shape⟩ := List.append_of_mem (listed.subset (List.mem_cons_self ..))
  obtain ⟨pre,post,rfl,place,rfl,rfl⟩ := allocation_split shape
  refine ⟨pre,post,rep,sound,place,?_⟩
  rw [shape] at listed
  exact (listed.trans List.perm_middle).cons_inv

theorem holds_perm {live' : List (Nat × List UInt8)} (holds : Holds h s live) (same : live'.Perm live) :
    Holds h s live' := by
  obtain ⟨blocks,rep,sound,nonempty,listed⟩ := holds
  exact ⟨blocks,rep,sound,nonempty,same.trans listed⟩

/-- The allocation that a call made: the address it returned, with room for `size` bytes. -/
def Allocated (h : Header) (s s' : HeapState) (live : List (Nat × List UInt8)) (p size : Nat) : Prop :=
  ∃ payload, Holds h s' ((p,payload) :: live) ∧ size ≤ payload.length ∧ SamePlace s s'

section
variable {note : Bytes → Nat → Bytes}

section
variable (notes : Notes h note) (rep : Represents h s (pre ++ .free n :: post))
  (sound : Sound h (pre ++ .free n :: post))
include notes rep sound

/-- A block taken whole. -/
theorem take_whole : ∃ s', prepare h note s (s.heap_start + span h pre) = (s',s.heap_start + span h pre + h.size) ∧
      Allocated h s s' (allocations h s.heap_start (pre ++ .free n :: post)) (s.heap_start + span h pre + h.size) n := by
  have aligned : Sized h n := sound.aligned (.free n) (by simp)
  have low := aligned.2
  obtain ⟨s',payload,prepared,rep',same,guarded,place⟩ := prepare_free notes rep (by omega)
  refine ⟨s',prepared,payload,⟨_,rep',sound_take sound guarded (by rw [same]; exact aligned),by simp,?_⟩,by omega,place⟩
  simp only [place.1,allocations_append,allocations,same]
  exact List.perm_middle.symm

/-- A block taken in part: the rest of it stays free. -/
theorem take_part (aligned : Sized h size) (room : size + h.size + 0x10 ≤ n) :
    ∃ s', prepare h note (divide h s (s.heap_start + span h pre) size).1 (s.heap_start + span h pre) =
        (s',s.heap_start + span h pre + h.size) ∧
      Allocated h s s' (allocations h s.heap_start (pre ++ .free n :: post)) (s.heap_start + span h pre + h.size) size := by
  have low := aligned.2
  have whole : Sized h n := sound.aligned (.free n) (by simp)
  have divided := divide_free rep low room
  have place := divide_place h s (s.heap_start + span h pre) size
  generalize (divide h s (s.heap_start + span h pre) size).1 = t at divided place ⊢
  rw [← place.1]
  obtain ⟨s',payload,prepared,rep',same,guarded,place'⟩ := prepare_free notes divided (by omega)
  have rejoin : t.heap_start + span h pre + h.size + payload.length + h.size + (n - size - h.size) =
      t.heap_start + span h pre + h.size + n := by omega
  have rest : Sized h (n - size - h.size) := ⟨Nat.dvd_sub (Nat.dvd_sub whole.1 aligned.1) h.aligned,by omega⟩
  refine ⟨s',prepared,payload,
    ⟨_,rep',sound_take_split sound guarded (by rw [same]; exact aligned) rest,by simp,?_⟩,by omega,
    ⟨place'.1.trans place.1,place'.2.trans place.2⟩⟩
  simp only [place'.1,allocations_append,allocations,rejoin]
  exact List.perm_middle.symm

end

/-- The first-fit search: it hands out a block or finds that none is large enough. -/
theorem search_spec (notes : Notes h note) {pre post : List Block} {c : Block} {fuel : Nat}
    (rep : Represents h s (pre ++ c :: post)) (sound : Sound h (pre ++ c :: post)) (sized : size = 0 ∨ Sized h size)
    (enough : post.length < fuel) :
    (search h note s size fuel (s.heap_start + span h pre) = .ok none ∧ ∀ n, .free n ∈ c :: post → n < size) ∨
      ∃ s' p, search h note s size fuel (s.heap_start + span h pre) = .ok (some (s',p)) ∧
        Allocated h s s' (allocations h s.heap_start (pre ++ c :: post)) p size ∧ ∃ n, .free n ∈ c :: post ∧ size ≤ n := by
  obtain ⟨fuel,rfl⟩ : ∃ k, fuel = k + 1 := ⟨fuel - 1,by omega⟩
  have flag := free_at rep
  have cell := length_at rep
  have whole : Sized h c.length := sound.aligned c (by simp)
  by_cases fits : c.isFree = true ∧ size < c.length
  · obtain ⟨n,rfl⟩ : ∃ n, c = .free n := by cases c <;> simp_all
    have larger := fits.2
    have ends := span_le_end rep
    have below := rep.fits
    simp only [free_length] at larger cell ends whole
    right
    rw [search,flag,cell,if_pos (by simpa using larger)]
    by_cases room : Sized h size ∧ size + h.size + 0x10 ≤ n
    · obtain ⟨s',taken,made⟩ := take_part notes rep sound room.1 room.2
      exact ⟨s',_,congrArg (fun x => Except.ok (some x)) taken,made,n,by simp,by omega⟩
    · -- asked for nothing, or one header longer than asked for: too short to split
      have kept : divide h s (s.heap_start + span h pre) size = (s,0) := by
        rcases sized with rfl | sized
        · rw [divide,if_pos (by omega)]
        · have short : ¬ size + h.size + 0x10 ≤ n := fun long => room ⟨sized,long⟩
          have low := sized.2
          have margin := rep.margin
          have step : h.unit ≤ n - size := Nat.le_of_dvd (by omega) (Nat.dvd_sub whole.1 sized.1)
          rw [divide,if_neg (by omega),cell,wrap_of_lt (by omega),if_pos (by omega)]
      obtain ⟨s',taken,payload,holds,length,place⟩ := take_whole notes rep sound
      rw [kept]
      exact ⟨s',_,congrArg (fun x => Except.ok (some x)) taken,⟨payload,holds,by omega,place⟩,n,by simp,by omega⟩
  · have small : (c.isFree && decide (size < c.length)) = false := by simpa using fits
    by_cases exact_fit : c.isFree = true ∧ c.length = size
    · obtain ⟨n,rfl⟩ : ∃ n, c = .free n := by cases c <;> simp_all
      have equal : n = size := exact_fit.2
      subst equal
      right
      obtain ⟨s',taken,made⟩ := take_whole notes rep sound
      rw [search,flag,cell]
      simp only [small,Bool.false_eq_true,↓reduceIte]
      exact ⟨s',_,by simpa using taken,made,n,by simp,Nat.le_refl n⟩
    · have other : (c.isFree && decide (c.length = size)) = false := by simpa using exact_fit
      have first : ∀ n, c = .free n → n < size := by
        rintro n rfl
        simp only [free_isFree,free_length,true_and] at fits exact_fit
        omega
      rw [search,flag,cell]
      simp only [small,other,Bool.false_eq_true,↓reduceIte]
      cases post with
      | nil =>
        left
        rw [if_pos (next_at_end rep)]
        exact ⟨rfl,fun n member => first n (List.mem_singleton.mp member).symm⟩
      | cons d post =>
        have positive := rep.positive
        rw [next_at rep,if_neg (by omega),← shift_start]
        have further := search_spec notes (shift_block rep) (by simpa using sound) sized (by simpa using enough)
        rcases further with ⟨none_here,none_fits⟩ | ⟨s',p,found,made,n,member,room⟩
        · left
          refine ⟨none_here,?_⟩
          intro n member
          rcases List.mem_cons.mp member with here | later
          · exact first n here.symm
          · exact none_fits n later
        · right
          exact ⟨s',p,found,by simpa using made,n,List.mem_cons_of_mem _ member,room⟩
termination_by post.length

end

theorem rounded_up_spec {unit size : Nat} (some_unit : 0 < unit) (fits : size + 4 + unit ≤ 2 ^ 32) :
    size + 4 ≤ rounded_up unit size ∧ unit ∣ rounded_up unit size ∧ rounded_up unit size < size + 4 + unit := by
  have sum : wrap (size + 4) = size + 4 := wrap_of_lt (by omega)
  have below := Nat.mod_lt (size + 4) some_unit
  have parts := Nat.div_add_mod (size + 4) unit
  simp only [rounded_up,sum]
  split
  · rw [wrap_of_lt (by omega)]
    refine ⟨by omega,?_,by omega⟩
    have multiple : size + 4 - (size + 4) % unit + unit = unit * ((size + 4) / unit + 1) := by
      rw [Nat.mul_add,Nat.mul_one]
      omega
    rw [multiple]
    exact Nat.dvd_mul_right _ _
  · exact ⟨Nat.le_refl _,Nat.dvd_of_mod_eq_zero (by omega),by omega⟩

theorem segment_of (p : Nat) (past : h.size ≤ p) (fits : p < 2 ^ 32) : wrap (p + 2 ^ 32 - h.size) = p - h.size := by
  rw [wrap]
  omega

/-- A call takes its allocation away and nothing else. -/
theorem give_back_spec {p : Nat}
    (holds : Holds h s ((p,payload) :: live)) : ∃ s', give_back h s p = .ok s' ∧ Holds h s' live ∧ SamePlace s s' := by
  obtain ⟨pre,post,rep,sound,rfl,listed⟩ := holds_split holds
  have large := h.large
  have ends := span_le_end rep
  have fits := rep.fits
  have checked := check_ok rep sound (by simp)
  have here := header_at rep
  have segment : wrap (s.heap_start + span h pre + h.size + 2 ^ 32 - h.size) = s.heap_start + span h pre := by
    rw [segment_of _ (by omega) (by omega)]
    omega
  have freed : Represents h (setFree h s (s.heap_start + span h pre) true) (pre ++ .free payload.length :: post) := by
    refine represents_replace (d := .free payload.length) rep ?_ ?_ rfl ⟨?_,?_,?_,?_,?_⟩
    · exact storeByte_agree _ _ _ (by omega)
    · exact storeByte_agree _ _ _ (by simp only [used_length]; omega)
    · exact (load32_storeByte_apart _ _ (by omega)).trans here.length
    · exact (load32_storeByte_apart _ _ (by omega)).trans here.next
    · exact (load32_storeByte_apart _ _ (by omega)).trans here.last
    · exact storeByte_same _ _ _
    · rintro bytes ⟨⟩
  have merged : Represents h (combine_backward h (combine_forward h (setFree h s (s.heap_start + span h pre) true)
      (s.heap_start + span h pre)) (s.heap_start + span h pre)) (release h pre payload.length post) := combine_both freed
  have forward := combine_forward_place h (setFree h s (s.heap_start + span h pre) true) (s.heap_start + span h pre)
  have backward := combine_backward_place h
    (combine_forward h (setFree h s (s.heap_start + span h pre) true) (s.heap_start + span h pre)) (s.heap_start + span h pre)
  have place : SamePlace s (combine_backward h (combine_forward h (setFree h s (s.heap_start + span h pre) true)
      (s.heap_start + span h pre)) (s.heap_start + span h pre)) :=
    ⟨backward.1.trans forward.1,backward.2.trans forward.2⟩
  have nonempty : release h pre payload.length post ≠ [] := by
    intro empty
    have covered := merged.tiles
    rw [empty,place.1,place.2,span_nil] at covered
    omega
  refine ⟨_,?_,⟨release h pre payload.length post,merged,sound_release sound,nonempty,?_⟩,place⟩
  · rw [give_back,checked,segment]
    rfl
  · rw [place.1,allocations_release]
    exact listed

/-- Overwriting bytes of one payload. -/
theorem holds_write {p : Nat} {payload' : List UInt8} {m' : Bytes}
    (holds : Holds h s ((p,payload) :: live)) (same : payload'.length = payload.length)
    (guarded : Guarded payload') (stored : slice m' p payload'.length = payload')
    (below : Agree s.mem m' 0 p) (above : Agree s.mem m' (p + payload.length) s.heap_end) :
    Holds h { s with mem := m' } ((p,payload') :: live) := by
  obtain ⟨pre,post,rep,sound,rfl,listed⟩ := holds_split holds
  have large := h.large
  have here := header_at rep
  have written : Represents h { s with mem := m' } (pre ++ .used payload' :: post) := by
    refine represents_replace rep ?_ above same ⟨?_,?_,?_,?_,?_⟩
    · exact agree_mono below (by omega) (by omega)
    · rw [load32_agree (agree_mono below (by omega) (by omega)),here.length]
      exact same.symm
    · exact (load32_agree (agree_mono below (by omega) (by omega))).trans here.next
    · exact (load32_agree (agree_mono below (by omega) (by omega))).trans here.last
    · exact (below _ (by omega) (by omega)).trans here.free
    · rintro bytes ⟨⟩
      exact stored
  refine ⟨_,written,sound_take sound guarded (by rw [same]; exact sound.aligned (.used payload) (by simp)),by simp,?_⟩
  simp only [allocations_append,allocations,same]
  exact (listed.cons _).trans List.perm_middle.symm

/-- What is stored at an allocation, and that its last four bytes are the canary. -/
theorem holds_payload {p : Nat}
    (holds : Holds h s ((p,payload) :: live)) : slice s.mem p payload.length = payload ∧ Guarded payload ∧
      Sized h payload.length ∧ s.length (p - h.size) = payload.length ∧ free h s (p - h.size) = false ∧
      s.heap_start + h.size ≤ p ∧ p + payload.length ≤ s.heap_end ∧ s.heap_end < 2 ^ 32 := by
  obtain ⟨pre,post,rep,sound,rfl,-⟩ := holds_split holds
  have ends := span_le_end rep
  simp only [used_length] at ends
  have place : s.heap_start + span h pre + h.size - h.size = s.heap_start + span h pre := Nat.add_sub_cancel _ _
  refine ⟨(header_at rep).payload payload rfl,sound.guarded payload (by simp),sound.aligned (.used payload) (by simp),
    ?_,?_,by omega,by omega,rep.fits⟩
  · rw [place]
    exact length_at rep
  · rw [place]
    exact free_at rep

/-- Two allocations have no byte in common. -/
theorem holds_apart (holds : Holds h s live) :
    live.Pairwise (fun x y => x.1 + x.2.length + h.size ≤ y.1 ∨ y.1 + y.2.length + h.size ≤ x.1) := by
  obtain ⟨blocks,-,-,-,listed⟩ := holds
  have ordered := (allocations_apart s.heap_start blocks).imp (S := fun x y : Nat × List UInt8 =>
    x.1 + x.2.length + h.size ≤ y.1 ∨ y.1 + y.2.length + h.size ≤ x.1) (fun h => .inl h)
  exact listed.symm.pairwise ordered (fun h => h.symm)

theorem header_unit (h : Header) : 0 < h.unit := by
  have large := h.large
  exact Nat.pos_of_dvd_of_pos h.aligned (by omega)

/-- Copying an allocation to the front of a longer one. -/
theorem holds_copy {p q : Nat} {room : List UInt8}
    (holds : Holds h s ((q,room) :: (p,payload) :: live)) (longer : payload.length < room.length) :
    ∃ room', Holds h { s with mem := memcpy s.mem q p payload.length } ((q,room') :: (p,payload) :: live) ∧
      room'.length = room.length ∧ room'.take payload.length = payload := by
  obtain ⟨stored,⟨front,rfl⟩,aligned,-,-,-⟩ := holds_payload holds
  obtain ⟨kept,-,aligned',-,-,-⟩ := holds_payload (holds_perm holds (.swap _ _ _))
  -- both lengths are whole words, so the canary of the longer one lies behind the copy
  have words := Nat.le_of_dvd (header_unit h) h.word
  have step := Nat.le_of_dvd (by omega) (Nat.dvd_sub aligned.1 aligned'.1)
  simp only [List.length_append,canaryBytes,List.length_cons,List.length_nil] at longer step
  have shorter : payload.length ≤ front.length := by omega
  have length : (payload ++ (front.drop payload.length ++ canaryBytes)).length = (front ++ canaryBytes).length := by
    simp only [List.length_append,List.length_drop]
    omega
  have rest := congrArg (List.drop payload.length) stored
  rw [slice_drop,List.drop_append_of_le_length shorter] at rest
  refine ⟨payload ++ (front.drop payload.length ++ canaryBytes),holds_write holds length ⟨_,(List.append_assoc _ _ _).symm⟩
    ?_ ?_ ?_,length,List.take_left⟩
  · rw [List.length_append,slice_append,slice_memcpy,kept,slice_agree (memcpy_agree _ _ _ _ (.inr (Nat.le_refl _)))]
    simp only [List.length_append,List.length_drop] at rest ⊢
    rw [show front.length - payload.length + canaryBytes.length = front.length + canaryBytes.length - payload.length by omega]
    rw [rest]
  · exact memcpy_agree _ _ _ _ (by omega)
  · exact memcpy_agree _ _ _ _ (by simp only [List.length_append]; omega)

/-- A new heap is one free block. -/
theorem new_heap_spec (mem : Bytes) (heap_start page_count : Nat) (positive : 0 < heap_start)
    (pages : 0 < page_count) (fits : heap_start + page_count * 0x1000 < 2 ^ 32) (small : h.size ≤ 0x800)
    (margin : 16 ≤ heap_start + h.unit) (page : h.unit ∣ 0x1000) :
    Holds h (new_heap h mem heap_start page_count) [] := by
  have large := h.large
  have flag : storeByte (store32 (store32 (store32 mem heap_start (page_count * 0x1000 - h.size)) (heap_start + 4) 0)
      (heap_start + 8) 0) (heap_start + (h.size - 4)) 1 (heap_start + (h.size - 4)) = 1 := storeByte_same _ _ _
  refine ⟨[.free (page_count * 0x1000 - h.size)],⟨⟨⟨?_,?_,?_,?_,?_⟩,trivial⟩,?_,rfl,positive,margin,fits⟩,
    ⟨?_,by simp,by simp⟩,by simp,
    .refl _⟩
  · simp only [new_heap,HeapState.setLength,HeapState.setNext,HeapState.setLast,setFree]
    rw [load32_storeByte_apart _ _ (by omega),load32_store32_apart _ _ (by omega),load32_store32_apart _ _ (by omega),
      load32_store32 _ _ (by omega)]
    rfl
  · simp only [new_heap,HeapState.setLength,HeapState.setNext,HeapState.setLast,setFree]
    rw [load32_storeByte_apart _ _ (by omega),load32_store32_apart _ _ (by omega),load32_store32 _ _ (by omega)]
    rfl
  · simp only [new_heap,HeapState.setLength,HeapState.setNext,HeapState.setLast,setFree]
    rw [load32_storeByte_apart _ _ (by omega),load32_store32 _ _ (by omega)]
  · exact flag
  · rintro bytes ⟨⟩
  · simp only [new_heap,HeapState.setLength,HeapState.setNext,HeapState.setLast,setFree,span_cons,
      free_length,span_nil]
    omega
  · intro b member
    rcases List.mem_singleton.mp member with rfl
    exact ⟨Nat.dvd_sub (page.mul_left page_count) h.aligned,by simp only [free_length]; omega⟩

end
end MicroOS.HeapSpecs

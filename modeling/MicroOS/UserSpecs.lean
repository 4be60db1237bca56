import MicroOS.UserGrowth
import MicroOS.HeapRealloc

/-!
What `malloc`, `free`, `realloc` and `calloc` of the C library do to the list of allocations.
`malloc` calls itself at most twice: the second growth is at least as large as the rounding of
the nested calls.
-/
namespace MicroOS.UserSpecs
open Memory HeapChain HeapOps HeapCalls HeapSpecs UserHeap UserGrowth
open Heap (HeapState HEAP_CANARY_VALUE)
open HeapRuns (segments segments_eq starts)
open HeapRealloc (free_shorter)

theorem note_notes (location : Location) : Notes header (note location) := by
  intro m a lo hi apart
  have size : header.size = 28 := rfl
  rw [size] at apart
  exact agree_trans (agree_trans (store32_agree _ _ _ (by omega)) (store32_agree _ _ _ (by omega))) (store32_agree _ _ _ (by omega))

/-- `size` with its canary in whole headers is still a 32-bit word. -/
def Unwrapped (size : Nat) : Prop := (size + 4 + 27) / 28 * 28 < 2 ^ 32

instance (size : Nat) : Decidable (Unwrapped size) := inferInstanceAs (Decidable (_ < _))

theorem rounded_eq (size : Nat) :
    rounded size = if wrap (size + 4) % 28 > 0 then wrap (wrap (size + 4) - wrap (size + 4) % 28 + 28) else wrap (size + 4) := rfl

theorem rounded_spec {size : Nat} (fits : Unwrapped size) :
    size + 4 ≤ rounded size ∧ rounded size ≤ size + 32 ∧ rounded size < 2 ^ 32 := by
  rw [Unwrapped] at fits
  have sum : wrap (size + 4) = size + 4 := wrap_of_lt (by omega)
  rw [rounded_eq,sum]
  by_cases part : (size + 4) % 28 > 0
  · rw [if_pos part,wrap_of_lt (by omega)]
    omega
  · rw [if_neg part]
    omega

/-- Rounding up wraps around only beyond the last multiple of a header, and then to 24 bytes. -/
theorem rounded_cases (size : Nat) : rounded size = 24 ∧ 2 ^ 32 - 4 < wrap (size + 4) ∨
    28 ∣ rounded size ∧ wrap (size + 4) ≤ rounded size ∧ rounded size < wrap (size + 4) + 28 ∧ rounded size < 2 ^ 32 := by
  have word : wrap (size + 4) < 2 ^ 32 := Nat.mod_lt _ (by decide)
  rw [rounded_eq]
  generalize wrap (size + 4) = x at word ⊢
  by_cases part : x % 28 > 0
  · rw [if_pos part]
    by_cases wraps : x - x % 28 + 28 < 2 ^ 32
    · rw [wrap_of_lt wraps]
      omega
    · have last : x - x % 28 = 2 ^ 32 - 4 := by omega
      rw [last]
      exact .inl ⟨rfl,by omega⟩
  · rw [if_neg part]
    omega

theorem rounded_sized (size : Nat) : rounded size = 0 ∨ Sized header (rounded size) := by
  have unit : header.unit = 4 := rfl
  rw [Sized,unit]
  rcases rounded_cases size with ⟨wrapped,_⟩ | ⟨whole,_⟩
  · omega
  · omega

theorem rounded_word (size : Nat) : rounded size < 2 ^ 32 := by
  rcases rounded_cases size with ⟨wrapped,_⟩ | ⟨-,-,-,below⟩
  · omega
  · exact below

/-- Every free segment is shorter. -/
def Small (s : HeapState) (size : Nat) : Prop := ∀ seg ∈ segments s, Segments.free header s seg = true → s.length seg < size

/-- The heap ends below the page that the kernel keeps. -/
structure Below (lapic : Nat) (s : HeapState) : Prop where
  end_ : s.heap_end ≤ lapic
  page : 0x1000 ∣ s.heap_end

/-- No segment is large enough, and the heap cannot grow, or it cannot grow again when that was not enough. -/
def Stuck (env : Environment) (s : HeapState) (size : Nat) : Prop :=
  Small s size ∧ (expand_heap env s size = none ∨
    ∃ t, expand_heap env s size = some t ∧ Small t (rounded size) ∧ expand_heap env t (rounded size) = none)

section
variable {env : Environment} {lapic : Nat} {s t : HeapState} {live : List (Nat × List UInt8)} {blocks : List Block}

/-- The heap keeps these allocations in these blocks. -/
structure Listed (s : HeapState) (live : List (Nat × List UInt8)) (blocks : List Block) : Prop where
  rep : Represents header s blocks
  sound : Sound header blocks
  nonempty : blocks ≠ []
  listed : live.Perm (allocations header s.heap_start blocks)

theorem holds_listed : Holds header s live ↔ ∃ blocks, Listed s live blocks :=
  ⟨fun ⟨blocks,rep,sound,nonempty,listed⟩ => ⟨blocks,rep,sound,nonempty,listed⟩,
    fun ⟨blocks,rep,sound,nonempty,listed⟩ => ⟨blocks,rep,sound,nonempty,listed⟩⟩

theorem small_iff (here : Listed s live blocks) (size : Nat) : Small s size ↔ ∀ n, .free n ∈ blocks → n < size :=
  (free_shorter here.rep here.nonempty).symm

/-- The heap after it has grown: the same allocations, and a free block at the end. -/
structure Grown (lapic : Nat) (s t : HeapState) (live : List (Nat × List UInt8)) (blocks : List Block) (length : Nat) : Prop where
  below : Below lapic t
  start : t.heap_start = s.heap_start
  end_ : t.heap_end = s.heap_end + whole_pages length
  enough : length ≤ whole_pages length
  pages : 0x1000 ≤ whole_pages length
  last : ∃ front k, Listed t live (front ++ [.free k]) ∧ whole_pages length ≤ k + 28 ∧
    ∀ more last, blocks = more ++ [.free last] → k = last + whole_pages length

theorem expand_grown (contract : Contract env lapic) {length : Nat} (here : Listed s live blocks) (below : Below lapic s)
    (fits : length < 2 ^ 32) (grown : expand_heap env s length = some t) : Grown lapic s t live blocks length := by
  obtain ⟨pages,enough,-⟩ := whole_pages_spec fits
  obtain ⟨some_page,bound,start,end_,rep⟩ := expand_heap_spec contract here.rep here.nonempty below.end_ below.page fits grown
  have page := below.page
  have large : 0x1000 ≤ whole_pages length := by omega
  have size : header.size = 28 := rfl
  have sized : Sized header (whole_pages length - 28) := by
    have unit : header.unit = 4 := rfl
    rw [Sized,unit]
    omega
  obtain ⟨front,k,shape,longer,merged⟩ := joined_last (h := header) (n := whole_pages length - 28) here.nonempty
  have sound := sound_joined here.sound sized
  have same := @allocations_joined header blocks (whole_pages length - 28) t.heap_start
  rw [shape] at rep sound same
  refine ⟨⟨by omega,by omega⟩,start,end_,by omega,large,front,k,⟨rep,sound,by simp,?_⟩,by omega,?_⟩
  · rw [same,start]
    exact here.listed
  · intro more last before
    have length := merged more last before
    omega

/-- One call: a block is found, or the heap grows and `malloc` is called again. -/
theorem malloc_level (env : Environment) (location : Location) {size : Nat} (here : Listed s live blocks) (asked : size ≠ 0) :
    (∃ s' p, (∀ depth, malloc env (depth + 1) location s size = .ok (s',p)) ∧ Allocated header s s' live p (rounded size) ∧
        ¬ Small s (rounded size)) ∨
      (Small s (rounded size) ∧
        (expand_heap env s (rounded size) = none → ∀ depth, malloc env (depth + 1) location s size = .error .unmapped) ∧
        ∀ t, expand_heap env s (rounded size) = some t →
          ∀ depth, malloc env (depth + 1) location s size = malloc env depth env.heap_c t (rounded size)) := by
  have checked : check_heap_canaries s = .ok () := check_ok here.rep here.sound here.nonempty
  have length := walk_enough here.rep
  obtain ⟨c,post,rfl⟩ := List.exists_cons_of_ne_nil here.nonempty
  have enough : post.length < s.walk := by
    rw [List.length_cons] at length
    omega
  rw [small_iff here]
  rcases @search_spec header s (rounded size) (note location) (note_notes location) [] post c s.walk here.rep here.sound
    (rounded_sized size) enough with ⟨full,small⟩ | ⟨s',p,returned,⟨payload,holds,room,place⟩,n,member,fits⟩
  · right
    have full : Segments.search header (note location) s (rounded size) s.walk s.heap_start = .ok none := full
    refine ⟨small,fun stopped depth => ?_,fun t grown depth => ?_⟩
    · rw [malloc,if_neg asked,checked,full,stopped]
    · rw [malloc,if_neg asked,checked,full,grown]
  · left
    have returned : Segments.search header (note location) s (rounded size) s.walk s.heap_start = .ok (some (s',p)) := returned
    refine ⟨s',p,fun depth => ?_,⟨payload,holds_perm holds (here.listed.cons _),room,place⟩,?_⟩
    · rw [malloc,if_neg asked,checked,returned]
    · intro small
      have shorter := small n member
      omega

/-- The heap is the same or has grown. -/
structure Extends (lapic : Nat) (s t : HeapState) (live : List (Nat × List UInt8)) : Prop where
  holds : Holds header t live
  below : Below lapic t
  start : t.heap_start = s.heap_start
  end_ : s.heap_end ≤ t.heap_end

/-- `malloc` calls itself at most twice: it returns a block, or the heap cannot grow. -/
theorem malloc_spec (contract : Contract env lapic) (location : Location) {size : Nat} (holds : Holds header s live)
    (below : Below lapic s) (asked : size ≠ 0) :
    ((∀ depth, malloc env (depth + 3) location s size = .error .unmapped) ∧ Stuck env s (rounded size)) ∨
      (¬ Stuck env s (rounded size) ∧ ∃ t s' p payload, (∀ depth, malloc env (depth + 3) location s size = .ok (s',p)) ∧
        Extends lapic s t live ∧ Holds header s' ((p,payload) :: live) ∧ rounded size ≤ payload.length ∧ SamePlace t s') := by
  obtain ⟨blocks,here⟩ := holds_listed.1 holds
  have limit := contract.fits
  have page := contract.page
  rcases malloc_level env location here asked with ⟨s',p,made,⟨payload,holds',room,place⟩,fits⟩ | ⟨small,stops,again⟩
  · exact .inr ⟨fun stuck => fits stuck.1,s,s',p,payload,fun depth => made (depth + 2),⟨holds,below,rfl,Nat.le_refl _⟩,holds',room,place⟩
  -- the heap grows once
  cases grown : expand_heap env s (rounded size) with
  | none =>
    refine .inl ⟨fun depth => ?_,small,.inl grown⟩
    exact stops grown (depth + 2)
  | some t =>
    have first := expand_grown contract here below (rounded_word size) grown
    obtain ⟨front,k,there,longer,-⟩ := first.last
    have asked' : rounded size ≠ 0 := by
      intro nothing
      have pages := first.pages
      rw [nothing] at pages
      exact absurd pages (by decide)
    have small' := first.enough
    have end_ := first.end_
    have below' := first.below.end_
    have unwrapped : Unwrapped (rounded size) := by
      rw [Unwrapped]
      omega
    obtain ⟨enough,less,word'⟩ := rounded_spec unwrapped
    rcases malloc_level env env.heap_c there asked' with ⟨s',p,made,⟨payload,holds',room,place⟩,fits⟩ | ⟨smaller,stops',once_more⟩
    · right
      refine ⟨?_,t,s',p,payload,?_,⟨holds_listed.2 ⟨_,there⟩,first.below,first.start,by omega⟩,holds',by omega,place⟩
      · rintro ⟨-,stuck | ⟨t',same,smaller,-⟩⟩
        · rw [grown] at stuck
          cases stuck
        · rw [grown] at same
          cases same
          exact fits smaller
      · intro depth
        rw [again t grown (depth + 2)]
        exact made (depth + 1)
    -- the heap grows once more
    cases grown' : expand_heap env t (rounded (rounded size)) with
    | none =>
      refine .inl ⟨fun depth => ?_,small,.inr ⟨t,grown,smaller,grown'⟩⟩
      rw [again t grown (depth + 2)]
      exact stops' grown' (depth + 1)
    | some u =>
      have second := expand_grown contract there first.below word' grown'
      obtain ⟨front',k',here',-,merged⟩ := second.last
      have length := merged front k rfl
      have pages := first.pages
      have enough' := second.enough
      have end_' := second.end_
      have below'' := second.below.end_
      have unwrapped' : Unwrapped (rounded (rounded size)) := by
        rw [Unwrapped]
        omega
      obtain ⟨-,less',-⟩ := rounded_spec unwrapped'
      have asked'' : rounded (rounded size) ≠ 0 := by omega
      rcases malloc_level env env.heap_c here' asked'' with ⟨s',p,made,⟨payload,holds',room,place⟩,-⟩ | ⟨full,-⟩
      · right
        refine ⟨?_,u,s',p,payload,?_,⟨holds_listed.2 ⟨_,here'⟩,second.below,second.start.trans first.start,by omega⟩,holds',?_,place⟩
        · rintro ⟨-,stuck | ⟨t',same,-,stuck⟩⟩
          · rw [grown] at stuck
            cases stuck
          · rw [grown] at same
            cases same
            rw [grown'] at stuck
            cases stuck
        · intro depth
          rw [again t grown (depth + 2),once_more u grown' (depth + 1)]
          exact made depth
        · have more := (rounded_spec unwrapped').1
          omega
      · have none_left := (small_iff here' _).1 full k' (by simp)
        omega

variable {payload : List UInt8}

/-- `free` takes its allocation away and nothing else. -/
theorem free_spec {p : Nat} (holds : Holds header s ((p,payload) :: live)) :
    ∃ s', free s p = .ok s' ∧ Holds header s' live ∧ SamePlace s s' := by
  obtain ⟨-,-,-,-,-,low,-,-⟩ := holds_payload holds
  have large := header.large
  obtain ⟨s',given,holds',place⟩ := give_back_spec holds
  refine ⟨s',?_,holds',place⟩
  rw [free,if_neg (by omega),given]

/-- What a larger size asks of `realloc`. -/
theorem realloc_moves (env : Environment) (location : Location) (depth p size : Nat) (old : p ≠ 0) (asked : size ≠ 0)
    (larger : ¬ wrap (size + 4) ≤ s.length (wrap (p + 2 ^ 32 - 28))) : realloc env depth location s p size = (do
      let (s',new_ptr) ← malloc env depth location s size
      if new_ptr = 0 then return (s',new_ptr)
      else do
        let s'' ← free { s' with mem := memcpy s'.mem new_ptr p (s'.length (wrap (p + 2 ^ 32 - 28))) } p
        return (s'',new_ptr)) := by
  rw [realloc,if_neg asked,if_neg old,if_neg larger]

/-- The segment in front of an allocation, as `realloc` reads it. -/
theorem realloc_segment {p : Nat} (holds : Holds header s ((p,payload) :: live)) :
    28 ≤ p ∧ wrap (p + 2 ^ 32 - 28) = p - 28 ∧ s.length (p - 28) = payload.length := by
  obtain ⟨-,-,-,length,-,low,high,top⟩ := holds_payload holds
  have size : header.size = 28 := rfl
  rw [size] at low length
  exact ⟨by omega,segment_of (h := header) p (by omega) (by omega),length⟩

/-- `realloc` of an allocation: it stays where it is, or the heap cannot grow, or its bytes move to a longer one. -/
theorem realloc_spec (contract : Contract env lapic) (location : Location) {p size : Nat}
    (holds : Holds header s ((p,payload) :: live)) (below : Below lapic s) (asked : size ≠ 0) (fits : Unwrapped size) :
    (size + 4 ≤ payload.length ∧ ∀ depth, realloc env depth location s p size = .ok (s,p)) ∨
      ((∀ depth, realloc env (depth + 3) location s p size = .error .unmapped) ∧ Stuck env s (rounded size)) ∨
      ∃ s' q room, (∀ depth, realloc env (depth + 3) location s p size = .ok (s',q)) ∧ Holds header s' ((q,room) :: live) ∧
        rounded size ≤ room.length ∧ room.take payload.length = payload ∧ Below lapic s' ∧ s'.heap_start = s.heap_start ∧
        s.heap_end ≤ s'.heap_end := by
  obtain ⟨past,segment,length⟩ := realloc_segment holds
  obtain ⟨enough,-,-⟩ := rounded_spec fits
  have word := rounded_word size
  have sum : wrap (size + 4) = size + 4 := wrap_of_lt (by omega)
  by_cases inPlace : size + 4 ≤ payload.length
  · left
    refine ⟨inPlace,fun depth => ?_⟩
    rw [realloc,segment,sum,length,if_neg asked,if_neg (by omega),if_pos inPlace]
  · right
    have moves (depth : Nat) := realloc_moves (s := s) env location depth p size (by omega) asked (by rwa [segment,sum,length])
    rcases malloc_spec contract location holds below asked with ⟨stopped,stuck⟩ |
      ⟨-,t,s',q,room,made,extends_,holds',larger,place⟩
    · left
      refine ⟨fun depth => ?_,stuck⟩
      rw [moves,stopped]
      rfl
    · right
      obtain ⟨past',-,-⟩ := realloc_segment holds'
      obtain ⟨-,-,length'⟩ := realloc_segment (holds_perm holds' (.swap _ _ _))
      obtain ⟨room',copied,same_length,same⟩ := holds_copy holds' (by omega)
      obtain ⟨s'',freed,holds'',place'⟩ := free_spec (holds_perm copied (.swap _ _ _))
      have start := place'.1.trans (place.1.trans extends_.start)
      have end_ : s''.heap_end = t.heap_end := place'.2.trans place.2
      have grows := extends_.end_
      obtain ⟨inside,pages⟩ := extends_.below
      refine ⟨s'',q,room',fun depth => ?_,holds'',by omega,same,⟨by omega,by omega⟩,start,by omega⟩
      rw [moves,made]
      simp only [bind,Except.bind]
      rw [if_neg (by omega),segment,length',freed]
      rfl

/-- The zeros that `calloc` writes over a new allocation. -/
theorem memset_spec {p n : Nat} (holds : Holds header s ((p,payload) :: live)) (room : n + 4 ≤ payload.length) :
    ∃ payload', Holds header { s with mem := memset s.mem p n } ((p,payload') :: live) ∧ payload'.length = payload.length ∧
      payload'.take n = List.replicate n 0 := by
  obtain ⟨stored,⟨front,rfl⟩,-,-,-,low,high,-⟩ := holds_payload holds
  simp only [List.length_append,canaryBytes,List.length_cons,List.length_nil] at room
  have zeros : (List.replicate n (0 : UInt8)).length = n := List.length_replicate
  have shorter : n ≤ front.length := by omega
  have length : (List.replicate n 0 ++ (front.drop n ++ canaryBytes)).length = (front ++ canaryBytes).length := by
    simp only [List.length_append,List.length_drop,zeros]
    omega
  have rest := congrArg (List.drop n) stored
  rw [slice_drop,List.drop_append_of_le_length shorter] at rest
  refine ⟨List.replicate n 0 ++ (front.drop n ++ canaryBytes),holds_write holds length ⟨_,(List.append_assoc _ _ _).symm⟩ ?_ ?_ ?_,length,?_⟩
  · have written := slice_storeBytes s.mem p (List.replicate n (0 : UInt8))
    have behind : slice (memset s.mem p n) (p + n) ((front ++ canaryBytes).length - n) = front.drop n ++ canaryBytes := by
      rw [memset,slice_agree (storeBytes_agree _ _ _ (.inr (by rw [zeros])))]
      exact rest
    rw [zeros] at written
    have parts : (List.replicate n (0 : UInt8) ++ (front.drop n ++ canaryBytes)).length = n + ((front ++ canaryBytes).length - n) := by
      rw [length,List.length_append]
      omega
    rw [parts,slice_append,behind]
    exact congrArg (· ++ (front.drop n ++ canaryBytes)) written
  · exact storeBytes_agree _ _ _ (.inl (Nat.le_refl _))
  · exact storeBytes_agree _ _ _ (.inr (by rw [zeros,List.length_append]; omega))
  · exact List.take_left' zeros

/-- `calloc` returns a new allocation of zeros, or the heap cannot grow. -/
theorem calloc_spec (contract : Contract env lapic) (location : Location) {count size : Nat} (holds : Holds header s live)
    (below : Below lapic s) (asked : count * size ≠ 0) (fits : Unwrapped (count * size)) :
    ((∀ depth, calloc env (depth + 3) location s count size = .error .unmapped) ∧ Stuck env s (rounded (count * size))) ∨
      ∃ s' p payload, (∀ depth, calloc env (depth + 3) location s count size = .ok (s',p)) ∧ Holds header s' ((p,payload) :: live) ∧
        rounded (count * size) ≤ payload.length ∧ payload.take (count * size) = List.replicate (count * size) 0 ∧
        Below lapic s' ∧ s'.heap_start = s.heap_start ∧ s.heap_end ≤ s'.heap_end := by
  obtain ⟨enough,-,word⟩ := rounded_spec fits
  have product : wrap (count * size) = count * size := wrap_of_lt (by omega)
  rcases malloc_spec contract location holds below asked with ⟨stopped,stuck⟩ |
    ⟨-,t,s',p,payload,made,extends_,holds',larger,place⟩
  · left
    refine ⟨fun depth => ?_,stuck⟩
    rw [calloc,product,stopped]
    rfl
  · right
    obtain ⟨payload',zeroed,length,zeros⟩ := memset_spec (n := count * size) holds' (by omega)
    have start := place.1.trans extends_.start
    have end_ : s'.heap_end = t.heap_end := place.2
    have grows := extends_.end_
    obtain ⟨inside,pages⟩ := extends_.below
    refine ⟨_,p,payload',fun depth => ?_,zeroed,by omega,zeros,⟨by dsimp only; omega,by dsimp only; omega⟩,start,by dsimp only; omega⟩
    rw [calloc,product,made]
    rfl

end
end MicroOS.UserSpecs

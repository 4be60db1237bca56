import MicroOS.UserRuns

/-!
How many bytes a block has for the size that was asked for. The canary, the rounding and the
product of `calloc` are computed with 32 bits, in the kernel and in the C library.
-/
namespace MicroOS.HeapCapacity
open Memory Segments HeapChain HeapCalls HeapSpecs Runs
open Heap (HeapState Panic kmalloc kfree krealloc)
open HeapRuns (Client heap_system fits_split reached_tracks segments)
open HeapRealloc (free_shorter one_page)
open UserHeap (Environment Location Stop memset malloc realloc calloc)
open UserGrowth (Contract)
open UserSpecs (Stuck Below malloc_spec realloc_spec calloc_spec free_spec realloc_moves)
open UserRuns (user_heap reached_heap all_pages all_pages_contract all_pages_start)

def kcalloc (s : HeapState) (count size : Nat) : Except Panic (HeapState × Nat) := do
  let (s,addr) ← kmalloc s (wrap (count * size))
  return ({ s with mem := memset s.mem addr (wrap (count * size)) },addr)

/-- NULL for no bytes or with the heap unchanged, or a block within the heap that has room for the bytes and
    the canary. -/
def Serves (h : Header) (s : HeapState) (need : Nat) (result : HeapState × Nat) : Prop :=
  (result.2 = 0 ∧ (need = 0 ∨ result.1 = s)) ∨ (result.2 ≠ 0 ∧ need + 4 ≤ result.1.length (result.2 - h.size) ∧
    result.2 + result.1.length (result.2 - h.size) ≤ result.1.heap_end)

/-- What a call in the kernel must come to: it stops because the heap is full, before anything is written, or it serves. -/
def KernelServes (s : HeapState) (need : Nat) : Except Panic (HeapState × Nat) → Prop
  | .ok result => Serves HeapKernel.header s need result
  | .error (.heap_full _) => True
  | .error _ => False

/-- The same for a program, which stops where `mmap` does not provide a page. -/
def UserServes (s : HeapState) (need : Nat) : Except Stop (HeapState × Nat) → Prop
  | .ok result => Serves UserHeap.header s need result
  | .error .unmapped => True
  | .error _ => False

/-- Every free segment is shorter. -/
def Exhausted (s : HeapState) (size : Nat) : Prop := ∀ seg ∈ segments s, s.free seg = true → s.length seg < size

section
variable {h : Header} {s : HeapState} {need : Nat}

/-- No block is as long as the address space. -/
theorem serves_bound {result : HeapState × Nat} (past : h.size < result.2) (fits : result.1.heap_end < 2 ^ 32)
    (serves : Serves h s need result) : need + 4 + h.size < 2 ^ 32 := by
  rcases serves with ⟨null,-⟩ | ⟨-,room,inside⟩
  · omega
  · omega

variable {s' : HeapState} {live : List (Nat × List UInt8)} {p : Nat} {payload : List UInt8} {reason : Panic}

theorem serves_holds (holds : Holds h s' ((p,payload) :: live)) (room : need + 4 ≤ payload.length) : Serves h s need (s',p) := by
  obtain ⟨-,-,-,length,-,low,high,-⟩ := holds_payload holds
  have large := h.large
  refine .inr ⟨?_,?_,?_⟩
  · dsimp only
    omega
  · dsimp only
    omega
  · dsimp only
    omega

/-- A pointer that was handed out lies behind a header, and the heap ends before the address space does. -/
theorem holds_place (holds : Holds h s ((p,payload) :: live)) : h.size < p ∧ s.heap_end < 2 ^ 32 := by
  obtain ⟨-,-,-,-,-,low,-,fits⟩ := holds_payload holds
  obtain ⟨blocks,rep,-⟩ := holds
  have positive := rep.positive
  exact ⟨by omega,fits⟩

theorem memset_nothing (m : Bytes) (a : Nat) : memset m a 0 = m := by
  funext x
  rw [memset]
  exact storeBytes_outside _ _ _ (by rw [List.replicate_zero,List.length_nil]; omega)

theorem check_canaries_error {fuel seg : Nat} (stopped : check_canaries h s fuel seg = .error reason) (size : Nat) :
    reason ≠ .heap_full size := by
  induction fuel generalizing seg with
  | zero =>
    rw [check_canaries] at stopped
    cases stopped
    simp
  | succ fuel ih =>
    rw [check_canaries] at stopped
    split at stopped
    · cases stopped
      simp
    · split at stopped
      · cases stopped
      · exact ih stopped

/-- Giving back moves neither end of the heap. -/
theorem give_back_place (given : give_back h s p = .ok s') : SamePlace s s' := by
  rw [give_back] at given
  cases checked : check_canaries h s s.walk s.heap_start with
  | error reason =>
    rw [checked] at given
    cases given
  | ok u =>
    rw [checked] at given
    obtain rfl := Except.ok.inj given
    have forward := combine_forward_place h (setFree h s (wrap (p + 2 ^ 32 - h.size)) true) (wrap (p + 2 ^ 32 - h.size))
    have backward := combine_backward_place h (combine_forward h (setFree h s (wrap (p + 2 ^ 32 - h.size)) true)
      (wrap (p + 2 ^ 32 - h.size))) (wrap (p + 2 ^ 32 - h.size))
    exact ⟨backward.1.trans forward.1,backward.2.trans forward.2⟩

theorem give_back_error (stopped : give_back h s p = .error reason) (size : Nat) : reason ≠ .heap_full size := by
  rw [give_back] at stopped
  cases checked : check_canaries h s s.walk s.heap_start with
  | error other =>
    rw [checked] at stopped
    cases stopped
    exact check_canaries_error checked size
  | ok u =>
    rw [checked] at stopped
    cases stopped

end
section
variable {s : HeapState} {live : List (Nat × List UInt8)} {size : Nat}

variable {blocks : List Block} {p : Nat} {payload : List UInt8}

theorem exhausted_iff (rep : Represents HeapKernel.header s blocks) (nonempty : blocks ≠ []) :
    Exhausted s size ↔ ∀ n, .free n ∈ blocks → n < size := (free_shorter rep nonempty).symm

/-- A heap that holds something has a block. -/
theorem some_block {h : Header} (holds : Holds h s live) (rep : Represents h s blocks) : blocks ≠ [] := by
  rintro rfl
  obtain ⟨others,rep',-,nonempty,-⟩ := holds
  obtain ⟨c,post,rfl⟩ := List.exists_cons_of_ne_nil nonempty
  have tiles := rep.tiles
  have tiles' := rep'.tiles
  have large := h.large
  rw [span_nil] at tiles
  rw [span_cons] at tiles'
  omega

/-- The heap is exhausted and full, or `kmalloc` makes a block for the rounded size. -/
theorem kmalloc_cases (holds : Holds HeapKernel.header s live) (asked : size ≠ 0) :
    (Exhausted s (Heap.rounded size) ∧ kmalloc s size = .error (.heap_full (Heap.rounded size))) ∨
      (¬ Exhausted s (Heap.rounded size) ∧ ∃ s' p payload, kmalloc s size = .ok (s',p) ∧
        Holds HeapKernel.header s' ((p,payload) :: live) ∧ Heap.rounded size ≤ payload.length) := by
  rcases HeapKernel.kmalloc_search holds asked with ⟨full,blocks,rep,small⟩ |
    ⟨s',p,made,⟨payload,holds',room,-⟩,blocks,n,rep,member,fits⟩
  · exact .inl ⟨(exhausted_iff rep (some_block holds rep)).2 small,full⟩
  · refine .inr ⟨fun exhausted => ?_,s',p,payload,made,holds',room⟩
    have small := (exhausted_iff rep (some_block holds rep)).1 exhausted n member
    omega

theorem kernel_unwrapped (fits : HeapRuns.Unwrapped size) : size + 4 ≤ Heap.rounded size := by
  rw [HeapRuns.Unwrapped] at fits
  exact (HeapKernel.rounded_spec size (by omega)).1

/-- A block for a size that wraps around cannot lie in the heap. -/
theorem kernel_wrapped {s' : HeapState} {p : Nat} (past : 16 < p) (fits : s'.heap_end < 2 ^ 32) (wraps : ¬ HeapRuns.Unwrapped size) :
    ¬ Serves HeapKernel.header s size (s',p) := by
  intro serves
  have bound := serves_bound past fits serves
  have words : HeapKernel.header.size = 16 := rfl
  rw [HeapRuns.Unwrapped] at wraps
  omega

theorem kmalloc_serves (holds : Holds HeapKernel.header s live) :
    KernelServes s size (kmalloc s size) ↔ HeapRuns.Unwrapped size ∨ Exhausted s (Heap.rounded size) := by
  by_cases asked : size = 0
  · subst asked
    exact iff_of_true (.inl ⟨rfl,.inl rfl⟩) (.inl (by decide))
  · rcases kmalloc_cases holds asked with ⟨exhausted,full⟩ | ⟨room,s',p,payload,made,holds',larger⟩
    · rw [full]
      exact iff_of_true True.intro (.inr exhausted)
    · obtain ⟨past,top⟩ := holds_place holds'
      rw [made]
      constructor
      · intro serves
        by_contra neither
        exact kernel_wrapped past top (fun fits => neither (.inl fits)) serves
      · rintro (fits | exhausted)
        · have enough := kernel_unwrapped fits
          exact serves_holds holds' (by omega)
        · exact absurd exhausted room

/-- A moved block: `krealloc` copies and frees, and stops only at a canary that the copy has destroyed. -/
theorem krealloc_wrapped (holds : Holds HeapKernel.header s ((p,payload) :: live))
    (wraps : ¬ HeapRuns.Unwrapped size) (word : size < 2 ^ 32) :
    KernelServes s size (krealloc s p size) ↔ size + 4 < 2 ^ 32 ∧ Exhausted s (Heap.rounded size) := by
  obtain ⟨-,-,⟨-,large⟩,length,-,low,high,top⟩ := holds_payload holds
  obtain ⟨past,-⟩ := holds_place holds
  have words : HeapKernel.header.size = 16 := rfl
  rw [words] at length low past
  have wide : 2 ^ 32 ≤ size + 4 + 15 := by
    rw [HeapRuns.Unwrapped] at wraps
    omega
  have segment : wrap (p + 2 ^ 32 - 16) = p - 16 := segment_of (h := HeapKernel.header) p (by omega) (by omega)
  by_cases past_top : size + 4 < 2 ^ 32
  · have sum : wrap (size + 4) = size + 4 := wrap_of_lt past_top
    have moves : krealloc s p size = (do
        let (s',new_ptr) ← kmalloc s size
        if new_ptr = 0 then return (s',new_ptr)
        else do
          let s'' ← kfree { s' with mem := memcpy s'.mem new_ptr p (s'.length (p - 16)) } p
          return (s'',new_ptr)) := by
      rw [krealloc,segment,sum,length,if_neg (by omega),if_neg (by omega),if_neg (by omega)]
    rw [moves]
    have asked : size ≠ 0 := by omega
    rcases kmalloc_cases holds asked with ⟨exhausted,full⟩ | ⟨room,s',q,bytes,made,holds',-⟩
    · rw [full]
      exact iff_of_true True.intro ⟨past_top,exhausted⟩
    · obtain ⟨past',top'⟩ := holds_place holds'
      rw [words] at past'
      rw [made]
      refine iff_of_false ?_ fun both => room both.2
      simp only [bind,Except.bind]
      rw [if_neg (by omega),HeapKernel.kfree_eq,if_neg (by omega)]
      cases freed : give_back HeapKernel.header { s' with mem := memcpy s'.mem q p (s'.length (p - 16)) } p with
      | error reason =>
        have other := give_back_error freed
        cases reason with
        | heap_full n => exact absurd rfl (other n)
        | canary seg => exact id
        | endless => exact id
      | ok s'' =>
        have end_ : s''.heap_end = s'.heap_end := (give_back_place freed).2
        exact kernel_wrapped past' (by omega) wraps
  · have sum : wrap (size + 4) < 4 := by
      rw [wrap]
      omega
    have stays : krealloc s p size = .ok (s,p) := by
      rw [krealloc,segment,length,if_neg (by omega),if_neg (by omega),if_pos (by omega)]
    rw [stays]
    exact iff_of_false (kernel_wrapped past top wraps) fun both => past_top both.1

theorem krealloc_serves (holds : Holds HeapKernel.header s ((p,payload) :: live)) (word : size < 2 ^ 32) :
    KernelServes s size (krealloc s p size) ↔ HeapRuns.Unwrapped size ∨ size + 4 < 2 ^ 32 ∧ Exhausted s (Heap.rounded size) := by
  by_cases fits : HeapRuns.Unwrapped size
  · refine iff_of_true ?_ (.inl fits)
    by_cases asked : size = 0
    · subst asked
      obtain ⟨s',freed,-⟩ := HeapKernel.kfree_spec holds
      rw [krealloc,if_pos rfl,freed]
      exact .inl ⟨rfl,.inl rfl⟩
    · have enough := kernel_unwrapped fits
      have bound : size + 4 + 16 ≤ 2 ^ 32 := by
        rw [HeapRuns.Unwrapped] at fits
        omega
      rcases HeapKernel.krealloc_spec holds (Nat.pos_of_ne_zero asked) bound with ⟨stays,room⟩ | ⟨full,-⟩ |
        ⟨s',q,bytes,moved,holds',room,-⟩
      · rw [stays]
        exact serves_holds holds room
      · rw [full]
        exact True.intro
      · rw [moved]
        exact serves_holds holds' (by omega)
  · rw [krealloc_wrapped holds fits word]
    exact ⟨.inr,fun either => either.resolve_left fits⟩

/-- `krealloc` of NULL is `kmalloc`. -/
theorem krealloc_null (holds : Holds HeapKernel.header s live) :
    KernelServes s size (krealloc s 0 size) ↔ HeapRuns.Unwrapped size ∨ Exhausted s (Heap.rounded size) := by
  by_cases asked : size = 0
  · subst asked
    exact iff_of_true (.inl ⟨rfl,.inl rfl⟩) (.inl (by decide))
  · rw [krealloc,if_neg asked,if_pos rfl]
    exact kmalloc_serves holds

theorem kcalloc_serves {count : Nat} (holds : Holds HeapKernel.header s live) :
    KernelServes s (count * size) (kcalloc s count size) ↔
      HeapRuns.Unwrapped (count * size) ∨ wrap (count * size) = 0 ∨ Exhausted s (Heap.rounded (wrap (count * size))) := by
  by_cases asked : wrap (count * size) = 0
  · have nothing : kcalloc s count size = .ok (s,0) := by
      rw [kcalloc,asked,kmalloc,if_pos rfl]
      simp only [bind,Except.bind,memset_nothing]
      rfl
    rw [nothing]
    exact iff_of_true (.inl ⟨rfl,.inr rfl⟩) (.inr (.inl asked))
  · rcases kmalloc_cases holds asked with ⟨exhausted,full⟩ | ⟨room,s',p,payload,made,holds',larger⟩
    · rw [kcalloc,full]
      exact iff_of_true True.intro (.inr (.inr exhausted))
    · obtain ⟨past,top⟩ := holds_place holds'
      rw [kcalloc,made]
      constructor
      · intro serves
        by_contra neither
        have serves : Serves HeapKernel.header s (count * size) ({ s' with mem := memset s'.mem p (wrap (count * size)) },p) := serves
        exact @kernel_wrapped _ (count * size) { s' with mem := memset s'.mem p (wrap (count * size)) } p past top
          (fun fits => neither (.inl fits)) serves
      · rintro (fits | nothing | exhausted)
        · have enough := kernel_unwrapped fits
          have product : wrap (count * size) = count * size := by
            rw [HeapRuns.Unwrapped] at fits
            exact wrap_of_lt (by omega)
          rw [product] at larger ⊢
          obtain ⟨-,-,-,length,-,low,high,-⟩ := holds_payload holds'
          have words : HeapKernel.header.size = 16 := rfl
          rw [words] at length low past
          have same : { s' with mem := memset s'.mem p (count * size) }.length (p - 16) = s'.length (p - 16) :=
            load32_agree (storeBytes_agree _ _ _ (.inl (by omega)))
          refine .inr ⟨?_,?_,?_⟩
          · dsimp only
            omega
          · rw [words]
            dsimp only
            omega
          · rw [words]
            dsimp only
            omega
        · exact absurd nothing asked
        · exact absurd exhausted room

end
section
variable {env : Environment} {lapic : Nat} {s : HeapState} {live : List (Nat × List UInt8)} {size : Nat}

theorem user_wrapped {s' : HeapState} {p : Nat} (past : 28 < p) (fits : s'.heap_end < 2 ^ 32) (wraps : ¬ UserSpecs.Unwrapped size) :
    ¬ Serves UserHeap.header s size (s',p) := by
  intro serves
  have bound := serves_bound past fits serves
  have words : UserHeap.header.size = 28 := rfl
  rw [UserSpecs.Unwrapped] at wraps
  omega

section
variable (contract : Contract env lapic)
include contract

theorem malloc_serves (holds : Holds UserHeap.header s live) (below : Below lapic s) (location : Location)
    (deeper : Nat) : UserServes s size (malloc env (deeper + 3) location s size) ↔
      UserSpecs.Unwrapped size ∨ Stuck env s (UserHeap.rounded size) := by
  by_cases asked : size = 0
  · subst asked
    exact iff_of_true (.inl ⟨rfl,.inl rfl⟩) (.inl (by decide))
  · rcases malloc_spec contract location holds below asked with ⟨stopped,stuck⟩ | ⟨moving,t,s',p,payload,made,-,holds',larger,-⟩
    · rw [stopped]
      exact iff_of_true True.intro (.inr stuck)
    · obtain ⟨past,top⟩ := holds_place holds'
      rw [made]
      constructor
      · intro serves
        by_contra neither
        exact user_wrapped past top (fun fits => neither (.inl fits)) serves
      · rintro (fits | stuck)
        · have enough := (UserSpecs.rounded_spec fits).1
          exact serves_holds holds' (by omega)
        · exact absurd stuck moving

section
variable (location : Location) {p : Nat} {payload : List UInt8} (holds : Holds UserHeap.header s ((p,payload) :: live))
  (below : Below lapic s) (deeper : Nat)
include holds below

/-- A moved block: `realloc` copies and frees, and stops only at a canary that the copy has destroyed. -/
theorem realloc_wrapped (wraps : ¬ UserSpecs.Unwrapped size)
    (word : size < 2 ^ 32) : UserServes s size (realloc env (deeper + 3) location s p size) ↔
      size + 4 < 2 ^ 32 ∧ Stuck env s (UserHeap.rounded size) := by
  obtain ⟨past,segment,length⟩ := UserSpecs.realloc_segment holds
  obtain ⟨-,-,⟨-,large⟩,-,-,low,high,top⟩ := holds_payload holds
  obtain ⟨behind,-⟩ := holds_place holds
  have words : UserHeap.header.size = 28 := rfl
  rw [words] at behind
  have wide : 2 ^ 32 ≤ size + 4 + 27 := by
    rw [UserSpecs.Unwrapped] at wraps
    omega
  have asked : size ≠ 0 := by omega
  by_cases past_top : size + 4 < 2 ^ 32
  · have sum : wrap (size + 4) = size + 4 := wrap_of_lt past_top
    have larger : ¬ wrap (size + 4) ≤ s.length (wrap (p + 2 ^ 32 - 28)) := by
      rw [segment,length,sum]
      omega
    rw [realloc_moves env location (deeper + 3) p size (by omega) asked larger]
    rcases malloc_spec contract location holds below asked with ⟨stopped,stuck⟩ | ⟨moving,t,s',q,bytes,made,-,holds',-,-⟩
    · rw [stopped]
      exact iff_of_true True.intro ⟨past_top,stuck⟩
    · obtain ⟨past',top'⟩ := holds_place holds'
      rw [words] at past'
      rw [made]
      refine iff_of_false ?_ fun both => moving both.2
      simp only [bind,Except.bind]
      rw [if_neg (by omega),segment,UserHeap.free,if_neg (by omega)]
      cases freed : give_back UserHeap.header { s' with mem := memcpy s'.mem q p (s'.length (p - 28)) } p with
      | error reason => exact id
      | ok s'' =>
        have end_ : s''.heap_end = s'.heap_end := (give_back_place freed).2
        exact user_wrapped past' (by omega) wraps
  · have sum : wrap (size + 4) < 4 := by
      rw [wrap]
      omega
    have stays : realloc env (deeper + 3) location s p size = .ok (s,p) := by
      rw [realloc,segment,length,if_neg asked,if_neg (by omega),if_pos (by omega)]
    rw [stays]
    exact iff_of_false (user_wrapped behind top wraps) fun both => past_top both.1

theorem realloc_serves (word : size < 2 ^ 32) : UserServes s size (realloc env (deeper + 3) location s p size) ↔
      UserSpecs.Unwrapped size ∨ size + 4 < 2 ^ 32 ∧ Stuck env s (UserHeap.rounded size) := by
  by_cases fits : UserSpecs.Unwrapped size
  · refine iff_of_true ?_ (.inl fits)
    by_cases asked : size = 0
    · subst asked
      obtain ⟨s',freed,-⟩ := free_spec holds
      rw [realloc,if_pos rfl,freed]
      exact .inl ⟨rfl,.inl rfl⟩
    · have enough := (UserSpecs.rounded_spec fits).1
      rcases realloc_spec contract location holds below asked fits with ⟨room,stays⟩ | ⟨stopped,-⟩ | ⟨s',q,bytes,moved,holds',room,-⟩
      · rw [stays]
        exact serves_holds holds room
      · rw [stopped]
        exact True.intro
      · rw [moved]
        exact serves_holds holds' (by omega)
  · rw [realloc_wrapped contract location holds below deeper fits word]
    exact ⟨.inr,fun either => either.resolve_left fits⟩

end

/-- `realloc` of NULL is `malloc`. -/
theorem realloc_null (holds : Holds UserHeap.header s live) (below : Below lapic s) (location : Location)
    (deeper : Nat) : UserServes s size (realloc env (deeper + 3) location s 0 size) ↔
      UserSpecs.Unwrapped size ∨ Stuck env s (UserHeap.rounded size) := by
  by_cases asked : size = 0
  · subst asked
    exact iff_of_true (.inl ⟨rfl,.inl rfl⟩) (.inl (by decide))
  · rw [realloc,if_neg asked,if_pos rfl]
    exact malloc_serves contract holds below location deeper

theorem calloc_serves (holds : Holds UserHeap.header s live) (below : Below lapic s) (location : Location)
    (deeper : Nat) {count : Nat} : UserServes s (count * size) (calloc env (deeper + 3) location s count size) ↔
      UserSpecs.Unwrapped (count * size) ∨ wrap (count * size) = 0 ∨ Stuck env s (UserHeap.rounded (wrap (count * size))) := by
  by_cases asked : wrap (count * size) = 0
  · have nothing : calloc env (deeper + 3) location s count size = .ok (s,0) := by
      rw [calloc,asked,malloc,if_pos rfl]
      simp only [bind,Except.bind,memset_nothing]
      rfl
    rw [nothing]
    exact iff_of_true (.inl ⟨rfl,.inr rfl⟩) (.inr (.inl asked))
  · by_cases fits : UserSpecs.Unwrapped (count * size)
    · refine iff_of_true ?_ (.inl fits)
      have some_bytes : count * size ≠ 0 := by
        intro nothing
        rw [nothing] at asked
        exact asked rfl
      have enough := (UserSpecs.rounded_spec fits).1
      rcases calloc_spec contract location holds below some_bytes fits with ⟨stopped,-⟩ | ⟨s',p,payload,made,holds',larger,-⟩
      · rw [stopped]
        exact True.intro
      · rw [made]
        exact serves_holds holds' (by omega)
    · rw [calloc]
      rcases malloc_spec contract location holds below asked with ⟨stopped,stuck⟩ | ⟨moving,t,s',p,payload,made,-,holds',-,-⟩
      · rw [stopped]
        exact iff_of_true True.intro (.inr (.inr stuck))
      · obtain ⟨past,top⟩ := holds_place holds'
        rw [made]
        refine iff_of_false ?_ ?_
        · exact @user_wrapped _ (count * size) { s' with mem := memset s'.mem p (wrap (count * size)) } p past top fits
        · rintro (unwrapped | nothing | stuck)
          · exact fits unwrapped
          · exact asked nothing
          · exact moving stuck

end

end

/-- In every heap reached, of the kernel and of a program: exactly when a call for these bytes is met, or stops
    without a change. -/
theorem allocation_capacity {env : Environment} {lapic depth : Nat} {k u : Client} (contract : Contract env lapic) (nested : 3 ≤ depth)
    (kernel : Reached heap_system k) (user : Reached (user_heap env depth) u) :
    (∀ size < 2 ^ 32, KernelServes k.heap size (kmalloc k.heap size) ↔ HeapRuns.Unwrapped size ∨ Exhausted k.heap (Heap.rounded size)) ∧
    (∀ size < 2 ^ 32, ∀ p, (p = 0 ∨ ∃ old, (p,old) ∈ k.live) → (KernelServes k.heap size (krealloc k.heap p size) ↔
      HeapRuns.Unwrapped size ∨ (p = 0 ∨ size + 4 < 2 ^ 32) ∧ Exhausted k.heap (Heap.rounded size))) ∧
    (∀ count < 2 ^ 32, ∀ size < 2 ^ 32, KernelServes k.heap (count * size) (kcalloc k.heap count size) ↔
      HeapRuns.Unwrapped (count * size) ∨ wrap (count * size) = 0 ∨ Exhausted k.heap (Heap.rounded (wrap (count * size)))) ∧
    (∀ location, ∀ size < 2 ^ 32, UserServes u.heap size (malloc env depth location u.heap size) ↔
      UserSpecs.Unwrapped size ∨ Stuck env u.heap (UserHeap.rounded size)) ∧
    (∀ location, ∀ size < 2 ^ 32, ∀ p, (p = 0 ∨ ∃ old, (p,old) ∈ u.live) →
      (UserServes u.heap size (realloc env depth location u.heap p size) ↔
      UserSpecs.Unwrapped size ∨ (p = 0 ∨ size + 4 < 2 ^ 32) ∧ Stuck env u.heap (UserHeap.rounded size))) ∧
    ∀ location, ∀ count < 2 ^ 32, ∀ size < 2 ^ 32, UserServes u.heap (count * size) (calloc env depth location u.heap count size) ↔
      UserSpecs.Unwrapped (count * size) ∨ wrap (count * size) = 0 ∨ Stuck env u.heap (UserHeap.rounded (wrap (count * size))) := by
  obtain ⟨deeper,rfl⟩ := Nat.exists_eq_add_of_le' nested
  obtain ⟨allocs,holds,listed⟩ := reached_tracks kernel
  obtain ⟨⟨allocs',holds',listed'⟩,below⟩ := reached_heap contract nested user
  refine ⟨fun size _ => kmalloc_serves holds,?_,fun count _ size _ => kcalloc_serves holds,
    fun location size _ => malloc_serves contract holds' below location deeper,?_,
    fun location count _ size _ => calloc_serves contract holds' below location deeper⟩
  · rintro size word p (rfl | ⟨old,member⟩)
    · simp only [true_or,true_and]
      exact krealloc_null holds
    · obtain ⟨bytes,rest,shape,-⟩ := fits_split listed member
      have here := holds_perm holds shape.symm
      have past := (holds_place here).1
      rw [or_iff_right (a := p = 0) (by omega)]
      exact krealloc_serves here word
  · rintro location size word p (rfl | ⟨old,member⟩)
    · simp only [true_or,true_and]
      exact realloc_null contract holds' below location deeper
    · obtain ⟨bytes,rest,shape,-⟩ := fits_split listed' member
      have here := holds_perm holds' shape.symm
      have past := (holds_place here).1
      rw [or_iff_right (a := p = 0) (by omega)]
      exact realloc_serves contract location here below deeper word

theorem one_page_reached : Reached heap_system one_page :=
  ⟨one_page,[],⟨_,0x1000,1,by decide,by decide,by decide,rfl⟩,.done _⟩

/-- Ten bytes in a new heap of the kernel and of a program. -/
theorem allocation_capacity_ten : KernelServes one_page.heap 10 (kmalloc one_page.heap 10) ∧
    ∃ s, UserHeap.initialize_heap all_pages (fun _ => 0) UserHeap.HEAP_ADDRESS UserHeap.HEAP_PAGES = some s ∧
      UserServes s 10 (malloc all_pages 3 ⟨0,0,0⟩ s 10) := by
  obtain ⟨s,started,-⟩ := all_pages_start
  have user : Reached (user_heap all_pages 3) ⟨s,[]⟩ := ⟨_,[],⟨_,s,started,rfl⟩,.done _⟩
  have both := allocation_capacity all_pages_contract (Nat.le_refl 3) one_page_reached user
  exact ⟨(both.1 10 (by decide)).2 (.inl (by decide)),s,started,(both.2.2.2.1 ⟨0,0,0⟩ 10 (by decide)).2 (.inl (by decide))⟩

/-- The size wraps around to nothing, and the first free segment is handed out. -/
theorem wrapped_size : ¬ ∀ (k : Client) (size : Nat), Reached heap_system k → size < 2 ^ 32 →
    KernelServes k.heap size (kmalloc k.heap size) := by
  intro claim
  have serves := claim one_page 0xFFFFFFFC one_page_reached (by decide)
  obtain ⟨allocs,holds,-⟩ := reached_tracks one_page_reached
  rcases (kmalloc_serves holds).1 serves with fits | exhausted
  · exact absurd fits (by decide)
  · have short := exhausted 0x1000 (List.mem_cons_self ..) rfl
    exact absurd short (by decide)

end MicroOS.HeapCapacity

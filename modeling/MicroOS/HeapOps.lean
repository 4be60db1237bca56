import MicroOS.HeapChain

/-!
What the operations on segments do to the list of blocks: merging a free block
with its free successor, splitting a free block, freeing a used one and handing a
free one out.
-/
namespace MicroOS.HeapOps
open Memory Heap Segments HeapChain

section
variable {h : Header} {s : HeapState} {pre post : List Block} {c d : Block}

theorem span_le_end (rep : Represents h s (pre ++ c :: post)) :
    s.heap_start + span h pre + h.size + c.length + span h post = s.heap_end := by
  have tiles := rep.tiles
  simp at tiles
  omega

/-- The state after a merge, with every access to the headers read off the blocks. -/
theorem combine_forward_eq (rep : Represents h s (pre ++ c :: d :: post)) (dfree : d.isFree = true) :
    combine_forward h s (s.heap_start + span h pre) =
      { s with
        mem :=
          store32 (store32 (if post.isEmpty then s.mem else
            store32 s.mem (s.heap_start + span h pre + h.size + c.length + h.size + d.length + 8) (s.heap_start + span h pre))
            (s.heap_start + span h pre) (c.length + d.length + h.size))
            (s.heap_start + span h pre + 4)
            (if post.isEmpty then 0 else s.heap_start + span h pre + h.size + c.length + h.size + d.length)
        last_hdr := if post.isEmpty then s.heap_start + span h pre else s.last_hdr } := by
  have large := h.large
  have some_size : h.size ≠ 0 := by omega
  have ends := span_le_end rep
  have nextC := next_at rep
  have lengthC := length_at rep
  have freeD := free_at (shift_block rep)
  have lengthD := length_at (shift_block rep)
  have final := rep.final
  have positive := rep.positive
  have fits := rep.fits
  rw [shift_start] at freeD lengthD
  simp only [span_cons] at ends
  generalize start : s.heap_start + span h pre = a at *
  have merged : wrap (c.length + d.length + h.size) = c.length + d.length + h.size := wrap_of_lt (by omega)
  simp only [HeapState.length,HeapState.next,free] at *
  cases post with
  | nil =>
    have nextD : load32 s.mem (a + h.size + c.length + 4) = 0 := by
      have atEnd := next_at_end (shift_block rep)
      rwa [shift_start,start] at atEnd
    have isLast : s.last_hdr = a + h.size + c.length := by
      rw [final,lastStart_append,start]
      rfl
    simp (disch := omega) [combine_forward,HeapState.next,free,HeapState.length,HeapState.setLength,
      HeapState.setNext,nextC,freeD,dfree,some_size,isLast,nextD,lengthC,lengthD,merged,load32_store32_apart]
  | cons p rest =>
    have nextD : load32 s.mem (a + h.size + c.length + 4) = a + h.size + c.length + h.size + d.length := by
      have leads := next_at (shift_block rep)
      rwa [shift_start,start] at leads
    have notLast : ¬ a + h.size + c.length = s.last_hdr := by
      have beyond : a + h.size + c.length + h.size + d.length ≤ s.last_hdr := by
        rw [final,lastStart_append,start]
        simp only [lastStart]
        exact le_lastStart rest (by omega) (by omega)
      omega
    simp (disch := omega) [combine_forward,HeapState.next,free,HeapState.length,HeapState.setLength,
      HeapState.setNext,HeapState.setLast,nextC,freeD,dfree,some_size,notLast,nextD,lengthC,lengthD,merged,
      load32_store32_apart]

/-- A free block of length `n` before `rest`, merged with a free successor. -/
def mergeNext (h : Header) (n : Nat) : List Block → List Block
  | .free k :: rest => .free (n + k + h.size) :: rest
  | rest => .free n :: rest

@[simp] theorem span_mergeNext (n : Nat) (rest : List Block) : span h (mergeNext h n rest) = h.size + n + span h rest := by
  cases rest with
  | nil => simp [mergeNext]
  | cons b more => cases b <;> simp [mergeNext]; omega

/-- A free block's header after its length and its `next` were stored. -/
theorem resized_free {m : Bytes} {prev next a n v w : Nat} (here : At h m prev next a (.free n)) (fitsV : v < 2 ^ 32)
    (fitsW : w < 2 ^ 32) : At h (store32 (store32 m a v) (a + 4) w) prev w a (.free v) where
  length := by rw [load32_store32_apart _ _ (by omega),load32_store32 _ _ fitsV]; rfl
  next := load32_store32 _ _ fitsW
  last := by rw [load32_store32_apart _ _ (by omega),load32_store32_apart _ _ (by omega),here.last]
  free := by
    have large := h.large
    rw [store32_outside _ _ _ (by omega),store32_outside _ _ _ (by omega),here.free]
    rfl
  payload := by rintro bytes ⟨⟩

theorem resized_agree (m : Bytes) (a v w : Nat) {lo hi : Nat} (apart : hi ≤ a ∨ a + 8 ≤ lo) :
    Agree m (store32 (store32 m a v) (a + 4) w) lo hi :=
  agree_trans (store32_agree _ _ _ (by omega)) (store32_agree _ _ _ (by omega))

/-- Merging forward from a free block. -/
theorem combine_forward_free {n : Nat} (rep : Represents h s (pre ++ .free n :: post)) :
    Represents h (combine_forward h s (s.heap_start + span h pre)) (pre ++ mergeNext h n post) := by
  cases post with
  | nil =>
    have stops : combine_forward h s (s.heap_start + span h pre) = s := by
      rw [combine_forward,if_pos (next_at_end rep)]
    rw [stops]
    exact rep
  | cons d post =>
    cases d with
    | used bytes =>
      have taken := free_at (shift_block rep)
      rw [shift_start] at taken
      have stops : combine_forward h s (s.heap_start + span h pre) = s := by
        rw [combine_forward,next_at rep,if_neg (by have := rep.positive; omega),if_pos (by rw [taken]; rfl)]
      rw [stops]
      exact rep
    | free k =>
      have large := h.large
      have ends := span_le_end rep
      have fits := rep.fits
      have tiles := rep.tiles
      have final := rep.final
      obtain ⟨before,here,after⟩ := (chain_append pre _ _).mp rep.chain
      have beyond := after.2
      rw [combine_forward_eq rep rfl]
      rw [lastStart_append] at final
      simp only [span_append,span_cons,free_length,mergeNext] at *
      refine ⟨(chain_append pre _ _).mpr ⟨?_,?_,?_⟩,?_,?_,rep.positive,rep.margin,fits⟩
      · refine chain_agree ?_ before
        cases post with
        | nil => exact resized_agree _ _ _ _ (by simp)
        | cons p rest =>
          exact agree_trans (store32_agree _ _ _ (by simp; omega)) (resized_agree _ _ _ _ (by simp))
      · cases post with
        | nil => exact resized_free here (by omega) (by simp)
        | cons p rest =>
          have kept := at_agree (store32_agree s.mem (s.heap_start + span h pre + h.size + n + h.size + k + 8)
            (s.heap_start + span h pre) (.inl (by simp only [free_length]; omega))) here
          have moved : s.heap_start + span h pre + h.size + (n + k + h.size) = s.heap_start + span h pre + h.size + n + h.size + k := by
            omega
          simp only [free_length,moved]
          exact resized_free kept (by omega) (by simp only [List.isEmpty_cons,Bool.false_eq_true,↓reduceIte]; omega)
      · have moved : s.heap_start + span h pre + h.size + (n + k + h.size) = s.heap_start + span h pre + h.size + n + h.size + k := by
          omega
        simp only [free_length,moved]
        cases post with
        | nil => trivial
        | cons p rest =>
          refine chain_relink ?_ ?_ ?_ beyond
          · exact agree_trans (store32_agree _ _ _ (by omega)) (resized_agree _ _ _ _ (by omega))
          · exact agree_trans (store32_agree _ _ _ (by omega)) (resized_agree _ _ _ _ (by omega))
          · rw [load32_agree (resized_agree _ _ _ _ (by omega))]
            exact load32_store32 _ _ (by omega)
      · simp; omega
      · have moved : s.heap_start + span h pre + h.size + (n + k + h.size) = s.heap_start + span h pre + h.size + n + h.size + k := by
          omega
        simp only [lastStart_append,free_length,moved]
        cases post with
        | nil => rfl
        | cons p rest => simpa [lastStart] using final

/-- Freeing the block in the middle: its successor and then its predecessor join it
    when they are free. -/
def release (h : Header) (pre : List Block) (n : Nat) (post : List Block) : List Block :=
  match pre.getLast? with
  | some (.free k) => pre.dropLast ++ mergeNext h k (mergeNext h n post)
  | _ => pre ++ mergeNext h n post

theorem mergeNext_cons (n : Nat) (rest : List Block) : ∃ k more, mergeNext h n rest = .free k :: more := by
  cases rest with
  | nil => exact ⟨n,[],rfl⟩
  | cons b more =>
    cases b with
    | free k => exact ⟨n+k+h.size,more,rfl⟩
    | used bytes => exact ⟨n,.used bytes :: more,rfl⟩

theorem combine_forward_start (h : Header) (s : HeapState) (a : Nat) :
    (combine_forward h s a).heap_start = s.heap_start := by
  simp only [combine_forward]
  split_ifs <;> rfl

/-- A free block joins the free block before it. -/
def joined (h : Header) (pre blocks : List Block) : List Block :=
  match pre.getLast? with
  | some (.free k) => pre.dropLast ++ mergeNext h k blocks
  | _ => pre ++ blocks

theorem combine_backward_free {n : Nat} (rep : Represents h s (pre ++ .free n :: post)) :
    Represents h (combine_backward h s (s.heap_start + span h pre)) (joined h pre (.free n :: post)) := by
  cases List.eq_nil_or_concat pre with
  | inl empty =>
    subst empty
    have alone : s.last (s.heap_start + span h []) = 0 := (header_at rep).last
    have stops : combine_backward h s (s.heap_start + span h []) = s := by
      rw [combine_backward,alone,if_neg (by simp)]
    rw [stops]
    exact rep
  | inr split =>
    obtain ⟨front,b,rfl⟩ := split
    rw [List.concat_eq_append] at *
    have back : s.last (s.heap_start + span h (front ++ [b])) = s.heap_start + span h front := by
      have link := (header_at rep).last
      rwa [lastStart_append] at link
    have before : Represents h s (front ++ b :: .free n :: post) := by simpa using rep
    have flag := free_at before
    have positive := before.positive
    cases b with
    | used bytes =>
      have stops : combine_backward h s (s.heap_start + span h (front ++ [.used bytes])) = s := by
        rw [combine_backward,back,flag,if_neg (by simp)]
      rw [stops]
      simpa [joined] using rep
    | free j =>
      have joins : combine_backward h s (s.heap_start + span h (front ++ [.free j])) =
          combine_forward h s (s.heap_start + span h front) := by
        rw [combine_backward,back,flag,if_pos (by simp; omega)]
      rw [joins]
      simpa [joined] using combine_forward_free before

/-- Freeing: both merges after the block was marked free. -/
theorem combine_both {n : Nat} (rep : Represents h s (pre ++ .free n :: post)) :
    Represents h (combine_backward h (combine_forward h s (s.heap_start + span h pre)) (s.heap_start + span h pre))
      (release h pre n post) := by
  have merged := combine_forward_free rep
  have start := combine_forward_start h s (s.heap_start + span h pre)
  obtain ⟨k,more,shape⟩ := mergeNext_cons (h := h) n post
  have both : release h pre n post = joined h pre (.free k :: more) := by
    rw [← shape]
    rfl
  rw [both]
  rw [shape] at merged
  generalize combine_forward h s (s.heap_start + span h pre) = t at merged start ⊢
  rw [← start]
  exact combine_backward_free merged

/-- The writes of a split at `a` into a block of `size` bytes and one of `rest`
    bytes with its header at `b`; `next` is what `a` led to before. -/
def splitWrites (h : Header) (m : Bytes) (a b size rest next : Nat) : Bytes :=
  let m := if next = 0 then m else store32 m (next + 8) b
  let m := store32 m (b + 4) next
  let m := store32 m (a + 4) b
  let m := store32 m (b + 8) a
  let m := store32 m b rest
  let m := storeByte m (b + (h.size - 4)) 1
  store32 m a size

theorem divide_eq {n size : Nat} (rep : Represents h s (pre ++ .free n :: post)) (large : 0x10 ≤ size)
    (room : size + h.size + 0x10 ≤ n) :
    (divide h s (s.heap_start + span h pre) size).1 =
      { s with
        mem := splitWrites h s.mem (s.heap_start + span h pre) (s.heap_start + span h pre + size + h.size) size (n - size - h.size)
          (if post.isEmpty then 0 else s.heap_start + span h pre + h.size + n)
        last_hdr := if post.isEmpty then s.heap_start + span h pre + size + h.size else s.last_hdr } := by
  have header := h.large
  have some_size : h.size ≠ 0 := by omega
  have ends := span_le_end rep
  have fits := rep.fits
  have lengthC := length_at rep
  have freeC := free_at rep
  have nextC : s.next (s.heap_start + span h pre) = if post.isEmpty then 0 else s.heap_start + span h pre + h.size + n :=
    (header_at rep).next
  have isLast : s.last_hdr = s.heap_start + span h pre ↔ post.isEmpty = true := by
    have final := rep.final
    rw [lastStart_append] at final
    cases post with
    | nil => simpa [lastStart] using final
    | cons p rest =>
      have beyond := @le_lastStart h rest (s.heap_start + span h pre + h.size + n)
        (s.heap_start + span h pre + h.size + n + h.size + p.length) _ (Nat.le_refl _) (by omega)
      simp only [lastStart,free_length] at final
      simp only [List.isEmpty_cons,Bool.false_eq_true,iff_false]
      omega
  simp only [free_length,free_isFree] at *
  generalize s.heap_start + span h pre = a at *
  have small : ¬ size < 0x10 := by omega
  have spare : ¬ n < wrap (size + h.size + 0x10) := by rw [wrap_of_lt (by omega)]; omega
  have newHdr : wrap (a + size + h.size) = a + size + h.size := wrap_of_lt (by omega)
  simp only [HeapState.next,HeapState.length,free] at nextC lengthC freeC
  cases post with
  | nil =>
    simp (disch := omega) [divide,small,HeapState.length,lengthC,spare,newHdr,HeapState.next,nextC,HeapState.setNext,
      HeapState.setLast,HeapState.setLength,setFree,free,isLast,splitWrites,
      store32_outside,freeC]
  | cons p rest =>
    simp (disch := omega) [divide,small,HeapState.length,lengthC,spare,newHdr,HeapState.next,nextC,HeapState.setNext,
      HeapState.setLast,HeapState.setLength,setFree,free,isLast,splitWrites,
      some_size,load32_store32_apart,store32_outside,freeC]

theorem splitWrites_agree (h : Header) (m : Bytes) (a b size rest next : Nat) {lo hi : Nat} (first : hi ≤ a ∨ a + 8 ≤ lo)
    (second : hi ≤ b ∨ b + h.size ≤ lo) (third : next = 0 ∨ hi ≤ next + 8 ∨ next + 12 ≤ lo) :
    Agree m (splitWrites h m a b size rest next) lo hi := by
  have header := h.large
  intro x low high
  simp only [splitWrites]
  rw [store32_outside _ _ _ (by omega),storeByte_outside _ _ _ (by omega),store32_outside _ _ _ (by omega),
    store32_outside _ _ _ (by omega),store32_outside _ _ _ (by omega),store32_outside _ _ _ (by omega)]
  split
  · rfl
  · exact store32_outside _ _ _ (by omega)

theorem splitWrites_first {m : Bytes} {a b size rest next prev n : Nat} (here : At h m prev next a (.free n))
    (above : a + h.size ≤ b) (beyond : next = 0 ∨ b ≤ next) (fitsSize : size < 2 ^ 32) (fitsB : b < 2 ^ 32) :
    At h (splitWrites h m a b size rest next) prev b a (.free size) := by
  have header := h.large
  refine ⟨load32_store32 _ _ fitsSize,?_,?_,?_,?_⟩
  · simp only [splitWrites]
    rw [load32_store32_apart _ _ (by omega),load32_storeByte_apart _ _ (by omega),load32_store32_apart _ _ (by omega),
      load32_store32_apart _ _ (by omega),load32_store32 _ _ fitsB]
  · exact (load32_agree (splitWrites_agree h m a b size rest next (by omega) (by omega) (by omega))).trans here.last
  · have flag : Agree m (splitWrites h m a b size rest next) (a + (h.size - 4)) (a + h.size) :=
      splitWrites_agree h m a b size rest next (by omega) (by omega) (by omega)
    exact (flag _ (by omega) (by omega)).trans here.free
  · rintro bytes ⟨⟩

theorem splitWrites_second {m : Bytes} {a b size rest next : Nat} (above : a + h.size ≤ b) (fitsA : a < 2 ^ 32)
    (fitsRest : rest < 2 ^ 32) (fitsNext : next < 2 ^ 32) :
    At h (splitWrites h m a b size rest next) a next b (.free rest) := by
  have header := h.large
  refine ⟨?_,?_,?_,?_,?_⟩
  · simp only [splitWrites]
    rw [load32_store32_apart _ _ (by omega),load32_storeByte_apart _ _ (by omega),load32_store32 _ _ fitsRest]
    rfl
  · simp only [splitWrites]
    rw [load32_store32_apart _ _ (by omega),load32_storeByte_apart _ _ (by omega),load32_store32_apart _ _ (by omega),
      load32_store32_apart _ _ (by omega),load32_store32_apart _ _ (by omega),load32_store32 _ _ fitsNext]
  · simp only [splitWrites]
    rw [load32_store32_apart _ _ (by omega),load32_storeByte_apart _ _ (by omega),load32_store32_apart _ _ (by omega),
      load32_store32 _ _ fitsA]
  · simp only [splitWrites]
    rw [store32_outside _ _ _ (by omega),storeByte_same]
    rfl
  · rintro bytes ⟨⟩

/-- Splitting a free block that leaves room for another header and 0x10 bytes. -/
theorem divide_free {n size : Nat} (rep : Represents h s (pre ++ .free n :: post)) (large : 0x10 ≤ size)
    (room : size + h.size + 0x10 ≤ n) :
    Represents h (divide h s (s.heap_start + span h pre) size).1
      (pre ++ .free size :: .free (n - size - h.size) :: post) := by
  have header := h.large
  have ends := span_le_end rep
  have fits := rep.fits
  have tiles := rep.tiles
  have positive := rep.positive
  have final := rep.final
  obtain ⟨before,here,beyond⟩ := (chain_append pre _ _).mp rep.chain
  rw [divide_eq rep large room]
  rw [lastStart_append] at final
  simp only [span_append,span_cons,free_length] at *
  have rejoin : s.heap_start + span h pre + h.size + size + h.size + (n - size - h.size) = s.heap_start + span h pre + h.size + n := by
    omega
  have second : s.heap_start + span h pre + h.size + size = s.heap_start + span h pre + size + h.size := by omega
  have reach : (if post.isEmpty then 0 else s.heap_start + span h pre + h.size + n) = 0 ∨
      (if post.isEmpty then 0 else s.heap_start + span h pre + h.size + n) = s.heap_start + span h pre + h.size + n := by
    split <;> simp
  refine ⟨(chain_append pre _ _).mpr ⟨?_,?_,?_,?_⟩,?_,?_,positive,rep.margin,fits⟩
  · dsimp only
    exact chain_agree (splitWrites_agree _ _ _ _ _ _ _ (by omega) (by omega) (by omega)) before
  · have first := @splitWrites_first h _ _ (s.heap_start + span h pre + size + h.size) size (n - size - h.size)
      _ _ _ here (by omega) (by omega) (by omega) (by omega)
    simpa [second] using first
  · have next := @splitWrites_second h s.mem (s.heap_start + span h pre) (s.heap_start + span h pre + size + h.size)
      size (n - size - h.size) (if post.isEmpty then 0 else s.heap_start + span h pre + h.size + n)
      (by omega) (by omega) (by omega) (by omega)
    simp only [free_length,rejoin]
    rw [second]
    exact next
  · simp only [free_length,rejoin]
    cases post with
    | nil => trivial
    | cons p rest =>
      simp only [List.isEmpty_cons,Bool.false_eq_true,↓reduceIte] at *
      refine chain_relink ?_ ?_ ?_ beyond
      · exact splitWrites_agree _ _ _ _ _ _ _ (by omega) (by omega) (by omega)
      · exact splitWrites_agree _ _ _ _ _ _ _ (by omega) (by omega) (by omega)
      · simp only [splitWrites]
        rw [if_neg (by omega),load32_store32_apart _ _ (by omega),load32_storeByte_apart _ _ (by omega),
          load32_store32_apart _ _ (by omega),load32_store32_apart _ _ (by omega),load32_store32_apart _ _ (by omega),
          load32_store32_apart _ _ (by omega),load32_store32 _ _ (by omega)]
        omega
  · simp; omega
  · simp only [lastStart_append,lastStart,free_length,rejoin]
    cases post with
    | nil => simp only [lastStart,List.isEmpty_nil,↓reduceIte]; omega
    | cons p rest => simpa [lastStart] using final

end
end MicroOS.HeapOps

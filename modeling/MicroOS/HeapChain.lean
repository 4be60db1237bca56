import MicroOS.Segments

/-!
The heap as a list of blocks. `Represents` relates the headers in memory to the
blocks they describe, which lie one after the other from `heap_start` to
`heap_end`; used blocks carry their payload. Merging two free neighbours,
splitting a free block and preparing it for its user are operations on that list.
-/
namespace MicroOS.HeapChain
open Memory Heap Segments

/-- A segment: free with a length, or used with the bytes of its payload. -/
inductive Block where
  | free (length : Nat)
  | used (payload : List UInt8)

def Block.length : Block → Nat
  | .free n => n
  | .used payload => payload.length

def Block.isFree : Block → Bool
  | .free _ => true
  | .used _ => false

@[simp] theorem free_length (n : Nat) : (Block.free n).length = n := rfl
@[simp] theorem used_length (payload : List UInt8) : (Block.used payload).length = payload.length := rfl
@[simp] theorem free_isFree (n : Nat) : (Block.free n).isFree = true := rfl
@[simp] theorem used_isFree (payload : List UInt8) : (Block.used payload).isFree = false := rfl

variable {h : Header}

/-- The bytes that the blocks take together with their headers. -/
def span (h : Header) : List Block → Nat
  | [] => 0
  | b :: rest => h.size + b.length + span h rest

@[simp] theorem span_nil : span h [] = 0 := rfl
@[simp] theorem span_cons (b : Block) (rest : List Block) : span h (b :: rest) = h.size + b.length + span h rest := rfl

@[simp] theorem span_append (xs ys : List Block) : span h (xs ++ ys) = span h xs + span h ys := by
  induction xs with
  | nil => simp
  | cons b rest ih => simp [ih]; omega

theorem length_le_span (xs : List Block) : 16 * xs.length ≤ span h xs := by
  induction xs with
  | nil => simp
  | cons b rest ih =>
    have large := h.large
    simp only [List.length_cons,span_cons]
    omega

/-- The header of the final block from `a` on, `prev` when there is none. -/
def lastStart (h : Header) : Nat → Nat → List Block → Nat
  | prev, _, [] => prev
  | _, a, b :: rest => lastStart h a (a + h.size + b.length) rest

theorem lastStart_append (xs : List Block) (y : Block) (ys : List Block) (prev a : Nat) :
    lastStart h prev a (xs ++ y :: ys) = lastStart h (a + span h xs) (a + span h xs + h.size + y.length) ys := by
  induction xs generalizing prev a with
  | nil => simp [lastStart]
  | cons b rest ih =>
    simp only [List.cons_append,lastStart,ih,span_cons]
    congr 1 <;> omega

theorem le_lastStart (xs : List Block) {prev a lo : Nat} (low : lo ≤ prev) (first : lo ≤ a) :
    lo ≤ lastStart h prev a xs := by
  induction xs generalizing prev a with
  | nil => exact low
  | cons b rest ih => exact ih first (by omega)

/-- The header at `a` and, for a used block, its payload after it. -/
structure At (h : Header) (m : Bytes) (prev next a : Nat) (b : Block) : Prop where
  length : load32 m a = b.length
  next : load32 m (a + 4) = next
  last : load32 m (a + 8) = prev
  free : m (a + (h.size - 4)) = if b.isFree then 1 else 0
  payload : ∀ bytes, b = .used bytes → slice m (a + h.size) bytes.length = bytes

theorem at_agree {m m' : Bytes} {prev next a : Nat} {b : Block} (same : Agree m m' a (a + h.size + b.length))
    (here : At h m prev next a b) : At h m' prev next a b := by
  have large := h.large
  refine ⟨?_,?_,?_,?_,?_⟩
  · exact (load32_agree (agree_mono same (by omega) (by omega))).trans here.length
  · exact (load32_agree (agree_mono same (by omega) (by omega))).trans here.next
  · exact (load32_agree (agree_mono same (by omega) (by omega))).trans here.last
  · exact (same _ (by omega) (by omega)).trans here.free
  · rintro bytes rfl
    exact (slice_agree (agree_mono same (by omega) (by simp))).trans (here.payload bytes rfl)

/-- Blocks one after the other from `a`: `prev` is the header before them and
    `tail` what the final header's `next` holds. -/
def Chain (h : Header) (m : Bytes) (tail : Nat) : Nat → Nat → List Block → Prop
  | _, _, [] => True
  | prev, a, b :: rest =>
    At h m prev (if rest.isEmpty then tail else a + h.size + b.length) a b ∧ Chain h m tail a (a + h.size + b.length) rest

theorem chain_agree {m m' : Bytes} {tail prev a : Nat} {xs : List Block} (same : Agree m m' a (a + span h xs))
    (chain : Chain h m tail prev a xs) : Chain h m' tail prev a xs := by
  induction xs generalizing prev a with
  | nil => trivial
  | cons b rest ih =>
    simp only [span_cons] at same
    exact ⟨at_agree (agree_mono same (by omega) (by omega)) chain.1,
      ih (agree_mono same (by omega) (by omega)) chain.2⟩

/-- A chain cut before a block: the final `next` of the first part leads to it
    and its `last` leads back. -/
theorem chain_append {m : Bytes} {tail prev a : Nat} (xs : List Block) (y : Block) (ys : List Block) :
    Chain h m tail prev a (xs ++ y :: ys) ↔
      Chain h m (a + span h xs) prev a xs ∧ Chain h m tail (lastStart h prev a xs) (a + span h xs) (y :: ys) := by
  induction xs generalizing prev a with
  | nil => simp [Chain,lastStart]
  | cons b rest ih =>
    have shift : a + h.size + b.length + span h rest = a + span h (b :: rest) := by simp; omega
    have leads : (if rest.isEmpty then a + span h (b :: rest) else a + h.size + b.length) = a + h.size + b.length := by
      cases rest with
      | nil => simp; omega
      | cons c more => simp
    have more : (rest ++ y :: ys).isEmpty = false := by simp
    rw [List.cons_append,Chain,Chain,ih,leads,shift,more]
    simp only [Bool.false_eq_true,↓reduceIte,lastStart]
    exact and_assoc.symm

/-- Only the `last` of its first header depends on what stands before a chain. -/
theorem chain_relink {m m' : Bytes} {tail prev prev' a : Nat} {b : Block} {rest : List Block}
    (before : Agree m m' a (a + 8)) (after : Agree m m' (a + 12) (a + span h (b :: rest)))
    (linked : load32 m' (a + 8) = prev') (chain : Chain h m tail prev a (b :: rest)) :
    Chain h m' tail prev' a (b :: rest) := by
  have large := h.large
  simp only [span_cons] at after
  obtain ⟨here,beyond⟩ := chain
  refine ⟨⟨?_,?_,linked,?_,?_⟩,?_⟩
  · exact (load32_agree (agree_mono before (by omega) (by omega))).trans here.length
  · exact (load32_agree (agree_mono before (by omega) (by omega))).trans here.next
  · exact (after _ (by omega) (by omega)).trans here.free
  · rintro bytes rfl
    exact (slice_agree (agree_mono after (by omega) (by simp only [used_length]; omega))).trans
      (here.payload bytes rfl)
  · exact chain_agree (agree_mono after (by omega) (by omega)) beyond

/-- The headers in memory describe exactly these blocks, from `heap_start` to
    `heap_end`. -/
structure Represents (h : Header) (s : HeapState) (blocks : List Block) : Prop where
  chain : Chain h s.mem 0 0 s.heap_start blocks
  tiles : s.heap_start + span h blocks = s.heap_end
  final : s.last_hdr = lastStart h 0 s.heap_start blocks
  positive : 0 < s.heap_start
  margin : 16 ≤ s.heap_start + h.unit
  fits : s.heap_end < 2 ^ 32

section
variable {s : HeapState} {pre post : List Block} {c d : Block}

/-- What the code reads off the header of a block in the middle. -/
theorem header_at (rep : Represents h s (pre ++ c :: post)) :
    At h s.mem (lastStart h 0 s.heap_start pre)
      (if post.isEmpty then 0 else s.heap_start + span h pre + h.size + c.length) (s.heap_start + span h pre) c :=
  ((chain_append pre c post).mp rep.chain).2.1

theorem length_at (rep : Represents h s (pre ++ c :: post)) : s.length (s.heap_start + span h pre) = c.length :=
  (header_at rep).length

theorem free_at (rep : Represents h s (pre ++ c :: post)) : free h s (s.heap_start + span h pre) = c.isFree := by
  have flag := (header_at rep).free
  cases c <;> simp [free,flag]

theorem next_at_end (rep : Represents h s (pre ++ [c])) : s.next (s.heap_start + span h pre) = 0 :=
  (header_at rep).next

theorem next_at (rep : Represents h s (pre ++ c :: d :: post)) :
    s.next (s.heap_start + span h pre) = s.heap_start + span h pre + h.size + c.length :=
  (header_at rep).next

/-- The block after `c`, seen as a block in the middle itself. -/
theorem shift_block (rep : Represents h s (pre ++ c :: d :: post)) : Represents h s ((pre ++ [c]) ++ d :: post) := by
  simpa using rep

theorem shift_start (h : Header) (s : HeapState) (pre : List Block) (c : Block) :
    s.heap_start + span h (pre ++ [c]) = s.heap_start + span h pre + h.size + c.length := by
  simp; omega

end
end MicroOS.HeapChain

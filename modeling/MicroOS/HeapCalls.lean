import MicroOS.HeapOps

/-!
`kmalloc`, `kfree` and `krealloc` on the list of blocks. A call either returns,
and then the blocks change as `Allocates` and `release` say, or the heap is full;
the canaries of a sound heap never trip.
-/
namespace MicroOS.HeapCalls
open Memory Heap Segments HeapChain HeapOps

/-- `HEAP_CANARY_VALUE` in memory. -/
def canaryBytes : List UInt8 := [0xEF,0xBE,0xAD,0xDE]

/-- A payload whose last four bytes are the canary. -/
def Guarded (payload : List UInt8) : Prop := ∃ front, payload = front ++ canaryBytes

/-- The lengths that blocks have: multiples of the unit, and never less than 0x10 bytes. -/
def Sized (h : Header) (n : Nat) : Prop := h.unit ∣ n ∧ 16 ≤ n

/-- What the blocks keep between calls: their lengths, used payloads end in their
    canary, and no two free blocks are neighbours. -/
structure Sound (h : Header) (blocks : List Block) : Prop where
  aligned : ∀ b ∈ blocks, Sized h b.length
  guarded : ∀ payload, .used payload ∈ blocks → Guarded payload
  apart : blocks.IsChain (fun b c => ¬ (b.isFree = true ∧ c.isFree = true))

section
variable {h : Header} {s : HeapState} {pre post : List Block} {c d : Block}

/-- Rewriting one block in place. -/
theorem represents_replace {m' : Bytes} (rep : Represents h s (pre ++ c :: post))
    (below : Agree s.mem m' s.heap_start (s.heap_start + span h pre))
    (above : Agree s.mem m' (s.heap_start + span h pre + h.size + c.length) s.heap_end)
    (same : d.length = c.length)
    (here : At h m' (lastStart h 0 s.heap_start pre)
      (if post.isEmpty then 0 else s.heap_start + span h pre + h.size + c.length) (s.heap_start + span h pre) d) :
    Represents h { s with mem := m' } (pre ++ d :: post) := by
  obtain ⟨before,_,after⟩ := (chain_append pre c post).mp rep.chain
  have ends := span_le_end rep
  refine ⟨(chain_append pre d post).mpr ⟨chain_agree below before,?_,?_⟩,?_,?_,rep.positive,rep.margin,rep.fits⟩
  · rw [same]
    exact here
  · rw [same]
    refine chain_agree (agree_mono above (Nat.le_refl _) ?_) after
    dsimp only
    omega
  · simp [same]
    omega
  · have final := rep.final
    rw [lastStart_append] at final ⊢
    rw [same]
    exact final

theorem load32_canary {m : Bytes} {a : Nat} (stored : slice m a 4 = canaryBytes) :
    load32 m a = HEAP_CANARY_VALUE := by
  have b0 := congrArg (fun l => l[0]?) stored
  have b1 := congrArg (fun l => l[1]?) stored
  have b2 := congrArg (fun l => l[2]?) stored
  have b3 := congrArg (fun l => l[3]?) stored
  simp only [slice_getElem?,canaryBytes] at b0 b1 b2 b3
  simp at b0 b1 b2 b3
  simp [load32,b0,b1,b2,b3,HEAP_CANARY_VALUE]

theorem slice_store32_canary (m : Bytes) (a : Nat) : slice (store32 m a HEAP_CANARY_VALUE) a 4 = canaryBytes := by
  simp [slice,List.range_succ,store32,HEAP_CANARY_VALUE,canaryBytes]

theorem canary_place (rep : Represents h s (pre ++ c :: post)) :
    canary_at h s (s.heap_start + span h pre) = s.heap_start + span h pre + h.size + c.length - 4 := by
  have ends := span_le_end rep
  have fits := rep.fits
  rw [Segments.canary_at,length_at rep,wrap_of_lt (by omega)]

theorem canary_stored {payload : List UInt8} (rep : Represents h s (pre ++ .used payload :: post))
    (guarded : Guarded payload) :
    load32 s.mem (canary_at h s (s.heap_start + span h pre)) = HEAP_CANARY_VALUE := by
  obtain ⟨front,rfl⟩ := guarded
  have stored := (header_at rep).payload _ rfl
  rw [canary_place rep]
  rw [List.length_append,slice_append] at stored
  have tail := (List.append_inj stored (by simp)).2
  have place : s.heap_start + span h pre + h.size + (Block.used (front ++ canaryBytes)).length - 4 =
      s.heap_start + span h pre + h.size + front.length := by
    simp only [used_length,List.length_append,canaryBytes,List.length_cons,List.length_nil]
    omega
  rw [place]
  exact load32_canary tail

theorem canary_intact {rest : List Block} (rep : Represents h s (pre ++ c :: rest))
    (guarded : ∀ payload, .used payload ∈ c :: rest → Guarded payload) : ¬ (!free h s (s.heap_start + span h pre) &&
      load32 s.mem (canary_at h s (s.heap_start + span h pre)) != HEAP_CANARY_VALUE) = true := by
  cases c with
  | free n => simp [free_at rep]
  | used payload => simp [canary_stored rep (guarded payload (by simp))]

/-- The walk over the canaries of a sound heap ends at the final segment. -/
theorem check_from_ok {rest : List Block} {fuel : Nat} (rep : Represents h s (pre ++ c :: rest))
    (guarded : ∀ payload, .used payload ∈ c :: rest → Guarded payload) (enough : rest.length < fuel) :
    check_canaries h s fuel (s.heap_start + span h pre) = .ok () := by
  induction rest generalizing pre c fuel with
  | nil =>
    obtain ⟨fuel,rfl⟩ : ∃ k, fuel = k + 1 := ⟨fuel - 1,by omega⟩
    rw [check_canaries,if_neg (canary_intact rep guarded),if_pos (next_at_end rep)]
  | cons d rest ih =>
    obtain ⟨fuel,rfl⟩ : ∃ k, fuel = k + 1 := ⟨fuel - 1,by omega⟩
    have leads := next_at rep
    have positive := rep.positive
    rw [check_canaries,if_neg (canary_intact rep guarded),if_neg (by omega),leads,← shift_start]
    exact ih (shift_block rep) (fun payload member => guarded payload (by simp [member]))
      (by simp at enough; omega)

theorem walk_enough {blocks : List Block} (rep : Represents h s blocks) : blocks.length ≤ s.walk := by
  have tiles := rep.tiles
  have fits := rep.fits
  have headers := length_le_span (h := h) blocks
  rw [HeapState.walk]
  omega

theorem check_ok {blocks : List Block} (rep : Represents h s blocks) (sound : Sound h blocks) (some_block : blocks ≠ []) :
    check_canaries h s s.walk s.heap_start = .ok () := by
  have enough := walk_enough rep
  obtain ⟨b,rest,rfl⟩ := List.exists_cons_of_ne_nil some_block
  have start : s.heap_start = s.heap_start + span h [] := rfl
  rw [start]
  exact @check_from_ok h _ [] _ _ _ rep sound.guarded (by simp at enough; omega)

/-- What may be noted in a header: only what lies between its links and its flag. -/
def Notes (h : Header) (note : Bytes → Nat → Bytes) : Prop :=
  ∀ m a lo hi, hi ≤ a + 12 ∨ a + (h.size - 4) ≤ lo → Agree m (note m a) lo hi

section
variable {note : Bytes → Nat → Bytes} {n : Nat} (notes : Notes h note) (rep : Represents h s (pre ++ .free n :: post))
include notes rep

theorem noted : Represents h { s with mem := note s.mem (s.heap_start + span h pre) } (pre ++ .free n :: post) := by
  have large := h.large
  have here := header_at rep
  have links := notes s.mem (s.heap_start + span h pre) (s.heap_start + span h pre) (s.heap_start + span h pre + 12) (by omega)
  have flag := notes s.mem (s.heap_start + span h pre) (s.heap_start + span h pre + (h.size - 4)) s.heap_end (by omega)
  have ends := span_le_end rep
  refine represents_replace rep ?_ ?_ rfl ⟨?_,?_,?_,?_,?_⟩
  · exact notes _ _ _ _ (by omega)
  · exact agree_mono flag (by omega) (by omega)
  · exact (load32_agree (agree_mono links (by omega) (by omega))).trans here.length
  · exact (load32_agree (agree_mono links (by omega) (by omega))).trans here.next
  · exact (load32_agree (agree_mono links (by omega) (by omega))).trans here.last
  · exact (flag _ (by omega) (by omega)).trans here.free
  · rintro bytes ⟨⟩

/-- The payload of a prepared block: whatever was there, and the canary. -/
theorem prepare_free (room : 4 ≤ n) :
    ∃ s' payload, prepare h note s (s.heap_start + span h pre) = (s',s.heap_start + span h pre + h.size) ∧
      Represents h s' (pre ++ .used payload :: post) ∧ payload.length = n ∧ Guarded payload ∧
      s'.heap_start = s.heap_start ∧ s'.heap_end = s.heap_end := by
  have large := h.large
  have rep := noted notes rep
  have ends := span_le_end rep
  have fits := rep.fits
  have here := header_at rep
  have cell := length_at rep
  generalize whole_note : { s with mem := note s.mem (s.heap_start + span h pre) } = t at *
  have same_start : s.heap_start = t.heap_start := by rw [← whole_note]
  have same_end : s.heap_end = t.heap_end := by rw [← whole_note]
  have unfolded : prepare h note s (s.heap_start + span h pre) = ({ t with
      mem := store32 (storeByte t.mem (s.heap_start + span h pre + (h.size - 4)) 0)
        (canary_at h (setFree h t (s.heap_start + span h pre) false) (s.heap_start + span h pre)) HEAP_CANARY_VALUE },
      wrap (s.heap_start + span h pre + h.size)) := by
    rw [← whole_note]
    rfl
  rw [unfolded,same_start,same_end]
  simp only [free_length] at ends cell here
  have unmoved : (setFree h t (t.heap_start + span h pre) false).length (t.heap_start + span h pre) = n := by
    simp only [HeapState.length,setFree]
    rw [load32_storeByte_apart _ _ (by omega)]
    exact cell
  have pointer : canary_at h (setFree h t (t.heap_start + span h pre) false) (t.heap_start + span h pre) =
      t.heap_start + span h pre + h.size + (n - 4) := by
    rw [Segments.canary_at,unmoved,wrap_of_lt (by omega)]
    omega
  have split := slice_append (store32 (storeByte t.mem (t.heap_start + span h pre + (h.size - 4)) 0)
    (t.heap_start + span h pre + h.size + (n - 4)) HEAP_CANARY_VALUE) (t.heap_start + span h pre + h.size) (n - 4) 4
  rw [slice_store32_canary] at split
  have whole : n - 4 + 4 = n := by omega
  rw [whole] at split
  rw [pointer,wrap_of_lt (by omega)]
  refine ⟨_,_,rfl,represents_replace (d := .used _) rep ?_ ?_ ?_ ⟨?_,?_,?_,?_,?_⟩,?_,⟨_,split⟩,rfl,rfl⟩
  · exact agree_trans (storeByte_agree _ _ _ (by omega)) (store32_agree _ _ _ (by omega))
  · simp only [free_length]
    exact agree_trans (storeByte_agree _ _ _ (by omega)) (store32_agree _ _ _ (by omega))
  · exact slice_length _ _ _
  · exact ((load32_store32_apart _ _ (by omega)).trans (load32_storeByte_apart _ _ (by omega))).trans
      (here.length.trans (slice_length _ _ _).symm)
  · exact ((load32_store32_apart _ _ (by omega)).trans (load32_storeByte_apart _ _ (by omega))).trans here.next
  · exact ((load32_store32_apart _ _ (by omega)).trans (load32_storeByte_apart _ _ (by omega))).trans here.last
  · exact (store32_outside _ _ _ (by omega)).trans (storeByte_same _ _ _)
  · rintro bytes ⟨⟩
    rw [slice_length]
  · exact slice_length _ _ _

end

end

section
variable {h : Header} {pre post : List Block}

variable {payload : List UInt8} {n : Nat}

/-- A used block separates its neighbours, so handing a block out keeps free
    blocks apart, also when the rest of it stays free behind it. -/
theorem sound_take {c : Block} (sound : Sound h (pre ++ c :: post)) (guarded : Guarded payload)
    (aligned : Sized h payload.length) : Sound h (pre ++ .used payload :: post) := by
  have apart := sound.apart
  rw [List.isChain_append,List.isChain_cons] at apart
  obtain ⟨before,⟨-,after⟩,-⟩ := apart
  refine ⟨?_,?_,List.isChain_append.mpr ⟨before,List.isChain_cons.mpr ⟨by simp,after⟩,by simp⟩⟩
  · intro b member
    rcases List.mem_append.mp member with found | found
    · exact sound.aligned b (by simp [found])
    · rcases List.mem_cons.mp found with rfl | found
      · exact aligned
      · exact sound.aligned b (by simp [found])
  · intro bytes member
    rcases List.mem_append.mp member with found | found
    · exact sound.guarded bytes (by simp [found])
    · rcases List.mem_cons.mp found with found | found
      · cases found
        exact guarded
      · exact sound.guarded bytes (by simp [found])

theorem sound_take_split {k : Nat} (sound : Sound h (pre ++ .free n :: post))
    (guarded : Guarded payload) (aligned : Sized h payload.length) (rest : Sized h k) :
    Sound h (pre ++ .used payload :: .free k :: post) := by
  have apart := sound.apart
  rw [List.isChain_append,List.isChain_cons] at apart
  obtain ⟨before,⟨beside,after⟩,-⟩ := apart
  have whole := sound_take sound guarded aligned
  refine ⟨?_,?_,List.isChain_append.mpr ⟨before,List.isChain_cons.mpr ⟨by simp,List.isChain_cons.mpr ⟨beside,after⟩⟩,
    by simp⟩⟩
  · intro b member
    rcases List.mem_append.mp member with found | found
    · exact whole.aligned b (by simp [found])
    · rcases List.mem_cons.mp found with rfl | found
      · exact aligned
      · rcases List.mem_cons.mp found with rfl | found
        · exact rest
        · exact whole.aligned b (by simp [found])
  · intro bytes member
    exact whole.guarded bytes (by simpa using member)

theorem aligned_mergeNext {n : Nat} (here : Sized h n) (aligned : ∀ b ∈ post, Sized h b.length) :
    ∀ b ∈ mergeNext h n post, Sized h b.length := by
  cases post with
  | nil => simpa [mergeNext] using here
  | cons c rest =>
    cases c with
    | used bytes => simpa [mergeNext] using ⟨here,by simpa using aligned⟩
    | free k =>
      have next : Sized h k := aligned (.free k) (by simp)
      intro b member
      have words := h.aligned
      obtain ⟨word,enough⟩ := here
      obtain ⟨next_word,_⟩ := next
      rcases List.mem_cons.mp member with rfl | later
      · simp only [free_length]
        exact ⟨(word.add next_word).add words,by omega⟩
      · exact aligned b (by simp [later])

theorem used_mergeNext {bytes : List UInt8} (member : .used bytes ∈ mergeNext h n post) : .used bytes ∈ post := by
  cases post with
  | nil => simp [mergeNext] at member
  | cons c rest => cases c <;> simpa [mergeNext] using member

theorem apart_mergeNext {n : Nat} (apart : post.IsChain (fun b c => ¬ (b.isFree = true ∧ c.isFree = true))) :
    (mergeNext h n post).IsChain (fun b c => ¬ (b.isFree = true ∧ c.isFree = true)) := by
  cases post with
  | nil => simp [mergeNext]
  | cons c rest =>
    cases c with
    | used bytes => exact List.isChain_cons.mpr ⟨by simp,apart⟩
    | free k =>
      obtain ⟨beside,after⟩ := List.isChain_cons.mp apart
      exact List.isChain_cons.mpr ⟨beside,after⟩

/-- Freeing leaves no two free neighbours: both merges are made. -/
theorem sound_release (sound : Sound h (pre ++ .used payload :: post)) :
    Sound h (release h pre payload.length post) := by
  have here : Sized h payload.length := sound.aligned (.used payload) (by simp)
  have apart := sound.apart
  rw [List.isChain_append,List.isChain_cons] at apart
  obtain ⟨before,⟨-,after⟩,-⟩ := apart
  have aligned := @aligned_mergeNext h post _ here (fun b member => sound.aligned b (by simp [member]))
  have merged := @apart_mergeNext h post payload.length after
  obtain ⟨k,more,shape⟩ := mergeNext_cons (h := h) payload.length post
  cases List.eq_nil_or_concat pre with
  | inl empty =>
    subst empty
    exact ⟨aligned,fun bytes member => sound.guarded bytes (by simp [used_mergeNext member]),merged⟩
  | inr split =>
    obtain ⟨front,b,rfl⟩ := split
    rw [List.concat_eq_append] at *
    obtain ⟨-,-,beside⟩ := List.isChain_append.mp before
    cases b with
    | used bytes =>
      simp only [release,List.getLast?_concat]
      refine ⟨?_,?_,List.isChain_append.mpr ⟨before,merged,by simp⟩⟩
      · intro b member
        rcases List.mem_append.mp member with found | found
        · exact sound.aligned b (List.mem_append_left _ found)
        · exact aligned b found
      · intro bytes member
        rcases List.mem_append.mp member with found | found
        · exact sound.guarded bytes (List.mem_append_left _ found)
        · exact sound.guarded bytes (by simp [used_mergeNext found])
    | free j =>
      have previous : Sized h j := sound.aligned (.free j) (by simp)
      simp only [release,List.getLast?_concat,List.dropLast_concat]
      refine ⟨?_,?_,List.isChain_append.mpr ⟨(List.isChain_append.mp before).1,apart_mergeNext merged,?_⟩⟩
      · intro b member
        rcases List.mem_append.mp member with found | found
        · exact sound.aligned b (by simp [found])
        · exact aligned_mergeNext previous aligned b found
      · intro bytes member
        rcases List.mem_append.mp member with found | found
        · exact sound.guarded bytes (by simp [found])
        · exact sound.guarded bytes (by simp [used_mergeNext (used_mergeNext found)])
      · intro x last y first
        have separate := beside x last (.free j) (by simp)
        rw [shape] at first
        simp only [mergeNext,List.head?_cons,Option.mem_def,Option.some.injEq] at first
        rw [← first]
        exact separate

end
end MicroOS.HeapCalls

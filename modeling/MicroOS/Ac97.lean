import MicroOS.Memory
import MicroOS.Runs

/-!
`ac97_write_pcm` copies the sound, puts up to 16 buffers of it into the ring and leaves the rest as pending for the
periodic `ac97_feed_pending`, while the card plays the descriptors from CURRENT_INDEX up to LAST_VALID_INDEX. The main
theorem is `playback_ring`: along which runs every accepted byte is placed, and no page is overwritten that is to be played.
-/

namespace MicroOS.Ac97
open Memory (Bytes storeBytes)
open Runs
open Option (getD_some map_some some.injEq)

/-- AC97_NUM_BUFFER_DESCRIPTORS, which is also AC97_OUTPUT_BUFFER_PAGES. -/
def NUM_BUFFER_DESCRIPTORS : Nat := 32

/-- A copy from `vmm_alloc`, with `pending_audio_offset`. -/
structure Copy where
  id : Nat
  data : List UInt8
  offset : Nat

/-- The driver with the registers of its card; then the copies allocated and freed so far, the bytes reported as accepted
    and those placed, whether a buffer went outside the pages of the ring, and whether a page was overwritten whose
    descriptor was to be played. -/
structure Driver where
  m_output_buffer_region : Bytes
  data_addr : Fin 32 → Nat
  num_samples : Fin 32 → BitVec 16
  m_current_output_buffer_page : Nat
  m_current_buffer_descriptor : Fin 32
  m_output_dma_enabled : Bool
  pending : Option Copy
  current_index : Fin 32
  last_valid_index : Fin 32
  copies : Nat
  freed : List Nat
  accepted : List UInt8
  placed : List UInt8
  outside : Bool
  overwritten : Bool

/-- The descriptors from CURRENT_INDEX up to LAST_VALID_INDEX, once the card runs. -/
def InUse (d : Driver) (i : Fin 32) : Prop :=
  d.m_output_dma_enabled = true ∧ (i - d.current_index).val ≤ (d.last_valid_index - d.current_index).val

instance (d : Driver) (i : Fin 32) : Decidable (InUse d i) := inferInstanceAs (Decidable (_ ∧ _))

/-- The card resets its registers. -/
def ac97_reset_output (d : Driver) : Driver :=
  { d with
    current_index := 0
    last_valid_index := 0
    m_output_dma_enabled := false
    m_current_buffer_descriptor := 0 }

/-- `min(count, 0x1000)` takes a `uint64_t` as an `int`, which is negative from 2^31 on. -/
def num_bytes (count : Nat) : Nat := if count < 2 ^ 31 then min count 0x1000 else count

/-- One round of the loop of `ac97_write_buffer_chunk`; a data address is the number of its page. -/
def put (d : Driver) (bytes : List UInt8) : Driver :=
  let d := if d.m_output_dma_enabled then d else ac97_reset_output d
  let page := d.m_current_output_buffer_page
  let i := d.m_current_buffer_descriptor
  { d with
    m_output_buffer_region := storeBytes d.m_output_buffer_region (0x1000 * page) bytes
    data_addr := Function.update d.data_addr i page
    num_samples := Function.update d.num_samples i (BitVec.ofNat 16 (bytes.length / 2))
    last_valid_index := i
    m_output_dma_enabled := true
    m_current_output_buffer_page := (page + 1) % NUM_BUFFER_DESCRIPTORS
    m_current_buffer_descriptor := i + 1
    placed := d.placed ++ bytes
    outside := d.outside || !decide (page < NUM_BUFFER_DESCRIPTORS ∧ bytes.length ≤ 0x1000)
    overwritten := d.overwritten || decide (∃ j, InUse d j ∧ d.data_addr j = page) }

def ac97_write_buffer_chunk : Nat → Driver → List UInt8 → Driver × Nat
  | 0,d,_ => (d,0)
  | max_buffers + 1,d,buffer =>
    if buffer = [] then (d,0)
    else
      let num := num_bytes buffer.length
      let (d,n_written) := ac97_write_buffer_chunk max_buffers (put d (buffer.take num)) (buffer.drop num)
      (d,num + n_written)

def free_pending (d : Driver) : Driver :=
  match d.pending with
  | none => d
  | some c => { d with pending := none, freed := c.id :: d.freed }

/-- `allocated` tells whether `vmm_alloc` returns memory for the copy. -/
def ac97_write_buffer (d : Driver) (buffer : List UInt8) (allocated : Bool) : Driver × Nat :=
  let d := free_pending d
  if allocated then
    let id := d.copies
    let (d,initial_write) := ac97_write_buffer_chunk (NUM_BUFFER_DESCRIPTORS / 2)
      { d with copies := id + 1, pending := some ⟨id,buffer,0⟩ } buffer
    ({ d with pending := some ⟨id,buffer,initial_write⟩ },buffer.length)
  else (d,0)

/-- The bytes that the result reports count as accepted. -/
def ac97_write_pcm (d : Driver) (buffer : List UInt8) (allocated : Bool) : Driver :=
  let (d,written) := ac97_write_buffer d buffer allocated
  { d with accepted := d.accepted ++ buffer.take written }

def ac97_feed_pending (d : Driver) : Driver :=
  match d.pending with
  | none => d
  | some c =>
    if c.data.length ≤ c.offset then d
    else
      let buffers_playing := (d.last_valid_index.val + NUM_BUFFER_DESCRIPTORS + 1 - d.current_index.val) % NUM_BUFFER_DESCRIPTORS
      let buffers_available : Int := NUM_BUFFER_DESCRIPTORS - buffers_playing - 2
      if buffers_available ≤ 0 then d
      else
        let (d,written) := ac97_write_buffer_chunk buffers_available.toNat d (c.data.drop c.offset)
        if c.data.length ≤ c.offset + written then { d with pending := none, freed := c.id :: d.freed }
        else { d with pending := some ⟨c.id,c.data,c.offset + written⟩ }

/-- Of `ac97_housekeeping` only the feeding changes the ring. -/
def ac97_housekeeping (d : Driver) : Driver := ac97_feed_pending d

/-- The card goes on to the next descriptor. -/
def consume (d : Driver) : Driver := { d with current_index := d.current_index + 1 }

inductive Action where
  | write_pcm (buffer : List UInt8) (allocated : Bool)
  | housekeeping
  | consume

/-- The callers hand over sizes of 32 bits; the card stays at LAST_VALID_INDEX. -/
inductive Step : Driver → Action → Driver → Prop
  | write_pcm (d : Driver) {buffer : List UInt8} (allocated : Bool) (word : buffer.length < 2 ^ 32) :
      Step d (.write_pcm buffer allocated) (ac97_write_pcm d buffer allocated)
  | housekeeping (d : Driver) : Step d .housekeeping (ac97_housekeeping d)
  | consume (d : Driver) (running : d.m_output_dma_enabled = true) (more : d.current_index ≠ d.last_valid_index) :
      Step d .consume (consume d)

/-- After `ac97_init`: it sets neither the page nor the memory of the ring. -/
def playback : System Driver Action where
  start d := d.m_output_dma_enabled = false ∧ d.pending = none ∧ d.copies = 0 ∧ d.freed = [] ∧ d.accepted = [] ∧ d.placed = [] ∧
    d.outside = false ∧ d.overwritten = false
  step := Step

/-- The bytes that are still to be placed. -/
def remaining (d : Driver) : List UInt8 := (d.pending.map fun c => c.data.drop c.offset).getD []

/-- The accepted bytes were placed in order, in the ring, and will be; no page in use was overwritten; and of the copies all
    but the pending one were freed, none of them twice. -/
structure Correct (d : Driver) : Prop where
  placed : d.placed ++ remaining d = d.accepted
  in_ring : d.outside = false
  untouched : d.overwritten = false
  once : d.freed.Nodup
  freed : ∀ id, id < d.copies ↔ id ∈ d.freed ∨ d.pending.map Copy.id = some id
  held : ∀ id, d.pending.map Copy.id = some id → id ∉ d.freed

/-- A pass leaves no copy that is placed completely. -/
def Settled (d : Driver) : Prop := ∀ c, d.pending = some c → c.offset < c.data.length

/-- The number of descriptors in use. -/
def fill (d : Driver) : Nat := if d.m_output_dma_enabled = true then (d.last_valid_index - d.current_index).val + 1 else 0

/-- The number of buffers for some bytes. -/
def buffers (n : Nat) : Nat := (n + 0xFFF) / 0x1000

/-- A new write finds no bytes that are still to be placed, room in the ring, and a size that is an `int`, and the page of
    the first buffer is one of the ring; a pass that has something to feed finds a descriptor that is not in use. -/
def Careful (d : Driver) : Action → Prop
  | .write_pcm buffer allocated => remaining d = [] ∧ (allocated = true → buffer.length < 2 ^ 31 ∧
      (buffer ≠ [] → d.m_current_output_buffer_page < NUM_BUFFER_DESCRIPTORS) ∧
      fill d + min (NUM_BUFFER_DESCRIPTORS / 2) (buffers buffer.length) ≤ NUM_BUFFER_DESCRIPTORS)
  | .housekeeping => remaining d = [] ∨ fill d < NUM_BUFFER_DESCRIPTORS
  | .consume => True

theorem val_succ : ∀ x : Fin 32, x.val < 31 → (x + 1).val = x.val + 1 := by decide

theorem val_last : ∀ x : Fin 32, ¬ x.val < 31 → (x + 1).val = 0 ∧ x.val = 31 := by decide

/-- While the card runs: the next descriptor comes after the last valid one, and page and descriptor go round together. -/
structure Ring (d : Driver) : Prop where
  next : d.m_output_dma_enabled = true → d.m_current_buffer_descriptor = d.last_valid_index + 1
  page : d.m_output_dma_enabled = true → d.m_current_output_buffer_page < NUM_BUFFER_DESCRIPTORS
  shift : d.m_output_dma_enabled = true → ∃ shift : Fin 32,
    Fin.ofNat 32 d.m_current_output_buffer_page = d.m_current_buffer_descriptor + shift ∧
      ∀ j, InUse d j → d.data_addr j < NUM_BUFFER_DESCRIPTORS ∧ Fin.ofNat 32 (d.data_addr j) = j + shift

section
variable {d : Driver} {bytes buffer : List UInt8}

theorem fill_bound (d : Driver) : fill d ≤ NUM_BUFFER_DESCRIPTORS := by
  have small := (d.last_valid_index - d.current_index).isLt
  rw [fill,NUM_BUFFER_DESCRIPTORS]
  split <;> omega

theorem ofNat_injective {a b : Nat} (low : a < 32) (high : b < 32) (same : Fin.ofNat 32 a = Fin.ofNat 32 b) : a = b := by
  have values := congrArg Fin.val same
  simp only [Fin.ofNat] at values
  omega

theorem ofNat_next (a : Nat) : Fin.ofNat 32 ((a + 1) % 32) = Fin.ofNat 32 a + 1 := by
  apply Fin.ext
  simp only [Fin.ofNat,Fin.val_add]
  omega

/-- The page of the next descriptor is in use exactly when all of them are. -/
theorem page_in_use (ring : Ring d) (running : d.m_output_dma_enabled = true) :
    (∃ j, InUse d j ∧ d.data_addr j = d.m_current_output_buffer_page) ↔ fill d = NUM_BUFFER_DESCRIPTORS := by
  obtain ⟨shift,place,pages⟩ := ring.shift running
  have next := ring.next running
  have full : fill d = NUM_BUFFER_DESCRIPTORS ↔ InUse d (d.last_valid_index + 1) := by
    rw [fill,if_pos running,InUse,add_sub_right_comm,NUM_BUFFER_DESCRIPTORS]
    have small := (d.last_valid_index - d.current_index).isLt
    by_cases inner : (d.last_valid_index - d.current_index).val < 31
    · rw [val_succ _ inner]
      refine iff_of_false (by omega) ?_
      rintro ⟨_,less⟩
      omega
    · obtain ⟨zero,last⟩ := val_last _ inner
      exact iff_of_true (by omega) ⟨running,by omega⟩
  rw [full,← next]
  constructor
  · rintro ⟨j,used,same⟩
    have here := (pages j used).2
    rw [same,place] at here
    rwa [add_right_cancel here]
  · intro used
    obtain ⟨low,same⟩ := pages _ used
    exact ⟨_,used,ofNat_injective low (ring.page running) (same.trans place.symm)⟩

theorem put_overwrites (ring : Ring d) (running : d.m_output_dma_enabled = true) (full : fill d = NUM_BUFFER_DESCRIPTORS) :
    (put d bytes).overwritten = true := by
  rw [put]
  simp [running,(page_in_use ring running).2 full]

/-- A buffer put into a ring that has room. -/
theorem put_ring (ring : Ring d) (page : d.m_current_output_buffer_page < NUM_BUFFER_DESCRIPTORS)
    (room : fill d < NUM_BUFFER_DESCRIPTORS) (short : bytes.length ≤ 0x1000) :
    Ring (put d bytes) ∧ (put d bytes).m_output_dma_enabled = true ∧ fill (put d bytes) = fill d + 1 ∧
      (put d bytes).overwritten = d.overwritten ∧ (put d bytes).outside = d.outside := by
  have max : NUM_BUFFER_DESCRIPTORS = 32 := rfl
  by_cases running : d.m_output_dma_enabled = true
  · have free : ¬ ∃ j, InUse d j ∧ d.data_addr j = d.m_current_output_buffer_page := by
      rw [page_in_use ring running]
      omega
    obtain ⟨shift,place,pages⟩ := ring.shift running
    have next := ring.next running
    have inner : (d.last_valid_index - d.current_index).val < 31 := by
      rw [fill,if_pos running] at room
      omega
    have wider : (d.m_current_buffer_descriptor - d.current_index).val = (d.last_valid_index - d.current_index).val + 1 := by
      rw [next,add_sub_right_comm,val_succ _ inner]
    refine ⟨⟨fun _ => ?_,fun _ => ?_,fun _ => ⟨shift,?_,?_⟩⟩,rfl,?_,?_,?_⟩
    · simp only [put,if_pos running]
    · exact Nat.mod_lt _ (by decide)
    · simp only [put,if_pos running,max]
      rw [ofNat_next,place]
      exact add_right_comm _ _ _
    · rintro j ⟨_,used⟩
      simp only [put,if_pos running] at used ⊢
      by_cases here : j = d.m_current_buffer_descriptor
      · rw [here,Function.update_self]
        exact ⟨page,place⟩
      · rw [Function.update_of_ne here]
        refine pages j ⟨running,?_⟩
        rw [wider] at used
        by_contra later
        have same : (j - d.current_index).val = (d.m_current_buffer_descriptor - d.current_index).val := by omega
        exact here (sub_left_injective (Fin.ext same))
    · simp only [fill,put,if_pos running,wider,if_true]
    · simp only [put,if_pos running]
      simp [free]
    · simp only [put,if_pos running]
      simp [page,short]
  · refine ⟨⟨fun _ => ?_,fun _ => ?_,fun _ => ⟨Fin.ofNat 32 d.m_current_output_buffer_page,?_,?_⟩⟩,rfl,?_,?_,?_⟩
    · simp only [put,if_neg running,ac97_reset_output]
    · exact Nat.mod_lt _ (by decide)
    · simp only [put,if_neg running,ac97_reset_output,max]
      rw [ofNat_next,zero_add]
      exact add_comm _ _
    · rintro j ⟨_,used⟩
      simp only [put,if_neg running,ac97_reset_output,sub_self,sub_zero] at used ⊢
      have zero : j = 0 := Fin.ext (Nat.le_zero.1 used)
      rw [zero,Function.update_self]
      exact ⟨page,(zero_add _).symm⟩
    · simp [fill,put,running,ac97_reset_output]
    · simp [put,running,ac97_reset_output,InUse]
    · simp only [put,if_neg running,ac97_reset_output]
      simp [page,short]

/-- What a chunk leaves as it is. -/
theorem chunk_keeps (max_buffers : Nat) (d : Driver) (buffer : List UInt8) :
    (ac97_write_buffer_chunk max_buffers d buffer).1.pending = d.pending ∧
      (ac97_write_buffer_chunk max_buffers d buffer).1.copies = d.copies ∧
      (ac97_write_buffer_chunk max_buffers d buffer).1.freed = d.freed ∧
      (ac97_write_buffer_chunk max_buffers d buffer).1.accepted = d.accepted := by
  induction max_buffers generalizing d buffer with
  | zero => exact ⟨rfl,rfl,rfl,rfl⟩
  | succ max_buffers ih =>
    rw [ac97_write_buffer_chunk]
    split
    case isTrue => exact ⟨rfl,rfl,rfl,rfl⟩
    case isFalse =>
      have same : (put d (buffer.take (num_bytes buffer.length))).pending = d.pending ∧
          (put d (buffer.take (num_bytes buffer.length))).copies = d.copies ∧
          (put d (buffer.take (num_bytes buffer.length))).freed = d.freed ∧
          (put d (buffer.take (num_bytes buffer.length))).accepted = d.accepted := by
        unfold put
        split <;> exact ⟨rfl,rfl,rfl,rfl⟩
      have rest := ih (put d (buffer.take (num_bytes buffer.length))) (buffer.drop (num_bytes buffer.length))
      rw [same.1,same.2.1,same.2.2.1,same.2.2.2] at rest
      exact rest

theorem put_placed (d : Driver) (bytes : List UInt8) : (put d bytes).placed = d.placed ++ bytes := by
  unfold put
  split <;> rfl

/-- A chunk places as many bytes as it reports, in order. -/
theorem chunk_placed (max_buffers : Nat) (d : Driver) {buffer : List UInt8} (int : buffer.length < 2 ^ 31) :
    (ac97_write_buffer_chunk max_buffers d buffer).2 = min buffer.length (0x1000 * max_buffers) ∧
      (ac97_write_buffer_chunk max_buffers d buffer).1.placed =
        d.placed ++ buffer.take (ac97_write_buffer_chunk max_buffers d buffer).2 := by
  induction max_buffers generalizing d buffer with
  | zero => simp [ac97_write_buffer_chunk]
  | succ max_buffers ih =>
    rw [ac97_write_buffer_chunk]
    split
    case isTrue none => simp [none]
    case isFalse some =>
      have num : num_bytes buffer.length = min buffer.length 0x1000 := if_pos int
      obtain ⟨rest,placed⟩ := @ih (put d (buffer.take (num_bytes buffer.length))) (buffer.drop (num_bytes buffer.length))
        (by rw [List.length_drop]; omega)
      rw [List.length_drop] at rest
      refine ⟨?_,?_⟩
      · dsimp only
        rw [rest,num]
        omega
      · dsimp only
        rw [placed,put_placed,List.append_assoc,List.take_add]

theorem put_monotone (d : Driver) (bytes : List UInt8) : (d.overwritten = true → (put d bytes).overwritten = true) ∧
    (d.outside = true → (put d bytes).outside = true) := by
  unfold put
  split
  · exact ⟨fun h => by simp [h],fun h => by simp [h]⟩
  · exact ⟨fun h => by simp [h,ac97_reset_output],fun h => by simp [h,ac97_reset_output]⟩

/-- What went wrong stays wrong. -/
theorem chunk_monotone (max_buffers : Nat) (d : Driver) (buffer : List UInt8) :
    (d.overwritten = true → (ac97_write_buffer_chunk max_buffers d buffer).1.overwritten = true) ∧
      (d.outside = true → (ac97_write_buffer_chunk max_buffers d buffer).1.outside = true) := by
  induction max_buffers generalizing d buffer with
  | zero => exact ⟨id,id⟩
  | succ max_buffers ih =>
    rw [ac97_write_buffer_chunk]
    split
    case isTrue => exact ⟨id,id⟩
    case isFalse =>
      obtain ⟨overwritten,outside⟩ := put_monotone d (buffer.take (num_bytes buffer.length))
      obtain ⟨later,further⟩ := ih (put d (buffer.take (num_bytes buffer.length))) (buffer.drop (num_bytes buffer.length))
      exact ⟨fun h => later (overwritten h),fun h => further (outside h)⟩

theorem buffers_cons {n : Nat} (some : 0 < n) : buffers n = buffers (n - min n 0x1000) + 1 := by
  unfold buffers
  omega

section
variable (max_buffers : Nat) {d : Driver} {buffer : List UInt8} (int : buffer.length < 2 ^ 31) (ring : Ring d)
  (page : buffer ≠ [] → d.m_current_output_buffer_page < NUM_BUFFER_DESCRIPTORS)
include int ring page

/-- A chunk for which there is room. -/
theorem chunk_ring (room : fill d + min max_buffers (buffers buffer.length) ≤ NUM_BUFFER_DESCRIPTORS) :
    Ring (ac97_write_buffer_chunk max_buffers d buffer).1 ∧
      (d.m_output_dma_enabled = true ∨ buffer ≠ [] ∧ max_buffers ≠ 0 →
        (ac97_write_buffer_chunk max_buffers d buffer).1.m_output_dma_enabled = true) ∧
      (ac97_write_buffer_chunk max_buffers d buffer).1.overwritten = d.overwritten ∧
      (ac97_write_buffer_chunk max_buffers d buffer).1.outside = d.outside := by
  induction max_buffers generalizing d buffer with
  | zero => exact ⟨ring,fun running => running.resolve_right fun h => h.2 rfl,rfl,rfl⟩
  | succ max_buffers ih =>
    rw [ac97_write_buffer_chunk]
    split
    case isTrue none => exact ⟨ring,fun running => running.resolve_right fun h => h.1 none,rfl,rfl⟩
    case isFalse some =>
      have num : num_bytes buffer.length = min buffer.length 0x1000 := if_pos int
      have positive : 0 < buffer.length := List.length_pos_iff.2 some
      rw [buffers_cons positive] at room
      obtain ⟨next,running,more,overwritten,outside⟩ := @put_ring d (buffer.take (num_bytes buffer.length)) ring (page some)
        (by omega) (by rw [List.length_take]; omega)
      obtain ⟨last,still,same,inside⟩ := @ih (put d (buffer.take (num_bytes buffer.length))) (buffer.drop (num_bytes buffer.length))
        (by rw [List.length_drop]; omega) next (fun _ => next.page running) (by rw [more,List.length_drop,num]; omega)
      exact ⟨last,fun _ => still (Or.inl running),same.trans overwritten,inside.trans outside⟩

/-- A chunk for which there is no room overwrites a page in use. -/
theorem chunk_overwrites (full : NUM_BUFFER_DESCRIPTORS < fill d + min max_buffers (buffers buffer.length)) :
    (ac97_write_buffer_chunk max_buffers d buffer).1.overwritten = true := by
  induction max_buffers generalizing d buffer with
  | zero =>
    have most := fill_bound d
    omega
  | succ max_buffers ih =>
    have most := fill_bound d
    rw [ac97_write_buffer_chunk]
    split
    case isTrue none =>
      rw [none] at full
      simp [buffers] at full
      omega
    case isFalse some =>
      have num : num_bytes buffer.length = min buffer.length 0x1000 := if_pos int
      have positive : 0 < buffer.length := List.length_pos_iff.2 some
      by_cases room : fill d < NUM_BUFFER_DESCRIPTORS
      · rw [buffers_cons positive] at full
        obtain ⟨next,running,more,_⟩ := @put_ring d (buffer.take (num_bytes buffer.length)) ring (page some)
          room (by rw [List.length_take]; omega)
        exact ih (by rw [List.length_drop]; omega) next (fun _ => next.page running) (by rw [more,List.length_drop,num]; omega)
      · have all : fill d = NUM_BUFFER_DESCRIPTORS := by omega
        have running : d.m_output_dma_enabled = true := by
          by_contra idle
          rw [fill,if_neg idle,NUM_BUFFER_DESCRIPTORS] at all
          omega
        exact (chunk_monotone _ _ _).1 (put_overwrites ring running all)

end

/-- A chunk leaves the ring when the page does, or when the size is no `int`. -/
theorem chunk_outside {max_buffers : Nat} {d : Driver} {buffer : List UInt8} (one : max_buffers ≠ 0) (some : buffer ≠ [])
    (wrong : NUM_BUFFER_DESCRIPTORS ≤ d.m_current_output_buffer_page ∨ 2 ^ 31 ≤ buffer.length) :
    (ac97_write_buffer_chunk max_buffers d buffer).1.outside = true := by
  obtain ⟨n,rfl⟩ := Nat.exists_eq_succ_of_ne_zero one
  rw [ac97_write_buffer_chunk,if_neg some]
  refine (chunk_monotone _ _ _).2 ?_
  have misplaced : ¬ (d.m_current_output_buffer_page < NUM_BUFFER_DESCRIPTORS ∧
      (buffer.take (num_bytes buffer.length)).length ≤ 0x1000) := by
    rintro ⟨page,short⟩
    rw [List.length_take,num_bytes] at short
    split at short <;> omega
  unfold put
  split
  · simp only [misplaced,decide_false,Bool.not_false,Bool.or_true]
  · simp only [ac97_reset_output,misplaced,decide_false,Bool.not_false,Bool.or_true]

/-- A write with memory for its copy, before the first chunk. -/
def accept (d : Driver) (buffer : List UInt8) : Driver :=
  { d with copies := d.copies + 1,pending := some ⟨d.copies,buffer,0⟩,freed := (d.pending.map Copy.id).toList ++ d.freed }

theorem free_pending_eq (d : Driver) :
    free_pending d = { d with pending := none,freed := (d.pending.map Copy.id).toList ++ d.freed } := by
  unfold free_pending
  split
  case h_1 none =>
    cases d
    subst none
    rfl
  case h_2 some => rw [some]; rfl

theorem write_refused (d : Driver) (buffer : List UInt8) : ac97_write_pcm d buffer false =
    { d with pending := none,freed := (d.pending.map Copy.id).toList ++ d.freed } := by
  rw [ac97_write_pcm,ac97_write_buffer,free_pending_eq]
  simp

theorem write_accepted (d : Driver) (buffer : List UInt8) : ac97_write_pcm d buffer true =
    { (ac97_write_buffer_chunk 16 (accept d buffer) buffer).1 with
      pending := some ⟨d.copies,buffer,(ac97_write_buffer_chunk 16 (accept d buffer) buffer).2⟩
      accepted := d.accepted ++ buffer } := by
  have half : NUM_BUFFER_DESCRIPTORS / 2 = 16 := rfl
  obtain ⟨_,_,_,kept⟩ := chunk_keeps 16 (accept d buffer) buffer
  rw [accept] at kept ⊢
  rw [ac97_write_pcm,ac97_write_buffer,free_pending_eq]
  simp only [half,if_true,List.take_length]
  rw [kept]

/-- What holds along a careful run. -/
structure Sound (d : Driver) : Prop where
  correct : Correct d
  ring : Ring d
  playing : remaining d ≠ [] → d.m_output_dma_enabled = true
  int : ∀ c, d.pending = some c → c.data.length < 2 ^ 31

/-- The pending copy is the one that is still to be freed. -/
theorem freed_pending (correct : Correct d) : ((d.pending.map Copy.id).toList ++ d.freed).Nodup ∧
    ∀ id, id < d.copies ↔ id ∈ (d.pending.map Copy.id).toList ++ d.freed := by
  have freed := correct.freed
  have held := correct.held
  cases pending : d.pending.map Copy.id with
  | none =>
    simp only [pending,reduceCtorEq,or_false] at freed
    exact ⟨correct.once,freed⟩
  | some id =>
    simp only [pending,some.injEq,forall_eq'] at freed held
    refine ⟨List.nodup_cons.2 ⟨held,correct.once⟩,fun other => ?_⟩
    simp only [Option.toList_some,List.singleton_append,List.mem_cons]
    rw [freed other,or_comm,@eq_comm _ id]

theorem refused_sound (sound : Sound d) (done : remaining d = []) : Sound (ac97_write_pcm d buffer false) := by
  obtain ⟨once,freed⟩ := freed_pending sound.correct
  have placed := sound.correct.placed
  rw [done] at placed
  rw [write_refused]
  refine ⟨⟨placed,sound.correct.in_ring,sound.correct.untouched,once,?_,?_⟩,⟨sound.ring.next,sound.ring.page,sound.ring.shift⟩,?_,?_⟩
  · simpa using freed
  · simp
  · simp [remaining]
  · simp

/-- A write that is refused loses what was still to be placed. -/
theorem refused_careful (sound : Sound d) (correct : Correct (ac97_write_pcm d buffer false)) : remaining d = [] := by
  rw [write_refused] at correct
  have before := sound.correct.placed
  have after : d.placed ++ [] = d.accepted := correct.placed
  exact (List.append_cancel_left (after.trans before.symm)).symm

theorem accept_ring (ring : Ring d) : Ring (accept d buffer) := ⟨ring.next,ring.page,ring.shift⟩

theorem write_sound (sound : Sound d) (careful : Careful d (.write_pcm buffer true)) : Sound (ac97_write_pcm d buffer true) := by
  obtain ⟨done,ready⟩ := careful
  obtain ⟨int,page,room⟩ := ready rfl
  obtain ⟨once,freed⟩ := freed_pending sound.correct
  have before := sound.correct.placed
  rw [done,List.append_nil] at before
  obtain ⟨ring,running,overwritten,outside⟩ := chunk_ring 16 int (accept_ring sound.ring) page room
  obtain ⟨_,copies,same,_⟩ := chunk_keeps 16 (accept d buffer) buffer
  obtain ⟨written,placed⟩ := chunk_placed 16 (accept d buffer) int
  have started : (accept d buffer).placed = d.placed := rfl
  rw [write_accepted]
  refine ⟨⟨?_,outside.trans sound.correct.in_ring,overwritten.trans sound.correct.untouched,?_,?_,?_⟩,
    ⟨ring.next,ring.page,ring.shift⟩,?_,?_⟩
  · simp only [remaining,map_some,getD_some]
    rw [placed,started,before,List.append_assoc,List.take_append_drop]
  · dsimp only
    rw [same]
    exact once
  · intro id
    dsimp only
    rw [copies,same,map_some,some.injEq]
    show id < d.copies + 1 ↔ id ∈ (d.pending.map Copy.id).toList ++ d.freed ∨ d.copies = id
    rw [← freed id]
    omega
  · intro id
    dsimp only
    rw [same,map_some,some.injEq]
    rintro rfl listed
    exact lt_irrefl _ ((freed d.copies).2 listed)
  · intro some
    refine running (Or.inr ⟨?_,by decide⟩)
    rintro rfl
    exact some (by simp [remaining])
  · rintro c rfl_c
    cases rfl_c
    exact int

/-- A write that is not careful loses bytes, leaves the ring or overwrites a page in use. -/
theorem write_careful (sound : Sound d) (correct : Correct (ac97_write_pcm d buffer true)) : Careful d (.write_pcm buffer true) := by
  rw [write_accepted] at correct
  have in_ring : (ac97_write_buffer_chunk 16 (accept d buffer) buffer).1.outside = false := correct.in_ring
  have untouched : (ac97_write_buffer_chunk 16 (accept d buffer) buffer).1.overwritten = false := correct.untouched
  have inside : buffer ≠ [] → ¬ (NUM_BUFFER_DESCRIPTORS ≤ d.m_current_output_buffer_page ∨ 2 ^ 31 ≤ buffer.length) := by
    intro some wrong
    have left : (ac97_write_buffer_chunk 16 (accept d buffer) buffer).1.outside = true := chunk_outside (by decide) some wrong
    exact Bool.false_ne_true (in_ring.symm.trans left)
  have int : buffer.length < 2 ^ 31 := by
    by_contra long
    have some : buffer ≠ [] := by
      rintro rfl
      exact long (by simp)
    exact inside some (Or.inr (Nat.le_of_not_lt long))
  have page : buffer ≠ [] → d.m_current_output_buffer_page < NUM_BUFFER_DESCRIPTORS :=
    fun some => Nat.lt_of_not_le fun wild => inside some (Or.inl wild)
  refine ⟨?_,fun _ => ⟨int,page,?_⟩⟩
  · have before := sound.correct.placed
    have after := correct.placed
    obtain ⟨_,placed⟩ := chunk_placed 16 (accept d buffer) int
    have started : (accept d buffer).placed = d.placed := rfl
    simp only [remaining,map_some,getD_some] at after
    rw [placed,started,List.append_assoc,List.take_append_drop,← before,List.append_assoc] at after
    have lengths := congrArg List.length after
    simp only [List.length_append] at lengths
    exact List.length_eq_zero_iff.1 (by omega)
  · by_contra full
    rw [chunk_overwrites 16 int (accept_ring sound.ring) page (Nat.lt_of_not_le full)] at untouched
    cases untouched

/-- The distance that the feeder computes is the number of descriptors in use, but for a full ring, where it is 0. -/
theorem buffers_playing (running : d.m_output_dma_enabled = true) :
    (d.last_valid_index.val + NUM_BUFFER_DESCRIPTORS + 1 - d.current_index.val) % NUM_BUFFER_DESCRIPTORS = fill d % 32 := by
  have max : NUM_BUFFER_DESCRIPTORS = 32 := rfl
  have low := d.current_index.isLt
  have high := d.last_valid_index.isLt
  rw [fill,if_pos running,Fin.sub_def,max]
  dsimp only
  omega

/-- What a pass does with the pending bytes. -/
theorem feed_cases {c : Copy} (pending : d.pending = some c) (more : c.offset < c.data.length) (available : Int)
    (computed : available = NUM_BUFFER_DESCRIPTORS - ((d.last_valid_index.val + NUM_BUFFER_DESCRIPTORS + 1 - d.current_index.val) %
      NUM_BUFFER_DESCRIPTORS : Nat) - 2) :
    (available ≤ 0 ∧ ac97_feed_pending d = d) ∨ (0 < available ∧ ac97_feed_pending d =
      let r := ac97_write_buffer_chunk available.toNat d (c.data.drop c.offset)
      if c.data.length ≤ c.offset + r.2 then { r.1 with pending := none,freed := c.id :: r.1.freed }
      else { r.1 with pending := some ⟨c.id,c.data,c.offset + r.2⟩ }) := by
  subst computed
  rw [ac97_feed_pending,pending]
  simp only [if_neg (Nat.not_le_of_lt more)]
  by_cases none : (NUM_BUFFER_DESCRIPTORS - ((d.last_valid_index.val + NUM_BUFFER_DESCRIPTORS + 1 - d.current_index.val) %
      NUM_BUFFER_DESCRIPTORS : Nat) - 2 : Int) ≤ 0
  · exact Or.inl ⟨none,if_pos none⟩
  · exact Or.inr ⟨Int.lt_of_not_ge none,if_neg none⟩

/-- Nothing to feed: nothing happens. -/
theorem feed_idle (done : remaining d = []) : ac97_feed_pending d = d := by
  rw [ac97_feed_pending]
  split
  case h_1 => rfl
  case h_2 c pending =>
    have short : c.data.length ≤ c.offset := by
      rw [remaining,pending,map_some,getD_some,List.drop_eq_nil_iff] at done
      exact done
    rw [if_pos short]

theorem remaining_of {c : Copy} (pending : d.pending = some c) : remaining d = c.data.drop c.offset := by
  rw [remaining,pending,map_some,getD_some]

/-- There are pending bytes exactly when a copy is not placed completely. -/
theorem remaining_some (some : remaining d ≠ []) : ∃ c, d.pending = Option.some c ∧ c.offset < c.data.length := by
  cases pending : d.pending with
  | none => exact absurd (by rw [remaining,pending]; rfl) some
  | some c =>
    refine ⟨c,rfl,?_⟩
    rw [remaining_of pending,ne_eq,List.drop_eq_nil_iff] at some
    omega

/-- What is left of the pending bytes after a chunk for which there was room. -/
theorem fed_sound {c : Copy} {max_buffers : Nat} (sound : Sound d) (pending : d.pending = some c) (more : c.offset < c.data.length)
    (room : fill d + max_buffers ≤ NUM_BUFFER_DESCRIPTORS) :
    let r := ac97_write_buffer_chunk max_buffers d (c.data.drop c.offset)
    Sound (if c.data.length ≤ c.offset + r.2 then { r.1 with pending := none,freed := c.id :: r.1.freed }
      else { r.1 with pending := some ⟨c.id,c.data,c.offset + r.2⟩ }) := by
  intro r
  have rest := remaining_of pending
  have some : remaining d ≠ [] := by
    rw [rest,ne_eq,List.drop_eq_nil_iff]
    omega
  have running := sound.playing some
  have int := sound.int c pending
  have short : (c.data.drop c.offset).length < 2 ^ 31 := by
    rw [List.length_drop]
    omega
  have before := sound.correct.placed
  have freed := sound.correct.freed
  have held := sound.correct.held
  rw [rest] at before
  simp only [pending,map_some,Option.some.injEq,forall_eq'] at freed held
  obtain ⟨ring,still,overwritten,outside⟩ := chunk_ring max_buffers short sound.ring (fun _ => sound.ring.page running)
    ((Nat.add_le_add_left (Nat.min_le_left _ _) _).trans room)
  obtain ⟨_,copies,same,accepted⟩ := chunk_keeps max_buffers d (c.data.drop c.offset)
  obtain ⟨written,placed⟩ := chunk_placed max_buffers d short
  have in_ring := outside.trans sound.correct.in_ring
  have untouched := overwritten.trans sound.correct.untouched
  split
  case isTrue all =>
    have whole : (c.data.drop c.offset).take r.2 = c.data.drop c.offset := by
      apply List.take_of_length_le
      rw [List.length_drop]
      omega
    rw [whole,before] at placed
    refine ⟨⟨?_,in_ring,untouched,?_,?_,?_⟩,⟨ring.next,ring.page,ring.shift⟩,?_,?_⟩
    · simp only [remaining,Option.map_none,Option.getD_none,List.append_nil]
      exact placed.trans accepted.symm
    · dsimp only
      rw [same]
      exact List.nodup_cons.2 ⟨held,sound.correct.once⟩
    · intro id
      dsimp only
      rw [copies,same,freed id,List.mem_cons,Option.map_none]
      simp [or_comm,eq_comm]
    · simp
    · simp [remaining]
    · simp
  case isFalse =>
    refine ⟨⟨?_,in_ring,untouched,?_,?_,?_⟩,⟨ring.next,ring.page,ring.shift⟩,?_,?_⟩
    · simp only [remaining,map_some,getD_some]
      rw [placed,accepted,← before,List.append_assoc,← List.drop_drop,List.take_append_drop]
    · dsimp only
      rw [same]
      exact sound.correct.once
    · intro id
      dsimp only
      rw [copies,same,freed id,map_some,Option.some.injEq]
    · intro id
      dsimp only
      rw [same,map_some,Option.some.injEq]
      rintro rfl
      exact held
    · exact fun _ => still (Or.inl running)
    · intro _ same
      cases same
      exact int

theorem feed_sound (sound : Sound d) (careful : Careful d .housekeeping) : Sound (ac97_housekeeping d) := by
  rw [ac97_housekeeping]
  by_cases done : remaining d = []
  · rw [feed_idle done]
    exact sound
  · obtain ⟨c,pending,more⟩ := remaining_some done
    have room := careful.resolve_left done
    have playing := buffers_playing (sound.playing done)
    have max : NUM_BUFFER_DESCRIPTORS = 32 := rfl
    rcases feed_cases pending more _ rfl with ⟨_,same⟩ | ⟨_,same⟩
    · rw [same]
      exact sound
    · rw [same]
      refine fed_sound sound pending more ?_
      have small : fill d % 32 = fill d := Nat.mod_eq_of_lt room
      rw [playing,small,max]
      omega

/-- A pass over a full ring overwrites a page in use. -/
theorem feed_careful (sound : Sound d) (correct : Correct (ac97_housekeeping d)) : Careful d .housekeeping := by
  rw [ac97_housekeeping] at correct
  refine or_iff_not_imp_left.2 fun some => ?_
  by_contra full
  obtain ⟨c,pending,more⟩ := remaining_some some
  have running := sound.playing some
  have playing := buffers_playing running
  have max : NUM_BUFFER_DESCRIPTORS = 32 := rfl
  have all : fill d = 32 := Nat.le_antisymm (fill_bound d) (Nat.le_of_not_lt full)
  rw [all,Nat.mod_self] at playing
  have int := sound.int c pending
  have short : (c.data.drop c.offset).length < 2 ^ 31 := by
    rw [List.length_drop]
    omega
  have positive : 0 < buffers (c.data.drop c.offset).length := by
    rw [List.length_drop,buffers]
    omega
  have overwritten : (ac97_write_buffer_chunk 30 d (c.data.drop c.offset)).1.overwritten = true :=
    chunk_overwrites 30 short sound.ring (fun _ => sound.ring.page running) (by omega)
  have untouched := correct.untouched
  rcases feed_cases pending more 30 (by rw [playing,max]; rfl) with ⟨bad,_⟩ | ⟨_,same⟩
  · omega
  · rw [same] at untouched
    dsimp only at untouched
    split at untouched <;> exact Bool.false_ne_true (untouched.symm.trans overwritten)

/-- A pass frees the copy that it has placed completely, and only that. -/
theorem feed_settled (d : Driver) : Settled (ac97_housekeeping d) ↔ Settled d := by
  rw [ac97_housekeeping]
  by_cases done : remaining d = []
  · rw [feed_idle done]
  · obtain ⟨c,pending,more⟩ := remaining_some done
    have before : Settled d := by
      intro c' same
      cases pending.symm.trans same
      exact more
    refine iff_of_true ?_ before
    rcases feed_cases pending more _ rfl with ⟨_,same⟩ | ⟨_,same⟩
    · rw [same]
      exact before
    · rw [same]
      dsimp only
      split
      case isTrue => simp [Settled]
      case isFalse left =>
        intro _ same
        cases same
        exact Nat.lt_of_not_le left

theorem val_pred : ∀ x : Fin 32, x ≠ 0 → (x - 1).val + 1 = x.val := by decide

/-- The card leaves descriptors behind it. -/
theorem consume_in_use (more : d.current_index ≠ d.last_valid_index) {j : Fin 32} (used : InUse (consume d) j) : InUse d j := by
  obtain ⟨running,used⟩ := used
  refine ⟨running,?_⟩
  simp only [consume,sub_add_eq_sub_sub] at used
  have last := val_pred _ (sub_ne_zero.2 more.symm)
  have small := (d.last_valid_index - d.current_index).isLt
  by_cases first : j - d.current_index = 0
  · rw [first]
    exact Nat.zero_le _
  · have here := val_pred _ first
    omega

theorem consume_sound (sound : Sound d) (more : d.current_index ≠ d.last_valid_index) : Sound (consume d) := by
  have correct := sound.correct
  refine ⟨⟨correct.placed,correct.in_ring,correct.untouched,correct.once,correct.freed,correct.held⟩,
    ⟨sound.ring.next,sound.ring.page,fun running => ?_⟩,sound.playing,sound.int⟩
  obtain ⟨shift,place,pages⟩ := sound.ring.shift running
  exact ⟨shift,place,fun j used => pages j (consume_in_use more used)⟩

end

/-- Every step along a careful run keeps what is asked exactly when it is careful. -/
theorem step_sound {d t : Driver} {a : Action} (sound : Sound d) (step : playback.step d a t) :
    (Correct t ↔ Careful d a) ∧ (Careful d a → Sound t) := by
  cases step with
  | write_pcm allocated word =>
    cases allocated with
    | true => exact ⟨⟨write_careful sound,fun careful => (write_sound sound careful).correct⟩,write_sound sound⟩
    | false =>
      refine ⟨⟨fun correct => ⟨refused_careful sound correct,by simp⟩,fun careful => (refused_sound sound careful.1).correct⟩,
        fun careful => refused_sound sound careful.1⟩
  | housekeeping => exact ⟨⟨feed_careful sound,fun careful => (feed_sound sound careful).correct⟩,feed_sound sound⟩
  | consume running more =>
    exact ⟨iff_of_true (consume_sound sound more).correct trivial,fun _ => consume_sound sound more⟩

theorem start_sound {d : Driver} (start : playback.start d) : Sound d := by
  obtain ⟨off,pending,copies,freed,accepted,placed,outside,overwritten⟩ := start
  have nothing : remaining d = [] := by rw [remaining,pending]; rfl
  refine ⟨⟨?_,outside,overwritten,?_,?_,?_⟩,⟨?_,?_,?_⟩,?_,?_⟩
  · rw [placed,nothing,accepted]
    rfl
  · simp [freed]
  · simp [copies,freed,pending]
  · simp [pending]
  · simp [off]
  · simp [off]
  · simp [off]
  · exact fun some => absurd nothing some
  · simp [pending]

/-- Along the runs whose steps are all careful, everything asked holds, and a step keeps it exactly when it is careful; a pass
    leaves a copy that was placed completely before. -/
theorem playback_ring {d : Driver} (reached : Reached (guarded playback Careful) d) :
    Correct d ∧ (∀ a t, playback.step d a t → (Correct t ↔ Careful d a)) ∧ (Settled (ac97_housekeeping d) ↔ Settled d) := by
  obtain ⟨correct,steps⟩ := guarded_exact (fun _ => start_sound) (fun _ sound => sound.correct) (fun _ _ _ => step_sound) reached
  exact ⟨correct,steps,feed_settled d⟩

/-- A driver after `ac97_init`. -/
def idle : Driver where
  m_output_buffer_region := fun _ => 0
  data_addr := fun _ => 0
  num_samples := fun _ => 0
  m_current_output_buffer_page := 0
  m_current_buffer_descriptor := 0
  m_output_dma_enabled := false
  pending := none
  current_index := 0
  last_valid_index := 0
  copies := 0
  freed := []
  accepted := []
  placed := []
  outside := false
  overwritten := false

theorem idle_starts : playback.start idle := ⟨rfl,rfl,rfl,rfl,rfl,rfl,rfl,rfl⟩

/-- Any write that is an `int` starts the card with at most 16 buffers. -/
theorem idle_careful {buffer : List UInt8} (int : buffer.length < 2 ^ 31) : Careful idle (.write_pcm buffer true) := by
  refine ⟨rfl,fun _ => ⟨int,fun _ => by decide,?_⟩⟩
  have none : fill idle = 0 := rfl
  rw [none,zero_add]
  exact (Nat.min_le_left _ _).trans (by decide)

theorem playback_ring_started : Correct (ac97_write_pcm idle [1,2] true) ∧
    (∀ a t, playback.step (ac97_write_pcm idle [1,2] true) a t → (Correct t ↔ Careful (ac97_write_pcm idle [1,2] true) a)) ∧
    (Settled (ac97_housekeeping (ac97_write_pcm idle [1,2] true)) ↔ Settled (ac97_write_pcm idle [1,2] true)) :=
  playback_ring ⟨idle,_,idle_starts,.step ⟨.write_pcm idle true (by decide),idle_careful (by decide)⟩ (.done _)⟩

/-- A write of 65538 bytes leaves 2 of them pending; the next write drops these. -/
theorem pending_dropped : ¬ ∀ d, Reached playback d → Correct d := by
  intro all
  have size : (List.replicate 65538 (1 : UInt8)).length = 65538 := List.length_replicate
  have word : (List.replicate 65538 (1 : UInt8)).length < 2 ^ 32 := by omega
  have int : (List.replicate 65538 (1 : UInt8)).length < 2 ^ 31 := by omega
  have sound := write_sound (start_sound idle_starts) (idle_careful int)
  have second : playback.step (ac97_write_pcm idle (List.replicate 65538 1) true) (.write_pcm [1] true) _ :=
    .write_pcm _ true (by decide)
  have correct := all _ ⟨idle,_,idle_starts,.step (.write_pcm idle true word) (.step second (.done _))⟩
  obtain ⟨dropped,_⟩ := (step_sound sound second).1.1 correct
  obtain ⟨written,_⟩ := chunk_placed 16 (accept idle (List.replicate 65538 1)) int
  rw [write_accepted,remaining,map_some,getD_some,List.drop_eq_nil_iff,written,size] at dropped
  dsimp only at dropped
  omega

end MicroOS.Ac97

import Mathlib.Tactic

/-! The resampling of sound (`wav.c`). A result is none when a routine divides by zero or leaves a buffer. -/

namespace MicroOS.Resampling
open Option (bind_eq_bind bind_eq_some_iff bind_some isSome_iff_exists some.inj)

/-- The sizes of `uint32_t` and `uint64_t`. -/
def W32 : Nat := 4294967296
def W64 : Nat := 18446744073709551616

/-- What the parser found in a file. -/
structure WavInfo where
  audio_format : Nat
  num_channels : Nat
  sample_rate : Nat
  bits_per_sample : Nat
  data_size : Nat
  data_offset : Nat
  valid : Bool

/-- A division, which must not be by zero. -/
def div (a b : Nat) : Option Nat := if b = 0 then none else some (a / b)

/-- `s1 + (int16_t) ((diff * frac) >> 16)` -/
def interpolate_sample (s1 s2 : BitVec 16) (frac : BitVec 32) : BitVec 16 :=
  let diff := s2.signExtend 32 - s1.signExtend 32
  s1 + ((diff * frac) >>> 16).truncate 16

/-- `src[idx]` of either width, the narrow one made 16 bits wide. -/
def source (bits_per_sample : Nat) (src : List UInt8) (idx : Nat) : Option (BitVec 16) :=
  if bits_per_sample = 16 then do
    let low ← src[2 * idx]?
    let high ← src[2 * idx + 1]?
    pure (high.toBitVec ++ low.toBitVec)
  else do
    let b ← src[idx]?
    pure ((b.toBitVec.zeroExtend 16 - 128) <<< 8)

/-- `*dst++ = sample` -/
def store (buffer : List UInt8) (dst : Nat) (sample : BitVec 16) : Option (List UInt8) :=
  if 2 * dst + 2 ≤ buffer.length then
    some ((buffer.set (2 * dst) (.ofBitVec (sample.extractLsb' 0 8))).set (2 * dst + 1) (.ofBitVec (sample.extractLsb' 8 8)))
  else none

section
variable (read : Nat → Option (BitVec 16)) (num_channels total_src_samples : Nat)

/-- The sample of a channel between two of the source, of which the second may be missing. -/
def channel (src_idx : Nat) (frac : BitVec 32) (ch : Nat) : Option (BitVec 16) := do
  let idx1 := (src_idx * num_channels + ch) % W64
  let idx2 := ((src_idx + 1) * num_channels + ch) % W64
  let idx1 := if idx1 ≥ total_src_samples then (total_src_samples + W64 - num_channels + ch) % W64 else idx1
  let idx2 := if idx2 ≥ total_src_samples then idx1 else idx2
  let s1 ← read idx1
  let s2 ← read idx2
  pure (interpolate_sample s1 s2 frac)

/-- The inner loop, with the number of channels left. -/
def channel_loop (src_idx : Nat) (frac : BitVec 32) : Nat → Nat → Nat → List UInt8 → Option (List UInt8)
  | 0,_,_,buffer => some buffer
  | left + 1,ch,dst,buffer => do
    let sample ← channel read num_channels total_src_samples src_idx frac ch
    let buffer ← store buffer dst sample
    channel_loop src_idx frac left (ch + 1) (dst + 1) buffer

/-- The outer loop, with the number of samples left. -/
def sample_loop (step : Nat) : Nat → Nat → Nat → List UInt8 → Option (List UInt8)
  | 0,_,_,buffer => some buffer
  | left + 1,pos,dst,buffer => do
    let src_idx := pos / 65536
    let frac := BitVec.ofNat 32 (pos % 65536)
    let buffer ← channel_loop read num_channels total_src_samples src_idx frac num_channels 0 dst buffer
    sample_loop step left ((pos + step) % W64) (dst + num_channels) buffer

end

/-- The memory of a size, which is NULL for none. -/
def malloc (size : Nat) : Option (List UInt8) := if size = 0 then none else some (List.replicate size 0)

/-- The conversion to another rate or width: the buffer, if it is not NULL, and its size. -/
def convert (src_data : List UInt8) (info : WavInfo) (target_rate : Nat) : Option (Option (List UInt8 × Nat)) := do
  let samples ← div info.data_size (info.bits_per_sample / 8)
  let num_samples ← div samples info.num_channels
  let out_samples ← div ((num_samples * target_rate + info.sample_rate + W64 - 1) % W64) info.sample_rate
  let out_bytes := out_samples * 2 * info.num_channels % W32
  match malloc out_bytes with
  | none => pure none
  | some buffer => do
    let step ← div (info.sample_rate * 65536 % W64) target_rate
    let total_src_samples := num_samples * info.num_channels % W64
    if info.bits_per_sample = 16 ∨ info.bits_per_sample = 8 then do
      let buffer ← sample_loop (source info.bits_per_sample src_data) info.num_channels total_src_samples step out_samples 0 0 buffer
      pure (some (buffer,out_bytes))
    else pure none

def resample_audio (src_data : List UInt8) (info : WavInfo) (target_rate : Nat) : Option (Option (List UInt8 × Nat)) :=
  if info.sample_rate = target_rate ∧ info.bits_per_sample = 16 then
    if info.data_size ≤ src_data.length then
      pure ((malloc info.data_size).map fun _ => (src_data.take info.data_size,info.data_size))
    else none
  else convert src_data info target_rate

section
variable {read : Nat → Option (BitVec 16)} {num_channels total_src_samples : Nat}

variable {buffer buffer' : List UInt8} {dst src_idx left ch num_samples : Nat}

theorem store_some {sample : BitVec 16} (stored : store buffer dst sample = some buffer') :
    2 * dst + 2 ≤ buffer.length ∧ buffer'.length = buffer.length := by
  unfold store at stored
  split_ifs at stored with inside
  obtain rfl := some.inj stored
  exact ⟨inside,by simp⟩

theorem channel_loop_some {frac : BitVec 32}
    (ran : channel_loop read num_channels total_src_samples src_idx frac left ch dst buffer = some buffer')
    (inside : 2 * dst ≤ buffer.length) : 2 * (dst + left) ≤ buffer.length ∧ buffer'.length = buffer.length := by
  induction left generalizing ch dst buffer with
  | zero =>
    obtain rfl := some.inj ran
    exact ⟨inside,rfl⟩
  | succ left ih =>
    simp only [channel_loop,bind_eq_bind,bind_eq_some_iff] at ran
    obtain ⟨sample,-,next,stored,ran⟩ := ran
    obtain ⟨room,same⟩ := store_some stored
    obtain ⟨all,same'⟩ := ih ran (by omega)
    exact ⟨by omega,same'.trans same⟩

/-- A loop that ends has found room for every sample. -/
theorem sample_loop_some {step pos : Nat}
    (ran : sample_loop read num_channels total_src_samples step left pos dst buffer = some buffer')
    (inside : 2 * dst ≤ buffer.length) :
    2 * (dst + left * num_channels) ≤ buffer.length ∧ buffer'.length = buffer.length := by
  induction left generalizing pos dst buffer with
  | zero =>
    obtain rfl := some.inj ran
    exact ⟨by simpa using inside,rfl⟩
  | succ left ih =>
    simp only [sample_loop,bind_eq_bind,bind_eq_some_iff] at ran
    obtain ⟨next,channels,ran⟩ := ran
    obtain ⟨room,same⟩ := channel_loop_some channels inside
    obtain ⟨all,same'⟩ := ih ran (by omega)
    have total : (left + 1) * num_channels = num_channels + left * num_channels := by ring
    exact ⟨by omega,same'.trans same⟩

/-- The samples of a source can be read. -/
def Readable (read : Nat → Option (BitVec 16)) (total : Nat) : Prop := ∀ idx, idx < total → (read idx).isSome

section
variable (readable : Readable read total_src_samples) (total : total_src_samples = num_samples * num_channels)
  (small : total_src_samples < W32) (few : num_channels < 65536)
include readable total small few

theorem channel_isSome (inside : src_idx < num_samples) (each : ch < num_channels) (frac : BitVec 32) :
    (channel read num_channels total_src_samples src_idx frac ch).isSome := by
  have next : (src_idx + 1) * num_channels = src_idx * num_channels + num_channels := by ring
  have whole : (src_idx + 1) * num_channels ≤ num_samples * num_channels := Nat.mul_le_mul_right _ inside
  have first : src_idx * num_channels + ch < total_src_samples := by omega
  have exact1 : (src_idx * num_channels + ch) % W64 = src_idx * num_channels + ch :=
    Nat.mod_eq_of_lt (by unfold W32 at small; unfold W64; omega)
  have exact2 : ((src_idx + 1) * num_channels + ch) % W64 = (src_idx + 1) * num_channels + ch :=
    Nat.mod_eq_of_lt (by unfold W32 at small; unfold W64; omega)
  obtain ⟨s1,read1⟩ := isSome_iff_exists.mp (readable _ first)
  simp only [channel,exact1,exact2,if_neg (Nat.not_le.mpr first),read1,bind_eq_bind,bind_some]
  split_ifs with past
  · simp [read1]
  · obtain ⟨s2,read2⟩ := isSome_iff_exists.mp (readable _ (Nat.lt_of_not_le past))
    simp [read2]

theorem channel_loop_runs (inside : src_idx < num_samples) (frac : BitVec 32) (all : ch + left = num_channels)
    (room : 2 * (dst + left) ≤ buffer.length) :
    ∃ buffer', channel_loop read num_channels total_src_samples src_idx frac left ch dst buffer = some buffer' := by
  induction left generalizing ch dst buffer with
  | zero => exact ⟨buffer,rfl⟩
  | succ left ih =>
    obtain ⟨sample,found⟩ := isSome_iff_exists.mp (channel_isSome readable total small few inside (show ch < num_channels by omega) frac)
    have fits : 2 * dst + 2 ≤ buffer.length := by omega
    simp only [channel_loop,found,store,if_pos fits,bind_eq_bind,bind_some]
    exact ih (by omega) (by simp only [List.length_set]; omega)

/-- The loop reads only samples of the source, when each position is one. -/
theorem sample_loop_runs {step out_samples : Nat} (inside : ∀ i, i < out_samples → i * step / 65536 < num_samples) (positions : num_samples < W32)
    {i : Nat} (all : i + left = out_samples) (room : 2 * (dst + left * num_channels) ≤ buffer.length) :
    ∃ buffer', sample_loop read num_channels total_src_samples step left (i * step % W64) dst buffer = some buffer' := by
  induction left generalizing i dst buffer with
  | zero => exact ⟨buffer,rfl⟩
  | succ left ih =>
    have here := inside i (by omega)
    have next : (i + 1) * step = i * step + step := by ring
    have low : i * step < W64 := by
      unfold W32 at positions
      unfold W64
      omega
    have parts : (left + 1) * num_channels = num_channels + left * num_channels := by ring
    rw [Nat.mod_eq_of_lt low,sample_loop]
    obtain ⟨buffer',channels⟩ := channel_loop_runs readable total small few here (BitVec.ofNat 32 (i * step % 65536))
      (Nat.zero_add num_channels) (show 2 * (dst + num_channels) ≤ buffer.length by omega)
    obtain ⟨-,same⟩ := channel_loop_some channels (by omega)
    simp only [channels,bind_eq_bind,bind_some,← next]
    exact ih (by omega) (by omega)

end

end

/-- The samples of the source, and those and the bytes of the result, without any overflow. -/
def num_samples (info : WavInfo) : Nat := info.data_size / (info.bits_per_sample / 8) / info.num_channels
def out_samples (info : WavInfo) (target_rate : Nat) : Nat := (num_samples info * target_rate + info.sample_rate - 1) / info.sample_rate
def out_bytes (info : WavInfo) (target_rate : Nat) : Nat := out_samples info target_rate * 2 * info.num_channels

/-- What is found in a file has the sizes of its fields. -/
structure WavInfo.Sized (info : WavInfo) : Prop where
  channels : info.num_channels < 65536
  rate : info.sample_rate < W32
  size : info.data_size < W32

/-- The data is copied, or there are channels and a rate and the size of the result fits its type, or becomes zero. -/
def Converts (info : WavInfo) (target_rate : Nat) : Prop :=
  (info.sample_rate = target_rate ∧ info.bits_per_sample = 16) ∨
    (0 < info.num_channels ∧ 0 < info.sample_rate ∧ (out_bytes info target_rate < W32 ∨ W32 ∣ out_bytes info target_rate))

section
variable {info : WavInfo} {target_rate : Nat}

theorem div_some {a b : Nat} (positive : 0 < b) : div a b = some (a / b) := if_neg positive.ne'

theorem num_samples_lt (sized : info.Sized) : num_samples info < W32 :=
  ((Nat.div_le_self _ _).trans (Nat.div_le_self _ _)).trans_lt sized.size

/-- The count of the samples does not overflow. -/
theorem out_samples_exact (sized : info.Sized) (some_rate : 0 < info.sample_rate) (target : target_rate < W32) :
    (num_samples info * target_rate + info.sample_rate + W64 - 1) % W64 = num_samples info * target_rate + info.sample_rate - 1 := by
  have samples := num_samples_lt sized
  have rate := sized.rate
  have product : num_samples info * target_rate ≤ 4294967295 * 4294967295 :=
    Nat.mul_le_mul (by unfold W32 at samples; omega) (by unfold W32 at target; omega)
  unfold W32 at rate
  unfold W64
  omega

/-- Every position lies within the source. -/
theorem position_inside (some_rate : 0 < info.sample_rate) {i : Nat}
    (inside : i < out_samples info target_rate) {step : Nat} (steps : step = info.sample_rate * 65536 / target_rate) :
    i * step / 65536 < num_samples info := by
  have before : i * info.sample_rate < num_samples info * target_rate := by
    have whole : (i + 1) * info.sample_rate ≤ num_samples info * target_rate + info.sample_rate - 1 :=
      (Nat.mul_le_mul_right _ inside).trans (Nat.div_mul_le_self _ _)
    have parts : (i + 1) * info.sample_rate = i * info.sample_rate + info.sample_rate := by ring
    omega
  have slow : step * target_rate ≤ info.sample_rate * 65536 := steps ▸ Nat.div_mul_le_self _ _
  rw [Nat.div_lt_iff_lt_mul (by decide)]
  have scaled : i * step * target_rate < num_samples info * 65536 * target_rate := by
    calc i * step * target_rate = i * (step * target_rate) := by ring
      _ ≤ i * (info.sample_rate * 65536) := Nat.mul_le_mul_left _ slow
      _ = i * info.sample_rate * 65536 := by ring
      _ < num_samples info * target_rate * 65536 := Nat.mul_lt_mul_of_pos_right before (by decide)
      _ = num_samples info * 65536 * target_rate := by ring
  exact Nat.lt_of_mul_lt_mul_right scaled

variable {src buffer : List UInt8} {size : Nat}

theorem source_readable (width : info.bits_per_sample = 8 ∨ info.bits_per_sample = 16)
    (whole : src.length = info.data_size) :
    Readable (source info.bits_per_sample src) (num_samples info * info.num_channels) := by
  intro idx inside
  have count : idx < info.data_size / (info.bits_per_sample / 8) := inside.trans_le (Nat.div_mul_le_self _ _)
  obtain narrow | wide := width
  · rw [narrow] at count ⊢
    have low : idx < src.length := by omega
    simp [source,low]
  · rw [wide] at count ⊢
    have low : 2 * idx < src.length := by omega
    have high : 2 * idx + 1 < src.length := by omega
    simp [source,low,high]

/-- What the conversion is, where nothing is divided by zero. -/
theorem convert_eq (sized : info.Sized) (width : info.bits_per_sample = 8 ∨ info.bits_per_sample = 16)
    (some_channel : 0 < info.num_channels) (some_rate : 0 < info.sample_rate) (some_target : 0 < target_rate)
    (target : target_rate < W32) :
    convert src info target_rate =
      if out_bytes info target_rate % W32 = 0 then some none
      else (sample_loop (source info.bits_per_sample src) info.num_channels (num_samples info * info.num_channels)
        (info.sample_rate * 65536 / target_rate) (out_samples info target_rate) 0 0
        (List.replicate (out_bytes info target_rate % W32) 0)).map fun buffer => some (buffer,out_bytes info target_rate % W32) := by
  have bytes : 0 < info.bits_per_sample / 8 := by omega
  have either : info.bits_per_sample = 16 ∨ info.bits_per_sample = 8 := width.symm
  have rate := sized.rate
  have total : num_samples info * info.num_channels < W32 :=
    ((Nat.div_mul_le_self _ _).trans (Nat.div_le_self _ _)).trans_lt sized.size
  have exact_step : info.sample_rate * 65536 % W64 = info.sample_rate * 65536 := by
    unfold W32 at rate
    exact Nat.mod_eq_of_lt (by unfold W64; omega)
  have exact_total : num_samples info * info.num_channels % W64 = num_samples info * info.num_channels :=
    Nat.mod_eq_of_lt (total.trans (by decide))
  have exact_count := out_samples_exact sized some_rate target
  rw [convert,div_some bytes,bind_eq_bind,bind_some,div_some some_channel,bind_eq_bind,bind_some,
    ← num_samples,exact_count,div_some some_rate,bind_some,← out_samples,exact_step,div_some some_target,exact_total]
  simp only [bind_some,if_pos either]
  rw [← out_bytes,malloc]
  split_ifs with empty
  · rfl
  · rw [Option.map_eq_bind]
    rfl

/-- Without channels or a rate it divides by zero. -/
theorem convert_none (width : info.bits_per_sample = 8 ∨ info.bits_per_sample = 16)
    (missing : info.num_channels = 0 ∨ info.sample_rate = 0) : convert src info target_rate = none := by
  have bytes : 0 < info.bits_per_sample / 8 := by omega
  rw [convert,div_some bytes,bind_eq_bind,bind_some]
  by_cases channels : info.num_channels = 0
  · rw [div,if_pos channels]
    rfl
  · rw [div_some (Nat.pos_of_ne_zero channels),bind_eq_bind,bind_some,div,if_pos (missing.resolve_left channels)]
    rfl

section
variable {src : List UInt8} (sized : info.Sized) (width : info.bits_per_sample = 8 ∨ info.bits_per_sample = 16)
  (whole : src.length = info.data_size) (some_target : 0 < target_rate) (target : target_rate < W32)
include sized width whole some_target target

theorem convert_iff : (∃ out, convert src info target_rate = some out) ↔
      0 < info.num_channels ∧ 0 < info.sample_rate ∧ (out_bytes info target_rate < W32 ∨ W32 ∣ out_bytes info target_rate) := by
  by_cases some_channel : 0 < info.num_channels
  · by_cases some_rate : 0 < info.sample_rate
    · rw [convert_eq sized width some_channel some_rate some_target target]
      simp only [some_channel,some_rate,true_and]
      by_cases empty : out_bytes info target_rate % W32 = 0
      · rw [if_pos empty]
        exact iff_of_true ⟨_,rfl⟩ (.inr (Nat.dvd_of_mod_eq_zero empty))
      · rw [if_neg empty]
        have writes : 2 * (0 + out_samples info target_rate * info.num_channels) = out_bytes info target_rate := by
          rw [out_bytes]
          ring
        constructor
        · rintro ⟨out,ran⟩
          obtain ⟨buffer,ran,-⟩ := Option.map_eq_some_iff.mp ran
          have room := (sample_loop_some ran (Nat.zero_le _)).1
          rw [writes,List.length_replicate] at room
          exact .inl (room.trans_lt (Nat.mod_lt _ (by decide)))
        · intro fits
          have small : out_bytes info target_rate < W32 := fits.resolve_right fun divides => empty (Nat.mod_eq_zero_of_dvd divides)
          have total : num_samples info * info.num_channels < W32 :=
            ((Nat.div_mul_le_self _ _).trans (Nat.div_le_self _ _)).trans_lt sized.size
          have room : 2 * (0 + out_samples info target_rate * info.num_channels) ≤
              (List.replicate (out_bytes info target_rate % W32) (0 : UInt8)).length := by
            rw [writes,List.length_replicate,Nat.mod_eq_of_lt small]
          obtain ⟨buffer,ran⟩ := sample_loop_runs (source_readable width whole) rfl total sized.channels
            (fun i inside => position_inside some_rate inside rfl) (num_samples_lt sized)
            (Nat.zero_add (out_samples info target_rate)) room
          rw [Nat.zero_mul,Nat.zero_mod] at ran
          exact ⟨_,by rw [ran]; rfl⟩
    · rw [convert_none width (.inr (Nat.eq_zero_of_not_pos some_rate))]
      simp [some_rate]
  · rw [convert_none width (.inl (Nat.eq_zero_of_not_pos some_channel))]
    simp [some_channel]

/-- The sound is converted inside its buffers exactly under these conditions. -/
theorem resample_iff : (∃ out, resample_audio src info target_rate = some out) ↔ Converts info target_rate := by
  unfold resample_audio Converts
  by_cases same : info.sample_rate = target_rate ∧ info.bits_per_sample = 16
  · rw [if_pos same,if_pos whole.ge]
    exact iff_of_true ⟨_,rfl⟩ (.inl same)
  · rw [if_neg same,convert_iff sized width whole some_target target]
    exact (or_iff_right same).symm

end

/-- The result of a conversion has the size that is reported. -/
theorem convert_size (converted : convert src info target_rate = some (some (buffer,size))) : buffer.length = size := by
  simp only [convert,bind_eq_bind,bind_eq_some_iff] at converted
  obtain ⟨_,-,_,-,out,-,converted⟩ := converted
  unfold malloc at converted
  split_ifs at converted
  · cases converted
  · cases converted
  · simp only [bind_eq_some_iff] at converted
    obtain ⟨step,-,filled,ran,same⟩ := converted
    obtain ⟨rfl,rfl⟩ := Prod.mk.inj (some.inj (some.inj same))
    exact ((sample_loop_some ran (Nat.zero_le _)).2).trans List.length_replicate
  · simp only [bind_eq_some_iff] at converted
    obtain ⟨step,-,nothing⟩ := converted
    cases nothing

theorem resample_size (resampled : resample_audio src info target_rate = some (some (buffer,size))) :
    buffer.length = size := by
  unfold resample_audio malloc at resampled
  split_ifs at resampled with same whole empty
  · cases resampled
  · obtain ⟨rfl,rfl⟩ := Prod.mk.inj (some.inj (some.inj resampled))
    exact List.length_take_of_le whole
  · exact convert_size resampled

end

end MicroOS.Resampling

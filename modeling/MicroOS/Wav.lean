import MicroOS.Resampling

/-! The files of sound (`wav.c`). A result is none when a read leaves the file, or when a loop does not end. -/

namespace MicroOS.Wav
open Resampling
open Option (bind_eq_bind bind_eq_some_iff bind_some some.inj)

def u16 (b : List UInt8) (i : Nat) : Option Nat := do
  let b0 ← b[i]?
  let b1 ← b[i + 1]?
  pure (b0.toNat + 256 * b1.toNat)

def u32 (b : List UInt8) (i : Nat) : Option Nat := do
  let low ← u16 b i
  let high ← u16 b (i + 2)
  pure (low + 65536 * high)

def check_fourcc (b : List UInt8) (i : Nat) (expected : List UInt8) : Option Bool :=
  if i + 4 ≤ b.length then some ((b.drop i).take 4 == expected) else none

def RIFF : List UInt8 := [82,73,70,70]
def WAVE : List UInt8 := [87,65,86,69]
def fmt_id : List UInt8 := [102,109,116,32]
def data_id : List UInt8 := [100,97,116,97]

/-- The loops of the parser, which look for a chunk: where it is, if there is one. -/
def find_chunk (b : List UInt8) (id : List UInt8) : Nat → Nat → Option (Option Nat)
  | 0,_ => none
  | turns + 1,offset =>
    if (offset + 8) % W32 < b.length then do
      let chunk_size ← u32 b (offset + 4)
      let found ← check_fourcc b offset id
      if found then pure (some offset)
      else find_chunk b id turns ((offset + 8 + chunk_size) % W32)
    else pure none

def invalid : WavInfo := ⟨0,0,0,0,0,0,false⟩

/-- The data chunk, once the format is found. -/
def parse_data (turns : Nat) (b : List UInt8) (fmt audio_format offset : Nat) : Option WavInfo := do
  match ← find_chunk b data_id turns offset with
  | none => pure invalid
  | some offset => do
    let chunk_size ← u32 b (offset + 4)
    let num_channels ← u16 b (fmt + 10)
    let sample_rate ← u32 b (fmt + 12)
    let bits_per_sample ← u16 b (fmt + 22)
    pure ⟨audio_format,num_channels,sample_rate,bits_per_sample,chunk_size,(offset + 8) % W32,true⟩

def wav_parse_header (turns : Nat) (b : List UInt8) : Option WavInfo :=
  if b.length < 44 then pure invalid
  else do
    let riff ← check_fourcc b 0 RIFF
    let wave ← check_fourcc b 8 WAVE
    if riff = false ∨ wave = false then pure invalid
    else do
      match ← find_chunk b fmt_id turns 12 with
      | none => pure invalid
      | some fmt => do
        let chunk_size ← u32 b (fmt + 4)
        let audio_format ← u16 b (fmt + 8)
        if audio_format ≠ 1 then pure invalid
        else parse_data turns b fmt audio_format ((fmt + 8 + chunk_size) % W32)

/-- Where the chunks from an offset on lead: each lies its size behind the last, until one has the name or the file ends. -/
inductive Chunks (b : List UInt8) (id : List UInt8) : Nat → Option Nat → Prop
  | found {o : Nat} (inside : o + 8 < b.length) (named : check_fourcc b o id = some true) : Chunks b id o (some o)
  | next {o size : Nat} {r : Option Nat} (inside : o + 8 < b.length) (other : check_fourcc b o id = some false)
      (sized : u32 b (o + 4) = some size) (rest : Chunks b id ((o + 8 + size) % W32) r) : Chunks b id o r
  | ends {o : Nat} (past : b.length ≤ o + 8) (low : o + 8 < W32) : Chunks b id o none

section
variable {b id : List UInt8}

variable {i v o : Nat} {r : Option Nat}

theorem u16_some (inside : i + 2 ≤ b.length) : ∃ v, u16 b i = some v ∧ v < 65536 := by
  have first : i < b.length := by omega
  have second : i + 1 < b.length := by omega
  refine ⟨b[i].toNat + 256 * b[i + 1].toNat,by simp [u16,first,second],?_⟩
  have := b[i].toNat_lt
  have := b[i + 1].toNat_lt
  omega

theorem u16_inside (read : u16 b i = some v) : i + 2 ≤ b.length ∧ v < 65536 := by
  have inside : i + 2 ≤ b.length := by
    by_contra outside
    have second : b[i + 1]? = none := List.getElem?_eq_none (by omega)
    simp only [u16,second,bind_eq_bind,Option.bind_none,Option.bind_fun_none] at read
    cases read
  obtain ⟨w,same,small⟩ := u16_some inside
  rw [read] at same
  exact ⟨inside,some.inj same ▸ small⟩

theorem u32_some (inside : i + 4 ≤ b.length) : ∃ v, u32 b i = some v ∧ v < W32 := by
  obtain ⟨low,read_low,small_low⟩ := u16_some (show i + 2 ≤ b.length by omega)
  obtain ⟨high,read_high,small_high⟩ := u16_some (show i + 2 + 2 ≤ b.length by omega)
  exact ⟨low + 65536 * high,by simp [u32,read_low,read_high],by unfold W32; omega⟩

theorem u32_inside (read : u32 b i = some v) : i + 4 ≤ b.length ∧ v < W32 := by
  have inside : i + 4 ≤ b.length := by
    simp only [u32,bind_eq_bind,bind_eq_some_iff] at read
    obtain ⟨low,-,high,read_high,-⟩ := read
    have := (u16_inside read_high).1
    omega
  obtain ⟨w,same,small⟩ := u32_some inside
  rw [read] at same
  exact ⟨inside,some.inj same ▸ small⟩

theorem fourcc_some {i : Nat} (inside : i + 4 ≤ b.length) : ∃ found, check_fourcc b i id = some found :=
  ⟨_,if_pos inside⟩

/-- A loop that ends has followed the chunks. -/
theorem find_chunk_chunks (size : b.length < W32) (long : 8 ≤ b.length) {turns : Nat} (low : o < W32)
    (ran : find_chunk b id turns o = some r) : Chunks b id o r := by
  induction turns generalizing o with
  | zero => cases ran
  | succ turns ih =>
    rw [find_chunk] at ran
    split_ifs at ran with inside
    · simp only [bind_eq_bind,bind_eq_some_iff] at ran
      obtain ⟨chunk_size,sized,found,named,ran⟩ := ran
      -- The size could be read, so that the offset did not wrap.
      have inside' : o + 8 < b.length := by
        have := (u32_inside sized).1
        rwa [Nat.mod_eq_of_lt (by omega)] at inside
      cases found with
      | true =>
        obtain rfl := some.inj ran
        exact .found inside' named
      | false => exact .next inside' named sized (ih (Nat.mod_lt _ (by decide)) ran)
    · obtain rfl := some.inj ran
      unfold W32 at low inside
      exact .ends (by omega) (by unfold W32; omega)

/-- Chunks that lead somewhere are followed in some number of turns, and then in any larger one. -/
theorem Chunks.find_chunk (size : b.length < W32) (chunks : Chunks b id o r) :
    ∃ turns, ∀ more, Wav.find_chunk b id (turns + more) o = some r := by
  induction chunks with
  | @found o inside named =>
    obtain ⟨chunk_size,sized,-⟩ := u32_some (show o + 4 + 4 ≤ b.length by omega)
    refine ⟨1,fun more => ?_⟩
    rw [Nat.add_comm,Wav.find_chunk,Nat.mod_eq_of_lt (by omega),if_pos inside,sized,named]
    rfl
  | next inside other sized _ ih =>
    obtain ⟨turns,ran⟩ := ih
    refine ⟨turns + 1,fun more => ?_⟩
    rw [Nat.add_right_comm,Wav.find_chunk,Nat.mod_eq_of_lt (by omega),if_pos inside,sized,other]
    exact ran more
  | ends past low =>
    refine ⟨1,fun more => ?_⟩
    rw [Nat.add_comm,Wav.find_chunk,Nat.mod_eq_of_lt low,if_neg (by omega)]
    rfl

theorem Chunks.inside {o d : Nat} (chunks : Chunks b id o (some d)) : d + 8 < b.length := by
  generalize target : some d = r at chunks
  induction chunks with
  | found inside _ =>
    obtain rfl := some.inj target
    exact inside
  | next _ _ _ _ ih => exact ih target
  | ends _ _ => cases target

end

/-- The fields of a file with the format at `f` and the data at `d`. -/
structure Fields (b : List UInt8) (f d : Nat) (info : WavInfo) : Prop where
  format : info.audio_format = 1
  channels : u16 b (f + 10) = some info.num_channels
  rate : u32 b (f + 12) = some info.sample_rate
  bits : u16 b (f + 22) = some info.bits_per_sample
  size : u32 b (d + 4) = some info.data_size
  offset : info.data_offset = d + 8
  valid : info.valid = true

theorem Fields.sized {b : List UInt8} {f d : Nat} {info : WavInfo} (fields : Fields b f d info) : info.Sized :=
  ⟨(u16_inside fields.channels).2,(u32_inside fields.rate).2,(u32_inside fields.size).2⟩

/-- The files that are played, or refused, without leaving the file or the buffer of the result. -/
def Playable (b : List UInt8) (target_rate : Nat) : Prop :=
  b.length < 44 ∨ ¬ (check_fourcc b 0 RIFF = some true ∧ check_fourcc b 8 WAVE = some true) ∨ Chunks b fmt_id 12 none ∨
    ∃ f size format, Chunks b fmt_id 12 (some f) ∧ u32 b (f + 4) = some size ∧ u16 b (f + 8) = some format ∧
      (format ≠ 1 ∨ Chunks b data_id ((f + 8 + size) % W32) none ∨
        ∃ d info, Chunks b data_id ((f + 8 + size) % W32) (some d) ∧ Fields b f d info ∧ d + 8 + info.data_size ≤ b.length ∧
          (info.bits_per_sample = 8 ∨ info.bits_per_sample = 16 → Converts info target_rate))

/-- The data chunk of a file. -/
def data (b : List UInt8) (info : WavInfo) : List UInt8 := (b.drop info.data_offset).take info.data_size

/-- The parser ends inside the file, the data it finds lies in the file, and what is played of it is converted inside the data
    and the buffer, whose size is reported. -/
def Plays (b : List UInt8) (target_rate : Nat) : Prop :=
  ∃ turns info, wav_parse_header turns b = some info ∧
    (info.valid = true → info.data_offset + info.data_size ≤ b.length ∧
      (info.audio_format = 1 → info.bits_per_sample = 8 ∨ info.bits_per_sample = 16 →
        ∃ out, resample_audio (data b info) info target_rate = some out ∧ ∀ buffer size, out = some (buffer,size) → buffer.length = size))

section
variable {b : List UInt8} {target_rate : Nat}

variable {info : WavInfo}

theorem data_length (inside : info.data_offset + info.data_size ≤ b.length) : (data b info).length = info.data_size := by
  rw [data,List.length_take,List.length_drop]
  omega

/-- What the parser returns when it ends. -/
inductive Parsed (b : List UInt8) : WavInfo → Prop
  | short (few : b.length < 44) : Parsed b invalid
  | other (long : 44 ≤ b.length) (no_wave : ¬ (check_fourcc b 0 RIFF = some true ∧ check_fourcc b 8 WAVE = some true)) : Parsed b invalid
  | no_format (long : 44 ≤ b.length) (wave : check_fourcc b 0 RIFF = some true ∧ check_fourcc b 8 WAVE = some true)
      (none_found : Chunks b fmt_id 12 none) : Parsed b invalid
  | no_pcm {f size format : Nat} (long : 44 ≤ b.length) (wave : check_fourcc b 0 RIFF = some true ∧ check_fourcc b 8 WAVE = some true)
      (found : Chunks b fmt_id 12 (some f)) (sized : u32 b (f + 4) = some size) (read : u16 b (f + 8) = some format)
      (other_format : format ≠ 1) : Parsed b invalid
  | no_data {f size : Nat} (long : 44 ≤ b.length) (wave : check_fourcc b 0 RIFF = some true ∧ check_fourcc b 8 WAVE = some true)
      (found : Chunks b fmt_id 12 (some f)) (sized : u32 b (f + 4) = some size) (read : u16 b (f + 8) = some 1)
      (none_found : Chunks b data_id ((f + 8 + size) % W32) none) : Parsed b invalid
  | sound {f size d : Nat} {info : WavInfo} (long : 44 ≤ b.length)
      (wave : check_fourcc b 0 RIFF = some true ∧ check_fourcc b 8 WAVE = some true)
      (found : Chunks b fmt_id 12 (some f)) (sized : u32 b (f + 4) = some size) (read : u16 b (f + 8) = some 1)
      (found_data : Chunks b data_id ((f + 8 + size) % W32) (some d)) (fields : Fields b f d info) : Parsed b info

theorem parse_data_parsed (size : b.length < W32) {turns f chunk_size : Nat} (long : 44 ≤ b.length)
    (wave : check_fourcc b 0 RIFF = some true ∧ check_fourcc b 8 WAVE = some true) (found : Chunks b fmt_id 12 (some f))
    (sized : u32 b (f + 4) = some chunk_size) (read : u16 b (f + 8) = some 1)
    (ran : parse_data turns b f 1 ((f + 8 + chunk_size) % W32) = some info) : Parsed b info := by
  simp only [parse_data,bind_eq_bind,bind_eq_some_iff] at ran
  obtain ⟨r,searched,ran⟩ := ran
  have chunks := find_chunk_chunks size (by omega) (Nat.mod_lt _ (by decide)) searched
  cases r with
  | none =>
    obtain rfl := some.inj ran
    exact .no_data long wave found sized read chunks
  | some d =>
    simp only [bind_eq_some_iff,Option.pure_def,Option.some.injEq] at ran
    obtain ⟨data_size,sized_data,channels,read_channels,rate,read_rate,bits,read_bits,rfl⟩ := ran
    have inside := chunks.inside
    exact .sound long wave found sized read chunks
      ⟨rfl,read_channels,read_rate,read_bits,sized_data,Nat.mod_eq_of_lt (by omega),rfl⟩

/-- A parser that ends has followed the chunks. -/
theorem header_parsed (size : b.length < W32) {turns : Nat} (ran : wav_parse_header turns b = some info) : Parsed b info := by
  rw [wav_parse_header] at ran
  split_ifs at ran with few
  · obtain rfl := some.inj ran
    exact .short few
  · have long : 44 ≤ b.length := Nat.le_of_not_lt few
    simp only [bind_eq_bind,bind_eq_some_iff] at ran
    obtain ⟨riff,is_riff,wave,is_wave,ran⟩ := ran
    split_ifs at ran with other
    · obtain rfl := some.inj ran
      refine .other long fun both => ?_
      rw [is_riff,is_wave] at both
      simp_all
    · have both : check_fourcc b 0 RIFF = some true ∧ check_fourcc b 8 WAVE = some true := by
        rw [is_riff,is_wave]
        simpa using other
      rw [bind_eq_some_iff] at ran
      obtain ⟨r,searched,ran⟩ := ran
      have chunks := find_chunk_chunks size (by omega) (by decide) searched
      cases r with
      | none =>
        obtain rfl := some.inj ran
        exact .no_format long both chunks
      | some f =>
        simp only [bind_eq_some_iff] at ran
        obtain ⟨chunk_size,sized,format,read,ran⟩ := ran
        split_ifs at ran with pcm
        · obtain rfl := some.inj ran
          exact .no_pcm long both chunks sized read pcm
        · obtain rfl : format = 1 := not_not.mp pcm
          exact parse_data_parsed size long both chunks sized read ran

theorem header_wave (long : 44 ≤ b.length) (wave : check_fourcc b 0 RIFF = some true ∧ check_fourcc b 8 WAVE = some true) (turns : Nat) :
    wav_parse_header turns b = (do
      match ← find_chunk b fmt_id turns 12 with
      | none => pure invalid
      | some fmt => do
        let chunk_size ← u32 b (fmt + 4)
        let audio_format ← u16 b (fmt + 8)
        if audio_format ≠ 1 then pure invalid
        else parse_data turns b fmt audio_format ((fmt + 8 + chunk_size) % W32)) := by
  rw [wav_parse_header,if_neg (Nat.not_lt.mpr long),wave.1,wave.2]
  rfl

/-- Where the chunks lead somewhere the parser ends. -/
theorem Parsed.runs (size : b.length < W32) (parsed : Parsed b info) : ∃ turns, wav_parse_header turns b = some info := by
  cases parsed with
  | short few => exact ⟨0,if_pos few⟩
  | other long no_wave =>
    obtain ⟨riff,is_riff⟩ := @fourcc_some b RIFF 0 (by omega)
    obtain ⟨wave,is_wave⟩ := @fourcc_some b WAVE 8 (by omega)
    have either : riff = false ∨ wave = false := by
      rw [is_riff,is_wave] at no_wave
      cases riff <;> cases wave <;> simp_all
    refine ⟨0,?_⟩
    rw [wav_parse_header,if_neg (Nat.not_lt.mpr long),is_riff,is_wave,bind_eq_bind,bind_some,bind_eq_bind,
      bind_some,if_pos either]
    rfl
  | no_format long wave none_found =>
    obtain ⟨turns,searched⟩ := none_found.find_chunk size
    refine ⟨turns,?_⟩
    rw [header_wave long wave,← Nat.add_zero turns,searched 0]
    rfl
  | no_pcm long wave found sized read other_format =>
    obtain ⟨turns,searched⟩ := found.find_chunk size
    refine ⟨turns,?_⟩
    rw [header_wave long wave,← Nat.add_zero turns,searched 0]
    simp [sized,read,other_format]
  | no_data long wave found sized read none_found =>
    obtain ⟨turns,searched⟩ := found.find_chunk size
    obtain ⟨turns',searched'⟩ := none_found.find_chunk size
    refine ⟨turns + turns',?_⟩
    have second := searched' turns
    rw [Nat.add_comm turns' turns] at second
    rw [header_wave long wave,searched turns']
    simp [sized,read,parse_data,second]
  | sound long wave found sized read found_data fields =>
    obtain ⟨turns,searched⟩ := found.find_chunk size
    obtain ⟨turns',searched'⟩ := found_data.find_chunk size
    refine ⟨turns + turns',?_⟩
    have second := searched' turns
    rw [Nat.add_comm turns' turns] at second
    have inside := found_data.inside
    obtain ⟨format,channels,rate,bits,data_size,offset,valid⟩ := fields
    rw [header_wave long wave,searched turns']
    simp only [bind_eq_bind,bind_some,sized,read,parse_data,second,channels,rate,bits,data_size]
    rw [if_neg (by decide),Nat.mod_eq_of_lt (show _ + 8 < W32 by omega)]
    simp [← format,← offset,← valid]

/-- The files that are played safely, for any rate of the device. -/
theorem wav_playback (size : b.length < W32) (some_target : 0 < target_rate) (target : target_rate < W32) :
    Plays b target_rate ↔ Playable b target_rate := by
  constructor
  · rintro ⟨turns,info,ran,right⟩
    cases header_parsed size ran with
    | short few => exact .inl few
    | other _ no_wave => exact .inr (.inl no_wave)
    | no_format _ _ none_found => exact .inr (.inr (.inl none_found))
    | no_pcm _ _ found sized read other_format => exact .inr (.inr (.inr ⟨_,_,_,found,sized,read,.inl other_format⟩))
    | no_data _ _ found sized read none_found => exact .inr (.inr (.inr ⟨_,_,_,found,sized,read,.inr (.inl none_found)⟩))
    | sound _ _ found sized read found_data fields =>
      obtain ⟨inside,converted⟩ := right fields.valid
      refine .inr (.inr (.inr ⟨_,_,_,found,sized,read,.inr (.inr ⟨_,info,found_data,fields,fields.offset ▸ inside,fun width => ?_⟩)⟩))
      obtain ⟨out,resampled,-⟩ := converted fields.format width
      exact (resample_iff fields.sized width (data_length inside) some_target target).mp ⟨out,resampled⟩
  · have refused (parsed : Parsed b invalid) : Plays b target_rate := by
      obtain ⟨turns,ran⟩ := parsed.runs size
      exact ⟨turns,invalid,ran,fun valid => by cases valid⟩
    intro playable
    by_cases few : b.length < 44
    · exact refused (.short few)
    · have long := Nat.le_of_not_lt few
      by_cases wave : check_fourcc b 0 RIFF = some true ∧ check_fourcc b 8 WAVE = some true
      · obtain short | no_wave | none_found | ⟨f,chunk_size,format,found,sized,read,rest⟩ := playable
        · exact absurd short few
        · exact absurd wave no_wave
        · exact refused (.no_format long wave none_found)
        · by_cases pcm : format = 1
          · subst pcm
            obtain other | none_found | ⟨d,info,found_data,fields,inside,converts⟩ := rest
            · exact absurd rfl other
            · exact refused (.no_data long wave found sized read none_found)
            · obtain ⟨turns,ran⟩ := (Parsed.sound long wave found sized read found_data fields).runs size
              have inside' : info.data_offset + info.data_size ≤ b.length := fields.offset ▸ inside
              refine ⟨turns,info,ran,fun _ => ⟨inside',fun _ width => ?_⟩⟩
              obtain ⟨out,resampled⟩ := (resample_iff fields.sized width (data_length inside') some_target target).mpr (converts width)
              exact ⟨out,resampled,fun buffer n same => resample_size (by rw [resampled,same])⟩
          · exact refused (.no_pcm long wave found sized read pcm)
      · exact refused (.other long wave)

end

/-- Two samples of 16 bits in one channel, 24000 of them in a second. -/
def tone : List UInt8 :=
  RIFF ++ [40,0,0,0] ++ WAVE ++ fmt_id ++ [16,0,0,0,1,0,1,0,192,93,0,0,128,187,0,0,2,0,16,0] ++ data_id ++ [4,0,0,0,1,2,3,4]

theorem wav_playback_resampled : Plays tone 48000 := by
  have found : Chunks tone fmt_id 12 (some 12) := .found (by decide) rfl
  have found_data : Chunks tone data_id ((12 + 8 + 16) % W32) (some 36) := .found (by decide) rfl
  have fields : Fields tone 12 36 ⟨1,1,24000,16,4,44,true⟩ := ⟨rfl,rfl,rfl,rfl,rfl,rfl,rfl⟩
  have converts : Converts ⟨1,1,24000,16,4,44,true⟩ 48000 := .inr ⟨by decide,by decide,.inl (by decide)⟩
  exact (wav_playback (by decide) (by decide) (by decide)).mpr
    (.inr (.inr (.inr ⟨12,16,1,found,rfl,rfl,.inr (.inr ⟨36,_,found_data,fields,by decide,fun _ => converts⟩)⟩)))

/-- A chunk whose size leads back to itself. -/
def endless : List UInt8 := RIFF ++ [36,0,0,0] ++ WAVE ++ [76,73,83,84,248,255,255,255] ++ List.replicate 24 0

theorem endless_chunks {r : Option Nat} (chunks : Chunks endless fmt_id 12 r) : False := by
  generalize start : 12 = o at chunks
  induction chunks with
  | found _ named =>
    subst start
    cases named
  | next _ _ sized _ ih =>
    subst start
    obtain rfl : 4294967288 = _ := some.inj sized
    exact ih rfl
  | ends past _ =>
    subst start
    exact absurd past (by decide)

theorem endless_not_played : ¬ Plays endless 48000 := by
  rintro ⟨turns,info,ran,-⟩
  cases header_parsed (by decide) ran with
  | short few => exact absurd few (by decide)
  | other _ no_wave => exact no_wave ⟨rfl,rfl⟩
  | no_format _ _ none_found => exact endless_chunks none_found
  | no_pcm _ _ found _ _ _ => exact endless_chunks found
  | no_data _ _ found _ _ _ => exact endless_chunks found
  | sound _ _ found _ _ _ _ => exact endless_chunks found

end MicroOS.Wav

import MicroOS.Linker

/-!
What the executable holds and what the loader reads of it: the headers come back as
they were written, sections are copied to where their offsets say, and loading a
segment fixes every byte of its range.
-/
namespace MicroOS.LinkerFile
open Memory Linker

variable {a x : Nat} {image : Bytes}

theorem load32_of_slice {m : Bytes} {v : Nat} (same : slice m a 4 = le32 v) (fits : v < 2 ^ 32) : load32 m a = v := by
  have bytes : m a = UInt8.ofNat v ∧ m (a + 1) = UInt8.ofNat (v / 2 ^ 8) ∧ m (a + 2) = UInt8.ofNat (v / 2 ^ 16) ∧
      m (a + 3) = UInt8.ofNat (v / 2 ^ 24) := by
    simpa [slice,le32,List.range_succ] using same
  obtain ⟨b0,b1,b2,b3⟩ := bytes
  simp only [load32,b0,b1,b2,b3,UInt8.toNat_ofNat']
  omega

theorem load16_of_slice {m : Bytes} {v : Nat} (same : slice m a 2 = le16 v) (fits : v < 2 ^ 16) : load16 m a = v := by
  have bytes : m a = UInt8.ofNat v ∧ m (a + 1) = UInt8.ofNat (v / 2 ^ 8) := by
    simpa [slice,le16,List.range_succ] using same
  simp only [load16,bytes.1,bytes.2,UInt8.toNat_ofNat']
  omega

/-- A part of a slice. -/
theorem slice_part {m : Bytes} {n k j : Nat} {bs : List UInt8} (same : slice m a n = bs) (inside : k + j ≤ n) :
    slice m (a + k) j = (bs.drop k).take j := by
  rw [← same,slice_drop]
  have split : n - k = j + (n - k - j) := by omega
  rw [split,slice_append,List.take_left' (slice_length ..)]

theorem phdr_bytes_length (p : Phdr) : (phdr_bytes p).length = 32 := rfl
theorem ehdr_bytes_length (entry count : Nat) : (ehdr_bytes entry count).length = 52 := rfl

theorem flatMap_phdr_length (ps : List Phdr) : (ps.flatMap phdr_bytes).length = 32 * ps.length := by
  induction ps with
  | nil => rfl
  | cons p ps ih =>
    rw [List.flatMap_cons,List.length_append,ih,phdr_bytes_length,List.length_cons]
    omega

theorem header_bytes_length (entry : Nat) (ps : List Phdr) : (header_bytes entry ps).length = 52 + 32 * ps.length := by
  rw [header_bytes,List.length_append,ehdr_bytes_length,flatMap_phdr_length]

/-- All fields of a program header are machine words. -/
structure Fits (p : Phdr) : Prop where
  type : p.type < 2 ^ 32
  offset : p.offset < 2 ^ 32
  virt_addr : p.virt_addr < 2 ^ 32
  file_size : p.file_size < 2 ^ 32
  mem_size : p.mem_size < 2 ^ 32

/-- What loading a segment does. -/
def load_phdr (image m : Bytes) (p : Phdr) : Bytes :=
  if p.type ≠ 1 then m else storeBytes (memset m p.virt_addr p.mem_size) p.virt_addr (slice image p.offset p.file_size)

theorem load_segment_eq {ph : Nat} {p : Phdr} (same : slice image ph 32 = phdr_bytes p) (fits : Fits p)
    (m : Bytes) : load_segment image ph m = load_phdr image m p := by
  have type : load32 image ph = p.type :=
    load32_of_slice (slice_part (k := 0) (j := 4) same (by decide)) fits.type
  have offset : load32 image (ph + 4) = p.offset :=
    load32_of_slice (slice_part (k := 4) (j := 4) same (by decide)) fits.offset
  have virt_addr : load32 image (ph + 8) = p.virt_addr :=
    load32_of_slice (slice_part (k := 8) (j := 4) same (by decide)) fits.virt_addr
  have file_size : load32 image (ph + 16) = p.file_size :=
    load32_of_slice (slice_part (k := 16) (j := 4) same (by decide)) fits.file_size
  have mem_size : load32 image (ph + 20) = p.mem_size :=
    load32_of_slice (slice_part (k := 20) (j := 4) same (by decide)) fits.mem_size
  rw [load_segment,load_phdr,type,offset,virt_addr,file_size,mem_size]

theorem load_segments_eq {ps : List Phdr} {ph : Nat}
    (same : slice image ph (32 * ps.length) = ps.flatMap phdr_bytes) (fits : ∀ p ∈ ps, Fits p) (m : Bytes) :
    load_segments image ps.length ph m = ps.foldl (load_phdr image) m := by
  induction ps generalizing ph m with
  | nil => rfl
  | cons p ps ih =>
    obtain ⟨here,later⟩ := List.forall_mem_cons.mp fits
    have length : 32 * (p :: ps).length = 32 + 32 * ps.length := by
      rw [List.length_cons]
      omega
    rw [length,slice_append,List.flatMap_cons] at same
    obtain ⟨first,rest⟩ := List.append_inj same (by rw [slice_length,phdr_bytes_length])
    rw [List.length_cons,load_segments,load_segment_eq first here]
    exact ih rest later _

/-- The loader finds the program headers that were written. -/
theorem init_elf_eq {entry : Nat} {ps : List Phdr}
    (same : slice image 0 (52 + 32 * ps.length) = header_bytes entry ps) (fits : ∀ p ∈ ps, Fits p)
    (few : ps.length < 2 ^ 16) (m : Bytes) : init_elf image m = some (ps.foldl (load_phdr image) m) := by
  rw [slice_append,header_bytes] at same
  obtain ⟨ehdr,table⟩ := List.append_inj same (by rw [slice_length,ehdr_bytes_length])
  have magic : load32 image 0 = ELF_MAGIC := load32_of_slice (slice_part (k := 0) (j := 4) ehdr (by decide)) (by decide)
  have ph_offset : load32 image 28 = 52 := load32_of_slice (slice_part (k := 28) (j := 4) ehdr (by decide)) (by decide)
  have count : load16 image 44 = ps.length := load16_of_slice (slice_part (k := 44) (j := 2) ehdr (by decide)) few
  rw [Nat.zero_add] at table
  rw [init_elf,magic,ph_offset,count,if_neg (fun other => other rfl),load_segments_eq table fits]

theorem load_phdr_file {m : Bytes} {p : Phdr} (load : p.type = 1) (low : p.virt_addr ≤ x)
    (high : x < p.virt_addr + p.file_size) : load_phdr image m p x = image (p.offset + (x - p.virt_addr)) := by
  rw [load_phdr,if_neg (fun other => other load),storeBytes,if_pos low,slice_getElem?,if_pos (by omega)]
  rfl

theorem load_phdr_zero {m : Bytes} {p : Phdr} (load : p.type = 1) (low : p.virt_addr + p.file_size ≤ x)
    (high : x < p.virt_addr + p.mem_size) : load_phdr image m p x = 0 := by
  rw [load_phdr,if_neg (fun other => other load),storeBytes_outside _ _ _ (.inr (by rw [slice_length]; exact low)),memset,
    storeBytes,if_pos (by omega),List.getElem?_replicate,if_pos (by omega)]
  rfl

theorem load_phdr_outside {m : Bytes} {p : Phdr} (small : p.file_size ≤ p.mem_size)
    (outside : x < p.virt_addr ∨ p.virt_addr + p.mem_size ≤ x) : load_phdr image m p x = m x := by
  rw [load_phdr]
  split
  · rfl
  · rw [storeBytes_outside _ _ _ (by rw [slice_length]; omega),memset,
      storeBytes_outside _ _ _ (by rw [List.length_replicate]; omega)]

/-- The file range of a section's data ends before another's, or the other way round. -/
def FileApart (s t : Section) : Prop := ∀ d e, s.data = some d → t.data = some e →
  s.out_offset + d.length ≤ t.out_offset ∨ t.out_offset + e.length ≤ s.out_offset

theorem copy_sections_agree {total lo hi : Nat} {sections : List Section} {out_buf : Bytes}
    (apart : ∀ s ∈ sections, ∀ d, s.data = some d → hi ≤ s.out_offset ∨ s.out_offset + d.length ≤ lo) :
    Agree out_buf (copy_sections total sections out_buf) lo hi := by
  induction sections generalizing out_buf with
  | nil => exact agree_refl _ _ _
  | cons s rest ih =>
    obtain ⟨here,later⟩ := List.forall_mem_cons.mp apart
    rw [copy_sections]
    split
    · rename_i d some_
      split
      · exact agree_trans (storeBytes_agree _ _ _ (here d some_)) (ih later)
      · exact ih later
    · exact ih later

/-- Sections that lie apart inside the file are there afterwards. -/
theorem copy_sections_slice {total : Nat} {sections : List Section} {out_buf : Bytes} (apart : sections.Pairwise FileApart)
    (inside : ∀ s ∈ sections, ∀ d, s.data = some d → s.type ≠ SHT_NOBITS ∧ wrap (s.out_offset + s.size) ≤ total) :
    ∀ s ∈ sections, ∀ d, s.data = some d → slice (copy_sections total sections out_buf) s.out_offset d.length = d := by
  induction sections generalizing out_buf with
  | nil => simp
  | cons s rest ih =>
    obtain ⟨here,later⟩ := List.forall_mem_cons.mp inside
    obtain ⟨first,others⟩ := List.pairwise_cons.mp apart
    intro t member d some_
    rw [copy_sections]
    rcases List.mem_cons.mp member with rfl | in_rest
    · simp only [some_]
      rw [if_pos (here d some_)]
      have kept := @copy_sections_agree total t.out_offset (t.out_offset + d.length) _ (storeBytes out_buf t.out_offset d)
        (fun u u_member e e_some => first u u_member d e some_ e_some)
      rw [slice_agree kept,slice_storeBytes]
    · split
      · split <;> exact ih others later t in_rest d some_
      · exact ih others later t in_rest d some_

theorem le_total_file_size (headers : Nat) (sections : List Section) : headers ≤ total_file_size headers sections := by
  induction sections with
  | nil => exact le_rfl
  | cons s rest ih =>
    rw [total_file_size]
    split
    · exact ih
    · exact ih.trans (Nat.le_max_right _ _)

theorem section_le_total {headers : Nat} {sections : List Section} : ∀ s ∈ sections, s.type ≠ SHT_NOBITS →
    wrap (s.out_offset + s.size) ≤ total_file_size headers sections := by
  induction sections with
  | nil => simp
  | cons t rest ih =>
    intro s member bits
    rw [total_file_size]
    rcases List.mem_cons.mp member with rfl | later
    · rw [if_neg bits]
      exact Nat.le_max_left _ _
    · split
      · exact ih s later bits
      · exact (ih s later bits).trans (Nat.le_max_right _ _)

end MicroOS.LinkerFile

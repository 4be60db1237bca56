import MicroOS.LinkerFile
import MicroOS.LinkerSegments

/-!
Linking and loading together. When the layout fits the address space, alignments are
powers of two and no relocation's offset wraps around, the loaded memory holds every
section at its place exactly when the initialised sections that were taken for bss
hold zeros only: the executable has no bytes for their group.
-/
namespace MicroOS.LinkerLoad
open Memory Alignment Linker LinkerLayout LinkerFile LinkerSegments

/-- The segment brings the bytes of the file from `start` to `mid` and zeros from there to `end_`. -/
structure Brings (base first start mid end_ : Nat) (p : Phdr) : Prop where
  fits : Fits p
  load : p.type = 1
  virt : p.virt_addr ≤ start
  file : p.virt_addr + p.file_size = mid
  mem : p.virt_addr + p.mem_size = end_
  offset : ∀ x, start ≤ x → p.offset + (x - p.virt_addr) = base + (x - first)

section Headers
variable {load top base first : Nat} {sections : List Section} {l : Layout}

theorem text_phdr_brings (divided : Divided load top sections l) (least : ∀ s ∈ sections, first ≤ s.out_vaddr)
    (attained : ∃ s ∈ sections, s.out_vaddr = first)
    (room : base + (top - first) < 2 ^ 32) (small : top < 2 ^ 32) (same_page : base % page_size = first % page_size)
    (used : l.text_start < l.text_end) : Brings base first l.text_start l.text_end l.text_end (text_phdr l base first) := by
  have start : first = l.text_start := by
    obtain ⟨s,s_member,s_start⟩ := divided.text_used used
    obtain ⟨t,t_member,t_first⟩ := attained
    have low := least s s_member
    have apart := divided.apart
    by_cases group : t.out_group ≤ 1
    · have inside := divided.text t t_member group
      omega
    · have inside := divided.data t t_member (by omega)
      omega
  have ordered : l.text_end ≤ top := divided.apart.trans (divided.data_le.trans divided.data_top)
  have offset_start : file_offset base first l.text_start = base := by
    rw [file_offset_eq (Nat.le_of_eq start) (by omega) (by omega)]
    omega
  have offset_end : file_offset base first l.text_end = base + (l.text_end - first) :=
    file_offset_eq (by omega) (by omega) (by omega)
  have page_file : page_base base + base % page_size = base := by
    rw [page_base,Nat.mul_comm]
    exact Nat.div_add_mod base page_size
  have page_virt : page_base l.text_start + first % page_size = l.text_start := by
    rw [page_base,Nat.mul_comm,← start]
    exact Nat.div_add_mod first page_size
  have length : wrap (base + (l.text_end - first) + (2 ^ 32 - page_base base)) = l.text_end - page_base l.text_start := by
    have moved : base + (l.text_end - first) + (2 ^ 32 - page_base base) = l.text_end - page_base l.text_start + 2 ^ 32 := by
      omega
    rw [moved,wrap,Nat.add_mod_right,Nat.mod_eq_of_lt (by omega)]
  have whole : text_phdr l base first = {
      type := 1
      offset := page_base base
      virt_addr := page_base l.text_start
      phys_addr := page_base l.text_start
      file_size := l.text_end - page_base l.text_start
      mem_size := l.text_end - page_base l.text_start
      flags := 5
      alignment := page_size } := by
    rw [text_phdr]
    simp only [offset_start,offset_end,length]
  rw [whole]
  have type : (1 : Nat) < 2 ^ 32 := by decide
  refine ⟨⟨type,?_,?_,?_,?_⟩,rfl,?_,?_,?_,?_⟩ <;> dsimp only <;> omega

theorem data_phdr_brings (divided : Divided load top sections l) (least : ∀ s ∈ sections, first ≤ s.out_vaddr)
    (room : base + (top - first) < 2 ^ 32) (small : top < 2 ^ 32) (used : l.data_start < l.data_end) :
    Brings base first l.data_start (l.initialized.getD l.data_start) l.data_end (data_phdr l base first) := by
  have ordered := divided.data_top
  have low : first ≤ l.data_start := by
    obtain ⟨s,s_member,s_start⟩ := divided.data_used used
    exact s_start ▸ least s s_member
  have offset_start : file_offset base first l.data_start = base + (l.data_start - first) :=
    file_offset_eq low (by omega) (by omega)
  have minus : ∀ x, l.data_start ≤ x → x ≤ l.data_end → wrap (x + (2 ^ 32 - l.data_start)) = x - l.data_start := by
    intro x above below
    have moved : x + (2 ^ 32 - l.data_start) = x - l.data_start + 2 ^ 32 := by omega
    rw [moved,wrap,Nat.add_mod_right,Nat.mod_eq_of_lt (by omega)]
  have mid := divided_initialized divided
  have length : (data_phdr l base first).file_size = l.initialized.getD l.data_start - l.data_start := by
    rw [data_phdr]
    cases initialized : l.initialized with
    | none => simp
    | some end_ =>
      have bounds := divided.initialized end_ initialized
      exact minus end_ bounds.1 bounds.2.1
  have offset : (data_phdr l base first).offset = base + (l.data_start - first) := offset_start
  have mem : (data_phdr l base first).mem_size = l.data_end - l.data_start := minus _ (Nat.le_of_lt used) le_rfl
  have virt : (data_phdr l base first).virt_addr = l.data_start := rfl
  have type : (1 : Nat) < 2 ^ 32 := by decide
  refine ⟨⟨type,?_,?_,?_,?_⟩,rfl,?_,?_,?_,?_⟩ <;> simp only [offset,mem,virt,length] <;> omega

theorem phdrs_text (used : l.text_start < l.text_end) :
    phdrs load l base first = text_phdr l base first :: if l.data_start < l.data_end then [data_phdr l base first] else [] := by
  rw [phdrs,if_pos used,if_neg (by simp)]
  rfl

theorem phdrs_data (used : l.data_start < l.data_end) :
    phdrs load l base first = (if l.text_start < l.text_end then [text_phdr l base first] else []) ++ [data_phdr l base first] := by
  rw [phdrs,if_pos used,if_neg (by simp)]

theorem phdrs_length : (phdrs load l base first).length = l.num_phdrs := by
  rw [phdrs,Layout.num_phdrs]
  split <;> split <;> rfl

end Headers

section Memory
variable {base first start mid end_ : Nat} {p : Phdr} {image : Bytes}

theorem brings_file (brings : Brings base first start mid end_ p) (m : Bytes) {x : Nat} (low : start ≤ x) (high : x < mid) :
    load_phdr image m p x = image (base + (x - first)) := by
  have virt := brings.virt
  have file := brings.file
  rw [load_phdr_file brings.load (by omega) (by omega),brings.offset x low]

theorem brings_zero (brings : Brings base first start mid end_ p) (m : Bytes) {x : Nat} (low : mid ≤ x) (high : x < end_) :
    load_phdr image m p x = 0 := by
  have file := brings.file
  have mem := brings.mem
  exact load_phdr_zero brings.load (by omega) (by omega)

end Memory

section Loading
variable {load top base first : Nat} {sections : List Section} {l : Layout} {image : Bytes}

/-- Every byte of a section, once the segments are loaded. -/
theorem loaded_byte (arranged : Arranged load top sections) (divided : Divided load top sections l)
    (least : ∀ s ∈ sections, first ≤ s.out_vaddr) (attained : ∃ s ∈ sections, s.out_vaddr = first)
    (room : base + (top - first) < 2 ^ 32) (small : top < 2 ^ 32) (same_page : base % page_size = first % page_size)
    (m : Bytes) : ∀ s ∈ sections, ∀ x, s.out_vaddr ≤ x → x < s.out_vaddr + s.size →
      (phdrs load l base first).foldl (load_phdr image) m x = if s.out_group = 3 then 0 else image (base + (x - first)) := by
  intro s member x low high
  have highest := (arranged.sane s member).group
  have text : l.text_start < l.text_end → _ :=
    text_phdr_brings divided least attained room small same_page
  have data : l.data_start < l.data_end → _ := data_phdr_brings divided least room small
  have mid := divided_initialized divided
  have text_le := divided.text_le
  have apart := divided.apart
  have data_le := divided.data_le
  by_cases group : s.out_group ≤ 1
  · have inside := divided.text s member group
    have used : l.text_start < l.text_end := by omega
    rw [if_neg (by omega),phdrs_text used,List.foldl_cons]
    have here := @brings_file _ _ _ _ _ _ image (text used) m x (by omega) (by omega : x < l.text_end)
    split
    · rename_i data_used
      have zeros := (data data_used).mem
      have bytes := (data data_used).file
      have virt : (data_phdr l base first).virt_addr = l.data_start := rfl
      have kept : load_phdr image (load_phdr image m (text_phdr l base first)) (data_phdr l base first) x = _ :=
        load_phdr_outside (by omega) (.inl (by omega))
      rw [List.foldl_cons,List.foldl_nil,kept,here]
    · rw [List.foldl_nil,here]
  · have inside := divided.data s member (by omega)
    have used : l.data_start < l.data_end := by omega
    rw [phdrs_data used,List.foldl_append,List.foldl_cons,List.foldl_nil]
    by_cases bss : s.out_group = 3
    · have after := mid.2.2.2 s member bss
      rw [if_pos bss,brings_zero (data used) _ (by omega) (by omega)]
    · have before := mid.2.2.1 s member (by omega)
      rw [if_neg bss,brings_file (data used) _ (by omega) (by omega)]

/-- Loading either segment leaves the other's bytes alone. -/
def SegmentsApart (p q : Phdr) : Prop :=
  p.virt_addr + max p.file_size p.mem_size ≤ q.virt_addr ∨ q.virt_addr + max q.file_size q.mem_size ≤ p.virt_addr

section
variable (divided : Divided load top sections l) (least : ∀ s ∈ sections, first ≤ s.out_vaddr)
  (attained : sections ≠ [] → ∃ s ∈ sections, s.out_vaddr = first)
  (room : base + (top - first) < 2 ^ 32) (small : top < 2 ^ 32) (same_page : base % page_size = first % page_size)
include divided least attained room small same_page

theorem phdrs_fits : ∀ p ∈ phdrs load l base first, Fits p := by
  have text : l.text_start < l.text_end → Fits (text_phdr l base first) := by
    intro used
    obtain ⟨s,member,-⟩ := divided.text_used used
    exact (text_phdr_brings divided least (attained (List.ne_nil_of_mem member)) room small same_page used).fits
  have data : l.data_start < l.data_end → Fits (data_phdr l base first) :=
    fun used => (data_phdr_brings divided least room small used).fits
  have low : load < 2 ^ 32 := by
    have := divided.load_le
    have := divided.text_le
    have := divided.apart
    have := divided.data_le
    have := divided.data_top
    omega
  by_cases text_used : l.text_start < l.text_end
  · rw [phdrs_text text_used,List.forall_mem_cons]
    refine ⟨text text_used,fun p member => ?_⟩
    split at member
    · exact List.mem_singleton.mp member ▸ data ‹_›
    · exact absurd member List.not_mem_nil
  · by_cases data_used : l.data_start < l.data_end
    · rw [phdrs_data data_used,if_neg text_used,List.nil_append,List.forall_mem_singleton]
      exact data data_used
    · rw [phdrs,if_neg text_used,if_neg data_used,List.append_nil,if_pos rfl,List.forall_mem_singleton]
      have zero : (0 : Nat) < 2 ^ 32 := by decide
      exact ⟨(by decide : (1 : Nat) < 2 ^ 32),zero,low,zero,zero⟩

theorem phdrs_apart : (phdrs load l base first).Pairwise SegmentsApart := by
  have single : ∀ p : Phdr, [p].Pairwise SegmentsApart := fun p => List.pairwise_singleton ..
  by_cases text_used : l.text_start < l.text_end
  · by_cases data_used : l.data_start < l.data_end
    · rw [phdrs_text text_used,if_pos data_used,List.pairwise_cons]
      refine ⟨fun q member => .inl ?_,single _⟩
      obtain rfl := List.mem_singleton.mp member
      obtain ⟨s,s_member,-⟩ := divided.text_used text_used
      have text := text_phdr_brings divided least (attained (List.ne_nil_of_mem s_member)) room small same_page text_used
      have file := text.file
      have mem := text.mem
      have virt : (data_phdr l base first).virt_addr = l.data_start := rfl
      have apart := divided.apart
      omega
    · rw [phdrs_text text_used,if_neg data_used]
      exact single _
  · by_cases data_used : l.data_start < l.data_end
    · rw [phdrs_data data_used,if_neg text_used]
      exact single _
    · rw [phdrs,if_neg text_used,if_neg data_used]
      exact single _

end
end Loading

def layoutOf (t : State) : Layout := layout_of t.load_addr t.sections
def firstOf (t : State) : Nat := first_section_vaddr t.load_addr t.sections
def baseOf (t : State) : Nat := first_section_file_offset (headers_size (layoutOf t)) (firstOf t)
def fileSections (t : State) : List Section := t.sections.map (with_offset (baseOf t) (firstOf t))

theorem segments_eq (t : State) : (linker_write_elf t).segments = phdrs t.load_addr (layoutOf t) (baseOf t) (firstOf t) := rfl

theorem size_eq (t : State) : (linker_write_elf t).size = total_file_size (headers_size (layoutOf t)) (fileSections t) := rfl

theorem bytes_eq (t : State) : (linker_write_elf t).bytes = copy_sections (linker_write_elf t).size (fileSections t)
    (storeBytes (fun _ => 0) 0 (header_bytes (entry_addr t) (linker_write_elf t).segments)) := rfl

/-- The arranged sections have room below the end of the address space, and the file has
    room for them. -/
structure Roomy (t : State) (top : Nat) : Prop where
  arranged : Arranged t.load_addr top t.sections
  above : t.load_addr ≤ top
  small : top < 2 ^ 32
  file : top + 0x2000 ≤ 2 ^ 32 + t.load_addr

section File
variable {t : State} {top : Nat}

theorem roomy_first (roomy : Roomy t top) : (∀ s ∈ t.sections, firstOf t ≤ s.out_vaddr) ∧
    (t.sections ≠ [] → ∃ s ∈ t.sections, s.out_vaddr = firstOf t) ∧ baseOf t + (top - firstOf t) < 2 ^ 32 ∧
    headers_size (layoutOf t) ≤ baseOf t ∧ baseOf t % page_size = firstOf t % page_size := by
  have base := @file_base_spec _ (firstOf t) (headers_size_le (layoutOf t))
  have file := roomy.file
  by_cases none_ : t.sections = []
  · have first : firstOf t = t.load_addr := by rw [firstOf,none_,first_section_vaddr]
    have room : baseOf t + (top - firstOf t) < 2 ^ 32 := by
      rw [baseOf]
      omega
    exact ⟨by simp [none_],fun some_ => absurd none_ some_,room,base.1,base.2.2⟩
  · obtain ⟨⟨s,member,start⟩,least⟩ := @first_section_spec t.load_addr _ none_
    have low : t.load_addr ≤ firstOf t := (roomy.arranged.bounds s member).1.trans_eq start
    have room : baseOf t + (top - firstOf t) < 2 ^ 32 := by
      rw [baseOf]
      omega
    exact ⟨least,fun _ => ⟨s,member,start⟩,room,base.1,base.2.2⟩

theorem file_section (roomy : Roomy t top) : ∀ s ∈ t.sections,
    (with_offset (baseOf t) (firstOf t) s).out_offset = baseOf t + (s.out_vaddr - firstOf t) ∧
      baseOf t + (s.out_vaddr - firstOf t) + s.size < 2 ^ 32 := by
  intro s member
  obtain ⟨least,-,room,-⟩ := roomy_first roomy
  have low := least s member
  have bounds := roomy.arranged.bounds s member
  have small := roomy.small
  exact ⟨file_offset_eq low (by omega) (by omega),by omega⟩

theorem file_headers (roomy : Roomy t top) : 52 + 32 * (linker_write_elf t).segments.length ≤ (linker_write_elf t).size ∧
    slice (linker_write_elf t).bytes 0 (52 + 32 * (linker_write_elf t).segments.length) =
      header_bytes (entry_addr t) (linker_write_elf t).segments := by
  have length : 52 + 32 * (linker_write_elf t).segments.length = headers_size (layoutOf t) := by
    rw [segments_eq,phdrs_length,headers_size,sizeof_ehdr,sizeof_phdr,Nat.mul_comm]
  constructor
  · rw [length,size_eq]
    exact le_total_file_size _ _
  · have apart : ∀ s ∈ fileSections t, ∀ d, s.data = some d →
        0 + (header_bytes (entry_addr t) (linker_write_elf t).segments).length ≤ s.out_offset ∨ s.out_offset + d.length ≤ 0 := by
      intro s member d _
      obtain ⟨u,u_member,rfl⟩ := List.mem_map.mp member
      obtain ⟨-,-,-,base,-⟩ := roomy_first roomy
      rw [(file_section roomy u u_member).1,header_bytes_length,length]
      omega
    rw [bytes_eq,← header_bytes_length (entry_addr t),slice_agree (copy_sections_agree apart),slice_storeBytes]

theorem file_data (roomy : Roomy t top) : ∀ s ∈ t.sections, ∀ d, s.data = some d →
    baseOf t + (s.out_vaddr - firstOf t) + d.length ≤ (linker_write_elf t).size ∧
      slice (linker_write_elf t).bytes (baseOf t + (s.out_vaddr - firstOf t)) d.length = d := by
  have sane := roomy.arranged.sane
  obtain ⟨least,-⟩ := roomy_first roomy
  have apart : (fileSections t).Pairwise FileApart := by
    rw [fileSections,List.pairwise_map]
    refine (arranged_apart roomy.arranged).imp_of_mem ?_
    intro s u s_member u_member apart d e s_data u_data
    have s_length := ((sane s s_member).exact d s_data).1
    have u_length := ((sane u u_member).exact e u_data).1
    have s_low := least s s_member
    have u_low := least u u_member
    rw [(file_section roomy s s_member).1,(file_section roomy u u_member).1]
    rcases apart with before | before <;> rw [Before] at before
    · exact .inl (by omega)
    · exact .inr (by omega)
  have inside : ∀ s ∈ fileSections t, ∀ d, s.data = some d →
      s.type ≠ SHT_NOBITS ∧ wrap (s.out_offset + s.size) ≤ (linker_write_elf t).size := by
    intro s member d some_
    obtain ⟨u,u_member,rfl⟩ := List.mem_map.mp member
    have bits := ((sane u u_member).exact d some_).2
    exact ⟨bits,section_le_total _ member bits⟩
  intro s member d some_
  obtain ⟨offset,fits⟩ := file_section roomy s member
  have in_file : with_offset (baseOf t) (firstOf t) s ∈ fileSections t := List.mem_map_of_mem member
  have data := @copy_sections_slice _ _ (storeBytes (fun _ => 0) 0 (header_bytes (entry_addr t) (linker_write_elf t).segments))
    apart inside _ in_file d some_
  rw [← bytes_eq,offset] at data
  have size : wrap (baseOf t + (s.out_vaddr - firstOf t) + s.size) ≤ _ := offset ▸ (inside _ in_file d some_).2
  rw [wrap_of_lt fits,← ((sane s member).exact d some_).1] at size
  exact ⟨size,data⟩

end File

variable {a n : Nat} {sections' : List Section} {relocs : List Reloc}

theorem slice_ext {m m' : Bytes} {b : Nat} (same : ∀ i < n, m (a + i) = m' (b + i)) : slice m a n = slice m' b n :=
  List.map_congr_left fun i member => same i (List.mem_range.mp member)

theorem slice_zero {m : Bytes} : slice m a n = List.replicate n 0 ↔ ∀ i < n, m (a + i) = 0 := by
  rw [List.eq_replicate_iff,slice_length,slice,List.forall_mem_map]
  simp

/-- The bytes of the section, or zeros where it has none, are at its address. -/
def Present (m : Bytes) (s : Section) : Prop := slice m s.out_vaddr s.size = s.data.getD (List.replicate s.size 0)

/-- The executable of a linked state, once loaded from a file that holds its bytes, is the
    program that was linked. -/
structure Loads (t : State) : Prop where
  aligned : ∀ s ∈ t.sections, s.out_vaddr % s.addralign = 0
  apart : t.sections.Pairwise Apart
  segments : (linker_write_elf t).segments.Pairwise SegmentsApart
  present : ∀ image m, Agree (linker_write_elf t).bytes image 0 (linker_write_elf t).size →
    ∃ m', init_elf image m = some m' ∧ ∀ s ∈ t.sections, Present m' s

variable {top : Nat} {r : Reloc} {symbols : List Symbol} {sections : List Section}

/-- The loaded memory, section by section: bytes of the bss group are zeros whatever its
    sections hold. -/
theorem loaded_section {t : State} (roomy : Roomy t top) {image : Bytes} (m : Bytes)
    (same : Agree (linker_write_elf t).bytes image 0 (linker_write_elf t).size) :
    ∃ m', init_elf image m = some m' ∧ ∀ s ∈ t.sections,
      (s.out_group ≠ 3 → Present m' s) ∧ (s.out_group = 3 → slice m' s.out_vaddr s.size = List.replicate s.size 0) := by
  obtain ⟨least,attained,room,-,same_page⟩ := roomy_first roomy
  have arranged := roomy.arranged
  have divided : Divided _ _ _ (layoutOf t) := layout_of_divided arranged roomy.above roomy.small
  have fits := phdrs_fits divided least attained room roomy.small same_page
  obtain ⟨inside,headers⟩ := file_headers roomy
  have image_headers := (slice_agree (agree_mono same le_rfl (by omega))).trans headers
  have few : (linker_write_elf t).segments.length < 2 ^ 16 := by
    have := headers_size_le (layoutOf t)
    rw [segments_eq,phdrs_length]
    rw [headers_size,sizeof_ehdr,sizeof_phdr] at this
    omega
  refine ⟨_,init_elf_eq image_headers fits few m,fun s member => ?_⟩
  have byte := @loaded_byte _ _ _ _ _ _ image arranged divided least (attained (List.ne_nil_of_mem member)) room roomy.small
    same_page m s member
  rw [segments_eq]
  constructor
  · intro group
    rw [Present]
    cases data : s.data with
    | none =>
      have empty : s.size = 0 := ((arranged.sane s member).empty data).resolve_left
        (fun bits => group ((arranged.sane s member).bss bits).1)
      rw [empty]
      rfl
    | some d =>
      obtain ⟨length,-⟩ := (arranged.sane s member).exact d data
      obtain ⟨end_,bytes⟩ := file_data roomy s member d data
      rw [Option.getD_some,← bytes,length]
      refine slice_ext fun i low => ?_
      have first := least s member
      rw [byte (s.out_vaddr + i) (Nat.le_add_right _ _) (by omega),if_neg group,same _ (Nat.zero_le _) (by omega)]
      congr 1
      omega
  · intro group
    rw [slice_zero]
    intro i low
    rw [byte (s.out_vaddr + i) (Nat.le_add_right _ _) (by omega),if_pos group]

theorem loads_iff {t : State} (roomy : Roomy t top) :
    Loads t ↔ ∀ s ∈ t.sections, s.out_group = 3 → ∀ d, s.data = some d → ∀ b ∈ d, b = 0 := by
  have arranged := roomy.arranged
  obtain ⟨least,attained,room,-,same_page⟩ := roomy_first roomy
  have divided : Divided _ _ _ (layoutOf t) := layout_of_divided arranged roomy.above roomy.small
  constructor
  · intro loads s member group d data
    obtain ⟨m',loaded,present⟩ := loads.present _ (fun _ => 0) (agree_refl _ _ _)
    obtain ⟨m'',loaded',sections⟩ := loaded_section roomy (fun _ => 0) (agree_refl (linker_write_elf t).bytes 0 (linker_write_elf t).size)
    obtain rfl := Option.some.inj (loaded.symm.trans loaded')
    have zeros := (sections s member).2 group
    have bytes := present s member
    rw [Present,data,Option.getD_some,zeros] at bytes
    exact fun b b_member => List.eq_of_mem_replicate (bytes ▸ b_member)
  · intro zeros
    refine ⟨fun s member => (arranged.bounds s member).2.2,arranged_apart arranged,
      phdrs_apart divided least attained room roomy.small same_page,fun image m same => ?_⟩
    obtain ⟨m',loaded,sections⟩ := loaded_section roomy m same
    refine ⟨m',loaded,fun s member => ?_⟩
    by_cases group : s.out_group = 3
    · rw [Present,(sections s member).2 group]
      cases data : s.data with
      | none => rfl
      | some d =>
        have length := ((arranged.sane s member).exact d data).1
        exact (List.eq_replicate_iff.mpr ⟨length,zeros s member group d data⟩).symm
    · exact (sections s member).1 group

/-- What relocation leaves alone of a section. -/
def outline (s : Section) : Nat × Nat × Nat × Nat × Nat × Option Nat :=
  (s.out_group,s.addralign,s.size,s.type,s.out_vaddr,s.data.map List.length)

theorem arranged_outline {load : Nat} {old new : List Section} (same : new.map outline = old.map outline)
    (arranged : Arranged load top old) : Arranged load top new := by
  have origin : ∀ s ∈ new, ∃ o ∈ old, o.out_group = s.out_group ∧ o.addralign = s.addralign ∧ o.size = s.size ∧
      o.type = s.type ∧ o.out_vaddr = s.out_vaddr ∧ o.data.map List.length = s.data.map List.length := by
    intro s member
    have outlined : outline s ∈ old.map outline := same ▸ List.mem_map_of_mem member
    obtain ⟨o,o_member,o_same⟩ := List.mem_map.mp outlined
    simp only [outline,Prod.mk.injEq] at o_same
    exact ⟨o,o_member,o_same⟩
  constructor
  · intro s member
    obtain ⟨o,o_member,group,-,size,type,-,data⟩ := origin s member
    obtain ⟨small,bss,exact_,empty⟩ := arranged.sane o o_member
    refine ⟨by omega,fun bits => ?_,fun d some_ => ?_,fun none_ => ?_⟩
    · obtain ⟨three,none_⟩ := bss (type.trans bits)
      rw [none_] at data
      exact ⟨group.symm.trans three,Option.map_eq_none_iff.mp data.symm⟩
    · rw [some_] at data
      obtain ⟨e,e_some,e_length⟩ := Option.map_eq_some_iff.mp data
      have facts := exact_ e e_some
      exact ⟨e_length.symm.trans (facts.1.trans size),fun bits => facts.2 (type.trans bits)⟩
    · rw [none_] at data
      have facts := empty (Option.map_eq_none_iff.mp data)
      rwa [type,size] at facts
  · intro s member
    obtain ⟨o,o_member,-,align,size,-,vaddr,-⟩ := origin s member
    have bounds := arranged.bounds o o_member
    rwa [align,size,vaddr] at bounds
  · intro s s_member t t_member less
    obtain ⟨o,o_member,o_group,-,o_size,-,o_vaddr,-⟩ := origin s s_member
    obtain ⟨u,u_member,u_group,-,-,-,u_vaddr,-⟩ := origin t t_member
    have before := arranged.groups o o_member u u_member (by omega)
    rwa [Before,o_size,o_vaddr,u_vaddr] at before
  · have order : (old.map outline).Pairwise (fun a b => a.1 = b.1 → a.2.2.2.2.1 + a.2.2.1 ≤ b.2.2.2.2.1) :=
      List.pairwise_map.mpr arranged.order
    rw [← same,List.pairwise_map] at order
    exact order

theorem relocate_section_outline {sym : Symbol} {sec sec' : Section}
    (done : relocate_section sym r sec = .ok sec') : outline sec' = outline sec := by
  rw [relocate_section] at done
  split at done
  · cases done
  · split at done
    · cases done
    · rename_i data some_
      split at done
      · cases done
      · split at done
        · cases done
        · dsimp only at done
          split at done
          · cases done
            simp [outline,some_,patch]
          · cases done

theorem relocate_outline (done : relocate symbols sections r = .ok sections') : sections'.map outline = sections.map outline := by
  rw [relocate] at done
  split at done
  · rename_i sec sym here _
    split at done
    · rename_i sec' placed
      cases done
      obtain ⟨inside,rfl⟩ := List.getElem?_eq_some_iff.mp here
      rw [List.map_set,relocate_section_outline placed,← List.getElem_map outline,List.set_getElem_self]
      rwa [List.length_map]
    · cases done
    · cases done
  · cases done

theorem relocate_all_outline (done : relocate_all symbols relocs sections = .ok sections') : sections'.map outline = sections.map outline := by
  induction relocs generalizing sections with
  | nil =>
    cases done
    rfl
  | cons r relocs ih =>
    rw [relocate_all] at done
    split at done
    · exact (ih done).trans (relocate_outline ‹_›)
    · cases done
    · cases done

/-- Without wrap-around no write leaves its section. -/
theorem relocate_inside (offset : r.offset + 4 < 2 ^ 32) : relocate symbols sections r ≠ .outside := by
  have section_inside : ∀ sym sec, relocate_section sym r sec ≠ .outside := by
    intro sym sec outside
    rw [relocate_section,wrap_of_lt offset] at outside
    split at outside
    · cases outside
    · split at outside
      · cases outside
      · split at outside
        · cases outside
        · rename_i within
          rw [if_neg fun far => within far.1] at outside
          dsimp only at outside
          split at outside <;> cases outside
  intro outside
  rw [relocate] at outside
  split at outside
  · split at outside
    · cases outside
    · cases outside
    · exact section_inside _ _ ‹_›
  · cases outside

theorem relocate_all_inside (offsets : ∀ r ∈ relocs, r.offset + 4 < 2 ^ 32) : relocate_all symbols relocs sections ≠ .outside := by
  induction relocs generalizing sections with
  | nil => exact fun outside => by cases outside
  | cons r relocs ih =>
    obtain ⟨here,later⟩ := List.forall_mem_cons.mp offsets
    rw [relocate_all]
    split
    · exact ih later
    · exact fun outside => by cases outside
    · rename_i left
      exact absurd left (relocate_inside here)

theorem sane_shape {s t : Section} (same : shape s = shape t) (sane : Sane t) : Sane s := by
  simp only [shape,Prod.mk.injEq] at same
  obtain ⟨group,-,size,type,data⟩ := same
  obtain ⟨small,bss,exact_,empty⟩ := sane
  rw [← group] at small bss
  rw [← type,← data] at bss
  rw [← data,← size,← type] at exact_ empty
  exact ⟨small,bss,exact_,empty⟩

/-- The layout arranges sane sections as long as their places do not wrap around. -/
theorem linker_layout_arranged {s : State} (sane : ∀ sec ∈ s.sections, Sane sec)
    (powers : ∀ sec ∈ s.sections, PowerOfTwo sec.addralign) (small : extents [0,1,2,3] s.load_addr s.sections < 2 ^ 32) :
    Arranged s.load_addr (extents [0,1,2,3] s.load_addr s.sections) (linker_layout s).sections := by
  have start : Upto s.load_addr 0 s.load_addr s.sections :=
    ⟨fun _ _ below => absurd below (Nat.not_lt_zero _),fun _ _ _ _ _ below => absurd below (Nat.not_lt_zero _),
      List.pairwise_of_forall fun _ _ _ below => absurd below (Nat.not_lt_zero _)⟩
  obtain ⟨shapes,upto⟩ := @place_groups_upto _ _ 4 _ _ powers start le_rfl small
  have placed : ∀ sec ∈ (linker_layout s).sections, Sane sec := by
    intro sec member
    have shaped : shape sec ∈ s.sections.map shape := shapes ▸ List.mem_map_of_mem member
    obtain ⟨old,old_member,same⟩ := List.mem_map.mp shaped
    exact sane_shape same.symm (sane old old_member)
  have group : ∀ sec ∈ (linker_layout s).sections, sec.out_group < 0 + 4 :=
    fun sec member => Nat.lt_succ_of_le (placed sec member).group
  refine ⟨placed,fun sec member => upto.bounds sec member (group sec member),?_,?_⟩
  · exact fun sec member other other_member less => upto.groups sec member other other_member less (group other other_member)
  · refine upto.order.imp_of_mem ?_
    exact fun sec_member _ order same => order same (group _ sec_member)

/-- Linking writes nothing outside of its sections, and when it succeeds the executable
    loads as the program that was linked. -/
def Links (s : State) : Prop :=
  match linker_relocate (linker_layout s) with
  | .ok t => Loads t
  | .failed => True
  | .outside => False

/-- Linked and loaded sections are where they belong if and only if those taken for bss
    hold zeros only. -/
theorem links_iff {headers : List Header} {s : State} (parsed : parse_sections headers = some s.sections)
    (powers : ∀ sec ∈ s.sections, PowerOfTwo sec.addralign) (small : extents [0,1,2,3] s.load_addr s.sections < 2 ^ 32)
    (file : extents [0,1,2,3] s.load_addr s.sections + 0x2000 ≤ 2 ^ 32 + s.load_addr)
    (offsets : ∀ r ∈ s.relocs, r.offset + 4 < 2 ^ 32) :
    Links s ↔ ∀ t, linker_relocate (linker_layout s) = .ok t →
      ∀ sec ∈ t.sections, sec.out_group = 3 → ∀ d, sec.data = some d → ∀ b ∈ d, b = 0 := by
  have arranged := linker_layout_arranged (parse_sections_sane parsed) powers small
  rw [Links,linker_relocate]
  cases relocated : relocate_all (linker_layout s).symbols (linker_layout s).relocs (linker_layout s).sections with
  | failed => simp
  | outside => exact absurd relocated (relocate_all_inside offsets)
  | ok sections =>
    have moved := arranged_outline (relocate_all_outline relocated) arranged
    have roomy : Roomy { linker_layout s with sections := sections } (extents [0,1,2,3] s.load_addr s.sections) :=
      ⟨moved,le_extents powers,small,file⟩
    dsimp only
    rw [loads_iff roomy]
    constructor
    · intro zeros t same
      obtain rfl := Outcome.ok.inj same
      exact zeros
    · exact fun zeros => zeros _ rfl

def data_header : Header := { name := dot_data, type := 1, flags := 3, size := 2, addralign := 4, contents := fun _ => 0x41 }
def bss_header : Header := { name := dot_bss, type := 8, flags := 3, size := 3, addralign := 16, contents := fun _ => 0 }

def data_linked : State := {
  sections := ((parse_sections [bss_header,data_header]).getD [])
  symbols := []
  relocs := []
  load_addr := 0xB0000000
  entry_name := [] }

theorem links_iff_data : Links data_linked := by
  have first : PowerOfTwo 16 := ⟨4,by decide,rfl⟩
  have second : PowerOfTwo 4 := ⟨2,by decide,rfl⟩
  refine (@links_iff [bss_header,data_header] _ rfl ?_ (by decide +kernel) (by decide +kernel) (by simp [data_linked])).mpr ?_
  · have aligns : ∀ align ∈ data_linked.sections.map Section.addralign, PowerOfTwo align := by
      have both : data_linked.sections.map Section.addralign = [16,4] := by decide
      simp [both,first,second]
    exact List.forall_mem_map.mp aligns
  · intro t same sec member group d some_
    have unchanged : linker_relocate (linker_layout data_linked) = .ok (linker_layout data_linked) := rfl
    obtain rfl := Outcome.ok.inj (unchanged.symm.trans same)
    have empty : ∀ sec ∈ (linker_layout data_linked).sections, sec.out_group = 3 → sec.data = none := by decide
    exact absurd (some_.symm.trans (empty sec member group)) (by simp)

def lost_header : Header := { name := dot_bss, type := 1, flags := 2, size := 1, addralign := 1, contents := fun _ => 0x41 }

def lost : State := {
  sections := ((parse_sections [lost_header]).getD [])
  symbols := []
  relocs := []
  load_addr := 0xB0000000
  entry_name := [] }

/-- A bss section with bytes: the loaded memory has a zero instead. -/
theorem bss_bytes_lost : parse_sections [lost_header] = some lost.sections ∧ ¬ Links lost := by
  refine ⟨rfl,fun links => ?_⟩
  obtain ⟨m',loaded,present⟩ := Loads.present links _ (fun _ => 0) (agree_refl _ _ _)
  have zero : (init_elf (linker_write_elf (linker_layout lost)).bytes (fun _ => 0)).map (fun m => slice m 0xB0000000 1) = some [0] := by
    decide +kernel
  have loaded' : init_elf (linker_write_elf (linker_layout lost)).bytes (fun _ => 0) = some m' := loaded
  rw [loaded',Option.map_some] at zero
  have bytes := present _ (List.mem_singleton.mpr rfl)
  exact absurd ((Option.some.inj zero).symm.trans bytes) (by decide)

end MicroOS.LinkerLoad

import MicroOS.Memory

/-!
The static linker from the sections of its input objects to the executable it writes,
and the loader of the kernel that reads the executable back. Section headers come
decoded, with the bytes that they point to; addresses and sizes are 32-bit words.
-/
namespace MicroOS.Linker
open Memory

abbrev Word := BitVec 32

def SHT_PROGBITS : Nat := 1
def SHT_NOBITS : Nat := 8
def SHF_WRITE : Nat := 1
def SHF_ALLOC : Nat := 2
def SHF_EXEC : Nat := 4
def MAX_SECTIONS : Nat := 1024

/-- A section header of an input object, its name, and the bytes at its offset. -/
structure Header where
  name : List UInt8
  type : Word
  flags : Word
  size : Word
  addralign : Word
  contents : Nat → UInt8

structure Section where
  name : List UInt8
  type : Nat
  flags : Nat
  size : Nat
  addralign : Nat
  data : Option (List UInt8)
  out_offset : Nat
  out_vaddr : Nat
  out_group : Nat

def dot_rodata : List UInt8 := [46,114,111,100,97,116,97]
def dot_text : List UInt8 := [46,116,101,120,116]
def dot_data : List UInt8 := [46,100,97,116,97]
def dot_bss : List UInt8 := [46,98,115,115]

/-- The name itself, or the name and a dot before more. -/
def named (name base : List UInt8) : Bool := name == base || (base ++ [46]).isPrefixOf name

/-- Text is group 0, read-only data 1, data 2 and bss 3. -/
def classify_section (name : List UInt8) (flags type : Nat) : Option Nat :=
  if type = SHT_NOBITS then some 3
  else if flags &&& SHF_EXEC ≠ 0 then some 0
  else if named name dot_rodata then some 1
  else if flags &&& SHF_WRITE ≠ 0 then some 2
  else if named name dot_text then some 0
  else if named name dot_data then some 2
  else if named name dot_bss then some 3
  else if flags &&& SHF_ALLOC ≠ 0 then some 1
  else none

/-- The input section that `parse_elf_object` makes of a header, if any. -/
def input_section (h : Header) : Option Section :=
  if h.flags.toNat &&& SHF_ALLOC = 0 then none
  else if h.type.toNat ≠ SHT_PROGBITS ∧ h.type.toNat ≠ SHT_NOBITS then none
  else (classify_section h.name h.flags.toNat h.type.toNat).map fun group => {
    name := h.name.take 63
    type := h.type.toNat
    flags := h.flags.toNat
    size := h.size.toNat
    addralign := if h.addralign = 0 then 1 else h.addralign.toNat
    data := if h.type.toNat = SHT_PROGBITS ∧ 0 < h.size.toNat then some ((List.range h.size.toNat).map h.contents) else none
    out_offset := 0
    out_vaddr := 0
    out_group := group }

/-- All sections, unless they are too many. -/
def parse_sections (headers : List Header) : Option (List Section) :=
  if (headers.filterMap input_section).length ≤ MAX_SECTIONS then some (headers.filterMap input_section) else none

structure Symbol where
  name : List UInt8
  value : Nat
  defined : Bool
  sec_idx : Option Nat

structure Reloc where
  isec_idx : Nat
  offset : Nat
  type : Nat
  sym_idx : Nat
  addend : Word
  has_addend : Bool

structure State where
  sections : List Section
  symbols : List Symbol
  relocs : List Reloc
  load_addr : Nat
  entry_name : List UInt8

def align_up (val align : Nat) : Nat :=
  if align ≤ 1 then val else wrap (val + (align - 1)) &&& (2 ^ 32 - align)

/-- Places the sections of one group from an address on. -/
def place (group : Nat) : Nat → List Section → Nat × List Section
  | current_addr, [] => (current_addr,[])
  | current_addr, sec :: rest =>
    if sec.out_group ≠ group then
      let placed := place group current_addr rest
      (placed.1,sec :: placed.2)
    else
      let here := align_up current_addr sec.addralign
      let placed := place group (wrap (here + sec.size)) rest
      (placed.1,{ sec with out_vaddr := here, out_offset := 0 } :: placed.2)

def place_groups : List Nat → Nat → List Section → List Section
  | [], _, sections => sections
  | group :: groups, current_addr, sections =>
    place_groups groups (align_up (place group current_addr sections).1 16) (place group current_addr sections).2

def place_symbol (sections : List Section) (sym : Symbol) : Symbol :=
  if sym.defined then
    match sym.sec_idx.bind (fun i => sections[i]?) with
    | some sec => { sym with value := wrap (sym.value + sec.out_vaddr) }
    | none => sym
  else sym

def linker_layout (s : State) : State :=
  let sections := place_groups [0,1,2,3] s.load_addr s.sections
  { s with sections := sections, symbols := s.symbols.map (place_symbol sections) }

inductive Outcome (α : Type) where
  | ok (result : α)
  /-- The linker reports an error. -/
  | failed
  /-- A relocation left its section. -/
  | outside

def R_386_NONE : Nat := 0
def R_386_32 : Nat := 1
def R_386_PC32 : Nat := 2
def R_386_PLT32 : Nat := 4

/-- The word at an offset of a section's data. -/
def word_at (data : List UInt8) (offset : Nat) : Nat := load32 (fun i => data.getD i 0) offset

def patch (data : List UInt8) (offset v : Nat) : List UInt8 :=
  (List.range data.length).map (store32 (fun i => data.getD i 0) offset v)

/-- The value of a patched word, for the types that are known. -/
def relocated (type value addend place : Nat) (old : Nat) : Option Nat :=
  if type = R_386_32 then some (wrap (value + addend))
  else if type = R_386_PC32 ∨ type = R_386_PLT32 then some (wrap (value + addend + (2 ^ 32 - place)))
  else if type = R_386_NONE then some old
  else none

/-- The types of relocations that write a word. -/
def patches (type : Nat) : Bool := type = R_386_32 || type = R_386_PC32 || type = R_386_PLT32

/-- The check of the offset wraps around. The word is read when it holds the addend. -/
def relocate_section (sym : Symbol) (r : Reloc) (sec : Section) : Outcome Section :=
  if !sym.defined then .failed
  else
    match sec.data with
    | none => .failed
    | some data =>
      if wrap (r.offset + 4) > sec.size then .failed
      else if r.offset + 4 > sec.size ∧ (r.has_addend = false ∨ patches r.type = true) then .outside
      else
        let old := word_at data r.offset
        let addend := if r.has_addend then r.addend.toNat else old
        match relocated r.type sym.value addend (wrap (sec.out_vaddr + r.offset)) old with
        | some v => .ok { sec with data := some (patch data r.offset v) }
        | none => .failed

/-- A relocation names a section and a symbol that exist. -/
def relocate (symbols : List Symbol) (sections : List Section) (r : Reloc) : Outcome (List Section) :=
  match sections[r.isec_idx]?, symbols[r.sym_idx]? with
  | some sec, some sym =>
    match relocate_section sym r sec with
    | .ok sec => .ok (sections.set r.isec_idx sec)
    | .failed => .failed
    | .outside => .outside
  | _, _ => .failed

def relocate_all (symbols : List Symbol) : List Reloc → List Section → Outcome (List Section)
  | [], sections => .ok sections
  | r :: relocs, sections =>
    match relocate symbols sections r with
    | .ok sections => relocate_all symbols relocs sections
    | .failed => .failed
    | .outside => .outside

def linker_relocate (s : State) : Outcome State :=
  match relocate_all s.symbols s.relocs s.sections with
  | .ok sections => .ok { s with sections := sections }
  | .failed => .failed
  | .outside => .outside

structure Phdr where
  type : Nat
  offset : Nat
  virt_addr : Nat
  phys_addr : Nat
  file_size : Nat
  mem_size : Nat
  flags : Nat
  alignment : Nat
  deriving DecidableEq

def page_size : Nat := 0x1000
def sizeof_ehdr : Nat := 52
def sizeof_phdr : Nat := 32

def sec_end (sec : Section) : Nat := wrap (sec.out_vaddr + sec.size)

/-- Start and end of the sections of a group, if there are any. -/
def group_range (group : Nat) : List Section → Option (Nat × Nat)
  | [] => none
  | sec :: rest =>
    if sec.out_group ≠ group then group_range group rest
    else
      match group_range group rest with
      | none => some (sec.out_vaddr,sec_end sec)
      | some (start,end_) => some (min sec.out_vaddr start,max (sec_end sec) end_)

/-- The two segments: groups 0 and 1, and groups 2 and 3. -/
structure Layout where
  text_start : Nat
  text_end : Nat
  data_start : Nat
  data_end : Nat
  /-- The end of group 2. -/
  initialized : Option Nat
  deriving DecidableEq

def layout_of (load_addr : Nat) (sections : List Section) : Layout :=
  let text := match group_range 0 sections with
    | some range => range
    | none => (load_addr,load_addr)
  let text := match group_range 1 sections with
    | some (start,end_) => (if (group_range 0 sections).isSome then text.1 else start,max text.2 end_)
    | none => text
  let data := match group_range 2 sections with
    | some range => range
    | none => (text.2,text.2)
  let data := match group_range 3 sections with
    | some (start,end_) => (if (group_range 2 sections).isSome then data.1 else start,max data.2 end_)
    | none => data
  { text_start := text.1
    text_end := text.2
    data_start := data.1
    data_end := data.2
    initialized := (group_range 2 sections).map Prod.snd }

def Layout.num_phdrs (l : Layout) : Nat :=
  max 1 ((if l.text_end > l.text_start then 1 else 0) + (if l.data_end > l.data_start then 1 else 0))

def headers_size (l : Layout) : Nat := sizeof_ehdr + l.num_phdrs * sizeof_phdr

def first_section_vaddr (load_addr : Nat) : List Section → Nat
  | [] => load_addr
  | [sec] => sec.out_vaddr
  | sec :: rest => min sec.out_vaddr (first_section_vaddr load_addr rest)

def vaddr_page_offset (first : Nat) : Nat := first % page_size

/-- The headers stay in front of the first section. -/
def first_section_file_offset (headers first : Nat) : Nat :=
  if headers ≤ vaddr_page_offset first then vaddr_page_offset first
  else wrap (align_up headers page_size + vaddr_page_offset first)

/-- Where a virtual address stands in the file. -/
def file_offset (base first vaddr : Nat) : Nat := wrap (base + wrap (vaddr + (2 ^ 32 - first)))

def page_base (n : Nat) : Nat := n / page_size * page_size

def text_phdr (l : Layout) (base first : Nat) : Phdr :=
  let page_base_file := page_base (file_offset base first l.text_start)
  let file_size := wrap (file_offset base first l.text_end + (2 ^ 32 - page_base_file))
  { type := 1, offset := page_base_file, virt_addr := page_base l.text_start, phys_addr := page_base l.text_start
    file_size := file_size, mem_size := file_size, flags := 5, alignment := page_size }

def data_phdr (l : Layout) (base first : Nat) : Phdr :=
  { type := 1, offset := file_offset base first l.data_start, virt_addr := l.data_start, phys_addr := l.data_start
    file_size := match l.initialized with
      | some end_ => wrap (end_ + (2 ^ 32 - l.data_start))
      | none => 0
    mem_size := wrap (l.data_end + (2 ^ 32 - l.data_start)), flags := 6, alignment := page_size }

def phdrs (load_addr : Nat) (l : Layout) (base first : Nat) : List Phdr :=
  let found := (if l.text_end > l.text_start then [text_phdr l base first] else []) ++
    (if l.data_end > l.data_start then [data_phdr l base first] else [])
  if found = [] then
    [{ type := 1, offset := 0, virt_addr := load_addr, phys_addr := load_addr, file_size := 0, mem_size := 0, flags := 5
       alignment := page_size }]
  else found

def le16 (n : Nat) : List UInt8 := [UInt8.ofNat n,UInt8.ofNat (n / 2 ^ 8)]
def le32 (n : Nat) : List UInt8 :=
  [UInt8.ofNat n,UInt8.ofNat (n / 2 ^ 8),UInt8.ofNat (n / 2 ^ 16),UInt8.ofNat (n / 2 ^ 24)]

def ELF_MAGIC : Nat := 0x464C457F

def ehdr_bytes (entry ph_entry_count : Nat) : List UInt8 :=
  le32 ELF_MAGIC ++ [1,1,1,0] ++ [0,0,0,0,0,0,0,0] ++ le16 2 ++ le16 3 ++ le32 1 ++ le32 entry ++ le32 sizeof_ehdr ++
    le32 0 ++ le32 0 ++ le16 sizeof_ehdr ++ le16 sizeof_phdr ++ le16 ph_entry_count ++ le16 40 ++ le16 0 ++ le16 0

def phdr_bytes (p : Phdr) : List UInt8 :=
  le32 p.type ++ le32 p.offset ++ le32 p.virt_addr ++ le32 p.phys_addr ++ le32 p.file_size ++ le32 p.mem_size ++
    le32 p.flags ++ le32 p.alignment

/-- What stands in front of the sections in the file. -/
def header_bytes (entry : Nat) (ps : List Phdr) : List UInt8 := ehdr_bytes entry ps.length ++ ps.flatMap phdr_bytes

def with_offset (base first : Nat) (sec : Section) : Section := { sec with out_offset := file_offset base first sec.out_vaddr }

def total_file_size (headers : Nat) : List Section → Nat
  | [] => headers
  | sec :: rest =>
    if sec.type = SHT_NOBITS then total_file_size headers rest
    else max (wrap (sec.out_offset + sec.size)) (total_file_size headers rest)

/-- Copies the sections that have data into the file. -/
def copy_sections (total : Nat) : List Section → Bytes → Bytes
  | [], out_buf => out_buf
  | sec :: rest, out_buf =>
    match sec.data with
    | some data =>
      if sec.type ≠ SHT_NOBITS ∧ wrap (sec.out_offset + sec.size) ≤ total then
        copy_sections total rest (storeBytes out_buf sec.out_offset data)
      else copy_sections total rest out_buf
    | none => copy_sections total rest out_buf

def entry_addr (s : State) : Nat :=
  match s.symbols.find? (fun sym => sym.name == s.entry_name) with
  | some sym => if sym.defined then sym.value else s.load_addr
  | none => s.load_addr

/-- The program headers, and the bytes of the file with their number. -/
structure Executable where
  segments : List Phdr
  bytes : Bytes
  size : Nat

def linker_write_elf (s : State) : Executable :=
  let l := layout_of s.load_addr s.sections
  let first := first_section_vaddr s.load_addr s.sections
  let base := first_section_file_offset (headers_size l) first
  let sections := s.sections.map (with_offset base first)
  let ps := phdrs s.load_addr l base first
  let total := total_file_size (headers_size l) sections
  { segments := ps
    bytes := copy_sections total sections (storeBytes (fun _ => 0) 0 (header_bytes (entry_addr s) ps))
    size := total }

def load16 (m : Bytes) (a : Nat) : Nat := (m a).toNat + 2 ^ 8 * (m (a + 1)).toNat

def memset (m : Bytes) (dest : Nat) (n : Nat) : Bytes := storeBytes m dest (List.replicate n 0)

/-- What the loop over the program headers does to the memory of the new task, once
    the pages of a segment are mapped. -/
def load_segment (image : Bytes) (ph : Nat) (m : Bytes) : Bytes :=
  if load32 image ph ≠ 1 then m
  else
    let dest := load32 image (ph + 8)
    storeBytes (memset m dest (load32 image (ph + 20))) dest (slice image (load32 image (ph + 4)) (load32 image (ph + 16)))

def load_segments (image : Bytes) : Nat → Nat → Bytes → Bytes
  | 0, _, m => m
  | n + 1, ph, m => load_segments image n (ph + sizeof_phdr) (load_segment image ph m)

def init_elf (image : Bytes) (m : Bytes) : Option Bytes :=
  if load32 image 0 ≠ ELF_MAGIC then none
  else some (load_segments image (load16 image 44) (load32 image 28) m)

end MicroOS.Linker

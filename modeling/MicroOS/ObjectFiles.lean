import MicroOS.LinkerLayout

/-!
The loader of `libload` and the one for the modules of the kernel: the sections that are needed at run time are placed one behind
the other in an allocated block and copied there, and then the relocations are applied. An image is read at offsets in it, the
block at addresses of the memory.
-/

namespace MicroOS.ObjectFiles
open Memory
open Linker (align_up load16 memset ELF_MAGIC R_386_NONE R_386_32 R_386_PC32 R_386_PLT32)

def SHT_PROGBITS : Nat := 1
def SHT_SYMTAB : Nat := 2
def SHT_RELA : Nat := 4
def SHT_NOBITS : Nat := 8
def SHT_REL : Nat := 9
def SHF_ALLOC : Nat := 2
def SHN_UNDEF : Nat := 0
def SHN_ABS : Nat := 0xFFF1
def STT_SECTION : Nat := 3
def STB_WEAK : Nat := 2

/-- The fields of an `elf_section_header` that are read. -/
structure SectionHeader where
  type : Nat
  flags : Nat
  offset : Nat
  size : Nat
  link : Nat
  info : Nat
  addralign : Nat

structure Symbol where
  name : Nat
  value : Nat
  size : Nat
  info : Nat
  shndx : Nat

/-- An `elf_relocation`, or an `elf_relocation_addend`. -/
structure Relocation where
  offset : Nat
  type : Nat
  symbol : Nat
  addend : Option Nat

def sh_offset (image : Bytes) : Nat := load32 image 32
def sh_entry_count (image : Bytes) : Nat := load16 image 48

def section_header (image : Bytes) (i : Nat) : SectionHeader where
  type := load32 image (sh_offset image + 40 * i + 4)
  flags := load32 image (sh_offset image + 40 * i + 8)
  offset := load32 image (sh_offset image + 40 * i + 16)
  size := load32 image (sh_offset image + 40 * i + 20)
  link := load32 image (sh_offset image + 40 * i + 24)
  info := load32 image (sh_offset image + 40 * i + 28)
  addralign := load32 image (sh_offset image + 40 * i + 32)

def section_headers (image : Bytes) : List SectionHeader := (List.range (sh_entry_count image)).map (section_header image)

def symbol_at (image : Bytes) (symbol_table j : Nat) : Symbol where
  name := load32 image (symbol_table + 16 * j)
  value := load32 image (symbol_table + 16 * j + 4)
  size := load32 image (symbol_table + 16 * j + 8)
  info := (image (symbol_table + 16 * j + 12)).toNat
  shndx := load16 image (symbol_table + 16 * j + 14)

def relocation_entry_size (s : SectionHeader) : Nat := if s.type = SHT_REL then 8 else 12

def relocation_at (image : Bytes) (s : SectionHeader) (j : Nat) : Relocation where
  offset := load32 image (s.offset + relocation_entry_size s * j)
  type := load32 image (s.offset + relocation_entry_size s * j + 4) % 2 ^ 8
  symbol := load32 image (s.offset + relocation_entry_size s * j + 4) / 2 ^ 8
  addend := if s.type = SHT_REL then none else some (load32 image (s.offset + relocation_entry_size s * j + 8))

/-- `strcmp` finds a string of the image equal to a name. -/
def string_is (image : Bytes) (a : Nat) : List UInt8 → Bool
  | [] => image a = 0
  | c :: name => image a = c && string_is image (a + 1) name

def allocated (s : SectionHeader) : Bool := s.flags &&& SHF_ALLOC ≠ 0

/-- `section_addresses`, with the `current_offset` at the end. -/
def place : List SectionHeader → Nat → List Nat × Nat
  | [],current_offset => ([],current_offset)
  | s :: rest,current_offset =>
    if allocated s then
      let start := align_up current_offset s.addralign
      let placed := place rest (wrap (start + s.size))
      (start :: placed.1,placed.2)
    else
      let placed := place rest current_offset
      (0 :: placed.1,placed.2)

def section_addresses (image : Bytes) : List Nat := (place (section_headers image) 0).1

def load_size (image : Bytes) : Nat := (place (section_headers image) 0).2

/-- In what the two loaders differ: how much they allocate, whether sections without content are cleared once more, whether the
    global offset table is refused, what an undefined symbol is, and which further types of relocations add the addend. -/
structure Loader where
  block_size : Nat → Nat
  clears : Bool
  refuses_got : Bool
  undefined : Nat → Symbol → Option Nat
  thread_local : List Nat

/-- One section copied to its place. -/
def copy_section (l : Loader) (image : Bytes) (load_base : Nat) (m : Bytes) (p : SectionHeader × Nat) : Bytes :=
  if allocated p.1 then
    if p.1.type = SHT_PROGBITS then storeBytes m (load_base + p.2) (slice image p.1.offset p.1.size)
    else if p.1.type = SHT_NOBITS ∧ l.clears = true then memset m (load_base + p.2) p.1.size
    else m
  else m

def copy_sections (l : Loader) (image : Bytes) (load_base : Nat) (m : Bytes) : Bytes :=
  ((section_headers image).zip (section_addresses image)).foldl (copy_section l image load_base) m

def R_386_GLOB_DAT : Nat := 6
def R_386_JUMP_SLOT : Nat := 7
def R_386_RELATIVE : Nat := 8
def R_386_IRELATIVE : Nat := 42

/-- "_GLOBAL_OFFSET_TABLE_". -/
def got_name : List UInt8 :=
  [0x5F,0x47,0x4C,0x4F,0x42,0x41,0x4C,0x5F,0x4F,0x46,0x46,0x53,0x45,0x54,0x5F,0x54,0x41,0x42,0x4C,0x45,0x5F]

section
variable (l : Loader) (image : Bytes) (load_base : Nat)

/-- The address for the symbol of a relocation; `none` if the loader refuses it. An index that is no section's gives 0. -/
def symbol_address (string_table index : Nat) (symbol : Symbol) : Option Nat :=
  if index = 0 then some 0
  else if l.refuses_got = true ∧ string_is image (string_table + symbol.name) got_name = true then none
  else if symbol.shndx = SHN_UNDEF then l.undefined (string_table + symbol.name) symbol
  else if symbol.shndx = SHN_ABS then some symbol.value
  else if symbol.shndx < sh_entry_count image then
    if symbol.info % 2 ^ 4 = STT_SECTION then some (wrap (load_base + (section_addresses image).getD symbol.shndx 0))
    else some (wrap (load_base + (section_addresses image).getD symbol.shndx 0 + symbol.value))
  else some 0

/-- What is stored; `none` for a type that is not supported, and nothing is stored for `R_386_NONE`. -/
def relocated (type symbol_address addend reloc_target : Nat) : Option (Option Nat) :=
  if type = R_386_NONE then some none
  else if type = R_386_32 then some (some (wrap (symbol_address + addend)))
  else if type = R_386_PC32 ∨ type = R_386_PLT32 then some (some (wrap (symbol_address + addend + (2 ^ 32 - reloc_target))))
  else if type = R_386_GLOB_DAT ∨ type = R_386_JUMP_SLOT then some (some symbol_address)
  else if type = R_386_RELATIVE ∨ type = R_386_IRELATIVE then some (some (wrap (load_base + addend)))
  else if type ∈ l.thread_local then some (some (wrap (symbol_address + addend)))
  else none

/-- The address a relocation of a section is about. -/
def reloc_target (s : SectionHeader) (r : Relocation) : Nat := wrap (load_base + (section_addresses image).getD s.info 0 + r.offset)

def symbol_count (s : SectionHeader) : Nat := (section_header image s.link).size / 16

/-- The symbol of a relocation. -/
def symbol_of (s : SectionHeader) (r : Relocation) : Symbol := symbol_at image (section_header image s.link).offset r.symbol

def string_table (s : SectionHeader) : Nat := (section_header image (section_header image s.link).link).offset

def relocate_entry (s : SectionHeader) (m : Bytes) (r : Relocation) : Option Bytes :=
  let target := reloc_target image load_base s r
  if symbol_count image s ≤ r.symbol then some m
  else
    (symbol_address l image load_base (string_table image s) r.symbol (symbol_of image s r)).bind fun symbol_address =>
      (relocated l load_base r.type symbol_address (r.addend.getD (load32 m target)) target).map fun word =>
        word.elim m (store32 m target)

/-- A section whose entries are gone through. -/
def relocates (s : SectionHeader) : Prop :=
  (s.type = SHT_REL ∨ s.type = SHT_RELA) ∧ s.info < sh_entry_count image ∧ s.link < sh_entry_count image ∧
    allocated (section_header image s.info) = true

instance (s : SectionHeader) : Decidable (relocates image s) := inferInstanceAs (Decidable (_ ∧ _))

def relocations (s : SectionHeader) : List Relocation := (List.range (s.size / relocation_entry_size s)).map (relocation_at image s)

def relocate_section (m : Bytes) (s : SectionHeader) : Option Bytes :=
  if relocates image s then (relocations image s).foldlM (relocate_entry l image load_base s) m else some m

def reallocate (m : Bytes) : Option Bytes := (section_headers image).foldlM (relocate_section l image load_base) m

/-- An image loaded to a block; `none` if the loader refuses it. -/
def load_image (m : Bytes) : Option Bytes :=
  if load32 image 0 ≠ ELF_MAGIC ∨ sh_entry_count image = 0 ∨ load_size image = 0 then none
  else reallocate l image load_base (copy_sections l image load_base (memset m load_base (l.block_size (load_size image))))

end

/-- The loader of `libload`, over the program's `lookup`: a weak symbol may be undefined. -/
def libload (lookup : Nat → Nat) : Loader where
  block_size current_offset := current_offset
  clears := false
  refuses_got := false
  undefined name symbol := if lookup name = 0 ∧ symbol.info / 2 ^ 4 ≠ STB_WEAK then none else some (lookup name)
  thread_local := []

def load (lookup : Nat → Nat) : Bytes → Nat → Bytes → Option Bytes := load_image (libload lookup)

/-- The loader of the kernel, over its `resolve_symbol_from_name`: it allocates pages. -/
def kernel_loader (resolve_symbol_from_name : Nat → Nat) : Loader where
  block_size current_offset := wrap (current_offset + 4095) / 4096 * 4096
  clears := true
  refuses_got := true
  undefined name _ := if resolve_symbol_from_name name = 0 then none else some (resolve_symbol_from_name name)
  thread_local := [17,35,15,16]

/-- `load_object_file` up to the search for the module. -/
def load_object (resolve_symbol_from_name : Nat → Nat) : Bytes → Nat → Bytes → Option Bytes :=
  load_image (kernel_loader resolve_symbol_from_name)

end MicroOS.ObjectFiles

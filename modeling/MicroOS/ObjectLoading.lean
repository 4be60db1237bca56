import MicroOS.ModuleSymbols

/-!
Without wrap-around the sections get places of their own in the block, the copies do not disturb each other, and relocations of
words that lie apart read what was copied. The main theorem is `object_loading`: for which images and blocks the sections are
aligned and the relocated words those that are asked.
-/

namespace MicroOS.ObjectLoading
open Memory Alignment ObjectFiles
open ModuleSymbols (section_bytes symbol_bytes)
open Linker (le16 le32 ELF_MAGIC align_up memset R_386_NONE R_386_32 R_386_PC32 R_386_PLT32)
open LinkerLayout (PowerOfTwo align_up_eq power_positive)
open Option (some.inj)

def SHN_LORESERVE : Nat := 0xFF00
def SHN_COMMON : Nat := 0xFFF2

/-- The sections with their offsets in the block. -/
def placed (image : Bytes) : List (SectionHeader × Nat) := (section_headers image).zip (section_addresses image)

/-- 0 stands for no alignment, as 1 does. -/
def alignment (s : SectionHeader) : Nat := max 1 s.addralign

/-- The relocations of all sections in the order of the loops. -/
def entries (image : Bytes) : List (SectionHeader × Relocation) :=
  (section_headers image).flatMap fun s => if relocates image s then (relocations image s).map fun r => (s,r) else []

/-- The types of relocations that the claims are about. -/
def Relocates (type : Nat) : Prop := type = R_386_32 ∨ type = R_386_PC32 ∨ type = R_386_PLT32

/-- The word for a symbol at `s`, an addend and a place. -/
def word (type s a p : Nat) : Nat := if type = R_386_32 then wrap (s + a) else wrap (s + a + (2 ^ 32 - p))

/-- The addend: that of the entry, or what the section holds at the place before it is relocated. -/
def addend (image : Bytes) (e : SectionHeader × Relocation) : Nat :=
  e.2.addend.getD (if (section_header image e.1.info).type = SHT_PROGBITS
    then load32 image ((section_header image e.1.info).offset + e.2.offset) else 0)

/-- Two ranges without a common byte. -/
def Apart (a n b k : Nat) : Prop := a + n ≤ b ∨ b + k ≤ a

instance (a n b k : Nat) : Decidable (Apart a n b k) := inferInstanceAs (Decidable (_ ∨ _))

section
variable (l : Loader) (image : Bytes) (load_base : Nat)

def block_end : Nat := load_base + l.block_size (load_size image)

def target (e : SectionHeader × Relocation) : Nat := reloc_target image load_base e.1 e.2

/-- Storage of its own for a common symbol, which is named by its table and its index there. -/
structure Own (storage : Nat × Nat → Nat) (key : Nat × Nat) : Prop where
  inside : load_base ≤ storage key ∧ storage key < block_end l image load_base ∧
    storage key + (symbol_at image (section_header image key.1).offset key.2).size ≤ block_end l image load_base
  sections : ∀ p ∈ placed image, allocated p.1 = true →
    Apart (storage key) (symbol_at image (section_header image key.1).offset key.2).size (load_base + p.2) p.1.size
  others : ∀ other, other ≠ key → (symbol_at image (section_header image other.1).offset other.2).shndx = SHN_COMMON →
    Apart (storage key) (symbol_at image (section_header image key.1).offset key.2).size (storage other)
      (symbol_at image (section_header image other.1).offset other.2).size

/-- The address of the definition of a relocation's symbol: nothing for the index 0, what is found for an undefined symbol, its
    storage for a common one, and otherwise its place in a section that was loaded. -/
def Address (storage : Nat × Nat → Nat) (e : SectionHeader × Relocation) (address : Nat) : Prop :=
  if e.2.symbol = 0 then address = 0
  else if (symbol_of image e.1 e.2).shndx = SHN_UNDEF then
    l.undefined (string_table image e.1 + (symbol_of image e.1 e.2).name) (symbol_of image e.1 e.2) = some address
  else if (symbol_of image e.1 e.2).shndx = SHN_ABS then address = (symbol_of image e.1 e.2).value
  else if (symbol_of image e.1 e.2).shndx = SHN_COMMON then
    address = storage (e.1.link,e.2.symbol) ∧ Own l image load_base storage (e.1.link,e.2.symbol)
  else
    (symbol_of image e.1 e.2).shndx < sh_entry_count image ∧
      allocated (section_header image (symbol_of image e.1 e.2).shndx) = true ∧
      address = wrap (load_base + (section_addresses image).getD (symbol_of image e.1 e.2).shndx 0 + (symbol_of image e.1 e.2).value)

/-- A byte that no relocation writes. -/
def Untouched (x : Nat) : Prop :=
  ∀ e ∈ entries image, e.2.type ≠ R_386_NONE → x < target image load_base e ∨ target image load_base e + 4 ≤ x

/-- The memory behind a load: aligned sections with places of their own in the block, their content and zeros, and the words. -/
structure Loaded (m : Bytes) : Prop where
  aligned : ∀ p ∈ placed image, allocated p.1 = true → (load_base + p.2) % alignment p.1 = 0
  disjoint : (placed image).Pairwise fun p q => allocated p.1 = true → allocated q.1 = true → Apart p.2 p.1.size q.2 q.1.size
  inside : ∀ p ∈ placed image, allocated p.1 = true → p.2 + p.1.size ≤ l.block_size (load_size image)
  copied : ∀ p ∈ placed image, allocated p.1 = true → ∀ k < p.1.size, Untouched image load_base (load_base + p.2 + k) →
    m (load_base + p.2 + k) = if p.1.type = SHT_PROGBITS then image (p.1.offset + k) else 0
  zero : ∀ x, load_base ≤ x → x < block_end l image load_base →
    (∀ p ∈ placed image, allocated p.1 = true → Apart x 1 (load_base + p.2) p.1.size) → m x = 0
  relocated : ∃ storage, ∀ e ∈ entries image, Relocates e.2.type → ∃ address, Address l image load_base storage e address ∧
    load32 m (target image load_base e) = word e.2.type address (addend image e) (target image load_base e)

/-- Alignments are powers of two, indices and offsets lie in what they are about, and the reserved indices are no sections'. -/
structure Valid : Prop where
  alignments : ∀ s ∈ section_headers image, PowerOfTwo (alignment s)
  sections : sh_entry_count image < SHN_LORESERVE
  symbols : ∀ e ∈ entries image, e.2.symbol < symbol_count image e.1
  offsets : ∀ e ∈ entries image, e.2.offset + 4 ≤ (section_header image e.1.info).size
  base : 0 < load_base

/-- Where the sections end when nothing wraps around. -/
def extent : List SectionHeader → Nat → Nat
  | [],current_offset => current_offset
  | s :: rest,current_offset =>
    if allocated s then extent rest (roundUp current_offset (alignment s) + s.size) else extent rest current_offset

/-- Nothing wraps around, and no two relocations share a byte. -/
structure Roomy : Prop where
  fits : extent (section_headers image) 0 < 2 ^ 32
  block : load_size image ≤ l.block_size (load_size image)
  memory : block_end l image load_base ≤ 2 ^ 32
  apart : (entries image).Pairwise fun e f => e.2.type ≠ R_386_NONE → f.2.type ≠ R_386_NONE →
    Apart (target image load_base e) 4 (target image load_base f) 4

/-- A symbol that is not common and, if it is in a section, is in one that is loaded; the symbol of a section is its start. -/
def Resolvable (e : SectionHeader × Relocation) : Prop :=
  e.2.symbol = 0 ∨ (symbol_of image e.1 e.2).shndx = SHN_UNDEF ∨ (symbol_of image e.1 e.2).shndx = SHN_ABS ∨
    ((symbol_of image e.1 e.2).shndx < sh_entry_count image ∧
      allocated (section_header image (symbol_of image e.1 e.2).shndx) = true ∧
      ((symbol_of image e.1 e.2).info % 2 ^ 4 = STT_SECTION → (symbol_of image e.1 e.2).value = 0))

/-- The block is as aligned as each section is to be, and the symbols of the relocations are resolvable. -/
structure Sound : Prop where
  base : ∀ s ∈ section_headers image, allocated s = true → load_base % alignment s = 0
  symbols : ∀ e ∈ entries image, Relocates e.2.type → Resolvable image e

end

theorem align_up_alignment {s : SectionHeader} {current : Nat} (power : PowerOfTwo (alignment s))
    (fits : roundUp current (alignment s) < 2 ^ 32) : align_up current s.addralign = roundUp current (alignment s) := by
  by_cases one : s.addralign ≤ 1
  · rw [align_up,if_pos one,alignment,max_eq_left one,roundUp]
    simp
  · have same : alignment s = s.addralign := max_eq_right (by omega)
    rw [same] at power fits ⊢
    exact align_up_eq power fits

theorem alignment_positive (s : SectionHeader) : 0 < alignment s := by simp [alignment]

theorem le_extent (ss : List SectionHeader) (current : Nat) : current ≤ extent ss current := by
  induction ss generalizing current with
  | nil => exact le_rfl
  | cons s ss ih =>
    have up := le_roundUp current (alignment_positive s)
    rw [extent]
    split
    · exact (up.trans (Nat.le_add_right _ _)).trans (ih _)
    · exact ih current

section
variable {s : SectionHeader} {ss : List SectionHeader} {current : Nat}

/-- One section placed without wrap-around. -/
theorem place_allocated (here : allocated s = true) (power : PowerOfTwo (alignment s)) (fits : extent (s :: ss) current < 2 ^ 32) :
    place (s :: ss) current = (roundUp current (alignment s) :: (place ss (roundUp current (alignment s) + s.size)).1,
      (place ss (roundUp current (alignment s) + s.size)).2) := by
  rw [extent,if_pos here] at fits
  have room := (le_extent ss (roundUp current (alignment s) + s.size)).trans_lt fits
  simp only [place,if_pos here,align_up_alignment power ((Nat.le_add_right _ _).trans_lt room),wrap_of_lt room]

theorem place_other (other : ¬ allocated s = true) : place (s :: ss) current = (0 :: (place ss current).1,(place ss current).2) := by
  simp only [place,if_neg other]

theorem length_place : (place ss current).1.length = ss.length := by
  induction ss generalizing current with
  | nil => rfl
  | cons s ss ih =>
    by_cases here : allocated s = true
    · simp [place,here,ih]
    · simp [place,here,ih]

section
variable (powers : ∀ s ∈ ss, PowerOfTwo (alignment s)) (fits : extent ss current < 2 ^ 32)
include powers fits

theorem place_end : (place ss current).2 = extent ss current := by
  induction ss generalizing current with
  | nil => rfl
  | cons s ss ih =>
    obtain ⟨power,powers⟩ := List.forall_mem_cons.1 powers
    by_cases here : allocated s = true
    · rw [place_allocated here power fits]
      rw [extent,if_pos here] at fits ⊢
      exact ih powers fits
    · rw [place_other here]
      rw [extent,if_neg here] at fits ⊢
      exact ih powers fits

/-- Every section gets a multiple of its alignment, between where the others before and behind it are. -/
theorem place_bounds : ∀ p ∈ ss.zip (place ss current).1, allocated p.1 = true →
      current ≤ p.2 ∧ p.2 + p.1.size ≤ extent ss current ∧ p.2 % alignment p.1 = 0 := by
  induction ss generalizing current with
  | nil => simp
  | cons s ss ih =>
    obtain ⟨power,powers⟩ := List.forall_mem_cons.1 powers
    by_cases here : allocated s = true
    · rw [place_allocated here power fits,List.zip_cons_cons]
      rw [extent,if_pos here] at fits ⊢
      have up := le_roundUp current (alignment_positive s)
      intro p among
      rcases List.mem_cons.1 among with rfl | among
      · exact fun _ => ⟨up,le_extent ss _,roundUp_mod ..⟩
      · intro kept
        obtain ⟨low,high,multiple⟩ := ih powers fits p among kept
        exact ⟨by omega,high,multiple⟩
    · rw [place_other here,List.zip_cons_cons]
      rw [extent,if_neg here] at fits ⊢
      intro p among
      rcases List.mem_cons.1 among with rfl | among
      · exact fun no => absurd no here
      · exact ih powers fits p among

theorem place_order :
    (ss.zip (place ss current).1).Pairwise fun p q => allocated p.1 = true → allocated q.1 = true → Apart p.2 p.1.size q.2 q.1.size := by
  induction ss generalizing current with
  | nil => exact .nil
  | cons s ss ih =>
    obtain ⟨power,powers⟩ := List.forall_mem_cons.1 powers
    by_cases here : allocated s = true
    · rw [place_allocated here power fits,List.zip_cons_cons]
      rw [extent,if_pos here] at fits
      refine .cons (fun q among _ kept => .inl ?_) (ih powers fits)
      exact (place_bounds powers fits q among kept).1
    · rw [place_other here,List.zip_cons_cons]
      rw [extent,if_neg here] at fits
      exact .cons (fun q _ no => absurd no here) (ih powers fits)

end

end

variable {image : Bytes} {load_base : Nat}

theorem mem_placed {i : Nat} (inside : i < sh_entry_count image) :
    (section_header image i,(section_addresses image).getD i 0) ∈ placed image := by
  have first : i < (section_headers image).length := by simpa [section_headers] using inside
  have second : i < (section_addresses image).length := by
    rw [section_addresses,length_place]
    exact first
  rw [placed,List.mem_iff_getElem]
  refine ⟨i,by simpa using ⟨first,second⟩,?_⟩
  simp [section_headers,List.getD_eq_getElem?_getD,second]

theorem storeBytes_inside (m : Bytes) (a : Nat) {bs : List UInt8} {k : Nat} (inside : k < bs.length) :
    storeBytes m a bs (a + k) = bs[k] := by
  simp [storeBytes,inside]

section
variable {l : Loader} {image : Bytes} {load_base : Nat} {p : SectionHeader × Nat}

theorem copy_section_outside (m : Bytes) {x : Nat}
    (outside : allocated p.1 = true → Apart x 1 (load_base + p.2) p.1.size) : copy_section l image load_base m p x = m x := by
  rw [copy_section]
  split
  · have apart := outside ‹_›
    rw [Apart] at apart
    split
    · exact storeBytes_outside _ _ _ (by rw [slice_length]; omega)
    · split
      · exact storeBytes_outside _ _ _ (by rw [List.length_replicate]; omega)
      · rfl
  · rfl

theorem copy_section_inside (here : allocated p.1 = true) {m : Bytes} {k : Nat} (inside : k < p.1.size)
    (zero : m (load_base + p.2 + k) = 0) :
    copy_section l image load_base m p (load_base + p.2 + k) = if p.1.type = SHT_PROGBITS then image (p.1.offset + k) else 0 := by
  rw [copy_section,if_pos here]
  split
  · rw [storeBytes_inside _ _ (by rw [slice_length]; exact inside)]
    simp [slice]
  · split
    · rw [memset,storeBytes_inside _ _ (by rw [List.length_replicate]; exact inside)]
      simp
    · exact zero

theorem copies_outside (ps : List (SectionHeader × Nat)) (m : Bytes) {x : Nat}
    (outside : ∀ p ∈ ps, allocated p.1 = true → Apart x 1 (load_base + p.2) p.1.size) :
    ps.foldl (copy_section l image load_base) m x = m x := by
  induction ps generalizing m with
  | nil => rfl
  | cons p ps ih =>
    obtain ⟨here,outside⟩ := List.forall_mem_cons.1 outside
    rw [List.foldl_cons,ih _ outside,copy_section_outside m here]

/-- Every section is copied to where zeros were, and the others leave it alone. -/
theorem copies_inside {ps : List (SectionHeader × Nat)} {m : Bytes}
    (order : ps.Pairwise fun p q => allocated p.1 = true → allocated q.1 = true → Apart p.2 p.1.size q.2 q.1.size)
    (zero : ∀ p ∈ ps, allocated p.1 = true → ∀ k < p.1.size, m (load_base + p.2 + k) = 0) :
    ∀ p ∈ ps, allocated p.1 = true → ∀ k < p.1.size,
      ps.foldl (copy_section l image load_base) m (load_base + p.2 + k) =
        if p.1.type = SHT_PROGBITS then image (p.1.offset + k) else 0 := by
  induction ps generalizing m with
  | nil => simp
  | cons q ps ih =>
    obtain ⟨first,order⟩ := List.pairwise_cons.1 order
    obtain ⟨clear,zero⟩ := List.forall_mem_cons.1 zero
    intro p among kept k inside
    rw [List.foldl_cons]
    rcases List.mem_cons.1 among with rfl | among
    · rw [copies_outside ps]
      · exact copy_section_inside kept inside (clear kept k inside)
      · intro other listed there
        have apart := first other listed kept there
        rw [Apart] at apart ⊢
        omega
    · apply ih order _ p among kept k inside
      intro other listed there n below
      rw [copy_section_outside]
      · exact zero other listed there n below
      · intro here
        have apart := first other listed here there
        rw [Apart] at apart ⊢
        omega

end

section
variable {l : Loader} {image : Bytes} {load_base : Nat}

theorem reallocate_entries (m : Bytes) : reallocate l image load_base m =
    (entries image).foldlM (fun m e => relocate_entry l image load_base e.1 m e.2) m := by
  rw [reallocate,entries]
  induction section_headers image generalizing m with
  | nil => rfl
  | cons s ss ih =>
    rw [List.foldlM_cons,List.flatMap_cons,List.foldlM_append,relocate_section]
    split
    · rw [List.foldlM_map]
      congr 1
      funext m
      exact ih m
    · rw [List.foldlM_nil]
      exact ih m

theorem word_lt (type s a p : Nat) : word type s a p < 2 ^ 32 := by
  rw [word]
  split <;> exact wrap_lt _

/-- After an entry is applied its word is relocated from the word before. -/
def Applied (l : Loader) (image : Bytes) (load_base : Nat) (m m' : Bytes) (e : SectionHeader × Relocation) : Prop :=
  Relocates e.2.type → ∃ address,
    symbol_address l image load_base (string_table image e.1) e.2.symbol (symbol_of image e.1 e.2) = some address ∧
    load32 m' (target image load_base e) = word e.2.type address (e.2.addend.getD (load32 m (target image load_base e)))
      (target image load_base e)

/-- One entry: a word is stored, or nothing. -/
theorem relocate_entry_step {m m' : Bytes} {e : SectionHeader × Relocation} (known : e.2.symbol < symbol_count image e.1)
    (ran : relocate_entry l image load_base e.1 m e.2 = some m') :
    (∀ x, (e.2.type ≠ R_386_NONE → x < target image load_base e ∨ target image load_base e + 4 ≤ x) → m' x = m x) ∧
      Applied l image load_base m m' e := by
  simp only [relocate_entry,if_neg (Nat.not_le.2 known)] at ran
  obtain ⟨address,found,ran⟩ := Option.bind_eq_some_iff.1 ran
  obtain ⟨stored,value,rfl⟩ := Option.map_eq_some_iff.1 ran
  constructor
  · intro x outside
    cases stored with
    | none => rfl
    | some v =>
      have writes : e.2.type ≠ R_386_NONE := by
        intro nothing
        rw [relocated,if_pos nothing] at value
        cases value
      exact store32_outside _ _ _ (outside writes)
  · intro type
    refine ⟨address,found,?_⟩
    have same : stored = some (word e.2.type address (e.2.addend.getD (load32 m (target image load_base e))) (target image load_base e)) := by
      rw [relocated] at value
      rw [word]
      rcases type with absolute | relative | relative
      · rw [absolute] at value ⊢
        exact (some.inj value).symm
      · rw [relative] at value ⊢
        exact (some.inj value).symm
      · rw [relative] at value ⊢
        exact (some.inj value).symm
    rw [same]
    exact load32_store32 _ _ (word_lt ..)

/-- All entries: each finds the word as it was before the first. -/
theorem relocations_run {es : List (SectionHeader × Relocation)} {m m' : Bytes} (known : ∀ e ∈ es, e.2.symbol < symbol_count image e.1)
    (apart : es.Pairwise fun e f => e.2.type ≠ R_386_NONE → f.2.type ≠ R_386_NONE →
      Apart (target image load_base e) 4 (target image load_base f) 4)
    (ran : es.foldlM (fun m e => relocate_entry l image load_base e.1 m e.2) m = some m') :
    (∀ x, (∀ e ∈ es, e.2.type ≠ R_386_NONE → x < target image load_base e ∨ target image load_base e + 4 ≤ x) → m' x = m x) ∧
      ∀ e ∈ es, Applied l image load_base m m' e := by
  induction es generalizing m with
  | nil =>
    cases ran
    simp
  | cons e es ih =>
    obtain ⟨here,known⟩ := List.forall_mem_cons.1 known
    obtain ⟨first,apart⟩ := List.pairwise_cons.1 apart
    rw [List.foldlM_cons] at ran
    obtain ⟨n,step,ran⟩ := Option.bind_eq_some_iff.1 ran
    obtain ⟨kept,stored⟩ := relocate_entry_step here step
    obtain ⟨later,words⟩ := ih known apart ran
    constructor
    · intro x outside
      obtain ⟨now,outside⟩ := List.forall_mem_cons.1 outside
      rw [later x outside,kept x now]
    · intro f among type
      have writes : f.2.type ≠ R_386_NONE := by
        intro nothing
        rw [nothing] at type
        rcases type with no | no | no
        · exact absurd no (by decide)
        · exact absurd no (by decide)
        · exact absurd no (by decide)
      rcases List.mem_cons.1 among with rfl | among
      · obtain ⟨address,found,value⟩ := stored type
        refine ⟨address,found,?_⟩
        rw [← value]
        apply load32_agree
        intro x low high
        apply later
        intro g listed other
        have between := first g listed writes other
        rw [Apart] at between
        omega
      · obtain ⟨address,found,value⟩ := words f among type
        refine ⟨address,found,?_⟩
        have same : load32 n (target image load_base f) = load32 m (target image load_base f) := by
          apply load32_agree
          intro x low high
          apply kept
          intro other
          have between := first f among other writes
          rw [Apart] at between
          omega
        rw [value,same]

end

theorem entries_relocates {e : SectionHeader × Relocation} (among : e ∈ entries image) : relocates image e.1 := by
  obtain ⟨s,_,listed⟩ := List.mem_flatMap.1 among
  split at listed
  · obtain ⟨r,_,rfl⟩ := List.mem_map.1 listed
    assumption
  · cases listed

theorem load32_bytes {m m' : Bytes} {a b : Nat} (same : ∀ i < 4, m (a + i) = m' (b + i)) : load32 m a = load32 m' b := by
  have first := same 0 (by decide)
  rw [Nat.add_zero,Nat.add_zero] at first
  rw [load32,load32,first,same 1 (by decide),same 2 (by decide),same 3 (by decide)]

theorem load32_zero {m : Bytes} {a : Nat} (zero : ∀ i < 4, m (a + i) = 0) : load32 m a = 0 := by
  have first := zero 0 (by decide)
  rw [Nat.add_zero] at first
  simp [load32,first,zero 1 (by decide),zero 2 (by decide),zero 3 (by decide)]

theorem cleared (m : Bytes) (a n : Nat) {x : Nat} (low : a ≤ x) (high : x < a + n) : memset m a n x = 0 := by
  obtain ⟨k,rfl⟩ := Nat.exists_eq_add_of_le low
  rw [memset,storeBytes_inside _ _ (by rw [List.length_replicate]; omega)]
  simp

section
variable {l : Loader} {image : Bytes} {load_base : Nat}

theorem placed_bounds (valid : Valid image load_base) (roomy : Roomy l image load_base) :
    ∀ p ∈ placed image, allocated p.1 = true → p.2 + p.1.size ≤ l.block_size (load_size image) ∧ p.2 % alignment p.1 = 0 := by
  intro p among kept
  obtain ⟨_,high,multiple⟩ := place_bounds valid.alignments roomy.fits p among kept
  rw [← place_end valid.alignments roomy.fits] at high
  exact ⟨high.trans roomy.block,multiple⟩

/-- The section that an entry is about. -/
def home (image : Bytes) (e : SectionHeader × Relocation) : SectionHeader × Nat :=
  (section_header image e.1.info,(section_addresses image).getD e.1.info 0)

variable {e : SectionHeader × Relocation}

theorem home_placed (among : e ∈ entries image) : home image e ∈ placed image ∧ allocated (home image e).1 = true := by
  obtain ⟨_,info,_,kept⟩ := entries_relocates among
  exact ⟨mem_placed info,kept⟩

theorem target_home (valid : Valid image load_base) (roomy : Roomy l image load_base)
    (among : e ∈ entries image) : target image load_base e = load_base + (home image e).2 + e.2.offset := by
  obtain ⟨listed,kept⟩ := home_placed among
  have inside := (placed_bounds valid roomy _ listed kept).1
  have offset := valid.offsets e among
  have memory := roomy.memory
  rw [home] at inside
  rw [block_end] at memory
  rw [target,reloc_target,home]
  exact wrap_of_lt (by dsimp only at inside ⊢; omega)

variable {m : Bytes}

/-- The memory when everything is copied. -/
def copied_memory (l : Loader) (image : Bytes) (load_base : Nat) (m : Bytes) : Bytes :=
  copy_sections l image load_base (memset m load_base (l.block_size (load_size image)))

theorem copied_inside (valid : Valid image load_base) (roomy : Roomy l image load_base) :
    ∀ p ∈ placed image, allocated p.1 = true → ∀ k < p.1.size, copied_memory l image load_base m (load_base + p.2 + k) =
      if p.1.type = SHT_PROGBITS then image (p.1.offset + k) else 0 := by
  apply copies_inside (place_order valid.alignments roomy.fits)
  intro p among kept k inside
  have bound := (placed_bounds valid roomy p among kept).1
  exact cleared _ _ _ (by omega) (by omega)

theorem copied_outside {x : Nat} (low : load_base ≤ x) (high : x < block_end l image load_base)
    (outside : ∀ p ∈ placed image, allocated p.1 = true → Apart x 1 (load_base + p.2) p.1.size) : copied_memory l image load_base m x = 0 := by
  rw [copied_memory,copy_sections]
  exact (copies_outside (placed image) _ outside).trans (cleared _ _ _ low high)

/-- What an entry finds. -/
theorem copied_addend (valid : Valid image load_base) (roomy : Roomy l image load_base) (among : e ∈ entries image) :
    e.2.addend.getD (load32 (copied_memory l image load_base m) (target image load_base e)) = addend image e := by
  obtain ⟨listed,kept⟩ := home_placed among
  have offset := valid.offsets e among
  have byte (i : Nat) (below : i < 4) := copied_inside (m := m) valid roomy _ listed kept (e.2.offset + i) (by
    rw [home]
    dsimp only
    omega)
  rw [addend,target_home valid roomy among]
  congr 1
  split
  · rename_i content
    apply load32_bytes
    intro i below
    rw [Nat.add_assoc,byte i below,Nat.add_assoc]
    exact if_pos content
  · rename_i content
    apply load32_zero
    intro i below
    rw [Nat.add_assoc,byte i below]
    exact if_neg content

theorem load32_lt (m : Bytes) (a : Nat) : load32 m a < 2 ^ 32 := by
  have first := (m a).toNat_lt
  have second := (m (a + 1)).toNat_lt
  have third := (m (a + 2)).toNat_lt
  have fourth := (m (a + 3)).toNat_lt
  rw [load32]
  omega

theorem word_eq (type s s' a p : Nat) : word type s a p = word type s' a p ↔ s % 2 ^ 32 = s' % 2 ^ 32 := by
  rw [word,word]
  split
  · simp only [wrap]
    omega
  · simp only [wrap]
    omega

/-- The address that is found makes the word that is asked exactly for a resolvable symbol. -/
theorem address_iff (valid : Valid image load_base) (roomy : Roomy l image load_base) (storage : Nat × Nat → Nat)
    {found : Nat} (type a p : Nat)
    (here : symbol_address l image load_base (string_table image e.1) e.2.symbol (symbol_of image e.1 e.2) = some found) :
    (∃ address, Address l image load_base storage e address ∧ word type found a p = word type address a p) ↔ Resolvable image e := by
  have value : (symbol_of image e.1 e.2).value < 2 ^ 32 := load32_lt _ _
  have sections := valid.sections
  have base := valid.base
  have memory := roomy.memory
  simp only [word_eq]
  rw [Resolvable]
  simp only [Address]
  rw [symbol_address] at here
  generalize symbol_of image e.1 e.2 = symbol at *
  by_cases null : e.2.symbol = 0
  · rw [if_pos null] at here
    simp only [if_pos null]
    exact iff_of_true ⟨0,rfl,by rw [some.inj here]⟩ (.inl null)
  · rw [if_neg null] at here
    simp only [if_neg null]
    split at here
    · cases here
    · by_cases undefined : symbol.shndx = SHN_UNDEF
      · rw [if_pos undefined] at here
        simp only [if_pos undefined]
        exact iff_of_true ⟨found,here,rfl⟩ (.inr (.inl undefined))
      · rw [if_neg undefined] at here
        simp only [if_neg undefined]
        by_cases absolute : symbol.shndx = SHN_ABS
        · rw [if_pos absolute] at here
          simp only [if_pos absolute]
          exact iff_of_true ⟨_,rfl,by rw [some.inj here]⟩ (.inr (.inr (.inl absolute)))
        · rw [if_neg absolute] at here
          simp only [if_neg absolute]
          by_cases common : symbol.shndx = SHN_COMMON
          · have reserved : ¬ symbol.shndx < sh_entry_count image := by
              rw [common,SHN_COMMON]
              rw [SHN_LORESERVE] at sections
              omega
            rw [if_neg reserved] at here
            simp only [if_pos common]
            obtain rfl := some.inj here
            refine iff_of_false ?_ ?_
            · rintro ⟨address,⟨rfl,own⟩,same⟩
              obtain ⟨low,high,_⟩ := own.inside
              rw [Nat.mod_eq_of_lt (high.trans_le memory)] at same
              omega
            · rintro (no | no | no | ⟨no,_⟩)
              · exact null no
              · exact undefined no
              · exact absolute no
              · exact reserved no
          · simp only [if_neg common]
            by_cases section_ : symbol.shndx < sh_entry_count image
            · rw [if_pos section_] at here
              constructor
              · rintro ⟨address,⟨_,kept,rfl⟩,same⟩
                refine .inr (.inr (.inr ⟨section_,kept,fun start => ?_⟩))
                rw [if_pos start] at here
                rw [← some.inj here] at same
                simp only [wrap] at same
                omega
              · intro resolvable
                obtain ⟨_,kept,start⟩ := ((resolvable.resolve_left null).resolve_left undefined).resolve_left absolute
                refine ⟨_,⟨section_,kept,rfl⟩,?_⟩
                split at here
                · rw [← some.inj here,start ‹_›,Nat.add_zero]
                · rw [← some.inj here]
            · refine iff_of_false ?_ ?_
              · rintro ⟨address,⟨no,_⟩,_⟩
                exact section_ no
              · rintro (no | no | no | ⟨no,_⟩)
                · exact null no
                · exact undefined no
                · exact absolute no
                · exact section_ no

/-- For a load that is not refused. -/
theorem loaded_iff (valid : Valid image load_base) (roomy : Roomy l image load_base) {m' : Bytes}
    (ran : load_image l image load_base m = some m') : Loaded l image load_base m' ↔ Sound image load_base := by
  rw [load_image] at ran
  split at ran
  · cases ran
  · rw [reallocate_entries] at ran
    obtain ⟨kept,run⟩ := relocations_run valid.symbols roomy.apart ran
    have words (e : SectionHeader × Relocation) (among : e ∈ entries image) (type : Relocates e.2.type) : ∃ found,
        symbol_address l image load_base (string_table image e.1) e.2.symbol (symbol_of image e.1 e.2) = some found ∧
          load32 m' (target image load_base e) = word e.2.type found (addend image e) (target image load_base e) := by
      obtain ⟨found,here,value⟩ := run e among type
      refine ⟨found,here,value.trans ?_⟩
      exact congrArg (fun a => word e.2.type found a (target image load_base e)) (copied_addend valid roomy among)
    have bounds := placed_bounds valid roomy
    constructor
    · intro loaded
      refine ⟨?_,?_⟩
      · intro s listed here
        obtain ⟨i,inside,rfl⟩ := List.mem_map.1 listed
        have there := mem_placed (List.mem_range.1 inside)
        have multiple := Nat.dvd_of_mod_eq_zero (bounds _ there here).2
        have aligned := Nat.dvd_of_mod_eq_zero (loaded.aligned _ there here)
        exact Nat.mod_eq_zero_of_dvd ((Nat.dvd_add_left multiple).1 aligned)
      · intro e among type
        obtain ⟨storage,relocated⟩ := loaded.relocated
        obtain ⟨address,asked,there⟩ := relocated e among type
        obtain ⟨found,here,value⟩ := words e among type
        exact (address_iff valid roomy storage e.2.type (addend image e) (target image load_base e) here).1
          ⟨address,asked,value.symm.trans there⟩
    · intro sound
      refine ⟨?_,place_order valid.alignments roomy.fits,fun p among here => (bounds p among here).1,?_,?_,?_⟩
      · intro p among here
        have listed : p.1 ∈ section_headers image := (List.of_mem_zip among).1
        have multiple := Nat.dvd_of_mod_eq_zero (bounds p among here).2
        have aligned := Nat.dvd_of_mod_eq_zero (sound.base _ listed here)
        exact Nat.mod_eq_zero_of_dvd (Nat.dvd_add aligned multiple)
      · intro p among here k inside untouched
        rw [kept _ untouched]
        exact copied_inside valid roomy p among here k inside
      · intro x low high outside
        rw [kept]
        · exact copied_outside low high outside
        · intro e among _
          obtain ⟨listed,here⟩ := home_placed among
          have apart := outside _ listed here
          have offset := valid.offsets e among
          rw [target_home valid roomy among]
          rw [Apart,home] at apart
          rw [home]
          dsimp only at apart ⊢
          omega
      · refine ⟨fun _ => 0,fun e among type => ?_⟩
        obtain ⟨found,here,value⟩ := words e among type
        obtain ⟨address,asked,same⟩ := (address_iff valid roomy (fun _ => 0) e.2.type (addend image e) (target image load_base e) here).2
          (sound.symbols e among type)
        exact ⟨address,asked,value.trans same⟩

end

/-- Both loaders, each with a block of its own: when nothing wraps around and the relocated words lie apart, what is loaded from an
    image that is not refused is what is asked exactly if the block is aligned and the symbols are resolvable. -/
theorem object_loading (lookup resolve_symbol_from_name : Nat → Nat) {image : Bytes} {base kernel_base : Nat}
    (valid : Valid image base) (roomy : Roomy (libload lookup) image base) (kernel_valid : Valid image kernel_base)
    (kernel_roomy : Roomy (kernel_loader resolve_symbol_from_name) image kernel_base) (m : Bytes) :
    (∀ m', load lookup image base m = some m' → (Loaded (libload lookup) image base m' ↔ Sound image base)) ∧
      ∀ m', load_object resolve_symbol_from_name image kernel_base m = some m' →
        (Loaded (kernel_loader resolve_symbol_from_name) image kernel_base m' ↔ Sound image kernel_base) :=
  ⟨fun _ ran => loaded_iff valid roomy ran,fun _ ran => loaded_iff kernel_valid kernel_roomy ran⟩

/-- Eight bytes, of which the last four are relocated by the address of `c`, a variable in a section of some index. -/
def reloc_image (addralign shndx : Nat) : Bytes := fun i =>
  (le32 ELF_MAGIC ++ List.replicate 28 0 ++ le32 52 ++ List.replicate 12 0 ++ le16 5 ++ le16 0 ++
    section_bytes ⟨0,0,0,0,0,0,0⟩ ++ section_bytes ⟨SHT_PROGBITS,SHF_ALLOC,252,8,0,0,addralign⟩ ++
    section_bytes ⟨SHT_SYMTAB,0,260,32,3,0,4⟩ ++ section_bytes ⟨3,0,292,3,0,0,1⟩ ++ section_bytes ⟨SHT_REL,0,296,8,2,1,4⟩ ++
    le32 1 ++ le32 2 ++ symbol_bytes ⟨0,0,0,0,0⟩ ++
    symbol_bytes ⟨1,0,4,0x11,shndx⟩ ++ [0,0x63,0,0] ++ le32 4 ++ le32 0x101).getD i 0

theorem reloc_image_valid (base : 0 < load_base) (same : image = reloc_image 4 1 ∨
    image = reloc_image 16 1 ∨ image = reloc_image 4 SHN_COMMON) : Valid image load_base := by
  have aligned : ∀ s ∈ section_headers image, alignment s = 2 ^ 0 ∨ alignment s = 2 ^ 2 ∨ alignment s = 2 ^ 4 := by
    rcases same with rfl | rfl | rfl <;> decide +kernel
  refine ⟨?_,?_,?_,?_,base⟩
  · intro s listed
    rcases aligned s listed with one | four | sixteen
    · exact ⟨0,by decide,one⟩
    · exact ⟨2,by decide,four⟩
    · exact ⟨4,by decide,sixteen⟩
  · rcases same with rfl | rfl | rfl <;> decide +kernel
  · rcases same with rfl | rfl | rfl <;> decide +kernel
  · rcases same with rfl | rfl | rfl <;> decide +kernel

theorem reloc_image_roomy {l : Loader} (low : load_base = 0x100000 ∨ load_base = 0x100004)
    (block : l.block_size 8 = 8 ∨ l.block_size 8 = 4096) (same : image = reloc_image 4 1 ∨
    image = reloc_image 16 1 ∨ image = reloc_image 4 SHN_COMMON) : Roomy l image load_base := by
  have size : load_size image = 8 := by
    rcases same with rfl | rfl | rfl <;> decide +kernel
  refine ⟨?_,?_,?_,?_⟩
  · rcases same with rfl | rfl | rfl <;> decide +kernel
  · rw [size]
    omega
  · rw [block_end,size]
    omega
  · rcases same with rfl | rfl | rfl <;> rcases low with rfl | rfl <;> decide +kernel

theorem object_loading_aligned : Valid (reloc_image 4 1) 0x100004 ∧ Roomy (libload fun _ => 0) (reloc_image 4 1) 0x100004 ∧
    Valid (reloc_image 4 1) 0x100000 ∧ Roomy (kernel_loader fun _ => 0) (reloc_image 4 1) 0x100000 ∧
    (∀ m', load (fun _ => 0) (reloc_image 4 1) 0x100004 (fun _ => 0) = some m' →
        (Loaded (libload fun _ => 0) (reloc_image 4 1) 0x100004 m' ↔ Sound (reloc_image 4 1) 0x100004)) ∧
      ∀ m', load_object (fun _ => 0) (reloc_image 4 1) 0x100000 (fun _ => 0) = some m' →
        (Loaded (kernel_loader fun _ => 0) (reloc_image 4 1) 0x100000 m' ↔ Sound (reloc_image 4 1) 0x100000) := by
  have valid {load_base : Nat} (base : 0 < load_base) : Valid (reloc_image 4 1) load_base := reloc_image_valid base (.inl rfl)
  have roomy : Roomy (libload fun _ => 0) (reloc_image 4 1) 0x100004 := reloc_image_roomy (.inr rfl) (.inl rfl) (.inl rfl)
  have kernel_roomy : Roomy (kernel_loader fun _ => 0) (reloc_image 4 1) 0x100000 :=
    reloc_image_roomy (.inl rfl) (.inr rfl) (.inl rfl)
  exact ⟨valid (by decide),roomy,valid (by decide),kernel_roomy,
    object_loading (fun _ => 0) (fun _ => 0) (valid (by decide)) roomy (valid (by decide)) kernel_roomy fun _ => 0⟩

/-- An alignment of 16 in a block at a multiple of 4, and a common symbol, in both loaders. -/
theorem loaded_wrong :
    (∃ m', load (fun _ => 0) (reloc_image 16 1) 0x100004 (fun _ => 0) = some m' ∧
      ¬ Loaded (libload fun _ => 0) (reloc_image 16 1) 0x100004 m') ∧
    (∃ m', load (fun _ => 0) (reloc_image 4 SHN_COMMON) 0x100000 (fun _ => 0) = some m' ∧
      ¬ Loaded (libload fun _ => 0) (reloc_image 4 SHN_COMMON) 0x100000 m') ∧
    ∃ m', load_object (fun _ => 0) (reloc_image 4 SHN_COMMON) 0x100000 (fun _ => 0) = some m' ∧
      ¬ Loaded (kernel_loader fun _ => 0) (reloc_image 4 SHN_COMMON) 0x100000 m' := by
  have wrong {l : Loader} {image : Bytes} {load_base : Nat} (valid : Valid image load_base) (roomy : Roomy l image load_base)
      (returns : (load_image l image load_base fun _ => 0).isSome = true) (unsound : ¬ Sound image load_base) :
      ∃ m', load_image l image load_base (fun _ => 0) = some m' ∧ ¬ Loaded l image load_base m' := by
    obtain ⟨m',ran⟩ := Option.isSome_iff_exists.1 returns
    exact ⟨m',ran,fun loaded => unsound ((loaded_iff valid roomy ran).1 loaded)⟩
  have unaligned : ¬ Sound (reloc_image 16 1) 0x100004 := by
    intro sound
    have aligned := sound.base
    revert aligned
    decide +kernel
  have common : ¬ Sound (reloc_image 4 SHN_COMMON) 0x100000 := by
    intro sound
    have symbols : ∀ e ∈ entries (reloc_image 4 SHN_COMMON), e.2.type = R_386_32 → Resolvable (reloc_image 4 SHN_COMMON) e :=
      fun e among type => sound.symbols e among (.inl type)
    revert symbols
    simp only [Resolvable]
    decide +kernel
  refine ⟨?_,?_,?_⟩
  · exact wrong (reloc_image_valid (by decide) (.inr (.inl rfl))) (reloc_image_roomy (.inr rfl) (.inl rfl) (.inr (.inl rfl)))
      (by decide +kernel) unaligned
  · exact wrong (reloc_image_valid (by decide) (.inr (.inr rfl))) (reloc_image_roomy (.inl rfl) (.inl rfl) (.inr (.inr rfl)))
      (by decide +kernel) common
  · exact wrong (reloc_image_valid (by decide) (.inr (.inr rfl))) (reloc_image_roomy (.inl rfl) (.inr rfl) (.inr (.inr rfl)))
      (by decide +kernel) common

end MicroOS.ObjectLoading

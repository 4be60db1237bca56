import MicroOS.Paging

/-!
The driver looks up where the first byte of the buffer is in memory and gives the controller one descriptor for the whole
transfer. The main theorem is `transfers_right`: for which buffers and counts the controller then reaches exactly the bytes that
the page tables assign to the buffer.
-/
namespace MicroOS.Ahci
open Paging

abbrev Word := BitVec 32

/-- `HBA_PRDT_entry_t`. The number of bytes is one less than the transfer's. -/
structure Prdt where
  data_base_address : Nat
  data_base_address_upper : Nat
  byte_count : BitVec 22

/-- What the driver puts into the command header, the command table and the FIS. -/
structure Command where
  write : Bool
  prdt_entry : Prdt
  lba : List (BitVec 8)
  count_low : BitVec 8
  count_high : BitVec 8

/-- The command for an address in physical memory. -/
def command (write : Bool) (sector : BitVec 64) (count : Word) (physical_buffer upper : Nat) : Command :=
  let sector_low := sector.setWidth 32
  let sector_high := (sector >>> 32).setWidth 32
  { write := write
    prdt_entry := ⟨physical_buffer,upper,((count <<< 9) - 1).setWidth 22⟩
    lba := [sector_low.setWidth 8,(sector_low >>> 8).setWidth 8,(sector_low >>> 16).setWidth 8,
      sector_high.setWidth 8,(sector_high >>> 8).setWidth 8,(sector_high >>> 16).setWidth 8]
    count_low := count.setWidth 8
    count_high := (count >>> 8).setWidth 8 }

/-- The command that is issued; the driver gives up without one when the buffer is not mapped or the device is not ready. -/
def ahci_port_read (m : Memory) (context : Nat) (ready : Bool) (sector : BitVec 64) (count : Word) (buffer : Nat) :
    Option Command :=
  let physical_buffer := vmm_lookup m buffer context
  if physical_buffer = 0 then none
  else if ready then some (command false sector count physical_buffer 0)
  else none

/-- The upper half of a pointer that is cast to 64 bits: the cast extends the sign. -/
def pointer_upper (ptr : Nat) : Nat := if ptr < 2 ^ 31 then 0 else 2 ^ 32 - 1

def ahci_port_write (m : Memory) (context : Nat) (ready : Bool) (sector : BitVec 64) (count : Word) (buffer : Nat) :
    Option Command :=
  let physical_buffer := vmm_lookup m buffer context
  if physical_buffer = 0 then none
  else if ready then some (command true sector count physical_buffer (pointer_upper physical_buffer))
  else none

/-- The sectors of a command; the count 0 stands for 65536. -/
def sectors (c : Command) : Nat :=
  let count := c.count_low.toNat + 256 * c.count_high.toNat
  if count = 0 then 65536 else count

/-- Where the data lies. Bit 0 of the address is reserved, and without 64-bit addressing the upper half is ignored. -/
def base (s64a : Bool) (p : Prdt) : Nat :=
  p.data_base_address - p.data_base_address % 2 + if s64a then p.data_base_address_upper * 2 ^ 32 else 0

/-- The physical addresses that a completed command reaches, in the order of the data: as much as there is data, and room. -/
def dma (s64a : Bool) (c : Command) : List Nat :=
  (List.range (min (sectors c * 512) (c.prdt_entry.byte_count.toNat + 1))).map (base s64a c.prdt_entry + ·)

/-- The frame to which a page is mapped. -/
def page_frame (m : Memory) (context page : Nat) : Option Nat :=
  if (pde m context (page / 1024)).flags.present ∧ (pte m context (page / 1024) (page % 1024)).flags.present then
    some (pte m context (page / 1024) (page % 1024)).frame
  else none

/-- What the mapping assigns to an address. -/
def physical (m : Memory) (context ptr : Nat) : Option Nat :=
  (page_frame m context (ptr / 0x1000)).map fun frame => frame * 0x1000 + ptr % 0x1000

/-- The pages of the buffer are mapped to frames that lie one behind the other. -/
def Contiguous (m : Memory) (context buffer len : Nat) : Prop :=
  ∀ i, buffer / 0x1000 + i ≤ (buffer + len - 1) / 0x1000 →
    ∃ frame, page_frame m context (buffer / 0x1000) = some frame ∧ page_frame m context (buffer / 0x1000 + i) = some (frame + i)

/-- A command that is issued reaches exactly the bytes of the buffer, in their order. -/
def Right (m : Memory) (context buffer : Nat) (count : Word) (s64a : Bool) (issued : Option Command) : Prop :=
  ∀ c ∈ issued, (dma s64a c).map some = (List.range (count.toNat * 512)).map fun o => physical m context (buffer + o)

theorem vmm_lookup_physical (m : Memory) (context ptr : Nat) : vmm_lookup m ptr context = (physical m context ptr).getD 0 := by
  unfold vmm_lookup physical page_frame
  dsimp only
  by_cases dir : (pde m context (ptr / 0x1000 / 1024)).flags.present = true
  · by_cases page : (pte m context (ptr / 0x1000 / 1024) (ptr / 0x1000 % 1024)).flags.present = true
    · rw [if_pos dir,if_pos page,if_pos ⟨dir,page⟩]
      rfl
    · rw [if_pos dir,if_neg page,if_neg fun both => page both.2]
      rfl
  · rw [if_neg dir,if_neg fun both => dir both.1]
    rfl

/-- A buffer lies in one piece exactly when its pages do. -/
theorem contiguous_bytes {m : Memory} {context buffer first : Nat} (here : physical m context buffer = some first) {len : Nat}
    (pos : 0 < len) :
    (∀ o < len, physical m context (buffer + o) = some (first + o)) ↔ Contiguous m context buffer len := by
  obtain ⟨frame,mapped,place⟩ := Option.map_eq_some_iff.1 here
  constructor
  · intro all i inside
    refine ⟨frame,mapped,?_⟩
    by_cases zero : i = 0
    · rw [zero]
      exact mapped
    · have bytes := all ((buffer / 0x1000 + i) * 0x1000 - buffer) (by omega)
      obtain ⟨frame',mapped',place'⟩ := Option.map_eq_some_iff.1 bytes
      have page : (buffer + ((buffer / 0x1000 + i) * 0x1000 - buffer)) / 0x1000 = buffer / 0x1000 + i := by omega
      rw [page] at mapped'
      rw [mapped',Option.some.injEq]
      omega
  · intro pages o inside
    have page : (buffer + o) / 0x1000 = buffer / 0x1000 + ((buffer + o) / 0x1000 - buffer / 0x1000) := by omega
    obtain ⟨frame',mapped',later⟩ := pages ((buffer + o) / 0x1000 - buffer / 0x1000) (by omega)
    rw [mapped,Option.some.injEq] at mapped'
    rw [← page] at later
    rw [physical,later,Option.map_some,Option.some.injEq]
    rw [← mapped',← place]
    clear mapped' place page
    omega

/-- One descriptor and one command hold from 1 to 8192 sectors. -/
theorem command_size (write : Bool) (sector : BitVec 64) (count : Word) (physical_buffer upper : Nat) :
    min (sectors (command write sector count physical_buffer upper) * 512)
        ((command write sector count physical_buffer upper).prdt_entry.byte_count.toNat + 1) = count.toNat * 512 ↔
      1 ≤ count.toNat ∧ count.toNat ≤ 8192 := by
  have bound := count.isLt
  have bytes : (command write sector count physical_buffer upper).prdt_entry.byte_count.toNat =
      (count.toNat * 512 + (2 ^ 32 - 1)) % 2 ^ 22 := by
    have shifted : (count <<< 9).toNat = count.toNat * 512 % 2 ^ 32 := by
      rw [BitVec.toNat_shiftLeft,Nat.shiftLeft_eq]
    have one : (1 : Word).toNat = 1 := rfl
    rw [command,BitVec.toNat_setWidth,BitVec.toNat_sub,shifted,one]
    omega
  have number : sectors (command write sector count physical_buffer upper) =
      if count.toNat % 65536 = 0 then 65536 else count.toNat % 65536 := by
    have parts : count.toNat % 256 + 256 * (count.toNat / 256 % 256) = count.toNat % 65536 := by omega
    simp [sectors,command,Nat.shiftRight_eq_div_pow,parts]
  rw [bytes,number]
  split <;> omega

/-- A command that is issued is right exactly for a count that fits and a buffer in one piece at an even address, when the upper
    half of the address is right too. -/
theorem command_right {m : Memory} {context buffer first : Nat} (here : physical m context buffer = some first) (write : Bool)
    (sector : BitVec 64) (count : Word) (upper : Nat) (s64a : Bool) :
    Right m context buffer count s64a (some (command write sector count first upper)) ↔
      (1 ≤ count.toNat ∧ count.toNat ≤ 8192) ∧ buffer % 2 = 0 ∧ (s64a = false ∨ upper = 0) ∧
        Contiguous m context buffer (count.toNat * 512) := by
  have even : first % 2 = buffer % 2 := by
    obtain ⟨frame,_,place⟩ := Option.map_eq_some_iff.1 here
    omega
  have at_base : base s64a (command write sector count first upper).prdt_entry = first ↔
      buffer % 2 = 0 ∧ (s64a = false ∨ upper = 0) := by
    have value : base s64a (command write sector count first upper).prdt_entry =
        first - first % 2 + if s64a then upper * 2 ^ 32 else 0 := rfl
    rw [value]
    cases s64a with
    | false =>
      simp
      omega
    | true =>
      simp
      omega
  have fits := command_size write sector count first upper
  rw [← fits]
  simp only [Right,Option.mem_def,Option.some.injEq,forall_eq',dma,List.map_map]
  generalize command write sector count first upper = c at at_base fits ⊢
  constructor
  · intro same
    have lengths := congrArg List.length same
    rw [List.length_map,List.length_map,List.length_range,List.length_range] at lengths
    have pos : 0 < count.toNat * 512 := Nat.mul_pos (fits.1 lengths).1 (by decide)
    rw [lengths] at same
    have bytes : ∀ o < count.toNat * 512, some (base s64a c.prdt_entry + o) = physical m context (buffer + o) :=
      fun o inside => List.map_inj_left.1 same o (List.mem_range.2 inside)
    have begins := bytes 0 pos
    rw [Nat.add_zero,Nat.add_zero,here,Option.some.injEq] at begins
    obtain ⟨even_buffer,upper_right⟩ := at_base.1 begins
    rw [begins] at bytes
    exact ⟨lengths,even_buffer,upper_right,(contiguous_bytes here pos).1 fun o inside => (bytes o inside).symm⟩
  · intro ⟨size,even_buffer,upper_right,pages⟩
    have pos : 0 < count.toNat * 512 := Nat.mul_pos (fits.1 size).1 (by decide)
    rw [size,at_base.2 ⟨even_buffer,upper_right⟩]
    apply List.map_congr_left
    intro o inside
    exact ((contiguous_bytes here pos).2 pages o (List.mem_range.1 inside)).symm

/-- The driver gives up, or the count, the address and the pages of the buffer are right. -/
def Fits (m : Memory) (context buffer : Nat) (count : Word) (ready : Bool) : Prop :=
  ready = false ∨ physical m context buffer = none ∨ physical m context buffer = some 0 ∨
    (1 ≤ count.toNat ∧ count.toNat ≤ 8192) ∧ buffer % 2 = 0 ∧ Contiguous m context buffer (count.toNat * 512)

/-- A completed transfer reaches exactly the bytes that the page tables assign to the buffer when the driver gives up before it,
    or the count fits and the buffer lies in one piece, at an even address. A write also needs an address in the lower 2 GiB. -/
theorem transfers_right (m : Memory) (context buffer : Nat) (ready s64a : Bool) (sector : BitVec 64) (count : Word) :
    (Right m context buffer count s64a (ahci_port_read m context ready sector count buffer) ↔ Fits m context buffer count ready) ∧
    (Right m context buffer count s64a (ahci_port_write m context ready sector count buffer) ↔
      Fits m context buffer count ready ∧
        (ready = false ∨ s64a = false ∨ ∀ first ∈ physical m context buffer, first < 2 ^ 31)) := by
  have nothing : Right m context buffer count s64a none := fun c issued => by cases issued
  unfold ahci_port_read ahci_port_write
  rw [vmm_lookup_physical]
  cases here : physical m context buffer with
  | none => simp [Fits,nothing,here]
  | some first =>
    rw [Option.getD_some]
    dsimp only
    by_cases zero : first = 0
    · simp [Fits,nothing,here,zero]
    · rw [if_neg zero,if_neg zero]
      cases ready with
      | false => simp [Fits,nothing]
      | true =>
        rw [if_pos rfl,if_pos rfl,command_right here,command_right here]
        have upper : pointer_upper first = 0 ↔ first < 2 ^ 31 := by
          unfold pointer_upper
          split <;> simp_all
        simp only [Fits,here,upper,zero,Bool.true_eq_false,reduceCtorEq,Option.some.injEq,Option.mem_def,forall_eq',false_or,
          or_true,true_and]
        tauto

/-- Two pages of one address space, in frames that do not lie one behind the other. -/
def split_tables : Memory :=
  { pmm := ⟨fun _ => 0,fun _ => 0,0,0⟩
    word := fun page i =>
      if page = 1 then ⟨2,zero.flags⟩
      else if page = 2 then ⟨3,PTE_PRESENT⟩
      else ⟨if i = 1 then 5 else 7,PTE_PRESENT⟩
    kernel_context := 1 }

/-- A buffer that goes from the one page into the other. -/
theorem split_buffer_wrong : (∀ o < 512, (physical split_tables 1 (0x1F00 + o)).isSome = true) ∧
    ¬ Right split_tables 1 0x1F00 1 false (ahci_port_read split_tables 1 true 0 1 0x1F00) := by
  refine ⟨fun o _ => rfl,fun right => ?_⟩
  rcases (transfers_right split_tables 1 0x1F00 true false 0 1).1.1 right with busy | none | null | ⟨_,_,pages⟩
  · cases busy
  · cases none
  · cases null
  · obtain ⟨frame,first,second⟩ := pages 1 (by decide)
    cases first
    cases second

end MicroOS.Ahci

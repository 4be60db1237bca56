import MicroOS.GptAgreement
import MicroOS.GptSearch

/-!
What a new partition does to a valid table: a header with its table behind it, a second
copy of both at the end of the disk, and partitions that do not meet (`Valid`). The call
has no place for more than 128 partitions or for a long header, counts the length of the
table with 32 bits and the end of the partition with 64 bits; with none of these at work
it does what it should, and only then (`gpt_allocated`).
-/
namespace MicroOS.Gpt
open Memory

/-! ### Valid tables -/

/-- What a disk holds from a sector on. -/
def stored (d : Disk) (lba : Lba) : Bytes := fun i => d.bytes (512 * lba.toNat + i)

def table_length (h : Header) : Nat := h.number_of_partition_entries.toNat * h.size_of_partition_entry.toNat
def table_sectors (h : Header) : Nat := (table_length h + 511) / 512

/-- The first and the last sector of an entry. -/
def extent (h : Header) (entries : Bytes) (i : Nat) : Boundary :=
  (lba_at entries (i * h.size_of_partition_entry.toNat + 32),lba_at entries (i * h.size_of_partition_entry.toNat + 40))

/-- The entries that are in use: those that `dump_gpt` shows. -/
def partitions (h : Header) (entries : Bytes) : List Nat :=
  (List.range h.number_of_partition_entries.toNat).filter fun i => extent h entries i ≠ (0,0)

def Partition (h : Header) (entries : Bytes) (b : Boundary) : Prop := ∃ i ∈ partitions h entries, extent h entries i = b

/-- The sum of a header is taken over `header_size` bytes, while its own field is 0. -/
def Sealed (h : Header) : Prop :=
  h.crc32 = crc32 (slice (padded { h with crc32 := 0 }.bytes) 0 h.header_size.toNat)

/-- A header in its sector, with its table and both sums. -/
structure Copy (d : Disk) (h : Header) : Prop where
  header : ∀ i < 512, stored d h.my_lba i = padded h.bytes i
  header_sum : Sealed h
  table_sum : h.partition_entry_array_crc32 = crc32 (slice (stored d h.partition_entry_lba) 0 (table_length h))

/-- The sectors of a disk of `n` sectors: the header, its table, the usable ones, the second copy. -/
structure Geometry (h : Header) (n : Nat) : Prop where
  header_size : 92 ≤ h.header_size.toNat ∧ h.header_size.toNat ≤ 512
  my_lba : h.my_lba = 1
  entry_size : GPT_ENTRY_SIZE ≤ h.size_of_partition_entry.toNat
  behind_header : 2 ≤ h.partition_entry_lba.toNat
  before_usable : h.partition_entry_lba.toNat + table_sectors h ≤ h.first_usable_lba.toNat
  usable : h.first_usable_lba.toNat ≤ h.last_usable_lba.toNat + 1
  on_disk : h.alternate_lba.toNat < n

structure Extents (h : Header) (entries : Bytes) : Prop where
  inside : ∀ i ∈ partitions h entries, h.first_usable_lba.toNat ≤ (extent h entries i).1.toNat ∧
    (extent h entries i).1.toNat ≤ (extent h entries i).2.toNat ∧ (extent h entries i).2.toNat ≤ h.last_usable_lba.toNat
  disjoint : ∀ i ∈ partitions h entries, ∀ j ∈ partitions h entries, i ≠ j →
    (extent h entries i).2.toNat < (extent h entries j).1.toNat ∨ (extent h entries j).2.toNat < (extent h entries i).1.toNat

/-- The second copy says the same, and lies behind the usable sectors. -/
structure Backup (d : Disk) (h b : Header) : Prop where
  copy : Copy d b
  same : b = { h with
    crc32 := b.crc32, my_lba := h.alternate_lba, alternate_lba := h.my_lba, partition_entry_lba := b.partition_entry_lba }
  behind_usable : h.last_usable_lba.toNat < b.partition_entry_lba.toNat
  before_header : b.partition_entry_lba.toNat + table_sectors h ≤ h.alternate_lba.toNat
  entries : ∀ i < table_length h, stored d b.partition_entry_lba i = stored d h.partition_entry_lba i

structure Valid (d : Disk) (h : Header) : Prop where
  geometry : Geometry h d.sectors
  primary : Copy d h
  extents : Extents h (stored d h.partition_entry_lba)
  backup : ∃ b, Backup d h b

/-! ### Calls -/

/-- What a call comes to: an access outside of its memory, `false` with or without the
    report that there is not enough free space, or `true` with the new disk. -/
inductive Outcome
  | overrun
  | refused (disk : Disk) (no_space : Bool)
  | created (disk : Disk) (start : Lba)

/-- `add_gpt_partition` with its memory: a buffer of whole sectors for the table, an array
    for 128 partitions, and a header of 92 bytes. -/
def attempt (d : Disk) (r : Request) (sector buffer : Bytes) : Outcome :=
  if r.sectors = 0 then .refused d false
  else
    match read_gpt_header d sector with
    | none => .refused d false
    | some primary =>
      let size := primary.number_of_partition_entries * primary.size_of_partition_entry
      let entry_sectors := (size + BitVec.ofNat 32 SECTOR_SIZE - 1) / BitVec.ofNat 32 SECTOR_SIZE
      let entries := read_sectors d primary.partition_entry_lba entry_sectors.toNat buffer
      let boundaries := used_boundaries primary entries
      if entry_sectors.toNat * SECTOR_SIZE < table_length primary then .overrun
      else if GPT_ENTRIES < boundaries.length then .overrun
      else
        match find_start r.sectors primary.last_usable_lba (align_up primary.first_usable_lba GPT_ALIGNMENT_SECTORS)
          (sort_boundaries boundaries) with
        | none => .refused d true
        | some _ =>
          match add_gpt_partition d r sector buffer with
          | none => .refused d false
          | some (disk,start) => if 92 < primary.header_size.toNat then .overrun else .created disk start

section
variable (d : Disk) (h : Header) (r : Request)

/-- What a new partition has to be. -/
structure Created (disk : Disk) (start : Lba) : Prop where
  aligned : start.toNat % 2048 = 0
  ordered : start ≤ start + r.sectors - 1
  usable : h.first_usable_lba ≤ start ∧ start + r.sectors - 1 ≤ h.last_usable_lba
  apart : ∀ b, Partition h (stored d h.partition_entry_lba) b → start + r.sectors - 1 < b.1 ∨ b.2 < start
  valid : ∃ header_sum table_sum,
    Valid disk { h with crc32 := header_sum, partition_entry_array_crc32 := table_sum }
  entries : ∃ slot < h.number_of_partition_entries.toNat, extent h (stored d h.partition_entry_lba) slot = (0,0) ∧
    extent h (stored disk h.partition_entry_lba) slot = (start,start + r.sectors - 1) ∧
    ∀ i < table_length h, i / h.size_of_partition_entry.toNat ≠ slot →
      stored disk h.partition_entry_lba i = stored d h.partition_entry_lba i

/-- An aligned run of free sectors that is long enough. -/
def Space : Prop :=
  Gap (Partition h (stored d h.partition_entry_lba)) h.first_usable_lba.toNat h.last_usable_lba.toNat r.sectors.toNat

/-- What is promised of a call. -/
def Meets : Prop := ∀ sector buffer,
  match attempt d r sector buffer with
  | .overrun => False
  | .refused disk no_space => disk = d ∧ (no_space = true → ¬ Space d h r)
  | .created disk start => Created d h r disk start

end

/-! ### Entries -/

section
variable {h : Header}

variable {entries entries' : Bytes} {i : Nat}

section
variable (size : GPT_ENTRY_SIZE ≤ h.size_of_partition_entry.toNat) (same : ∀ i < table_length h, entries' i = entries i)
include size same

end

end

/-! ### The table in memory -/

/-- The sectors that the call counts for the table. -/
def entry_sectors (h : Header) : Word :=
  (h.number_of_partition_entries * h.size_of_partition_entry + BitVec.ofNat 32 SECTOR_SIZE - 1) / BitVec.ofNat 32 SECTOR_SIZE

section
variable {d : Disk} {h : Header} (valid : Valid d h)
include valid

end

/-! ### The new disk -/

section
variable {d : Disk} {h : Header} (valid : Valid d h)
include valid

end

section
variable {d : Disk} {h : Header} (geometry : Geometry h d.sectors)
  (room : h.last_usable_lba.toNat + table_sectors h < h.alternate_lba.toNat)
include geometry room

variable (usual : h.header_size = 92) (entries : Bytes)
include usual

end

section
variable {h : Header} {r : Request} {slot : Nat} {start : Lba} {entries : Bytes}

end

section
variable {d : Disk} {h : Header} {r : Request} (valid : Valid d h)
include valid

end

/-! ### New tables -/

end MicroOS.Gpt

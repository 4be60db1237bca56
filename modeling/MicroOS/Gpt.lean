import MicroOS.Memory
import MicroOS.Runs
import MicroOS.SafMake

/-!
Partition tables on disks. The tool's library writes them with entries of 128 bytes; the
kernel reads them through a structure of 120 bytes, which has no attributes, and takes
every entry whose type does not begin with a zero word for a partition.
-/
namespace MicroOS.Gpt
open Memory Runs
open Initrd (load64)

abbrev Word := BitVec 32
abbrev Lba := BitVec 64

/-- The bytes of a disk. The drivers count its sectors with 32 bits. -/
structure Disk where
  bytes : Bytes
  sectors : Nat
  small : sectors < 2 ^ 63

/-- Reading sectors into a buffer; behind the end of the disk nothing is read. -/
def read_sectors (d : Disk) (lba : Lba) (count : Nat) (buffer : Bytes) : Bytes := fun i =>
  if i < 512 * count ∧ lba.toNat + i / 512 < d.sectors then d.bytes (512 * lba.toNat + i) else buffer i

def write_sectors (d : Disk) (lba : Lba) (count : Nat) (buffer : Bytes) : Disk :=
  { d with bytes := fun j =>
      if 512 * lba.toNat ≤ j ∧ j < 512 * (lba.toNat + count) ∧ j / 512 < d.sectors then buffer (j - 512 * lba.toNat)
      else d.bytes j }

/-- The bytes of a list, and zeros behind them. -/
def padded (bytes : List UInt8) : Bytes := fun i => bytes.getD i 0

def le16 (v : Nat) : List UInt8 := [.ofNat v,.ofNat (v / 256)]
def le32 (v : Word) : List UInt8 :=
  [.ofNat v.toNat,.ofNat (v.toNat / 256),.ofNat (v.toNat / 256 ^ 2),.ofNat (v.toNat / 256 ^ 3)]
def le64 (v : Lba) : List UInt8 :=
  [.ofNat v.toNat,.ofNat (v.toNat / 256),.ofNat (v.toNat / 256 ^ 2),.ofNat (v.toNat / 256 ^ 3),.ofNat (v.toNat / 256 ^ 4),
    .ofNat (v.toNat / 256 ^ 5),.ofNat (v.toNat / 256 ^ 6),.ofNat (v.toNat / 256 ^ 7)]

def word_at (m : Bytes) (o : Nat) : Word := BitVec.ofNat 32 (load32 m o)
def lba_at (m : Bytes) (o : Nat) : Lba := BitVec.ofNat 64 (load64 m o)

def SECTOR_SIZE : Nat := 512
def GPT_ENTRY_SIZE : Nat := 128
def GPT_ENTRIES : Nat := 128
def GPT_ALIGNMENT_SECTORS : Lba := 2048

/-- "EFI PART" -/
def signature : List UInt8 := [0x45,0x46,0x49,0x20,0x50,0x41,0x52,0x54]

/-- A `gpt_table_header` behind its signature. -/
structure Header where
  revision : Word
  header_size : Word
  crc32 : Word
  reserved0 : Word
  my_lba : Lba
  alternate_lba : Lba
  first_usable_lba : Lba
  last_usable_lba : Lba
  disk_guid : Lba × Lba
  partition_entry_lba : Lba
  number_of_partition_entries : Word
  size_of_partition_entry : Word
  partition_entry_array_crc32 : Word

def Header.fields (h : Header) : List (List UInt8) :=
  [signature,le32 h.revision,le32 h.header_size,le32 h.crc32,le32 h.reserved0,le64 h.my_lba,le64 h.alternate_lba,
    le64 h.first_usable_lba,le64 h.last_usable_lba,le64 h.disk_guid.1,le64 h.disk_guid.2,le64 h.partition_entry_lba,
    le32 h.number_of_partition_entries,le32 h.size_of_partition_entry,le32 h.partition_entry_array_crc32]

def Header.bytes (h : Header) : List UInt8 := h.fields.flatten

def Header.read (m : Bytes) : Header where
  revision := word_at m 8
  header_size := word_at m 12
  crc32 := word_at m 16
  reserved0 := word_at m 20
  my_lba := lba_at m 24
  alternate_lba := lba_at m 32
  first_usable_lba := lba_at m 40
  last_usable_lba := lba_at m 48
  disk_guid := (lba_at m 56,lba_at m 64)
  partition_entry_lba := lba_at m 72
  number_of_partition_entries := word_at m 80
  size_of_partition_entry := word_at m 84
  partition_entry_array_crc32 := word_at m 88

/-- A `gpt_entry`; the name is the one of the tool, one byte for each character. -/
structure Entry where
  partition_type_guid : Lba × Lba
  unique_partition_guid : Lba × Lba
  starting_lba : Lba
  ending_lba : Lba
  attributes : Lba
  partition_name : List UInt8

/-- At most 36 characters of the name are kept, each as a 16-bit number. -/
def Entry.fields (e : Entry) : List (List UInt8) :=
  [le64 e.partition_type_guid.1,le64 e.partition_type_guid.2,le64 e.unique_partition_guid.1,le64 e.unique_partition_guid.2,
    le64 e.starting_lba,le64 e.ending_lba,le64 e.attributes,
    (List.range 36).flatMap fun i => le16 (e.partition_name.getD i 0).toNat]

def Entry.bytes (e : Entry) : List UInt8 := e.fields.flatten

def align_up (value alignment : Lba) : Lba :=
  if alignment = 0 then value else (value + alignment - 1) / alignment * alignment

def crc_bit (crc : Word) : Word := (crc >>> 1) ^^^ (0xEDB88320 &&& -(crc &&& 1))

def crc32 (bytes : List UInt8) : Word :=
  ~~~ bytes.foldl (fun crc b => crc_bit^[8] (crc ^^^ BitVec.ofNat 32 b.toNat)) 0xFFFFFFFF

/-- The bytes of the generator, one after the other. -/
def random_bytes : Nat → Word → List UInt8
  | 0,_ => []
  | n + 1,value =>
    let value := value * 1664525 + 1013904223
    .ofNat (value >>> 16).toNat :: random_bytes n value

def make_random_guid (seed : Word) : Lba × Lba :=
  let guid := ((random_bytes 16 seed).modify 6 fun b => b &&& 0x0F ||| 0x40).modify 8 fun b => b &&& 0x3F ||| 0x80
  (lba_at (padded guid) 0,lba_at (padded guid) 8)

def write_protective_mbr (disk_sectors : Nat) : Bytes :=
  let size_lba : Nat := if disk_sectors - 1 > 0xFFFFFFFF then 0xFFFFFFFF else disk_sectors - 1
  let buffer := storeBytes (fun _ => 0) (0x1BE + 1) [0xFF,0xFF,0xFF,0xEE,0xFF,0xFF,0xFF]
  storeByte (storeByte (store32 (store32 buffer (0x1BE + 8) 1) (0x1BE + 12) size_lba) 510 0x55) 511 0xAA

def write_gpt_header_sector (header : Header) : Bytes := padded (header.bytes.take header.header_size.toNat)

def read_gpt_header (d : Disk) (sector : Bytes) : Option Header :=
  let sector := read_sectors d 1 1 sector
  if slice sector 0 8 = signature then some (.read sector) else none

/-- The header with its own sum, which is taken while the field is 0. -/
def sealed (h : Header) : Header :=
  { h with crc32 := crc32 ({ h with crc32 := 0 }.bytes.take h.header_size.toNat) }

def commit_gpt_headers (d : Disk) (primary secondary : Header) : Disk :=
  write_sectors (write_sectors d primary.my_lba 1 (write_gpt_header_sector primary)) secondary.my_lba 1
    (write_gpt_header_sector secondary)

/-- `malloc` does not return NULL: it gets more pages, or its process is stopped. -/
def create_gpt (d : Disk) (device_id : Word) (sector : Bytes) : Option Disk :=
  if d.sectors < 34 then none
  else
    match read_gpt_header d sector with
    | some _ => none
    | none =>
      let disk_sectors : Lba := BitVec.ofNat 64 d.sectors
      let entry_sectors := (GPT_ENTRIES * GPT_ENTRY_SIZE + SECTOR_SIZE - 1) / SECTOR_SIZE
      let entries : Bytes := fun _ => 0
      let primary := sealed {
        revision := 0x00010000, header_size := 92, crc32 := 0, reserved0 := 0, my_lba := 1,
        alternate_lba := disk_sectors - 1, first_usable_lba := 2 + BitVec.ofNat 64 entry_sectors,
        last_usable_lba := disk_sectors - BitVec.ofNat 64 entry_sectors - 2,
        disk_guid := make_random_guid (device_id ^^^ 0xA5A5A5A5), partition_entry_lba := 2,
        number_of_partition_entries := BitVec.ofNat 32 GPT_ENTRIES, size_of_partition_entry := BitVec.ofNat 32 GPT_ENTRY_SIZE,
        partition_entry_array_crc32 := crc32 (slice entries 0 (GPT_ENTRIES * GPT_ENTRY_SIZE)) }
      let secondary := sealed { primary with
        my_lba := disk_sectors - 1, alternate_lba := 1,
        partition_entry_lba := disk_sectors - 1 - BitVec.ofNat 64 entry_sectors }
      let d := write_sectors d 0 1 (write_protective_mbr d.sectors)
      let d := write_sectors d primary.partition_entry_lba entry_sectors entries
      let d := write_sectors d secondary.partition_entry_lba entry_sectors entries
      some (commit_gpt_headers d primary secondary)

abbrev Boundary := Lba × Lba

/-- The inner loop of `sort_boundaries`: larger starts move up. The sorted part is from
    its end on. -/
def insert_boundary (b : Boundary) : List Boundary → List Boundary
  | [] => [b]
  | last :: before => if last.1 > b.1 then last :: insert_boundary b before else b :: last :: before

def sort_boundaries (boundaries : List Boundary) : List Boundary :=
  (boundaries.foldl (fun sorted b => insert_boundary b sorted) []).reverse

/-- The loop that looks for a place between the partitions. -/
def find_start (sectors last_usable : Lba) : Lba → List Boundary → Option Lba
  | start,[] => if start + sectors - 1 ≤ last_usable then some start else none
  | start,b :: rest =>
    if start + sectors - 1 ≤ b.1 - 1 then some start
    else if align_up (b.2 + 1) GPT_ALIGNMENT_SECTORS > last_usable then none
    else find_start sectors last_usable (align_up (b.2 + 1) GPT_ALIGNMENT_SECTORS) rest

/-- The entries in use, as the tool sees them. -/
def used_boundaries (h : Header) (entries : Bytes) : List Boundary :=
  (List.range h.number_of_partition_entries.toNat).filterMap fun i =>
    let entry := i * h.size_of_partition_entry.toNat
    let starting_lba := lba_at entries (entry + 32)
    let ending_lba := lba_at entries (entry + 40)
    if starting_lba ≠ 0 ∧ ending_lba ≠ 0 ∧ starting_lba ≤ ending_lba then some (starting_lba,ending_lba) else none

def free_index (h : Header) (entries : Bytes) : Option Nat :=
  (List.range h.number_of_partition_entries.toNat).find? fun i =>
    let entry := i * h.size_of_partition_entry.toNat
    lba_at entries (entry + 32) = 0 && lba_at entries (entry + 40) = 0

/-- A string, as long as its first NUL. -/
structure CString where
  chars : List UInt8
  plain : 0 ∉ chars

/-- What is asked for. -/
structure Request where
  device_id : Word
  sectors : Lba
  type_guid : Lba × Lba
  name : Option CString

/-- The disk afterwards and where the partition starts; `none` when `false` is returned. -/
def add_gpt_partition (d : Disk) (r : Request) (sector buffer : Bytes) : Option (Disk × Lba) :=
  if r.sectors = 0 then none
  else
    match read_gpt_header d sector with
    | none => none
    | some primary =>
      let size := primary.number_of_partition_entries * primary.size_of_partition_entry
      let entry_sectors := (size + BitVec.ofNat 32 SECTOR_SIZE - 1) / BitVec.ofNat 32 SECTOR_SIZE
      let entries := read_sectors d primary.partition_entry_lba entry_sectors.toNat buffer
      let boundaries := sort_boundaries (used_boundaries primary entries)
      match find_start r.sectors primary.last_usable_lba (align_up primary.first_usable_lba GPT_ALIGNMENT_SECTORS)
        boundaries with
      | none => none
      | some start =>
        let last := start + r.sectors - 1
        if last > primary.last_usable_lba then none
        else
          match free_index primary entries with
          | none => none
          | some entry_index =>
            let new_entry : Entry := {
              partition_type_guid := r.type_guid
              unique_partition_guid := make_random_guid (r.device_id + BitVec.ofNat 32 (entry_index * 31))
              starting_lba := start, ending_lba := last, attributes := 0
              partition_name := r.name.elim [] CString.chars }
            -- The rest of a longer entry is cleared.
            let rest := List.replicate (primary.size_of_partition_entry.toNat - GPT_ENTRY_SIZE) 0
            let entries := storeBytes entries (entry_index * primary.size_of_partition_entry.toNat) (new_entry.bytes ++ rest)
            let primary := sealed { primary with partition_entry_array_crc32 := crc32 (slice entries 0 size.toNat) }
            let secondary := sealed { primary with
              my_lba := primary.alternate_lba, alternate_lba := primary.my_lba,
              partition_entry_lba := primary.alternate_lba - BitVec.ofNat 64 entry_sectors.toNat }
            let d := write_sectors d primary.partition_entry_lba entry_sectors.toNat entries
            let d := write_sectors d secondary.partition_entry_lba entry_sectors.toNat entries
            some (commit_gpt_headers d primary secondary,start)

/-- Two GUIDs, two places and a name of 36 characters. -/
def sizeof_gpt_partition_entry : Nat := 16 + 16 + 8 + 8 + 2 * 36

/-- The places and lengths of the disks it registers; `none` without a table. -/
def read_gpt (d : Disk) (header entries : Bytes) : Option (List (Lba × Lba)) :=
  let header := read_sectors d 1 1 header
  if slice header 0 8 ≠ signature then none
  else
    let count := word_at header 80
    let sectors := (word_at header 84 * count).toNat / 512 + 1
    let entries := read_sectors d (lba_at header 72) sectors entries
    some ((List.range count.toNat).filterMap fun i =>
      let entry := i * sizeof_gpt_partition_entry
      if word_at entries entry = 0 then none
      else some (lba_at entries (entry + 32),lba_at entries (entry + 40) - lba_at entries (entry + 32) + 1))

/-- A partition that was added. -/
structure Added where
  first_lba : Lba
  request : Request

/-- A disk with a new table, and then partitions that are added to it. -/
def gpt_system : System (Disk × List Added) Request where
  start x := (∃ d device_id sector, create_gpt d device_id sector = some x.1) ∧ x.2 = []
  step x r y := ∃ sector buffer start, add_gpt_partition x.1 r sector buffer = some (y.1,start) ∧ y.2 = x.2 ++ [⟨start,r⟩]

/-- The kernel registers one disk for every partition, with its place and length, and no other. -/
def Agreement (x : Disk × List Added) : Prop := ∀ header entries, ∃ registered, read_gpt x.1 header entries = some registered ∧
  registered.Perm (x.2.map fun p => (p.first_lba,p.request.sectors))

end MicroOS.Gpt

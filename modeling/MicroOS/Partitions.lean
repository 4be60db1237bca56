import MicroOS.Gpt

/-!
read_gpt registers a virtual disk for every partition; a virtual disk hands its requests on to the disk below it. The main
theorem is `partition_confined`: which requests stay inside the partition, and what they leave alone.
-/
namespace MicroOS.Partitions
open Memory Runs
open Gpt (Disk Word Lba word_at lba_at signature read_gpt read_sectors sizeof_gpt_partition_entry)

/-- A request that arrives at a disk. -/
structure Access where
  disk : Nat
  sector : Lba
  count : Word

/-- The sectors of a request; the drivers count on from the first one with 64 bits. -/
def Access.lbas (a : Access) : List Lba := (List.range a.count.toNat).map fun i => a.sector + BitVec.ofNat 64 i

/-- `disk_driver_t`: a disk, or a part of it. The drivers of AHCI and of USB disks leave `get_sectors` NULL. -/
inductive Driver where
  | physical_disk (disk : Nat) (has_get_sectors : Bool)
  | virtual_disk (disk : Nat) (lba_offset lba_size : Lba)
  deriving DecidableEq

/-- The contents of the disks, `disks`, and the requests that arrived at them. -/
structure World where
  contents : Nat → Disk
  disks : List Driver
  accesses : List Access

def read_lbas (d : Disk) (sector : Lba) (count : Word) (buffer : Bytes) : Bytes := fun i =>
  let lba := (sector + BitVec.ofNat 64 (i / 512)).toNat
  if i < 512 * count.toNat ∧ lba < d.sectors then d.bytes (512 * lba + i % 512) else buffer i

def write_lbas (d : Disk) (sector : Lba) (count : Word) (buffer : Bytes) : Disk :=
  { d with bytes := fun j =>
      let i := (BitVec.ofNat 64 (j / 512) - sector).toNat
      if i < count.toNat ∧ j / 512 < d.sectors then buffer (512 * i + j % 512) else d.bytes j }

/-- The driver of a disk. -/
def disk_read (w : World) (disk : Nat) (sector : Lba) (count : Word) (buffer : Bytes) : World × Bytes :=
  ({ w with accesses := w.accesses ++ [⟨disk,sector,count⟩] },read_lbas (w.contents disk) sector count buffer)

def disk_write (w : World) (disk : Nat) (sector : Lba) (count : Word) (buffer : Bytes) : World :=
  { w with
    accesses := w.accesses ++ [⟨disk,sector,count⟩]
    contents := fun k => if k = disk then write_lbas (w.contents disk) sector count buffer else w.contents k }

def virtual_disk_read (w : World) (disk : Nat) (lba_offset sector : Lba) (count : Word) (buffer : Bytes) : World × Bytes :=
  disk_read w disk (sector + lba_offset) count buffer

def virtual_disk_write (w : World) (disk : Nat) (lba_offset sector : Lba) (count : Word) (buffer : Bytes) : World :=
  disk_write w disk (sector + lba_offset) count buffer

def Driver.read (w : World) (sector : Lba) (count : Word) (buffer : Bytes) : Driver → World × Bytes
  | .physical_disk disk _ => disk_read w disk sector count buffer
  | .virtual_disk disk lba_offset _ => virtual_disk_read w disk lba_offset sector count buffer

def Driver.write (w : World) (sector : Lba) (count : Word) (buffer : Bytes) : Driver → World
  | .physical_disk disk _ => disk_write w disk sector count buffer
  | .virtual_disk disk lba_offset _ => virtual_disk_write w disk lba_offset sector count buffer

/-- `none` is a call of NULL. -/
def Driver.get_sectors (w : World) : Driver → Option Lba
  | .physical_disk disk has_get_sectors => if has_get_sectors then some (BitVec.ofNat 64 (w.contents disk).sectors) else none
  | .virtual_disk _ _ lba_size => some lba_size

def Driver.is_physical : Driver → Bool
  | .physical_disk _ _ => true
  | .virtual_disk _ _ _ => false

/-- The driver with a number; the assertions refuse every other number. -/
def World.driver (w : World) (disk_id : Int) : Option Driver := if disk_id < 0 then none else w.disks[disk_id.toNat]?

/-- `raw_disk_command_t`; a NULL buffer is `none`. -/
structure Command where
  command : Nat
  disk : Int
  sector : Lba
  sector_count : Word
  buffer : Option Bytes

def sizeof_raw_disk_command : Nat := 24

/-- The world and the command afterwards; `none` when an assertion fails or a buffer or a routine is missing. -/
def disk_file_write (w : World) (cmd : Command) (size offset : Nat) : Option (World × Command) :=
  if ¬ (sizeof_raw_disk_command = size ∧ offset = 0) then none
  else if cmd.command = 1 then do
    let driver ← w.driver cmd.disk
    let buffer ← cmd.buffer
    let (w,buffer) := driver.read w cmd.sector cmd.sector_count buffer
    return (w,{ cmd with buffer := some buffer })
  else if cmd.command = 2 then do
    let driver ← w.driver cmd.disk
    let buffer ← cmd.buffer
    return (driver.write w cmd.sector cmd.sector_count buffer,cmd)
  else if cmd.command = 3 then
    some (w,{ cmd with
      disk := w.disks.length
      buffer := cmd.buffer.map fun physical =>
        storeBytes physical 0 (w.disks.map fun driver => if driver.is_physical then 1 else 0) })
  else if cmd.command = 4 then do
    let driver ← w.driver cmd.disk
    let sectors ← driver.get_sectors w
    return (w,{ cmd with sector := sectors })
  else some (w,cmd)

/-- The entries that read_gpt uses, as it reads them: the first and the last sector. -/
def partitions (d : Disk) (header entries : Bytes) : List (Lba × Lba) :=
  let header := read_sectors d 1 1 header
  let count := word_at header 80
  let sectors := (word_at header 84 * count).toNat / 512 + 1
  let entries := read_sectors d (lba_at header 72) sectors entries
  (List.range count.toNat).filterMap fun i =>
    let entry := i * sizeof_gpt_partition_entry
    if word_at entries entry = 0 then none else some (lba_at entries (entry + 32),lba_at entries (entry + 40))

def Inside (p : Lba × Lba) (lba : Lba) : Prop := p.1 ≤ lba ∧ lba ≤ p.2

/-- The sectors of the partition table. -/
def InTable (d : Disk) (header : Bytes) (lba : Lba) : Prop :=
  let header := read_sectors d 1 1 header
  lba = 1 ∨ ∃ i < (word_at header 84 * word_at header 80).toNat / 512 + 1, lba = lba_at header 72 + BitVec.ofNat 64 i

/-- Partitions on the disk, apart from each other and from the table. -/
structure Layout (d : Disk) (header entries : Bytes) : Prop where
  ordered : ∀ p ∈ partitions d header entries, p.1 ≤ p.2 ∧ p.2.toNat < d.sectors
  disjoint : (partitions d header entries).Pairwise fun p q => ∀ lba, Inside p lba → ¬ Inside q lba
  apart : ∀ p ∈ partitions d header entries, ∀ lba, InTable d header lba → ¬ Inside p lba

/-- The bytes of a sector are the same. -/
def Same (d d' : Disk) (lba : Lba) : Prop := ∀ i < 512, d'.bytes (512 * lba.toNat + i) = d.bytes (512 * lba.toNat + i)

/-- Between two worlds a disk was accessed only inside a partition, and nothing else was touched. -/
structure Confined (disk : Nat) (p : Lba × Lba) (w w' : World) : Prop where
  accesses : ∃ added, w'.accesses = w.accesses ++ added ∧ ∀ a ∈ added, a.disk = disk ∧ ∀ lba ∈ a.lbas, Inside p lba
  disks : w'.disks = w.disks
  others : ∀ k ≠ disk, w'.contents k = w.contents k
  outside : ∀ lba, ¬ Inside p lba → Same (w.contents disk) (w'.contents disk) lba

/-- The request ends at or before the recorded size. -/
def Within (lba_size sector : Lba) (count : Word) : Prop := count = 0 ∨ sector.toNat + count.toNat ≤ lba_size.toNat

/-- What read_gpt registers comes from these entries. -/
theorem registered_partitions {d : Disk} {header entries : Bytes} {registered : List (Lba × Lba)}
    (found : read_gpt d header entries = some registered) :
    registered = (partitions d header entries).map fun p => (p.1,p.2 - p.1 + 1) := by
  simp only [read_gpt] at found
  by_cases table : slice (read_sectors d 1 1 header) 0 8 ≠ signature
  · rw [if_pos table] at found
    cases found
  · rw [if_neg table] at found
    rw [← Option.some.inj found,partitions,List.map_filterMap]
    congr 1
    funext i
    dsimp only
    split <;> rfl

section
variable {p : Lba × Lba}

theorem size_toNat (ordered : p.1 ≤ p.2) (small : p.2.toNat < 2 ^ 63) :
    (p.2 - p.1 + 1).toNat = p.2.toNat - p.1.toNat + 1 := by
  have less : p.1.toNat ≤ p.2.toNat := ordered
  have one : (1 : Lba).toNat = 1 := rfl
  rw [BitVec.toNat_add,BitVec.toNat_sub,one]
  omega

/-- A moved sector lies in the partition when the sector is below the size. -/
theorem inside_moved (ordered : p.1 ≤ p.2) (small : p.2.toNat < 2 ^ 63) (sector : Lba) :
    Inside p (sector + p.1) ↔ sector.toNat < (p.2 - p.1 + 1).toNat := by
  have less : p.1.toNat ≤ p.2.toNat := ordered
  have first := sector.isLt
  rw [size_toNat ordered small,Inside,BitVec.le_def,BitVec.le_def,BitVec.toNat_add]
  omega

/-- The sectors of a request lie below a bound when the request ends there. -/
theorem below_iff (sector : Lba) (count : Word) {size : Nat} (small : size ≤ 2 ^ 63) :
    (∀ i < count.toNat, (sector + BitVec.ofNat 64 i).toNat < size) ↔ count = 0 ∨ sector.toNat + count.toNat ≤ size := by
  have place := sector.isLt
  have length := count.isLt
  have step : ∀ i, (sector + BitVec.ofNat 64 i).toNat = (sector.toNat + i) % 2 ^ 64 := by
    intro i
    rw [BitVec.toNat_add,BitVec.toNat_ofNat,Nat.add_mod_mod]
  constructor
  · intro below
    by_cases none : count = 0
    · exact .inl none
    · have some : 0 < count.toNat := Nat.pos_of_ne_zero fun zero => none (BitVec.eq_of_toNat_eq zero)
      have first := below 0 some
      rw [step] at first
      refine .inr (not_lt.1 fun behind => ?_)
      have last := below (size - sector.toNat) (by omega)
      rw [step] at last
      omega
  · rintro (none | within) i less
    · rw [none] at less
      exact absurd less (Nat.not_lt_zero i)
    · rw [step]
      omega

/-- The moved request stays in the partition exactly when it ends at or before the size. -/
theorem lbas_inside (ordered : p.1 ≤ p.2) (small : p.2.toNat < 2 ^ 63) (disk : Nat) (sector : Lba) (count : Word) :
    (∀ lba ∈ (Access.mk disk (sector + p.1) count).lbas, Inside p lba) ↔ Within (p.2 - p.1 + 1) sector count := by
  have bound : (p.2 - p.1 + 1).toNat ≤ 2 ^ 63 := by
    rw [size_toNat ordered small]
    omega
  rw [Within,← below_iff sector count bound]
  simp only [Access.lbas,List.mem_map,List.mem_range,forall_exists_index,and_imp,forall_apply_eq_imp_iff₂]
  refine forall_congr' fun i => imp_congr_right fun _ => ?_
  rw [← inside_moved ordered small,BitVec.add_assoc,BitVec.add_comm p.1,← BitVec.add_assoc]

/-- Writing sectors leaves all others as they are. -/
theorem write_lbas_same (d : Disk) (disk : Nat) (sector : Lba) (count : Word) (buffer : Bytes) {lba : Lba}
    (other : lba ∉ (Access.mk disk sector count).lbas) : Same d (write_lbas d sector count buffer) lba := by
  intro i low
  have place : (512 * lba.toNat + i) / 512 = lba.toNat := by omega
  refine if_neg fun written => other ?_
  rw [place,BitVec.ofNat_toNat,BitVec.setWidth_eq] at written
  refine List.mem_map.2 ⟨(lba - sector).toNat,List.mem_range.2 written.1,?_⟩
  rw [BitVec.ofNat_toNat,BitVec.setWidth_eq,BitVec.add_comm,BitVec.sub_add_cancel]

theorem accesses_confined {disk : Nat} {w w' : World} {a : Access} (added : w'.accesses = w.accesses ++ [a])
    (confined : Confined disk p w w') : ∀ lba ∈ a.lbas, Inside p lba := by
  obtain ⟨⟨more,same,inside⟩,_,_,_⟩ := confined
  rw [added,List.append_cancel_left_eq] at same
  exact (inside a (by simp [← same])).2

section
variable (ordered : p.1 ≤ p.2) (small : p.2.toNat < 2 ^ 63)
include ordered small

theorem virtual_disk_read_confined (w : World) (disk : Nat) (sector : Lba) (count : Word) (buffer : Bytes) :
    Confined disk p w (virtual_disk_read w disk p.1 sector count buffer).1 ↔ Within (p.2 - p.1 + 1) sector count := by
  rw [← lbas_inside ordered small disk]
  refine ⟨accesses_confined rfl,fun inside => ⟨⟨_,rfl,?_⟩,rfl,fun _ _ => rfl,fun _ _ _ _ => rfl⟩⟩
  intro a last
  rw [List.mem_singleton.1 last]
  exact ⟨rfl,inside⟩

theorem virtual_disk_write_confined (w : World) (disk : Nat) (sector : Lba) (count : Word) (buffer : Bytes) :
    Confined disk p w (virtual_disk_write w disk p.1 sector count buffer) ↔ Within (p.2 - p.1 + 1) sector count := by
  rw [← lbas_inside ordered small disk]
  refine ⟨accesses_confined rfl,fun inside => ⟨⟨_,rfl,?_⟩,rfl,fun k other => if_neg other,fun lba outside => ?_⟩⟩
  · intro a last
    rw [List.mem_singleton.1 last]
    exact ⟨rfl,inside⟩
  · have written : (virtual_disk_write w disk p.1 sector count buffer).contents disk =
        write_lbas (w.contents disk) (sector + p.1) count buffer := if_pos rfl
    rw [written]
    exact write_lbas_same _ disk _ _ _ fun member => outside (inside lba member)

/-- A command for a virtual disk is a request for it. -/
theorem command_confined {w w' : World} {cmd cmd' : Command} {size offset disk : Nat}
    (transfer : cmd.command = 1 ∨ cmd.command = 2)
    (driver : w.driver cmd.disk = some (.virtual_disk disk p.1 (p.2 - p.1 + 1)))
    (done : disk_file_write w cmd size offset = some (w',cmd')) :
    Confined disk p w w' ↔ Within (p.2 - p.1 + 1) cmd.sector cmd.sector_count := by
  simp only [disk_file_write,driver] at done
  by_cases refused : ¬ (sizeof_raw_disk_command = size ∧ offset = 0)
  · rw [if_pos refused] at done
    cases done
  · rw [if_neg refused] at done
    cases given : cmd.buffer with
    | none =>
      rw [given] at done
      rcases transfer with read | write
      · rw [if_pos read] at done
        cases done
      · rw [if_neg (by omega),if_pos write] at done
        cases done
    | some buffer =>
      rw [given] at done
      rcases transfer with read | write
      · rw [if_pos read] at done
        cases done
        exact virtual_disk_read_confined ordered small w disk cmd.sector cmd.sector_count buffer
      · rw [if_neg (by omega),if_pos write] at done
        cases done
        exact virtual_disk_write_confined ordered small w disk cmd.sector cmd.sector_count buffer

end

end

/-- No sector lies in the partition, the others and the table at once. -/
theorem pairwise_apart {d : Disk} {header entries : Bytes} (layout : Layout d header entries) {p q : Lba × Lba}
    (first : p ∈ partitions d header entries) (second : q ∈ partitions d header entries) (different : q ≠ p) {lba : Lba}
    (inside : Inside q lba) : ¬ Inside p lba := by
  have : Std.Symm fun a b : Lba × Lba => ∀ lba, Inside a lba → ¬ Inside b lba :=
    ⟨fun _ _ apart lba here there => apart lba there here⟩
  exact layout.disjoint.forall second first different lba inside

/-- A virtual disk that read_gpt registers stands for a partition. A request for it, at any later time, stays inside the partition
    exactly when it ends at or before the recorded size, and then it changes neither another partition nor the table. -/
theorem partition_confined {d : Disk} {header entries : Bytes} {registered : List (Lba × Lba)}
    (found : read_gpt d header entries = some registered) (layout : Layout d header entries) {lba_offset lba_size : Lba}
    (member : (lba_offset,lba_size) ∈ registered) (disk : Nat) :
    ∃ p ∈ partitions d header entries, lba_offset = p.1 ∧ lba_size.toNat = p.2.toNat - p.1.toNat + 1 ∧
      (∀ w sector count buffer,
        (Confined disk p w ((Driver.virtual_disk disk lba_offset lba_size).read w sector count buffer).1 ↔
          Within lba_size sector count) ∧
        (Confined disk p w ((Driver.virtual_disk disk lba_offset lba_size).write w sector count buffer) ↔
          Within lba_size sector count)) ∧
      (∀ w cmd size offset w' cmd', w.driver cmd.disk = some (.virtual_disk disk lba_offset lba_size) →
        cmd.command = 1 ∨ cmd.command = 2 → disk_file_write w cmd size offset = some (w',cmd') →
        (Confined disk p w w' ↔ Within lba_size cmd.sector cmd.sector_count)) ∧
      ∀ w w', Confined disk p w w' →
        (∀ q ∈ partitions d header entries, q ≠ p → ∀ lba, Inside q lba → Same (w.contents disk) (w'.contents disk) lba) ∧
        ∀ lba, InTable d header lba → Same (w.contents disk) (w'.contents disk) lba := by
  rw [registered_partitions found] at member
  obtain ⟨p,listed,same⟩ := List.mem_map.1 member
  cases same
  obtain ⟨ordered,end_⟩ := layout.ordered p listed
  have small : p.2.toNat < 2 ^ 63 := end_.trans d.small
  refine ⟨p,listed,rfl,size_toNat ordered small,fun w sector count buffer => ⟨?_,?_⟩,?_,?_⟩
  · exact virtual_disk_read_confined ordered small w disk sector count buffer
  · exact virtual_disk_write_confined ordered small w disk sector count buffer
  · intro w cmd size offset w' cmd' driver transfer done
    exact command_confined ordered small transfer driver done
  · intro w w' confined
    constructor
    · intro q other different lba inside
      exact confined.outside lba (pairwise_apart layout listed other different inside)
    · intro lba table
      exact confined.outside lba (layout.apart p listed lba table)

/-- A disk of 100 sectors with one partition, from sector 40 to sector 49. -/
def one_partition : Disk where
  bytes := storeBytes (storeBytes (storeBytes (storeBytes (fun _ => 0) 512 signature) (512 + 72) [2,0,0,0,0,0,0,0,1,0,0,0,128,0,0,0])
    1024 [1]) (1024 + 32) [40,0,0,0,0,0,0,0,49,0,0,0,0,0,0,0]
  sectors := 100
  small := by decide

def zeros : Bytes := fun _ => 0

theorem one_partition_found : read_gpt one_partition zeros zeros = some [(40,10)] := by decide

theorem one_partition_listed : partitions one_partition zeros zeros = [(40,49)] := by decide

theorem one_partition_layout : Layout one_partition zeros zeros where
  ordered := by
    rw [one_partition_listed,List.forall_mem_singleton]
    decide
  disjoint := by
    rw [one_partition_listed]
    exact List.pairwise_singleton _ _
  apart := by
    rw [one_partition_listed]
    intro p member lba table inside
    rw [List.mem_singleton.1 member] at inside
    have count : (word_at (read_sectors one_partition 1 1 zeros) 84 * word_at (read_sectors one_partition 1 1 zeros) 80).toNat / 512 + 1 =
        1 := by decide
    have start : lba_at (read_sectors one_partition 1 1 zeros) 72 = 2 := by decide
    rcases table with first | ⟨i,less,later⟩
    · rw [first] at inside
      exact absurd inside.1 (by decide)
    · rw [count] at less
      rw [start,Nat.lt_one_iff.1 less] at later
      rw [later] at inside
      exact absurd inside.1 (by decide)

/-- A world with that disk and the virtual disk of its partition. -/
def small_world : World := ⟨fun _ => one_partition,[.virtual_disk 0 40 10,.physical_disk 0 true],[]⟩

/-- Its last sector is written, and only the partition is touched. -/
theorem partition_confined_ten : ∃ p ∈ partitions one_partition zeros zeros, (40 : Lba) = p.1 ∧
    Confined 0 p small_world ((Driver.virtual_disk 0 40 10).write small_world 9 1 zeros) := by
  obtain ⟨p,listed,first,_,requests,_⟩ :=
    partition_confined one_partition_found one_partition_layout (List.mem_singleton.2 rfl) 0
  exact ⟨p,listed,first,(requests small_world 9 1 zeros).2.2 (.inr (by decide))⟩

/-- The sector behind it is written as well. -/
theorem sector_behind : ¬ ∀ (d : Disk) (header entries : Bytes) (registered : List (Lba × Lba)) (lba_offset lba_size : Lba) (disk : Nat),
    read_gpt d header entries = some registered → Layout d header entries → (lba_offset,lba_size) ∈ registered →
    ∃ p ∈ partitions d header entries, lba_offset = p.1 ∧ ∀ w sector count buffer,
      Confined disk p w ((Driver.virtual_disk disk lba_offset lba_size).write w sector count buffer) := by
  intro all
  obtain ⟨p,listed,_,confined⟩ := all one_partition zeros zeros _ 40 10 0 one_partition_found one_partition_layout
    (List.mem_singleton.2 rfl)
  rw [one_partition_listed] at listed
  rw [List.mem_singleton.1 listed] at confined
  have inside := accesses_confined (a := ⟨0,50,1⟩) rfl (confined small_world 10 1 zeros) 50 (by decide)
  exact absurd inside.2 (by decide)

/-- A read or a write of some disk. -/
structure Request where
  disk_id : Nat
  write : Bool
  sector : Lba
  count : Word
  buffer : Bytes

def perform (w : World) (r : Request) : Option World :=
  (w.disks[r.disk_id]?).map fun driver =>
    if r.write then driver.write w r.sector r.count r.buffer else (driver.read w r.sector r.count r.buffer).1

def requests : System World Request where
  start _ := True
  step w r w' := perform w r = some w'

/-- The request is for a partition apart from `q`, and ends at or before its recorded size. -/
def Elsewhere (disk : Nat) (q : Lba × Lba) (w : World) (r : Request) : Prop :=
  ∃ k p, w.disks[r.disk_id]? = some (.virtual_disk k p.1 (p.2 - p.1 + 1)) ∧ p.1 ≤ p.2 ∧ p.2.toNat < 2 ^ 63 ∧
    Within (p.2 - p.1 + 1) r.sector r.count ∧ (k = disk → ∀ lba, Inside q lba → ¬ Inside p lba)

theorem perform_confined {disk : Nat} {q : Lba × Lba} {w w' : World} {r : Request} (elsewhere : Elsewhere disk q w r)
    (done : perform w r = some w') : ∀ lba, Inside q lba → Same (w.contents disk) (w'.contents disk) lba := by
  obtain ⟨k,p,driver,ordered,small,within,apart⟩ := elsewhere
  rw [perform,driver] at done
  have confined : Confined k p w w' := by
    cases done
    by_cases write : r.write = true
    · dsimp only
      rw [if_pos write]
      exact (virtual_disk_write_confined ordered small w k r.sector r.count r.buffer).2 within
    · dsimp only
      rw [if_neg write]
      exact (virtual_disk_read_confined ordered small w k r.sector r.count r.buffer).2 within
  intro lba inside
  by_cases same : k = disk
  · rw [← same]
    exact confined.outside lba (apart same lba inside)
  · rw [confined.others disk (Ne.symm same)]
    exact fun _ _ => rfl

/-- Along every run of requests to other partitions the sectors of a partition keep their contents. -/
theorem partition_kept {disk : Nat} {q : Lba × Lba} {as : List Request} {w w' : World}
    (run : Run (guarded requests (Elsewhere disk q)) as w w') :
    ∀ lba, Inside q lba → Same (w.contents disk) (w'.contents disk) lba := by
  refine @run_invariant _ _ _ (fun v => ∀ lba, Inside q lba → Same (w.contents disk) (v.contents disk) lba) ?_ _ _ _ run
    (fun _ _ _ _ => rfl)
  intro u r v kept step lba inside i low
  rw [perform_confined step.2 step.1 lba inside i low]
  exact kept lba inside i low

/-- The disk's last sectors stay when the last one of its partition is written. -/
theorem partition_kept_last : ∃ w, Run (guarded requests (Elsewhere 0 (60,69))) [⟨0,true,9,1,zeros⟩] small_world w ∧
    ∀ lba, Inside (60,69) lba → Same (small_world.contents 0) (w.contents 0) lba := by
  have elsewhere : Elsewhere 0 (60,69) small_world ⟨0,true,9,1,zeros⟩ := by
    refine ⟨0,(40,49),rfl,by decide,by decide,.inr (by decide),fun _ lba inside other => ?_⟩
    have low : (60 : Lba) ≤ lba := inside.1
    have high : lba ≤ 49 := other.2
    bv_omega
  have run : Run (guarded requests (Elsewhere 0 (60,69))) [⟨0,true,9,1,zeros⟩] small_world _ := .step ⟨rfl,elsewhere⟩ (.done _)
  exact ⟨_,run,partition_kept run⟩

end MicroOS.Partitions

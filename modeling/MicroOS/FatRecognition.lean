import MicroOS.Memory

/-!
The main theorem is `fat32_recognised`: for which sectors the test of fatdrv.c agrees with the volume's size in the integers.
-/
namespace MicroOS.FatRecognition
open Memory

def read_le16 (raw : Bytes) (ptr : Nat) : Nat := (raw ptr).toNat + 2 ^ 8 * (raw (ptr + 1)).toNat
def read_le32 (raw : Bytes) (ptr : Nat) : Nat := load32 raw ptr

/-- `BPB_t`, which is packed, and the two fields behind it that FAT32 has. -/
structure BPB_t where
  BS_jump_boot : UInt8
  bytes_per_sector : Nat
  sectors_per_cluster : Nat
  reserved_sector_count : Nat
  num_fats : Nat
  root_entry_count : Nat
  total_sectors_16 : Nat
  media : Nat
  fat_size_16 : Nat
  total_sectors_32 : Nat
  fat_size_32 : Nat
  root_cluster : Nat

def bpb_of (raw : Bytes) : BPB_t where
  BS_jump_boot := raw 0
  bytes_per_sector := read_le16 raw 11
  sectors_per_cluster := (raw 13).toNat
  reserved_sector_count := read_le16 raw 14
  num_fats := (raw 16).toNat
  root_entry_count := read_le16 raw 17
  total_sectors_16 := read_le16 raw 19
  media := (raw 21).toNat
  fat_size_16 := read_le16 raw 22
  total_sectors_32 := read_le32 raw 32
  fat_size_32 := read_le32 raw 36
  root_cluster := read_le32 raw 44

/-- "FAT32   " -/
def label : List UInt8 := [0x46,0x41,0x54,0x33,0x32,0x20,0x20,0x20]

def BPB_t.total_sectors (bpb : BPB_t) : Nat := if bpb.total_sectors_32 ≠ 0 then bpb.total_sectors_32 else bpb.total_sectors_16

/-- Products, sums and differences of `uint32_t`. -/
def BPB_t.data_sectors (bpb : BPB_t) : Nat :=
  wrap (bpb.total_sectors + 2 ^ 32 - wrap (bpb.reserved_sector_count + wrap (bpb.num_fats * bpb.fat_size_32)))

def is_fat32_bpb (sector : Option Bytes) : Bool :=
  match sector with
  | none => false
  | some raw =>
    let bpb := bpb_of raw
    let sector_size := bpb.bytes_per_sector
    let cluster_size := bpb.sectors_per_cluster
    if sector_size = 0 then false
    else if sector_size &&& (sector_size - 1) ≠ 0 ∨ sector_size < 512 ∨ sector_size > 4096 then false
    else if cluster_size = 0 ∨ cluster_size &&& (cluster_size - 1) ≠ 0 then false
    else if wrap (sector_size * cluster_size) > 32 * 1024 then false
    else if bpb.reserved_sector_count = 0 then false
    else if bpb.num_fats = 0 ∨ bpb.num_fats > 2 then false
    else if bpb.root_entry_count ≠ 0 then false
    else if bpb.total_sectors = 0 then false
    else if bpb.fat_size_16 ≠ 0 then false
    else if bpb.fat_size_32 = 0 then false
    else if bpb.root_cluster < 2 then false
    else if bpb.data_sectors = 0 then false
    else
      let cluster_count := bpb.data_sectors / cluster_size
      if cluster_count < 65525 then false
      else if cluster_count > 0x0FFFFFF5 then false
      else if ¬ (bpb.BS_jump_boot = 0xEB ∨ bpb.BS_jump_boot = 0xE9 ∨ bpb.BS_jump_boot = 0xE8) then false
      else if ¬ (raw 510 = 0x55 ∧ raw 511 = 0xAA) ∧ slice raw 82 8 ≠ label then false
      else if bpb.media ≠ 0xF0 ∧ bpb.media < 0xF8 then false
      else true

/-- The reserved sectors and the tables, in the integers. -/
def BPB_t.system_sectors (bpb : BPB_t) : Nat := bpb.reserved_sector_count + bpb.num_fats * bpb.fat_size_32

/-- The tests that do not concern the data area. -/
structure Plausible (raw : Bytes) (bpb : BPB_t) : Prop where
  sector_size : 512 ≤ bpb.bytes_per_sector ∧ bpb.bytes_per_sector ≤ 4096
  sector_power : bpb.bytes_per_sector &&& (bpb.bytes_per_sector - 1) = 0
  cluster_size : 0 < bpb.sectors_per_cluster
  cluster_power : bpb.sectors_per_cluster &&& (bpb.sectors_per_cluster - 1) = 0
  cluster_bytes : bpb.bytes_per_sector * bpb.sectors_per_cluster ≤ 32 * 1024
  reserved : 0 < bpb.reserved_sector_count
  fats : 1 ≤ bpb.num_fats ∧ bpb.num_fats ≤ 2
  root_entries : bpb.root_entry_count = 0
  total_sectors : 0 < bpb.total_sectors
  fat_size_16 : bpb.fat_size_16 = 0
  fat_size_32 : 0 < bpb.fat_size_32
  root_cluster : 2 ≤ bpb.root_cluster
  jump : bpb.BS_jump_boot = 0xEB ∨ bpb.BS_jump_boot = 0xE9 ∨ bpb.BS_jump_boot = 0xE8
  signature : raw 510 = 0x55 ∧ raw 511 = 0xAA ∨ slice raw 82 8 = label
  media : bpb.media = 0xF0 ∨ 0xF8 ≤ bpb.media

/-- The volume has a data area with as many clusters as a FAT32 volume may have. -/
structure Sized (bpb : BPB_t) : Prop where
  room : bpb.system_sectors < bpb.total_sectors
  enough : 65525 ≤ (bpb.total_sectors - bpb.system_sectors) / bpb.sectors_per_cluster
  few : (bpb.total_sectors - bpb.system_sectors) / bpb.sectors_per_cluster ≤ 0x0FFFFFF5

/-- The number of clusters lies in the range of FAT32. -/
def InRange (data_sectors cluster_size : Nat) : Prop :=
  65525 ≤ data_sectors / cluster_size ∧ data_sectors / cluster_size ≤ 0x0FFFFFF5

theorem read_le16_lt (raw : Bytes) (ptr : Nat) : read_le16 raw ptr < 2 ^ 16 := by
  have low := (raw ptr).toNat_lt
  have high := (raw (ptr + 1)).toNat_lt
  unfold read_le16
  omega

theorem read_le32_lt (raw : Bytes) (ptr : Nat) : read_le32 raw ptr < 2 ^ 32 := by
  have b0 := (raw ptr).toNat_lt
  have b1 := (raw (ptr + 1)).toNat_lt
  have b2 := (raw (ptr + 2)).toNat_lt
  have b3 := (raw (ptr + 3)).toNat_lt
  unfold read_le32 load32
  omega

theorem total_sectors_lt (raw : Bytes) : (bpb_of raw).total_sectors < 2 ^ 32 := by
  have wide := read_le32_lt raw 32
  have narrow := read_le16_lt raw 19
  by_cases none : read_le32 raw 32 = 0
  · have total : (bpb_of raw).total_sectors = read_le16 raw 19 := if_neg (not_not.2 none)
    omega
  · have total : (bpb_of raw).total_sectors = read_le32 raw 32 := if_pos none
    omega

theorem passed {p : Prop} [Decidable p] {b : Bool} : (if p then false else b) = true ↔ ¬ p ∧ b = true := by
  by_cases fails : p <;> simp [fails]

theorem cluster_bytes_wrap (raw : Bytes) (small : (bpb_of raw).bytes_per_sector ≤ 4096) :
    wrap ((bpb_of raw).bytes_per_sector * (bpb_of raw).sectors_per_cluster) =
      (bpb_of raw).bytes_per_sector * (bpb_of raw).sectors_per_cluster := by
  have cluster : (bpb_of raw).sectors_per_cluster < 2 ^ 8 := (raw 13).toNat_lt
  have bound := Nat.mul_le_mul small cluster.le
  exact wrap_of_lt (by omega)

/-- The test, with the data area as the code computes it. -/
theorem is_fat32_bpb_iff (raw : Bytes) :
    is_fat32_bpb (some raw) = true ↔
      Plausible raw (bpb_of raw) ∧ InRange (bpb_of raw).data_sectors (bpb_of raw).sectors_per_cluster := by
  have bytes := cluster_bytes_wrap raw
  simp only [is_fat32_bpb,passed,InRange]
  generalize bpb_of raw = bpb at bytes ⊢
  constructor
  · rintro ⟨_,size,cluster,large,reserved,fats,root,total,old,tables,first,_,enough,few,jump,signature,media,_⟩
    rw [bytes (by omega)] at large
    refine ⟨⟨by omega,by omega,by omega,by omega,by omega,by omega,by omega,by omega,by omega,by omega,by omega,by omega,
      not_not.1 jump,?_,by omega⟩,by omega,by omega⟩
    by_contra missing
    exact signature ⟨fun both => missing (.inl both),fun same => missing (.inr same)⟩
  · rintro ⟨credible,enough,few⟩
    have room : bpb.data_sectors ≠ 0 := by
      intro empty
      rw [empty,Nat.zero_div] at enough
      omega
    obtain ⟨size,power,cluster,cluster_power,large,reserved,fats,root,total,old,tables,first,jump,signature,media⟩ := credible
    rw [bytes size.2]
    refine ⟨by omega,by omega,by omega,by omega,by omega,by omega,by omega,by omega,by omega,by omega,by omega,room,by omega,
      by omega,not_not.2 jump,?_,by omega,trivial⟩
    rintro ⟨unsigned,other⟩
    exact signature.elim unsigned other

/-- The system area is larger than the volume, and the difference, taken modulo 2^32, looks like a FAT32 data area. -/
def Wraps (bpb : BPB_t) : Prop :=
  ∃ k, 0 < k ∧ bpb.system_sectors + 65525 * bpb.sectors_per_cluster ≤ bpb.total_sectors + k * 2 ^ 32 ∧
    bpb.total_sectors + k * 2 ^ 32 < bpb.system_sectors + 2 ^ 32 ∧
    bpb.total_sectors + k * 2 ^ 32 < bpb.system_sectors + 0x0FFFFFF6 * bpb.sectors_per_cluster

/-- A difference of words is the difference of the numbers up to a multiple of 2^32. -/
theorem wrap_sub {t : Nat} (word : t < 2 ^ 32) (s : Nat) : ∃ k, wrap (t + 2 ^ 32 - wrap s) + s = t + k * 2 ^ 32 := by
  have small := wrap_lt s
  have parts : 2 ^ 32 * (s / 2 ^ 32) + wrap s = s := Nat.div_add_mod s (2 ^ 32)
  by_cases less : t < wrap s
  · refine ⟨s / 2 ^ 32 + 1,?_⟩
    rw [wrap_of_lt (by omega)]
    omega
  · refine ⟨s / 2 ^ 32,?_⟩
    have once : wrap (t + 2 ^ 32 - wrap s) = t - wrap s := by
      unfold wrap at less ⊢
      omega
    omega

theorem data_sectors_spec {bpb : BPB_t} (total : bpb.total_sectors < 2 ^ 32) :
    bpb.data_sectors < 2 ^ 32 ∧ ∃ k, bpb.data_sectors + bpb.system_sectors = bpb.total_sectors + k * 2 ^ 32 := by
  have system : wrap (bpb.reserved_sector_count + wrap (bpb.num_fats * bpb.fat_size_32)) = wrap bpb.system_sectors :=
    Nat.add_mod_mod _ _ _
  refine ⟨wrap_lt _,?_⟩
  rw [BPB_t.data_sectors,system]
  exact wrap_sub total bpb.system_sectors

theorem inRange_iff {data cluster : Nat} (some : 0 < cluster) :
    InRange data cluster ↔ 65525 * cluster ≤ data ∧ data < 0x0FFFFFF6 * cluster := by
  have below := Nat.div_lt_iff_lt_mul some (x := data) (y := 0x0FFFFFF6)
  rw [InRange,Nat.le_div_iff_mul_le some,← below]
  omega

/-- Where the volume is larger than its system area, the computed data area is the true one. -/
theorem data_sectors_room {bpb : BPB_t} (total : bpb.total_sectors < 2 ^ 32)
    (room : bpb.system_sectors < bpb.total_sectors) : bpb.data_sectors = bpb.total_sectors - bpb.system_sectors := by
  obtain ⟨small,k,same⟩ := data_sectors_spec total
  omega

/-- The computed data area is in range when the true one is, and when the difference wraps around. -/
theorem data_sectors_inRange {bpb : BPB_t} (total : bpb.total_sectors < 2 ^ 32) (some : 0 < bpb.sectors_per_cluster) :
    InRange bpb.data_sectors bpb.sectors_per_cluster ↔ Sized bpb ∨ Wraps bpb := by
  obtain ⟨small,k,same⟩ := data_sectors_spec total
  by_cases room : bpb.system_sectors < bpb.total_sectors
  · rw [data_sectors_room total room]
    constructor
    · rintro ⟨enough,few⟩
      exact .inl ⟨room,enough,few⟩
    · rintro (sized | ⟨k',first,_,near,_⟩)
      · exact ⟨sized.enough,sized.few⟩
      · omega
  · rw [inRange_iff some]
    constructor
    · rintro ⟨enough,few⟩
      exact .inr ⟨k,by omega,by omega,by omega,by omega⟩
    · rintro (sized | ⟨k',first,enough,near,few⟩)
      · exact absurd sized.room room
      · have only : k' = k := by omega
        subst only
        omega

theorem wraps_not_sized {bpb : BPB_t} (wraps : Wraps bpb) : ¬ Sized bpb := by
  obtain ⟨k,first,_,near,_⟩ := wraps
  intro sized
  have room := sized.room
  omega

/-- The test accepts exactly the credible sectors of the right size, unless the difference wraps around into the range. -/
theorem fat32_recognised (raw : Bytes) :
    (is_fat32_bpb (some raw) = true ↔ Sized (bpb_of raw) ∧ Plausible raw (bpb_of raw)) ↔
      ¬ (Plausible raw (bpb_of raw) ∧ Wraps (bpb_of raw)) := by
  rw [is_fat32_bpb_iff]
  by_cases credible : Plausible raw (bpb_of raw)
  · have range := data_sectors_inRange (total_sectors_lt raw) credible.cluster_size
    have apart := @wraps_not_sized (bpb_of raw)
    tauto
  · tauto

/-- A sector with tables of 2^31 sectors each, of which there are two, on a volume of 70000 sectors. -/
def huge_tables : Bytes := storeBytes (storeBytes (fun _ => 0) 0 [0xEB,0,0,0,0,0,0,0,0,0,0,0,2,1,32,0,2,0,0,0,0,0xF8,0,0,0,0,0,0,0,0,0,
  0,0x70,0x11,1,0,0,0,0,0x80,0,0,0,0,2]) 510 [0x55,0xAA]

/-- Twice 2^31 is 0. -/
theorem huge_tables_accepted : ¬ ∀ raw, is_fat32_bpb (some raw) = true ↔ Sized (bpb_of raw) ∧ Plausible raw (bpb_of raw) := by
  intro all
  have sized := ((all huge_tables).1 (by decide)).1
  exact absurd sized.room (by decide)

end MicroOS.FatRecognition

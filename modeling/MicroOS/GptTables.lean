import MicroOS.Gpt

/-!
What the tool keeps on a disk: a header with fixed places and a table whose first entries
are the partitions (`Formatted`). A new table is empty (`create_gpt_spec`), and a new
partition goes behind the others to the place that the list of them leaves (`add_refines`).
-/
namespace MicroOS.Gpt
open Memory Runs
open Initrd (load64)
open SafMake (store64 load64_stored)

/-- The table of a list of entries. -/
def table (parts : List Entry) : Bytes := fun i => (parts[i / 128]?).elim 0 fun e => e.bytes.getD (i % 128) 0

/-- The values that a header keeps, on a disk of `n` sectors. -/
structure Layout (h : Header) (n : Nat) : Prop where
  header_size : h.header_size = 92
  my_lba : h.my_lba = 1
  alternate_lba : h.alternate_lba = BitVec.ofNat 64 (n - 1)
  first_usable_lba : h.first_usable_lba = 34
  last_usable_lba : h.last_usable_lba = BitVec.ofNat 64 (n - 34)
  partition_entry_lba : h.partition_entry_lba = 2
  number_of_partition_entries : h.number_of_partition_entries = 128
  size_of_partition_entry : h.size_of_partition_entry = 128

/-- An entry of the tool, on a disk of `n` sectors. -/
structure Fit (e : Entry) (n : Nat) : Prop where
  aligned : e.starting_lba.toNat % 2048 = 0
  nonzero : e.starting_lba ≠ 0
  inside : e.ending_lba ≤ BitVec.ofNat 64 (n - 34)
  variant : e.unique_partition_guid.2.toNat % 256 ≠ 0
  plain : 0 ∉ e.partition_name

def HasHeader (d : Disk) (h : Header) : Prop := ∀ i < 512, d.bytes (512 + i) = padded h.bytes i

/-- On the smallest disk the second header stands in the last sector of the table. -/
def HasTable (d : Disk) (parts : List Entry) : Prop :=
  ∀ i < 16384, (35 ≤ d.sectors ∨ i < 15872) → d.bytes (1024 + i) = table parts i

structure Formatted (d : Disk) (parts : List Entry) : Prop where
  enough : 34 ≤ d.sectors
  header : ∃ h, HasHeader d h ∧ Layout h d.sectors
  table : HasTable d parts
  count : parts.length ≤ 128
  fit : ∀ e ∈ parts, Fit e d.sectors

theorem lba_at_le64 {m : Bytes} {o : Nat} {v : Lba} (bytes : ∀ k < 8, m (o + k) = (le64 v).getD k 0) : lba_at m o = v := by
  have loaded : load64 m o = v.toNat := by
    refine @load64_stored m m o v.toNat v.isLt fun i low high => ?_
    obtain ⟨k,rfl⟩ := Nat.exists_eq_add_of_le low
    rw [bytes k (by omega),store64,if_pos (by omega),Nat.add_sub_cancel_left]
    have small : k < 8 := by omega
    interval_cases k <;> simp [le64]
  rw [lba_at,loaded,BitVec.ofNat_toNat,BitVec.setWidth_eq]

theorem word_at_le32 {m : Bytes} {o : Nat} {v : Word} (bytes : ∀ k < 4, m (o + k) = (le32 v).getD k 0) : word_at m o = v := by
  have loaded : load32 m o = v.toNat := by
    rw [← load32_store32 m o v.isLt]
    refine load32_agree fun i low high => ?_
    obtain ⟨k,rfl⟩ := Nat.exists_eq_add_of_le low
    rw [bytes k (by omega),store32,if_pos (by omega),Nat.add_sub_cancel_left]
    have small : k < 4 := by omega
    interval_cases k <;> simp [le32]
  rw [word_at,loaded,BitVec.ofNat_toNat,BitVec.setWidth_eq]

theorem lba_at_agree {m m' : Bytes} {o : Nat} (same : ∀ k < 8, m' (o + k) = m (o + k)) : lba_at m' o = lba_at m o := by
  unfold lba_at load64
  rw [same 1 (by decide),same 2 (by decide),same 3 (by decide),same 4 (by decide),same 5 (by decide),same 6 (by decide),
    same 7 (by decide),← Nat.add_zero o,same 0 (by decide)]

/-- A number begins with its low half. -/
theorem word_at_eq (m : Bytes) (o : Nat) : word_at m o = (lba_at m o).setWidth 32 := by
  apply BitVec.eq_of_toNat_eq
  have b0 := (m o).toNat_lt
  have b1 := (m (o + 1)).toNat_lt
  have b2 := (m (o + 2)).toNat_lt
  have b3 := (m (o + 3)).toNat_lt
  rw [word_at,lba_at,BitVec.toNat_setWidth,BitVec.toNat_ofNat,BitVec.toNat_ofNat,load32,load64]
  omega

/-- A field of a structure behind the fields before it. -/
theorem flatten_field {fields : List (List UInt8)} {n k o : Nat} {field : List UInt8} (here : fields[n]? = some field)
    (before : (fields.take n).flatten.length = o) (inside : k < field.length) :
    padded fields.flatten (o + k) = field.getD k 0 := by
  induction fields generalizing n o with
  | nil => simp at here
  | cons first rest ih =>
    cases n with
    | zero =>
      obtain rfl : first = field := by simpa using here
      obtain rfl : o = 0 := by simpa using before.symm
      rw [Nat.zero_add,padded,List.flatten_cons,List.getD_eq_getElem?_getD,List.getElem?_append_left inside,
        List.getD_eq_getElem?_getD]
    | succ n =>
      rw [List.take_succ_cons,List.flatten_cons,List.length_append] at before
      have later := ih (by simpa using here) rfl
      rw [← later,← before,padded,padded,List.flatten_cons,Nat.add_assoc,List.getD_eq_getElem?_getD,
        List.getElem?_append_right (by omega),Nat.add_sub_cancel_left,List.getD_eq_getElem?_getD]

theorem header_length (h : Header) : h.bytes.length = 92 := rfl

theorem header_read {m : Bytes} {h : Header} (bytes : ∀ i < 92, m i = padded h.bytes i) : Header.read m = h := by
  have lba (o : Nat) (v : Lba) (inside : o + 8 ≤ 92) (field : ∀ k < 8, padded h.bytes (o + k) = (le64 v).getD k 0) :
      lba_at m o = v :=
    lba_at_le64 fun k small => (bytes (o + k) (by omega)).trans (field k small)
  have word (o : Nat) (v : Word) (inside : o + 4 ≤ 92) (field : ∀ k < 4, padded h.bytes (o + k) = (le32 v).getD k 0) :
      word_at m o = v :=
    word_at_le32 fun k small => (bytes (o + k) (by omega)).trans (field k small)
  unfold Header.read
  rw [word 8 h.revision (by decide) fun _ small => @flatten_field h.fields 1 _ 8 _ rfl rfl small,
    word 12 h.header_size (by decide) fun _ small => @flatten_field h.fields 2 _ 12 _ rfl rfl small,
    word 16 h.crc32 (by decide) fun _ small => @flatten_field h.fields 3 _ 16 _ rfl rfl small,
    word 20 h.reserved0 (by decide) fun _ small => @flatten_field h.fields 4 _ 20 _ rfl rfl small,
    lba 24 h.my_lba (by decide) fun _ small => @flatten_field h.fields 5 _ 24 _ rfl rfl small,
    lba 32 h.alternate_lba (by decide) fun _ small => @flatten_field h.fields 6 _ 32 _ rfl rfl small,
    lba 40 h.first_usable_lba (by decide) fun _ small => @flatten_field h.fields 7 _ 40 _ rfl rfl small,
    lba 48 h.last_usable_lba (by decide) fun _ small => @flatten_field h.fields 8 _ 48 _ rfl rfl small,
    lba 56 h.disk_guid.1 (by decide) fun _ small => @flatten_field h.fields 9 _ 56 _ rfl rfl small,
    lba 64 h.disk_guid.2 (by decide) fun _ small => @flatten_field h.fields 10 _ 64 _ rfl rfl small,
    lba 72 h.partition_entry_lba (by decide) fun _ small => @flatten_field h.fields 11 _ 72 _ rfl rfl small,
    word 80 h.number_of_partition_entries (by decide) fun _ small => @flatten_field h.fields 12 _ 80 _ rfl rfl small,
    word 84 h.size_of_partition_entry (by decide) fun _ small => @flatten_field h.fields 13 _ 84 _ rfl rfl small,
    word 88 h.partition_entry_array_crc32 (by decide) fun _ small => @flatten_field h.fields 14 _ 88 _ rfl rfl small]

/-- The 64-bit words of an entry: two of the type, two of the GUID, the two places, the
    attributes, and nine with four characters each. -/
def Entry.word (e : Entry) (c : Nat) : Lba := lba_at (padded e.bytes) (8 * c)

/-- The words of a table. -/
def word_of (parts : List Entry) (q : Nat) : Lba := (parts[q / 16]?).elim 0 fun e => e.word (q % 16)

theorem entry_length (e : Entry) : e.bytes.length = 128 := by simp [Entry.bytes,Entry.fields,le64,le16]

theorem lba_at_zero {m : Bytes} {o : Nat} (zeros : ∀ k < 8, m (o + k) = 0) : lba_at m o = 0 :=
  lba_at_le64 fun k small => by
    rw [zeros k small]
    interval_cases k <;> rfl

theorem lba_at_table (parts : List Entry) (q : Nat) : lba_at (table parts) (8 * q) = word_of parts q := by
  have place (k : Nat) (small : k < 8) : (8 * q + k) / 128 = q / 16 ∧ (8 * q + k) % 128 = 8 * (q % 16) + k := by omega
  unfold word_of
  cases here : parts[q / 16]? with
  | none =>
    refine lba_at_zero fun k small => ?_
    rw [table,(place k small).1,here]
    rfl
  | some e =>
    simp only [Option.elim,Entry.word]
    unfold lba_at load64
    have byte (k : Nat) (small : k < 8) : table parts (8 * q + k) = padded e.bytes (8 * (q % 16) + k) := by
      rw [table,(place k small).1,(place k small).2,here]
      rfl
    rw [byte 1 (by decide),byte 2 (by decide),byte 3 (by decide),byte 4 (by decide),byte 5 (by decide),byte 6 (by decide),
      byte 7 (by decide),← Nat.add_zero (8 * q),byte 0 (by decide)]
    rfl

section
variable (e : Entry)

theorem word_type : e.word 0 = e.partition_type_guid.1 :=
  lba_at_le64 fun _ small => @flatten_field e.fields 0 _ 0 _ rfl rfl small

theorem word_guid : e.word 3 = e.unique_partition_guid.2 :=
  lba_at_le64 fun _ small => @flatten_field e.fields 3 _ 24 _ rfl rfl small

theorem word_start : e.word 4 = e.starting_lba :=
  lba_at_le64 fun _ small => @flatten_field e.fields 4 _ 32 _ rfl rfl small

theorem word_end : e.word 5 = e.ending_lba :=
  lba_at_le64 fun _ small => @flatten_field e.fields 5 _ 40 _ rfl rfl small

/-- The characters of a name, two bytes each. -/
theorem name_field (f : Nat → Nat) {n i : Nat} (inside : i < n) :
    ((List.range n).flatMap fun i => le16 (f i)).getD (2 * i) 0 = .ofNat (f i) ∧
      ((List.range n).flatMap fun i => le16 (f i)).getD (2 * i + 1) 0 = .ofNat (f i / 256) := by
  have length (n : Nat) : ((List.range n).flatMap fun i => le16 (f i)).length = 2 * n := by
    induction n with
    | zero => rfl
    | succ n ih =>
      rw [List.range_succ,List.flatMap_append,List.length_append,ih]
      rfl
  induction n with
  | zero => omega
  | succ n ih =>
    rw [List.range_succ,List.flatMap_append,List.getD_eq_getElem?_getD,List.getD_eq_getElem?_getD]
    by_cases last : i = n
    · rw [last,List.getElem?_append_right (by rw [length]),List.getElem?_append_right (by rw [length]; omega),length,
        Nat.sub_self,Nat.add_sub_cancel_left]
      exact ⟨rfl,rfl⟩
    · rw [List.getElem?_append_left (by rw [length]; omega),List.getElem?_append_left (by rw [length]; omega),
        ← List.getD_eq_getElem?_getD,← List.getD_eq_getElem?_getD]
      exact ih (by omega)

/-- The last four characters of a name. -/
theorem word_name : (e.word 15).toNat = (e.partition_name.getD 32 0).toNat + 2 ^ 16 * (e.partition_name.getD 33 0).toNat +
    2 ^ 32 * (e.partition_name.getD 34 0).toNat + 2 ^ 48 * (e.partition_name.getD 35 0).toNat := by
  have char (i : Nat) (small : i < 4) : padded e.bytes (120 + 2 * i) = e.partition_name.getD (32 + i) 0 ∧
      padded e.bytes (120 + (2 * i + 1)) = 0 := by
    obtain ⟨low,high⟩ := @name_field (fun i => (e.partition_name.getD i 0).toNat) 36 (32 + i) (by omega)
    have long : ((List.range 36).flatMap fun i => le16 (e.partition_name.getD i 0).toNat).length = 72 := by
      simp [List.length_flatMap,le16]
    have first := @flatten_field e.fields 7 (2 * (32 + i)) 56 _ rfl rfl (by rw [long]; omega)
    have second := @flatten_field e.fields 7 (2 * (32 + i) + 1) 56 _ rfl rfl (by rw [long]; omega)
    have below := (e.partition_name.getD (32 + i) 0).toNat_lt
    constructor
    · rw [show 120 + 2 * i = 56 + 2 * (32 + i) by omega]
      exact first.trans (low.trans UInt8.ofNat_toNat)
    · rw [show 120 + (2 * i + 1) = 56 + (2 * (32 + i) + 1) by omega]
      refine second.trans (high.trans ?_)
      rw [Nat.div_eq_of_lt below]
      rfl
  have byte (i : Nat) (small : i < 4) : (padded e.bytes (120 + 2 * i)).toNat = (e.partition_name.getD (32 + i) 0).toNat ∧
      (padded e.bytes (120 + (2 * i + 1))).toNat = 0 :=
    ⟨congrArg _ (char i small).1,congrArg UInt8.toNat (char i small).2⟩
  have c0 := byte 0 (by decide)
  have c1 := byte 1 (by decide)
  have c2 := byte 2 (by decide)
  have c3 := byte 3 (by decide)
  simp only [Nat.mul_zero,Nat.mul_one,Nat.reduceMul,Nat.reduceAdd] at c0 c1 c2 c3
  have b0 := (e.partition_name.getD 32 0).toNat_lt
  have b1 := (e.partition_name.getD 33 0).toNat_lt
  have b2 := (e.partition_name.getD 34 0).toNat_lt
  have b3 := (e.partition_name.getD 35 0).toNat_lt
  rw [Entry.word,lba_at,BitVec.toNat_ofNat,load64]
  simp only [Nat.reduceMul,Nat.reduceAdd]
  rw [c0.1,c0.2,c1.1,c1.2,c2.1,c2.2,c3.1,c3.2]
  omega

end

variable {d : Disk} {lba : Lba}

theorem write_inside {count j : Nat} {buffer : Bytes} (low : 512 * lba.toNat ≤ j)
    (high : j < 512 * (lba.toNat + count)) (within : j / 512 < d.sectors) :
    (write_sectors d lba count buffer).bytes j = buffer (j - 512 * lba.toNat) := if_pos ⟨low,high,within⟩

theorem write_outside {count j : Nat} {buffer : Bytes} (outside : j < 512 * lba.toNat ∨ 512 * (lba.toNat + count) ≤ j) :
    (write_sectors d lba count buffer).bytes j = d.bytes j := if_neg (by omega)

theorem toNat_place {k : Nat} : (BitVec.ofNat 64 (d.sectors - k)).toNat = d.sectors - k := by
  have := d.small
  rw [BitVec.toNat_ofNat]
  omega

theorem table_nil (i : Nat) : table [] i = 0 := rfl

/-- The writes that both calls end with. -/
theorem stored_formatted {d : Disk} {parts : List Entry} {entries : Bytes} {primary secondary : Header} {place : Lba}
    (enough : 34 ≤ d.sectors) (layout : Layout primary d.sectors)
    (second : secondary.my_lba = BitVec.ofNat 64 (d.sectors - 1)) (there : place = BitVec.ofNat 64 (d.sectors - 33))
    (holds : ∀ i < 16384, entries i = table parts i) (room : 67 ≤ d.sectors ∨ parts = []) (count : parts.length ≤ 128)
    (fit : ∀ e ∈ parts, Fit e d.sectors) :
    Formatted (commit_gpt_headers (write_sectors (write_sectors d primary.partition_entry_lba 32 entries) place 32 entries)
      primary secondary) parts := by
  have first : primary.my_lba.toNat = 1 := by rw [layout.my_lba]; rfl
  have after : secondary.my_lba.toNat = d.sectors - 1 := by rw [second,toNat_place]
  have entries_at : primary.partition_entry_lba.toNat = 2 := by rw [layout.partition_entry_lba]; rfl
  have place_at : place.toNat = d.sectors - 33 := by rw [there,toNat_place]
  unfold commit_gpt_headers
  refine ⟨enough,⟨primary,?_,layout⟩,?_,count,fit⟩
  · intro i inside
    rw [write_outside (by omega),write_inside (by omega) (by omega) (by change _ < d.sectors; omega),first]
    have whole : primary.header_size.toNat = 92 := by rw [layout.header_size]; rfl
    have offset : 512 + i - 512 * 1 = i := by omega
    rw [write_gpt_header_sector,whole,List.take_of_length_le (header_length primary).le,offset]
  · intro i inside apart
    change 35 ≤ d.sectors ∨ i < 15872 at apart
    rw [write_outside (by omega),write_outside (by omega)]
    have written : (write_sectors d primary.partition_entry_lba 32 entries).bytes (1024 + i) = table parts i := by
      have offset : 1024 + i - 512 * 2 = i := by omega
      rw [write_inside (by omega) (by omega) (by omega),entries_at,offset,holds i inside]
    by_cases overlap : d.sectors < 67 ∧ 512 * (d.sectors - 33) ≤ 1024 + i ∧ 1024 + i < 512 * (d.sectors - 1)
    · obtain rfl : parts = [] := room.resolve_left (by omega)
      rw [write_inside (by omega) (by omega) (by change _ < d.sectors; omega),holds _ (by omega),table_nil,table_nil]
    · rw [write_outside (by omega),written]

theorem read_inside {count i : Nat} {buffer : Bytes} (inside : i < 512 * count)
    (within : lba.toNat + i / 512 < d.sectors) : read_sectors d lba count buffer i = d.bytes (512 * lba.toNat + i) :=
  if_pos ⟨inside,within⟩

theorem one_toNat : (1 : Lba).toNat = 1 := rfl

section
variable {d : Disk} {h : Header} (has : HasHeader d h) (enough : 2 ≤ d.sectors)
include has enough

/-- The first sector of a formatted disk, as the tool and the kernel read it. -/
theorem header_sector (buffer : Bytes) {i : Nat}
    (inside : i < 512) : read_sectors d 1 1 buffer i = padded h.bytes i := by
  rw [read_inside (by omega) (by rw [one_toNat]; omega),one_toNat,← has i inside]

theorem header_signature (buffer : Bytes) : slice (read_sectors d 1 1 buffer) 0 8 = signature := by
  have begins : slice (padded h.bytes) 0 8 = signature := rfl
  rw [← begins]
  exact slice_agree fun i _ high => header_sector has enough buffer (by omega)

theorem read_gpt_header_spec (sector : Bytes) : read_gpt_header d sector = some h := by
  unfold read_gpt_header
  simp only
  rw [if_pos (header_signature has enough sector),
    header_read fun i inside => header_sector has enough sector (by omega)]

end

theorem place_sub {n k : Nat} (small : n < 2 ^ 63) (most : k ≤ n) :
    BitVec.ofNat 64 n - BitVec.ofNat 64 k = BitVec.ofNat 64 (n - k) := by
  apply BitVec.eq_of_toNat_eq
  rw [BitVec.toNat_sub,BitVec.toNat_ofNat,BitVec.toNat_ofNat,BitVec.toNat_ofNat]
  omega

/-- A new table is empty. -/
theorem create_gpt_spec {d' : Disk} {device_id : Word} {sector : Bytes} (created : create_gpt d device_id sector = some d') :
    Formatted d' [] := by
  unfold create_gpt at created
  split at created
  · cases created
  rename_i enough
  split at created
  · cases created
  simp only [Option.some.injEq] at created
  rw [← created]
  have last : BitVec.ofNat 64 d.sectors - 1 = BitVec.ofNat 64 (d.sectors - 1) := place_sub d.small (by omega : 1 ≤ d.sectors)
  have usable : BitVec.ofNat 64 d.sectors - BitVec.ofNat 64 32 - 2 = BitVec.ofNat 64 (d.sectors - 34) := by
    rw [place_sub d.small (by omega)]
    exact place_sub (by have := d.small; omega) (by omega : 2 ≤ d.sectors - 32)
  have second : BitVec.ofNat 64 (d.sectors - 1) - BitVec.ofNat 64 32 = BitVec.ofNat 64 (d.sectors - 33) :=
    place_sub (by have := d.small; omega) (by omega)
  exact @stored_formatted (write_sectors d 0 1 (write_protective_mbr d.sectors)) [] (fun _ => 0) _ _ _
    (by change 34 ≤ d.sectors; omega) ⟨rfl,rfl,last,rfl,usable,rfl,rfl,rfl⟩ last (last ▸ second) (fun _ _ => rfl) (.inr rfl)
    (Nat.zero_le _) (by simp)

/-- An entry as the tool's search sees it. -/
def boundary (e : Entry) : Option Boundary :=
  if e.starting_lba ≠ 0 ∧ e.ending_lba ≠ 0 ∧ e.starting_lba ≤ e.ending_lba then some (e.starting_lba,e.ending_lba) else none

/-- Where a partition goes, by the list of those that are there. -/
def place (n : Nat) (parts : List Entry) (r : Request) : Option Lba :=
  if r.sectors = 0 then none
  else
    match find_start r.sectors (BitVec.ofNat 64 (n - 34)) 2048 (sort_boundaries (parts.filterMap boundary)) with
    | none => none
    | some start =>
      if start + r.sectors - 1 > BitVec.ofNat 64 (n - 34) then none else if parts.length < 128 then some start else none

/-- The entry of a new partition. -/
def entry_of (r : Request) (entry_index : Nat) (start : Lba) : Entry where
  partition_type_guid := r.type_guid
  unique_partition_guid := make_random_guid (r.device_id + BitVec.ofNat 32 (entry_index * 31))
  starting_lba := start
  ending_lba := start + r.sectors - 1
  attributes := 0
  partition_name := r.name.elim [] CString.chars

section
variable {d : Disk} {h : Header} {parts : List Entry} {entries : Bytes}

/-- The places of an entry in the table. -/
theorem places_at (holds : ∀ i < 16384, entries i = table parts i) {i : Nat} (inside : i < 128) :
    lba_at entries (i * 128 + 32) = (parts[i]?).elim 0 Entry.starting_lba ∧
      lba_at entries (i * 128 + 40) = (parts[i]?).elim 0 Entry.ending_lba := by
  have word (c : Nat) (small : c < 16) : lba_at entries (i * 128 + 8 * c) = (parts[i]?).elim 0 fun e => e.word c := by
    have same : lba_at entries (i * 128 + 8 * c) = lba_at (table parts) (i * 128 + 8 * c) :=
      lba_at_agree fun k low => holds _ (by omega)
    have offset : i * 128 + 8 * c = 8 * (16 * i + c) := by omega
    have index : (16 * i + c) / 16 = i := by omega
    have column : (16 * i + c) % 16 = c := by omega
    rw [same,offset,lba_at_table,word_of,index,column]
  constructor
  · refine (word 4 (by decide)).trans ?_
    cases parts[i]? with
    | none => rfl
    | some e => exact word_start e
  · refine (word 5 (by decide)).trans ?_
    cases parts[i]? with
    | none => rfl
    | some e => exact word_end e

/-- A walk over a table is a walk over its entries, where unused entries do not matter. -/
theorem filterMap_entries {β : Type} (f : Entry → Option β) {n : Nat} (most : parts.length ≤ n) :
    ((List.range n).filterMap fun i => (parts[i]?).bind f) = parts.filterMap f := by
  induction parts generalizing n with
  | nil => simp
  | cons e parts ih =>
    cases n with
    | zero => simp at most
    | succ n =>
      rw [List.range_succ_eq_map,List.filterMap_cons,List.filterMap_cons,List.filterMap_map]
      have later := ih (by simpa using most)
      simp only [List.getElem?_cons_zero,Option.bind_some,Function.comp_def,List.getElem?_cons_succ]
      rw [later]

theorem Layout.counts {n : Nat} (layout : Layout h n) :
    h.number_of_partition_entries.toNat = 128 ∧ h.size_of_partition_entry.toNat = 128 := by
  rw [layout.number_of_partition_entries,layout.size_of_partition_entry]
  exact ⟨rfl,rfl⟩

theorem used_boundaries_eq (layout : Layout h d.sectors) (count : parts.length ≤ 128)
    (holds : ∀ i < 16384, entries i = table parts i) : used_boundaries h entries = parts.filterMap boundary := by
  obtain ⟨number,size⟩ := layout.counts
  rw [← filterMap_entries boundary count,used_boundaries,number,size]
  apply List.filterMap_congr
  intro i member
  obtain ⟨starting,ending⟩ := places_at holds (List.mem_range.1 member)
  simp only [starting,ending]
  cases parts[i]? with
  | none => rfl
  | some e => rfl

/-- The first entry that is free is the one behind the last partition. -/
theorem free_index_eq (layout : Layout h d.sectors) (fit : ∀ e ∈ parts, Fit e d.sectors)
    (holds : ∀ i < 16384, entries i = table parts i) :
    free_index h entries = if parts.length < 128 then some parts.length else none := by
  obtain ⟨number,size⟩ := layout.counts
  have free (i : Nat) (inside : i < 128) : (lba_at entries (i * 128 + 32) = 0 && lba_at entries (i * 128 + 40) = 0) = true ↔
      parts.length ≤ i := by
    obtain ⟨starting,ending⟩ := places_at holds inside
    rw [starting,ending]
    cases here : parts[i]? with
    | none => simpa using List.getElem?_eq_none_iff.1 here
    | some e =>
      have used := (fit e (List.mem_of_getElem? here)).nonzero
      have before := (List.getElem?_eq_some_iff.1 here).1
      simp only [Option.elim_some,used,decide_false,Bool.false_and,Bool.false_eq_true,false_iff]
      omega
  rw [free_index,number,size]
  split
  · rename_i room
    rw [List.find?_range_eq_some]
    refine ⟨(free _ room).2 (Nat.le_refl _),List.mem_range.2 room,fun j before => ?_⟩
    rw [Bool.not_eq_true']
    rw [← Bool.not_eq_true,free j (by omega)]
    omega
  · rename_i full
    rw [List.find?_eq_none]
    intro i member
    rw [free i (List.mem_range.1 member)]
    have := List.mem_range.1 member
    omega

end

theorem mem_insert_boundary {b c : Boundary} {sorted : List Boundary} (member : c ∈ insert_boundary b sorted) :
    c = b ∨ c ∈ sorted := by
  induction sorted with
  | nil => exact .inl (List.mem_singleton.1 member)
  | cons last before ih =>
    unfold insert_boundary at member
    split at member
    · obtain rfl | later := List.mem_cons.1 member
      · exact .inr List.mem_cons_self
      · exact (ih later).imp id (List.mem_cons_of_mem _)
    · exact List.mem_cons.1 member

theorem mem_sort_boundaries {c : Boundary} {boundaries : List Boundary} (member : c ∈ sort_boundaries boundaries) :
    c ∈ boundaries := by
  have walk (sorted rest : List Boundary) (found : c ∈ rest.foldl (fun sorted b => insert_boundary b sorted) sorted) :
      c ∈ sorted ∨ c ∈ rest := by
    induction rest generalizing sorted with
    | nil => exact .inl found
    | cons b rest ih =>
      obtain first | later := ih _ found
      · obtain rfl | old := mem_insert_boundary first
        · exact .inr List.mem_cons_self
        · exact .inl old
      · exact .inr (List.mem_cons_of_mem _ later)
  exact (walk [] boundaries (List.mem_reverse.1 member)).resolve_left List.not_mem_nil

theorem align_up_spec {value : Lba} (small : value.toNat < 2 ^ 63 + 1) :
    (align_up value GPT_ALIGNMENT_SECTORS).toNat = (value.toNat + 2047) / 2048 * 2048 := by
  have alignment : GPT_ALIGNMENT_SECTORS.toNat = 2048 := rfl
  have one : (1 : Lba).toNat = 1 := rfl
  rw [align_up,if_neg (by decide),BitVec.toNat_mul,BitVec.toNat_udiv,BitVec.toNat_sub,BitVec.toNat_add,alignment,one]
  omega

/-- A start is aligned and not 0. -/
theorem find_start_spec {sectors last start found : Lba} {boundaries : List Boundary} (small : last.toNat < 2 ^ 63)
    (ends : ∀ b ∈ boundaries, b.2 ≤ last) (aligned : start.toNat % 2048 = 0) (nonzero : start ≠ 0)
    (here : find_start sectors last start boundaries = some found) : found.toNat % 2048 = 0 ∧ found ≠ 0 := by
  induction boundaries generalizing start with
  | nil =>
    unfold find_start at here
    split at here
    · obtain rfl := Option.some.inj here
      exact ⟨aligned,nonzero⟩
    · cases here
  | cons b rest ih =>
    unfold find_start at here
    split at here
    · obtain rfl := Option.some.inj here
      exact ⟨aligned,nonzero⟩
    split at here
    · cases here
    have below : b.2.toNat ≤ last.toNat := ends b List.mem_cons_self
    have next : (b.2 + 1).toNat = b.2.toNat + 1 := by
      rw [BitVec.toNat_add,one_toNat]
      omega
    have up := @align_up_spec (b.2 + 1) (by omega)
    refine ih (fun c member => ends c (List.mem_cons_of_mem _ member)) (by rw [up]; exact Nat.mul_mod_left ..) ?_ here
    intro zero
    rw [zero,next] at up
    change 0 = _ at up
    omega

theorem random_bytes_length (n : Nat) (value : Word) : (random_bytes n value).length = n := by
  induction n generalizing value with
  | zero => rfl
  | succ n ih => rw [random_bytes,List.length_cons,ih]

theorem lba_at_low (m : Bytes) (o : Nat) : (lba_at m o).toNat % 256 = (m o).toNat := by
  have b0 := (m o).toNat_lt
  rw [lba_at,BitVec.toNat_ofNat,load64]
  omega

/-- The variant bits of a GUID are in the lowest byte of its second half. -/
theorem guid_variant (seed : Word) : (make_random_guid seed).2.toNat % 256 ≠ 0 := by
  obtain ⟨random,is⟩ : ∃ random, random = (random_bytes 16 seed).modify 6 fun b => b &&& 0x0F ||| 0x40 := ⟨_,rfl⟩
  have long : random.length = 16 := by rw [is,List.length_modify,random_bytes_length]
  have eighth : padded (random.modify 8 fun b => b &&& 0x3F ||| 0x80) 8 = random[8] &&& 0x3F ||| 0x80 := by
    rw [padded,List.getD_eq_getElem?_getD,List.getElem?_eq_getElem (by rw [List.length_modify]; omega),
      List.getElem_modify]
    rfl
  rw [make_random_guid,← is,lba_at_low,eighth]
  intro zero
  have bits : (random[8] &&& 0x3F ||| 0x80).toNat = random[8].toNat &&& 0x3F ||| 0x80 := rfl
  rw [bits] at zero
  have set : Nat.testBit 0x80 7 = true := by decide
  have top : Nat.testBit (random[8].toNat &&& 0x3F ||| 0x80) 7 = true := by rw [Nat.testBit_or,set,Bool.or_true]
  rw [zero] at top
  simp at top

/-- The entry behind the last one is stored. -/
theorem table_snoc {parts : List Entry} {entries : Bytes} (holds : ∀ i < 16384, entries i = table parts i) (e : Entry) {i : Nat}
    (inside : i < 16384) : storeBytes entries (parts.length * 128) e.bytes i = table (parts ++ [e]) i := by
  by_cases new : i / 128 = parts.length
  · have column : i - parts.length * 128 = i % 128 := by omega
    rw [storeBytes,if_pos (by omega),column,List.getElem?_eq_getElem (by rw [entry_length]; omega),table,new,
      List.getElem?_concat_length]
    simp only [Option.getD_some,Option.elim_some]
    rw [List.getD_eq_getElem?_getD,List.getElem?_eq_getElem (by rw [entry_length]; omega),Option.getD_some]
  · rw [storeBytes_outside _ _ _ (by rw [entry_length]; omega),holds i inside,table,table]
    obtain before | behind := Nat.lt_or_ge (i / 128) parts.length
    · rw [List.getElem?_append_left before]
    · rw [List.getElem?_eq_none behind,List.getElem?_eq_none (by rw [List.length_append,List.length_singleton]; omega)]

/-- The call does what the list of entries says, on a disk that has room for both tables. -/
theorem add_refines {parts : List Entry} (formatted : Formatted d parts) (room : 67 ≤ d.sectors) (r : Request)
    (sector buffer : Bytes) :
    (place d.sectors parts r = none → add_gpt_partition d r sector buffer = none) ∧
      ∀ start, place d.sectors parts r = some start → ∃ d', add_gpt_partition d r sector buffer = some (d',start) ∧
        d'.sectors = d.sectors ∧ Formatted d' (parts ++ [entry_of r parts.length start]) := by
  obtain ⟨enough,⟨h,has,layout⟩,stored,count,fit⟩ := formatted
  have small := d.small
  obtain ⟨number,size⟩ := layout.counts
  have sectors : ((h.number_of_partition_entries * h.size_of_partition_entry + BitVec.ofNat 32 SECTOR_SIZE - 1) /
      BitVec.ofNat 32 SECTOR_SIZE).toNat = 32 := by
    rw [layout.number_of_partition_entries,layout.size_of_partition_entry]
    rfl
  have entries_at : h.partition_entry_lba.toNat = 2 := by rw [layout.partition_entry_lba]; rfl
  have first : align_up h.first_usable_lba GPT_ALIGNMENT_SECTORS = 2048 := by rw [layout.first_usable_lba]; rfl
  obtain ⟨entries,read⟩ : ∃ entries, entries = read_sectors d h.partition_entry_lba 32 buffer := ⟨_,rfl⟩
  have holds (i : Nat) (inside : i < 16384) : entries i = table parts i := by
    rw [read,read_inside (by omega) (by omega),entries_at,← stored i inside (.inl (by omega))]
  unfold add_gpt_partition place
  rw [read_gpt_header_spec has (by omega)]
  simp only [sectors,← read,used_boundaries_eq layout count holds,layout.last_usable_lba,first,
    free_index_eq layout fit holds]
  by_cases none_asked : r.sectors = 0
  · rw [if_pos none_asked,if_pos none_asked]
    exact ⟨fun _ => rfl,fun start some => by cases some⟩
  rw [if_neg none_asked,if_neg none_asked]
  cases found : find_start r.sectors (BitVec.ofNat 64 (d.sectors - 34)) 2048 (sort_boundaries (parts.filterMap boundary)) with
  | none => exact ⟨fun _ => rfl,fun start some => by cases some⟩
  | some start =>
    simp only
    by_cases beyond : start + r.sectors - 1 > BitVec.ofNat 64 (d.sectors - 34)
    · rw [if_pos beyond,if_pos beyond]
      exact ⟨fun _ => rfl,fun start some => by cases some⟩
    rw [if_neg beyond,if_neg beyond]
    by_cases slot : parts.length < 128
    swap
    · rw [if_neg slot,if_neg slot]
      exact ⟨fun _ => rfl,fun start some => by cases some⟩
    rw [if_pos slot,if_pos slot]
    refine ⟨(fun none => by cases none),fun start' same => ?_⟩
    obtain rfl := Option.some.inj same
    refine ⟨_,rfl,rfl,?_⟩
    have last : (BitVec.ofNat 64 (d.sectors - 34)).toNat < 2 ^ 63 := by rw [toNat_place]; omega
    obtain ⟨aligned,nonzero⟩ := find_start_spec last (fun b member => by
      obtain ⟨f,listed,seen⟩ := List.mem_filterMap.1 (mem_sort_boundaries member)
      unfold boundary at seen
      split at seen
      · rw [← Option.some.inj seen]
        exact (fit f listed).inside
      · cases seen) (by decide) (by decide) found
    have fits : ∀ f ∈ parts ++ [entry_of r parts.length start], Fit f d.sectors := by
      intro f member
      obtain old | new := List.mem_append.1 member
      · exact fit f old
      · rw [List.mem_singleton.1 new]
        refine ⟨aligned,nonzero,BitVec.not_lt.1 beyond,guid_variant _,?_⟩
        cases name : r.name with
        | none => simp [entry_of,name]
        | some string => simpa [entry_of,name] using string.plain
    have alternate : h.alternate_lba - BitVec.ofNat 64 32 = BitVec.ofNat 64 (d.sectors - 33) := by
      rw [layout.alternate_lba]
      exact place_sub (by omega) (by omega)
    have no_rest : List.replicate (128 - GPT_ENTRY_SIZE) (0 : UInt8) = [] := rfl
    rw [size,no_rest,List.append_nil]
    exact stored_formatted enough ⟨layout.header_size,layout.my_lba,layout.alternate_lba,layout.first_usable_lba,rfl,
      layout.partition_entry_lba,layout.number_of_partition_entries,layout.size_of_partition_entry⟩ layout.alternate_lba
      alternate (fun i inside => table_snoc holds (entry_of r parts.length start) inside) (.inl room)
      (by rw [List.length_append,List.length_singleton]; omega) fits

end MicroOS.Gpt

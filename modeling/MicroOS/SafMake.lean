import MicroOS.Initrd

/-!
The writer of SAF archives, `saf-make`. It walks a directory twice, once for the size of
the archive and once to fill it: the nodes of a folder's entries come one after the other
behind the folder's own node, each followed by its content, and the array of a folder is
filled in when its entries are written.
-/
namespace MicroOS.SafMake
open Vfs Initrd

/-- The entries of a directory as `dir_at` lists them. -/
inductive Forest where
  | nil
  | file (name : Name) (bytes : List UInt8) (rest : Forest)
  | folder (name : Name) (children rest : Forest)

/-- `childcnt`. -/
def Forest.count : Forest → Nat
  | .nil => 0
  | .file _ _ rest => rest.count + 1
  | .folder _ _ rest => rest.count + 1

def sizeof_hdr : Nat := 280
def sizeof_file : Nat := 296
def sizeof_folder : Nat := 288
def MAGIC_NUMBER : Nat := 0x766863726c706d73

/-- The size of a folder's node, a `size_t` as well. -/
def folder_size (count : Nat) : Nat := (sizeof_folder + 8 * count) % 2 ^ 32

/-- `size_t` has 32 bits. -/
def calculate_size : Forest → Word
  | .nil => 0
  | .file _ bytes rest => BitVec.ofNat 32 sizeof_file + BitVec.ofNat 32 bytes.length + calculate_size rest
  | .folder _ children rest =>
    BitVec.ofNat 32 (folder_size children.count) + calculate_size children + calculate_size rest

/-- `adata`: the bytes, the offset of the next node and the size of the allocation. -/
structure Arch where
  ptr : Memory
  curr_offset : Nat
  alloc_size : Nat

def store64 (m : Memory) (o v : Nat) : Memory :=
  fun i => if o ≤ i ∧ i < o + 8 then UInt8.ofNat (v / 256 ^ (i - o)) else m i

def store_bytes (m : Memory) (o : Nat) (bytes : List UInt8) : Memory :=
  fun i => if o ≤ i ∧ i < o + bytes.length then bytes.getD (i - o) 0 else m i

/-- The loop that fills the array of a folder. -/
def store_offsets (m : Memory) (o : Nat) : List Nat → Memory
  | [] => m
  | offset :: offsets => store_offsets (store64 m o offset) (o + 8) offsets

/-- `none` when the archive exceeds the allocation. -/
def inc_offset (a : Arch) (d : Nat) : Option Arch :=
  if a.alloc_size < a.curr_offset + d then none else some { a with curr_offset := a.curr_offset + d }

/-- A header at the current offset: cleared, with magic number, name, length and flags. -/
def put_header (a : Arch) (name : Name) (nodesize flags : Nat) : Option Arch :=
  let o := a.curr_offset
  let cleared := store_bytes a.ptr o (List.replicate sizeof_hdr 0)
  let named := store_bytes (store64 cleared o MAGIC_NUMBER) (o + name_at) (name ++ [0])
  (inc_offset { a with ptr := named } nodesize).map fun a =>
    { a with ptr := store64 (store64 a.ptr (o + 8) nodesize) (o + flags_at) flags }

def put_file (a : Arch) (name : Name) (bytes : List UInt8) : Option Arch :=
  let o := a.curr_offset
  (put_header a name sizeof_file 0).bind fun a =>
    let addr := a.curr_offset
    (inc_offset { a with ptr := store64 (store64 a.ptr (o + addr_at) addr) (o + size_at) bytes.length }
      bytes.length).map fun a => { a with ptr := store_bytes a.ptr (o + sizeof_file) bytes }

def close_folder (a : Arch) (o : Nat) (offsets : List Nat) : Arch :=
  { a with ptr := store_offsets (store64 a.ptr (o + num_children_at) offsets.length) (o + children_at) offsets }

/-- The size of the buffers that paths are resolved in. -/
def PATH_SIZE : Nat := 256

def colon : UInt8 := 58

/-- A name that `resolve` just appends to the path of its directory. One with a colon is taken
    for a path that begins with a device, and `..` for the directory above. -/
def Appended (name : Name) : Prop := name ≠ [] ∧ slash ∉ name ∧ colon ∉ name ∧ name ≠ [46,46]

instance (name : Name) : Decidable (Appended name) := inferInstanceAs (Decidable (_ ∧ _ ∧ _ ∧ _))

/-- `path` is the length of the path that `resolve` works out for the directory, given without
    a slash at its end, and `levels` how many directories one in another the stack has room for.
    `none` when a name is not appended, a path too long for the buffers or too deep for the
    stack, or the archive too large for its allocation. -/
def make_node (levels path : Nat) : Forest → Arch → Option (Arch × List Nat)
  | .nil,a => if PATH_SIZE ≤ path then none else some (a,[])
  | .file name bytes rest,a =>
    if ¬ Appended name ∨ PATH_SIZE ≤ path + 1 + name.length then none
    else (put_file a name bytes).bind fun a' =>
      (make_node levels path rest a').map fun (a'',offsets) => (a'',a.curr_offset :: offsets)
  | .folder name children rest,a =>
    if ¬ Appended name ∨ levels = 0 then none
    else (put_header a name (folder_size children.count) FLAG_ISFOLDER).bind fun a₁ =>
      (make_node (levels - 1) (path + 1 + name.length) children a₁).bind fun (a₂,offsets) =>
        (make_node levels path rest (close_folder a₂ a.curr_offset offsets)).map fun (a₃,more) =>
          (a₃,a.curr_offset :: more)

/-- The archive: its bytes, and how many of them are written to the output. -/
def main (levels path : Nat) (input : Forest) : Option (Memory × Nat) :=
  let nodesize := folder_size input.count
  let alloc_needed := calculate_size input + BitVec.ofNat 32 nodesize
  (inc_offset ⟨fun _ => 0,0,alloc_needed.toNat⟩ nodesize).bind fun a =>
    let root := store64 (store64 (store64 a.ptr 0 MAGIC_NUMBER) 8 nodesize) flags_at FLAG_ISFOLDER
    (make_node levels path input { a with ptr := root }).map fun (a,offsets) =>
      ((close_folder a 0 offsets).ptr,a.curr_offset)

/-- The bytes of the nodes and contents of a directory. -/
def Forest.total : Forest → Nat
  | .nil => 0
  | .file _ bytes rest => sizeof_file + bytes.length + rest.total
  | .folder _ children rest => sizeof_folder + 8 * children.count + children.total + rest.total

/-- Every path below a directory is made of its names, fits the buffers and is no deeper than
    the stack reaches. -/
def Resolvable (levels path : Nat) : Forest → Prop
  | .nil => path < PATH_SIZE
  | .file name _ rest => (Appended name ∧ path + 1 + name.length < PATH_SIZE) ∧ Resolvable levels path rest
  | .folder name children rest => (Appended name ∧ 0 < levels) ∧
      Resolvable (levels - 1) (path + 1 + name.length) children ∧ Resolvable levels path rest

/-- Names that the format can hold. -/
def Nameable : Forest → Prop
  | .nil => True
  | .file name _ rest => (name.length < 256 ∧ (0 : UInt8) ∉ name) ∧ Nameable rest
  | .folder name children rest => (name.length < 256 ∧ (0 : UInt8) ∉ name) ∧ Nameable children ∧ Nameable rest

/-- A string and its terminator in memory. -/
structure Named (m : Memory) (node : Nat) (name : Name) : Prop where
  chars : ∀ i < name.length, m (node + name_at + i) = name.getD i 0
  ends : m (node + name_at + name.length) = 0

structure HoldsFile (m : Memory) (node : Nat) (bytes : List UInt8) : Prop where
  flags : load64 m (node + flags_at) = 0
  size : load64 m (node + size_at) = bytes.length
  content : ∃ addr, addr + bytes.length < 2 ^ 32 ∧ load64 m (node + addr_at) = addr ∧
    ∀ i < bytes.length, m (addr + i) = bytes.getD i 0

structure HoldsFolder (m : Memory) (node : Nat) (offsets : List Nat) : Prop where
  flags : load64 m (node + flags_at) = FLAG_ISFOLDER
  num_children : load64 m (node + num_children_at) = offsets.length
  children : ∀ i < offsets.length, load64 m (node + children_at + 8 * i) = offsets.getD i 0
  fits : node + children_at + 8 * offsets.length ≤ 2 ^ 32

/-- The nodes at these offsets are the entries of a directory. -/
inductive Holds (m : Memory) : List Nat → Forest → Prop
  | nil : Holds m [] .nil
  | file {o : Nat} {offsets : List Nat} {name : Name} {bytes : List UInt8} {rest : Forest} (place : o < 2 ^ 32)
      (named : Named m o name) (node : HoldsFile m o bytes) (later : Holds m offsets rest) :
      Holds m (o :: offsets) (.file name bytes rest)
  | folder {o : Nat} {offsets inner : List Nat} {name : Name} {children rest : Forest} (place : o < 2 ^ 32)
      (named : Named m o name) (node : HoldsFolder m o inner) (below : Holds m inner children)
      (later : Holds m offsets rest) : Holds m (o :: offsets) (.folder name children rest)

theorem calculate_size_total (f : Forest) : (calculate_size f).toNat = f.total % 2 ^ 32 := by
  induction f with
  | nil => rfl
  | file name bytes rest ih =>
    simp only [calculate_size,Forest.total,BitVec.toNat_add,BitVec.toNat_ofNat,ih]
    omega
  | folder name children rest ihc ihr =>
    simp only [calculate_size,folder_size,Forest.total,BitVec.toNat_add,BitVec.toNat_ofNat,ihc,ihr]
    omega

/-- A memory that has the bytes of another from one place up to another. -/
def Agrees (m m' : Memory) (start stop : Nat) : Prop := ∀ i, start ≤ i → i < stop → m i = m' i

variable {m : Memory} {o i : Nat} {offsets : List Nat}

theorem agrees_mono {m' : Memory} {start stop start' stop' : Nat} (agrees : Agrees m m' start stop)
    (first : start ≤ start') (last : stop' ≤ stop) : Agrees m m' start' stop' :=
  fun i low high => agrees i (by omega) (by omega)

theorem store64_outside {v : Nat} (outside : i < o ∨ o + 8 ≤ i) : store64 m o v i = m i :=
  if_neg (by omega)

theorem store_bytes_outside {bytes : List UInt8} (outside : i < o ∨ o + bytes.length ≤ i) :
    store_bytes m o bytes i = m i := if_neg (by omega)

theorem store_bytes_inside {bytes : List UInt8} (inside : i < bytes.length) :
    store_bytes m o bytes (o + i) = bytes.getD i 0 := by
  unfold store_bytes
  rw [if_pos (by omega),Nat.add_sub_cancel_left]

theorem store_offsets_outside (outside : i < o ∨ o + 8 * offsets.length ≤ i) : store_offsets m o offsets i = m i := by
  induction offsets generalizing m o with
  | nil => rfl
  | cons offset offsets ih =>
    rw [List.length_cons] at outside
    rw [store_offsets,ih (by omega),store64_outside (by omega)]

/-- A number from its eight bytes. -/
theorem digits {v : Nat} (fits : v < 2 ^ 64) :
    v / 256 ^ 0 % 256 + (2 ^ 8 * (v / 256 ^ 1 % 256) + (2 ^ 16 * (v / 256 ^ 2 % 256) + (2 ^ 24 * (v / 256 ^ 3 % 256) +
      (2 ^ 32 * (v / 256 ^ 4 % 256) + (2 ^ 40 * (v / 256 ^ 5 % 256) + (2 ^ 48 * (v / 256 ^ 6 % 256) +
        2 ^ 56 * (v / 256 ^ 7 % 256))))))) = v := by
  have next (k : Nat) : v / 256 ^ k = 256 * (v / 256 ^ (k + 1)) + v / 256 ^ k % 256 := by
    rw [Nat.pow_succ,← Nat.div_div_eq_div_mul]
    exact (Nat.div_add_mod _ 256).symm
  have last : v / 256 ^ 8 = 0 := Nat.div_eq_of_lt fits
  have first : v / 256 ^ 0 = v := Nat.div_one v
  have e0 : v / 256 ^ 0 = 256 * (v / 256 ^ 1) + v / 256 ^ 0 % 256 := next 0
  have e1 : v / 256 ^ 1 = 256 * (v / 256 ^ 2) + v / 256 ^ 1 % 256 := next 1
  have e2 : v / 256 ^ 2 = 256 * (v / 256 ^ 3) + v / 256 ^ 2 % 256 := next 2
  have e3 : v / 256 ^ 3 = 256 * (v / 256 ^ 4) + v / 256 ^ 3 % 256 := next 3
  have e4 : v / 256 ^ 4 = 256 * (v / 256 ^ 5) + v / 256 ^ 4 % 256 := next 4
  have e5 : v / 256 ^ 5 = 256 * (v / 256 ^ 6) + v / 256 ^ 5 % 256 := next 5
  have e6 : v / 256 ^ 6 = 256 * (v / 256 ^ 7) + v / 256 ^ 6 % 256 := next 6
  have e7 : v / 256 ^ 7 = 256 * (v / 256 ^ 8) + v / 256 ^ 7 % 256 := next 7
  generalize v / 256 ^ 0 % 256 = r0 at *
  generalize v / 256 ^ 1 % 256 = r1 at *
  generalize v / 256 ^ 2 % 256 = r2 at *
  generalize v / 256 ^ 3 % 256 = r3 at *
  generalize v / 256 ^ 4 % 256 = r4 at *
  generalize v / 256 ^ 5 % 256 = r5 at *
  generalize v / 256 ^ 6 % 256 = r6 at *
  generalize v / 256 ^ 7 % 256 = r7 at *
  rw [last] at e7
  rw [e7] at e6
  rw [e6] at e5
  rw [e5] at e4
  rw [e4] at e3
  rw [e3] at e2
  rw [e2] at e1
  rw [e1] at e0
  rw [← first,e0]
  ring

/-- What was stored is loaded, from any memory that has the bytes. -/
theorem load64_stored {mem m : Memory} {o v : Nat} (fits : v < 2 ^ 64)
    (agrees : Agrees mem (store64 m o v) o (o + 8)) : load64 mem o = v := by
  have byte (k : Nat) (small : k < 8) : (mem (o + k)).toNat = v / 256 ^ k % 256 := by
    rw [agrees (o + k) (by omega) (by omega),store64,if_pos (by omega),Nat.add_sub_cancel_left,UInt8.toNat_ofNat']
  unfold load64
  rw [← Nat.add_zero o,Nat.add_assoc o 0,byte 0 (by decide)]
  simp only [Nat.zero_add,Nat.add_assoc]
  rw [byte 1 (by decide),byte 2 (by decide),byte 3 (by decide),byte 4 (by decide),byte 5 (by decide),
    byte 6 (by decide),byte 7 (by decide)]
  exact digits fits

theorem load64_offsets {mem m : Memory} {o i : Nat} {offsets : List Nat} (small : ∀ v ∈ offsets, v < 2 ^ 64)
    (agrees : Agrees mem (store_offsets m o offsets) o (o + 8 * offsets.length)) (inside : i < offsets.length) :
    load64 mem (o + 8 * i) = offsets.getD i 0 := by
  induction offsets generalizing m o i with
  | nil => simp at inside
  | cons offset offsets ih =>
    rw [List.length_cons] at agrees inside
    cases i with
    | zero =>
      rw [Nat.mul_zero,Nat.add_zero]
      refine load64_stored (m := m) (small offset List.mem_cons_self) fun j low high => ?_
      rw [agrees j low (by omega),store_offsets,store_offsets_outside (by omega)]
      rfl
    | succ i =>
      have next := @ih (store64 m o offset) (o + 8) i (fun v member => small v (List.mem_cons_of_mem _ member))
        (fun j low high => agrees j (by omega) (by omega)) (by omega)
      have place : o + 8 * (i + 1) = o + 8 + 8 * i := by omega
      rw [place,next]
      rfl

theorem named_stored {mem m : Memory} {node : Nat} {name : Name}
    (agrees : Agrees mem (store_bytes m (node + name_at) (name ++ [0])) (node + name_at) (node + name_at + name.length + 1)) :
    Named mem node name := by
  have at_i (i : Nat) (inside : i ≤ name.length) : mem (node + name_at + i) = (name ++ [0]).getD i 0 := by
    rw [agrees (node + name_at + i) (by omega) (by omega),store_bytes_inside (by simp; omega)]
  constructor
  · intro i inside
    rw [at_i i (by omega)]
    simp [List.getD_eq_getElem?_getD,List.getElem?_append_left inside]
  · rw [at_i _ le_rfl]
    simp [List.getD_eq_getElem?_getD]

/-- A header leaves alone what comes before, and says its name and flags. -/
theorem put_header_spec {a : Arch} {name : Name} {nodesize flags : Nat} (short : name.length < 256)
    (room : a.curr_offset + nodesize ≤ a.alloc_size) (small : flags < 2 ^ 64) :
    ∃ a', put_header a name nodesize flags = some a' ∧ a'.curr_offset = a.curr_offset + nodesize ∧
      a'.alloc_size = a.alloc_size ∧ Agrees a'.ptr a.ptr 0 a.curr_offset ∧
      ∀ mem, Agrees mem a'.ptr a.curr_offset (a.curr_offset + sizeof_hdr) →
        Named mem a.curr_offset name ∧ load64 mem (a.curr_offset + flags_at) = flags := by
  unfold put_header inc_offset
  dsimp only
  rw [if_neg (by omega)]
  refine ⟨_,rfl,rfl,rfl,?_,?_⟩
  · intro i _ before
    dsimp only
    unfold flags_at name_at
    rw [store64_outside (by omega),store64_outside (by omega),store_bytes_outside (by omega),store64_outside (by omega),
      store_bytes_outside (by omega)]
  · intro mem agrees
    dsimp only at agrees
    constructor
    · refine @named_stored _ (store64 (store_bytes a.ptr a.curr_offset (List.replicate sizeof_hdr 0)) a.curr_offset
        MAGIC_NUMBER) _ _ fun i low high => ?_
      unfold name_at flags_at at *
      unfold sizeof_hdr at agrees
      rw [agrees i (by omega) (by omega),store64_outside (by omega),store64_outside (by omega)]
      rfl
    · refine load64_stored small (agrees_mono agrees (by unfold flags_at; omega) ?_)
      unfold flags_at sizeof_hdr
      omega

/-- The content of a file follows its node. -/
theorem put_file_spec {a : Arch} {name : Name} {bytes : List UInt8} (short : name.length < 256)
    (room : a.curr_offset + sizeof_file + bytes.length ≤ a.alloc_size) (fits : a.alloc_size < 2 ^ 32) :
    ∃ a', put_file a name bytes = some a' ∧ a'.curr_offset = a.curr_offset + sizeof_file + bytes.length ∧
      a'.alloc_size = a.alloc_size ∧ Agrees a'.ptr a.ptr 0 a.curr_offset ∧
      ∀ mem, Agrees mem a'.ptr a.curr_offset a'.curr_offset →
        Named mem a.curr_offset name ∧ HoldsFile mem a.curr_offset bytes := by
  obtain ⟨b,put,offset,alloc,before,tells⟩ := @put_header_spec a name sizeof_file 0 short (by omega) (by decide)
  unfold put_file
  dsimp only
  rw [put]
  unfold inc_offset
  dsimp only [Option.bind_some]
  rw [if_neg (by omega)]
  refine ⟨_,rfl,by dsimp only; omega,alloc,?_,?_⟩
  · intro i low high
    unfold size_at addr_at sizeof_file at *
    dsimp only
    rw [store_bytes_outside (by omega),store64_outside (by omega),store64_outside (by omega),before i low high]
  · intro mem agrees
    dsimp only at agrees
    unfold sizeof_file at *
    have header : Agrees mem b.ptr a.curr_offset (a.curr_offset + sizeof_hdr) := by
      intro i low high
      unfold sizeof_hdr at high
      unfold size_at addr_at at agrees
      rw [agrees i low (by omega),store_bytes_outside (by omega),store64_outside (by omega),store64_outside (by omega)]
    obtain ⟨named,flags⟩ := tells mem header
    refine ⟨named,flags,?_,b.curr_offset,by omega,?_,?_⟩
    · refine @load64_stored _ (store64 b.ptr (a.curr_offset + addr_at) b.curr_offset) _ _ (by omega) fun i low high => ?_
      unfold size_at at low high
      rw [agrees i (by omega) (by omega),store_bytes_outside (by omega)]
    · refine @load64_stored _ b.ptr _ _ (by omega) fun i low high => ?_
      unfold addr_at at low high
      rw [agrees i (by omega) (by omega),store_bytes_outside (by omega),store64_outside (by unfold size_at; omega)]
    · intro i inside
      rw [agrees (b.curr_offset + i) (by omega) (by omega),offset,store_bytes_inside inside]

/-- Filling in a folder touches nothing but the number and the array of its children. -/
theorem close_folder_outside {a : Arch} (outside : i < o + num_children_at ∨ o + children_at + 8 * offsets.length ≤ i) :
    (close_folder a o offsets).ptr i = a.ptr i := by
  unfold close_folder num_children_at children_at at *
  dsimp only
  rw [store_offsets_outside (by omega),store64_outside (by omega)]

theorem close_folder_spec {mem : Memory} {a : Arch}
    (small : ∀ v ∈ offsets, v < 2 ^ 64) (fits : o + children_at + 8 * offsets.length ≤ 2 ^ 32)
    (flags : load64 mem (o + flags_at) = FLAG_ISFOLDER)
    (agrees : Agrees mem (close_folder a o offsets).ptr (o + num_children_at) (o + children_at + 8 * offsets.length)) :
    HoldsFolder mem o offsets := by
  refine ⟨flags,?_,?_,fits⟩
  · refine @load64_stored _ a.ptr _ _ (by unfold children_at at fits; omega) fun i low high => ?_
    unfold num_children_at at *
    unfold children_at at *
    rw [agrees i (by omega) (by omega)]
    unfold close_folder
    exact store_offsets_outside (.inl (by unfold children_at; omega))
  · intro i inside
    exact @load64_offsets _ (store64 a.ptr (o + num_children_at) offsets.length) _ _ _ small
      (agrees_mono agrees (by unfold num_children_at children_at; omega) le_rfl) inside

theorem folder_size_eq {n : Nat} (fits : sizeof_folder + 8 * n < 2 ^ 32) : folder_size n = sizeof_folder + 8 * n :=
  Nat.mod_eq_of_lt fits

theorem holds_length {f : Forest} (holds : Holds m offsets f) : offsets.length = f.count := by
  induction holds with
  | nil => rfl
  | file place named node later ih => simp [Forest.count,ih]
  | folder place named node below later _ ih => simp [Forest.count,ih]

theorem holds_small {f : Forest} (holds : Holds m offsets f) : ∀ v ∈ offsets, v < 2 ^ 64 := by
  induction holds with
  | nil => simp
  | file place named node later ih => simp only [List.forall_mem_cons]; exact ⟨by omega,ih⟩
  | folder place named node below later _ ih => simp only [List.forall_mem_cons]; exact ⟨by omega,ih⟩

/-- The nodes of a directory take their part of the archive, one after the other, and any
    memory with the bytes of that part holds the directory. -/
theorem make_node_spec {levels path : Nat} {f : Forest} {a : Arch} (names : Nameable f) (short : Resolvable levels path f)
    (room : a.curr_offset + f.total ≤ a.alloc_size) (fits : a.alloc_size < 2 ^ 32) :
    ∃ a' offsets, make_node levels path f a = some (a',offsets) ∧ a'.curr_offset = a.curr_offset + f.total ∧
      a'.alloc_size = a.alloc_size ∧ Agrees a'.ptr a.ptr 0 a.curr_offset ∧
      ∀ mem, Agrees mem a'.ptr a.curr_offset a'.curr_offset → Holds mem offsets f := by
  induction f generalizing levels path a with
  | nil =>
    refine ⟨a,[],?_,rfl,rfl,fun i _ _ => rfl,fun mem _ => .nil⟩
    rw [make_node,if_neg (by change path < PATH_SIZE at short; omega)]
  | file name bytes rest ih =>
    obtain ⟨⟨fitting,-⟩,others⟩ := names
    obtain ⟨⟨plain,here⟩,later⟩ := short
    simp only [Forest.total] at room ⊢
    obtain ⟨b,put,offset,alloc,before,tells⟩ := @put_file_spec a name bytes fitting (by omega) fits
    obtain ⟨c,offsets,made,offset',alloc',before',held⟩ := @ih levels path b others later (by omega) (by omega)
    refine ⟨c,a.curr_offset :: offsets,?_,by omega,by omega,?_,?_⟩
    · rw [make_node,if_neg (by rintro (special | long); exacts [special plain,by omega]),put]
      dsimp only [Option.bind_some]
      rw [made]
      rfl
    · intro i low high
      rw [before' i low (by omega),before i low high]
    · intro mem agrees
      have first : Agrees mem b.ptr a.curr_offset b.curr_offset := by
        intro i low high
        rw [agrees i low (by omega),before' i (by omega) high]
      obtain ⟨named,node⟩ := tells mem first
      exact .file (by omega) named node (held mem (agrees_mono agrees (by omega) le_rfl))
  | folder name children rest ihc ihr =>
    obtain ⟨⟨fitting,-⟩,inside,others⟩ := names
    obtain ⟨⟨plain,deep⟩,below,later⟩ := short
    simp only [Forest.total] at room ⊢
    have node_size : folder_size children.count = sizeof_folder + 8 * children.count := folder_size_eq (by omega)
    obtain ⟨b,put,offset,alloc,before,tells⟩ := @put_header_spec a name (folder_size children.count) FLAG_ISFOLDER fitting
      (by omega) (by decide)
    obtain ⟨c,inner,made,offset',alloc',before',held⟩ := @ihc _ _ b inside below (by omega) (by omega)
    have count : inner.length = children.count := holds_length (held c.ptr fun i _ _ => rfl)
    obtain ⟨d,offsets,made',offset'',alloc'',before'',held'⟩ :=
      @ihr levels path (close_folder c a.curr_offset inner) others later
        (by change c.curr_offset + _ ≤ c.alloc_size; omega) (by change c.alloc_size < _; omega)
    change d.curr_offset = c.curr_offset + _ at offset''
    change d.alloc_size = c.alloc_size at alloc''
    change Agrees d.ptr _ 0 c.curr_offset at before''
    change ∀ mem, Agrees mem d.ptr c.curr_offset _ → _ at held'
    refine ⟨d,a.curr_offset :: offsets,?_,by omega,by omega,?_,?_⟩
    · rw [make_node,if_neg (by rintro (special | none); exacts [special plain,by omega]),put]
      dsimp only [Option.bind_some]
      rw [made]
      dsimp only [Option.bind_some]
      rw [made']
      rfl
    · intro i low high
      rw [before'' i low (by omega),close_folder_outside (.inl (by unfold num_children_at; omega)),before' i low (by omega),
        before i low high]
    · intro mem agrees
      unfold sizeof_folder at node_size room
      -- The node was written in two parts: the header first, the array when the entries were there.
      have header : Agrees mem b.ptr a.curr_offset (a.curr_offset + sizeof_hdr) := by
        intro i low high
        unfold sizeof_hdr at high
        rw [agrees i low (by omega),before'' i (by omega) (by omega),
          close_folder_outside (.inl (by unfold num_children_at; omega)),before' i (by omega) (by omega)]
      have array : Agrees mem (close_folder c a.curr_offset inner).ptr (a.curr_offset + num_children_at)
          (a.curr_offset + children_at + 8 * inner.length) := by
        intro i low high
        unfold num_children_at at low
        unfold children_at at high
        rw [agrees i (by omega) (by omega),before'' i (by omega) (by omega)]
      have entries : Agrees mem c.ptr b.curr_offset c.curr_offset := by
        intro i low high
        rw [agrees i (by omega) (by omega),before'' i (by omega) high,
          close_folder_outside (.inr (by unfold children_at; omega))]
      obtain ⟨named,flags⟩ := tells mem header
      have holds := held mem entries
      refine .folder (by omega) named (close_folder_spec (holds_small holds) ?_ flags array) holds
        (held' mem (agrees_mono agrees (by omega) le_rfl))
      unfold children_at
      omega

/-- The archive of a directory holds it under a root without a name. -/
theorem main_spec {levels path : Nat} {f : Forest} (names : Nameable f) (short : Resolvable levels path f)
    (fits : sizeof_folder + 8 * f.count + f.total < 2 ^ 32) :
    ∃ m, main levels path f = some (m,sizeof_folder + 8 * f.count + f.total) ∧
      ∀ mem, Agrees mem m 0 (sizeof_folder + 8 * f.count + f.total) →
        ∃ offsets, HoldsFolder mem 0 offsets ∧ Holds mem offsets f := by
  have node_size : folder_size f.count = sizeof_folder + 8 * f.count := folder_size_eq (by omega)
  have alloc : (calculate_size f + BitVec.ofNat 32 (sizeof_folder + 8 * f.count)).toNat =
      sizeof_folder + 8 * f.count + f.total := by
    rw [BitVec.toNat_add,BitVec.toNat_ofNat,calculate_size_total]
    omega
  unfold main inc_offset
  dsimp only
  rw [node_size,alloc,if_neg (by omega)]
  dsimp only [Option.bind_some]
  set root : Memory := store64 (store64 (store64 (fun _ => 0) 0 MAGIC_NUMBER) 8 (sizeof_folder + 8 * f.count)) flags_at
    FLAG_ISFOLDER with rootEq
  obtain ⟨a,offsets,made,offset,-,before,held⟩ := @make_node_spec levels path f
    ⟨root,0 + (sizeof_folder + 8 * f.count),sizeof_folder + 8 * f.count + f.total⟩ names short (by dsimp only; omega) fits
  dsimp only at offset before held
  have count : offsets.length = f.count := holds_length (held a.ptr fun i _ _ => rfl)
  unfold sizeof_folder at *
  refine ⟨(close_folder a 0 offsets).ptr,?_,fun mem agrees => ⟨offsets,?_,?_⟩⟩
  · rw [made]
    simp only [Option.map_some,offset,Nat.zero_add]
  · have holds := held a.ptr fun i _ _ => rfl
    refine close_folder_spec (holds_small holds) (by unfold children_at; omega) ?_
      (agrees_mono agrees (Nat.zero_le _) (by unfold children_at; omega))
    refine @load64_stored _ (store64 (store64 (fun _ => 0) 0 MAGIC_NUMBER) 8 (288 + 8 * f.count)) _ _ (by decide)
      fun i low high => ?_
    unfold flags_at at low high
    rw [agrees i (by omega) (by omega),close_folder_outside (.inl (by unfold num_children_at; omega)),
      before i (by omega) (by omega),rootEq]
    rfl
  · refine held mem fun i low high => ?_
    rw [agrees i (by omega) (by omega),close_folder_outside (.inr (by unfold children_at; omega))]

end MicroOS.SafMake

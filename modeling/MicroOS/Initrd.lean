import MicroOS.Vfs

/-!
The reader of SAF archives. Places are offsets from the start of the image, which is in
memory as a whole; a node is the place of its header.
-/
namespace MicroOS.Initrd
open Vfs

abbrev Memory := Nat → UInt8

def load64 (m : Memory) (o : Nat) : Nat :=
  (m o).toNat + 2 ^ 8 * (m (o + 1)).toNat + 2 ^ 16 * (m (o + 2)).toNat + 2 ^ 24 * (m (o + 3)).toNat +
    2 ^ 32 * (m (o + 4)).toNat + 2 ^ 40 * (m (o + 5)).toNat + 2 ^ 48 * (m (o + 6)).toNat + 2 ^ 56 * (m (o + 7)).toNat

/-- Places in the headers: `hdr.name`, `hdr.flags`, then `size` and `addr` of a file, or
    `num_children` and `children` of a folder. -/
def name_at : Nat := 16
def flags_at : Nat := 272
def size_at : Nat := 280
def addr_at : Nat := 288
def num_children_at : Nat := 280
def children_at : Nat := 288

def FLAG_ISFOLDER : Nat := 1

/-- A failed assertion, or a name that is longer than the buffer of the lookup. -/
inductive Stop where
  | assertion | overrun
  deriving DecidableEq

def is_folder (m : Memory) (node : Nat) : Bool := load64 m (node + flags_at) == FLAG_ISFOLDER

/-- `(uint32_t) children[i]`. -/
def child (m : Memory) (folder i : Nat) : Nat := load64 m (folder + children_at + 8 * i) % 2 ^ 32

/-- Whether `strcasecmp` gives 0 for a string and the one that starts at a place. -/
def same_string (m : Memory) : Name → Nat → Bool
  | [],o => m o == 0
  | c :: name,o => m o != 0 && tolower c == tolower (m o) && same_string m name (o + 1)

/-- The loop over the children. -/
def child_named (m : Memory) (folder : Nat) (buffer : Name) : Option Nat :=
  ((List.range (load64 m (folder + num_children_at))).map (child m folder)).find? fun c =>
    same_string m buffer (c + name_at)

def initrd_find (m : Memory) (path : Name) (current : Nat) : Except Stop (Option Nat) :=
  match _left : skip_slashes path with
  | [] => .ok (some current)
  | c :: rest =>
    let copied := copy_until slash (c :: rest)
    if 128 ≤ copied.1.length then .error .overrun
    else if !is_folder m current then .error .assertion
    else
      match child_named m current copied.1 with
      | some node => initrd_find m copied.2 node
      | none => .ok none
termination_by path.length
decreasing_by
  all_goals
    have shorter := copy_shorter slash (c :: rest)
    have shortest := skip_shorter path
    rw [_left] at shortest
    simp only [List.length_cons] at shorter shortest
    omega

/-- `size` and `driver_specific_data` of an open file. -/
structure File where
  size : Word
  data : Nat

def initrd_open (m : Memory) (path : Name) : Except Stop (Option File) :=
  (initrd_find m path 0).map fun found =>
    found.bind fun node =>
      if is_folder m node then none
      else some ⟨BitVec.ofNat 32 (load64 m (node + size_at)),load64 m (node + addr_at) % 2 ^ 32⟩

def initrd_read (m : Memory) (f : File) (size offset : Word) : Except Stop (List UInt8) :=
  if offset + size ≤ f.size then .ok ((List.range size.toNat).map fun i => m (f.data + offset.toNat + i))
  else .error .assertion

/-- What `strcpy` takes of a name field. -/
def name_of (m : Memory) (node : Nat) : Name :=
  ((List.range 256).map fun i => m (node + name_at + i)).takeWhile (· ≠ 0)

/-- The entry that `children[idx]` says; outside of the array there is none. -/
def entry_at (m : Memory) (folder : Nat) (idx : Word) : Option Dir :=
  if 0 ≤ idx.toInt ∧ idx.toInt < load64 m (folder + num_children_at) then
    let node := child m folder idx.toNat
    some ⟨name_of m node,idx,false,if is_folder m node then .dir else .file⟩
  else none

/-- `idx` is compared with a 64-bit number without sign. The last result is `none` when
    `children` is read outside of its bounds. -/
def initrd_dir_at (m : Memory) (idx : Word) (path : Name) : Except Stop (Option Dir) :=
  (initrd_find m path 0).map fun found =>
    match found with
    | none => some .none
    | some folder =>
      if !is_folder m folder then some .none
      else if load64 m (folder + num_children_at) ≤ (idx.signExtend 64).toNat then some .none
      else entry_at m folder idx

/-- `initrd_find` on the components of its path. -/
def walk (m : Memory) : List Name → Nat → Except Stop (Option Nat)
  | [],current => .ok (some current)
  | name :: names,current =>
    if 128 ≤ name.length then .error .overrun
    else if !is_folder m current then .error .assertion
    else
      match child_named m current name with
      | some node => walk m names node
      | none => .ok none

theorem initrd_find_eq (m : Memory) (path : Name) (current : Nat) :
    initrd_find m path current = walk m (components path) current := by
  fun_induction initrd_find m path current with
  | case1 path current left => rw [← components_skip,left]; rfl
  | case2 path current c rest left copied long =>
    rw [← components_skip,left,components_cons (skip_head left),walk,if_pos long]
  | case3 path current c rest left copied short file =>
    rw [← components_skip,left,components_cons (skip_head left),walk,if_neg short,if_pos file]
  | case4 path current c rest left copied short folder node found ih =>
    rw [← components_skip,left,components_cons (skip_head left),walk,if_neg short,if_neg folder,found]
    exact ih
  | case5 path current c rest left copied short folder missing =>
    rw [← components_skip,left,components_cons (skip_head left),walk,if_neg short,if_neg folder,missing]

end MicroOS.Initrd

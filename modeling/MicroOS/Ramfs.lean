import MicroOS.RamfsFile
import MicroOS.Vfs

/-!
The tree of the ramfs. The childs of a directory and the size and pages of a file share
their storage, so every function also returns which of the two it looked at, and of what
node. Nodes are numbered in the order in which they are made; none ever goes away.
-/
namespace MicroOS.Ramfs
open Vfs

/-- What the union of a node holds. -/
inductive Content where
  | file (data : RamfsFile.Node)
  | dir (childs : List (Option Nat))

/-- `name` is what the string functions read at the place of the name. -/
structure Node where
  name : Name
  content : Content

structure Tree where
  nodes : List Node

inductive NodeType where
  | file | dir
  deriving DecidableEq

def NodeType.number : NodeType → UInt8
  | .file => 1
  | .dir => 2

def Content.type : Content → NodeType
  | .file _ => .file
  | .dir _ => .dir

def Tree.content (t : Tree) (id : Nat) : Option Content := t.nodes[id]?.map Node.content
def Tree.type (t : Tree) (id : Nat) : Option NodeType := (t.content id).map Content.type
def Tree.name (t : Tree) (id : Nat) : Name := (t.nodes[id]?.map Node.name).getD []

/-- What goes wrong beyond repair: memory is written past the end of a buffer, a name or
    the pages of a file; NULL is used as memory; the size of a file is followed as a pointer. -/
inductive Fault where
  | overrun | null | confused
  deriving DecidableEq

/-- One look into the union: through `childs`, or through `fsize` and `fdata`. -/
inductive Look where
  | childs (id : Nat)
  | data (id : Nat)
  deriving DecidableEq

/-- The number of `childs` of a node. -/
def CHILDS : Nat := 1000

/-- `childs`, whatever the node is: an empty file without pages reads as zeros. -/
def Tree.childs (t : Tree) (id : Nat) : Except Fault (List (Option Nat)) :=
  match t.content id with
  | some (.dir childs) => .ok childs
  | some (.file data) => if data.fsize = 0 ∧ data.fdata.isNone then .ok (List.replicate CHILDS none) else .error .confused
  | none => .error .confused

/-- The loop over the childs. -/
def Tree.child (t : Tree) (buffer : Name) : List (Option Nat) → Option Nat
  | [] => none
  | some id :: childs => if same_name buffer (t.name id) then some id else t.child buffer childs
  | none :: childs => t.child buffer childs

def ramfs_find (t : Tree) (path : Name) (current : Nat) : Except Fault (Option Nat) × List Look :=
  match _left : skip_slashes path with
  | [] => (.ok (some current),[])
  | c :: rest =>
    let copied := copy_until slash (c :: rest)
    if 128 ≤ copied.1.length then (.error .overrun,[])
    else
      match t.childs current with
      | .error fault => (.error fault,[.childs current])
      | .ok childs =>
        match t.child copied.1 childs with
        | some id => ((ramfs_find t copied.2 id).1,.childs current :: (ramfs_find t copied.2 id).2)
        | none => (.ok none,[.childs current])
termination_by path.length
decreasing_by
  all_goals
    have shorter := copy_shorter slash (c :: rest)
    have shortest := skip_shorter path
    rw [_left] at shortest
    simp only [List.length_cons] at shorter shortest
    omega

/-- The loop of `ramfs_split_path`: `to_create`, NULL at the start. -/
def last_part (path : Name) : Except Fault (Option Name) :=
  let copied := copy_until slash path
  if 128 ≤ copied.1.length then .error .overrun
  else if _left : copied.2 = [] then .ok none
  else (last_part copied.2).map fun later => some (later.getD copied.2)
termination_by path.length
decreasing_by
  have shorter := copy_shorter slash path
  have : (copy_until slash path).2.length ≠ 0 := fun z => _left (List.eq_nil_of_length_eq_zero z)
  omega

/-- The path of the directory and the name to create. -/
def ramfs_split_path (path : Name) : Except Fault (Name × Name) :=
  match last_part path with
  | .error fault => .error fault
  | .ok none => .error .null
  | .ok (some to_create) =>
    let count := path.length - to_create.length - 1
    if 511 < count then .error .overrun else .ok (path.take count,to_create)

/-- A new node is all zeros behind its type. -/
def new_content : NodeType → Content
  | .file => .file .new
  | .dir => .dir (List.replicate CHILDS none)

/-- What `strcpy` leaves in the 92 bytes before the type: a name that fills them runs into it. -/
def stored_name (type : NodeType) (to_create : Name) : Name :=
  if to_create.length = 92 then to_create ++ [type.number] else to_create

/-- A new node, and the directory with it in a free place. -/
def Tree.attach (t : Tree) (type : NodeType) (dir : Nat) (childs : List (Option Nat)) (place : Nat)
    (to_create : Name) : Tree where
  nodes := t.nodes.set dir ⟨t.name dir,.dir (childs.set place (some t.nodes.length))⟩ ++
    [⟨stored_name type to_create,new_content type⟩]

/-- The end of `ramfs_mkdir` and `ramfs_touch`. Without `room` `vmm_alloc` returns NULL. -/
def add_child (room : Bool) (type : NodeType) (t : Tree) (node : Nat) (to_create : Name) :
    Except Fault Tree × List Look :=
  match t.content node with
  | some (.dir childs) =>
    match childs.findIdx? (·.isNone) with
    | none => (.ok t,[.childs node])
    | some place =>
      if !room then (.error .null,[.childs node])
      else if 92 < to_create.length then (.error .overrun,[.childs node])
      else (.ok (t.attach type node childs place to_create),[.childs node])
  | _ => (.ok t,[])

/-- What `ramfs_mkdir` and `ramfs_touch` do, each with the type of its nodes. -/
def create (room : Bool) (type : NodeType) (t : Tree) (path : Name) : Except Fault Tree × List Look :=
  match ramfs_find t path 0 with
  | (.error fault,looks) => (.error fault,looks)
  | (.ok (some _),looks) => (.ok t,looks)
  | (.ok none,looks) =>
    match ramfs_split_path path with
    | .error fault => (.error fault,looks)
    | .ok (path_buf,to_create) =>
      match ramfs_find t path_buf 0 with
      | (.error fault,more) => (.error fault,looks ++ more)
      | (.ok none,more) => (.ok t,looks ++ more)
      | (.ok (some node),more) =>
        ((add_child room type t node to_create).1,looks ++ more ++ (add_child room type t node to_create).2)

def ramfs_mkdir (room : Bool) (t : Tree) (path : Name) : Except Fault Tree × List Look := create room .dir t path
def ramfs_touch (room : Bool) (t : Tree) (path : Name) : Except Fault Tree × List Look := create room .file t path

/-- The node of the handle, and its size. -/
def ramfs_open (t : Tree) (path : Name) : Except Fault (Option (Nat × Word)) × List Look :=
  match ramfs_find t path 0 with
  | (.error fault,looks) => (.error fault,looks)
  | (.ok none,looks) => (.ok none,looks)
  | (.ok (some id),looks) =>
    match t.content id with
    | some (.file data) => (.ok (some (id,data.fsize)),looks ++ [.data id])
    | _ => (.ok none,looks)

/-- The loop of `ramfs_dir_at`: the place it stops at, if it does not leave the array. -/
def stops_at : List (Option Nat) → Word → Option (Option Nat)
  | [],_ => none
  | child :: childs,current_idx =>
    let current_idx := if child.isSome then current_idx - 1 else current_idx
    if current_idx = 0 then some child else stops_at childs current_idx

def entry_type : NodeType → EntryType
  | .file => .file
  | .dir => .dir

def ramfs_dir_at (t : Tree) (idx : Word) (path : Name) : Except Fault Dir × List Look :=
  match ramfs_find t path 0 with
  | (.error fault,looks) => (.error fault,looks)
  | (.ok none,looks) => (.ok .none,looks)
  | (.ok (some node),looks) =>
    match t.content node with
    | some (.dir childs) =>
      match stops_at childs (idx + 1) with
      | none => (.ok .none,looks ++ [.childs node])
      | some none => (.error .null,looks ++ [.childs node])
      | some (some child) =>
        match t.type child with
        | some type => (.ok ⟨t.name child,idx,false,entry_type type⟩,looks ++ [.childs node])
        | none => (.ok .none,looks ++ [.childs node])
    | _ => (.ok .none,looks)

/-- `get_ramfs`: a root without childs. -/
def get_ramfs : Tree := ⟨[⟨[],new_content .dir⟩]⟩

/-- `ramfs_find` on the components of its path. -/
def walk (t : Tree) : List Name → Nat → Except Fault (Option Nat) × List Look
  | [],current => (.ok (some current),[])
  | name :: names,current =>
    if 128 ≤ name.length then (.error .overrun,[])
    else
      match t.childs current with
      | .error fault => (.error fault,[.childs current])
      | .ok childs =>
        match t.child name childs with
        | some id => ((walk t names id).1,.childs current :: (walk t names id).2)
        | none => (.ok none,[.childs current])

theorem ramfs_find_eq (t : Tree) (path : Name) (current : Nat) :
    ramfs_find t path current = walk t (components path) current := by
  fun_induction ramfs_find t path current with
  | case1 path current left => rw [← components_skip,left]; rfl
  | case2 path current c rest left copied long =>
    rw [← components_skip,left,components_cons (skip_head left),walk,if_pos long]
  | case3 path current c rest left copied short fault looked =>
    rw [← components_skip,left,components_cons (skip_head left),walk,if_neg short,looked]
  | case4 path current c rest left copied short childs looked id found ih =>
    rw [← components_skip,left,components_cons (skip_head left),walk,if_neg short,looked]
    dsimp only
    rw [found]
    dsimp only
    rw [ih]
  | case5 path current c rest left copied short childs looked missing =>
    rw [← components_skip,left,components_cons (skip_head left),walk,if_neg short,looked]
    dsimp only
    rw [missing]

end MicroOS.Ramfs

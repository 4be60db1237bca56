import MicroOS.RamfsLookups

/-!
The ramfs over whole runs: directories and files are made, files are opened, written and
truncated, directories are listed. As long as every path is one that can be looked up and
every write stays in the pages of its file, the childs are only looked at in directories,
and sizes and pages only in files.
-/
namespace MicroOS.Ramfs
open Runs Vfs
open Function (update update_of_ne)

/-- The node of an open file with other data. -/
def Tree.setData (t : Tree) (id : Nat) (data : RamfsFile.Node) : Tree where
  nodes := t.nodes.set id ⟨t.name id,.file data⟩

/-- A tree, the open handles with their nodes and sizes, and every look into a union so far. -/
structure State where
  tree : Tree
  handles : Nat → Option (Nat × Word)
  looks : List Look

inductive Action where
  | mkdir (path : Name) (room : Bool)
  | touch (path : Name) (room : Bool)
  | open (handle : Nat) (path : Name)
  | close (handle : Nat)
  | read (handle : Nat) (size offset : Word)
  | write (handle : Nat) (buf : Nat → UInt8) (size offset : Word) (fresh : Option (Nat → UInt8))
  | truncate (handle : Nat) (new_size : Word) (fresh : Option (Nat → UInt8))
  | dir_at (idx : Word) (path : Name)

instance (a : RamfsFile.Access) : Decidable a.Inside := inferInstanceAs (Decidable (_ ∨ _))

/-- A call that changes the data of the node of a handle. -/
def on_data (s : State) (handle : Nat)
    (call : RamfsFile.Node → RamfsFile.Node × Word × List RamfsFile.Access) : Except Fault State :=
  match s.handles handle with
  | none => .ok s
  | some (id,_) =>
    match s.tree.content id with
    | some (.file data) =>
      if ∀ a ∈ (call data).2.2, a.Inside then
        .ok { tree := s.tree.setData id (call data).1
              handles := update s.handles handle (some (id,(call data).2.1))
              looks := s.looks ++ [.data id] }
      else .error .overrun
    | _ => .error .confused

/-- A call with a handle that is not open does not happen. -/
def act (s : State) : Action → Except Fault State
  | .mkdir path room =>
    (ramfs_mkdir room s.tree path).1.map fun tree =>
      { s with tree := tree, looks := s.looks ++ (ramfs_mkdir room s.tree path).2 }
  | .touch path room =>
    (ramfs_touch room s.tree path).1.map fun tree =>
      { s with tree := tree, looks := s.looks ++ (ramfs_touch room s.tree path).2 }
  | .open handle path =>
    (ramfs_open s.tree path).1.map fun file =>
      { s with
        handles := if s.handles handle = none then update s.handles handle file else s.handles
        looks := s.looks ++ (ramfs_open s.tree path).2 }
  | .close handle => .ok { s with handles := update s.handles handle none }
  | .read handle _ _ =>
    match s.handles handle with
    | none => .ok s
    | some (id,_) => .ok { s with looks := s.looks ++ [.data id] }
  | .write handle buf size offset fresh => on_data s handle fun data => RamfsFile.ramfs_write fresh data buf size offset
  | .truncate handle new_size fresh => on_data s handle fun data => RamfsFile.ramfs_truncate fresh data new_size
  | .dir_at idx path =>
    (ramfs_dir_at s.tree idx path).1.map fun _ => { s with looks := s.looks ++ (ramfs_dir_at s.tree idx path).2 }

def State.start : State := ⟨get_ramfs,fun _ => none,[]⟩

/-- After a fault nothing is known of the memory any more. -/
def machine : System (Except Fault State) Action where
  start s := s = .ok .start
  step s a t := ∃ u, s = .ok u ∧ t = act u a

/-- What `ramfs_mkdir` and `ramfs_touch` need: a path that can be looked up, and if
    nothing is there, names that fit the buffers, a slash before the last one, and a page
    and a name that fits for the new node. -/
def Creatable (room : Bool) (t : Tree) (path : Name) : Prop :=
  Clear t (components path) 0 ∧ ((∀ id, ¬ Leads t 0 (components path) id) →
    (∀ name ∈ components path, name.length < 128) ∧ (∃ q r, path = q ++ slash :: r ∧ r ≠ []) ∧
      ∀ q r, Cut path q r → q.length ≤ 511 ∧ ∀ d childs, Leads t 0 (components q) d →
        t.content d = some (.dir childs) → none ∈ childs → room = true ∧ r.length ≤ 92)

/-- What a write needs to stay in the pages of the file. -/
def Writable (fresh : Option (Nat → UInt8)) (data : RamfsFile.Node) (size offset : Word) : Prop :=
  (size ≠ 0 → offset.toNat + size.toNat < 2 ^ 31) ∧
    (data.fsize.toNat < offset.toNat + size.toNat → offset.toNat + size.toNat < 2 ^ 31 →
      RamfsFile.Room fresh data (offset.toNat + size.toNat))

/-- `q` holds of the data of the node of a handle. -/
def OnData (s : State) (handle : Nat) (q : RamfsFile.Node → Prop) : Prop :=
  ∀ id size data, s.handles handle = some (id,size) → s.tree.content id = some (.file data) → q data

def Allowed (s : State) : Action → Prop
  | .mkdir path room => Creatable room s.tree path
  | .touch path room => Creatable room s.tree path
  | .open _ path => Clear s.tree (components path) 0
  | .close _ => True
  | .read _ _ _ => True
  | .write handle _ size offset fresh => OnData s handle fun data => Writable fresh data size offset
  | .truncate handle new_size fresh =>
    OnData s handle fun data => new_size.toNat < 2 ^ 31 ∧ RamfsFile.Room fresh data new_size.toNat
  | .dir_at idx path =>
    Clear s.tree (components path) 0 ∧ ∀ d childs, Leads s.tree 0 (components path) d →
      s.tree.content d = some (.dir childs) → childs.head? = some none → idx ≠ -1

def Guard (s : Except Fault State) (a : Action) : Prop := ∀ u, s = .ok u → Allowed u a

/-- A file has as many pages as its size asks for. -/
def Paged (data : RamfsFile.Node) : Prop :=
  data.fsize.toNat < 2 ^ 31 ∧ RamfsFile.Stored data.fsize 0 (fun _ => 0) data.fdata

structure Sound (t : Tree) : Prop where
  root : t.type 0 = some .dir
  childs : ∀ d childs, t.content d = some (.dir childs) →
    childs.length = CHILDS ∧ ∀ e, some e ∈ childs → e < t.nodes.length
  paged : ∀ id data, t.content id = some (.file data) → Paged data

/-- Every node of one tree is one of the same type in the other. -/
def Grown (t u : Tree) : Prop := t.nodes.length ≤ u.nodes.length ∧ ∀ id type, t.type id = some type → u.type id = some type

theorem grown_refl (t : Tree) : Grown t t := ⟨le_rfl,fun _ _ is => is⟩

theorem right_grown {t u : Tree} (grown : Grown t u) {look : Look} (right : Right t look) : Right u look := by
  cases look with
  | childs id => exact grown.2 id _ right
  | data id => exact grown.2 id _ right

variable {t : Tree} {type : NodeType} {d place : Nat} {childs : List (Option Nat)} {r : Name}

theorem content_inside {id : Nat} {content : Content} (found : t.content id = some content) : id < t.nodes.length := by
  obtain ⟨node,there,-⟩ := Option.map_eq_some_iff.1 found
  exact (List.getElem?_eq_some_iff.1 there).1

theorem attach_content (inside : d < t.nodes.length) (id : Nat) :
    (t.attach type d childs place r).content id =
      if id = t.nodes.length then some (new_content type)
      else if id = d then some (.dir (childs.set place (some t.nodes.length))) else t.content id := by
  unfold Tree.content Tree.attach
  dsimp only
  split_ifs with new at_dir
  · subst new
    rw [List.getElem?_append_right (by simp),List.length_set,Nat.sub_self]
    rfl
  · subst at_dir
    rw [List.getElem?_append_left (by simpa using inside),List.getElem?_set_self inside]
    rfl
  · by_cases less : id < t.nodes.length
    · rw [List.getElem?_append_left (by simpa using less),List.getElem?_set_ne (Ne.symm at_dir)]
    · rw [List.getElem?_append_right (by simp; omega),List.length_set,List.getElem?_eq_none (by simp; omega),
        List.getElem?_eq_none (by omega)]

theorem attach_length (t : Tree) (type : NodeType) (d place : Nat) (childs : List (Option Nat)) (r : Name) :
    (t.attach type d childs place r).nodes.length = t.nodes.length + 1 := by
  simp [Tree.attach]

theorem attach_grown (dir : t.content d = some (.dir childs)) : Grown t (t.attach type d childs place r) := by
  refine ⟨by rw [attach_length]; omega,fun id kind is => ?_⟩
  have inside := content_inside dir
  unfold Tree.type at *
  rw [attach_content inside]
  split_ifs with new at_dir
  · obtain ⟨content,found,-⟩ := Option.map_eq_some_iff.1 is
    have := content_inside found
    omega
  · subst at_dir
    rw [dir] at is
    exact is
  · exact is

theorem new_paged : Paged .new := ⟨by decide,rfl⟩

theorem attach_sound (sound : Sound t) (dir : t.content d = some (.dir childs)) : Sound (t.attach type d childs place r) := by
  have inside := content_inside dir
  refine ⟨(attach_grown dir).2 0 _ sound.root,?_,?_⟩
  · intro d' childs' found
    rw [attach_content inside] at found
    rw [attach_length]
    split_ifs at found with new at_dir
    · cases type with
      | file => cases found
      | dir =>
        cases found
        refine ⟨by simp,fun e member => ?_⟩
        simp at member
    · cases found
      refine ⟨by rw [List.length_set]; exact (sound.childs d childs dir).1,fun e member => ?_⟩
      obtain old | new := List.mem_or_eq_of_mem_set member
      · have := (sound.childs d childs dir).2 e old
        omega
      · cases new
        omega
    · refine ⟨(sound.childs d' childs' found).1,fun e member => ?_⟩
      have := (sound.childs d' childs' found).2 e member
      omega
  · intro id data found
    rw [attach_content inside] at found
    split_ifs at found with new at_dir
    · cases type with
      | file => cases found; exact new_paged
      | dir => cases found
    · cases found
    · exact sound.paged id data found

variable {data : RamfsFile.Node} {looks : List Look} {path : Name}

theorem setData_content {id : Nat} (inside : id < t.nodes.length) (id' : Nat) :
    (t.setData id data).content id' = if id' = id then some (.file data) else t.content id' := by
  unfold Tree.content Tree.setData
  dsimp only
  split_ifs with here
  · subst here
    rw [List.getElem?_set_self inside]
    rfl
  · rw [List.getElem?_set_ne (Ne.symm here)]

variable {old : RamfsFile.Node} {fresh : Option (Nat → UInt8)} {c : UInt8}

theorem setData_grown {id : Nat} (file : t.content id = some (.file old)) : Grown t (t.setData id data) := by
  refine ⟨by simp [Tree.setData],fun id' type is => ?_⟩
  unfold Tree.type at *
  rw [setData_content (content_inside file)]
  split_ifs with here
  · subst here
    rw [file] at is
    exact is
  · exact is

theorem setData_sound {id : Nat} (sound : Sound t)
    (file : t.content id = some (.file old)) (paged : Paged data) : Sound (t.setData id data) := by
  have inside := content_inside file
  have length : (t.setData id data).nodes.length = t.nodes.length := by simp [Tree.setData]
  refine ⟨(setData_grown file).2 0 _ sound.root,?_,?_⟩
  · intro d childs found
    rw [setData_content inside] at found
    rw [length]
    split_ifs at found with here
    · cases found
    · exact sound.childs d childs found
  · intro id' data' found
    rw [setData_content inside] at found
    split_ifs at found with here
    · cases found
      exact paged
    · exact sound.paged id' data' found

/-- A call that is fine, gives a sound tree and keeps the types. -/
def Makes (t : Tree) (r : Except Fault Tree × List Look) : Prop :=
  Fine t r ∧ ∀ u, r.1 = .ok u → Sound u ∧ Grown t u

theorem makes_same (sound : Sound t) (right : ∀ look ∈ looks, Right t look) : Makes t (.ok t,looks) := by
  refine ⟨⟨⟨t,rfl⟩,right⟩,?_⟩
  rintro u ⟨⟩
  exact ⟨sound,grown_refl t⟩

theorem add_child_makes {room : Bool} {type : NodeType} {t : Tree} {d : Nat} {r : Name} (sound : Sound t)
    (needs : ∀ childs, t.content d = some (.dir childs) → none ∈ childs → room = true ∧ r.length ≤ 92) :
    Makes t (add_child room type t d r) := by
  unfold add_child
  split
  · rename_i childs dir
    have right : Right t (.childs d) := type_of dir
    split
    · exact makes_same sound (by simpa using right)
    · rename_i place found
      have free : none ∈ childs := by
        obtain ⟨less,none,-⟩ := List.findIdx?_eq_some_iff_getElem.1 found
        rw [Option.isNone_iff_eq_none] at none
        exact none ▸ List.getElem_mem less
      obtain ⟨rfl,fits⟩ := needs childs dir free
      rw [if_neg (by simp),if_neg (by omega)]
      refine ⟨⟨⟨_,rfl⟩,by simpa using right⟩,?_⟩
      rintro u ⟨⟩
      exact ⟨attach_sound sound dir,attach_grown dir⟩
  · exact makes_same sound (by simp)

/-- A lookup that comes back, with what it looked at. -/
theorem find_cases (clear : Clear t (components path) 0) :
    (∃ id, ramfs_find t path 0 = (.ok (some id),(ramfs_find t path 0).2) ∧ Leads t 0 (components path) id) ∨
      ramfs_find t path 0 = (.ok none,(ramfs_find t path 0).2) ∧ ∀ id, ¬ Leads t 0 (components path) id := by
  have same (id : Nat) : (ramfs_find t path 0).1 = .ok (some id) ↔ Leads t 0 (components path) id := by
    rw [ramfs_find_eq,walk_leads clear]
  obtain ⟨⟨found,answer⟩,-⟩ := (ramfs_find_fine t path).2 clear
  cases found with
  | some id => exact .inl ⟨id,Prod.ext answer rfl,(same id).1 answer⟩
  | none =>
    refine .inr ⟨Prod.ext answer rfl,fun id leads => ?_⟩
    rw [(same id).2 leads] at answer
    cases answer

theorem create_makes {room : Bool} {type : NodeType} {t : Tree} {path : Name} (sound : Sound t)
    (creatable : Creatable room t path) : Makes t (create room type t path) := by
  obtain ⟨clear,needs⟩ := creatable
  have right := ((ramfs_find_fine t path).2 clear).2
  unfold create
  obtain ⟨id,found,-⟩ | ⟨missing,nowhere⟩ := find_cases clear
  · rw [found]
    exact makes_same sound right
  · obtain ⟨short,slashed,parts⟩ := needs nowhere
    obtain ⟨q,r,split,cut⟩ := split_spec short slashed (fun q r cut => (parts q r cut).1)
    have clear' : Clear t (components q) 0 := clear_append (cut_components cut ▸ clear)
    have right' := ((ramfs_find_fine t q).2 clear').2
    rw [missing]
    dsimp only
    rw [split]
    dsimp only
    obtain ⟨d,found,leads⟩ | ⟨missing,-⟩ := find_cases clear'
    · rw [found]
      obtain ⟨⟨fine,seen⟩,made⟩ := @add_child_makes _ type _ _ _ sound (fun childs => (parts q r cut).2 d childs leads)
      refine ⟨⟨fine,fun look member => ?_⟩,made⟩
      obtain earlier | now := List.mem_append.1 member
      · exact (List.mem_append.1 earlier).elim (right look) (right' look)
      · exact seen look now
    · rw [missing]
      exact makes_same sound fun look member => (List.mem_append.1 member).elim (right look) (right' look)

/-- What an open file is. -/
theorem open_fine (clear : Clear t (components path) 0) : Fine t (ramfs_open t path) ∧
      ∀ id size, (ramfs_open t path).1 = .ok (some (id,size)) → t.type id = some .file := by
  have right := ((ramfs_find_fine t path).2 clear).2
  unfold ramfs_open
  obtain ⟨id,found,-⟩ | ⟨missing,-⟩ := find_cases clear
  · rw [found]
    dsimp only
    split
    · rename_i data file
      refine ⟨⟨⟨_,rfl⟩,fun look member => ?_⟩,?_⟩
      · obtain earlier | now := List.mem_append.1 member
        · exact right look earlier
        · rw [List.mem_singleton.1 now]
          exact type_of file
      · rintro id size ⟨⟩
        exact type_of file
    · refine ⟨⟨⟨_,rfl⟩,right⟩,?_⟩
      rintro id size ⟨⟩
  · rw [missing]
    refine ⟨⟨⟨_,rfl⟩,right⟩,?_⟩
    rintro id size ⟨⟩

theorem dir_at_fine {idx : Word} (clear : Clear t (components path) 0)
    (inside : ∀ d childs, Leads t 0 (components path) d → t.content d = some (.dir childs) →
      childs.head? = some none → idx ≠ -1) : Fine t (ramfs_dir_at t idx path) := by
  have right := ((ramfs_find_fine t path).2 clear).2
  unfold ramfs_dir_at
  obtain ⟨d,found,leads⟩ | ⟨missing,-⟩ := find_cases clear
  · rw [found]
    dsimp only
    split
    · rename_i childs dir
      have seen : ∀ look ∈ (ramfs_find t path 0).2 ++ [Look.childs d], Right t look := by
        intro look member
        obtain earlier | now := List.mem_append.1 member
        · exact right look earlier
        · rw [List.mem_singleton.1 now]
          exact type_of dir
      split
      · exact ⟨⟨_,rfl⟩,seen⟩
      · rename_i stops
        exact absurd stops (stops_somewhere (inside d childs leads dir))
      · split <;> exact ⟨⟨_,rfl⟩,seen⟩
    · exact ⟨⟨_,rfl⟩,right⟩
  · rw [missing]
    exact ⟨⟨_,rfl⟩,right⟩

/-- A `memcpy` keeps the number of pages. -/
theorem paged_put {fsize : Word} {fdata : Option RamfsFile.Range} (small : fsize.toNat < 2 ^ 31)
    (stored : RamfsFile.Stored fsize 0 (fun _ => 0) fdata) (start size : Nat) (buf : Nat → UInt8) :
    Paged ⟨fsize,fdata.map fun r => r.put start size buf⟩ := by
  refine ⟨small,?_⟩
  cases fdata with
  | none => exact stored
  | some r => exact ⟨stored.1,fun i less => by omega⟩

theorem write_paged {buf : Nat → UInt8} {size offset : Word}
    (paged : Paged data) (writable : Writable fresh data size offset) :
    Paged (RamfsFile.ramfs_write fresh data buf size offset).1 ∧
      ∀ a ∈ (RamfsFile.ramfs_write fresh data buf size offset).2.2, a.Inside := by
  obtain ⟨small,stored⟩ := paged
  obtain ⟨fits,room⟩ := writable
  unfold RamfsFile.ramfs_write
  dsimp only
  by_cases ends : offset.toNat + size.toNat < 2 ^ 31
  · have sum : (offset + size).toNat = offset.toNat + size.toNat := by
      rw [BitVec.toNat_add,Nat.mod_eq_of_lt (by omega)]
    have grows : data.fsize.slt (offset + size) = decide (data.fsize.toNat < offset.toNat + size.toNat) := by
      rw [RamfsFile.slt_small small (by omega),sum]
    rw [grows]
    by_cases longer : data.fsize.toNat < offset.toNat + size.toNat
    · have needed : RamfsFile.Room fresh data (offset + size).toNat := sum ▸ room longer ends
      obtain ⟨resized,touched⟩ := @RamfsFile.resize_spec _ _ (offset + size) _ _ small (by omega) needed stored (by omega)
      rw [Nat.zero_min] at resized
      simp only [longer,decide_true,if_true]
      refine ⟨paged_put (by omega) resized _ _ _,fun a member => ?_⟩
      obtain earlier | last := List.mem_append.1 member
      · exact touched a earlier
      · rw [List.mem_singleton.1 last]
        exact RamfsFile.put_inside resized (by omega)
    · simp only [longer,decide_false,Bool.false_eq_true,if_false,List.nil_append,List.mem_singleton,forall_eq]
      exact ⟨paged_put small stored _ _ _,RamfsFile.put_inside stored (by omega)⟩
  · -- Nothing is written, and the sum is a negative number.
    have empty : size = 0 := by
      by_contra nonzero
      exact ends (fits nonzero)
    subst empty
    have negative : data.fsize.slt (offset + 0) = false := by
      have same : offset + 0 = offset := BitVec.add_zero offset
      rw [same,BitVec.slt_eq_decide,BitVec.toInt_eq_toNat_of_lt (by omega)]
      rw [decide_eq_false_iff_not,BitVec.toInt_eq_toNat_cond,if_neg (by simp at ends; omega)]
      omega
    rw [negative]
    simp only [Bool.false_eq_true,if_false,List.nil_append,List.mem_singleton,forall_eq]
    exact ⟨paged_put small stored _ _ _,.inl rfl⟩

theorem truncate_paged {new_size : Word} (paged : Paged data)
    (small : new_size.toNat < 2 ^ 31) (room : RamfsFile.Room fresh data new_size.toNat) :
    Paged (RamfsFile.ramfs_truncate fresh data new_size).1 ∧
      ∀ a ∈ (RamfsFile.ramfs_truncate fresh data new_size).2.2, a.Inside := by
  obtain ⟨resized,touched⟩ := RamfsFile.resize_spec paged.1 small room paged.2 (by omega)
  rw [Nat.zero_min] at resized
  exact ⟨⟨small,resized⟩,touched⟩

/-- Every look so far was a right one, and every handle is of a file. -/
structure Typed (s : State) : Prop where
  sound : Sound s.tree
  handles : ∀ h id size, s.handles h = some (id,size) → s.tree.type id = some .file
  looks : ∀ look ∈ s.looks, Right s.tree look

theorem typed_start : Typed .start where
  sound := by
    refine ⟨rfl,?_,?_⟩
    · intro d childs found
      have root : d = 0 := Nat.lt_one_iff.1 (content_inside found)
      subst root
      cases found
      exact ⟨by simp,fun e member => by simp at member⟩
    · intro id data found
      have root : id = 0 := Nat.lt_one_iff.1 (content_inside found)
      subst root
      cases found
  handles := by simp [State.start]
  looks := by simp [State.start]

/-- A call on the paths that is fine leaves the state typed. -/
theorem typed_call {s : State} {handles : Nat → Option (Nat × Word)} (typed : Typed s)
    (sound : Sound t) (grown : Grown s.tree t) (right : ∀ look ∈ looks, Right s.tree look)
    (files : ∀ h id size, handles h = some (id,size) → s.tree.type id = some .file) :
    Typed ⟨t,handles,s.looks ++ looks⟩ where
  sound := sound
  handles h id size found := grown.2 id _ (files h id size found)
  looks look member := right_grown grown ((List.mem_append.1 member).elim (typed.looks look) (right look))

theorem on_data_typed {s : State} {handle : Nat}
    {call : RamfsFile.Node → RamfsFile.Node × Word × List RamfsFile.Access} (typed : Typed s)
    (keeps : OnData s handle fun data => Paged data → Paged (call data).1 ∧ ∀ a ∈ (call data).2.2, a.Inside) :
    ∃ t, on_data s handle call = .ok t ∧ Typed t := by
  unfold on_data
  cases opened : s.handles handle with
  | none => exact ⟨s,rfl,typed⟩
  | some file =>
    obtain ⟨id,size⟩ := file
    have type := typed.handles handle id size opened
    obtain ⟨data,found⟩ := type_file type
    obtain ⟨paged,inside⟩ := keeps id size data opened found (typed.sound.paged id data found)
    dsimp only
    rw [found]
    dsimp only
    rw [if_pos inside]
    refine ⟨_,rfl,typed_call typed (setData_sound typed.sound found paged) (setData_grown found) ?_ ?_⟩
    · simpa [Right] using type
    · intro h id' size' given
      by_cases this : h = handle
      · subst this
        rw [Function.update_self] at given
        cases given
        exact type
      · rw [update_of_ne this] at given
        exact typed.handles h id' size' given

theorem act_typed {s : State} {a : Action} (typed : Typed s) (allowed : Allowed s a) :
    ∃ t, act s a = .ok t ∧ Typed t := by
  cases a with
  | mkdir path room =>
    obtain ⟨⟨⟨t,made⟩,right⟩,kept⟩ := @create_makes _ .dir _ _ typed.sound allowed
    obtain ⟨sound,grown⟩ := kept t made
    exact ⟨_,by rw [act,ramfs_mkdir,made]; rfl,typed_call typed sound grown right typed.handles⟩
  | touch path room =>
    obtain ⟨⟨⟨t,made⟩,right⟩,kept⟩ := @create_makes _ .file _ _ typed.sound allowed
    obtain ⟨sound,grown⟩ := kept t made
    exact ⟨_,by rw [act,ramfs_touch,made]; rfl,typed_call typed sound grown right typed.handles⟩
  | «open» handle path =>
    obtain ⟨⟨⟨file,opened⟩,right⟩,type⟩ := open_fine allowed
    refine ⟨_,by rw [act,opened]; rfl,typed_call typed typed.sound (grown_refl _) right ?_⟩
    intro h id size given
    split_ifs at given
    · by_cases this : h = handle
      · subst this
        rw [Function.update_self] at given
        exact type id size (given ▸ opened)
      · rw [update_of_ne this] at given
        exact typed.handles h id size given
    · exact typed.handles h id size given
  | close handle =>
    refine ⟨_,rfl,typed.sound,?_,typed.looks⟩
    intro h id size given
    by_cases this : h = handle
    · subst this
      simp at given
    · simp only [update_of_ne this] at given
      exact typed.handles h id size given
  | read handle size offset =>
    cases opened : s.handles handle with
    | none => exact ⟨s,by rw [act,opened],typed⟩
    | some file =>
      obtain ⟨id,size'⟩ := file
      refine ⟨_,by rw [act,opened],typed_call typed typed.sound (grown_refl _) ?_ typed.handles⟩
      simpa [Right] using typed.handles handle id size' opened
  | write handle buf size offset fresh =>
    exact on_data_typed typed fun id size' data opened found paged =>
      write_paged paged (allowed id size' data opened found)
  | truncate handle new_size fresh =>
    refine on_data_typed typed fun id size' data opened found paged => ?_
    obtain ⟨small,room⟩ := allowed id size' data opened found
    exact truncate_paged paged small room
  | dir_at idx path =>
    obtain ⟨⟨dir,listed⟩,right⟩ := dir_at_fine allowed.1 allowed.2
    exact ⟨_,by rw [act,listed]; rfl,typed_call typed typed.sound (grown_refl _) right typed.handles⟩

/-- In runs whose calls are all allowed, every look was at the half that the type of the
    node names; and there lookups are fine exactly on the clear paths. -/
theorem allowed_typed {s : Except Fault State} (reached : Reached (guarded machine Guard) s) :
    ∃ u, s = .ok u ∧ Sound u.tree ∧ (∀ look ∈ u.looks, Right u.tree look) ∧
      ∀ path, Fine u.tree (ramfs_find u.tree path 0) ↔ Clear u.tree (components path) 0 := by
  have kept : ∃ u, s = .ok u ∧ Typed u := by
    have initial : ∀ s, machine.start s → ∃ u, s = .ok u ∧ Typed u := by
      rintro s rfl
      exact ⟨.start,rfl,typed_start⟩
    have preserved : ∀ s a t, (∃ u, s = .ok u ∧ Typed u) → machine.step s a t → Guard s a → ∃ u, t = .ok u ∧ Typed u := by
      rintro s a t ⟨u,rfl,typed⟩ ⟨u',same,rfl⟩ allowed
      cases same
      exact act_typed typed (allowed u rfl)
    exact guarded_invariant initial preserved reached
  obtain ⟨u,rfl,typed⟩ := kept
  exact ⟨u,rfl,typed.sound,typed.looks,ramfs_find_fine u.tree⟩

/-- A call with a path of one name. -/
theorem creatable_in_root (root : t.type 0 = some .dir) (other : c ≠ slash) : Creatable true t [slash,c] := by
  have single : components [c] = [[c]] := components_name (by simp) (by simpa using other.symm)
  have one : components [slash,c] = [[c]] := (components_append [] [c]).trans single
  refine ⟨?_,fun _ => ⟨?_,⟨[],[c],rfl,by simp⟩,fun q r cut => ?_⟩⟩
  · rw [one]
    exact (clear_cons _ _ _ _).2 ⟨by simp,root,fun childs e found child => clear_nil _ _⟩
  · rw [one]
    simp
  · have length := congrArg List.length cut.1
    simp only [List.length_cons,List.length_append,List.length_nil] at length
    exact ⟨by omega,fun d childs leads dir free => ⟨rfl,by omega⟩⟩

theorem split_in_root (other : c ≠ slash) : ramfs_split_path [slash,c] = .ok ([],[c]) := by
  have plain : copy_until slash [c] = ([c],[]) := by simp [copy_until,other]
  have later : last_part [c] = .ok none := by
    rw [last_part,plain,if_neg (by simp),dif_pos rfl]
  have part : last_part [slash,c] = .ok (some [c]) := by
    rw [last_part,if_neg (by simp [copy_until]),dif_neg (by simp [copy_until])]
    change Except.map _ (last_part [c]) = _
    rw [later]
    rfl
  rw [ramfs_split_path,part]
  rfl

/-- A new node in the root. -/
theorem create_in_root {childs : List (Option Nat)} (dir : t.content 0 = some (.dir childs)) {place : Nat}
    (free : childs.findIdx? (·.isNone) = some place) {type : NodeType} {name r : Name} (one : components path = [name])
    (short : name.length < 128) (new : t.child name childs = none) (split : ramfs_split_path path = .ok ([],r)) (fits : r.length ≤ 92) :
    create true type t path = (.ok (t.attach type 0 childs place r),[.childs 0,.childs 0]) := by
  have missing : ramfs_find t path 0 = (.ok none,[.childs 0]) := by
    rw [ramfs_find_eq,one,walk,if_neg (by omega),childs_dir dir]
    dsimp only
    rw [new]
  have root : ramfs_find t [] 0 = (.ok (some 0),[]) := by
    rw [ramfs_find_eq]
    rfl
  have added : add_child true type t 0 r = (.ok (t.attach type 0 childs place r),[.childs 0]) := by
    rw [add_child,dir]
    dsimp only
    rw [free]
    dsimp only
    rw [if_neg (by simp),if_neg (by omega)]
  rw [create,missing]
  dsimp only
  rw [split]
  dsimp only
  rw [root]
  dsimp only
  rw [added]
  rfl

/-- `/a`, `/b` and `/a/b`. -/
def path_a : Name := [47,97]
def path_b : Name := [47,98]
def path_ab : Name := [47,97,47,98]

/-- The root with the directory `a`, and with the file `b` too. -/
def oneDir : Tree := get_ramfs.attach .dir 0 (List.replicate CHILDS none) 0 [97]
def dirAndFile : Tree := oneDir.attach .file 0 ((List.replicate CHILDS none).set 0 (some 1)) 1 [98]

theorem mkdir_a : ramfs_mkdir true get_ramfs path_a = (.ok oneDir,[.childs 0,.childs 0]) :=
  create_in_root rfl rfl rfl (by decide) (child_replicate _ _ _) (split_in_root (by decide)) (by decide)

theorem touch_b : ramfs_touch true oneDir path_b = (.ok dirAndFile,[.childs 0,.childs 0]) := by
  refine create_in_root rfl rfl rfl (by decide) ?_ (split_in_root (by decide)) (by decide)
  change oneDir.child [98] (some 1 :: List.replicate 999 none) = none
  rw [Tree.child,if_neg (by decide),child_replicate]

theorem open_b : ramfs_open dirAndFile path_b = (.ok (some (2,0)),[.childs 0,.data 2]) := by
  have found : ramfs_find dirAndFile path_b 0 = (.ok (some 2),[.childs 0]) := by
    rw [ramfs_find_eq]
    rfl
  rw [ramfs_open,found]
  rfl

theorem act_mkdir {s : State} {room : Bool} (made : ramfs_mkdir room s.tree path = (.ok t,looks)) :
    act s (.mkdir path room) = .ok { s with tree := t, looks := s.looks ++ looks } := by
  rw [act,made]
  rfl

theorem act_touch {s : State} {path : Name} {room : Bool} {t : Tree} {looks : List Look}
    (made : ramfs_touch room s.tree path = (.ok t,looks)) :
    act s (.touch path room) = .ok { s with tree := t, looks := s.looks ++ looks } := by
  rw [act,made]
  rfl

theorem act_open {s : State} {handle : Nat} {path : Name} {file : Option (Nat × Word)} {looks : List Look}
    (closed : s.handles handle = none) (opened : ramfs_open s.tree path = (.ok file,looks)) :
    act s (.open handle path) = .ok { s with handles := update s.handles handle file, looks := s.looks ++ looks } := by
  rw [act,opened]
  simp only [if_pos closed]
  rfl

/-- `mkdir /a`, `touch /b`, and `/b` is opened and read. -/
def after_touch : State := ⟨dirAndFile,fun _ => none,[.childs 0,.childs 0,.childs 0,.childs 0]⟩
def after_open : State := { after_touch with
  handles := update after_touch.handles 0 (some (2,0)), looks := after_touch.looks ++ [.childs 0,.data 2] }

theorem allowed_typed_read : ∃ u, Reached (guarded machine Guard) (.ok u) ∧ Sound u.tree ∧ Look.data 2 ∈ u.looks ∧
    u.tree.type 1 = some .dir ∧ u.tree.type 2 = some .file := by
  have run : Run (guarded machine Guard) [.mkdir path_a true,.touch path_b true,.open 0 path_b,.read 0 1 0] (.ok .start)
      (.ok { after_open with looks := after_open.looks ++ [.data 2] }) := by
    refine .step ⟨⟨_,rfl,(act_mkdir mkdir_a).symm⟩,?_⟩ (.step ⟨⟨_,rfl,(act_touch touch_b).symm⟩,?_⟩
      (.step ⟨⟨after_touch,rfl,(act_open rfl open_b).symm⟩,?_⟩ (.step ⟨⟨after_open,rfl,rfl⟩,?_⟩ (.done _))))
    · rintro u ⟨⟩
      exact creatable_in_root rfl (by decide)
    · rintro u ⟨⟩
      exact creatable_in_root rfl (by decide)
    · rintro u ⟨⟩
      exact (creatable_in_root (t := dirAndFile) rfl (c := 98) (by decide)).1
    · rintro u -
      trivial
  have reached : Reached (guarded machine Guard) (.ok { after_open with looks := after_open.looks ++ [.data 2] }) :=
    ⟨_,_,rfl,run⟩
  obtain ⟨u,is,sound,-⟩ := allowed_typed reached
  cases is
  exact ⟨_,reached,sound,by simp,rfl,rfl⟩

/-- The root with the file `a` in it. -/
def oneFile : Tree := get_ramfs.attach .file 0 (List.replicate CHILDS none) 0 [97]

theorem touch_a : ramfs_touch true get_ramfs path_a = (.ok oneFile,[.childs 0,.childs 0]) :=
  create_in_root rfl rfl rfl (by decide) (child_replicate _ _ _) (split_in_root (by decide)) (by decide)

theorem open_ab : ramfs_open oneFile path_ab = (.ok none,[.childs 0,.childs 1]) := by
  have found : ramfs_find oneFile path_ab 0 = (.ok none,[.childs 0,.childs 1]) := by
    rw [ramfs_find_eq]
    change walk oneFile [[97],[98]] 0 = _
    rw [walk,if_neg (by decide),childs_dir rfl]
    change ((walk oneFile [[98]] 1).1,_ :: (walk oneFile [[98]] 1).2) = _
    have empty : oneFile.childs 1 = .ok (List.replicate CHILDS none) := childs_new rfl
    rw [walk,if_neg (by decide),empty]
    dsimp only
    rw [child_replicate]
  rw [ramfs_open,found]

/-- Opening `/a/b`, where `a` is a file, looks for `b` among the childs of the file. -/
theorem childs_of_file : ¬ ∀ s, Reached machine (.ok s) → ∀ look ∈ s.looks, Right s.tree look := by
  intro all
  have first := @act_touch .start path_a true _ _ touch_a
  have second := @act_open ⟨oneFile,fun _ => none,[] ++ [.childs 0,.childs 0]⟩ 0 path_ab _ _ rfl open_ab
  have run : Run machine [.touch path_a true,.open 0 path_ab] (.ok .start)
      (act ⟨oneFile,fun _ => none,[] ++ [.childs 0,.childs 0]⟩ (.open 0 path_ab)) :=
    .step ⟨_,rfl,first.symm⟩ (.step ⟨_,rfl,rfl⟩ (.done _))
  rw [second] at run
  have right := all _ ⟨_,_,rfl,run⟩ (.childs 1) (by simp)
  have file : oneFile.type 1 = some .file := rfl
  have dir : oneFile.type 1 = some .dir := right
  rw [file] at dir
  cases dir

end MicroOS.Ramfs

import MicroOS.DirEntries
import MicroOS.SafMake

/-!
What the kernel reads from an archive that `saf-make` wrote. Lookups in the archive follow
the tree (`walk_spec`), so that files give back their bytes and folders list their entries;
only where a path goes on below a file, or a name is too long for the lookup's buffer, there
is no answer at all.
-/
namespace MicroOS.SafMake
open Vfs Initrd DirEntries

/-- A file or a folder. -/
inductive Item where
  | file (bytes : List UInt8)
  | folder (children : Forest)

def Item.type : Item → EntryType
  | .file _ => .file
  | .folder _ => .dir

def Forest.entries : Forest → List (Name × Item)
  | .nil => []
  | .file name bytes rest => (name,.file bytes) :: rest.entries
  | .folder name children rest => (name,.folder children) :: rest.entries

/-- Where names lead in a tree; case does not matter. -/
inductive Leads : Item → List Name → Item → Prop
  | here (item : Item) : Leads item [] item
  | down {f : Forest} {name name' : Name} {names : List Name} {item found : Item} (entry : (name',item) ∈ f.entries)
      (same : same_name name name' = true) (rest : Leads item names found) : Leads (.folder f) (name :: names) found

/-- The names in a folder differ without regard to case, here and in every folder below. -/
def Distinct : Forest → Prop
  | .nil => True
  | .file name _ rest => (∀ e ∈ rest.entries, same_name name e.1 = false) ∧ Distinct rest
  | .folder name children rest => (∀ e ∈ rest.entries, same_name name e.1 = false) ∧ Distinct children ∧ Distinct rest

/-- Every name that is looked up fits the buffer, and none is looked up in a file. -/
def Fair : List Name → Item → Prop
  | [],_ => True
  | _ :: _,.file _ => False
  | name :: names,.folder f => name.length < 128 ∧ ∀ e ∈ f.entries, same_name name e.1 = true → Fair names e.2

/-- What the calls on a path give for a file or a folder. -/
def Represents (m : Memory) (path : Name) : Item → Prop
  | .file bytes => ∃ f, initrd_open m path = .ok (some f) ∧ f.size.toNat = bytes.length ∧
      ∀ size offset, offset.toNat + size.toNat ≤ bytes.length →
        initrd_read m f size offset = .ok ((bytes.drop offset.toNat).take size.toNat)
  | .folder f => ∀ idx, ∃ answer, initrd_dir_at m idx path = .ok answer ∧
      Enumerates (f.entries.map fun e => (e.1,e.2.type)) idx answer

/-- A path that leads somewhere in the tree leads to the same in the archive, any other is not found. -/
def RoundTrip (m : Memory) (f : Forest) (path : Name) : Prop :=
  (∀ item, Leads (.folder f) (components path) item → ∃ node, initrd_find m path 0 = .ok (some node) ∧
    (is_folder m node = true ↔ item.type = .dir) ∧ Represents m path item) ∧
      ((∀ item, ¬ Leads (.folder f) (components path) item) → initrd_find m path 0 = .ok none)

theorem same_string_eq {m : Memory} {o : Nat} {name : Name} (chars : ∀ i < name.length, m (o + i) = name.getD i 0)
    (ends : m (o + name.length) = 0) (plain : (0 : UInt8) ∉ name) (buffer : Name) :
    Initrd.same_string m buffer o = same_name buffer name := by
  induction buffer generalizing o name with
  | nil =>
    cases name with
    | nil =>
      have zero : m o = 0 := ends
      simp [Initrd.same_string,same_name,zero]
    | cons c name =>
      have first : m o = c := chars 0 (by simp)
      have nonzero : c ≠ 0 := fun is => plain (is ▸ List.mem_cons_self)
      simp [Initrd.same_string,same_name,first,nonzero]
  | cons b buffer ih =>
    cases name with
    | nil =>
      have zero : m o = 0 := ends
      simp [Initrd.same_string,same_name,zero]
    | cons c name =>
      have first : m o = c := chars 0 (by simp)
      have nonzero : c ≠ 0 := fun is => plain (is ▸ List.mem_cons_self)
      have rest := @ih (o + 1) name
        (fun i inside => by
          have := chars (i + 1) (by simpa using inside)
          rw [← Nat.add_assoc,Nat.add_right_comm] at this
          exact this)
        (by rw [← ends,List.length_cons]; congr 1; omega) (fun member => plain (List.mem_cons_of_mem _ member))
      have goes_on : (c != 0) = true := by simpa using nonzero
      simp [Initrd.same_string,same_name,first,goes_on,rest]

variable {m : Memory} {node : Nat} {name : Name} {f : Forest} {offsets : List Nat} {item : Item}

theorem name_of_eq (named : Named m node name) (short : name.length < 256)
    (plain : (0 : UInt8) ∉ name) : name_of m node = name := by
  have field : (List.range 256).map (fun i => m (node + name_at + i)) =
      name ++ 0 :: (List.range (255 - name.length)).map (fun i => m (node + name_at + (name.length + 1 + i))) := by
    have parts : 256 = name.length + (1 + (255 - name.length)) := by omega
    rw [parts,List.range_add,List.map_append,List.map_map]
    congr 1
    · apply List.ext_getElem
      · simp
      intro i inside inside'
      rw [List.getElem_map,List.getElem_range,named.chars i inside',List.getD_eq_getElem?_getD,
        List.getElem?_eq_getElem inside',Option.getD_some]
    · rw [List.range_add,List.map_append]
      have zero : m (node + (name_at + name.length)) = 0 := by
        rw [← Nat.add_assoc]
        exact named.ends
      simp [Function.comp_def,zero,Nat.add_assoc]
  unfold name_of
  rw [field,List.takeWhile_append_of_pos]
  · simp
  · intro c member
    simp only [ne_eq,decide_not,Bool.not_eq_true',decide_eq_false_iff_not]
    exact fun is => plain (is ▸ member)

/-- The node of a file or a folder in an archive. -/
def Located (m : Memory) (node : Nat) : Item → Prop
  | .file bytes => HoldsFile m node bytes
  | .folder f => ∃ offsets, HoldsFolder m node offsets ∧ Holds m offsets f

def ItemNameable : Item → Prop
  | .file _ => True
  | .folder f => Nameable f

def ItemDistinct : Item → Prop
  | .file _ => True
  | .folder f => Distinct f

theorem entries_nameable (names : Nameable f) : ∀ e ∈ f.entries, ItemNameable e.2 := by
  induction f with
  | nil => simp [Forest.entries]
  | file name bytes rest ih =>
    simp only [Forest.entries,List.forall_mem_cons]
    exact ⟨trivial,ih names.2⟩
  | folder name children rest _ ih =>
    simp only [Forest.entries,List.forall_mem_cons]
    exact ⟨names.2.1,ih names.2.2⟩

theorem entries_distinct (distinct : Distinct f) : ∀ e ∈ f.entries, ItemDistinct e.2 := by
  induction f with
  | nil => simp [Forest.entries]
  | file name bytes rest ih =>
    simp only [Forest.entries,List.forall_mem_cons]
    exact ⟨trivial,ih distinct.2⟩
  | folder name children rest _ ih =>
    simp only [Forest.entries,List.forall_mem_cons]
    exact ⟨distinct.2.1,ih distinct.2.2⟩

theorem same_name_same {a b c : Name} (one : same_name a b = true) (other : same_name a c = true) :
    same_name b c = true := by
  rw [same_name_iff] at *
  exact one.symm.trans other

theorem unique_cons {first e e' : Name × Item} {rest : List (Name × Item)} (apart : ∀ x ∈ rest, same_name first.1 x.1 = false)
    (both : same_name e.1 e'.1 = true) (back : same_name e'.1 e.1 = true)
    (later : e ∈ rest → e' ∈ rest → e = e') (one : e ∈ first :: rest) (other : e' ∈ first :: rest) : e = e' := by
  obtain rfl | one' := List.mem_cons.1 one
  · obtain rfl | other' := List.mem_cons.1 other
    · rfl
    · rw [apart e' other'] at both; cases both
  · obtain rfl | other' := List.mem_cons.1 other
    · rw [apart e one'] at back; cases back
    · exact later one' other'

/-- A name belongs to one entry of a folder only. -/
theorem distinct_unique (distinct : Distinct f) {e e' : Name × Item} (one : e ∈ f.entries)
    (other : e' ∈ f.entries) (same : same_name name e.1 = true) (same' : same_name name e'.1 = true) : e = e' := by
  have both := same_name_same same same'
  have back := same_name_same same' same
  induction f with
  | nil => simp [Forest.entries] at one
  | file name' bytes rest ih =>
    obtain ⟨apart,later⟩ := distinct
    exact unique_cons apart both back (ih later) one other
  | folder name' children rest _ ih =>
    obtain ⟨apart,-,later⟩ := distinct
    exact unique_cons apart both back (ih later) one other

theorem holds_place (holds : Holds m offsets f) : ∀ o ∈ offsets, o < 2 ^ 32 := by
  induction holds with
  | nil => simp
  | file place named node later ih => exact List.forall_mem_cons.2 ⟨place,ih⟩
  | folder place named node below later _ ih => exact List.forall_mem_cons.2 ⟨place,ih⟩

/-- The array of a folder, as the loops of the reader go through it. -/
theorem children_eq (folder : HoldsFolder m node offsets) (place : ∀ o ∈ offsets, o < 2 ^ 32) :
    (List.range (load64 m (node + num_children_at))).map (child m node) = offsets := by
  rw [folder.num_children]
  apply List.ext_getElem
  · simp
  intro i inside inside'
  rw [List.getElem_map,List.getElem_range,child,folder.children i inside',List.getD_eq_getElem?_getD,
    List.getElem?_eq_getElem inside',Option.getD_some]
  exact Nat.mod_eq_of_lt (place _ (List.getElem_mem inside'))

/-- The lookup among the entries of a folder. -/
theorem find_entry (holds : Holds m offsets f) (names : Nameable f) (buffer : Name) :
    (offsets.find? (fun c => Initrd.same_string m buffer (c + name_at)) = none ∧
        ∀ e ∈ f.entries, same_name buffer e.1 = false) ∨
      ∃ o e, offsets.find? (fun c => Initrd.same_string m buffer (c + name_at)) = some o ∧ e ∈ f.entries ∧
        same_name buffer e.1 = true ∧ Located m o e.2 := by
  induction holds with
  | nil => exact .inl ⟨rfl,by simp [Forest.entries]⟩
  | @file o offsets name bytes rest place named node later ih =>
    have compared := same_string_eq named.chars named.ends names.1.2 buffer
    rw [List.find?_cons,compared]
    cases same : same_name buffer name with
    | true => exact .inr ⟨o,(name,.file bytes),rfl,List.mem_cons_self,same,node⟩
    | false =>
      obtain ⟨none,others⟩ | ⟨o',e,found,member,is,located⟩ := ih names.2
      · exact .inl ⟨none,List.forall_mem_cons.2 ⟨same,others⟩⟩
      · exact .inr ⟨o',e,found,List.mem_cons_of_mem _ member,is,located⟩
  | @folder o offsets inner name children rest place named node below later _ ih =>
    have compared := same_string_eq named.chars named.ends names.1.2 buffer
    rw [List.find?_cons,compared]
    cases same : same_name buffer name with
    | true => exact .inr ⟨o,(name,.folder children),rfl,List.mem_cons_self,same,inner,node,below⟩
    | false =>
      obtain ⟨none,others⟩ | ⟨o',e,found,member,is,located⟩ := ih names.2.2
      · exact .inl ⟨none,List.forall_mem_cons.2 ⟨same,others⟩⟩
      · exact .inr ⟨o',e,found,List.mem_cons_of_mem _ member,is,located⟩

/-- A lookup in a folder tries its entries. -/
theorem folder_children {f : Forest} (located : Located m node (.folder f)) : is_folder m node = true ∧
    ∃ offsets, Holds m offsets f ∧ ∀ name, child_named m node name =
      offsets.find? fun c => Initrd.same_string m name (c + name_at) := by
  obtain ⟨offsets,folder,holds⟩ := located
  refine ⟨by simp [is_folder,folder.flags],offsets,holds,fun name => ?_⟩
  rw [child_named,children_eq folder (holds_place holds)]

theorem folder_flag (located : Located m node item) : is_folder m node = true ↔ item.type = .dir := by
  cases item with
  | file bytes =>
    have flags : load64 m (node + flags_at) = 0 := located.flags
    simp [is_folder,flags,Item.type,FLAG_ISFOLDER]
  | folder f =>
    obtain ⟨offsets,folder,-⟩ := located
    simp [is_folder,folder.flags,Item.type]

section
variable {m : Memory} {names : List Name} {node : Nat} {item : Item} (located : Located m node item)
  (nameable : ItemNameable item) (distinct : ItemDistinct item)
include located nameable distinct

/-- A fair lookup follows the tree. -/
theorem walk_spec (fair : Fair names item) :
    (∃ node' found, Initrd.walk m names node = .ok (some node') ∧ Located m node' found ∧ ItemNameable found ∧
        ∀ other, Leads item names other ↔ other = found) ∨
      Initrd.walk m names node = .ok none ∧ ∀ other, ¬ Leads item names other := by
  induction names generalizing node item with
  | nil =>
    refine .inl ⟨node,item,rfl,located,nameable,fun other => ⟨fun leads => ?_,fun is => is ▸ .here item⟩⟩
    cases leads
    rfl
  | cons name names ih =>
    cases item with
    | file bytes => exact fair.elim
    | folder f =>
      obtain ⟨short,below⟩ := fair
      obtain ⟨flag,offsets,holds,found⟩ := folder_children located
      rw [Initrd.walk,if_neg (by omega),if_neg (by simp [flag]),found]
      obtain ⟨none,others⟩ | ⟨o,e,some,member,same,located⟩ := find_entry holds nameable name
      · rw [none]
        refine .inr ⟨rfl,fun other leads => ?_⟩
        cases leads with
        | down entry same rest =>
          rw [others _ entry] at same
          cases same
      · rw [some]
        have through (other : Item) : Leads (.folder f) (name :: names) other ↔ Leads e.2 names other := by
          constructor
          · intro leads
            cases leads with
            | down entry same' rest =>
              rw [← distinct_unique distinct entry member same' same]
              exact rest
          · exact fun rest => .down member same rest
        simp only [through]
        exact ih located (entries_nameable nameable e member) (entries_distinct distinct e member) (below e member same)

/-- An unfair lookup has no answer. -/
theorem walk_unfair (unfair : ¬ Fair names item) : ∃ stop, Initrd.walk m names node = .error stop := by
  induction names generalizing node item with
  | nil => exact absurd trivial unfair
  | cons name names ih =>
    unfold Initrd.walk
    by_cases short : name.length < 128
    · rw [if_neg (by omega)]
      cases item with
      | file bytes =>
        have file : is_folder m node = false := by
          rw [← Bool.not_eq_true,folder_flag located]
          simp [Item.type]
        rw [if_pos (by simp [file])]
        exact ⟨_,rfl⟩
      | folder f =>
        obtain ⟨flag,offsets,holds,found⟩ := folder_children located
        rw [if_neg (by simp [flag]),found]
        obtain ⟨e',member',same',below⟩ : ∃ e ∈ f.entries, same_name name e.1 = true ∧ ¬ Fair names e.2 := by
          by_contra none
          refine unfair ⟨short,fun e member same => ?_⟩
          by_contra below
          exact none ⟨e,member,same,below⟩
        obtain ⟨-,others⟩ | ⟨o,e,some,member,same,located⟩ := find_entry holds nameable name
        · rw [others e' member'] at same'
          cases same'
        · rw [some]
          obtain rfl := distinct_unique distinct member' member same' same
          exact ih located (entries_nameable nameable e' member) (entries_distinct distinct e' member) below
    · rw [if_pos (by omega)]
      exact ⟨_,rfl⟩

end

theorem entries_eq (holds : Holds m offsets f) (names : Nameable f) :
    offsets.map (fun o => (name_of m o,if is_folder m o then EntryType.dir else .file)) =
      f.entries.map fun e => (e.1,e.2.type) := by
  induction holds with
  | nil => rfl
  | @file o offsets name bytes rest place named node later ih =>
    have file : is_folder m o = false := by simp [is_folder,node.flags,FLAG_ISFOLDER]
    rw [List.map_cons,ih names.2,name_of_eq named names.1.1 names.1.2,file]
    rfl
  | @folder o offsets inner name children rest place named node below later _ ih =>
    have folder : is_folder m o = true := by simp [is_folder,node.flags]
    rw [List.map_cons,ih names.2.2,name_of_eq named names.1.1 names.1.2,folder]
    rfl

theorem located_represents {path : Name} (located : Located m node item)
    (nameable : ItemNameable item) (found : initrd_find m path 0 = .ok (some node)) : Represents m path item := by
  cases item with
  | file bytes =>
    obtain ⟨flags,size,addr,bound,at_addr,content⟩ := located
    have file : is_folder m node = false := by simp [is_folder,flags,FLAG_ISFOLDER]
    have length : (BitVec.ofNat 32 bytes.length).toNat = bytes.length := Nat.mod_eq_of_lt (by omega)
    refine ⟨⟨BitVec.ofNat 32 bytes.length,addr⟩,?_,length,fun count offset inside => ?_⟩
    · rw [initrd_open,found]
      simp only [Except.map,Option.bind_some,file,Bool.false_eq_true,if_false,size,at_addr]
      rw [Nat.mod_eq_of_lt (by omega : addr < 2 ^ 32)]
    · have passes : offset + count ≤ BitVec.ofNat 32 bytes.length := by
        rw [BitVec.le_def,length,BitVec.toNat_add,Nat.mod_eq_of_lt (by omega)]
        exact inside
      rw [initrd_read,if_pos passes]
      congr 1
      apply List.ext_getElem
      · simp
        omega
      intro i small small'
      have small : i < count.toNat := by simpa using small
      rw [List.getElem_map,List.getElem_range,Nat.add_assoc,content (offset.toNat + i) (by omega),List.getElem_take,
        List.getElem_drop,List.getD_eq_getElem?_getD,List.getElem?_eq_getElem (by omega),Option.getD_some]
  | folder f =>
    obtain ⟨offsets,folder,holds⟩ := located
    have is : Folder m node := ⟨by simp [is_folder,folder.flags],by rw [folder.num_children]; exact folder.fits⟩
    have entries : initrd_entries m node = f.entries.map fun e => (e.1,e.2.type) := by
      rw [← entries_eq holds nameable]
      conv_rhs => rw [← children_eq folder (holds_place holds)]
      rw [List.map_map]
      rfl
    intro idx
    obtain ⟨answer,listed,enumerates⟩ := initrd_listing is found idx
    exact ⟨answer,listed,entries ▸ enumerates⟩

/-- A memory that holds a tree gives it back on the fair paths, and on no others. -/
theorem round_trip_iff (folder : HoldsFolder m 0 offsets)
    (holds : Holds m offsets f) (names : Nameable f) (distinct : Distinct f) (path : Name) :
    RoundTrip m f path ↔ Fair (components path) (.folder f) := by
  have located : Located m 0 (.folder f) := ⟨offsets,folder,holds⟩
  unfold RoundTrip
  constructor
  · rintro ⟨leads,missing⟩
    by_contra unfair
    obtain ⟨stop,stopped⟩ := @walk_unfair m _ 0 (.folder f) located names distinct unfair
    rw [← initrd_find_eq] at stopped
    by_cases somewhere : ∃ item, Leads (.folder f) (components path) item
    · obtain ⟨item,leading⟩ := somewhere
      obtain ⟨node,found,-⟩ := leads item leading
      rw [stopped] at found
      cases found
    · have found := missing fun item leading => somewhere ⟨item,leading⟩
      rw [stopped] at found
      cases found
  · intro fair
    obtain ⟨node,item,found,at_node,nameable,only⟩ | ⟨found,nowhere⟩ :=
      @walk_spec m _ 0 (.folder f) located names distinct fair
    · rw [← initrd_find_eq] at found
      refine ⟨fun other leading => ?_,fun nowhere => absurd ((only item).2 rfl) (nowhere item)⟩
      obtain rfl := (only other).1 leading
      exact ⟨node,found,folder_flag at_node,located_represents at_node nameable found⟩
    · rw [← initrd_find_eq] at found
      exact ⟨fun item leading => absurd leading (nowhere item),fun _ => found⟩

/-- Archives are written for every tree whose names, paths, depth and size fit, and the kernel
    reads the tree back from any memory that begins with the archive, on the fair paths and
    on no others. -/
theorem saf_round_trip {levels path : Nat} {f : Forest} (names : Nameable f) (distinct : Distinct f) (short : Resolvable levels path f)
    (fits : sizeof_folder + 8 * f.count + f.total < 2 ^ 32) :
    ∃ archive length, main levels path f = some (archive,length) ∧ ∀ m, Agrees m archive 0 length →
      ∀ p, RoundTrip m f p ↔ Fair (components p) (.folder f) := by
  obtain ⟨archive,written,held⟩ := main_spec names short fits
  refine ⟨archive,_,written,fun m agrees p => ?_⟩
  obtain ⟨offsets,folder,holds⟩ := held m agrees
  exact round_trip_iff folder holds names distinct p

/-- A folder with an empty file in it. -/
def small : Forest := .file [97] [] (.folder [98] .nil .nil)

theorem small_resolvable : Resolvable 40 5 small := by
  simp [small,Resolvable,Appended,PATH_SIZE,slash,colon]

theorem small_round_trip : ∃ archive length, main 40 5 small = some (archive,length) ∧ RoundTrip archive small [47,97] := by
  obtain ⟨archive,length,written,reads⟩ := @saf_round_trip 40 5 small (by simp [small,Nameable])
    (by simp [small,Distinct,Forest.entries,same_name,tolower]) small_resolvable (by decide)
  refine ⟨archive,length,written,(reads archive (fun i _ _ => rfl) [47,97]).2 ?_⟩
  have one : components [47,97] = [[97]] := rfl
  rw [one]
  simp [Fair,small]

/-- A path that goes on below the file is not reported as missing. -/
theorem below_file : ∃ archive length, main 40 5 small = some (archive,length) ∧ ¬ RoundTrip archive small [47,97,47,98] := by
  obtain ⟨archive,written,held⟩ := @main_spec 40 5 small (by simp [small,Nameable]) small_resolvable (by decide)
  obtain ⟨offsets,folder,holds⟩ := held archive fun i _ _ => rfl
  refine ⟨archive,_,written,?_⟩
  rw [round_trip_iff folder holds (by simp [small,Nameable]) (by simp [small,Distinct,Forest.entries,same_name,tolower])]
  have two : components [47,97,47,98] = [[97],[98]] := rfl
  rw [two]
  simp [Fair,small,Forest.entries,same_name]

end MicroOS.SafMake

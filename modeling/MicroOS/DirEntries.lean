import MicroOS.Initrd
import MicroOS.RamfsTypes

/-!
Listing directories. The three file systems answer `dir_at` each in its own way: the ramfs
counts down over its free and taken places, the devfs and the initrd index an array.
-/
namespace MicroOS.DirEntries
open Vfs

/-- The files of the devfs, each by its name; the array has at most as many places as an
    `int` can count. -/
structure Devfs where
  files : List Name
  counted : files.length < 2 ^ 31

/-- `none` when `files` is read outside of its bounds. The path is not looked at. -/
def devfs_dir_at (devfs : Devfs) (idx : Word) (_path : Name) : Option Dir :=
  if (devfs.files.length : Int) ≤ idx.toInt then some ⟨[],idx,true,.file⟩
  else
    match idx.toInt with
    | .ofNat i => (devfs.files[i]?).map fun name => ⟨name,idx,false,.file⟩
    | .negSucc _ => none

/-- The answer for an index into the entries of a directory, for any other index none, and
    in any case an answer. -/
def Enumerates (entries : List (Name × EntryType)) (idx : Word) (answer : Option Dir) : Prop :=
  ∃ dir, answer = some dir ∧
    if 0 ≤ idx.toInt ∧ idx.toInt < entries.length then
      dir.is_none = false ∧ dir.idx = idx ∧ entries[idx.toNat]? = some (dir.name,dir.type)
    else dir.is_none = true

/-- The nodes in the taken places of a directory of the ramfs. -/
def ramfs_entries (t : Ramfs.Tree) (childs : List (Option Nat)) : List (Name × EntryType) :=
  (childs.filterMap id).map fun e => (t.name e,((t.type e).map Ramfs.entry_type).getD .file)

def devfs_entries (devfs : Devfs) : List (Name × EntryType) := devfs.files.map fun name => (name,.file)

/-- The children of a folder of an archive. -/
def initrd_entries (m : Initrd.Memory) (folder : Nat) : List (Name × EntryType) :=
  (List.range (Initrd.load64 m (folder + Initrd.num_children_at))).map fun i =>
    (Initrd.name_of m (Initrd.child m folder i),if Initrd.is_folder m (Initrd.child m folder i) then .dir else .file)

theorem toInt_nonneg {idx : Word} (positive : 0 ≤ idx.toInt) : idx.toInt = idx.toNat ∧ idx.toNat < 2 ^ 31 := by
  rw [BitVec.toInt_eq_toNat_cond] at *
  split_ifs at * with small
  · exact ⟨rfl,by omega⟩
  · have := idx.isLt
    omega

theorem toInt_neg {idx : Word} (negative : ¬ 0 ≤ idx.toInt) : 2 ^ 31 ≤ idx.toNat := by
  rw [BitVec.toInt_eq_toNat_cond] at negative
  split_ifs at negative with small
  · omega
  · omega

/-- The listing of a sound directory goes wrong for -1 only, when the first place is free. -/
theorem ramfs_listing {t : Ramfs.Tree} (sound : Ramfs.Sound t) {path : Name} {d : Nat} {childs : List (Option Nat)}
    (found : (Ramfs.ramfs_find t path 0).1 = .ok (some d)) (dir : t.content d = some (.dir childs)) (idx : Word) :
    Enumerates (ramfs_entries t childs) idx (Ramfs.ramfs_dir_at t idx path).1.toOption ↔
      ¬ (idx = -1 ∧ childs.head? = some none) := by
  obtain ⟨length,valid⟩ := sound.childs d childs dir
  have few : (childs.filterMap id).length ≤ 1000 := (List.length_filterMap_le id childs).trans length.le
  have shape : Ramfs.ramfs_find t path 0 = (.ok (some d),(Ramfs.ramfs_find t path 0).2) := Prod.ext found rfl
  have counted : (ramfs_entries t childs).length = (childs.filterMap id).length := by simp [ramfs_entries]
  unfold Ramfs.ramfs_dir_at
  rw [shape]
  dsimp only
  rw [dir]
  dsimp only
  by_cases minus : idx + 1 = 0
  · have is : idx = -1 := by bv_omega
    subst is
    have below : ¬ (0 ≤ (-1 : Word).toInt ∧ (-1 : Word).toInt < (ramfs_entries t childs).length) := by
      rintro ⟨positive,-⟩
      exact absurd positive (by decide)
    cases first : childs.head? with
    | none =>
      have empty : childs = [] := List.head?_eq_none_iff.1 first
      subst empty
      cases length
    | some child =>
      obtain ⟨rest,rfl⟩ := List.head?_eq_some_iff.1 first
      cases child with
      | none =>
        have stops : Ramfs.stops_at (none :: rest) (-1 + 1) = some none := rfl
        rw [stops]
        refine iff_of_false ?_ (fun other => other ⟨rfl,rfl⟩)
        rintro ⟨dir,answer,-⟩
        cases answer
      | some e =>
        have runs : Ramfs.stops_at (some e :: rest) (-1 + 1) = none := by
          have stops : Ramfs.stops_at (some e :: rest) (-1 + 1) = Ramfs.stops_at rest (-1) := rfl
          rw [stops,Ramfs.stops_at_eq rest (by decide),List.getElem?_eq_none]
          · rfl
          · have fewer : (rest.filterMap id).length ≤ 1000 :=
              (List.length_filterMap_le id rest).trans ((Nat.le_succ _).trans length.le)
            exact fewer.trans (by decide : 1000 ≤ (-1 : Word).toNat - 1)
        rw [runs]
        refine ⟨fun _ both => absurd both.2 (by simp),fun _ => ⟨.none,rfl,?_⟩⟩
        rw [if_neg below]
        rfl
  · have other : ¬ (idx = -1 ∧ childs.head? = some none) := by
      rintro ⟨rfl,-⟩
      exact minus rfl
    refine iff_of_true ?_ other
    rw [Ramfs.stops_at_eq childs minus]
    by_cases positive : 0 ≤ idx.toInt
    · obtain ⟨same,small⟩ := toInt_nonneg positive
      have place : (idx + 1).toNat - 1 = idx.toNat := by bv_omega
      rw [place]
      cases there : (childs.filterMap id)[idx.toNat]? with
      | none =>
        have outside : ¬ (0 ≤ idx.toInt ∧ idx.toInt < (ramfs_entries t childs).length) := by
          rw [counted,same]
          have := List.getElem?_eq_none_iff.1 there
          omega
        refine ⟨.none,rfl,?_⟩
        rw [if_neg outside]
        rfl
      | some e =>
        obtain ⟨inside,-⟩ := List.getElem?_eq_some_iff.1 there
        have member : some e ∈ childs := by
          obtain ⟨child,member,is⟩ := List.mem_filterMap.1 (List.mem_of_getElem? there)
          cases is
          exact member
        obtain ⟨type,has⟩ : ∃ type, t.type e = some type := by
          unfold Ramfs.Tree.type Ramfs.Tree.content
          rw [List.getElem?_eq_getElem (valid e member)]
          exact ⟨_,rfl⟩
        simp only [Option.map_some,has]
        refine ⟨_,rfl,?_⟩
        rw [if_pos (by rw [counted,same]; omega)]
        refine ⟨rfl,rfl,?_⟩
        rw [ramfs_entries,List.getElem?_map,there]
        simp [has]
    · have large := toInt_neg positive
      have outside : ¬ (0 ≤ idx.toInt ∧ idx.toInt < (ramfs_entries t childs).length) := fun both => positive both.1
      rw [List.getElem?_eq_none (by bv_omega)]
      refine ⟨.none,rfl,?_⟩
      rw [if_neg outside]
      rfl

theorem devfs_listing (devfs : Devfs) (path : Name) (idx : Word) :
    Enumerates (devfs_entries devfs) idx (devfs_dir_at devfs idx path) ↔ 0 ≤ idx.toInt := by
  have length : (devfs_entries devfs).length = devfs.files.length := by simp [devfs_entries]
  unfold devfs_dir_at
  by_cases past : (devfs.files.length : Int) ≤ idx.toInt
  · rw [if_pos past]
    refine iff_of_true ⟨_,rfl,?_⟩ (by omega)
    rw [if_neg (by rw [length]; omega)]
  · rw [if_neg past]
    by_cases positive : 0 ≤ idx.toInt
    · obtain ⟨same,-⟩ := toInt_nonneg positive
      have inside : idx.toNat < devfs.files.length := by omega
      refine iff_of_true ?_ positive
      rw [same]
      change Enumerates _ _ ((devfs.files[idx.toNat]?).map _)
      rw [List.getElem?_eq_getElem inside]
      refine ⟨_,rfl,?_⟩
      rw [if_pos (by rw [length]; omega)]
      refine ⟨rfl,rfl,?_⟩
      rw [devfs_entries,List.getElem?_map,List.getElem?_eq_getElem inside]
      rfl
    · refine iff_of_false ?_ positive
      rintro ⟨dir,answer,-⟩
      cases sign : idx.toInt with
      | ofNat i => rw [sign] at positive; exact positive (Int.natCast_nonneg i)
      | negSucc i => rw [sign] at answer; cases answer

/-- A folder whose array of children is in memory. -/
structure Folder (m : Initrd.Memory) (folder : Nat) : Prop where
  flag : Initrd.is_folder m folder = true
  fits : folder + Initrd.children_at + 8 * Initrd.load64 m (folder + Initrd.num_children_at) ≤ 2 ^ 32

variable {m : Initrd.Memory} {folder : Nat}

theorem initrd_listing {path : Name} (is : Folder m folder)
    (found : Initrd.initrd_find m path 0 = .ok (some folder)) (idx : Word) :
    ∃ answer, Initrd.initrd_dir_at m idx path = .ok answer ∧ Enumerates (initrd_entries m folder) idx answer := by
  obtain ⟨flag,fits⟩ := is
  have length : (initrd_entries m folder).length = Initrd.load64 m (folder + Initrd.num_children_at) := by
    simp [initrd_entries]
  unfold Initrd.initrd_dir_at
  rw [found]
  refine ⟨_,rfl,?_⟩
  dsimp only
  rw [if_neg (by simp [flag])]
  by_cases positive : 0 ≤ idx.toInt
  · obtain ⟨same,small⟩ := toInt_nonneg positive
    have extended : (idx.signExtend 64).toNat = idx.toNat := by
      have sign : idx.msb = false := by
        rw [BitVec.msb_eq_decide,decide_eq_false_iff_not]
        omega
      rw [BitVec.signExtend_eq_setWidth_of_msb_false sign,BitVec.toNat_setWidth]
      omega
    rw [extended]
    by_cases past : Initrd.load64 m (folder + Initrd.num_children_at) ≤ idx.toNat
    · rw [if_pos past]
      refine ⟨.none,rfl,?_⟩
      rw [if_neg (by rw [length,same]; omega)]
      rfl
    · rw [if_neg past]
      unfold Initrd.entry_at
      rw [if_pos (by rw [same]; omega)]
      refine ⟨_,rfl,?_⟩
      rw [if_pos (by rw [length,same]; omega)]
      refine ⟨rfl,rfl,?_⟩
      rw [initrd_entries,List.getElem?_map,List.getElem?_range (by omega)]
      rfl
  · have large := toInt_neg positive
    have extended : Initrd.load64 m (folder + Initrd.num_children_at) ≤ (idx.signExtend 64).toNat := by
      have sign : idx.msb = true := by
        rw [BitVec.msb_eq_decide,decide_eq_true_iff]
        omega
      rw [BitVec.toNat_signExtend,if_pos sign]
      have := idx.isLt
      simp only [BitVec.toNat_setWidth]
      unfold Initrd.children_at at fits
      omega
    rw [if_pos extended]
    refine ⟨.none,rfl,?_⟩
    rw [if_neg (fun both => positive both.1)]
    rfl

/-- The node of an archive that names lead to, each a child of the folder before it. -/
def leads (m : Initrd.Memory) : List Name → Nat → Option Nat
  | [],node => some node
  | name :: names,node => if Initrd.is_folder m node then (Initrd.child_named m node name).bind (leads m names) else none

/-- A node that names lead to is found, unless one of them is longer than the buffer for it. -/
theorem walk_leads {names : List Name} {node : Nat} (led : leads m names node = some folder) :
    Initrd.walk m names node = if ∀ name ∈ names, name.length < 128 then .ok (some folder) else .error .overrun := by
  induction names generalizing node with
  | nil =>
    cases led
    rfl
  | cons name names ih =>
    rw [leads] at led
    split_ifs at led with flag
    obtain ⟨next,named,led⟩ := Option.bind_eq_some_iff.mp led
    rw [Initrd.walk]
    by_cases long : 128 ≤ name.length
    · rw [if_pos long,if_neg fun all => by have := all name List.mem_cons_self; omega]
    · rw [if_neg long,if_neg (by simp [flag]),named]
      dsimp only
      rw [ih led]
      simp only [List.forall_mem_cons,Nat.lt_of_not_le long,true_and]

/-- A folder of an archive is listed when every name of its path fits the lookup's buffer, and otherwise not at all. -/
theorem initrd_listing_iff {path : Name} (is : Folder m folder)
    (led : leads m (components path) 0 = some folder) (idx : Word) :
    (∃ answer, Initrd.initrd_dir_at m idx path = .ok answer ∧ Enumerates (initrd_entries m folder) idx answer) ↔
      ∀ name ∈ components path, name.length < 128 := by
  have walked := walk_leads led
  rw [← Initrd.initrd_find_eq] at walked
  by_cases short : ∀ name ∈ components path, name.length < 128
  · rw [if_pos short] at walked
    exact iff_of_true (initrd_listing is walked idx) short
  · rw [if_neg short] at walked
    refine iff_of_false ?_ short
    rintro ⟨answer,listed,-⟩
    rw [Initrd.initrd_dir_at,walked] at listed
    cases listed

/-- When each of the three listings is what it should be, for every path and index. -/
theorem listings (path : Name) (idx : Word) :
    (∀ t : Ramfs.Tree, Ramfs.Sound t → ∀ d childs, (Ramfs.ramfs_find t path 0).1 = .ok (some d) →
      t.content d = some (.dir childs) →
        (Enumerates (ramfs_entries t childs) idx (Ramfs.ramfs_dir_at t idx path).1.toOption ↔
          ¬ (idx = -1 ∧ childs.head? = some none))) ∧
      (∀ devfs, Enumerates (devfs_entries devfs) idx (devfs_dir_at devfs idx path) ↔ 0 ≤ idx.toInt) ∧
        ∀ m folder, Folder m folder → leads m (components path) 0 = some folder →
          ((∃ answer, Initrd.initrd_dir_at m idx path = .ok answer ∧ Enumerates (initrd_entries m folder) idx answer) ↔
            ∀ name ∈ components path, name.length < 128) :=
  ⟨fun _ sound _ _ found dir => ramfs_listing sound found dir idx,fun devfs => devfs_listing devfs path idx,
    fun _ _ is led => initrd_listing_iff is led idx⟩

theorem root_sound : Ramfs.Sound Ramfs.get_ramfs := Ramfs.typed_start.sound

theorem root_found : (Ramfs.ramfs_find Ramfs.get_ramfs [slash] 0).1 = .ok (some 0) := by
  rw [Ramfs.ramfs_find_eq]
  rfl

/-- A root with a file in its second place and a directory in its fourth. -/
def gaps : List (Option Nat) := none :: some 1 :: none :: some 2 :: List.replicate 996 none
def sparse : Ramfs.Tree :=
  ⟨[⟨[],.dir gaps⟩,⟨[97],Ramfs.new_content .file⟩,⟨[98],Ramfs.new_content .dir⟩]⟩

theorem sparse_sound : Ramfs.Sound sparse := by
  refine ⟨rfl,fun d childs dir => ?_,fun id data file => ?_⟩
  · rcases d with _ | _ | _ | d
    · cases dir
      refine ⟨by decide +kernel,fun e among => ?_⟩
      simp only [gaps,List.mem_cons,List.mem_replicate,reduceCtorEq,and_false,or_false,false_or,Option.some.injEq] at among
      rcases among with rfl | rfl <;> decide
    · cases dir
    · cases dir
      exact ⟨List.length_replicate ..,fun e among => by cases List.eq_of_mem_replicate among⟩
    · cases dir
  · rcases id with _ | _ | _ | id
    · cases file
    · cases file
      exact Ramfs.new_paged
    · cases file
    · cases file

theorem sparse_found : (Ramfs.ramfs_find sparse [slash] 0).1 = .ok (some 0) := by
  rw [Ramfs.ramfs_find_eq]
  rfl

/-- An archive of a folder d with a file a and a folder b in it. -/
def nested : Initrd.Memory := fun o =>
  if o = 272 ∨ o = 280 ∨ o = 784 ∨ o = 2320 then 1
  else if o = 289 ∨ o = 792 then 2
  else if o = 801 then 4
  else if o = 809 then 8
  else if o = 528 then 100
  else if o = 1040 then 97
  else if o = 2064 then 98
  else 0

theorem gaps_listed :
    Enumerates [([97],.file),([98],.dir)] 1 (Ramfs.ramfs_dir_at sparse 1 [slash]).1.toOption ∧
      Enumerates [([97],.file),([98],.file)] 1 (devfs_dir_at ⟨[[97],[98]],by decide⟩ 1 [slash]) ∧
        ∃ answer, Initrd.initrd_dir_at nested 1 [slash,68] = .ok answer ∧ Enumerates [([97],.file),([98],.dir)] 1 answer := by
  refine ⟨?_,((listings [slash] 1).2.1 ⟨[[97],[98]],by decide⟩).2 (by decide),?_⟩
  · have entries : ramfs_entries sparse gaps = [([97],.file),([98],.dir)] := by decide +kernel
    rw [← entries]
    exact ((listings [slash] 1).1 sparse sparse_sound 0 gaps sparse_found rfl).2 (by decide)
  · have entries : initrd_entries nested 512 = [([97],.file),([98],.dir)] := by decide +kernel
    rw [← entries]
    exact ((listings [slash,68] 1).2.2 nested 512 ⟨by decide,by decide⟩ (by decide +kernel)).2 (by decide +kernel)

/-- Listing an empty directory at -1 goes through a NULL child. -/
theorem minus_one : ¬ Enumerates (ramfs_entries Ramfs.get_ramfs (List.replicate Ramfs.CHILDS none)) (-1)
    (Ramfs.ramfs_dir_at Ramfs.get_ramfs (-1) [slash]).1.toOption := by
  rw [ramfs_listing root_sound root_found rfl]
  exact fun fine => fine ⟨rfl,rfl⟩

end MicroOS.DirEntries

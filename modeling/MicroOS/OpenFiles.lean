import MicroOS.Runs

/-!
Open files: the descriptor table of all tasks, the resource table of each task,
and the `file_t` objects on the heap, as `sys_open`, `sys_close`, `sys_delete` and
`exit_task` change them. Objects are told apart by the number of the open that
made them, since the heap reuses addresses. A file that is closed or deleted
leaves its number in `closed`; a close or delete of something that is no open
file sets `stray`.
-/
namespace MicroOS.OpenFiles
open Runs
open List (foldl_cons map_append map_cons mem_cons mem_filter mem_map nodup_cons perm_middle)

def FD_OFFSET : Int := 5

/-- The file systems that `vfs_open` can find a file in. -/
inductive Mount where
  | devfs | initrd | acpi | ramfs | fatfs
  deriving DecidableEq, Repr

/-- `fatfs_delete` frees the `file_t`. `ramfs_delete` is `todo()` and the others have
    no `_delete`: there `vfs_delete` aborts. -/
def Mount.deletes : Mount → Bool
  | .fatfs => true
  | _ => false

/-- A `file_t` on the heap and the number of the open that returned it. -/
structure File where
  address : Nat
  serial : Nat
  mount : Mount

/-- A task slot. Each resource was registered by `sys_open`, so its `dealloc` is
    `sys_open_dealloc`; 0 is NULL. -/
structure Task where
  active : Bool
  resources : List Nat

structure Kernel where
  fd_table : List Nat
  tasks : Nat → Task
  files : List File
  opened : Nat
  closed : List Nat
  stray : Bool

/-- What `vfs_open` finds under the path of a `sys_open`. -/
inductive Found where
  | null_path
  | nothing
  | file (address : Nat) (mount : Mount)

/-- Stores into the first NULL slot of a table, which grows when it has none; also
    the slot's index. -/
def store_first (x : Nat) : List Nat → List Nat × Nat
  | [] => ([x],0)
  | y :: rest => if y = 0 then (x :: rest,0) else ((y :: (store_first x rest).1),(store_first x rest).2 + 1)

def file_to_fd (k : Kernel) (file : Nat) : Kernel × Int :=
  ({ k with fd_table := (store_first file k.fd_table).1 },(store_first file k.fd_table).2 + FD_OFFSET)

/-- The table's entry, or the word outside of the table that a descriptor out of
    range reads. -/
def fd_to_file (k : Kernel) (fd : Int) (outside : Nat) : Nat :=
  if fd < FD_OFFSET then outside else (k.fd_table[(fd - FD_OFFSET).toNat]?).getD outside

def fd_free (k : Kernel) (fd : Int) : Kernel :=
  if fd < FD_OFFSET ∨ k.fd_table.length ≤ (fd - FD_OFFSET).toNat then { k with stray := true }
  else { k with fd_table := k.fd_table.set (fd - FD_OFFSET).toNat 0 }

/-- The end of a `file_t`: its mount frees it. -/
def free_file (k : Kernel) (file : Nat) : Kernel :=
  match k.files.find? (fun f => f.address == file) with
  | some f =>
    { k with files := k.files.eraseP (fun f => f.address == file), closed := f.serial :: k.closed }
  | none => { k with stray := true }

def vfs_close (k : Kernel) (file : Nat) : Kernel := free_file k file

/-- `none` when the mount cannot delete and the call aborts. -/
def vfs_delete (k : Kernel) (file : Nat) : Option Kernel :=
  match k.files.find? (fun f => f.address == file) with
  | some f => if f.mount.deletes then some (free_file k file) else none
  | none => some { k with stray := true }

def setTask (k : Kernel) (t : Nat) (task : Task) : Kernel :=
  { k with tasks := fun u => if u = t then task else k.tasks u }

def resource_register_self (k : Kernel) (self : Nat) (resource : Nat) : Kernel :=
  setTask k self { k.tasks self with resources := (store_first resource (k.tasks self).resources).1 }

def resource_unregister_self (k : Kernel) (self : Nat) (resource : Nat) : Kernel :=
  setTask k self { k.tasks self with
    resources := (k.tasks self).resources.map (fun r => if r = resource then 0 else r) }

def resource_dealloc (k : Kernel) (t : Nat) : Kernel :=
  let k := (k.tasks t).resources.foldl (fun k r => if r = 0 then k else vfs_close k r) k
  setTask k t { k.tasks t with resources := [] }

def exit_task (k : Kernel) (t : Nat) : Kernel :=
  resource_dealloc (setTask k t { k.tasks t with active := false }) t

/-- `abortf(true, ..)` in a system call kills the calling task. -/
def abort (k : Kernel) (self : Nat) : Kernel := exit_task k self

/-- The kernel afterwards and the descriptor returned in `edx`. -/
def sys_open (k : Kernel) (self : Nat) : Found → Kernel × Int
  | .null_path => (abort k self,-1)
  | .nothing => (k,-1)
  | .file address mount =>
    let k := { k with files := ⟨address,k.opened,mount⟩ :: k.files, opened := k.opened + 1 }
    let (k,fd) := file_to_fd k address
    (resource_register_self k self address,fd)

def sys_close (k : Kernel) (self : Nat) (fd : Int) (outside : Nat) : Kernel :=
  let file := fd_to_file k fd outside
  if file = 0 then abort k self
  else fd_free (resource_unregister_self (vfs_close k file) self file) fd

def sys_delete (k : Kernel) (self : Nat) (fd : Int) (outside : Nat) : Kernel :=
  let file := fd_to_file k fd outside
  if file = 0 then abort k self
  else match vfs_delete k file with
    | some k => resource_unregister_self k self file
    | none => abort k self

inductive Call where
  | init_task (t : Nat)
  | sys_open (self : Nat) (found : Found)
  | sys_close (self : Nat) (fd : Int) (outside : Nat)
  | sys_delete (self : Nat) (fd : Int) (outside : Nat)
  | exit_task (t : Nat)

def perform (k : Kernel) : Call → Kernel
  | .init_task t => setTask k t ⟨true,[]⟩
  | .sys_open self found => (sys_open k self found).1
  | .sys_close self fd outside => sys_close k self fd outside
  | .sys_delete self fd outside => sys_delete k self fd outside
  | .exit_task t => exit_task k t

/-- Only active tasks make system calls and exit, and only free slots are taken;
    `kmalloc` returns no NULL and no address in use. -/
def Possible (k : Kernel) : Call → Prop
  | .init_task t => (k.tasks t).active = false
  | .sys_open self found => (k.tasks self).active = true ∧
    ∀ address mount, found = .file address mount → address ≠ 0 ∧ ∀ f ∈ k.files, f.address ≠ address
  | .sys_close self _ _ => (k.tasks self).active = true
  | .sys_delete self _ _ => (k.tasks self).active = true
  | .exit_task t => (k.tasks t).active = true

/-- Nothing is open and no task runs. -/
def booted : Kernel := ⟨[],fun _ => ⟨false,[]⟩,[],0,[],false⟩

/-- Any interleaving of the tasks' calls. -/
def file_system : System Kernel Call where
  start k := k = booted
  step k call k' := Possible k call ∧ k' = perform k call

/-- Entries of the descriptor table are open files; every file opened is still open
    or was closed, once; an open file is held by an active task, which closes it at
    its exit at the latest; and nothing else was ever closed or deleted. -/
structure Lifetimes (k : Kernel) : Prop where
  entries : ∀ p ∈ k.fd_table, p ≠ 0 → ∃ f ∈ k.files, f.address = p
  once : (k.closed ++ k.files.map File.serial).Perm (List.range k.opened)
  held : ∀ f ∈ k.files, ∃ t, (k.tasks t).active = true ∧ f.address ∈ (k.tasks t).resources
  intact : k.stray = false

/-- A task that has no resource left to deallocate. -/
def Empty (k : Kernel) (t : Nat) : Prop := ∀ r ∈ (k.tasks t).resources, r = 0

/-- The steps that keep the lifetimes: whenever a task exits, also by an abort, it
    holds nothing; descriptors lie in the table; and no delete succeeds. -/
def Careful (k : Kernel) : Call → Prop
  | .init_task _ => True
  | .sys_open self .null_path => Empty k self
  | .sys_open _ _ => True
  | .sys_close self fd outside =>
    if fd_to_file k fd outside = 0 then Empty k self
    else FD_OFFSET ≤ fd ∧ (fd - FD_OFFSET).toNat < k.fd_table.length
  | .sys_delete self fd outside => Empty k self ∧ (fd_to_file k fd outside = 0 ∨
    ∃ f, k.files.find? (fun f => f.address == fd_to_file k fd outside) = some f ∧ f.mount.deletes = false)
  | .exit_task t => Empty k t

def occupied (table : List Nat) : List Nat := table.filter (fun p => p ≠ 0)

/-- The occupied entries of the table are exactly the open files. -/
structure Kept (k : Kernel) : Prop extends Lifetimes k where
  distinct : (k.files.map File.address).Nodup
  listed : (occupied k.fd_table).Perm (k.files.map File.address)

theorem occupied_store_first {x : Nat} (nonnull : x ≠ 0) (table : List Nat) :
    (occupied (store_first x table).1).Perm (x :: occupied table) := by
  induction table with
  | nil => simp [store_first,occupied,nonnull]
  | cons y rest ih =>
    by_cases empty : y = 0
    · simp [store_first,occupied,nonnull,empty]
    · simp only [store_first,empty,↓reduceIte,occupied,List.filter_cons] at ih ⊢
      simp only [ne_eq,empty,not_false_eq_true,decide_true,↓reduceIte]
      exact (ih.cons y).trans (.swap _ _ _)

theorem mem_store_first {x r : Nat} {table : List Nat} (member : r = x ∨ (r ∈ table ∧ r ≠ 0)) :
    r ∈ (store_first x table).1 := by
  induction table with
  | nil => simpa [store_first] using member
  | cons y rest ih =>
    by_cases empty : y = 0
    · subst empty
      rcases member with rfl | ⟨member,nonnull⟩
      · simp [store_first]
      · simp only [mem_cons,nonnull,false_or] at member
        simp [store_first,member]
    · simp only [store_first,empty,↓reduceIte,mem_cons]
      rcases member with rfl | ⟨member,nonnull⟩
      · exact .inr (ih (.inl rfl))
      · rcases mem_cons.mp member with rfl | later
        · exact .inl rfl
        · exact .inr (ih (.inr ⟨later,nonnull⟩))

section
variable {k : Kernel}

/-- An open file leaves the heap. -/
theorem free_file_open {p : Nat} (member : p ∈ k.files.map File.address) :
    ∃ before f after, k.files = before ++ f :: after ∧ f.address = p ∧
      free_file k p = { k with files := before ++ after, closed := f.serial :: k.closed } := by
  obtain ⟨g,listed,same⟩ := mem_map.mp member
  obtain ⟨f,before,after,none_before,here,shape,erased⟩ :=
    List.exists_of_eraseP (p := fun f : File => f.address == p) listed (by simpa using same)
  have found : k.files.find? (fun f => f.address == p) = some f := by
    rw [shape,List.find?_append]
    have skipped : before.find? (fun f => f.address == p) = none := by
      simpa using none_before
    simp [skipped,here]
  refine ⟨before,f,after,shape,by simpa using here,?_⟩
  rw [free_file,found,erased]

/-- A task that holds nothing frees nothing at its exit. -/
theorem dealloc_empty {rs : List Nat} (empty : ∀ r ∈ rs, r = 0) (k : Kernel) :
    rs.foldl (fun k r => if r = 0 then k else vfs_close k r) k = k := by
  induction rs with
  | nil => rfl
  | cons r rest ih =>
    have null : r = 0 := empty r (by simp)
    simp only [foldl_cons,null,↓reduceIte]
    exact ih (fun r member => empty r (by simp [member]))

variable {t self outside : Nat} {fd : Int} {call : Call}

theorem exit_empty (empty : Empty k t) : exit_task k t = setTask k t ⟨false,[]⟩ := by
  have frees := dealloc_empty empty (setTask k t { k.tasks t with active := false })
  rw [exit_task,resource_dealloc]
  simp only [setTask,↓reduceIte] at frees ⊢
  rw [frees]
  simp only [↓reduceIte,Kernel.mk.injEq,and_self,and_true,true_and]
  funext u
  by_cases here : u = t <;> simp [here]

/-- Tasks may change in any way that leaves the resources of active ones with them. -/
theorem kept_tasks {tasks : Nat → Task} (kept : Kept k)
    (keeps : ∀ t r, (k.tasks t).active = true → r ∈ (k.tasks t).resources → r ≠ 0 →
      (tasks t).active = true ∧ r ∈ (tasks t).resources)
    (nonnull : ∀ f ∈ k.files, f.address ≠ 0) : Kept { k with tasks := tasks } where
  entries := kept.entries
  once := kept.once
  held f member := by
    obtain ⟨t,active,listed⟩ := kept.held f member
    exact ⟨t,keeps t _ active listed (nonnull f member)⟩
  intact := kept.intact
  distinct := kept.distinct
  listed := kept.listed

theorem kept_nonnull (kept : Kept k) : ∀ f ∈ k.files, f.address ≠ 0 := by
  intro f member
  have listed := kept.listed.symm.subset (List.mem_map_of_mem member)
  simpa [occupied] using (mem_filter.mp listed).2

theorem exit_kept (kept : Kept k) (empty : Empty k t) : Kept (exit_task k t) := by
  rw [exit_empty empty]
  refine kept_tasks kept ?_ (kept_nonnull kept)
  intro u r active member nonnull
  by_cases here : u = t
  · subst here
    exact absurd (empty r member) nonnull
  · simpa [here] using ⟨active,member⟩

theorem booted_kept : Kept booted where
  entries := by simp [booted]
  once := by simp [booted]
  held := by simp [booted]
  intact := rfl
  distinct := by simp [booted]
  listed := by simp [booted,occupied]

theorem open_kept {address : Nat} {mount : Mount} (kept : Kept k) (active : (k.tasks self).active = true)
    (nonnull : address ≠ 0) (fresh : ∀ f ∈ k.files, f.address ≠ address) :
    Kept (sys_open k self (.file address mount)).1 := by
  have stored := occupied_store_first nonnull k.fd_table
  have nonnull_open := kept_nonnull kept
  simp only [sys_open,file_to_fd,resource_register_self,setTask]
  refine ⟨⟨?_,?_,?_,kept.intact⟩,?_,?_⟩
  · intro p member occupies
    have listed : p ∈ occupied (store_first address k.fd_table).1 := mem_filter.mpr ⟨member,by simpa using occupies⟩
    rcases mem_cons.mp (stored.subset listed) with rfl | before
    · exact ⟨_,List.mem_cons_self ..,rfl⟩
    · obtain ⟨f,listed,same⟩ := kept.entries p (mem_filter.mp before).1 occupies
      exact ⟨f,List.mem_cons_of_mem _ listed,same⟩
  · simp only [map_cons,List.range_succ]
    exact perm_middle.trans ((kept.once.cons _).trans (List.perm_append_singleton _ _).symm)
  · intro f member
    rcases mem_cons.mp member with rfl | before
    · exact ⟨self,by simpa using ⟨active,mem_store_first (.inl rfl)⟩⟩
    · obtain ⟨t,active',listed⟩ := kept.held f before
      by_cases here : t = self
      · subst here
        exact ⟨t,by simpa using ⟨active',mem_store_first (.inr ⟨listed,nonnull_open f before⟩)⟩⟩
      · exact ⟨t,by simpa [here] using ⟨active',listed⟩⟩
  · simp only [map_cons,nodup_cons]
    refine ⟨?_,kept.distinct⟩
    intro member
    obtain ⟨f,listed,same⟩ := mem_map.mp member
    exact fresh f listed same
  · exact stored.trans (kept.listed.cons _)

/-- Closing through an entry of the table. -/
theorem close_kept (kept : Kept k) (nonnull : fd_to_file k fd outside ≠ 0)
    (low : FD_OFFSET ≤ fd) (high : (fd - FD_OFFSET).toNat < k.fd_table.length) :
    Kept (sys_close k self fd outside) := by
  obtain ⟨l₁,l₂,table,index,cleared⟩ := @List.exists_of_set _ _ 0 _ high
  have entry : fd_to_file k fd outside = k.fd_table[(fd - FD_OFFSET).toNat] := by
    rw [fd_to_file,if_neg (by omega),List.getElem?_eq_getElem high]
    rfl
  rw [← entry] at table
  generalize fd_to_file k fd outside = p at nonnull table entry
  have listed : p ∈ k.files.map File.address := by
    obtain ⟨f,member,same⟩ := kept.entries p (by rw [table]; simp) nonnull
    exact mem_map.mpr ⟨f,member,same⟩
  obtain ⟨before,f,after,files,here,freed⟩ := free_file_open listed
  have closes : sys_close k self fd outside = { k with
      files := before ++ after
      closed := f.serial :: k.closed
      fd_table := l₁ ++ 0 :: l₂
      tasks := fun u => if u = self then { k.tasks self with
        resources := (k.tasks self).resources.map (fun r => if r = p then 0 else r) } else k.tasks u } := by
    have read : fd_to_file k fd outside = p := by
      rw [fd_to_file,if_neg (by omega),List.getElem?_eq_getElem high,entry]
      rfl
    simp only [sys_close,read,nonnull,↓reduceIte,vfs_close,freed,resource_unregister_self,setTask,fd_free]
    rw [if_neg (by omega),cleared]
  have distinct := kept.distinct
  rw [files,map_append,map_cons,List.nodup_middle,nodup_cons,here] at distinct
  have remaining : (occupied (l₁ ++ 0 :: l₂)).Perm ((before ++ after).map File.address) := by
    have listed := kept.listed
    rw [table,files] at listed
    simp only [occupied,List.filter_append,List.filter_cons,map_append,map_cons,here] at listed ⊢
    simp only [ne_eq,nonnull,not_false_eq_true,decide_true,↓reduceIte,not_true_eq_false,decide_false,
      Bool.false_eq_true] at listed ⊢
    exact ((perm_middle.symm.trans listed).trans perm_middle).cons_inv
  rw [closes]
  refine ⟨⟨?_,?_,?_,kept.intact⟩,?_,remaining⟩
  · intro q member occupies
    have still := remaining.subset (mem_filter.mpr ⟨member,by simpa using occupies⟩)
    obtain ⟨g,member,same⟩ := mem_map.mp still
    exact ⟨g,member,same⟩
  · have once := kept.once
    rw [files,map_append,map_cons] at once
    refine List.Perm.trans ?_ once
    simp only [map_append,List.cons_append]
    rw [← List.append_assoc,← List.append_assoc]
    exact perm_middle.symm
  · intro g member
    have other : g.address ≠ p := by
      intro same
      exact distinct.1 (by rw [← same,← map_append]; exact List.mem_map_of_mem member)
    obtain ⟨t,active,held⟩ := kept.held g (by rw [files]; rcases List.mem_append.mp member with h | h <;> simp [h])
    by_cases own : t = self
    · subst own
      exact ⟨t,by simpa using ⟨active,g.address,held,by simp [other]⟩⟩
    · exact ⟨t,by simpa [own] using ⟨active,held⟩⟩
  · rw [map_append]
    exact distinct.2

/-- A delete that is refused kills a task that holds nothing. -/
theorem delete_kept (kept : Kept k)
    (careful : Careful k (.sys_delete self fd outside)) : Kept (sys_delete k self fd outside) := by
  obtain ⟨empty,refused⟩ := careful
  have aborts : sys_delete k self fd outside = exit_task k self := by
    rcases refused with null | ⟨f,found,refuses⟩
    · simp [sys_delete,null,abort]
    · by_cases null : fd_to_file k fd outside = 0
      · simp [sys_delete,null,abort]
      · simp [sys_delete,null,vfs_delete,found,refuses,abort]
  rw [aborts]
  exact exit_kept kept empty

theorem perform_kept (kept : Kept k) (possible : Possible k call) (careful : Careful k call) :
    Kept (perform k call) := by
  cases call with
  | init_task t =>
    refine kept_tasks kept ?_ (kept_nonnull kept)
    intro u r active member _
    have other : u ≠ t := by
      rintro rfl
      simp [Possible,active] at possible
    simpa [other] using ⟨active,member⟩
  | sys_open self found =>
    cases found with
    | null_path => exact exit_kept kept careful
    | nothing => exact kept
    | file address mount =>
      obtain ⟨nonnull,fresh⟩ := possible.2 address mount rfl
      exact open_kept kept possible.1 nonnull fresh
  | sys_close self fd outside =>
    by_cases null : fd_to_file k fd outside = 0
    · have aborts : sys_close k self fd outside = exit_task k self := by simp [sys_close,null,abort]
      rw [perform,aborts]
      exact exit_kept kept (by simpa [Careful,null] using careful)
    · simp only [Careful,null,↓reduceIte] at careful
      exact close_kept kept null careful.1 careful.2
  | sys_delete self fd outside => exact delete_kept kept careful
  | exit_task t => exact exit_kept kept careful

theorem free_file_shrinks (k : Kernel) (p : Nat) : (free_file k p).fd_table = k.fd_table ∧
    (free_file k p).files.Sublist k.files ∧ (k.stray = true → (free_file k p).stray = true) := by
  rw [free_file]
  split
  · exact ⟨rfl,List.eraseP_sublist,id⟩
  · exact ⟨rfl,.refl _,fun _ => rfl⟩

/-- What is freed is not open afterwards; if it was not open before, that is noted. -/
theorem free_file_closes (p : Nat) (distinct : (k.files.map File.address).Nodup) :
    p ∉ (free_file k p).files.map File.address ∧
      (p ∉ k.files.map File.address → (free_file k p).stray = true) := by
  by_cases listed : p ∈ k.files.map File.address
  · obtain ⟨before,f,after,files,here,freed⟩ := free_file_open listed
    rw [files,map_append,map_cons,List.nodup_middle,nodup_cons,here] at distinct
    exact ⟨by rw [freed,map_append]; exact distinct.1,fun absent => absurd listed absent⟩
  · have none : k.files.find? (fun f => f.address == p) = none := by simpa using listed
    rw [free_file,none]
    exact ⟨listed,fun _ => rfl⟩

/-- What the deallocation of a task's resources leaves. -/
theorem dealloc_shrinks (rs : List Nat) (k : Kernel) :
    let k' := rs.foldl (fun k r => if r = 0 then k else vfs_close k r) k
    k'.fd_table = k.fd_table ∧ k'.files.Sublist k.files ∧ (k.stray = true → k'.stray = true) := by
  induction rs generalizing k with
  | nil => exact ⟨rfl,.refl _,id⟩
  | cons r rest ih =>
    simp only [foldl_cons]
    by_cases null : r = 0
    · simpa [null] using ih k
    · obtain ⟨table,files,stray⟩ := ih (vfs_close k r)
      obtain ⟨table',files',stray'⟩ := free_file_shrinks k r
      simp only [null,↓reduceIte]
      exact ⟨table.trans table',files.trans files',fun before => stray (stray' before)⟩

/-- A resource is closed when its task exits, or was closed before. -/
theorem dealloc_closes {rs : List Nat} {r : Nat} (member : r ∈ rs) (nonnull : r ≠ 0) (k : Kernel)
    (distinct : (k.files.map File.address).Nodup) :
    let k' := rs.foldl (fun k r => if r = 0 then k else vfs_close k r) k
    r ∉ k'.files.map File.address ∧ (r ∉ k.files.map File.address → k'.stray = true) := by
  induction rs generalizing k with
  | nil => simp at member
  | cons q rest ih =>
    simp only [foldl_cons]
    by_cases here : r = q
    · subst here
      obtain ⟨gone,noted⟩ := free_file_closes r distinct
      obtain ⟨-,files,stray⟩ := dealloc_shrinks rest (vfs_close k r)
      simp only [nonnull,↓reduceIte]
      exact ⟨fun still => gone ((files.map _).subset still),fun absent => stray (noted absent)⟩
    · have later : r ∈ rest := by simpa [here] using member
      by_cases null : q = 0
      · simpa [null] using ih later k distinct
      · obtain ⟨-,files,-⟩ := free_file_shrinks k q
        obtain ⟨gone,noted⟩ := ih later (vfs_close k q) (distinct.sublist (files.map _))
        simp only [null,↓reduceIte]
        exact ⟨gone,fun absent => noted fun still => absent ((files.map _).subset still)⟩

/-- An open file that is freed while the table keeps its entry, or one freed twice. -/
theorem freed_breaks {k' : Kernel} {p : Nat} (kept : Kept k) (nonnull : p ≠ 0) (table : k'.fd_table = k.fd_table)
    (gone : p ∉ k'.files.map File.address) (noted : p ∉ k.files.map File.address → k'.stray = true) :
    ¬ Lifetimes k' := by
  intro lifetimes
  by_cases listed : p ∈ k.files.map File.address
  · have entry : p ∈ occupied k.fd_table := kept.listed.symm.subset listed
    obtain ⟨f,member,same⟩ := lifetimes.entries p (by rw [table]; exact (mem_filter.mp entry).1) nonnull
    exact gone (mem_map.mpr ⟨f,member,same⟩)
  · have intact := lifetimes.intact
    rw [noted listed] at intact
    cases intact

/-- A task that exits with a resource leaves a stale entry or closes a file twice. -/
theorem exit_breaks (kept : Kept k) (holds : ¬ Empty k t) : ¬ Lifetimes (exit_task k t) := by
  obtain ⟨r,member,nonnull⟩ : ∃ r ∈ (k.tasks t).resources, r ≠ 0 := by simpa [Empty] using holds
  have shrinks := dealloc_shrinks (k.tasks t).resources (setTask k t { k.tasks t with active := false })
  have closes := dealloc_closes member nonnull (setTask k t { k.tasks t with active := false }) kept.distinct
  have held : ((setTask k t { k.tasks t with active := false }).tasks t).resources = (k.tasks t).resources := by
    simp [setTask]
  refine freed_breaks kept nonnull ?_ ?_ ?_
  · rw [exit_task,resource_dealloc,held]
    exact shrinks.1
  · rw [exit_task,resource_dealloc,held]
    exact closes.1
  · rw [exit_task,resource_dealloc,held]
    exact closes.2

theorem careless_breaks (kept : Kept k) (careless : ¬ Careful k call) : ¬ Lifetimes (perform k call) := by
  cases call with
  | init_task t => exact absurd trivial careless
  | sys_open self found =>
    cases found with
    | null_path => exact exit_breaks kept careless
    | nothing => exact absurd trivial careless
    | file address mount => exact absurd trivial careless
  | sys_close self fd outside =>
    by_cases null : fd_to_file k fd outside = 0
    · simp only [Careful,null,↓reduceIte] at careless
      simpa [perform,sys_close,null,abort] using exit_breaks kept careless
    · -- the entry that `fd_free` clears lies outside of the table
      simp only [Careful,null,↓reduceIte] at careless
      intro lifetimes
      have intact := lifetimes.intact
      have table := (free_file_shrinks k (fd_to_file k fd outside)).1
      simp only [perform,sys_close,null,↓reduceIte,fd_free,resource_unregister_self,setTask,vfs_close,table] at intact
      rw [if_pos (by omega)] at intact
      cases intact
  | sys_delete self fd outside =>
    by_cases null : fd_to_file k fd outside = 0
    · have holds : ¬ Empty k self := fun empty => careless ⟨empty,.inl null⟩
      simpa [perform,sys_delete,null,abort] using exit_breaks kept holds
    · cases found : k.files.find? (fun f => f.address == fd_to_file k fd outside) with
      | none =>
        intro lifetimes
        have intact := lifetimes.intact
        simp [perform,sys_delete,null,vfs_delete,found,resource_unregister_self,setTask] at intact
      | some f =>
        by_cases deletes : f.mount.deletes = true
        · -- the file is freed and `fd_free` is not called
          have closes := free_file_closes (fd_to_file k fd outside) kept.distinct
          have table := (free_file_shrinks k (fd_to_file k fd outside)).1
          have frees : perform k (.sys_delete self fd outside) = resource_unregister_self
              (free_file k (fd_to_file k fd outside)) self (fd_to_file k fd outside) := by
            simp [perform,sys_delete,null,vfs_delete,found,deletes]
          rw [frees]
          exact freed_breaks kept null table closes.1 closes.2
        · have refuses : f.mount.deletes = false := by simpa using deletes
          have holds : ¬ Empty k self := fun empty => careless ⟨empty,.inr ⟨f,found,refuses⟩⟩
          simpa [perform,sys_delete,null,vfs_delete,found,deletes,abort] using exit_breaks kept holds
  | exit_task t => exact exit_breaks kept careless

end

/-- Along runs of careful steps the lifetimes hold, and a step keeps them only if it
    is careful. -/
theorem careful_runs {k : Kernel} (reached : Reached (guarded file_system Careful) k) :
    Lifetimes k ∧ ∀ call, Possible k call → (Lifetimes (perform k call) ↔ Careful k call) := by
  have kept : Kept k := by
    refine guarded_invariant ?_ ?_ reached
    · rintro k rfl
      exact booted_kept
    · rintro k call k' kept ⟨possible,rfl⟩ careful
      exact perform_kept kept possible careful
  refine ⟨kept.toLifetimes,fun call possible => ⟨fun lifetimes => ?_,fun careful => ?_⟩⟩
  · by_contra careless
    exact careless_breaks kept careless lifetimes
  · exact (perform_kept kept possible careful).toLifetimes

/-- One task opens a file and closes it. -/
theorem careful_runs_close : Lifetimes (perform (perform (perform booted (.init_task 0))
    (.sys_open 0 (.file 0x1000 .initrd))) (.sys_close 0 5 0)) := by
  refine (careful_runs ⟨booted,[.init_task 0,.sys_open 0 (.file 0x1000 .initrd),.sys_close 0 5 0],rfl,?_⟩).1
  refine .step ⟨⟨rfl,rfl⟩,trivial⟩ (.step ⟨⟨⟨rfl,?_⟩,rfl⟩,trivial⟩ (.step ⟨⟨rfl,rfl⟩,?_⟩ (.done _)))
  · rintro address mount ⟨⟩
    exact ⟨by decide,by rintro f ⟨⟩⟩
  · rw [Careful,if_neg (by decide)]
    decide

/-- A task opens a file and exits: the table still holds the freed `file_t`. -/
theorem exit_leaves_entry : ¬ ∀ k, Reached file_system k → Lifetimes k := by
  intro always
  have reached : Reached file_system (perform (perform (perform booted (.init_task 0))
      (.sys_open 0 (.file 0x1000 .initrd))) (.exit_task 0)) := by
    refine ⟨booted,[.init_task 0,.sys_open 0 (.file 0x1000 .initrd),.exit_task 0],rfl,?_⟩
    refine .step ⟨rfl,rfl⟩ (.step ⟨⟨rfl,?_⟩,rfl⟩ (.step ⟨rfl,rfl⟩ (.done _)))
    rintro address mount ⟨⟩
    exact ⟨by decide,by rintro f ⟨⟩⟩
  obtain ⟨f,member,-⟩ := (always _ reached).entries 0x1000 (by decide) (by decide)
  cases member

end MicroOS.OpenFiles

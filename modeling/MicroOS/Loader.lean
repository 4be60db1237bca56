import MicroOS.Heap

/-!
`load_executable_file` reads a file and, when it begins like a script, looks for the interpreter that its first line names
and loads this one, with the script as an argument. The main theorem is `script_loading`: for which contents of the file
systems the loader ends, stays inside its buffers and releases all that it acquired.
-/

namespace MicroOS.Loader

abbrev Name := List UInt8

/-- What `vfs_read` puts into a buffer, and what happens to lie behind it. -/
structure File where
  size : BitVec 32
  content : Nat → UInt8

/-- A mounted file system; `opens` is its `open`, which returns NULL for a name it does not know. -/
structure Mount where
  name : Name
  opens : Name → Option File

def colon : UInt8 := 58
def newline : UInt8 := 10

/-- `shebangs`: `#!`, `//!`, `--!` and `;!`. -/
def shebangs : List Name := [[35,33],[47,47,33],[45,45,33],[59,33]]

/-- What the loader does with its buffers and files: a block from `kmalloc` and its release, a call of `vfs_read` for so many
    bytes, a read of the buffer of a file of some size, a write to `executor`, a string of some size written to `path`,
    opened and closed files, and the program that is started. -/
inductive Event where
  | kmalloc
  | kfree
  | vfs_read (size : Nat)
  | read (offset size : Nat)
  | executor (index : Nat)
  | path (size : Nat)
  | opened
  | closed
  | init_executable
  deriving DecidableEq

/-- The mount is named in front of the first colon. -/
def vfs_find_mount (mounts : List Mount) (path : Name) : Option (Mount × Name) :=
  if colon ∈ path then
    (mounts.find? fun m => m.name == path.takeWhile (· != colon)).map fun m => (m,(path.dropWhile (· != colon)).drop 1)
  else none

def vfs_open (mounts : List Mount) (path : Name) : Option File := (vfs_find_mount mounts path).bind fun found => found.1.opens found.2

/-- The file with its mount. -/
def vfs_open_first_found (mounts : List Mount) (name : Name) : Option (Mount × File) :=
  mounts.findSome? fun m => (m.opens name).map fun file => (m,file)

/-- Whether the bytes from an index on are those of a string, and up to where they were compared. -/
def memcmp (content : Nat → UInt8) : Name → Nat → Bool × Nat
  | [],i => (true,i)
  | c :: rest,i => if content i = c then memcmp content rest (i + 1) else (false,i + 1)

/-- The length of the shebang that the file begins with, and what was read to find it. -/
def find_shebang (file : File) : List Name → Option Nat × List Event
  | [] => (none,[])
  | shebang :: rest =>
    if shebang.length ≤ file.size.toNat then
      let (same,compared) := memcmp file.content shebang 0
      let reads := (List.range compared).map fun i => .read i file.size.toNat
      if same then (some shebang.length,reads) else ((find_shebang file rest).1,reads ++ (find_shebang file rest).2)
    else find_shebang file rest

/-- The loop that copies to `executor`, for so many more characters. -/
def copy_executor (content : Nat → UInt8) (shebang_offset : Nat) : Nat → Nat → Name
  | 0,_ => []
  | n + 1,j =>
    let c := content (shebang_offset + j)
    if c = newline ∨ c = 0 then [] else c :: copy_executor content shebang_offset n (j + 1)

def executor_size : Nat := 256
def path_size : Nat := 256

def executor (file : File) (shebang_offset : Nat) : Name := copy_executor file.content shebang_offset executor_size 0

/-- The characters read, with the one that ends the line if the loop got there, and those written, with the NUL. -/
def copy_events (file : File) (shebang_offset : Nat) : List Event :=
  let length := (executor file shebang_offset).length
  ((List.range (min (length + 1) executor_size)).map fun j => .read (shebang_offset + j) file.size.toNat) ++
    (List.range (length + 1)).map .executor

/-- The interpreter and the path of the script replace `argv[0]`; without an `argv[0]` the NULL comes in place of the path. -/
def new_argv (executor path : Name) : List Name → List Name
  | [] => [executor]
  | _ :: rest => executor :: path :: rest

/-- `kmalloc` returns NULL for an empty file, and then `kfree` does nothing. -/
def acquire (file : File) : List Event := (if file.size = 0 then [] else [.kmalloc]) ++ [.vfs_read file.size.toNat]
def release (file : File) : List Event := if file.size = 0 then [] else [.kfree]

section
variable (init_executable : File → List Name → Int) (mounts : List Mount)

/-- `load_executable` over a way to load the opened file. -/
def load_executable (load : File → Name → List Name → Option (List Event × Int)) (path : Name) (argv : List Name) :
    Option (List Event × Int) :=
  match vfs_open mounts path with
  | none => some ([],-1)
  | some file => (load file path argv).map fun r => ([.opened] ++ r.1 ++ [.closed],r.2)

/-- The log of a call and the pid, or nothing if the recursion does not come to an end with this fuel. The strings of the
    environment are handed on unchanged and left out. -/
def load_executable_file : Nat → File → Name → List Name → Option (List Event × Int)
  | 0,_,_,_ => none
  | fuel + 1,file,path,argv =>
    let (shebang,compares) := find_shebang file shebangs
    match shebang with
    | none => some (acquire file ++ compares ++ [.init_executable] ++ release file,init_executable file argv)
    | some shebang_offset =>
      let executor := executor file shebang_offset
      let first := acquire file ++ compares ++ copy_events file shebang_offset
      if colon ∈ executor then
        (load_executable mounts (load_executable_file fuel) executor (new_argv executor path argv)).map
          fun r => (first ++ r.1 ++ release file,r.2)
      else
        match vfs_open_first_found mounts executor with
        | none => some (first,-1)
        | some (mount,ex) =>
          (load_executable_file fuel ex (mount.name ++ colon :: executor) (new_argv executor path argv)).map
            fun r => (first ++ [.opened,.path (mount.name.length + 1 + executor.length + 1)] ++ r.1 ++ [.closed] ++ release file,r.2)

end

/-- Inside the buffer of the file, which has room for it behind the canary, and inside the arrays. -/
def Inside : Event → Prop
  | .vfs_read size => size ≤ Heap.rounded size - 4
  | .read offset size => offset < size
  | .executor index => index < executor_size
  | .path size => size ≤ path_size
  | _ => True

structure Clean (log : List Event) : Prop where
  inside : ∀ e ∈ log, Inside e
  buffers : log.count .kmalloc = log.count .kfree
  files : log.count .opened = log.count .closed

/-- A call that ends and leaves everything clean. -/
def Correct (load : Nat → Option (List Event × Int)) : Prop := ∃ fuel log pid, load fuel = some (log,pid) ∧ Clean log

/-- The size can be allocated: with the canary and rounded up it is still a 32-bit number. -/
def Fits (file : File) : Prop := file.size.toNat + 20 ≤ 2 ^ 32

def shebang (file : File) : Option Nat := (find_shebang file shebangs).1

/-- The line ends in the file, and within the first 256 characters. -/
def Ends (file : File) (shebang_offset : Nat) : Prop :=
  (executor file shebang_offset).length < executor_size ∧ shebang_offset + (executor file shebang_offset).length < file.size.toNat

/-- The interpreters, one named by the other, come to an end: with a program, or with a name in a mount that cannot be
    opened; and each of the files is well formed and each path is short. -/
inductive Loads (mounts : List Mount) : File → Prop
  | program {file : File} (fits : Fits file) (plain : shebang file = none) : Loads mounts file
  | missing {file : File} {offset : Nat} (fits : Fits file) (script : shebang file = some offset) (ends : Ends file offset)
      (absolute : colon ∈ executor file offset) (absent : vfs_open mounts (executor file offset) = none) : Loads mounts file
  | absolute {file next : File} {offset : Nat} (fits : Fits file) (script : shebang file = some offset) (ends : Ends file offset)
      (absolute : colon ∈ executor file offset) (found : vfs_open mounts (executor file offset) = some next)
      (rest : Loads mounts next) : Loads mounts file
  | relative {file next : File} {mount : Mount} {offset : Nat} (fits : Fits file) (script : shebang file = some offset)
      (ends : Ends file offset) (relative : colon ∉ executor file offset)
      (found : vfs_open_first_found mounts (executor file offset) = some (mount,next))
      (short : mount.name.length + 1 + (executor file offset).length + 1 ≤ path_size) (rest : Loads mounts next) : Loads mounts file

/-- The block of `kmalloc` has room for the file unless its size wraps around. -/
theorem room_iff {size : Nat} (word : size < 2 ^ 32) : size ≤ Heap.rounded size - 4 ↔ size + 20 ≤ 2 ^ 32 := by
  have value : Heap.rounded size =
      if (size + 4) % 2 ^ 32 % 16 > 0 then ((size + 4) % 2 ^ 32 - (size + 4) % 2 ^ 32 % 16 + 16) % 2 ^ 32 else (size + 4) % 2 ^ 32 := rfl
  rw [value]
  by_cases part : (size + 4) % 2 ^ 32 % 16 > 0
  · rw [if_pos part]
    omega
  · rw [if_neg part]
    omega

/-- The events that are counted. -/
def Account (e : Event) : Prop := e = .kmalloc ∨ e = .kfree ∨ e = .opened ∨ e = .closed

section
variable {file : File} {offset : Nat} {e : Event}

theorem memcmp_bound (content : Nat → UInt8) (s : Name) (i : Nat) : (memcmp content s i).2 ≤ i + s.length := by
  induction s generalizing i with
  | nil => exact Nat.le_refl i
  | cons c rest ih =>
    rw [memcmp]
    split
    · have bound := ih (i + 1)
      rw [List.length_cons]
      omega
    · dsimp only
      rw [List.length_cons]
      omega

/-- A shebang is compared only if the file is long enough. -/
theorem compares_read (file : File) (list : List Name) :
    ∀ e ∈ (find_shebang file list).2, ∃ i < file.size.toNat, e = .read i file.size.toNat := by
  induction list with
  | nil => simp [find_shebang]
  | cons shebang rest ih =>
    rw [find_shebang]
    by_cases long : shebang.length ≤ file.size.toNat
    · have reads : ∀ e ∈ (List.range (memcmp file.content shebang 0).2).map fun i => Event.read i file.size.toNat,
          ∃ i < file.size.toNat, e = .read i file.size.toNat := by
        intro e member
        obtain ⟨i,below,rfl⟩ := List.mem_map.1 member
        have bound := memcmp_bound file.content shebang 0
        have low := List.mem_range.1 below
        exact ⟨i,by omega,rfl⟩
      rw [if_pos long]
      dsimp only
      split
      · exact reads
      · intro e member
        rcases List.mem_append.1 member with here | later
        · exact reads e here
        · exact ih e later
    · rw [if_neg long]
      exact ih

theorem compares_inside (file : File) (list : List Name) : ∀ e ∈ (find_shebang file list).2, Inside e := by
  intro e member
  obtain ⟨i,below,rfl⟩ := compares_read file list e member
  exact below

theorem compares_count (account : Account e) (file : File) (list : List Name) : (find_shebang file list).2.count e = 0 := by
  apply List.count_eq_zero.2
  intro member
  obtain ⟨i,_,rfl⟩ := compares_read file list e member
  rcases account with here | here | here | here <;> cases here

theorem copy_count (account : Account e) (file : File) (offset : Nat) : (copy_events file offset).count e = 0 := by
  apply List.count_eq_zero.2
  intro member
  rw [copy_events] at member
  rcases List.mem_append.1 member with read | written
  · obtain ⟨_,_,rfl⟩ := List.mem_map.1 read
    rcases account with here | here | here | here <;> cases here
  · obtain ⟨_,_,rfl⟩ := List.mem_map.1 written
    rcases account with here | here | here | here <;> cases here

/-- The loop stays in its arrays exactly when the line ends in time. -/
theorem copy_inside : (∀ e ∈ copy_events file offset, Inside e) ↔ Ends file offset := by
  have most : executor_size = 256 := rfl
  rw [copy_events,Ends]
  constructor
  · intro inside
    have written : Inside (.executor (executor file offset).length) := by
      apply inside
      refine List.mem_append_right _ (List.mem_map.2 ⟨_,List.mem_range.2 (Nat.lt_succ_self _),rfl⟩)
    have short : (executor file offset).length < executor_size := written
    have read : Inside (.read (offset + (executor file offset).length) file.size.toNat) := by
      apply inside
      refine List.mem_append_left _ (List.mem_map.2 ⟨(executor file offset).length,List.mem_range.2 ?_,rfl⟩)
      omega
    exact ⟨short,read⟩
  · rintro ⟨short,ends⟩ e member
    rcases List.mem_append.1 member with read | written
    · obtain ⟨j,below,rfl⟩ := List.mem_map.1 read
      have low := List.mem_range.1 below
      change offset + j < file.size.toNat
      omega
    · obtain ⟨j,below,rfl⟩ := List.mem_map.1 written
      have low := List.mem_range.1 below
      change j < executor_size
      omega

theorem acquire_inside : (∀ e ∈ acquire file, Inside e) ↔ Fits file := by
  rw [Fits,← room_iff file.size.isLt,acquire]
  constructor
  · intro inside
    exact inside (.vfs_read file.size.toNat) (List.mem_append_right _ (List.mem_singleton_self _))
  · intro room e member
    rcases List.mem_append.1 member with block | read
    · split at block
      · cases block
      · obtain rfl := List.mem_singleton.1 block
        trivial
    · obtain rfl := List.mem_singleton.1 read
      exact room

theorem release_inside : ∀ e ∈ release file, Inside e := by
  intro e member
  rw [release] at member
  split at member
  · cases member
  · obtain rfl := List.mem_singleton.1 member
    trivial

theorem acquire_count (file : File) : (acquire file).count .kmalloc = (release file).count .kfree ∧ (acquire file).count .kfree = 0 ∧
    (release file).count .kmalloc = 0 ∧ (acquire file).count .opened = 0 ∧ (acquire file).count .closed = 0 ∧
    (release file).count .opened = 0 ∧ (release file).count .closed = 0 := by
  rw [acquire,release]
  split
  · simp
  · simp

/-- A script is not empty, so its buffer is a block. -/
theorem script_block (script : shebang file = some offset) : (acquire file).count .kmalloc = 1 := by
  have nonzero : file.size ≠ 0 := by
    intro zero
    have none_found : shebang file = none := by simp [shebang,find_shebang,shebangs,zero]
    rw [none_found] at script
    cases script
  rw [acquire,if_neg nonzero]
  rfl

end

/-- A level that reads its file and a first line, does something of its own, and releases its buffer. -/
theorem clean_level {file : File} {offset : Nat} {middle : List Event} :
    Clean (acquire file ++ (find_shebang file shebangs).2 ++ copy_events file offset ++ middle ++ release file) ↔
      Fits file ∧ Ends file offset ∧ Clean middle := by
  obtain ⟨block,one,two,three,four,five,six⟩ := acquire_count file
  have counts : ∀ e, Account e → (acquire file ++ (find_shebang file shebangs).2 ++ copy_events file offset ++ middle ++ release file).count e =
      (acquire file).count e + middle.count e + (release file).count e := by
    intro e account
    simp only [List.count_append,compares_count account,copy_count account]
    omega
  constructor
  · rintro ⟨inside,buffers,files⟩
    rw [counts _ (by simp [Account]),counts _ (by simp [Account])] at buffers files
    refine ⟨acquire_inside.1 fun e member => ?_,copy_inside.1 fun e member => ?_,fun e member => ?_,by omega,by omega⟩
    · exact inside e (by simp [member])
    · exact inside e (by simp [member])
    · exact inside e (by simp [member])
  · rintro ⟨fits,ends,clean⟩
    refine ⟨fun e member => ?_,?_,?_⟩
    · simp only [List.mem_append] at member
      rcases member with (((begins | compared) | copied) | inner) | released
      · exact acquire_inside.2 fits e begins
      · exact compares_inside file shebangs e compared
      · exact copy_inside.2 ends e copied
      · exact clean.inside e inner
      · exact release_inside e released
    · rw [counts _ (by simp [Account]),counts _ (by simp [Account])]
      have same := clean.buffers
      omega
    · rw [counts _ (by simp [Account]),counts _ (by simp [Account])]
      have same := clean.files
      omega

/-- A file opened around a log. -/
theorem clean_opened {log : List Event} : Clean ([.opened] ++ log ++ [.closed]) ↔ Clean log := by
  constructor
  · rintro ⟨inside,buffers,files⟩
    simp only [List.count_append] at buffers files
    refine ⟨fun e member => inside e (by simp [member]),?_,?_⟩
    · simpa using buffers
    · simpa [Nat.add_comm] using files
  · rintro ⟨inside,buffers,files⟩
    refine ⟨fun e member => ?_,?_,?_⟩
    · simp only [List.mem_append,List.mem_singleton] at member
      rcases member with (rfl | inner) | rfl
      · trivial
      · exact inside e inner
      · trivial
    · simpa using buffers
    · simpa [Nat.add_comm] using files

theorem clean_path {log : List Event} {size : Nat} : Clean (.path size :: log) ↔ size ≤ path_size ∧ Clean log := by
  constructor
  · rintro ⟨inside,buffers,files⟩
    exact ⟨inside _ List.mem_cons_self,fun e member => inside e (List.mem_cons_of_mem _ member),by simpa using buffers,by simpa using files⟩
  · rintro ⟨short,inside,buffers,files⟩
    refine ⟨fun e member => ?_,by simpa using buffers,by simpa using files⟩
    rcases List.mem_cons.1 member with rfl | inner
    · exact short
    · exact inside e inner

theorem clean_nil : Clean [] := ⟨by simp,rfl,rfl⟩

section
variable {init_executable : File → List Name → Int} {mounts : List Mount}

/-- A clean log shows that the interpreters come to an end. -/
theorem loads_of_clean (fuel : Nat) {file : File} {path : Name} {argv : List Name} {log : List Event} {pid : Int}
    (done : load_executable_file init_executable mounts fuel file path argv = some (log,pid)) (clean : Clean log) : Loads mounts file := by
  induction fuel generalizing file path argv log pid with
  | zero => cases done
  | succ fuel ih =>
    rw [load_executable_file] at done
    dsimp only at done
    cases script : (find_shebang file shebangs).1 with
    | none =>
      rw [script] at done
      cases done
      refine .program (acquire_inside.1 fun e member => clean.inside e (by simp [member])) script
    | some offset =>
      rw [script] at done
      dsimp only at done
      by_cases absolute : colon ∈ executor file offset
      · rw [if_pos absolute,load_executable] at done
        cases found : vfs_open mounts (executor file offset) with
        | none =>
          rw [found] at done
          cases done
          obtain ⟨fits,ends,_⟩ := clean_level.1 clean
          exact .missing fits script ends absolute found
        | some next =>
          rw [found] at done
          simp only [Option.map_map,Option.map_eq_some_iff] at done
          obtain ⟨⟨inner,inner_pid⟩,later,same⟩ := done
          cases same
          obtain ⟨fits,ends,middle⟩ := clean_level.1 clean
          exact .absolute fits script ends absolute found (ih later (clean_opened.1 middle))
      · rw [if_neg absolute] at done
        cases found : vfs_open_first_found mounts (executor file offset) with
        | none =>
          rw [found] at done
          cases done
          -- the early return leaves the buffer
          have buffers := clean.buffers
          simp only [List.count_append,compares_count (.inl rfl),compares_count (.inr (.inl rfl)),copy_count (.inl rfl),
            copy_count (.inr (.inl rfl)),script_block script,(acquire_count file).2.1] at buffers
          cases buffers
        | some result =>
          obtain ⟨mount,next⟩ := result
          rw [found] at done
          simp only [Option.map_eq_some_iff] at done
          obtain ⟨⟨inner,inner_pid⟩,later,same⟩ := done
          cases same
          have grouped : acquire file ++ (find_shebang file shebangs).2 ++ copy_events file offset ++
              [.opened,.path (mount.name.length + 1 + (executor file offset).length + 1)] ++ inner ++ [.closed] ++ release file =
              acquire file ++ (find_shebang file shebangs).2 ++ copy_events file offset ++
                ([.opened] ++ (.path (mount.name.length + 1 + (executor file offset).length + 1) :: inner) ++ [.closed]) ++ release file := by
            simp
          rw [grouped] at clean
          obtain ⟨fits,ends,middle⟩ := clean_level.1 clean
          obtain ⟨short,rest⟩ := clean_path.1 (clean_opened.1 middle)
          exact .relative fits script ends absolute found short (ih later rest)

/-- Where they come to an end, so does the loader, and leaves everything clean. -/
theorem clean_of_loads {file : File} (loads : Loads mounts file) (path : Name) (argv : List Name) :
    Correct fun fuel => load_executable_file init_executable mounts fuel file path argv := by
  induction loads generalizing path argv with
  | program fits plain =>
    rename_i file
    have script : (find_shebang file shebangs).1 = none := plain
    refine ⟨0 + 1,_,_,by dsimp only; rw [load_executable_file]; dsimp only; rw [script],?_⟩
    obtain ⟨block,one,two,three,four,five,six⟩ := acquire_count file
    refine ⟨?_,?_,?_⟩
    · intro e member
      simp only [List.mem_append,List.mem_singleton] at member
      rcases member with ((begins | compared) | rfl) | released
      · exact acquire_inside.2 fits e begins
      · exact compares_inside file shebangs e compared
      · trivial
      · exact release_inside e released
    · simp only [List.count_append,compares_count (.inl rfl),compares_count (.inr (.inl rfl)),block,one,two]
      simp
    · simp only [List.count_append,compares_count (.inr (.inr (.inl rfl))),compares_count (.inr (.inr (.inr rfl))),three,four,five,six]
      simp
  | missing fits script ends absolute absent =>
    rename_i file offset
    have script : (find_shebang file shebangs).1 = some offset := script
    refine ⟨0 + 1,_,-1,?_,clean_level.2 ⟨fits,ends,clean_nil⟩⟩
    dsimp only
    rw [load_executable_file]
    dsimp only
    rw [script]
    dsimp only
    rw [if_pos absolute,load_executable,absent]
    rfl
  | absolute fits script ends absolute found rest ih =>
    rename_i file next offset
    have script : (find_shebang file shebangs).1 = some offset := script
    obtain ⟨fuel,log,pid,done,clean⟩ := ih (executor file offset) (new_argv (executor file offset) path argv)
    refine ⟨fuel + 1,_,pid,?_,clean_level.2 ⟨fits,ends,clean_opened.2 clean⟩⟩
    dsimp only at done ⊢
    rw [load_executable_file]
    dsimp only
    rw [script]
    dsimp only
    rw [if_pos absolute,load_executable,found]
    dsimp only
    rw [done]
    rfl
  | relative fits script ends relative found short rest ih =>
    rename_i file next mount offset
    have script : (find_shebang file shebangs).1 = some offset := script
    obtain ⟨fuel,log,pid,done,clean⟩ := ih (mount.name ++ colon :: executor file offset) (new_argv (executor file offset) path argv)
    refine ⟨fuel + 1,_,pid,?_,clean_level.2 ⟨fits,ends,clean_opened.2 (clean_path.2 ⟨short,clean⟩)⟩⟩
    dsimp only at done ⊢
    rw [load_executable_file]
    dsimp only
    rw [script]
    dsimp only
    rw [if_neg relative,found]
    dsimp only
    rw [done]
    simp

theorem file_correct (file : File) (path : Name) (argv : List Name) :
    Correct (fun fuel => load_executable_file init_executable mounts fuel file path argv) ↔ Loads mounts file := by
  constructor
  · rintro ⟨fuel,log,pid,done,clean⟩
    exact loads_of_clean fuel done clean
  · intro loads
    exact clean_of_loads loads path argv

end

/-- A file is loaded well exactly when the interpreters that its first line leads to come to an end, all well formed, and
    so is the file of a path, if it can be opened. -/
theorem script_loading (init_executable : File → List Name → Int) (mounts : List Mount) (file : File) (path : Name) (argv : List Name) :
    (Correct (fun fuel => load_executable_file init_executable mounts fuel file path argv) ↔ Loads mounts file) ∧
      (Correct (fun fuel => load_executable mounts (load_executable_file init_executable mounts fuel) path argv) ↔
        ∀ opened, vfs_open mounts path = some opened → Loads mounts opened) := by
  refine ⟨file_correct file path argv,?_⟩
  simp only [load_executable]
  cases found : vfs_open mounts path with
  | none =>
    refine iff_of_true ⟨0,[],-1,rfl,clean_nil⟩ ?_
    intro opened here
    cases here
  | some opened =>
    constructor
    · rintro ⟨fuel,log,pid,done,clean⟩ other same
      cases same
      obtain ⟨⟨inner,inner_pid⟩,later,same⟩ := Option.map_eq_some_iff.1 done
      cases same
      exact loads_of_clean fuel later (clean_opened.1 clean)
    · intro loads
      have ends : Correct fun fuel => load_executable_file init_executable mounts fuel opened path argv :=
        clean_of_loads (loads opened rfl) path argv
      obtain ⟨fuel,log,pid,done,clean⟩ := ends
      refine ⟨fuel,_,pid,?_,clean_opened.2 clean⟩
      dsimp only at done ⊢
      rw [done]
      rfl

/-- A script that names itself: `#!a`, in a mount that has it under every name. -/
def self_script : File := ⟨4,fun i => [35,33,97,10].getD i 0⟩

def self_mount : Mount := ⟨[109],fun _ => some self_script⟩

theorem self_never {file : File} (loads : Loads [self_mount] file) : file ≠ self_script := by
  induction loads with
  | program fits plain =>
    rintro rfl
    exact absurd plain (by decide)
  | missing fits script ends absolute absent =>
    rintro rfl
    obtain rfl : 2 = _ := Option.some.inj script
    exact absurd absolute (by decide)
  | absolute fits script ends absolute found rest ih =>
    rintro rfl
    obtain rfl : 2 = _ := Option.some.inj script
    exact absurd absolute (by decide)
  | relative fits script ends relative found short rest ih =>
    rintro rfl
    obtain ⟨_,rfl⟩ := Prod.mk.inj (Option.some.inj found)
    exact ih rfl

theorem self_interpreter : ¬ ∀ (init_executable : File → List Name → Int) mounts file path argv,
    Correct fun fuel => load_executable_file init_executable mounts fuel file path argv := by
  intro claim
  have loads := (file_correct self_script [] []).1 (claim (fun _ _ => 0) [self_mount] self_script [] [])
  exact self_never loads rfl

end MicroOS.Loader

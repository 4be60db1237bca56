import Mathlib.Tactic
import MicroOS.Initrd

/-! The buffers a path passes through when it is opened (`vfs.c`, `initrd.c`) and the one for the label of a disk
(`fatdrv.c`). A result is none when a routine leaves its buffers. -/

namespace MicroOS.PathBuffers
open Vfs Initrd
open Option (bind_eq_bind bind_eq_some_iff isSome_iff_exists some.injEq)

def colon : UInt8 := 58

/-- `do { *dest++ = *src++; } while (*src != 0)` into what is left of the destination. -/
def strcpy (src : Nat → Option UInt8) : List UInt8 → Nat → Option (List UInt8)
  | [],_ => none
  | _ :: dest,i => do
    let c ← src i
    let next ← src (i + 1)
    if next ≠ 0 then
      let copied ← strcpy src dest (i + 1)
      pure (c :: copied)
    else pure (c :: dest)

def strlen : List UInt8 → Option Nat
  | [] => none
  | c :: src => if c ≠ 0 then (strlen src).map (· + 1) else some 0

/-- What a lookup of a mount leaves in the buffer of its caller, and the mount. -/
structure Mount where
  file_path : List UInt8
  mount : Option Nat

/-- `path` is the memory of the task from the pointer on, `mounts` are the names of the mounts. -/
def vfs_find_mount (mounts : List Name) (path : Nat → UInt8) (file_path_out : List UInt8) : Option Mount := do
  let _filename ← strcpy (fun i => some (path i)) (List.replicate 1024 0) 0
  let len ← strlen _filename
  match (_filename.take len).findIdx? (· = colon) with
  | none => pure ⟨file_path_out,none⟩
  | some i =>
    let _filename := _filename.set i 0
    let file_path_out ← strcpy (fun j => _filename[i + 1 + j]?) file_path_out 0
    pure ⟨file_path_out,mounts.findIdx? (· = _filename.take i)⟩

/-- What `open` of a mount finds under a name; the label is read as a whole. -/
abbrev Disk := Name → Option (List UInt8)

def label_name : Name := [47,76,65,66,69,76]
def fox_name : Name := [47,70,79,88,67,70,71,47,100,110,46,102,111,120]

/-- The file that has the label. -/
def label_file (disk : Disk) : Option (List UInt8) := (disk label_name).orElse fun _ => disk fox_name

/-- Whether there is a label, and the buffer of the caller. -/
def try_read_disk_label (out : List UInt8) (disk : Disk) : Option (Bool × List UInt8) :=
  match label_file disk with
  | some label =>
    if label.length < out.length then some (true,label ++ 0 :: out.drop (label.length + 1)) else none
  | none => some (false,out)

/-- The buffers of `vfs_open` and its siblings, and of `fatfs_scanner`. -/
def file_path_buffer : List UInt8 := List.replicate 1024 0
def label_buffer : List UInt8 := List.replicate 64 0

/-- A copy of some bytes that ends at the zero behind them; only the first may itself be zero. -/
theorem strcpy_some {src : Nat → Option UInt8} {bytes : List UInt8} {dest : List UInt8} {i : Nat} (some_bytes : bytes ≠ [])
    (room : bytes.length ≤ dest.length) (given : ∀ k, k < bytes.length → src (i + k) = bytes[k]?)
    (plain : ∀ c ∈ bytes.tail, c ≠ 0) (ends : src (i + bytes.length) = some 0) :
    strcpy src dest i = some (bytes ++ dest.drop bytes.length) := by
  induction bytes generalizing dest i with
  | nil => exact absurd rfl some_bytes
  | cons c bytes ih =>
    cases dest with
    | nil => simp at room
    | cons d dest =>
      have first : src i = some c := given 0 (by simp)
      cases bytes with
      | nil =>
        have last : src (i + 1) = some 0 := ends
        simp [strcpy,first,last]
      | cons c' bytes =>
        have second : src (i + 1) = some c' := given 1 (by simp)
        have going : c' ≠ 0 := plain c' (by simp)
        have rest := @ih dest (i + 1) (by simp) (by simpa using room)
          (fun k inside => by rw [Nat.add_assoc,Nat.add_comm 1 k]; exact given (k + 1) (by simpa using inside))
          (fun b later => plain b (List.mem_cons_of_mem _ later))
          (by rw [Nat.add_assoc,Nat.add_comm 1]; exact ends)
        simp [strcpy,first,second,going,rest]

/-- A copy that stays inside its buffers ends at a zero. -/
theorem strcpy_ends {src : Nat → Option UInt8} {dest : List UInt8} {i : Nat} {copied : List UInt8}
    (copies : strcpy src dest i = some copied) :
    ∃ n, 0 < n ∧ n ≤ dest.length ∧ src (i + n) = some 0 ∧ ∀ k, 0 < k → k < n → ∃ c, src (i + k) = some c ∧ c ≠ 0 := by
  induction dest generalizing i copied with
  | nil => simp [strcpy] at copies
  | cons d dest ih =>
    simp only [strcpy,bind_eq_bind,bind_eq_some_iff] at copies
    obtain ⟨c,first,next,second,rest⟩ := copies
    by_cases going : next = 0
    · exact ⟨1,by simp,by simp,by rw [second,going],fun k low high => by omega⟩
    · rw [if_pos going,bind_eq_some_iff] at rest
      obtain ⟨tail,copies,-⟩ := rest
      obtain ⟨n,positive,room,ends,plain⟩ := ih copies
      refine ⟨n + 1,by simp,by simpa using room,by rw [← ends]; congr 1; omega,fun k low high => ?_⟩
      obtain rfl | ⟨k,rfl,low'⟩ : k = 1 ∨ ∃ k', k = k' + 1 ∧ 0 < k' := by
        by_cases one : k = 1
        · exact .inl one
        · exact .inr ⟨k - 1,by omega,by omega⟩
      · exact ⟨next,second,going⟩
      · obtain ⟨c,read,nonzero⟩ := plain k low' (by omega)
        exact ⟨c,by rw [← read]; congr 1; omega,nonzero⟩

theorem strlen_append {bytes : List UInt8} (plain : ∀ c ∈ bytes, c ≠ 0) (rest : List UInt8) :
    strlen (bytes ++ rest) = (strlen rest).map (· + bytes.length) := by
  induction bytes with
  | nil => cases found : strlen rest <;> simp [found]
  | cons c bytes ih =>
    rw [List.forall_mem_cons] at plain
    rw [List.cons_append,strlen,if_pos plain.1,ih plain.2,Option.map_map]
    congr 1

/-- `strcpy` copies `n` bytes of the path: the bytes of the string, or for the empty string its terminator and the bytes of the
    task's memory up to the next zero. -/
structure Copied (path : Nat → UInt8) (n : Nat) : Prop where
  positive : 0 < n
  ends : path n = 0
  plain : ∀ k, 0 < k → k < n → path k ≠ 0

/-- A path that passes through the buffers: the empty one when what is copied of the memory behind it fits, and one of at
    most 1023 bytes unless it has 1023 and its first colon is the last of them. -/
def Fits (path : Nat → UInt8) : Prop :=
  ∃ n, Copied path n ∧ (path 0 = 0 ∧ n ≤ 1024 ∨ path 0 ≠ 0 ∧ n ≤ 1023 ∧
    (n = 1023 → path 1022 = colon → ∃ k, k < 1022 ∧ path k = colon))

def bytes_of (path : Nat → UInt8) (n : Nat) : List UInt8 := (List.range n).map path

@[simp] theorem bytes_of_length (path : Nat → UInt8) (n : Nat) : (bytes_of path n).length = n := by simp [bytes_of]

theorem bytes_of_get {path : Nat → UInt8} {n k : Nat} (inside : k < n) : (bytes_of path n)[k]? = some (path k) := by
  simp [bytes_of,inside]

theorem mem_bytes_of {path : Nat → UInt8} {n : Nat} {c : UInt8} : c ∈ bytes_of path n ↔ ∃ k, k < n ∧ path k = c := by
  simp [bytes_of]

section
variable {path : Nat → UInt8} {n : Nat}

theorem Copied.filename (copied : Copied path n) (room : n ≤ 1024) :
    strcpy (fun i => some (path i)) (List.replicate 1024 0) 0 = some (bytes_of path n ++ List.replicate (1024 - n) 0) := by
  have some_bytes : bytes_of path n ≠ [] := List.ne_nil_of_length_pos (by rw [bytes_of_length]; exact copied.positive)
  have later : ∀ c ∈ (bytes_of path n).tail, c ≠ 0 := by
    intro c mem
    obtain ⟨k,inside,rfl⟩ := List.mem_iff_getElem.mp mem
    rw [List.length_tail,bytes_of_length] at inside
    rw [List.getElem_tail]
    simpa [bytes_of] using copied.plain (k + 1) (by omega) (by omega)
  rw [strcpy_some some_bytes (by rw [bytes_of_length,List.length_replicate]; exact room) _ later,List.drop_replicate,bytes_of_length]
  · simpa using copied.ends
  · intro k inside
    rw [bytes_of_length] at inside
    rw [bytes_of_get inside,Nat.zero_add]

/-- With a colon at `i` the rest of the buffer is copied, which reads behind it only when the colon is its last but one byte. -/
theorem Copied.behind_colon (copied : Copied path n) (starts : path 0 ≠ 0) (room : n ≤ 1023) {i : Nat} (inside : i < n) :
    (strcpy (fun j => ((bytes_of path n ++ List.replicate (1024 - n) 0).set i 0)[i + 1 + j]?) file_path_buffer 0).isSome ↔
      i ≠ 1022 := by
  have read (j : Nat) : ((bytes_of path n ++ List.replicate (1024 - n) 0).set i 0)[i + 1 + j]? =
      if i + 1 + j < n then some (path (i + 1 + j)) else if i + 1 + j < 1024 then some 0 else none := by
    rw [List.getElem?_set_ne (by omega)]
    split_ifs with within small
    · rw [List.getElem?_append_left (by simpa using within),bytes_of_get within]
    · rw [List.getElem?_append_right (by simpa using within),List.getElem?_replicate,if_pos (by simp; omega)]
    · rw [List.getElem?_eq_none (by simp; omega)]
  simp only [read]
  have nonzero (k : Nat) (small : k < n) : path k ≠ 0 := by
    by_cases first : k = 0
    · exact first ▸ starts
    · exact copied.plain k (Nat.pos_of_ne_zero first) small
  constructor
  · intro copies last
    obtain ⟨copied',copies⟩ := isSome_iff_exists.mp copies
    obtain ⟨m,positive,-,ends,-⟩ := strcpy_ends copies
    rw [if_neg (by omega),if_neg (by omega)] at ends
    cases ends
  · intro early
    have room_out : file_path_buffer.length = 1024 := List.length_replicate
    by_cases within : i + 1 < n
    · have length : ((bytes_of path n).drop (i + 1)).length = n - (i + 1) := by rw [List.length_drop,bytes_of_length]
      refine isSome_iff_exists.mpr ⟨_,@strcpy_some _ ((bytes_of path n).drop (i + 1)) _ _ ?_ ?_ ?_ ?_ ?_⟩
      · exact List.ne_nil_of_length_pos (by omega)
      · omega
      · intro k small
        rw [List.getElem?_drop,bytes_of_get (by omega),Nat.zero_add,if_pos (by omega)]
      · intro c mem
        obtain ⟨k,small,rfl⟩ := mem_bytes_of.mp (List.mem_of_mem_drop (List.mem_of_mem_tail mem))
        exact nonzero k small
      · rw [length,if_neg (by omega),if_pos (by omega)]
    · refine isSome_iff_exists.mpr ⟨_,@strcpy_some _ [0] _ _ (List.cons_ne_nil _ _) ?_ ?_ ?_ ?_⟩
      · rw [room_out,List.length_singleton]
        omega
      · intro k small
        obtain rfl : k = 0 := by simpa using small
        rw [if_neg (by omega),if_pos (by omega)]
        rfl
      · exact fun c mem => absurd mem List.not_mem_nil
      · rw [List.length_singleton,if_neg (by omega),if_pos (by omega)]

theorem Copied.first_colon {i : Nat} (found : (bytes_of path n).findIdx? (· = colon) = some i) :
    i < n ∧ path i = colon ∧ ∀ k, k < i → path k ≠ colon := by
  obtain ⟨inside,here,before⟩ := List.findIdx?_eq_some_iff_getElem.mp found
  rw [bytes_of_length] at inside
  refine ⟨inside,by simpa [bytes_of] using here,fun k early => ?_⟩
  simpa [bytes_of] using before k early

/-- A path of 1 to 1023 bytes. -/
theorem Copied.lookup (copied : Copied path n) (starts : path 0 ≠ 0) (room : n ≤ 1023) (mounts : List Name) :
    (vfs_find_mount mounts path file_path_buffer).isSome ↔
      (n = 1023 → path 1022 = colon → ∃ k, k < 1022 ∧ path k = colon) := by
  have plain : ∀ c ∈ bytes_of path n, c ≠ 0 := by
    intro c mem
    obtain ⟨k,small,rfl⟩ := mem_bytes_of.mp mem
    by_cases first : k = 0
    · exact first ▸ starts
    · exact copied.plain k (Nat.pos_of_ne_zero first) small
  obtain ⟨zeros,rest⟩ : ∃ zeros, 1024 - n = zeros + 1 := ⟨1023 - n,by omega⟩
  have length : strlen (bytes_of path n ++ List.replicate (1024 - n) 0) = some n := by
    rw [strlen_append plain,rest,List.replicate_succ,strlen,if_neg (by simp),Option.map_some,bytes_of_length,Nat.zero_add]
  have taken : (bytes_of path n ++ List.replicate (1024 - n) 0).take n = bytes_of path n :=
    List.take_left' (bytes_of_length path n)
  simp only [vfs_find_mount,copied.filename (Nat.le_succ_of_le room),length,bind_eq_bind,Option.bind_some,taken]
  cases found : (bytes_of path n).findIdx? (· = colon) with
  | none =>
    rw [List.findIdx?_eq_none_iff] at found
    refine ⟨fun _ full last => ?_,fun _ => rfl⟩
    have colonless := found (path 1022) (mem_bytes_of.mpr ⟨1022,by omega,rfl⟩)
    simp [last] at colonless
  | some i =>
    obtain ⟨inside,here,before⟩ := Copied.first_colon found
    have behind := copied.behind_colon starts room inside
    have returns {α β : Type} (o : Option α) (f : α → β) : (o.bind fun x => some (f x)).isSome = o.isSome := by
      cases o <;> rfl
    simp only [Option.pure_def]
    rw [returns,behind]
    constructor
    · intro early full last
      refine ⟨i,?_,here⟩
      omega
    · rintro condition rfl
      obtain ⟨k,early,colon_there⟩ := condition (by omega) here
      exact before k early colon_there

theorem find_mount_iff (mounts : List Name) (path : Nat → UInt8) :
    (vfs_find_mount mounts path file_path_buffer).isSome ↔ Fits path := by
  constructor
  · intro safe
    obtain ⟨found,lookup⟩ := isSome_iff_exists.mp safe
    have copies := lookup
    simp only [vfs_find_mount,bind_eq_bind,bind_eq_some_iff] at copies
    obtain ⟨filename,copies,len,length,-⟩ := copies
    obtain ⟨n,positive,room,ends,plain⟩ := strcpy_ends copies
    rw [List.length_replicate] at room
    have copied : Copied path n := by
      refine ⟨positive,by simpa using ends,fun k low high => ?_⟩
      obtain ⟨c,read,nonzero⟩ := plain k low high
      simp only [Nat.zero_add,some.injEq] at read
      exact read ▸ nonzero
    refine ⟨n,copied,?_⟩
    by_cases starts : path 0 = 0
    · exact .inl ⟨starts,room⟩
    have short : n ≤ 1023 := by
      by_contra full
      obtain rfl : n = 1024 := by omega
      rw [copied.filename (Nat.le_refl _),some.injEq] at copies
      rw [← copies,strlen_append] at length
      · simp [strlen] at length
      · intro c mem
        obtain ⟨k,small,rfl⟩ := mem_bytes_of.mp mem
        by_cases first : k = 0
        · exact first ▸ starts
        · exact copied.plain k (Nat.pos_of_ne_zero first) small
    exact .inr ⟨starts,short,(copied.lookup starts short mounts).mp safe⟩
  · rintro ⟨n,copied,⟨starts,room⟩ | ⟨starts,room,condition⟩⟩
    · obtain ⟨m,rfl⟩ : ∃ m, n = m + 1 := ⟨n - 1,(Nat.sub_add_cancel copied.positive).symm⟩
      have first : bytes_of path (m + 1) = 0 :: (List.range m).map (fun k => path (k + 1)) := by
        simp [bytes_of,List.range_succ_eq_map,starts]
      have empty : strlen (bytes_of path (m + 1) ++ List.replicate (1024 - (m + 1)) 0) = some 0 := by
        rw [first,List.cons_append,strlen]
        rfl
      simp only [vfs_find_mount,copied.filename room,empty,bind_eq_bind,Option.bind_some,List.take_zero,
        List.findIdx?_nil]
      rfl
    · exact (copied.lookup starts room mounts).mpr condition

end

/-- What a path names in the archive: nothing below a file. -/
def lookup (m : Memory) : List Name → Nat → Option Nat
  | [],current => some current
  | name :: names,current => if is_folder m current then (child_named m current name).bind (lookup m names) else none

/-- Every component that is looked up has at most 127 bytes and is looked up in a folder. -/
def Clean (m : Memory) : List Name → Nat → Prop
  | [],_ => True
  | name :: names,current =>
    name.length ≤ 127 ∧ is_folder m current = true ∧ ∀ node, child_named m current name = some node → Clean m names node

theorem walk_iff (m : Memory) (names : List Name) (current : Nat) :
    walk m names current = .ok (lookup m names current) ↔ Clean m names current := by
  induction names generalizing current with
  | nil => simp [walk,lookup,Clean]
  | cons name names ih =>
    by_cases long : 128 ≤ name.length
    · rw [walk,if_pos long]
      exact ⟨fun stops => (by cases stops),fun clean => absurd clean.1 (by omega)⟩
    by_cases folder : is_folder m current = true
    · have short : name.length ≤ 127 := by omega
      rw [walk,if_neg long,if_neg (by simp [folder]),lookup,if_pos folder]
      cases found : child_named m current name with
      | none => simp [Clean,short,folder,found]
      | some node => simp [Clean,short,folder,found,ih]
    · rw [walk,if_neg long,if_pos (by simpa using folder)]
      exact ⟨fun stops => (by cases stops),fun clean => absurd clean.2.1 folder⟩

theorem label_iff (disk : Disk) : (try_read_disk_label label_buffer disk).isSome ↔
    ∀ label, label_file disk = some label → label.length ≤ 63 := by
  have room : label_buffer.length = 64 := List.length_replicate
  unfold try_read_disk_label
  rw [room]
  cases label_file disk with
  | none => simp
  | some label =>
    by_cases fits : label.length < 64
    · simp only [if_pos fits,Option.isSome_some,some.injEq,forall_eq',true_iff]
      omega
    · simp only [if_neg fits,Option.isSome_none,some.injEq,forall_eq',Bool.false_eq_true,false_iff]
      omega

/-- Opening a path stays inside the two buffers of 1024 bytes exactly for the paths that fit them, a lookup in the archive
    returns what the path names exactly when every component fits its buffer and is looked up in a folder, and reading a label
    stays inside the 64 bytes exactly when the label has at most 63. -/
theorem path_buffers (mounts : List Name) (path : Nat → UInt8) (m : Memory) (file_path : Name) (base : Nat) (disk : Disk) :
    ((vfs_find_mount mounts path file_path_buffer).isSome ↔ Fits path) ∧
    (initrd_find m file_path base = .ok (lookup m (components file_path) base) ↔ Clean m (components file_path) base) ∧
    ((try_read_disk_label label_buffer disk).isSome ↔ ∀ label, label_file disk = some label → label.length ≤ 63) :=
  ⟨find_mount_iff mounts path,by rw [initrd_find_eq]; exact walk_iff m _ base,label_iff disk⟩

/-- An archive whose root has one file, `a`. -/
def archive : Memory := fun i =>
  if i = flags_at then 1 else if i = num_children_at then 1 else if i = children_at then 232 else if i = children_at + 1 then 3
  else if i = 1000 + name_at then 97 else 0

/-- A path of 1024 bytes, the path `a/b` with a file `a`, and a label of 64 bytes. -/
theorem path_buffers_wrong :
    ¬ (vfs_find_mount [] (fun i => if i < 1024 then 97 else 0) file_path_buffer).isSome ∧
    initrd_find archive [97,47,98] 0 = .error .assertion ∧ lookup archive (components [97,47,98]) 0 = none ∧
    ¬ (try_read_disk_label label_buffer fun _ => some (List.replicate 64 65)).isSome := by
  refine ⟨?_,?_,by decide,?_⟩
  · rw [find_mount_iff]
    rintro ⟨n,copied,⟨starts,-⟩ | ⟨-,room,-⟩⟩
    · exact absurd starts (by decide)
    · have ends := copied.ends
      rw [if_pos (by omega)] at ends
      exact absurd ends (by decide)
  · have names : components [97,47,98] = [[97],[98]] := by decide
    have root : is_folder archive 0 = true := by decide
    have child : child_named archive 0 [97] = some 1000 := by decide +kernel
    have file : is_folder archive 1000 = false := by decide
    simp [initrd_find_eq,names,walk,root,child,file]
  · rw [label_iff]
    intro short
    have := short _ rfl
    rw [List.length_replicate] at this
    exact absurd this (by decide)

end MicroOS.PathBuffers

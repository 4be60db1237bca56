import MicroOS.Vfs
import MicroOS.Runs

/-!
Each callback of fatdrv.c hands FatFs a path that starts with the number of the disk, or an object that it opened with such
a path. FatFs is what its documentation says: `get_ldnumber` finds the drive of a path, and an open object must be closed.
The main theorem is `fat_mounts`: along which runs every call reaches the disk and the name that were meant, and every
object is closed and its memory freed exactly once.
-/
namespace MicroOS.FatMounts
open Vfs (Name Dir EntryType)
open Runs
open Function (update update_of_ne update_self)

/-- A file or a directory on a drive. -/
structure Object where
  drive : Nat
  name : Name
  deriving DecidableEq

/-- The drive of a path and what stands behind it, `none` for -1. A byte below the blank ends the path, 58 is the colon; a path
    without a colon is one of drive 0. -/
def get_ldnumber (path : Name) : Option Object :=
  let volume := path.takeWhile fun c => decide (32 ≤ c) && decide (c ≠ 58)
  match path.drop volume.length with
  | [] => some ⟨0,path⟩
  | c :: rest =>
    if c = 58 then
      match volume with
      | [digit] => if 48 ≤ digit ∧ digit ≤ 57 then some ⟨digit.toNat - 48,rest⟩ else none
      | _ => none
    else some ⟨0,path⟩

/-- `FIL`, with the number of the open that filled it. -/
structure Fil where
  serial : Nat
  object : Object

/-- `FILINFO`. -/
structure Info where
  fname : Name
  is_dir : Bool

def FA_READ : Nat := 1
def FA_WRITE : Nat := 2
def FA_CREATE_ALWAYS : Nat := 8

/-- The calls of FatFs. -/
inductive Call where
  | f_mount (path : Name)
  | f_open (path : Name) (mode : Nat)
  | f_close (fil : Fil)
  | f_lseek (fil : Fil) (offset : Nat)
  | f_read (fil : Fil) (size : Nat)
  | f_write (fil : Fil) (size : Nat)
  | f_truncate (fil : Fil)
  | f_unlink (path : Name)
  | f_mkdir (path : Name)
  | f_rmdir (path : Name)
  | f_opendir (path : Name)
  | f_readdir (dir : Object)
  | f_closedir (dir : Object)

/-- What a call reaches. -/
def Call.object : Call → Option Object
  | .f_mount path | .f_open path _ | .f_unlink path | .f_mkdir path | .f_rmdir path | .f_opendir path => get_ldnumber path
  | .f_close fil | .f_lseek fil _ | .f_read fil _ | .f_write fil _ | .f_truncate fil => some fil.object
  | .f_readdir dir | .f_closedir dir => some dir

/-- `file_t`; of its mount only the disk matters. -/
structure File where
  disk_id : Nat
  buffer : Name
  size : Nat
  driver_specific_data : Fil

/-- The disks that are mounted and the open files under the number of their open; then the objects that were opened, closed,
    copied to the heap and freed there, the calls with what was meant by them, and whether a path went past its buffer. -/
structure Kernel where
  mounts : List Nat
  files : Nat → Option File
  opened : Nat
  closed : List Nat
  allocated : List Nat
  released : List Nat
  calls : List (Object × Call)
  overrun : Bool

def ask (k : Kernel) (meant : Object) (call : Call) : Kernel := { k with calls := k.calls ++ [(meant,call)] }

/-- `'0' + data->disk_id`, a colon and the path. -/
def new_path (disk_id : Nat) (path : Name) : Name := UInt8.ofNat (48 + disk_id) :: 58 :: path

/-- The buffer for `new_path` has 256 bytes, with the terminator. -/
def build (k : Kernel) (path : Name) : Kernel := { k with overrun := k.overrun || decide (256 < 2 + path.length + 1) }

/-- The modes are FILE_OPEN_MODE_READ, WRITE and READ_WRITE. -/
def mode (flags : Int) : Nat :=
  if flags = 0 then FA_READ else if flags = 1 then FA_WRITE else if flags = 2 then FA_WRITE ||| FA_READ else 0

/-- `found` is the size when `f_open` gives FR_OK. -/
def fatfs_open (k : Kernel) (disk_id : Nat) (path : Name) (flags : Int) (found : Option Nat) : Kernel × Option Nat :=
  let k := ask (build k path) ⟨disk_id,path⟩ (.f_open (new_path disk_id path) (mode flags))
  match found,get_ldnumber (new_path disk_id path) with
  | some size,some object =>
    ({ k with
        files := update k.files k.opened (some ⟨disk_id,path,size,⟨k.opened,object⟩⟩)
        opened := k.opened + 1
        allocated := k.opened :: k.allocated },some k.opened)
  | _,_ => (k,none)

def fatfs_close (k : Kernel) (f : Nat) (file : File) : Kernel :=
  let fil := file.driver_specific_data
  let k := ask k ⟨file.disk_id,file.buffer⟩ (.f_close fil)
  { k with
    files := update k.files f none
    closed := fil.serial :: k.closed
    released := fil.serial :: k.released }

/-- `none` when the assertion fails, which stops the kernel. -/
def fatfs_read (k : Kernel) (file : File) (size offset has_read : Nat) : Option Kernel :=
  let fil := file.driver_specific_data
  let k := ask k ⟨file.disk_id,file.buffer⟩ (.f_lseek fil offset)
  let k := ask k ⟨file.disk_id,file.buffer⟩ (.f_read fil size)
  if has_read = size then some k else none

/-- `f_size` is the size that the object has then. -/
def fatfs_write (k : Kernel) (f : Nat) (file : File) (size offset has_written f_size : Nat) : Option Kernel :=
  let fil := file.driver_specific_data
  let k := ask k ⟨file.disk_id,file.buffer⟩ (.f_lseek fil offset)
  let k := ask k ⟨file.disk_id,file.buffer⟩ (.f_write fil size)
  let k := { k with files := update k.files f (some { file with size := f_size }) }
  if has_written = size then some k else none

def fatfs_truncate (k : Kernel) (f : Nat) (file : File) (new_size f_size : Nat) : Kernel :=
  let fil := file.driver_specific_data
  let k := ask k ⟨file.disk_id,file.buffer⟩ (.f_lseek fil new_size)
  let k := ask k ⟨file.disk_id,file.buffer⟩ (.f_truncate fil)
  { k with files := update k.files f (some { file with size := f_size }) }

/-- The path goes to FatFs as it was given, and the object stays open. -/
def fatfs_delete (k : Kernel) (f : Nat) (file : File) : Kernel :=
  let k := ask k ⟨file.disk_id,file.buffer⟩ (.f_unlink file.buffer)
  { k with files := update k.files f none }

def fatfs_mkdir (k : Kernel) (disk_id : Nat) (path : Name) : Kernel :=
  ask (build k path) ⟨disk_id,path⟩ (.f_mkdir (new_path disk_id path))

/-- What `f_readdir` gives, up to an error or an empty name; the number of the calls comes along. -/
def dir_loop : List Info → Int → Nat × Option Info
  | [],_ => (1,none)
  | info :: rest,idx =>
    if info.fname = [] then (1,none)
    else if idx = 0 then (1,some info)
    else ((dir_loop rest (idx - 1)).1 + 1,(dir_loop rest (idx - 1)).2)

/-- `entries` is what the directory holds when it can be opened. An early return leaves it open. -/
def fatfs_dir_at (k : Kernel) (disk_id : Nat) (idx : Int) (path : Name) (entries : Option (List Info)) : Kernel × Dir :=
  let k := ask (build k path) ⟨disk_id,path⟩ (.f_opendir (new_path disk_id path))
  match entries,get_ldnumber (new_path disk_id path) with
  | some entries,some dir =>
    let k := (List.replicate (dir_loop entries idx).1 dir).foldl (fun k dir => ask k ⟨disk_id,path⟩ (.f_readdir dir)) k
    match (dir_loop entries idx).2 with
    | none => (k,Dir.none)
    | some info =>
      (ask k ⟨disk_id,path⟩ (.f_closedir dir),⟨info.fname,BitVec.ofInt 32 idx,false,if info.is_dir then .dir else .file⟩)
  | _,_ => (k,Dir.none)

/-- An `f_open` that fails clears the object, so that `f_close` reaches nothing. -/
def fatfs_touch (k : Kernel) (disk_id : Nat) (path : Name) (created : Bool) : Kernel :=
  let k := ask (build k path) ⟨disk_id,path⟩ (.f_open (new_path disk_id path) (FA_WRITE ||| FA_CREATE_ALWAYS))
  match created,get_ldnumber (new_path disk_id path) with
  | true,some object =>
    let k := { k with opened := k.opened + 1,closed := k.opened :: k.closed }
    ask k ⟨disk_id,path⟩ (.f_close ⟨k.opened,object⟩)
  | _,_ => k

def fatfs_delete_dir (k : Kernel) (disk_id : Nat) (path : Name) : Kernel :=
  ask (build k path) ⟨disk_id,path⟩ (.f_rmdir (new_path disk_id path))

/-- `none` when the assertion that `f_mount` succeeds fails. -/
def fatfs_mount (k : Kernel) (disk_id : Nat) (mounted : Bool) : Option Kernel :=
  let k := ask k ⟨disk_id,[]⟩ (.f_mount (new_path disk_id []))
  if mounted && (get_ldnumber (new_path disk_id [])).isSome then some { k with mounts := disk_id :: k.mounts } else none

inductive Action where
  | mount (disk_id : Nat)
  | open_file (disk_id : Nat) (path : Name) (flags : Int)
  | close (f : Nat)
  | read (f size offset : Nat)
  | write (f size offset : Nat)
  | truncate (f new_size : Nat)
  | delete (f : Nat)
  | mkdir (disk_id : Nat) (path : Name)
  | dir_at (disk_id : Nat) (idx : Int) (path : Name)
  | touch (disk_id : Nat) (path : Name)
  | delete_dir (disk_id : Nat) (path : Name)

/-- The callers use the callbacks of a mount with its own data, and files while they are open. -/
inductive Step : Kernel → Action → Kernel → Prop
  | mount (k : Kernel) (disk_id : Nat) (mounted : Bool) {t : Kernel} (done : fatfs_mount k disk_id mounted = some t) :
      Step k (.mount disk_id) t
  | open_file (k : Kernel) {disk_id : Nat} (here : disk_id ∈ k.mounts) (path : Name) (flags : Int) (found : Option Nat) :
      Step k (.open_file disk_id path flags) (fatfs_open k disk_id path flags found).1
  | close (k : Kernel) {f : Nat} {file : File} (here : k.files f = some file) : Step k (.close f) (fatfs_close k f file)
  | read (k : Kernel) {f : Nat} {file : File} (here : k.files f = some file) (size offset has_read : Nat) {t : Kernel}
      (done : fatfs_read k file size offset has_read = some t) : Step k (.read f size offset) t
  | write (k : Kernel) {f : Nat} {file : File} (here : k.files f = some file) (size offset has_written f_size : Nat) {t : Kernel}
      (done : fatfs_write k f file size offset has_written f_size = some t) : Step k (.write f size offset) t
  | truncate (k : Kernel) {f : Nat} {file : File} (here : k.files f = some file) (new_size f_size : Nat) :
      Step k (.truncate f new_size) (fatfs_truncate k f file new_size f_size)
  | delete (k : Kernel) {f : Nat} {file : File} (here : k.files f = some file) : Step k (.delete f) (fatfs_delete k f file)
  | mkdir (k : Kernel) {disk_id : Nat} (here : disk_id ∈ k.mounts) (path : Name) :
      Step k (.mkdir disk_id path) (fatfs_mkdir k disk_id path)
  | dir_at (k : Kernel) {disk_id : Nat} (here : disk_id ∈ k.mounts) (idx : Int) (path : Name) (entries : Option (List Info)) :
      Step k (.dir_at disk_id idx path) (fatfs_dir_at k disk_id idx path entries).1
  | touch (k : Kernel) {disk_id : Nat} (here : disk_id ∈ k.mounts) (path : Name) (created : Bool) :
      Step k (.touch disk_id path) (fatfs_touch k disk_id path created)
  | delete_dir (k : Kernel) {disk_id : Nat} (here : disk_id ∈ k.mounts) (path : Name) :
      Step k (.delete_dir disk_id path) (fatfs_delete_dir k disk_id path)

def fatfs : System Kernel Action where
  start k := k.mounts = [] ∧ k.files = (fun _ => none) ∧ k.opened = 0 ∧ k.closed = [] ∧ k.allocated = [] ∧ k.released = [] ∧
    k.calls = [] ∧ k.overrun = false
  step := Step

/-- Every call reaches what was meant and no path goes past its buffer; an object is open exactly as long as its file, closed
    once, and its memory is freed once. -/
structure Correct (k : Kernel) : Prop where
  aimed : ∀ c ∈ k.calls, c.2.object = some c.1
  within : k.overrun = false
  closed_once : k.closed.Nodup
  closed : ∀ serial, serial < k.opened ↔ serial ∈ k.closed ∨ (k.files serial).isSome
  held : ∀ serial, (k.files serial).isSome → serial ∉ k.closed
  released_once : k.released.Nodup
  released : ∀ serial, serial ∈ k.allocated ↔ serial ∈ k.released ∨ (k.files serial).isSome
  kept : ∀ serial, (k.files serial).isSome → serial ∉ k.released

/-- The disk has one of the ten numbers of FatFs, a path fits into the buffer, and nothing is deleted. -/
def Careful (_ : Kernel) : Action → Prop
  | .mount disk_id => disk_id < 10
  | .open_file _ path _ | .mkdir _ path | .dir_at _ _ path | .touch _ path | .delete_dir _ path => path.length ≤ 253
  | .delete _ => False
  | .close _ | .read _ _ _ | .write _ _ _ | .truncate _ _ => True

theorem digit_of : ∀ disk_id < 10, (32 ≤ UInt8.ofNat (48 + disk_id) ∧ UInt8.ofNat (48 + disk_id) ≠ 58) ∧
    (48 ≤ UInt8.ofNat (48 + disk_id) ∧ UInt8.ofNat (48 + disk_id) ≤ 57) ∧ (UInt8.ofNat (48 + disk_id)).toNat - 48 = disk_id := by
  decide

/-- The path with its prefix is one of the disk. -/
theorem ldnumber_new_path {disk_id : Nat} (small : disk_id < 10) (path : Name) :
    get_ldnumber (new_path disk_id path) = some ⟨disk_id,path⟩ := by
  obtain ⟨⟨printable,other⟩,digit,value⟩ := digit_of disk_id small
  rw [new_path]
  generalize UInt8.ofNat (48 + disk_id) = c at printable other digit value ⊢
  simp [get_ldnumber,printable,other,digit,value]

/-- There are only ten drives. -/
theorem ldnumber_small {path : Name} {object : Object} (found : get_ldnumber path = some object) : object.drive < 10 := by
  unfold get_ldnumber at found
  dsimp only at found
  split at found
  case h_1 =>
    cases found
    exact Nat.succ_pos 9
  case h_2 c rest _ =>
    split at found
    · split at found
      · split at found
        · rename_i digit _ bounds
          cases found
          have high : digit.toNat ≤ 57 := bounds.2
          dsimp only
          omega
        · cases found
      · cases found
    · cases found
      exact Nat.succ_pos 9

/-- What holds along a careful run: also, a mounted disk has a drive, and a file keeps the object that was opened for it. -/
structure Sound (k : Kernel) : Prop where
  correct : Correct k
  mounted : ∀ disk_id ∈ k.mounts, disk_id < 10
  own : ∀ f file, k.files f = some file → file.driver_specific_data = ⟨f,⟨file.disk_id,file.buffer⟩⟩
  recent : ∀ serial ∈ k.allocated, serial < k.opened

section
variable {k : Kernel} {meant : Object} {call : Call} {path : Name} {disk_id f : Nat} {file : File}

theorem ask_sound (sound : Sound k) (reaches : call.object = some meant) : Sound (ask k meant call) := by
  have correct := sound.correct
  refine ⟨⟨?_,correct.within,correct.closed_once,correct.closed,correct.held,correct.released_once,correct.released,
    correct.kept⟩,sound.mounted,sound.own,sound.recent⟩
  intro c asked
  rcases List.mem_append.1 asked with before | new
  · exact correct.aimed c before
  · rw [List.mem_singleton.1 new]
    exact reaches

/-- A call with a path of the disk, built in its buffer. -/
theorem path_sound (sound : Sound k) (here : disk_id ∈ k.mounts) (short : path.length ≤ 253)
    (same : call.object = get_ldnumber (new_path disk_id path)) : Sound (ask (build k path) ⟨disk_id,path⟩ call) := by
  have correct := sound.correct
  refine ask_sound ⟨⟨correct.aimed,?_,correct.closed_once,correct.closed,correct.held,correct.released_once,correct.released,
    correct.kept⟩,sound.mounted,sound.own,sound.recent⟩ (same.trans (ldnumber_new_path (sound.mounted _ here) path))
  have fits : ¬ 256 < 2 + path.length + 1 := by omega
  rw [build,decide_eq_false fits,Bool.or_false]
  exact correct.within

theorem build_long (correct : (build k path).overrun = false) : path.length ≤ 253 := by
  rw [build,Bool.or_eq_false_iff] at correct
  have fits := of_decide_eq_false correct.2
  omega

section
variable (sound : Sound k)
include sound

theorem mount_sound {mounted : Bool} {t : Kernel} (done : fatfs_mount k disk_id mounted = some t) :
    (Correct t ↔ disk_id < 10) ∧ (disk_id < 10 → Sound t) := by
  unfold fatfs_mount at done
  dsimp only at done
  split at done
  case isFalse => cases done
  case isTrue found =>
    cases done
    have keeps : disk_id < 10 →
        Sound { ask k ⟨disk_id,[]⟩ (.f_mount (new_path disk_id [])) with mounts := disk_id :: k.mounts } := by
      intro small
      have asked : Sound (ask k ⟨disk_id,[]⟩ (.f_mount (new_path disk_id []))) := ask_sound sound (ldnumber_new_path small [])
      refine ⟨⟨asked.correct.aimed,asked.correct.within,asked.correct.closed_once,asked.correct.closed,asked.correct.held,
        asked.correct.released_once,asked.correct.released,asked.correct.kept⟩,?_,asked.own,asked.recent⟩
      intro other listed
      rcases List.mem_cons.1 listed with rfl | before
      · exact small
      · exact sound.mounted other before
    refine ⟨⟨fun correct => ?_,fun small => (keeps small).correct⟩,keeps⟩
    have hit := correct.aimed (⟨disk_id,[]⟩,.f_mount (new_path disk_id [])) (List.mem_append_right _ (List.mem_singleton.2 rfl))
    exact ldnumber_small hit

/-- An object that was opened and copied to the heap belongs to its new file. -/
theorem opened_sound (file : File) (own : file.driver_specific_data = ⟨k.opened,⟨file.disk_id,file.buffer⟩⟩) :
    Sound { k with
      files := update k.files k.opened (some file)
      opened := k.opened + 1
      allocated := k.opened :: k.allocated } := by
  have correct := sound.correct
  have new_closed : k.opened ∉ k.closed := fun listed => lt_irrefl _ ((correct.closed _).2 (Or.inl listed))
  have new_released : k.opened ∉ k.released := fun listed => lt_irrefl _ (sound.recent _ ((correct.released _).2 (Or.inl listed)))
  refine ⟨⟨correct.aimed,correct.within,correct.closed_once,?_,?_,correct.released_once,?_,?_⟩,sound.mounted,?_,?_⟩
  · intro serial
    dsimp only
    by_cases new : serial = k.opened
    · simp [new]
    · rw [update_of_ne new,← correct.closed serial]
      omega
  · intro serial
    dsimp only
    by_cases new : serial = k.opened
    · exact fun _ => new ▸ new_closed
    · rw [update_of_ne new]
      exact correct.held serial
  · intro serial
    dsimp only
    rw [List.mem_cons]
    by_cases new : serial = k.opened
    · simp [new]
    · rw [update_of_ne new,← correct.released serial]
      exact or_iff_right new
  · intro serial
    dsimp only
    by_cases new : serial = k.opened
    · exact fun _ => new ▸ new_released
    · rw [update_of_ne new]
      exact correct.kept serial
  · intro f file' held
    dsimp only at held
    by_cases new : f = k.opened
    · rw [new,update_self] at held
      cases held
      rw [new]
      exact own
    · rw [update_of_ne new] at held
      exact sound.own f file' held
  · intro serial listed
    rcases List.mem_cons.1 listed with rfl | before
    · exact Nat.lt_succ_self _
    · exact Nat.lt_succ_of_lt (sound.recent serial before)

theorem open_sound (here : disk_id ∈ k.mounts) (short : path.length ≤ 253) (flags : Int) (found : Option Nat) :
    Sound (fatfs_open k disk_id path flags found).1 := by
  have asked : Sound (ask (build k path) ⟨disk_id,path⟩ (.f_open (new_path disk_id path) (mode flags))) :=
    path_sound sound here short rfl
  cases found with
  | none => exact asked
  | some size =>
    simp only [fatfs_open,ldnumber_new_path (sound.mounted _ here)]
    exact opened_sound asked _ rfl

section
variable (here : k.files f = some file)
include here

/-- A file keeps its object. -/
theorem resize_sound (size : Nat) : Sound { k with files := update k.files f (some { file with size := size }) } := by
  have correct := sound.correct
  have same : ∀ serial, (update k.files f (some { file with size := size }) serial).isSome = (k.files serial).isSome := by
    intro serial
    by_cases own : serial = f
    · rw [own,update_self,here]
      rfl
    · rw [update_of_ne own]
  refine ⟨⟨correct.aimed,correct.within,correct.closed_once,?_,?_,correct.released_once,?_,?_⟩,sound.mounted,?_,sound.recent⟩
  · simpa only [same] using correct.closed
  · simpa only [same] using correct.held
  · simpa only [same] using correct.released
  · simpa only [same] using correct.kept
  · intro other file' held
    by_cases own : other = f
    · dsimp only at held
      rw [own,update_self] at held
      cases held
      rw [own]
      exact sound.own f file here
    · dsimp only at held
      rw [update_of_ne own] at held
      exact sound.own other file' held

/-- A call on the object of an open file reaches it. -/
theorem file_sound (same : call.object = some file.driver_specific_data.object) :
    Sound (ask k ⟨file.disk_id,file.buffer⟩ call) := by
  rw [sound.own f file here] at same
  exact ask_sound sound same

theorem close_sound : Sound (fatfs_close k f file) := by
  have asked : Sound (ask k ⟨file.disk_id,file.buffer⟩ (.f_close file.driver_specific_data)) := file_sound sound here rfl
  rw [fatfs_close]
  rw [sound.own f file here] at asked ⊢
  have held : ((ask k ⟨file.disk_id,file.buffer⟩ (.f_close ⟨f,⟨file.disk_id,file.buffer⟩⟩)).files f).isSome := by
    rw [ask]
    dsimp only
    rw [here]
    rfl
  generalize ask k ⟨file.disk_id,file.buffer⟩ (.f_close ⟨f,⟨file.disk_id,file.buffer⟩⟩) = k' at asked held ⊢
  have correct := asked.correct
  refine ⟨⟨correct.aimed,correct.within,List.nodup_cons.2 ⟨correct.held f held,correct.closed_once⟩,?_,?_,
    List.nodup_cons.2 ⟨correct.kept f held,correct.released_once⟩,?_,?_⟩,asked.mounted,?_,asked.recent⟩
  · intro serial
    dsimp only
    rw [correct.closed serial,List.mem_cons]
    by_cases own : serial = f
    · simp [own,held]
    · simp [own]
  · intro serial
    dsimp only
    by_cases own : serial = f
    · simp [own]
    · simpa [own] using correct.held serial
  · intro serial
    dsimp only
    rw [correct.released serial,List.mem_cons]
    by_cases own : serial = f
    · simp [own,held]
    · simp [own]
  · intro serial
    dsimp only
    by_cases own : serial = f
    · simp [own]
    · simpa [own] using correct.kept serial
  · intro other file' still
    dsimp only at still
    by_cases own : other = f
    · rw [own,update_self] at still
      cases still
    · rw [update_of_ne own] at still
      exact asked.own other file' still

theorem read_sound {size offset has_read : Nat} {t : Kernel}
    (done : fatfs_read k file size offset has_read = some t) : Sound t := by
  unfold fatfs_read at done
  dsimp only at done
  split at done
  case isTrue =>
    cases done
    exact file_sound (file_sound sound here rfl) here rfl
  case isFalse => cases done

theorem write_sound {size offset has_written f_size : Nat} {t : Kernel}
    (done : fatfs_write k f file size offset has_written f_size = some t) : Sound t := by
  unfold fatfs_write at done
  dsimp only at done
  split at done
  case isTrue =>
    cases done
    exact resize_sound (file_sound (file_sound sound here rfl) here rfl) here f_size
  case isFalse => cases done

theorem truncate_sound (new_size f_size : Nat) : Sound (fatfs_truncate k f file new_size f_size) :=
  resize_sound (file_sound (file_sound sound here rfl) here rfl) here f_size

/-- The object of a deleted file is neither closed nor held by a file. -/
theorem delete_wrong : ¬ Correct (fatfs_delete k f file) := by
  intro correct
  have held : (k.files f).isSome := by rw [here]; rfl
  have opened : f < k.opened := (sound.correct.closed f).2 (Or.inr held)
  rcases (correct.closed f).1 opened with closed | still
  · exact sound.correct.held f held closed
  · rw [fatfs_delete] at still
    simp at still

end

end

/-- What a directory is read with. -/
def reads (k : Kernel) (meant dir : Object) (n : Nat) : Kernel :=
  (List.replicate n dir).foldl (fun k dir => ask k meant (.f_readdir dir)) k

theorem reads_succ (k : Kernel) (meant dir : Object) (n : Nat) :
    reads k meant dir (n + 1) = reads (ask k meant (.f_readdir dir)) meant dir n := rfl

theorem reads_sound (sound : Sound k) (n : Nat) : Sound (reads k meant meant n) := by
  induction n generalizing k with
  | zero => exact sound
  | succ n ih =>
    rw [reads_succ]
    exact ih (ask_sound sound rfl)

theorem reads_overrun (k : Kernel) (meant dir : Object) (n : Nat) : (reads k meant dir n).overrun = k.overrun := by
  induction n generalizing k with
  | zero => rfl
  | succ n ih =>
    rw [reads_succ,ih]
    rfl

theorem dir_at_eq (k : Kernel) (disk_id : Nat) (idx : Int) (path : Name) (entries : Option (List Info)) :
    fatfs_dir_at k disk_id idx path entries =
      match entries,get_ldnumber (new_path disk_id path) with
      | some entries,some dir =>
        let k := reads (ask (build k path) ⟨disk_id,path⟩ (.f_opendir (new_path disk_id path))) ⟨disk_id,path⟩ dir (dir_loop entries idx).1
        match (dir_loop entries idx).2 with
        | none => (k,Dir.none)
        | some info =>
          (ask k ⟨disk_id,path⟩ (.f_closedir dir),⟨info.fname,BitVec.ofInt 32 idx,false,if info.is_dir then .dir else .file⟩)
      | _,_ => (ask (build k path) ⟨disk_id,path⟩ (.f_opendir (new_path disk_id path)),Dir.none) := rfl

theorem dir_at_sound (sound : Sound k) (here : disk_id ∈ k.mounts) (short : path.length ≤ 253) (idx : Int)
    (entries : Option (List Info)) : Sound (fatfs_dir_at k disk_id idx path entries).1 := by
  have asked : Sound (ask (build k path) ⟨disk_id,path⟩ (.f_opendir (new_path disk_id path))) := path_sound sound here short rfl
  rw [dir_at_eq]
  cases entries with
  | none => exact asked
  | some entries =>
    simp only [ldnumber_new_path (sound.mounted _ here)]
    have read := @reads_sound _ ⟨disk_id,path⟩ asked (dir_loop entries idx).1
    cases (dir_loop entries idx).2 with
    | none => exact read
    | some info => exact ask_sound read rfl

theorem dir_at_overrun (k : Kernel) (disk_id : Nat) (idx : Int) (path : Name) (entries : Option (List Info)) :
    (fatfs_dir_at k disk_id idx path entries).1.overrun = (build k path).overrun := by
  rw [dir_at_eq]
  split
  · dsimp only
    split <;> exact reads_overrun _ _ _ _
  · rfl

theorem touch_sound (sound : Sound k) (here : disk_id ∈ k.mounts) (short : path.length ≤ 253) (created : Bool) :
    Sound (fatfs_touch k disk_id path created) := by
  have asked : Sound (ask (build k path) ⟨disk_id,path⟩ (.f_open (new_path disk_id path) (FA_WRITE ||| FA_CREATE_ALWAYS))) :=
    path_sound sound here short rfl
  cases created with
  | false => exact asked
  | true =>
    simp only [fatfs_touch,ldnumber_new_path (sound.mounted _ here)]
    refine ask_sound ?_ rfl
    have correct := asked.correct
    generalize ask (build k path) ⟨disk_id,path⟩ (.f_open (new_path disk_id path) (FA_WRITE ||| FA_CREATE_ALWAYS)) = k' at asked correct ⊢
    have new_closed : k'.opened ∉ k'.closed := fun listed => lt_irrefl _ ((correct.closed _).2 (Or.inl listed))
    have new_file : ¬ (k'.files k'.opened).isSome := fun held => lt_irrefl _ ((correct.closed _).2 (Or.inr held))
    refine ⟨⟨correct.aimed,correct.within,List.nodup_cons.2 ⟨new_closed,correct.closed_once⟩,?_,?_,correct.released_once,
      correct.released,correct.kept⟩,asked.mounted,asked.own,fun serial listed => Nat.lt_succ_of_lt (asked.recent serial listed)⟩
    · intro serial
      dsimp only
      rw [List.mem_cons,or_assoc,← correct.closed serial]
      omega
    · intro serial held listed
      rcases List.mem_cons.1 listed with rfl | before
      · exact new_file held
      · exact correct.held serial held before

theorem touch_overrun (k : Kernel) (disk_id : Nat) (path : Name) (created : Bool) :
    (fatfs_touch k disk_id path created).overrun = (build k path).overrun := by
  unfold fatfs_touch
  dsimp only
  split <;> rfl

theorem open_overrun (k : Kernel) (disk_id : Nat) (path : Name) (flags : Int) (found : Option Nat) :
    (fatfs_open k disk_id path flags found).1.overrun = (build k path).overrun := by
  unfold fatfs_open
  dsimp only
  split <;> rfl

/-- A callback with a path keeps what is asked exactly when the path fits. -/
theorem path_step {t : Kernel} (keeps : path.length ≤ 253 → Sound t) (overrun : t.overrun = (build k path).overrun) :
    (Correct t ↔ path.length ≤ 253) ∧ (path.length ≤ 253 → Sound t) :=
  ⟨⟨fun correct => build_long (overrun.symm.trans correct.within),fun short => (keeps short).correct⟩,keeps⟩

end

theorem step_sound {k t : Kernel} {a : Action} (sound : Sound k) (step : fatfs.step k a t) :
    (Correct t ↔ Careful k a) ∧ (Careful k a → Sound t) := by
  cases step with
  | mount disk_id mounted done => exact mount_sound sound done
  | open_file here path flags found =>
    exact path_step (fun short => open_sound sound here short flags found) (open_overrun _ _ _ _ _)
  | close here => exact ⟨iff_of_true (close_sound sound here).correct trivial,fun _ => close_sound sound here⟩
  | read here size offset has_read done =>
    exact ⟨iff_of_true (read_sound sound here done).correct trivial,fun _ => read_sound sound here done⟩
  | write here size offset has_written f_size done =>
    exact ⟨iff_of_true (write_sound sound here done).correct trivial,fun _ => write_sound sound here done⟩
  | truncate here new_size f_size =>
    exact ⟨iff_of_true (truncate_sound sound here _ _).correct trivial,fun _ => truncate_sound sound here _ _⟩
  | delete here => exact ⟨iff_of_false (delete_wrong sound here) id,False.elim⟩
  | mkdir here path => exact path_step (fun short => path_sound sound here short rfl) rfl
  | dir_at here idx path entries =>
    exact path_step (fun short => dir_at_sound sound here short idx entries) (dir_at_overrun _ _ _ _ _)
  | touch here path created => exact path_step (fun short => touch_sound sound here short created) (touch_overrun _ _ _ _)
  | delete_dir here path => exact path_step (fun short => path_sound sound here short rfl) rfl

theorem start_sound {k : Kernel} (start : fatfs.start k) : Sound k := by
  obtain ⟨mounts,files,opened,closed,allocated,released,calls,overrun⟩ := start
  refine ⟨⟨?_,overrun,?_,?_,?_,?_,?_,?_⟩,?_,?_,?_⟩ <;> simp [mounts,files,opened,closed,allocated,released,calls]

/-- Along the runs without a delete, on the ten disks of FatFs and with paths that fit, every callback acts on its own disk and
    name and every object is closed and freed once; a step keeps that exactly when it is such a step. -/
theorem fat_mounts {k : Kernel} (reached : Reached (guarded fatfs Careful) k) :
    Correct k ∧ ∀ a t, fatfs.step k a t → (Correct t ↔ Careful k a) :=
  guarded_exact (fun _ => start_sound) (fun _ sound => sound.correct) (fun _ _ _ => step_sound) reached

/-- No disk is mounted. -/
def booted : Kernel := ⟨[],fun _ => none,0,[],[],[],[],false⟩

theorem booted_starts : fatfs.start booted := ⟨rfl,rfl,rfl,rfl,rfl,rfl,rfl,rfl⟩

/-- After `fatfs_mount(1,..)`. -/
def second_disk : Kernel := { ask booted ⟨1,[]⟩ (.f_mount (new_path 1 [])) with mounts := [1] }

theorem mount_second : fatfs.step booted (.mount 1) second_disk := .mount booted 1 true rfl

/-- The file of five bytes that is opened, and what is left of the kernel after three more were written to it. -/
def file_a (size : Nat) : File := ⟨1,[47,97],size,⟨0,⟨1,[47,97]⟩⟩⟩
def written_a : Kernel := (fatfs_write (fatfs_open second_disk 1 [47,97] 2 (some 5)).1 0 (file_a 5) 3 5 3 8).getD booted
def listed_a : Kernel := (fatfs_dir_at written_a 1 0 [47] (some [⟨[97],false⟩])).1

/-- A file of disk 1 is opened, written and closed, and its directory is listed in between. -/
theorem fat_mounts_written : Correct (fatfs_close listed_a 0 (file_a 8)) ∧ (fatfs_close listed_a 0 (file_a 8)).closed = [0] ∧
    (fatfs_close listed_a 0 (file_a 8)).released = [0] ∧ (fatfs_close listed_a 0 (file_a 8)).calls.length = 8 := by
  have mounted : 1 ∈ second_disk.mounts := List.mem_singleton.2 rfl
  have still : 1 ∈ written_a.mounts := List.mem_singleton.2 rfl
  have opened : fatfs.step second_disk (.open_file 1 [47,97] 2) _ := .open_file second_disk mounted [47,97] 2 (some 5)
  have written : fatfs.step (fatfs_open second_disk 1 [47,97] 2 (some 5)).1 (.write 0 3 5) written_a :=
    @Step.write _ 0 (file_a 5) rfl 3 5 3 8 _ rfl
  have listed : fatfs.step written_a (.dir_at 1 0 [47]) listed_a := .dir_at written_a still 0 [47] (some [⟨[97],false⟩])
  have closed : fatfs.step listed_a (.close 0) (fatfs_close listed_a 0 (file_a 8)) := @Step.close _ 0 (file_a 8) rfl
  have correct := (fat_mounts ⟨booted,_,booted_starts,.step ⟨mount_second,(by decide : 1 < 10)⟩ (.step ⟨opened,(by decide : 2 ≤ 253)⟩
    (.step ⟨written,trivial⟩ (.step ⟨listed,(by decide : 1 ≤ 253)⟩ (.step ⟨closed,trivial⟩ (.done _)))))⟩).1
  exact ⟨correct,rfl,rfl,rfl⟩

/-- A file of disk 1 is opened and deleted: disk 0 is asked to. -/
theorem other_disk : ¬ ∀ k, Reached fatfs k → Correct k := by
  intro all
  have mounted : 1 ∈ second_disk.mounts := List.mem_singleton.2 rfl
  have opened : fatfs.step second_disk (.open_file 1 [47,97] 0) _ := .open_file second_disk mounted [47,97] 0 (some 5)
  have held : (fatfs_open second_disk 1 [47,97] 0 (some 5)).1.files 0 = some ⟨1,[47,97],5,⟨0,⟨1,[47,97]⟩⟩⟩ := rfl
  have deleted : fatfs.step (fatfs_open second_disk 1 [47,97] 0 (some 5)).1 (.delete 0) _ :=
    .delete (fatfs_open second_disk 1 [47,97] 0 (some 5)).1 held
  have correct := all _ ⟨booted,_,booted_starts,.step mount_second (.step opened (.step deleted (.done _)))⟩
  have hit := correct.aimed (⟨1,[47,97]⟩,.f_unlink [47,97]) (List.mem_append_right _ (List.mem_singleton.2 rfl))
  exact absurd hit (by decide)

end MicroOS.FatMounts

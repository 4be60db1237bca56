import MicroOS.Runs

/-!
The content of a file of the ramfs: pages that `vmm_resize` gives and takes as the file
grows and shrinks, and any number of open handles, each with a size of its own. `ideal`
is what the calls should amount to: the bytes last written, and zeros where nothing was
written since the file last ended before them.
-/
namespace MicroOS.RamfsFile
open Runs
open Function (update update_of_ne)

abbrev Word := BitVec 32

/-- Pages in a row and the bytes in them. -/
structure Range where
  pages : Nat
  byte : Nat → UInt8

/-- Bytes that a function touches of a range; NULL has no pages. -/
structure Access where
  pages : Nat
  start : Nat
  size : Nat
  deriving DecidableEq

def Access.Inside (a : Access) : Prop := a.size = 0 ∨ a.start + a.size ≤ a.pages * 4096

def pagesOf : Option Range → Nat
  | some r => r.pages
  | none => 0

/-- A `memcpy` into a range. -/
def Range.put (r : Range) (start size : Nat) (buf : Nat → UInt8) : Range :=
  { r with byte := fun i => if start ≤ i ∧ i < start + size then buf (i - start) else r.byte i }

/-- The pages hold what they held before, `fresh`; without room the result is NULL. -/
def vmm_alloc (fresh : Option (Nat → UInt8)) (num_pages : Word) : Option Range :=
  fresh.map fun byte => ⟨num_pages.toNat,byte⟩

def vmm_resize (fresh : Option (Nat → UInt8)) (data_size old_size new_size : Word) (ptr : Option Range) :
    Option Range × List Access :=
  let new_size_p := (data_size * new_size).sdiv 0x1000 + 1
  let old_size_p := (data_size * old_size).sdiv 0x1000 + 1
  match ptr with
  | none => (vmm_alloc fresh new_size_p,[])
  | some r =>
    if new_size = 0 then (none,[])
    else if new_size_p ≠ old_size_p then
      let n := (data_size * if new_size_p.slt old_size_p then new_size else old_size).toNat
      let new_ptr := vmm_alloc fresh new_size_p
      (new_ptr.map fun new => new.put 0 n r.byte,[⟨r.pages,0,n⟩,⟨pagesOf new_ptr,0,n⟩])
    else (some r,[])

/-- `fsize` and `fdata` of a node. -/
structure Node where
  fsize : Word
  fdata : Option Range

/-- `memset` clears a new node. -/
def Node.new : Node := ⟨0,none⟩

/-- `none` when the assertion stops the kernel. -/
def ramfs_read (node : Node) (size offset : Word) : Option ((Nat → UInt8) × List Access) :=
  if offset + size ≤ node.fsize then
    some (fun i => match node.fdata with
      | some r => r.byte (offset.toNat + i)
      | none => 0,[⟨pagesOf node.fdata,offset.toNat,size.toNat⟩])
  else none

/-- The node and the size of the handle after a call. -/
def ramfs_write (fresh : Option (Nat → UInt8)) (node : Node) (buf : Nat → UInt8) (size offset : Word) :
    Node × Word × List Access :=
  let new_file_size := offset + size
  let (grown,touched) :=
    if node.fsize.slt new_file_size then
      let (fdata,touched) := vmm_resize fresh 1 node.fsize new_file_size node.fdata
      (Node.mk new_file_size fdata,touched)
    else (node,[])
  ({ grown with fdata := grown.fdata.map fun r => r.put offset.toNat size.toNat buf },grown.fsize,
    touched ++ [⟨pagesOf grown.fdata,offset.toNat,size.toNat⟩])

def ramfs_truncate (fresh : Option (Nat → UInt8)) (node : Node) (new_size : Word) : Node × Word × List Access :=
  let (fdata,touched) := vmm_resize fresh 1 node.fsize new_size node.fdata
  (⟨new_size,fdata⟩,new_size,touched)

/-- A file as the calls should leave it. -/
structure Ideal where
  size : Nat
  byte : Nat → UInt8

def Ideal.write (f : Ideal) (buf : Nat → UInt8) (size offset : Nat) : Ideal where
  size := max f.size (offset + size)
  byte i := if offset ≤ i ∧ i < offset + size then buf (i - offset) else if i < f.size then f.byte i else 0

def Ideal.truncate (f : Ideal) (size : Nat) : Ideal where
  size := size
  byte i := if i < f.size ∧ i < size then f.byte i else 0

/-- A file, its open handles with their sizes, what it should be, every byte touched so
    far, and for each byte read from inside the file what it is and what it should be. -/
structure State where
  node : Node
  handles : Nat → Option Word
  ideal : Ideal
  touched : List Access
  seen : List (UInt8 × UInt8)

inductive Action where
  | open (handle : Nat)
  | close (handle : Nat)
  | read (handle : Nat) (size offset : Word)
  | write (handle : Nat) (buf : Nat → UInt8) (size offset : Word) (fresh : Option (Nat → UInt8))
  | truncate (handle : Nat) (new_size : Word) (fresh : Option (Nat → UInt8))

/-- The bytes of a read that lies inside the file. -/
def witnessed (ideal : Ideal) (given : Nat → UInt8) (size offset : Nat) : List (UInt8 × UInt8) :=
  if offset + size ≤ ideal.size then (List.range size).map fun i => (given i,ideal.byte (offset + i)) else []

/-- `none` where there is no such handle, or the kernel stops. -/
def act (s : State) : Action → Option State
  | .open handle =>
    if s.handles handle = none then
      some { s with handles := update s.handles handle (some s.node.fsize) }
    else none
  | .close handle => some { s with handles := update s.handles handle none }
  | .read handle size offset =>
    (s.handles handle).bind fun _ =>
      (ramfs_read s.node size offset).map fun (given,touched) =>
        { s with
          touched := s.touched ++ touched
          seen := s.seen ++ witnessed s.ideal given size.toNat offset.toNat }
  | .write handle buf size offset fresh =>
    (s.handles handle).map fun _ =>
      let (node,file_size,touched) := ramfs_write fresh s.node buf size offset
      { s with
        node := node
        handles := update s.handles handle (some file_size)
        ideal := s.ideal.write buf size.toNat offset.toNat
        touched := s.touched ++ touched }
  | .truncate handle new_size fresh =>
    (s.handles handle).map fun _ =>
      let (node,file_size,touched) := ramfs_truncate fresh s.node new_size
      { s with
        node := node
        handles := update s.handles handle (some file_size)
        ideal := s.ideal.truncate new_size.toNat
        touched := s.touched ++ touched }

def State.start : State := ⟨.new,fun _ => none,⟨0,fun _ => 0⟩,[],[]⟩

def machine : System State Action where
  start s := s = .start
  step s a t := act s a = some t

/-- The file is what it should be, and so is everything read so far. -/
structure Faithful (s : State) : Prop where
  size : s.node.fsize.toNat = s.ideal.size
  handles : ∀ h size, s.handles h = some size → size = s.node.fsize
  inside : ∀ a ∈ s.touched, a.Inside
  seen : ∀ p ∈ s.seen, p.1 = p.2
  answers : ∀ size offset, offset.toNat + size.toNat ≤ s.ideal.size → (ramfs_read s.node size offset).isSome

/-- No other handle is open. -/
def Alone (s : State) (handle : Nat) : Prop := ∀ h, h ≠ handle → s.handles h = none

/-- If another number of pages is needed, memory has them. -/
def Room (fresh : Option (Nat → UInt8)) (node : Node) (new_size : Nat) : Prop :=
  fresh ≠ none ∨ new_size = 0 ∨ node.fdata ≠ none ∧ new_size / 4096 = node.fsize.toNat / 4096

/-- The steps that work: a write begins in the file or at its end, the file stays under
    2 GiB and is not grown by `ramfs_truncate`, memory is found where pages are asked for,
    no other handle is open while the size changes, and no read wraps around. -/
def Careful (s : State) : Action → Prop
  | .open _ => True
  | .close _ => True
  | .read _ size offset => offset.toNat + size.toNat < 2 ^ 32 ∨ s.node.fsize < offset + size
  | .write handle _ size offset fresh =>
    offset.toNat ≤ s.node.fsize.toNat ∧ offset.toNat + size.toNat < 2 ^ 31 ∧
      (s.node.fsize.toNat < offset.toNat + size.toNat →
        Room fresh s.node (offset.toNat + size.toNat) ∧ Alone s handle)
  | .truncate handle new_size fresh =>
    new_size.toNat ≤ s.node.fsize.toNat ∧ Room fresh s.node new_size.toNat ∧
      (new_size ≠ s.node.fsize → Alone s handle)

theorem once (n : Word) : 1 * n = n := BitVec.one_mul n

/-- The number of pages for a size that is not negative. -/
theorem size_pages {n : Word} (small : n.toNat < 2 ^ 31) :
    ((1 * n).sdiv 0x1000 + 1).toNat = n.toNat / 4096 + 1 := by
  have positive : n.msb = false := by
    rw [BitVec.msb_eq_decide]
    simp only [decide_eq_false_iff_not]
    omega
  have divided : n.sdiv 0x1000 = n / 0x1000 := by
    rw [BitVec.sdiv_eq,positive]
    rfl
  rw [once,divided,BitVec.toNat_add,BitVec.toNat_udiv]
  change (n.toNat / 4096 + 1) % 2 ^ 32 = _
  omega

theorem slt_small {a b : Word} (left : a.toNat < 2 ^ 31) (right : b.toNat < 2 ^ 31) :
    a.slt b = decide (a.toNat < b.toNat) := by
  rw [BitVec.slt_eq_decide,BitVec.toInt_eq_toNat_of_lt (by omega),BitVec.toInt_eq_toNat_of_lt (by omega)]
  simp

/-- The pages hold the first `size` bytes of a file and are as many as the node's size asks for. -/
def Stored (fsize : Word) (size : Nat) (byte : Nat → UInt8) : Option Range → Prop
  | none => fsize.toNat = 0
  | some r => r.pages = fsize.toNat / 4096 + 1 ∧ ∀ i < size, r.byte i = byte i

/-- Growing or shrinking keeps the bytes that are in both sizes and stays inside. -/
theorem resize_spec {fresh : Option (Nat → UInt8)} {node : Node} {new_size : Word} {byte : Nat → UInt8} {known : Nat}
    (old : node.fsize.toNat < 2 ^ 31) (new : new_size.toNat < 2 ^ 31) (room : Room fresh node new_size.toNat)
    (stored : Stored node.fsize known byte node.fdata) (part : known ≤ node.fsize.toNat) :
    Stored new_size (min known new_size.toNat) byte (vmm_resize fresh 1 node.fsize new_size node.fdata).1 ∧
      ∀ a ∈ (vmm_resize fresh 1 node.fsize new_size node.fdata).2, a.Inside := by
  obtain ⟨fsize,fdata⟩ := node
  dsimp only at *
  cases fdata with
  | none =>
    have empty : fsize.toNat = 0 := stored
    have null : (vmm_resize fresh 1 fsize new_size none) = (vmm_alloc fresh ((1 * new_size).sdiv 0x1000 + 1),[]) := rfl
    rw [null]
    refine ⟨?_,by simp⟩
    cases fresh with
    | none =>
      obtain none | zero | ⟨some,-⟩ := room
      · exact absurd rfl none
      · exact zero
      · exact absurd rfl some
    | some held => exact ⟨size_pages new,fun i inside => by omega⟩
  | some r =>
    obtain ⟨count,held⟩ := stored
    unfold vmm_resize
    dsimp only
    by_cases zero : new_size = 0
    · rw [if_pos zero]
      subst zero
      exact ⟨rfl,by simp⟩
    · rw [if_neg zero]
      have nonzero : new_size.toNat ≠ 0 := fun z => zero (BitVec.eq_of_toNat_eq z)
      have pages : (1 * new_size).sdiv 0x1000 + 1 = (1 * fsize).sdiv 0x1000 + 1 ↔
          new_size.toNat / 4096 = fsize.toNat / 4096 := by
        rw [← BitVec.toNat_inj,size_pages new,size_pages old]
        omega
      by_cases same : new_size.toNat / 4096 = fsize.toNat / 4096
      · rw [if_neg (not_not.2 (pages.2 same))]
        refine ⟨⟨by rw [count,same],fun i inside => held i (by omega)⟩,by simp⟩
      · rw [if_pos (fun eq => same (pages.1 eq))]
        have smaller : ((1 * new_size).sdiv 0x1000 + 1).slt ((1 * fsize).sdiv 0x1000 + 1) =
            decide (new_size.toNat < fsize.toNat) := by
          rw [slt_small (by rw [size_pages new]; omega) (by rw [size_pages old]; omega),size_pages new,size_pages old]
          rw [decide_eq_decide]
          omega
        have copied : (1 * if ((1 * new_size).sdiv 0x1000 + 1).slt ((1 * fsize).sdiv 0x1000 + 1) then new_size
            else fsize).toNat = min fsize.toNat new_size.toNat := by
          rw [smaller,once]
          by_cases less : new_size.toNat < fsize.toNat
          · rw [if_pos (by simpa using less)]; omega
          · rw [if_neg (by simpa using less)]; omega
        obtain some | zero | ⟨-,eq⟩ := room
        · obtain ⟨held',rfl⟩ := Option.ne_none_iff_exists'.1 some
          rw [copied]
          refine ⟨⟨size_pages new,fun i inside => ?_⟩,?_⟩
          · have taken : 0 ≤ i ∧ i < 0 + min fsize.toNat new_size.toNat := by omega
            simp only [Range.put,taken,true_and,if_true,Nat.sub_zero]
            exact held i (by omega)
          · simp only [List.forall_mem_cons,vmm_alloc,Option.map_some,pagesOf,size_pages new,Access.Inside,count]
            refine ⟨.inr (by omega),.inr (by omega),by simp⟩
        · exact absurd zero nonzero
        · exact absurd eq same

variable {fsize : Word} {byte : Nat → UInt8} {fdata : Option Range} {s : State}

/-- A `memcpy` that begins where the bytes are known, or right behind them. -/
theorem put_stored {size start count : Nat} {buf : Nat → UInt8}
    (stored : Stored fsize size byte fdata) (begins : start ≤ size) :
    Stored fsize (max size (start + count))
      (fun i => if start ≤ i ∧ i < start + count then buf (i - start) else byte i)
      (fdata.map fun r => r.put start count buf) := by
  cases fdata with
  | none => exact stored
  | some r =>
    obtain ⟨pages,held⟩ := stored
    refine ⟨pages,fun i less => ?_⟩
    dsimp only [Range.put]
    split_ifs with here
    · rfl
    · exact held i (by omega)

theorem put_inside {size start count : Nat}
    (stored : Stored fsize size byte fdata) (fits : start + count ≤ fsize.toNat) :
    Access.Inside ⟨pagesOf fdata,start,count⟩ := by
  unfold Access.Inside
  cases fdata with
  | none =>
    have empty : fsize.toNat = 0 := stored
    exact .inl (by dsimp only; omega)
  | some r =>
    have count : r.pages = fsize.toNat / 4096 + 1 := stored.1
    refine .inr ?_
    dsimp only [pagesOf]
    omega

/-- What a read that goes through needs, unless it wraps around. -/
theorem read_passes {handle : Nat} {n offset : Word} {r : (Nat → UInt8) × List Access}
    (careful : Careful s (.read handle n offset)) (answer : ramfs_read s.node n offset = some r) :
    offset.toNat + n.toNat ≤ s.node.fsize.toNat := by
  unfold ramfs_read at answer
  split_ifs at answer with passes
  rw [BitVec.le_def] at passes
  obtain small | wrapped := careful
  · rwa [BitVec.toNat_add,Nat.mod_eq_of_lt small] at passes
  · rw [BitVec.lt_def] at wrapped
    omega

theorem read_inside {node : Node} {size offset : Word} (stored : Stored node.fsize node.fsize.toNat byte node.fdata)
    (inside : offset.toNat + size.toNat ≤ node.fsize.toNat) :
    ∃ given touched, ramfs_read node size offset = some (given,touched) ∧ (∀ a ∈ touched, a.Inside) ∧
      ∀ i < size.toNat, given i = byte (offset.toNat + i) := by
  have sum : (offset + size).toNat = offset.toNat + size.toNat := by
    rw [BitVec.toNat_add,Nat.mod_eq_of_lt]
    have := node.fsize.isLt
    omega
  have passes : offset + size ≤ node.fsize := by
    rw [BitVec.le_def,sum]
    exact inside
  unfold ramfs_read
  rw [if_pos passes]
  refine ⟨_,_,rfl,?_,?_⟩
  · simp only [List.mem_singleton,forall_eq]
    exact put_inside stored inside
  · intro i less
    obtain ⟨fsize,fdata⟩ := node
    cases fdata with
    | none =>
      have empty : fsize.toNat = 0 := stored
      dsimp only at inside
      omega
    | some r =>
      obtain ⟨-,held⟩ := stored
      dsimp only at *
      exact held _ (by omega)

/-- A careful write. -/
theorem write_spec {fresh : Option (Nat → UInt8)} {node : Node} {buf : Nat → UInt8} {size offset : Word}
    {byte : Nat → UInt8} (small : node.fsize.toNat < 2 ^ 31) (stored : Stored node.fsize node.fsize.toNat byte node.fdata)
    (begins : offset.toNat ≤ node.fsize.toNat) (ends : offset.toNat + size.toNat < 2 ^ 31)
    (room : node.fsize.toNat < offset.toNat + size.toNat → Room fresh node (offset.toNat + size.toNat)) :
    (ramfs_write fresh node buf size offset).1.fsize.toNat = max node.fsize.toNat (offset.toNat + size.toNat) ∧
      (ramfs_write fresh node buf size offset).2.1 = (ramfs_write fresh node buf size offset).1.fsize ∧
      (∀ a ∈ (ramfs_write fresh node buf size offset).2.2, a.Inside) ∧
      Stored (ramfs_write fresh node buf size offset).1.fsize (max node.fsize.toNat (offset.toNat + size.toNat))
        (fun i => if offset.toNat ≤ i ∧ i < offset.toNat + size.toNat then buf (i - offset.toNat) else byte i)
        (ramfs_write fresh node buf size offset).1.fdata := by
  have sum : (offset + size).toNat = offset.toNat + size.toNat := by
    rw [BitVec.toNat_add,Nat.mod_eq_of_lt (by omega)]
  have grows : node.fsize.slt (offset + size) = decide (node.fsize.toNat < offset.toNat + size.toNat) := by
    rw [slt_small small (by omega),sum]
  unfold ramfs_write
  dsimp only
  rw [grows]
  by_cases longer : node.fsize.toNat < offset.toNat + size.toNat
  · have needed : Room fresh node (offset + size).toNat := sum ▸ room longer
    obtain ⟨resized,touched⟩ := @resize_spec _ _ (offset + size) _ _ small (by omega) needed stored le_rfl
    rw [Nat.min_eq_left (by omega)] at resized
    simp only [longer,decide_true,if_true]
    refine ⟨by omega,trivial,?_,?_⟩
    · intro a member
      obtain earlier | last := List.mem_append.1 member
      · exact touched a earlier
      · rw [List.mem_singleton.1 last]
        exact put_inside resized (by omega)
    · exact put_stored resized begins
  · simp only [longer,decide_false,Bool.false_eq_true,if_false,List.nil_append,List.mem_singleton,forall_eq]
    refine ⟨by omega,trivial,put_inside stored (by omega),put_stored stored begins⟩

/-- A careful `ramfs_truncate`. -/
theorem truncate_spec {fresh : Option (Nat → UInt8)} {node : Node} {new_size : Word}
    (small : node.fsize.toNat < 2 ^ 31) (stored : Stored node.fsize node.fsize.toNat byte node.fdata)
    (shrinks : new_size.toNat ≤ node.fsize.toNat) (room : Room fresh node new_size.toNat) :
    (∀ a ∈ (ramfs_truncate fresh node new_size).2.2, a.Inside) ∧
      Stored new_size new_size.toNat byte (ramfs_truncate fresh node new_size).1.fdata := by
  obtain ⟨resized,touched⟩ := resize_spec small (by omega) room stored le_rfl
  rw [Nat.min_eq_right shrinks] at resized
  exact ⟨touched,resized⟩

/-- What careful steps keep: the pages hold the bytes the file should have. -/
structure Kept (s : State) : Prop where
  faithful : Faithful s
  small : s.node.fsize.toNat < 2 ^ 31
  stored : Stored s.node.fsize s.node.fsize.toNat s.ideal.byte s.node.fdata

theorem kept_answers (size : s.node.fsize.toNat = s.ideal.size)
    (stored : Stored s.node.fsize s.node.fsize.toNat s.ideal.byte s.node.fdata) :
    ∀ size offset, offset.toNat + size.toNat ≤ s.ideal.size → (ramfs_read s.node size offset).isSome := by
  intro n offset inside
  obtain ⟨given,touched,answer,-⟩ := read_inside stored (size ▸ inside)
  rw [answer]
  rfl

theorem kept_start : Kept .start where
  faithful := ⟨rfl,by simp [State.start],by simp [State.start],by simp [State.start],
    kept_answers rfl rfl⟩
  small := by decide
  stored := rfl

theorem stored_congr {size : Nat} {byte' : Nat → UInt8}
    (stored : Stored fsize size byte fdata) (same : ∀ i < size, byte i = byte' i) : Stored fsize size byte' fdata := by
  cases fdata with
  | none => exact stored
  | some r => exact ⟨stored.1,fun i less => (stored.2 i less).trans (same i less)⟩

/-- After a step that may change the size, every handle knows the new one. -/
theorem handles_updated {handle : Nat} (knew : ∀ h size, s.handles h = some size → size = s.node.fsize)
    (alone : fsize ≠ s.node.fsize → Alone s handle) :
    ∀ h size, update s.handles handle (some fsize) h = some size → size = fsize := by
  intro h size found
  by_cases this : h = handle
  · subst this
    rw [Function.update_self] at found
    exact (Option.some.inj found).symm
  · rw [update_of_ne this] at found
    by_cases same : fsize = s.node.fsize
    · rw [same]
      exact knew h size found
    · rw [alone same h this] at found
      cases found

theorem act_kept {t : State} {a : Action} (kept : Kept s) (step : act s a = some t) (careful : Careful s a) :
    Kept t := by
  obtain ⟨⟨size,handles,inside,seen,answers⟩,small,stored⟩ := kept
  cases a with
  | «open» handle =>
    change (if s.handles handle = none then _ else none) = some t at step
    split_ifs at step with free
    obtain rfl := Option.some.inj step
    refine ⟨⟨size,?_,inside,seen,answers⟩,small,stored⟩
    exact handles_updated handles (fun changed => absurd rfl changed)
  | close handle =>
    obtain rfl := Option.some.inj step
    refine ⟨⟨size,?_,inside,seen,answers⟩,small,stored⟩
    intro h size found
    by_cases this : h = handle
    · subst this
      simp at found
    · simp only [update_of_ne this] at found
      exact handles h size found
  | read handle n offset =>
    obtain ⟨-,-,step⟩ := Option.bind_eq_some_iff.1 step
    obtain ⟨⟨given,touched⟩,answer,rfl⟩ := Option.map_eq_some_iff.1 step
    have within : offset.toNat + n.toNat ≤ s.node.fsize.toNat := read_passes careful answer
    obtain ⟨given',touched',answer',clean,right⟩ := read_inside stored within
    rw [answer] at answer'
    cases answer'
    refine ⟨⟨size,handles,?_,?_,answers⟩,small,stored⟩
    · intro a member
      exact (List.mem_append.1 member).elim (inside a) (clean a)
    · intro p member
      obtain earlier | now := List.mem_append.1 member
      · exact seen p earlier
      · unfold witnessed at now
        rw [if_pos (size ▸ within)] at now
        obtain ⟨i,less,rfl⟩ := List.mem_map.1 now
        exact right i (List.mem_range.1 less)
  | write handle buf n offset fresh =>
    obtain ⟨-,-,rfl⟩ := Option.map_eq_some_iff.1 step
    obtain ⟨begins,ends,room⟩ := careful
    obtain ⟨grown,told,clean,held⟩ := @write_spec _ _ buf _ _ _ small stored begins ends (fun longer => (room longer).1)
    have size' : (ramfs_write fresh s.node buf n offset).1.fsize.toNat =
        (s.ideal.write buf n.toNat offset.toNat).size := by
      rw [grown,size]
      rfl
    have stored' : Stored (ramfs_write fresh s.node buf n offset).1.fsize
        (ramfs_write fresh s.node buf n offset).1.fsize.toNat (s.ideal.write buf n.toNat offset.toNat).byte
        (ramfs_write fresh s.node buf n offset).1.fdata := by
      rw [grown]
      refine stored_congr held (fun i less => ?_)
      dsimp only [Ideal.write]
      split_ifs with here near
      · rfl
      · rfl
      · omega
    refine ⟨⟨size',?_,?_,seen,kept_answers size' stored'⟩,?_,stored'⟩
    · dsimp only
      rw [told]
      refine handles_updated handles (fun changed => ?_)
      by_cases longer : s.node.fsize.toNat < offset.toNat + n.toNat
      · exact (room longer).2
      · refine absurd (BitVec.eq_of_toNat_eq ?_) changed
        omega
    · intro a member
      exact (List.mem_append.1 member).elim (inside a) (clean a)
    · dsimp only
      omega
  | truncate handle new_size fresh =>
    obtain ⟨-,-,rfl⟩ := Option.map_eq_some_iff.1 step
    obtain ⟨shrinks,room,alone⟩ := careful
    obtain ⟨clean,held⟩ := truncate_spec small stored shrinks room
    have stored' : Stored new_size new_size.toNat (s.ideal.truncate new_size.toNat).byte
        (ramfs_truncate fresh s.node new_size).1.fdata := by
      refine stored_congr held (fun i less => ?_)
      dsimp only [Ideal.truncate]
      rw [if_pos (by omega)]
    refine ⟨⟨rfl,handles_updated handles alone,?_,seen,kept_answers rfl stored'⟩,?_,stored'⟩
    · intro a member
      exact (List.mem_append.1 member).elim (inside a) (clean a)
    · show new_size.toNat < 2 ^ 31
      omega

/-- Along runs of careful steps the file is what it should be. -/
theorem careful_faithful {s : State} (reached : Reached (guarded machine Careful) s) : Faithful s := by
  have kept : Kept s := by
    have preserved : ∀ s a t, Kept s → machine.step s a t → Careful s a → Kept t :=
      fun s a t kept step careful => act_kept kept step careful
    refine guarded_invariant ?_ preserved reached
    rintro s rfl
    exact kept_start
  exact kept.faithful

theorem ran {as : List Action} {t : State} (ends : as.foldlM act s = some t) : Run machine as s t := by
  induction as generalizing s with
  | nil =>
    obtain rfl := Option.some.inj ends
    exact .done _
  | cons a as ih =>
    obtain ⟨u,first,rest⟩ := Option.bind_eq_some_iff.1 ends
    exact .step first (ih rest)

/-- One byte written to a new file through its only handle, and read back. -/
def written : List Action := [.open 0,.write 0 (fun _ => 7) 1 0 (some fun _ => 3),.read 0 1 0]

def after (as : List Action) : State := as.foldl (fun s a => (act s a).getD s) .start

theorem written_reached : Reached (guarded machine Careful) (after written) := by
  refine ⟨.start,written,rfl,.step ⟨rfl,trivial⟩ (.step ⟨rfl,?_⟩ (.step ⟨rfl,?_⟩ (.done _)))⟩
  · refine ⟨by decide,by decide,fun _ => ⟨.inl (by simp),?_⟩⟩
    intro h other
    exact update_of_ne other _ _
  · exact .inl (by decide)

theorem written_faithful : Faithful (after written) ∧ (after written).seen = [(7,7)] :=
  ⟨careful_faithful written_reached,rfl⟩

/-- The second handle is not told of the byte written through the first. -/
theorem stale_handle : ¬ ∀ s, Reached machine s → Faithful s := by
  intro all
  have run : Reached machine (after [.open 0,.open 1,.write 0 (fun _ => 7) 1 0 (some fun _ => 3)]) :=
    ⟨.start,[.open 0,.open 1,.write 0 (fun _ => 7) 1 0 (some fun _ => 3)],rfl,ran rfl⟩
  have told := (all _ run).handles 1 0 rfl
  exact absurd told (by decide)

end MicroOS.RamfsFile

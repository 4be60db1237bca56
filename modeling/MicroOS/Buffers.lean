import Mathlib.Tactic

/-!
Byte buffers on a heap: blocks that `kmalloc` hands out, and who owns them. A buffer is a
pointer and the number of bytes in use behind it. When several owners hold buffers, each has
a block of its own (`Owned`), so a buffer can be replaced (`owned_replaced`) or given away
(`owned_moved`) without a change to the others.
-/
namespace MicroOS.Buffers
open Function (update update_of_ne update_self)
open List (append_assoc drop_drop length_append length_drop length_nil length_take nil_append take_zero)
universe u

/-- The blocks in use, by their addresses. -/
abbrev Heap := Nat → Option (List UInt8)

def setBlock (h : Heap) (p : Nat) (block : Option (List UInt8)) : Heap := fun a => if a = p then block else h a

/-- Where the next block will be, and what its memory holds before. -/
structure Place where
  address : Nat
  garbage : Nat → UInt8

/-- A block is not NULL and not in use. -/
structure Fresh (h : Heap) (place : Place) : Prop where
  nonnull : place.address ≠ 0
  unused : h place.address = none

/-- `kmalloc(0)` is NULL. -/
def kmalloc (h : Heap) (place : Place) (size : Nat) : Heap × Nat :=
  if size = 0 then (h,0) else (setBlock h place.address (some ((List.range size).map place.garbage)),place.address)

/-- `none` for an address that is no block. -/
def kfree (h : Heap) (p : Nat) : Option Heap :=
  if p = 0 then some h
  else
    match h p with
    | none => none
    | some _ => some (setBlock h p none)

/-- A list with other bytes from an offset on. -/
def splice (block : List UInt8) (offset : Nat) (bytes : List UInt8) : List UInt8 :=
  block.take offset ++ bytes ++ block.drop (offset + bytes.length)

/-- Reading `n` bytes; `none` outside of a block. -/
def load (h : Heap) (p offset n : Nat) : Option (List UInt8) :=
  match h p with
  | none => none
  | some block => if offset + n ≤ block.length then some ((block.drop offset).take n) else none

/-- Writing bytes; `none` outside of a block. -/
def store (h : Heap) (p offset : Nat) (bytes : List UInt8) : Option Heap :=
  match h p with
  | none => none
  | some block => if offset + bytes.length ≤ block.length then some (setBlock h p (some (splice block offset bytes))) else none

/-- Moves `size` bytes at a time, upwards. -/
def moves (size : Nat) : Nat → Heap → Nat → Nat → Nat → Nat → Option Heap
  | 0, h, _, _, _, _ => some h
  | times + 1, h, dest, dest_at, src, src_at =>
    match load h src src_at size with
    | none => none
    | some bytes =>
      match store h dest dest_at bytes with
      | none => none
      | some h => moves size times h dest (dest_at + size) src (src_at + size)

/-- `memcpy` on the heap: `rep movsl`, then the bytes that remain. -/
def memcpy (h : Heap) (dest dest_at src src_at n : Nat) : Option Heap :=
  match moves 4 (n / 4) h dest dest_at src src_at with
  | none => none
  | some h => moves 1 (n % 4) h dest (dest_at + 4 * (n / 4)) src (src_at + 4 * (n / 4))

/-- `memcpy` into the heap; for no bytes the pointer does not matter. -/
def memcpy_in (h : Heap) (p offset : Nat) (bytes : List UInt8) : Option Heap :=
  if bytes = [] then some h else store h p offset bytes

/-- `memcpy` out of the heap. -/
def memcpy_out (h : Heap) (p n : Nat) : Option (List UInt8) := if n = 0 then some [] else load h p 0 n

/-- A pointer and a number of bytes. -/
structure Buffer where
  data : Nat
  len : Nat

/-- The bytes of a buffer; NULL is a buffer without bytes. -/
def Holds (h : Heap) (b : Buffer) (bytes : List UInt8) : Prop :=
  b.len = bytes.length ∧ (b.data = 0 ∧ bytes = [] ∨ b.data ≠ 0 ∧ ∃ block, h b.data = some block ∧ bytes <+: block)

/-- The block at `old` may be gone or changed, and the one at `new` may be new; no other block changes. -/
structure Replaced (h : Heap) (old : Nat) (h' : Heap) (new : Nat) : Prop where
  others : ∀ q, q ≠ old → h q ≠ none → h' q = h q
  fresh : new ≠ 0 → new = old ∨ h new = none

/-- Every owner has a buffer with its content, in a block of its own. -/
structure Owned {Owner : Type u} (h : Heap) (buffer : Owner → Buffer) (content : Owner → List UInt8) : Prop where
  holds : ∀ i, Holds h (buffer i) (content i)
  apart : ∀ i j, i ≠ j → (buffer i).data ≠ 0 → (buffer i).data ≠ (buffer j).data

@[simp] theorem setBlock_self (h : Heap) (p : Nat) (block : Option (List UInt8)) : setBlock h p block p = block := if_pos rfl

@[simp] theorem setBlock_other (h : Heap) {p q : Nat} (other : q ≠ p) (block : Option (List UInt8)) :
    setBlock h p block q = h q := if_neg other

theorem setBlock_setBlock (h : Heap) (p : Nat) (block block' : Option (List UInt8)) :
    setBlock (setBlock h p block) p block' = setBlock h p block' := by
  funext q
  by_cases here : q = p
  · rw [here,setBlock_self,setBlock_self]
  · rw [setBlock_other _ here,setBlock_other _ here,setBlock_other _ here]

theorem setBlock_same {h : Heap} {p : Nat} {block : List UInt8} (here : h p = some block) :
    setBlock h p (some block) = h := by
  funext q
  by_cases is : q = p
  · rw [is,setBlock_self,here]
  · rw [setBlock_other _ is]

variable {bytes source : List UInt8} {n dest dest_at src src_at : Nat} {b : Buffer}

theorem length_splice {block : List UInt8} {offset : Nat} (inside : offset + bytes.length ≤ block.length) :
    (splice block offset bytes).length = block.length := by
  simp only [splice,length_append,length_take,length_drop]
  omega

theorem splice_nil (block : List UInt8) (offset : Nat) : splice block offset [] = block := by
  simp [splice]

/-- Behind the bytes nothing changes. -/
theorem drop_splice {block : List UInt8} {offset : Nat} (inside : offset + bytes.length ≤ block.length)
    (behind : offset + bytes.length ≤ n) : (splice block offset bytes).drop n = block.drop n := by
  have front : (block.take offset ++ bytes).length = offset + bytes.length := by
    rw [length_append,length_take]
    omega
  rw [splice,List.drop_append,front,drop_drop,List.drop_of_length_le (by omega),nil_append]
  congr 1
  omega

/-- Bytes behind bytes. -/
theorem splice_splice {block x y : List UInt8} {offset : Nat} (inside : offset + x.length + y.length ≤ block.length) :
    splice (splice block offset x) (offset + x.length) y = splice block offset (x ++ y) := by
  have front : (block.take offset ++ x).length = offset + x.length := by
    rw [length_append,length_take]
    omega
  have kept : (splice block offset x).take (offset + x.length) = block.take offset ++ x := by
    rw [splice,← front]
    exact List.take_left
  rw [splice,drop_splice (by omega) (by omega),kept,splice,length_append,append_assoc,append_assoc,
    append_assoc,append_assoc,Nat.add_assoc]

theorem load_spec {h : Heap} {p offset : Nat} {block : List UInt8} (here : h p = some block)
    (inside : offset + n ≤ block.length) : load h p offset n = some ((block.drop offset).take n) := by
  rw [load,here]
  exact if_pos inside

theorem store_spec {h : Heap} {p offset : Nat} {block : List UInt8} (here : h p = some block)
    (inside : offset + bytes.length ≤ block.length) :
    store h p offset bytes = some (setBlock h p (some (splice block offset bytes))) := by
  rw [store,here]
  exact if_pos inside

/-- What is still to be read is behind what was written. -/
theorem source_kept {h : Heap} {block : List UInt8}
    (into : h dest = some block) (out : h src = some source) (fits : dest_at + bytes.length ≤ block.length)
    (down : dest ≠ src ∨ dest_at ≤ src_at) :
    ∃ source', setBlock h dest (some (splice block dest_at bytes)) src = some source' ∧ source'.length = source.length ∧
      source'.drop (src_at + bytes.length) = source.drop (src_at + bytes.length) := by
  by_cases same : src = dest
  · subst same
    obtain rfl : block = source := Option.some.inj (into.symm.trans out)
    have below : dest_at ≤ src_at := down.resolve_left (fun other => other rfl)
    exact ⟨_,setBlock_self ..,length_splice fits,drop_splice fits (by omega)⟩
  · exact ⟨source,by rw [setBlock_other _ same,out],rfl,rfl⟩

/-- Moving upwards is right when the places do not overlap, or the bytes move down. -/
theorem moves_spec {size times : Nat} {h : Heap} {block : List UInt8}
    (into : h dest = some block) (out : h src = some source) (room : dest_at + size * times ≤ block.length)
    (inside : src_at + size * times ≤ source.length) (down : dest ≠ src ∨ dest_at ≤ src_at) :
    moves size times h dest dest_at src src_at =
      some (setBlock h dest (some (splice block dest_at ((source.drop src_at).take (size * times))))) := by
  induction times generalizing h dest_at src_at block source with
  | zero => rw [moves,Nat.mul_zero,take_zero,splice_nil,setBlock_same into]
  | succ times ih =>
    have total : size * (times + 1) = size + size * times := by rw [Nat.mul_succ,Nat.add_comm]
    rw [total] at room inside ⊢
    obtain ⟨bytes,taken⟩ : ∃ bytes, bytes = (source.drop src_at).take size := ⟨_,rfl⟩
    have length : bytes.length = size := by
      rw [taken,length_take,length_drop]
      omega
    have fits : dest_at + bytes.length ≤ block.length := by omega
    rw [moves,load_spec out (by omega),← taken]
    simp only
    rw [store_spec into fits]
    simp only
    obtain ⟨source',out',length',kept⟩ := source_kept into out fits down
    have long : (splice block dest_at bytes).length = block.length := length_splice fits
    rw [ih (setBlock_self ..) out' (by omega) (by omega) (by omega),setBlock_setBlock]
    rw [length] at kept
    have behind : ((source.drop (src_at + size)).take (size * times)).length = size * times := by
      rw [length_take,length_drop]
      omega
    have joined := @splice_splice block bytes ((source.drop (src_at + size)).take (size * times)) dest_at (by omega)
    rw [length] at joined
    rw [kept,joined,List.take_add,drop_drop,taken]

theorem memcpy_spec {h : Heap} {block : List UInt8}
    (into : h dest = some block) (out : h src = some source) (room : dest_at + n ≤ block.length)
    (inside : src_at + n ≤ source.length) (down : dest ≠ src ∨ dest_at ≤ src_at) :
    memcpy h dest dest_at src src_at n =
      some (setBlock h dest (some (splice block dest_at ((source.drop src_at).take n)))) := by
  obtain ⟨words,taken⟩ : ∃ words, words = (source.drop src_at).take (4 * (n / 4)) := ⟨_,rfl⟩
  obtain ⟨rest,left⟩ : ∃ rest, rest = (source.drop (src_at + 4 * (n / 4))).take (1 * (n % 4)) := ⟨_,rfl⟩
  have length : words.length = 4 * (n / 4) := by
    rw [taken,length_take,length_drop]
    omega
  have length_rest : rest.length = 1 * (n % 4) := by
    rw [left,length_take,length_drop]
    omega
  have fits : dest_at + words.length ≤ block.length := by omega
  obtain ⟨source',out',length',kept⟩ := source_kept into out fits down
  have long : (splice block dest_at words).length = block.length := length_splice fits
  have joined := @splice_splice block words rest dest_at (by omega)
  rw [length] at kept joined
  rw [memcpy,moves_spec into out (by omega) (by omega) down,← taken]
  simp only
  rw [moves_spec (setBlock_self ..) out' (by omega) (by omega) (by omega),setBlock_setBlock,kept,← left,joined,taken,left,
    ← drop_drop,← List.take_add]
  have parts : 4 * (n / 4) + 1 * (n % 4) = n := by omega
  rw [parts]

theorem memcpy_in_spec {h : Heap} {p offset : Nat} {block : List UInt8} (here : h p = some block)
    (inside : offset + bytes.length ≤ block.length) :
    memcpy_in h p offset bytes = some (setBlock h p (some (splice block offset bytes))) := by
  unfold memcpy_in
  by_cases empty : bytes = []
  · rw [if_pos empty,empty,splice_nil,setBlock_same here]
  · rw [if_neg empty]
    exact store_spec here inside

theorem kmalloc_spec (h : Heap) (place : Place) {size : Nat} (some_bytes : size ≠ 0) :
    ∃ block, block.length = size ∧ kmalloc h place size = (setBlock h place.address (some block),place.address) :=
  ⟨_,by simp,if_neg some_bytes⟩

theorem holds_null (h : Heap) : Holds h ⟨0,0⟩ [] := ⟨rfl,.inl ⟨rfl,rfl⟩⟩

theorem holds_block {h : Heap} (holds : Holds h b bytes) (nonnull : b.data ≠ 0) :
    ∃ block, h b.data = some block ∧ bytes <+: block := by
  obtain ⟨-,⟨null,-⟩ | ⟨-,block⟩⟩ := holds
  · exact absurd null nonnull
  · exact block

theorem holds_out {h : Heap} (holds : Holds h b bytes) (some_bytes : n ≤ b.len) :
    memcpy_out h b.data n = some (bytes.take n) := by
  unfold memcpy_out
  by_cases zero : n = 0
  · rw [if_pos zero,zero,take_zero]
  · rw [if_neg zero]
    obtain ⟨length,⟨-,none⟩ | ⟨-,block,here,rest,split⟩⟩ := holds
    · rw [none,length_nil] at length
      omega
    · rw [load_spec here (by rw [← split,length_append]; omega),List.drop_zero,← split,
        List.take_append_of_le_length (by omega)]

/-- A buffer whose bytes stand at the start of a new block, and more bytes behind them. -/
theorem holds_written {h : Heap} {p : Nat} {block : List UInt8} (nonnull : p ≠ 0) (length : n = bytes.length) :
    Holds (setBlock h p (some (bytes ++ block))) ⟨p,n⟩ bytes :=
  ⟨length,.inr ⟨nonnull,_,setBlock_self ..,List.prefix_append ..⟩⟩

/-- The first bytes leave a buffer, and the others move down. -/
theorem holds_dropped {h : Heap} (holds : Holds h b bytes) (most : n ≤ b.len) (some_bytes : b.len ≠ 0) :
    ∃ h', memcpy h b.data 0 b.data n (b.len - n) = some h' ∧ Holds h' ⟨b.data,b.len - n⟩ (bytes.drop n) ∧
      Replaced h b.data h' b.data := by
  obtain ⟨length,⟨-,none⟩ | ⟨nonnull,block,here,rest,split⟩⟩ := holds
  · rw [none,length_nil] at length
    exact absurd length some_bytes
  have long : block.length = bytes.length + rest.length := by rw [← split,length_append]
  have moved : (block.drop n).take (b.len - n) = bytes.drop n := by
    rw [← split,List.drop_append_of_le_length (by omega),List.take_left']
    rw [length_drop]
    omega
  refine ⟨_,memcpy_spec here here (by omega) (by omega) (.inr (Nat.zero_le n)),?_,?_⟩
  · rw [moved,splice,take_zero,nil_append]
    exact holds_written nonnull (by rw [length_drop,length])
  · exact ⟨fun q other _ => setBlock_other _ other _,fun _ => .inl rfl⟩

section
variable {h : Heap} {place : Place} {b : Buffer} {bytes data : List UInt8} (holds : Holds h b bytes)
  (fresh : Fresh h place) {size : Nat} (sum : size = b.len + data.length)
include holds fresh sum

/-- A new block for the bytes of a buffer and more. -/
theorem holds_grown (nonnull : b.data ≠ 0) :
    ∃ h1 h2 h3, memcpy (kmalloc h place size).1 (kmalloc h place size).2 0 b.data 0 b.len = some h1 ∧
      kfree h1 b.data = some h2 ∧ memcpy_in h2 (kmalloc h place size).2 b.len data = some h3 ∧
        Holds h3 ⟨(kmalloc h place size).2,b.len + data.length⟩ (bytes ++ data) ∧
          Replaced h b.data h3 (kmalloc h place size).2 := by
  obtain ⟨old,here,rest,split⟩ := holds_block holds nonnull
  have length := holds.1
  by_cases zero : size = 0
  · obtain rfl : bytes = [] := List.length_eq_zero_iff.1 (by omega)
    obtain rfl : data = [] := List.length_eq_zero_iff.1 (by omega)
    have none : b.len = 0 := length
    rw [zero,none]
    refine ⟨h,setBlock h b.data .none,setBlock h b.data .none,rfl,?_,rfl,holds_null _,?_⟩
    · rw [kfree,if_neg nonnull,here]
    · exact ⟨fun q other _ => setBlock_other _ other _,fun new => absurd rfl new⟩
  · obtain ⟨block,room,made⟩ := kmalloc_spec h place zero
    have other : b.data ≠ place.address := by
      intro same
      rw [same,fresh.unused] at here
      cases here
    have taken : (old.drop 0).take b.len = bytes := by
      rw [List.drop_zero,← split,List.take_left' length.symm]
    have kept : setBlock h place.address (some block) b.data = some old := by rw [setBlock_other _ other,here]
    have copied := memcpy_spec (setBlock_self h place.address (some block)) kept (by omega : 0 + b.len ≤ block.length)
      (by rw [← split,length_append]; omega : 0 + b.len ≤ old.length) (.inl other.symm)
    rw [taken,setBlock_setBlock] at copied
    have long : (splice block 0 bytes).length = block.length := length_splice (by omega)
    rw [made]
    refine ⟨_,setBlock (setBlock h place.address (some (splice block 0 bytes))) b.data none,_,copied,?_,
      memcpy_in_spec (by rw [setBlock_other _ other.symm,setBlock_self]) (by omega),?_,?_⟩
    · rw [kfree,if_neg nonnull,setBlock_other _ other,here]
    · have joined := @splice_splice block bytes data 0 (by omega)
      rw [Nat.zero_add] at joined
      rw [length,joined,splice,take_zero,nil_append]
      exact holds_written fresh.nonnull (by rw [take_zero,length_append,length_nil,Nat.zero_add,length_append])
    · refine ⟨fun q different used => ?_,fun _ => .inr fresh.unused⟩
      have apart : q ≠ place.address := fun same => used (same ▸ fresh.unused)
      rw [setBlock_other _ apart,setBlock_other _ different,setBlock_other _ apart]

/-- The first block of a buffer. -/
theorem holds_first (null : b.data = 0) :
    ∃ h', memcpy_in (kmalloc h place size).1 (kmalloc h place size).2 b.len data = some h' ∧
      Holds h' ⟨(kmalloc h place size).2,b.len + data.length⟩ (bytes ++ data) ∧
        Replaced h b.data h' (kmalloc h place size).2 := by
  obtain ⟨length,⟨-,rfl⟩ | ⟨nonnull,-⟩⟩ := holds
  swap
  · exact absurd null nonnull
  have none : b.len = 0 := length
  rw [none,Nat.zero_add] at sum ⊢
  by_cases zero : size = 0
  · obtain rfl : data = [] := List.length_eq_zero_iff.1 (by omega)
    rw [zero]
    exact ⟨h,rfl,holds_null h,⟨fun _ _ _ => rfl,fun new => absurd rfl new⟩⟩
  · obtain ⟨block,room,made⟩ := kmalloc_spec h place zero
    rw [made]
    refine ⟨_,memcpy_in_spec (setBlock_self ..) (by omega),?_,?_⟩
    · rw [setBlock_setBlock,splice,take_zero,nil_append]
      exact holds_written fresh.nonnull rfl
    · refine ⟨fun q _ used => ?_,fun _ => .inr fresh.unused⟩
      have apart : q ≠ place.address := fun same => used (same ▸ fresh.unused)
      simp only [setBlock_other _ apart]

end

section
variable {Owner : Type u} [DecidableEq Owner] {h h' : Heap} {buffer : Owner → Buffer} {content : Owner → List UInt8}

/-- Buffers in blocks that do not change. -/
theorem holds_kept {b : Buffer} {bytes : List UInt8} {old new : Nat} (holds : Holds h b bytes)
    (replaced : Replaced h old h' new) (other : b.data ≠ 0 → b.data ≠ old) : Holds h' b bytes := by
  obtain ⟨length,⟨null,none⟩ | ⟨nonnull,block,here,front⟩⟩ := holds
  · exact ⟨length,.inl ⟨null,none⟩⟩
  · refine ⟨length,.inr ⟨nonnull,block,?_,front⟩⟩
    rw [replaced.others _ (other nonnull) (by rw [here]; exact Option.some_ne_none _),here]

theorem owned_replaced (owned : Owned h buffer content) {i : Owner} {b : Buffer} {bytes : List UInt8}
    (holds : Holds h' b bytes) (replaced : Replaced h (buffer i).data h' b.data) :
    Owned h' (update buffer i b) (update content i bytes) := by
  have apart (j : Owner) (other : j ≠ i) (nonnull : (buffer j).data ≠ 0) : (buffer j).data ≠ b.data := by
    obtain ⟨block,here,-⟩ := holds_block (owned.holds j) nonnull
    intro same
    obtain old | new := replaced.fresh (same ▸ nonnull)
    · exact owned.apart j i other nonnull (same.trans old)
    · rw [← same,here] at new
      cases new
  constructor
  · intro j
    by_cases same : j = i
    · rw [same,update_self,update_self]
      exact holds
    · rw [update_of_ne same,update_of_ne same]
      exact holds_kept (owned.holds j) replaced (owned.apart j i same)
  · intro j k other nonnull
    by_cases first : j = i
    · have second : k ≠ i := fun is => other (first.trans is.symm)
      rw [first,update_self] at nonnull ⊢
      rw [update_of_ne second]
      exact fun same => apart k second (same ▸ nonnull) same.symm
    · rw [update_of_ne first] at nonnull ⊢
      by_cases second : k = i
      · rw [second,update_self]
        exact apart j first nonnull
      · rw [update_of_ne second]
        exact owned.apart j k other nonnull

/-- A buffer changes hands. -/
theorem owned_moved (owned : Owned h buffer content) (i j : Owner) :
    Owned h (update (update buffer j (buffer i)) i ⟨0,0⟩)
      (update (update content j (content i)) i []) := by
  constructor
  · intro k
    by_cases giver : k = i
    · rw [giver,update_self,update_self]
      exact holds_null h
    · rw [update_of_ne giver,update_of_ne giver]
      by_cases taker : k = j
      · rw [taker,update_self,update_self]
        exact owned.holds i
      · rw [update_of_ne taker,update_of_ne taker]
        exact owned.holds k
  · intro k l different nonnull
    by_cases giver : k = i
    · rw [giver,update_self] at nonnull
      exact absurd rfl nonnull
    rw [update_of_ne giver] at nonnull ⊢
    by_cases giver' : l = i
    · rw [giver',update_self]
      exact nonnull
    rw [update_of_ne giver']
    by_cases taker : k = j
    · have taker' : l ≠ j := fun is => different (taker.trans is.symm)
      rw [taker,update_self] at nonnull ⊢
      rw [update_of_ne taker']
      exact owned.apart i l (fun is => giver' is.symm) nonnull
    · rw [update_of_ne taker] at nonnull ⊢
      by_cases taker' : l = j
      · rw [taker',update_self]
        exact owned.apart k i giver nonnull
      · rw [update_of_ne taker']
        exact owned.apart k l different nonnull

end
end MicroOS.Buffers

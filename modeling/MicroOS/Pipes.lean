import MicroOS.Memory

/-!
A task that is attached to a pipe reads from it and writes to it in the context of the task the
pipe belongs to, through a buffer of one page. The main theorem is `pipe_transfers`: which calls
move what they should.
-/

namespace MicroOS.Pipes
open Memory

/-- A `pipe_t`. -/
structure Pipe where
  buffer : Nat
  size : Int
  pos : Int

/-- The memory of the attached task, that of the task the pipe belongs to, if it is in the table, and the pipe. -/
structure State where
  own : Bytes
  other : Option Bytes
  pipe : Pipe

/-- An `int` as a `size_t`. -/
def to_unsigned (n : Int) : Int := n % 2 ^ 32

/-- A `uint64_t` as an `int`. -/
def to_int (n : UInt64) : Int := if n.toNat % 2 ^ 32 < 2 ^ 31 then n.toNat % 2 ^ 32 else (n.toNat % 2 ^ 32 : Nat) - 2 ^ 32

/-- `vmm_read_context` and `vmm_write_context`: some bytes of one context are copied to another one, by way
    of a buffer whose size is asserted. -/
def copy_context (source : Bytes) (ptr : Nat) (target : Bytes) (out : Nat) (sz : Int) : Option Bytes :=
  if to_unsigned sz ≤ 0x1000 then some (storeBytes target out (slice source ptr sz.toNat)) else none

/-- What both functions make of the size. -/
def clamped (pipe : Pipe) (size : UInt64) : Int := if pipe.size - pipe.pos < to_int size then pipe.size - pipe.pos else to_int size

def read_pipe (s : State) (buffer : Nat) (size : UInt64) : Option (Int × State) :=
  match s.other with
  | none => some (0,s)
  | some other =>
    let can_read := clamped s.pipe size
    match copy_context other (s.pipe.buffer + s.pipe.pos.toNat) s.own buffer can_read with
    | none => none
    | some own => some (can_read,{ s with own := own, pipe := { s.pipe with pos := s.pipe.pos + can_read } })

def write_pipe (s : State) (buffer : Nat) (size : UInt64) : Option (Int × State) :=
  match s.other with
  | none => some (0,s)
  | some other =>
    let to_write := clamped s.pipe size
    match copy_context s.own buffer other (s.pipe.buffer + s.pipe.pos.toNat) to_write with
    | none => none
    | some other => some (to_write,{ s with other := some other, pipe := { s.pipe with pos := s.pipe.pos + to_write } })

inductive Call
  | read (buffer : Nat) (size : UInt64)
  | write (buffer : Nat) (size : UInt64)

def Call.size : Call → UInt64
  | .read _ size | .write _ size => size

def perform (s : State) : Call → Option (Int × State)
  | .read buffer size => read_pipe s buffer size
  | .write buffer size => write_pipe s buffer size

/-- Calls one after the other. -/
def performs (s : State) : List Call → Option State
  | [] => some s
  | c :: cs =>
    match perform s c with
    | none => none
    | some (_,t) => performs t cs

/-- The task of the pipe is there, and the position is in the buffer. -/
structure Valid (s : State) : Prop where
  taken : s.other.isSome
  low : 0 ≤ s.pipe.pos
  high : s.pipe.pos ≤ s.pipe.size
  int : s.pipe.size < 2 ^ 31

/-- As many bytes as are asked for, up to what is left of the buffer. -/
def amount (s : State) (size : UInt64) : Nat := min size.toNat (s.pipe.size - s.pipe.pos).toNat

def advanced (s : State) (size : UInt64) : Pipe := { s.pipe with pos := s.pipe.pos + amount s size }

/-- The bytes of the pipe from the old position on come to the caller's buffer, or the other way round. -/
def moved (s : State) : Call → State
  | .read buffer size =>
    { s with
      own := storeBytes s.own buffer (slice (s.other.getD s.own) (s.pipe.buffer + s.pipe.pos.toNat) (amount s size))
      pipe := advanced s size }
  | .write buffer size =>
    { s with
      other := s.other.map fun other => storeBytes other (s.pipe.buffer + s.pipe.pos.toNat) (slice s.own buffer (amount s size))
      pipe := advanced s size }

/-- The call moves what it should and returns how much. -/
def Right (s : State) (c : Call) : Prop := perform s c = some ((amount s c.size : Int),moved s c)

/-- At most a page is moved, and the size is an int, or what is left of the buffer is not more than what
    the size is as an int. -/
def Narrow (s : State) (c : Call) : Prop :=
  amount s c.size ≤ 0x1000 ∧ (c.size.toNat < 2 ^ 31 ∨ s.pipe.size - s.pipe.pos ≤ to_int c.size)

section
variable {s : State}

theorem to_int_bounds (size : UInt64) : -2 ^ 31 ≤ to_int size ∧ to_int size < 2 ^ 31 ∧ (size.toNat < 2 ^ 31 → to_int size = size.toNat) := by
  unfold to_int
  split <;> omega

/-- The size that is used is the amount exactly under the second condition. -/
theorem clamped_amount (valid : Valid s) (size : UInt64) :
    clamped s.pipe size = amount s size ↔ size.toNat < 2 ^ 31 ∨ s.pipe.size - s.pipe.pos ≤ to_int size := by
  obtain ⟨low,high,int_size⟩ := to_int_bounds size
  have bounds := valid.high
  have int := valid.int
  have pos := valid.low
  unfold clamped amount
  by_cases small : size.toNat < 2 ^ 31
  · rw [int_size small]
    split <;> omega
  · split <;> omega

theorem to_unsigned_fits {n : Int} (low : -2 ^ 31 ≤ n) (high : n < 2 ^ 31) : to_unsigned n ≤ 0x1000 ↔ 0 ≤ n ∧ n ≤ 0x1000 := by
  unfold to_unsigned
  omega

theorem clamped_bounds (valid : Valid s) (size : UInt64) : -2 ^ 31 ≤ clamped s.pipe size ∧ clamped s.pipe size < 2 ^ 31 := by
  obtain ⟨low,high,_⟩ := to_int_bounds size
  have bounds := valid.high
  have int := valid.int
  have pos := valid.low
  unfold clamped
  split <;> omega

/-- The copy of the clamped size, where it is the amount. -/
theorem copy_amount (valid : Valid s) {size : UInt64} (same : clamped s.pipe size = amount s size) (source target : Bytes) (ptr out : Nat) :
    copy_context source ptr target out (clamped s.pipe size) =
      if amount s size ≤ 0x1000 then some (storeBytes target out (slice source ptr (amount s size))) else none := by
  obtain ⟨low,high⟩ := clamped_bounds valid size
  rw [copy_context]
  by_cases fits : amount s size ≤ 0x1000
  · rw [if_pos fits,if_pos ((to_unsigned_fits low high).2 ⟨by omega,by omega⟩),same,Int.toNat_natCast]
  · rw [if_neg fits,if_neg]
    intro within
    have bound := (to_unsigned_fits low high).1 within
    omega

/-- What a call returns is the clamped size. -/
theorem perform_clamped (valid : Valid s) {c : Call} {n : Int} {t : State} (here : perform s c = some (n,t)) : n = clamped s.pipe c.size := by
  obtain ⟨other,taken⟩ := Option.isSome_iff_exists.1 valid.taken
  cases c with
  | read buffer size =>
    rw [perform,read_pipe,taken] at here
    dsimp only at here
    split at here
    · cases here
    · exact (Prod.mk.inj (Option.some.inj here)).1.symm
  | write buffer size =>
    rw [perform,write_pipe,taken] at here
    dsimp only at here
    split at here
    · cases here
    · exact (Prod.mk.inj (Option.some.inj here)).1.symm

theorem perform_amount (valid : Valid s) {c : Call} (same : clamped s.pipe c.size = amount s c.size) :
    perform s c = if amount s c.size ≤ 0x1000 then some ((amount s c.size : Int),moved s c) else none := by
  obtain ⟨other,taken⟩ := Option.isSome_iff_exists.1 valid.taken
  cases c with
  | read buffer size =>
    change clamped s.pipe size = amount s size at same
    change read_pipe s buffer size = if amount s size ≤ 0x1000 then some ((amount s size : Int),moved s (.read buffer size)) else none
    rw [read_pipe,taken]
    dsimp only
    rw [copy_amount valid same,same]
    by_cases fits : amount s size ≤ 0x1000
    · rw [if_pos fits,if_pos fits]
      simp only [moved,taken,Option.getD_some,advanced]
    · rw [if_neg fits,if_neg fits]
  | write buffer size =>
    change clamped s.pipe size = amount s size at same
    change write_pipe s buffer size = if amount s size ≤ 0x1000 then some ((amount s size : Int),moved s (.write buffer size)) else none
    rw [write_pipe,taken]
    dsimp only
    rw [copy_amount valid same,same]
    by_cases fits : amount s size ≤ 0x1000
    · rw [if_pos fits,if_pos fits]
      simp only [moved,taken,Option.map_some,advanced]
    · rw [if_neg fits,if_neg fits]

theorem right_narrow (valid : Valid s) (c : Call) : Right s c ↔ Narrow s c := by
  constructor
  · intro right
    have same := (perform_clamped valid right).symm
    refine ⟨?_,(clamped_amount valid c.size).1 same⟩
    by_contra long
    rw [Right,perform_amount valid same,if_neg long] at right
    cases right
  · rintro ⟨fits,small⟩
    rw [Right,perform_amount valid ((clamped_amount valid c.size).2 small),if_pos fits]

/-- The position stays in the buffer. -/
theorem moved_valid (valid : Valid s) (c : Call) : Valid (moved s c) := by
  have low := valid.low
  have high := valid.high
  have bound : amount s c.size ≤ (s.pipe.size - s.pipe.pos).toNat := Nat.min_le_right _ _
  cases c with
  | read buffer size => exact ⟨valid.taken,by simp only [moved,advanced]; omega,
      by simp only [moved,advanced,Call.size] at bound ⊢; omega,valid.int⟩
  | write buffer size =>
    refine ⟨?_,by simp only [moved,advanced]; omega,by simp only [moved,advanced,Call.size] at bound ⊢; omega,valid.int⟩
    rw [moved,Option.isSome_map]
    exact valid.taken

end

theorem performs_append (s : State) (before after : List Call) : performs s (before ++ after) = (performs s before).bind (performs · after) := by
  induction before generalizing s with
  | nil => rfl
  | cons c before ih =>
    rw [List.cons_append,performs,performs]
    cases perform s c with
    | none => rfl
    | some result => exact ih result.2

/-- In a run of calls each moves what it should, leaves the position in the buffer and is not stopped by the
    assertion, exactly if each is narrow where it is made. -/
theorem pipe_transfers {s : State} (valid : Valid s) (calls : List Call) :
    (∀ before c after, calls = before ++ c :: after → ∃ t, performs s before = some t ∧ Valid t ∧ Right t c) ↔
      ∀ before c after, calls = before ++ c :: after → ∀ t, performs s before = some t → Narrow t c := by
  constructor
  · intro all before c after split t here
    obtain ⟨u,same,valid,right⟩ := all before c after split
    obtain rfl := Option.some.inj (here.symm.trans same)
    exact (right_narrow valid c).1 right
  · intro narrow before
    induction before using List.reverseRecOn with
    | nil =>
      intro c after split
      exact ⟨s,rfl,valid,(right_narrow valid c).2 (narrow [] c after split s rfl)⟩
    | append_singleton before last ih =>
      intro c after split
      obtain ⟨t,here,valid,right⟩ := ih last (c :: after) (by rw [split,List.append_assoc]; rfl)
      have next : performs s (before ++ [last]) = some (moved t last) := by
        rw [performs_append,here,Option.bind_some,performs,right]
        rfl
      have valid := moved_valid valid last
      exact ⟨_,next,valid,(right_narrow valid c).2 (narrow _ c after split _ next)⟩

/-- A pipe of two pages, and all of it is free. -/
def two_pages : State := ⟨fun _ => 0,some fun _ => 0,⟨0,0x2000,0⟩⟩

theorem two_pages_valid : Valid two_pages := ⟨rfl,by decide,by decide,by decide⟩

/-- More than a page fails the assertion. -/
theorem page_exceeded : ¬ ∀ s, Valid s → ∀ calls before c after, calls = before ++ c :: after →
    ∃ t, performs s before = some t ∧ Valid t ∧ Right t c := by
  intro all
  obtain ⟨t,here,valid,right⟩ := all two_pages two_pages_valid [.read 0 0x1001] [] (.read 0 0x1001) [] rfl
  obtain rfl := Option.some.inj here
  exact absurd ((right_narrow valid _).1 right).1 (by decide)

theorem pipe_transfers_one : ∃ t, performs two_pages [] = some t ∧ Valid t ∧ Right t (.read 0 0x1000) := by
  refine (pipe_transfers two_pages_valid [.read 0 0x1000]).2 ?_ [] (.read 0 0x1000) [] rfl
  intro before c after split t here
  cases before with
  | nil =>
    obtain rfl := (List.cons.inj split).1
    obtain rfl := Option.some.inj here
    exact ⟨by decide,.inl (by decide)⟩
  | cons d before => exact absurd (List.cons.inj split).2 (by simp)

end MicroOS.Pipes

import Mathlib.Data.BitVec
import Mathlib.Data.List.Chain
import MicroOS.Expansion

/-!
`execute_command_substitutions` copies a command and puts the output of `c` in the place of each `$(c)`. A piece of the command
is a character or such a substitution. The main theorem is `execute_command_substitutions_iff`: for which commands this is what
comes out, whatever the commands print.
-/

namespace MicroOS.Substitution
open Expansion (dollar)
open Option (map_eq_some_iff some.inj)
open List (append_assoc append_nil foldl_cons length_append length_cons length_replicate length_tail map_cons map_nil
  mem_cons mem_cons_self not_mem_nil)

/-! ### The functions -/

def opening : UInt8 := 0x28
def closing : UInt8 := 0x29
def backslash : UInt8 := 0x5C
def newline : UInt8 := 0x0A

def PIPE_BUFFER_SIZE : Nat := 65536

/-- A read behind the terminator of the command, a string that was never written, a write outside a block. -/
inductive Fault
  | past_end
  | unwritten
  | outside

/-- An allocated block, the capacity the program takes it to have, and the text at its start; whether the text was
    terminated. The allocator returns a block or stops the task. -/
structure Buffer where
  block : Nat
  capacity : BitVec 32
  text : List UInt8
  terminated : Bool

def result_buffer : Buffer := ⟨512,512,[],false⟩
def substitution_buffer : Buffer := ⟨65,64,[],false⟩

/-- `realloc` to the doubled capacity, an `int` that is converted to a `size_t`. -/
def grow (b : Buffer) : Buffer :=
  if b.capacity.toInt ≤ b.text.length + 1 then { b with block := (b.capacity * 2).toNat, capacity := b.capacity * 2 } else b

def append_char (b : Buffer) (c : UInt8) : Except Fault Buffer :=
  if b.text.length + 1 < (grow b).block then .ok { grow b with text := b.text ++ [c], terminated := true } else .error .outside

/-- The end of a text without a newline. -/
def chomp (text : List UInt8) : List UInt8 := if text.getLast? = some newline then text.dropLast else text

/-- What `command_received` does for a command with a pipe: the output that is in the pipe's buffer then. -/
structure Commands (σ : Type) where
  received : σ → List UInt8 → σ × List UInt8
  bounded : ∀ w command, (received w command).2.length ≤ PIPE_BUFFER_SIZE

/-- The loop up to `)`, with the last character read; it gives the substitution and what stands behind the `)`. -/
def command_loop : UInt8 → List UInt8 → Buffer → Except Fault (Buffer × List UInt8)
  | _,[],_ => .error .past_end
  | prev,c :: rest,substitution =>
    if c = closing ∧ prev ≠ backslash then .ok (substitution,rest)
    else if c = backslash then command_loop c rest substitution
    else (append_char substitution c).bind fun substitution => command_loop c rest substitution

variable {prev : UInt8} {b b' : Buffer} {n : Nat} {s : List UInt8}

theorem length_command_loop {text : List UInt8} {p : Buffer × List UInt8}
    (found : command_loop prev text b = .ok p) : p.2.length ≤ text.length := by
  induction text generalizing prev b with
  | nil => cases found
  | cons c rest ih =>
    rw [command_loop] at found
    split at found
    · cases found
      exact Nat.le_succ _
    · split at found
      · exact Nat.le_succ_of_le (ih found)
      · cases appended : append_char b c with
        | error fault =>
          rw [appended] at found
          cases found
        | ok b =>
          rw [appended] at found
          exact Nat.le_succ_of_le (ih found)

/-- Whether a substitution starts at a character; `command[1]` may be the terminator. -/
def starts (c : UInt8) (rest : List UInt8) : Prop := c = dollar ∧ rest.head? = some opening

instance (c : UInt8) (rest : List UInt8) : Decidable (starts c rest) := inferInstanceAs (Decidable (_ ∧ _))

section
variable {σ : Type} (commands : Commands σ)

/-- A command with its substitution complete: it is run, and its output appended to the result, whose last newline goes. -/
def run_substitution (w : σ) (substitution result : Buffer) : Except Fault (σ × Buffer) :=
  if substitution.terminated then
    ((commands.received w substitution.text).2.foldlM append_char result).map fun result =>
      ((commands.received w substitution.text).1,{ result with text := chomp result.text })
  else .error .unwritten

def substitution_loop (w : σ) (command : List UInt8) (result : Buffer) : Except Fault (σ × Buffer) :=
  match command with
  | [] => .ok (w,result)
  | c :: rest =>
    if starts c rest then
      match found : command_loop opening rest.tail substitution_buffer with
      | .error fault => .error fault
      | .ok p =>
        have := length_command_loop found
        (run_substitution commands w p.1 result).bind fun ran => substitution_loop ran.1 p.2 ran.2
    else (append_char result c).bind fun result => substitution_loop w rest result
termination_by command.length
decreasing_by
  · rw [length_tail] at this
    simp only [length_cons]
    omega
  · exact Nat.lt_succ_self _

def execute_command_substitutions (w : σ) (command : List UInt8) : Except Fault (σ × List UInt8) :=
  (substitution_loop commands w command result_buffer).bind fun p =>
    if p.2.terminated then .ok (p.1,p.2.text) else .error .unwritten

end

/-! ### What is asked -/

/-- The text up to the parenthesis that closes, at a depth of parentheses inside it, and what stands behind. A backslash takes
    the meaning of the next character, which is then escaped; inside further parentheses it is left to the command there. -/
def command_text : Bool → Nat → List UInt8 → Option (List UInt8 × List UInt8)
  | _,_,[] => none
  | true,depth,c :: rest => (command_text false depth rest).map fun p => (c :: p.1,p.2)
  | false,depth,c :: rest =>
    if c = backslash then (command_text true depth rest).map fun p => (if depth = 0 then p.1 else c :: p.1,p.2)
    else if c = closing then
      if depth = 0 then some ([],rest) else (command_text false (depth - 1) rest).map fun p => (c :: p.1,p.2)
    else (command_text false (if c = opening then depth + 1 else depth) rest).map fun p => (c :: p.1,p.2)

theorem length_mapped {q : Option (List UInt8 × List UInt8)} {f : List UInt8 × List UInt8 → List UInt8} {p : List UInt8 × List UInt8}
    (inner : ∀ p, q = some p → p.2.length ≤ n) (mapped : q.map (fun p => (f p,p.2)) = some p) : p.2.length ≤ n + 1 := by
  obtain ⟨p,here,rfl⟩ := map_eq_some_iff.1 mapped
  exact Nat.le_succ_of_le (inner p here)

theorem length_command_text {escaped : Bool} {depth : Nat} {text : List UInt8} {p : List UInt8 × List UInt8}
    (found : command_text escaped depth text = some p) : p.2.length ≤ text.length := by
  induction text generalizing escaped depth p with
  | nil => cases escaped <;> cases found
  | cons c rest ih =>
    cases escaped with
    | true => exact length_mapped (fun _ => ih) found
    | false =>
      rw [command_text] at found
      split at found
      · exact length_mapped (fun _ => ih) found
      · split at found
        · split at found
          · cases found
            exact Nat.le_succ _
          · exact length_mapped (fun _ => ih) found
        · exact length_mapped (fun _ => ih) found

inductive Piece
  | lit (c : UInt8)
  | sub (command : List UInt8)
deriving DecidableEq

/-- The characters and the substitutions of a command; what is not closed is no substitution. -/
def pieces (command : List UInt8) : List Piece :=
  match command with
  | [] => []
  | c :: rest =>
    if starts c rest then
      match found : command_text false 0 rest.tail with
      | none => .lit c :: pieces rest
      | some p =>
        have := length_command_text found
        .sub p.1 :: pieces p.2
    else .lit c :: pieces rest
termination_by command.length
decreasing_by
  · exact Nat.lt_succ_self _
  · rw [length_tail] at this
    simp only [length_cons]
    omega
  · exact Nat.lt_succ_self _

section
variable {σ : Type} (commands : Commands σ)

/-- A piece put in its place, with the output without its last newline. -/
def substitute (s : σ × List UInt8) : Piece → σ × List UInt8
  | .lit c => (s.1,s.2 ++ [c])
  | .sub command => ((commands.received s.1 command).1,s.2 ++ chomp (commands.received s.1 command).2)

def substituted (w : σ) (command : List UInt8) : σ × List UInt8 := (pieces command).foldl (substitute commands) (w,[])

end

/-- Behind a `$(`: it is closed before any other parenthesis opens, and no backslash is escaped. -/
def Simple : Bool → List UInt8 → Prop
  | _,[] => False
  | true,c :: rest => c ≠ backslash ∧ Simple false rest
  | false,c :: rest => if c = backslash then Simple true rest else c = closing ∨ (c ≠ opening ∧ Simple false rest)

/-- Every `$(` begins a simple substitution. -/
def Plain (command : List UInt8) : Prop :=
  match command with
  | [] => True
  | c :: rest =>
    if starts c rest then
      match found : command_text false 0 rest.tail with
      | none => False
      | some p =>
        have := length_command_text found
        Simple false rest.tail ∧ Plain p.2
    else Plain rest
termination_by command.length
decreasing_by
  · rw [length_tail] at this
    simp only [length_cons]
    omega
  · exact Nat.lt_succ_self _

/-- Before a substitution stands a character that is not a newline. -/
def Follows (p q : Piece) : Prop := (∃ command, q = .sub command) → ∃ c, p = .lit c ∧ c ≠ newline

/-- How long a piece can become. -/
def most : Piece → Nat
  | .lit _ => 1
  | .sub _ => PIPE_BUFFER_SIZE

/-- The commands for which the result does not depend on what the blocks held or what is printed: a result of at most 2 ^ 30
    bytes that holds a character of the command, and simple substitutions, none empty, with a character before each. -/
structure Sound (command : List UInt8) : Prop where
  plain : Plain command
  separated : (pieces command).IsChain Follows
  literal : ∃ c, .lit c ∈ pieces command
  substitutions : ∀ text, .sub text ∈ pieces command → text ≠ [] ∧ text.length ≤ 2 ^ 30
  room : ((pieces command).map most).sum ≤ 2 ^ 30

/-! ### Appending -/

/-- A buffer that has got a number of bytes. Once it has got 2 ^ 30, the doubled capacity may be negative. -/
structure Grown (b : Buffer) (n : Nat) : Prop where
  length : b.text.length ≤ n
  most : n ≤ 2 ^ 30
  room : (∃ k ≤ 30, b.capacity.toNat = 2 ^ k ∧ b.text.length < 2 ^ k ∧ 2 ^ k ≤ b.block) ∨ (n = 2 ^ 30 ∧ b.capacity = 2 ^ 31)

theorem result_grown : Grown result_buffer 0 := ⟨le_rfl,Nat.zero_le _,.inl ⟨9,by decide,rfl,by decide,by decide⟩⟩

theorem substitution_grown : Grown substitution_buffer 0 := ⟨le_rfl,Nat.zero_le _,.inl ⟨6,by decide,rfl,by decide,by decide⟩⟩

theorem capacity_toInt {capacity : BitVec 32} {k : Nat} (small : k ≤ 30) (power : capacity.toNat = 2 ^ k) :
    capacity.toInt = (2 ^ k : Nat) := by
  have bound : 2 ^ k ≤ 2 ^ 30 := Nat.pow_le_pow_right (by decide) small
  rw [BitVec.toInt_eq_toNat_cond,power,if_pos (by omega)]

theorem doubled {capacity : BitVec 32} {k : Nat} (small : k ≤ 30) (power : capacity.toNat = 2 ^ k) :
    (capacity * 2).toNat = 2 ^ (k + 1) := by
  have bound : 2 ^ k ≤ 2 ^ 30 := Nat.pow_le_pow_right (by decide) small
  have two : (2 : BitVec 32).toNat = 2 := rfl
  rw [BitVec.toNat_mul,power,two,Nat.mod_eq_of_lt (by omega),Nat.pow_succ]

theorem append_char_grown (grown : Grown b n) (fewer : n < 2 ^ 30) (c : UInt8) :
    ∃ b', append_char b c = .ok b' ∧ Grown b' (n + 1) := by
  obtain ⟨k,small,power,short,block⟩ | ⟨last,_⟩ := grown.room
  case inr => omega
  have longer : (b.text ++ [c]).length = b.text.length + 1 := by simp
  have length := grown.length
  have capacity := capacity_toInt small power
  by_cases full : 2 ^ k ≤ b.text.length + 1
  · have grew : grow b = { b with block := (b.capacity * 2).toNat, capacity := b.capacity * 2 } := by
      rw [grow,capacity,if_pos (by exact_mod_cast full)]
    have twice := doubled small power
    have power_succ : 2 ^ (k + 1) = 2 * 2 ^ k := by rw [Nat.pow_succ,Nat.mul_comm]
    have inside : b.text.length + 1 < (grow b).block := by
      rw [grew]
      change b.text.length + 1 < (b.capacity * 2).toNat
      omega
    rw [append_char,if_pos inside]
    refine ⟨_,rfl,?_,fewer,?_⟩
    · rw [longer]
      omega
    · rcases Nat.lt_or_eq_of_le small with below | rfl
      · refine .inl ⟨k + 1,below,?_,?_,?_⟩
        · rw [grew]
          exact twice
        · rw [longer]
          omega
        · rw [grew,twice]
      · refine .inr ⟨by omega,?_⟩
        rw [grew]
        exact BitVec.eq_of_toNat_eq twice
  · have stayed : grow b = b := by
      rw [grow,capacity,if_neg (by exact_mod_cast full)]
    have inside : b.text.length + 1 < (grow b).block := by
      rw [stayed]
      omega
    rw [append_char,if_pos inside,stayed]
    refine ⟨_,rfl,?_,fewer,.inl ⟨k,small,power,?_,block⟩⟩
    · rw [longer]
      omega
    · rw [longer]
      omega

/-- The capacity overflows. -/
theorem append_char_full {c : UInt8} (grown : Grown b n) (all : b.text.length = n)
    (appended : append_char b c = .ok b') : n < 2 ^ 30 := by
  obtain ⟨k,small,_,short,_⟩ | ⟨_,negative⟩ := grown.room
  · have bound : 2 ^ k ≤ 2 ^ 30 := Nat.pow_le_pow_right (by decide) small
    omega
  · have grew : (grow b).block = 0 := by
      have below : (2 ^ 31 : BitVec 32).toInt ≤ b.text.length + 1 := by
        have sign : (2 ^ 31 : BitVec 32).toInt = -2147483648 := by decide
        omega
      rw [grow,negative,if_pos below]
      rfl
    rw [append_char,grew,if_neg (Nat.not_lt_zero _)] at appended
    cases appended

theorem bind_ok {α β : Type} {x : Except Fault α} {f : α → Except Fault β} {r : β} :
    x.bind f = .ok r ↔ ∃ a, x = .ok a ∧ f a = .ok r := by
  cases x with
  | error fault => exact iff_of_false (fun no => by cases no) (fun ⟨_,no,_⟩ => by cases no)
  | ok a => exact ⟨fun all => ⟨a,rfl,all⟩,fun ⟨_,same,all⟩ => by cases same; exact all⟩

theorem map_ok {α β : Type} {x : Except Fault α} {f : α → β} {r : β} : x.map f = .ok r ↔ ∃ a, x = .ok a ∧ f a = r := by
  cases x with
  | error fault => exact iff_of_false (fun no => by cases no) (fun ⟨_,no,_⟩ => by cases no)
  | ok a => exact ⟨fun all => ⟨a,rfl,Except.ok.inj all⟩,fun ⟨_,same,all⟩ => by cases same; rw [← all]; rfl⟩

theorem foldlM_cons_ok {c : UInt8} :
    (c :: s).foldlM append_char b = .ok b' ↔ ∃ m, append_char b c = .ok m ∧ s.foldlM append_char m = .ok b' := by
  rw [List.foldlM_cons]
  exact bind_ok

theorem append_char_text {c : UInt8} (appended : append_char b c = .ok b') :
    b'.text = b.text ++ [c] ∧ b'.terminated = true := by
  rw [append_char] at appended
  split at appended
  · cases appended
    exact ⟨rfl,rfl⟩
  · cases appended

/-- A string appended. -/
theorem append_all_text (appended : s.foldlM append_char b = .ok b') :
    b'.text = b.text ++ s ∧ b'.terminated = (b.terminated || !s.isEmpty) := by
  induction s generalizing b with
  | nil =>
    cases appended
    simp
  | cons c s ih =>
    obtain ⟨m,first,rest⟩ := foldlM_cons_ok.1 appended
    obtain ⟨text,terminated⟩ := append_char_text first
    obtain ⟨all,ended⟩ := ih rest
    rw [all,ended,text,terminated]
    simp

theorem append_all_grown (grown : Grown b n) (fewer : n + s.length ≤ 2 ^ 30) :
    ∃ b', s.foldlM append_char b = .ok b' ∧ Grown b' (n + s.length) := by
  induction s generalizing b n with
  | nil => exact ⟨b,rfl,grown⟩
  | cons c s ih =>
    rw [length_cons] at fewer
    obtain ⟨m,appended,more⟩ := append_char_grown grown (by omega) c
    obtain ⟨b',rest,last⟩ := ih more (by omega)
    refine ⟨b',foldlM_cons_ok.2 ⟨m,appended,rest⟩,?_⟩
    rw [length_cons,show n + (s.length + 1) = n + 1 + s.length by omega]
    exact last

theorem append_all_ok (grown : Grown b n) (all : b.text.length = n)
    (appended : s.foldlM append_char b = .ok b') : n + s.length ≤ 2 ^ 30 := by
  induction s generalizing b n with
  | nil => exact grown.most
  | cons c s ih =>
    obtain ⟨m,first,rest⟩ := foldlM_cons_ok.1 appended
    have fewer := append_char_full grown all first
    obtain ⟨m',same,more⟩ := append_char_grown grown fewer c
    obtain rfl : m = m' := Except.ok.inj (first.symm.trans same)
    have total := ih more (by rw [(append_char_text first).1]; simp [all]) rest
    rw [length_cons]
    omega

/-! ### The rounds -/

/-- The loop without its buffer. -/
def close_text : UInt8 → List UInt8 → Option (List UInt8 × List UInt8)
  | _,[] => none
  | prev,c :: rest =>
    if c = closing ∧ prev ≠ backslash then some ([],rest)
    else if c = backslash then close_text c rest
    else (close_text c rest).map fun p => (c :: p.1,p.2)

theorem command_loop_ok {text behind : List UInt8} :
    command_loop prev text b = .ok (b',behind) ↔ ∃ s, close_text prev text = some (s,behind) ∧ s.foldlM append_char b = .ok b' := by
  induction text generalizing prev b with
  | nil => exact iff_of_false (fun no => by cases no) (fun ⟨_,no,_⟩ => by cases no)
  | cons c rest ih =>
    rw [command_loop,close_text]
    by_cases closed : c = closing ∧ prev ≠ backslash
    · rw [if_pos closed,if_pos closed]
      constructor
      · intro same
        cases same
        exact ⟨[],rfl,rfl⟩
      · rintro ⟨s,same,appended⟩
        cases same
        cases appended
        rfl
    · rw [if_neg closed,if_neg closed]
      by_cases skipped : c = backslash
      · rw [if_pos skipped,if_pos skipped]
        exact ih
      · rw [if_neg skipped,if_neg skipped]
        constructor
        · intro looped
          cases appended : append_char b c with
          | error fault =>
            rw [appended] at looped
            cases looped
          | ok m =>
            rw [appended] at looped
            obtain ⟨s,found,all⟩ := ih.1 looped
            exact ⟨c :: s,by rw [found]; rfl,foldlM_cons_ok.2 ⟨m,appended,all⟩⟩
        · rintro ⟨s,found,all⟩
          obtain ⟨⟨s,behind⟩,inner,same⟩ := map_eq_some_iff.1 found
          cases same
          obtain ⟨m,appended,all⟩ := foldlM_cons_ok.1 all
          rw [appended]
          exact ih.2 ⟨s,inner,all⟩

theorem length_close_text {text : List UInt8} {p : List UInt8 × List UInt8}
    (found : close_text prev text = some p) : p.2.length ≤ text.length := by
  induction text generalizing prev p with
  | nil => cases found
  | cons c rest ih =>
    rw [close_text] at found
    split at found
    · cases found
      exact Nat.le_succ _
    · split at found
      · exact Nat.le_succ_of_le (ih found)
      · exact length_mapped (fun _ => ih) found

/-- The pieces as the loops take them. -/
def cut (command : List UInt8) : Option (List Piece) :=
  match command with
  | [] => some []
  | c :: rest =>
    if starts c rest then
      match found : close_text opening rest.tail with
      | none => none
      | some p =>
        have := length_close_text found
        (cut p.2).map (.sub p.1 :: ·)
    else (cut rest).map (.lit c :: ·)
termination_by command.length
decreasing_by
  · rw [length_tail] at this
    simp only [length_cons]
    omega
  · exact Nat.lt_succ_self _

section
variable {σ : Type} (commands : Commands σ)

/-- One round, for a piece. -/
def put (p : σ × Buffer) : Piece → Except Fault (σ × Buffer)
  | .lit c => (append_char p.2 c).map fun result => (p.1,result)
  | .sub command => (command.foldlM append_char substitution_buffer).bind fun substitution => run_substitution commands p.1 substitution p.2

variable {commands}

variable {r : σ × Buffer} {ps : List Piece} {c : UInt8} {rest : List UInt8}

theorem foldlM_put_ok {p : σ × Buffer} {piece : Piece} :
    (piece :: ps).foldlM (put commands) p = .ok r ↔ ∃ q, put commands p piece = .ok q ∧ ps.foldlM (put commands) q = .ok r := by
  rw [List.foldlM_cons]
  exact bind_ok

/-- A round at a `$(`. -/
theorem substitution_loop_starts {w : σ} {result : Buffer} (start : starts c rest) :
    substitution_loop commands w (c :: rest) result = .ok r ↔ ∃ p, command_loop opening rest.tail substitution_buffer = .ok p ∧
      ∃ ran, run_substitution commands w p.1 result = .ok ran ∧ substitution_loop commands ran.1 p.2 ran.2 = .ok r := by
  rw [substitution_loop,if_pos start]
  split
  case h_1 fault found => exact iff_of_false (fun no => by cases no) (fun ⟨_,no,_⟩ => by rw [found] at no; cases no)
  case h_2 p found =>
    rw [bind_ok,found]
    exact ⟨fun ran => ⟨p,rfl,ran⟩,fun ⟨_,same,ran⟩ => by cases same; exact ran⟩

theorem cut_starts (start : starts c rest) :
    cut (c :: rest) = some ps ↔ ∃ p, close_text opening rest.tail = some p ∧ ∃ qs, cut p.2 = some qs ∧ .sub p.1 :: qs = ps := by
  rw [cut,if_pos start]
  split
  case h_1 found => exact iff_of_false (fun no => by cases no) (fun ⟨_,no,_⟩ => by rw [found] at no; cases no)
  case h_2 p found =>
    rw [map_eq_some_iff,found]
    exact ⟨fun all => ⟨p,rfl,all⟩,fun ⟨_,same,all⟩ => by cases same; exact all⟩

theorem cut_other (other : ¬ starts c rest) :
    cut (c :: rest) = some ps ↔ ∃ qs, cut rest = some qs ∧ .lit c :: qs = ps := by
  rw [cut,if_neg other,map_eq_some_iff]

/-- The loop is one over the pieces. -/
theorem substitution_loop_ok {w : σ} {command : List UInt8} {result : Buffer} :
    substitution_loop commands w command result = .ok r ↔ ∃ ps, cut command = some ps ∧ ps.foldlM (put commands) (w,result) = .ok r := by
  generalize size : command.length = n
  induction n using Nat.strong_induction_on generalizing w command result with
  | _ n ih =>
    cases command with
    | nil =>
      rw [substitution_loop,cut]
      constructor
      · intro same
        exact ⟨[],rfl,same⟩
      · rintro ⟨ps,same,all⟩
        cases same
        exact all
    | cons c rest =>
      rw [length_cons] at size
      by_cases start : starts c rest
      · rw [substitution_loop_starts start]
        constructor
        · rintro ⟨⟨b,behind⟩,looped,ran,put_here,all⟩
          obtain ⟨s,closed,appended⟩ := command_loop_ok.1 looped
          have shorter := length_close_text closed
          rw [length_tail] at shorter
          obtain ⟨qs,cut_behind,all⟩ := (ih _ (by dsimp only at shorter ⊢; omega) rfl).1 all
          exact ⟨_,(cut_starts start).2 ⟨_,closed,qs,cut_behind,rfl⟩,foldlM_put_ok.2 ⟨ran,bind_ok.2 ⟨b,appended,put_here⟩,all⟩⟩
        · rintro ⟨ps,cut_here,all⟩
          obtain ⟨⟨s,behind⟩,closed,qs,cut_behind,rfl⟩ := (cut_starts start).1 cut_here
          have shorter := length_close_text closed
          rw [length_tail] at shorter
          obtain ⟨ran,here,all⟩ := foldlM_put_ok.1 all
          obtain ⟨b,appended,put_here⟩ := bind_ok.1 here
          exact ⟨(b,behind),command_loop_ok.2 ⟨s,closed,appended⟩,ran,put_here,
            (ih _ (by dsimp only at shorter ⊢; omega) rfl).2 ⟨qs,cut_behind,all⟩⟩
      · rw [substitution_loop,if_neg start,bind_ok]
        constructor
        · rintro ⟨m,appended,all⟩
          obtain ⟨qs,cut_rest,all⟩ := (ih _ (by omega) rfl).1 all
          exact ⟨_,(cut_other start).2 ⟨qs,cut_rest,rfl⟩,foldlM_put_ok.2 ⟨(w,m),map_ok.2 ⟨m,appended,rfl⟩,all⟩⟩
        · rintro ⟨ps,cut_here,all⟩
          obtain ⟨qs,cut_rest,rfl⟩ := (cut_other start).1 cut_here
          obtain ⟨q,here,all⟩ := foldlM_put_ok.1 all
          obtain ⟨m,appended,rfl⟩ := map_ok.1 here
          exact ⟨m,appended,(ih _ (by omega) rfl).2 ⟨qs,cut_rest,all⟩⟩

end

/-! ### Parentheses and backslashes -/

section
variable {prev : UInt8} {escaped : Bool} {text s behind : List UInt8}

theorem close_text_backslash (closed : close_text prev text = some (s,behind)) : backslash ∉ s := by
  induction text generalizing prev s with
  | nil => cases closed
  | cons c rest ih =>
    rw [close_text] at closed
    split at closed
    · cases closed
      exact not_mem_nil
    · split at closed
      · exact ih closed
      · rename_i other
        obtain ⟨⟨s,_⟩,inner,same⟩ := map_eq_some_iff.1 closed
        cases same
        rw [mem_cons,not_or]
        exact ⟨fun here => other here.symm,ih inner⟩

/-- On a simple substitution the loop finds what is asked. -/
theorem close_text_simple (flag : prev = backslash ↔ escaped = true) (simple : Simple escaped text) :
    ∃ p, close_text prev text = some p ∧ command_text escaped 0 text = some p := by
  induction text generalizing prev escaped with
  | nil => cases escaped <;> exact simple.elim
  | cons c rest ih =>
    rw [close_text]
    cases escaped with
    | true =>
      obtain ⟨other,simple⟩ := simple
      obtain ⟨p,closed,found⟩ := ih (iff_of_false other (by decide)) simple
      have behind_backslash : ¬ (c = closing ∧ prev ≠ backslash) := fun both => both.2 (flag.2 rfl)
      rw [if_neg behind_backslash,if_neg other,closed,command_text,found]
      exact ⟨_,rfl,rfl⟩
    | false =>
      have plain : prev ≠ backslash := fun here => Bool.false_ne_true (flag.1 here)
      rw [Simple] at simple
      rw [command_text]
      by_cases skipped : c = backslash
      · rw [if_pos skipped] at simple
        obtain ⟨p,closed,found⟩ := ih (iff_of_true skipped rfl) simple
        have no_closing : ¬ (c = closing ∧ prev ≠ backslash) := by
          rintro ⟨rfl,_⟩
          exact absurd skipped (by decide)
        rw [if_neg no_closing,if_pos skipped,if_pos skipped,closed,found]
        exact ⟨p,rfl,rfl⟩
      · rw [if_neg skipped] at simple
        by_cases closes : c = closing
        · rw [if_pos ⟨closes,plain⟩,if_neg skipped,if_pos closes]
          exact ⟨_,rfl,rfl⟩
        · obtain ⟨other,simple⟩ := simple.resolve_left closes
          obtain ⟨p,closed,found⟩ := ih (iff_of_false skipped (by decide)) simple
          rw [if_neg (fun both => closes both.1),if_neg skipped,if_neg skipped,if_neg closes,if_neg other,closed,found]
          exact ⟨_,rfl,rfl⟩

/-- Inside further parentheses what is asked goes beyond the first one that closes. -/
theorem close_text_shorter {depth : Nat} {s' behind' : List UInt8} (flag : prev = backslash ↔ escaped = true)
    (closed : close_text prev text = some (s,behind)) (found : command_text escaped (depth + 1) text = some (s',behind'))
    (none_kept : backslash ∉ s') : s.length < s'.length := by
  induction text generalizing prev escaped depth s s' with
  | nil => cases closed
  | cons c rest ih =>
    rw [close_text] at closed
    cases escaped with
    | true =>
      obtain ⟨⟨t,_⟩,asked,same⟩ := map_eq_some_iff.1 found
      cases same
      rw [mem_cons,not_or] at none_kept
      have other : c ≠ backslash := fun here => none_kept.1 here.symm
      rw [if_neg (fun both => both.2 (flag.2 rfl)),if_neg other] at closed
      obtain ⟨⟨u,_⟩,inner,same⟩ := map_eq_some_iff.1 closed
      cases same
      exact Nat.succ_lt_succ (ih (iff_of_false other (by decide)) inner asked none_kept.2)
    | false =>
      have plain : prev ≠ backslash := fun here => Bool.false_ne_true (flag.1 here)
      have deep : ¬ depth + 1 = 0 := Nat.succ_ne_zero depth
      rw [command_text] at found
      by_cases skipped : c = backslash
      · simp only [if_pos skipped,if_neg deep] at found
        obtain ⟨⟨t,_⟩,_,same⟩ := map_eq_some_iff.1 found
        cases same
        exact absurd (skipped ▸ mem_cons_self ..) none_kept
      · rw [if_neg skipped] at found
        by_cases closes : c = closing
        · rw [if_pos ⟨closes,plain⟩] at closed
          rw [if_pos closes,if_neg deep] at found
          obtain ⟨⟨t,_⟩,_,same⟩ := map_eq_some_iff.1 found
          cases closed
          cases same
          exact Nat.succ_pos _
        · rw [if_neg (fun both => closes both.1),if_neg skipped] at closed
          rw [if_neg closes] at found
          obtain ⟨⟨u,_⟩,inner,same⟩ := map_eq_some_iff.1 closed
          cases same
          obtain ⟨⟨t,_⟩,asked,same⟩ := map_eq_some_iff.1 found
          cases same
          rw [mem_cons,not_or] at none_kept
          have flag : c = backslash ↔ false = true := iff_of_false skipped (by decide)
          split at asked
          · exact Nat.succ_lt_succ (ih flag inner asked none_kept.2)
          · exact Nat.succ_lt_succ (ih flag inner asked none_kept.2)

/-- Where the loop finds what is asked, the substitution is simple. -/
theorem simple_of_close {behind' : List UInt8} (flag : prev = backslash ↔ escaped = true)
    (closed : close_text prev text = some (s,behind)) (found : command_text escaped 0 text = some (s,behind')) : Simple escaped text := by
  have none_kept := close_text_backslash closed
  induction text generalizing prev escaped s with
  | nil => cases closed
  | cons c rest ih =>
    rw [close_text] at closed
    cases escaped with
    | true =>
      obtain ⟨⟨t,_⟩,asked,same⟩ := map_eq_some_iff.1 found
      cases same
      have other : c ≠ backslash := fun here => none_kept (here ▸ mem_cons_self ..)
      rw [if_neg (fun both => both.2 (flag.2 rfl)),if_neg other] at closed
      obtain ⟨⟨u,_⟩,inner,same⟩ := map_eq_some_iff.1 closed
      cases same
      exact ⟨other,ih (iff_of_false other (by decide)) inner asked (close_text_backslash inner)⟩
    | false =>
      have plain : prev ≠ backslash := fun here => Bool.false_ne_true (flag.1 here)
      rw [command_text] at found
      rw [Simple]
      by_cases skipped : c = backslash
      · have no_closing : ¬ (c = closing ∧ prev ≠ backslash) := by
          rintro ⟨rfl,_⟩
          exact absurd skipped (by decide)
        rw [if_pos skipped] at found ⊢
        rw [if_neg no_closing,if_pos skipped] at closed
        obtain ⟨⟨t,_⟩,asked,same⟩ := map_eq_some_iff.1 found
        cases same
        exact ih (iff_of_true skipped rfl) closed asked none_kept
      · rw [if_neg skipped] at found ⊢
        by_cases closes : c = closing
        · exact .inl closes
        · rw [if_neg (fun both => closes both.1),if_neg skipped] at closed
          rw [if_neg closes] at found
          obtain ⟨⟨u,_⟩,inner,same⟩ := map_eq_some_iff.1 closed
          cases same
          obtain ⟨⟨t,_⟩,asked,same⟩ := map_eq_some_iff.1 found
          cases same
          have flag : c = backslash ↔ false = true := iff_of_false skipped (by decide)
          split at asked
          · exact absurd (close_text_shorter flag inner asked (close_text_backslash inner)) (lt_irrefl _)
          · exact .inr ⟨‹_›,ih flag inner asked (close_text_backslash inner)⟩

end

section
variable {c : UInt8} {rest : List UInt8}

theorem pieces_starts {p : List UInt8 × List UInt8} (start : starts c rest) (found : command_text false 0 rest.tail = some p) :
    pieces (c :: rest) = .sub p.1 :: pieces p.2 := by
  rw [pieces,if_pos start]
  split
  case h_1 none_found => cases found.symm.trans none_found
  case h_2 q here => rw [some.inj (found.symm.trans here)]

theorem pieces_unclosed (start : starts c rest) (found : command_text false 0 rest.tail = none) :
    pieces (c :: rest) = .lit c :: pieces rest := by
  rw [pieces,if_pos start]
  split
  case h_1 => rfl
  case h_2 q here => cases found.symm.trans here

theorem pieces_other (other : ¬ starts c rest) : pieces (c :: rest) = .lit c :: pieces rest := by
  rw [pieces,if_neg other]

theorem plain_starts (start : starts c rest) :
    Plain (c :: rest) ↔ ∃ p, command_text false 0 rest.tail = some p ∧ Simple false rest.tail ∧ Plain p.2 := by
  rw [Plain,if_pos start]
  split
  case h_1 none_found => exact iff_of_false id (fun ⟨_,found,_⟩ => by cases none_found.symm.trans found)
  case h_2 p found =>
    refine ⟨fun both => ⟨p,found,both⟩,fun ⟨q,same,both⟩ => ?_⟩
    obtain rfl := some.inj (found.symm.trans same)
    exact both

theorem plain_other (other : ¬ starts c rest) : Plain (c :: rest) ↔ Plain rest := by rw [Plain,if_neg other]

end

/-- The loops take the pieces that are asked. -/
theorem cut_pieces (command : List UInt8) : cut command = some (pieces command) ↔ Plain command := by
  generalize size : command.length = n
  induction n using Nat.strong_induction_on generalizing command with
  | _ n ih =>
    cases command with
    | nil =>
      rw [cut,pieces,Plain]
      exact iff_of_true rfl trivial
    | cons c rest =>
      have flag : opening = backslash ↔ false = true := by decide
      rw [length_cons] at size
      by_cases start : starts c rest
      · rw [cut_starts start,plain_starts start]
        constructor
        · rintro ⟨⟨s,behind⟩,closed,qs,cut_behind,same⟩
          cases found : command_text false 0 rest.tail with
          | none =>
            rw [pieces_unclosed start found] at same
            cases same
          | some p =>
            rw [pieces_starts start found] at same
            obtain ⟨first,rfl⟩ := List.cons.inj same
            obtain rfl : s = p.1 := Piece.sub.inj first
            have simple := simple_of_close flag closed found
            obtain ⟨q,again,asked⟩ := close_text_simple flag simple
            obtain rfl : p = q := some.inj (found.symm.trans asked)
            obtain rfl : behind = p.2 := congrArg Prod.snd (some.inj (closed.symm.trans again))
            have shorter := length_command_text found
            rw [length_tail] at shorter
            exact ⟨p,rfl,simple,(ih _ (by omega) _ rfl).1 cut_behind⟩
        · rintro ⟨p,found,simple,plain⟩
          obtain ⟨q,closed,asked⟩ := close_text_simple flag simple
          obtain rfl : p = q := some.inj (found.symm.trans asked)
          have shorter := length_command_text found
          rw [length_tail] at shorter
          exact ⟨p,closed,pieces p.2,(ih _ (by omega) _ rfl).2 plain,(pieces_starts start found).symm⟩
      · rw [cut_other start,plain_other start,pieces_other start,← ih _ (by omega) rest rfl]
        exact ⟨fun ⟨qs,cut_rest,same⟩ => by rw [cut_rest,(List.cons.inj same).2],fun cut_rest => ⟨_,cut_rest,rfl⟩⟩

/-! ### The results -/

section
variable {σ : Type} (commands : Commands σ)

/-- A piece put in its place as the loop does it: the newline may be one that stood there before. -/
def strip (s : σ × List UInt8) : Piece → σ × List UInt8
  | .lit c => (s.1,s.2 ++ [c])
  | .sub command => ((commands.received s.1 command).1,chomp (s.2 ++ (commands.received s.1 command).2))

variable {commands}

variable {p q : σ × Buffer} {ps : List Piece}

theorem put_strip {piece : Piece} (ran : put commands p piece = .ok q) :
    (q.1,q.2.text) = strip commands (p.1,p.2.text) piece := by
  cases piece with
  | lit c =>
    obtain ⟨m,appended,rfl⟩ := map_ok.1 ran
    rw [strip,(append_char_text appended).1]
  | sub command =>
    obtain ⟨substitution,filled,ran⟩ := bind_ok.1 ran
    rw [run_substitution,(append_all_text filled).1] at ran
    split at ran
    · obtain ⟨m,appended,rfl⟩ := map_ok.1 ran
      rw [strip,(append_all_text appended).1]
      rfl
    · cases ran

theorem puts_strip (ran : ps.foldlM (put commands) p = .ok q) :
    (q.1,q.2.text) = ps.foldl (strip commands) (p.1,p.2.text) := by
  induction ps generalizing p with
  | nil =>
    cases ran
    rfl
  | cons piece ps ih =>
    obtain ⟨m,first,rest⟩ := foldlM_put_ok.1 ran
    rw [foldl_cons,← put_strip first,ih rest]

theorem puts_named (ran : ps.foldlM (put commands) p = .ok q) :
    ∀ command, .sub command ∈ ps → command ≠ [] ∧ command.length ≤ 2 ^ 30 := by
  induction ps generalizing p with
  | nil => exact fun _ listed => absurd listed not_mem_nil
  | cons piece ps ih =>
    obtain ⟨m,first,rest⟩ := foldlM_put_ok.1 ran
    intro command listed
    rcases mem_cons.1 listed with rfl | listed
    · obtain ⟨substitution,filled,ran⟩ := bind_ok.1 first
      rw [run_substitution,(append_all_text filled).2] at ran
      split at ran
      · rename_i ended
        have short := append_all_ok substitution_grown rfl filled
        refine ⟨?_,by omega⟩
        rintro rfl
        exact absurd ended (by decide)
      · cases ran
    · exact ih rest command listed

theorem length_chomp (text : List UInt8) : (chomp text).length ≤ text.length := by
  rw [chomp]
  split
  · rw [List.length_dropLast]
    exact Nat.sub_le _ _
  · exact le_rfl

theorem chomp_grown {b : Buffer} {n : Nat} (grown : Grown b n) : Grown { b with text := chomp b.text } n := by
  have shorter := length_chomp b.text
  refine ⟨shorter.trans grown.length,grown.most,grown.room.imp ?_ id⟩
  rintro ⟨k,small,power,short,block⟩
  exact ⟨k,small,power,shorter.trans_lt short,block⟩

theorem put_grown {w : σ} {b : Buffer} {n : Nat} {piece : Piece} (grown : Grown b n) (fewer : n + most piece ≤ 2 ^ 30)
    (named : ∀ command, piece = .sub command → command ≠ [] ∧ command.length ≤ 2 ^ 30) :
    ∃ q n', put commands (w,b) piece = .ok q ∧ n' ≤ n + most piece ∧ Grown q.2 n' ∧
      ((b.terminated = true ∨ ∃ c, piece = .lit c) → q.2.terminated = true) := by
  cases piece with
  | lit c =>
    obtain ⟨m,appended,more⟩ := append_char_grown grown fewer c
    exact ⟨(w,m),n + 1,map_ok.2 ⟨m,appended,rfl⟩,le_rfl,more,fun _ => (append_char_text appended).2⟩
  | sub command =>
    obtain ⟨some_text,short⟩ := named command rfl
    obtain ⟨substitution,filled,_⟩ := append_all_grown substitution_grown (by omega : 0 + command.length ≤ 2 ^ 30)
    obtain ⟨text,terminated⟩ := append_all_text filled
    have ended : substitution.terminated = true := by
      rw [terminated]
      simp [some_text]
    have bounded := commands.bounded w substitution.text
    rw [most] at fewer
    obtain ⟨m,appended,more⟩ := append_all_grown grown (by omega : n + (commands.received w substitution.text).2.length ≤ 2 ^ 30)
    refine ⟨((commands.received w substitution.text).1,{ m with text := chomp m.text }),_,bind_ok.2 ⟨substitution,filled,?_⟩,?_,
      chomp_grown more,?_⟩
    · rw [run_substitution,if_pos ended,map_ok]
      exact ⟨m,appended,rfl⟩
    · rw [most]
      omega
    · rintro (before | ⟨c,no⟩)
      · dsimp only
        rw [(append_all_text appended).2,before,Bool.true_or]
      · cases no

theorem puts_grown {w : σ} {b : Buffer} {n : Nat} {ps : List Piece} (grown : Grown b n) (fewer : n + (ps.map most).sum ≤ 2 ^ 30)
    (named : ∀ command, .sub command ∈ ps → command ≠ [] ∧ command.length ≤ 2 ^ 30) :
    ∃ q, ps.foldlM (put commands) (w,b) = .ok q ∧ ((b.terminated = true ∨ ∃ c, .lit c ∈ ps) → q.2.terminated = true) := by
  induction ps generalizing w b n with
  | nil => exact ⟨(w,b),rfl,fun or => or.resolve_right fun ⟨_,no⟩ => not_mem_nil no⟩
  | cons piece ps ih =>
    rw [map_cons,List.sum_cons] at fewer
    obtain ⟨⟨v,m⟩,k,first,more,larger,ended⟩ := @put_grown σ commands w b n piece grown (by omega)
      (fun command here => named command (here ▸ mem_cons_self ..))
    obtain ⟨q,rest,terminated⟩ := ih larger (by omega) (fun command listed => named command (List.mem_cons_of_mem _ listed))
    refine ⟨q,foldlM_put_ok.2 ⟨_,first,rest⟩,?_⟩
    rintro (before | ⟨c,listed⟩)
    · exact terminated (.inl (ended (.inl before)))
    · rcases mem_cons.1 listed with here | listed
      · exact terminated (.inl (ended (.inr ⟨c,here.symm⟩)))
      · exact terminated (.inr ⟨c,listed⟩)

end

theorem chomp_kept {text : List UInt8} (other : text.getLast? ≠ some newline) : chomp text = text := by rw [chomp,if_neg other]

theorem chomp_newline (text : List UInt8) : chomp (text ++ [newline]) = text := by
  rw [chomp,List.getLast?_concat,if_pos rfl,List.dropLast_concat]

theorem chomp_append (text : List UInt8) {output : List UInt8} (some_output : output ≠ []) :
    chomp (text ++ output) = text ++ chomp output := by
  obtain ⟨front,last,rfl⟩ := List.eq_nil_or_concat' output |>.resolve_left some_output
  rw [← append_assoc]
  by_cases here : last = newline
  · rw [here,chomp_newline,chomp_newline]
  · rw [chomp_kept (by rw [List.getLast?_concat]; simpa using here),chomp_kept (by rw [List.getLast?_concat]; simpa using here),
      append_assoc]

section
variable {σ : Type} {commands : Commands σ}

/-- Nothing before a substitution is lost: there is no newline before it. -/
theorem strip_substitute {w : σ} {text : List UInt8} {ps : List Piece} (separated : ps.IsChain Follows)
    (first : ∀ command, ps.head? = some (.sub command) → text.getLast? ≠ some newline) :
    ps.foldl (strip commands) (w,text) = ps.foldl (substitute commands) (w,text) := by
  induction ps generalizing w text with
  | nil => rfl
  | cons piece ps ih =>
    have tail := separated.tail
    have next (command : List UInt8) (here : ps.head? = some (.sub command)) : ∃ c, piece = .lit c ∧ c ≠ newline := by
      cases ps with
      | nil => cases here
      | cons q ps =>
        cases here
        exact (List.isChain_cons_cons.1 separated).1 ⟨command,rfl⟩
    rw [foldl_cons,foldl_cons]
    cases piece with
    | lit c =>
      apply ih tail
      intro command here
      obtain ⟨c,same,other⟩ := next command here
      cases same
      rw [List.getLast?_concat]
      simpa using other
    | sub command =>
      have same : strip commands (w,text) (.sub command) = substitute commands (w,text) (.sub command) := by
        rw [strip,substitute]
        cases printed : (commands.received w command).2 with
        | nil => rw [append_nil,chomp_kept (first command rfl),chomp,if_neg (by simp),append_nil]
        | cons c output => rw [chomp_append text (List.cons_ne_nil c output)]
      rw [same]
      apply ih tail
      intro other here
      obtain ⟨c,no,_⟩ := next other here
      cases no

/-- Newlines that are lost are not made up for. -/
theorem length_strip {w : σ} {text more : List UInt8} {lost : Nat} {ps : List Piece} (longer : text.length + lost ≤ more.length) :
    (ps.foldl (strip commands) (w,text)).2.length + lost ≤ (ps.foldl (substitute commands) (w,more)).2.length := by
  induction ps generalizing w text more with
  | nil => exact longer
  | cons piece ps ih =>
    rw [foldl_cons,foldl_cons]
    cases piece with
    | lit c =>
      apply ih
      dsimp only
      rw [length_append,length_append]
      omega
    | sub command =>
      apply ih
      dsimp only
      by_cases silent : (commands.received w command).2 = []
      · have shorter := length_chomp text
        rw [silent,append_nil,length_append]
        omega
      · rw [chomp_append text silent,length_append,length_append]
        omega

theorem world_strip {w : σ} {text more : List UInt8} {ps : List Piece} :
    (ps.foldl (strip commands) (w,text)).1 = (ps.foldl (substitute commands) (w,more)).1 := by
  induction ps generalizing w text more with
  | nil => rfl
  | cons piece ps ih =>
    rw [foldl_cons,foldl_cons]
    cases piece with
    | lit c => exact ih
    | sub command => exact ih

/-- A newline that stands before a substitution without output. -/
theorem newline_lost {w u v : σ} {before behind : List Piece} {p : Piece} {command : List UInt8}
    (reached : (before.foldl (strip commands) (w,[])).1 = u) (stripped : ∀ text, strip commands (u,text) p = (v,text ++ [newline]))
    (asked : ∀ text, substitute commands (u,text) p = (v,text ++ [newline])) (silent : (commands.received v command).2 = []) :
    ((before ++ p :: .sub command :: behind).foldl (strip commands) (w,[])).2 ≠
      ((before ++ p :: .sub command :: behind).foldl (substitute commands) (w,[])).2 := by
  intro same
  have also := @world_strip σ commands w [] [] before
  have shorter := @length_strip σ commands w [] [] 0 before le_rfl
  rw [List.foldl_append,List.foldl_append] at same
  generalize before.foldl (strip commands) (w,[]) = s at *
  generalize before.foldl (substitute commands) (w,[]) = t at *
  obtain ⟨_,text⟩ := s
  obtain ⟨_,more⟩ := t
  dsimp only at reached also shorter
  subst also reached
  rw [foldl_cons,foldl_cons,foldl_cons,foldl_cons,stripped,asked,strip,substitute] at same
  dsimp only at same
  rw [silent,append_nil,chomp_newline] at same
  have lost := @length_strip σ commands (commands.received v command).1 text (more ++ [newline] ++ chomp []) 1 behind (by
    rw [length_append,length_append,List.length_singleton]
    omega)
  rw [same] at lost
  omega

end

/-! ### What commands may print -/

/-- Commands whose output depends on their text only. -/
def always (f : List UInt8 → List UInt8) (short : ∀ command, (f command).length ≤ PIPE_BUFFER_SIZE) : Commands Unit :=
  ⟨fun _ command => ((),f command),fun _ => short⟩

/-- One character each. -/
def letters (f : List UInt8 → UInt8) : Commands Unit :=
  always (fun command => [f command]) fun _ => by
    rw [List.length_singleton]
    decide

/-- As much as the pipe holds. -/
def lasting (x : UInt8) : Commands Unit := always (fun _ => List.replicate PIPE_BUFFER_SIZE x) fun _ => by rw [length_replicate]

/-- Outputs that are given one after the other, and then nothing. -/
def script : Commands (List (List UInt8)) :=
  ⟨fun w _ => (w.tail,(w.headD []).take PIPE_BUFFER_SIZE),fun _ _ => List.length_take_le _ _⟩

def shown (f : List UInt8 → UInt8) : Piece → UInt8
  | .lit c => c
  | .sub command => f command

section
variable {f : List UInt8 → UInt8} (other : ∀ command, f command ≠ newline) (text : List UInt8) (ps : List Piece)
include other

theorem strip_letters : ps.foldl (strip (letters f)) ((),text) = ((),text ++ ps.map (shown f)) := by
  induction ps generalizing text with
  | nil => rw [map_nil,append_nil,List.foldl_nil]
  | cons piece ps ih =>
    have one : strip (letters f) ((),text) piece = ((),text ++ [shown f piece]) := by
      cases piece with
      | lit c => rfl
      | sub command =>
        change ((),chomp (text ++ [f command])) = ((),text ++ [f command])
        rw [chomp_kept]
        rw [List.getLast?_concat]
        simpa using other command
    rw [foldl_cons,one,ih,append_assoc,List.singleton_append,map_cons]

theorem substitute_letters : ps.foldl (substitute (letters f)) ((),text) = ((),text ++ ps.map (shown f)) := by
  induction ps generalizing text with
  | nil => rw [map_nil,append_nil,List.foldl_nil]
  | cons piece ps ih =>
    have one : substitute (letters f) ((),text) piece = ((),text ++ [shown f piece]) := by
      cases piece with
      | lit c => rfl
      | sub command =>
        change ((),text ++ chomp [f command]) = ((),text ++ [f command])
        rw [chomp_kept]
        simpa using other command
    rw [foldl_cons,one,ih,append_assoc,List.singleton_append,map_cons]

end

theorem piece_eq {p q : Piece} (same : ∀ f : List UInt8 → UInt8, (∀ command, f command ≠ newline) → shown f p = shown f q) : p = q := by
  cases p with
  | lit c =>
    cases q with
    | lit d => exact congrArg Piece.lit (same (fun _ => 0x78) (fun _ => by decide))
    | sub command =>
      have first : c = 0x78 := same (fun _ => 0x78) (fun _ => by decide)
      have second : c = 0x79 := same (fun _ => 0x79) (fun _ => by decide)
      exact absurd (first.symm.trans second) (by decide)
  | sub command =>
    cases q with
    | lit d =>
      have first : 0x78 = d := same (fun _ => 0x78) (fun _ => by decide)
      have second : 0x79 = d := same (fun _ => 0x79) (fun _ => by decide)
      exact absurd (first.trans second.symm) (by decide)
    | sub other =>
      have told := same (fun s => if s = command then 0x78 else 0x79) (fun s => by split <;> decide)
      simp only [shown,if_true] at told
      split at told
      · rename_i here
        rw [here]
      · exact absurd told (by decide)

/-- What the commands print tells the pieces apart. -/
theorem pieces_eq {ps qs : List Piece}
    (same : ∀ f : List UInt8 → UInt8, (∀ command, f command ≠ newline) → ps.map (shown f) = qs.map (shown f)) : ps = qs := by
  induction ps generalizing qs with
  | nil =>
    have empty := same (fun _ => 0x78) (fun _ => by decide)
    rw [map_nil] at empty
    exact (List.map_eq_nil_iff.1 empty.symm).symm
  | cons p ps ih =>
    cases qs with
    | nil => cases same (fun _ => 0x78) (fun _ => by decide)
    | cons q qs =>
      have first := piece_eq fun f other => (List.cons.inj (same f other)).1
      have rest := ih fun f other => (List.cons.inj (same f other)).2
      rw [first,rest]

/-- Without output and without characters of the command nothing is written. -/
theorem script_unwritten {w : List (List UInt8)} {q : List (List UInt8) × Buffer} {ps : List Piece} (silent : w = [])
    (no_literal : ∀ c, .lit c ∉ ps) (ran : ps.foldlM (put script) (w,b) = .ok q) : q.2.terminated = b.terminated := by
  induction ps generalizing w b with
  | nil =>
    cases ran
    rfl
  | cons piece ps ih =>
    obtain ⟨⟨v,m⟩,first,rest⟩ := foldlM_put_ok.1 ran
    cases piece with
    | lit c => exact absurd (mem_cons_self ..) (no_literal c)
    | sub command =>
      obtain ⟨substitution,_,ran⟩ := bind_ok.1 first
      rw [run_substitution] at ran
      split at ran
      · obtain ⟨k,appended,same⟩ := map_ok.1 ran
        subst silent
        cases same
        cases appended
        have kept := ih rfl (fun c listed => no_literal c (List.mem_cons_of_mem _ listed)) rest
        exact kept
      · cases ran

theorem lasting_room {x : UInt8} (other : x ≠ newline) {q : Unit × Buffer} {ps : List Piece} (grown : Grown b n)
    (all : b.text.length = n) (ran : ps.foldlM (put (lasting x)) ((),b) = .ok q) : n + (ps.map most).sum ≤ 2 ^ 30 := by
  induction ps generalizing b n with
  | nil => exact grown.most
  | cons piece ps ih =>
    obtain ⟨⟨_,m⟩,first,rest⟩ := foldlM_put_ok.1 ran
    rw [map_cons,List.sum_cons,← Nat.add_assoc]
    cases piece with
    | lit c =>
      obtain ⟨k,appended,same⟩ := map_ok.1 first
      cases same
      obtain ⟨k,again,more⟩ := append_char_grown grown (append_char_full grown all appended) c
      obtain rfl := Except.ok.inj (appended.symm.trans again)
      apply ih more _ rest
      rw [(append_char_text appended).1,length_append,all]
      rfl
    | sub command =>
      obtain ⟨substitution,_,here⟩ := bind_ok.1 first
      rw [run_substitution] at here
      split at here
      · obtain ⟨k,appended,same⟩ := map_ok.1 here
        cases same
        change (List.replicate PIPE_BUFFER_SIZE x).foldlM append_char b = .ok k at appended
        have fewer := append_all_ok grown all appended
        obtain ⟨k,again,more⟩ := append_all_grown grown fewer
        obtain rfl := Except.ok.inj (appended.symm.trans again)
        rw [length_replicate] at more
        have kept : chomp k.text = k.text := by
          apply chomp_kept
          rw [(append_all_text appended).1,List.getLast?_append,List.getLast?_replicate,if_neg (by decide)]
          simpa using other
        apply ih (n := n + PIPE_BUFFER_SIZE) (chomp_grown more) _ rest
        dsimp only
        rw [kept,(append_all_text appended).1,length_append,length_replicate,all]
      · cases here

/-- Any outputs can be what comes behind some pieces. -/
theorem script_reaches (v : List (List UInt8)) (ps : List Piece) : ∃ w, ∀ text, (ps.foldl (strip script) (w,text)).1 = v := by
  induction ps with
  | nil => exact ⟨v,fun _ => rfl⟩
  | cons piece ps ih =>
    obtain ⟨w,reached⟩ := ih
    cases piece with
    | lit c => exact ⟨w,fun text => reached _⟩
    | sub command => exact ⟨[] :: w,fun text => reached _⟩

theorem script_separated {ps : List Piece}
    (same : ∀ w, (ps.foldl (strip script) (w,[])).2 = (ps.foldl (substitute script) (w,[])).2) : ps.IsChain Follows := by
  rw [List.isChain_iff_forall_rel_of_append_cons_cons]
  rintro p q before behind rfl ⟨command,rfl⟩
  cases p with
  | lit c =>
    refine ⟨c,rfl,?_⟩
    rintro rfl
    obtain ⟨w,reached⟩ := script_reaches [] before
    exact newline_lost (reached []) (fun _ => rfl) (fun _ => rfl) rfl (same w)
  | sub other =>
    obtain ⟨w,reached⟩ := script_reaches [[newline,newline]] before
    have printed : (script.received [[newline,newline]] other) = ([],[newline,newline]) := by
      change ([],List.take PIPE_BUFFER_SIZE [newline,newline]) = _
      rw [List.take_of_length_le (by decide)]
    refine absurd (same w) (newline_lost (v := []) (reached []) ?_ ?_ rfl)
    · intro text
      rw [strip,printed,chomp_append text (List.cons_ne_nil _ _)]
      rfl
    · intro text
      rw [substitute,printed]
      rfl

/-! ### Commands and lines -/

theorem execute_ok {σ : Type} {commands : Commands σ} {w : σ} {command : List UInt8} {r : σ × List UInt8} :
    execute_command_substitutions commands w command = .ok r ↔ ∃ ps, cut command = some ps ∧
      ∃ q, ps.foldlM (put commands) (w,result_buffer) = .ok q ∧ q.2.terminated = true ∧ ps.foldl (strip commands) (w,[]) = r := by
  rw [execute_command_substitutions,bind_ok]
  constructor
  · rintro ⟨q,looped,ended⟩
    obtain ⟨ps,taken,ran⟩ := substitution_loop_ok.1 looped
    split at ended
    · cases ended
      exact ⟨ps,taken,q,ran,‹_›,(puts_strip ran).symm⟩
    · cases ended
  · rintro ⟨ps,taken,q,ran,ended,rfl⟩
    refine ⟨q,substitution_loop_ok.2 ⟨ps,taken,ran⟩,?_⟩
    rw [if_pos ended,puts_strip ran]
    rfl

/-- What comes out is what is asked, whatever commands print, exactly for the sound commands. -/
theorem execute_command_substitutions_iff (command : List UInt8) :
    (∀ (σ : Type) (commands : Commands σ) (w : σ), execute_command_substitutions commands w command = .ok (substituted commands w command)) ↔
      Sound command := by
  constructor
  · intro all
    have taken : cut command = some (pieces command) := by
      obtain ⟨ps,taken,_⟩ := execute_ok.1 (all Unit (letters fun _ => 0x78) ())
      rw [taken]
      congr 1
      apply pieces_eq
      intro f other
      obtain ⟨qs,again,_,_,_,same⟩ := execute_ok.1 (all Unit (letters f) ())
      obtain rfl := some.inj (taken.symm.trans again)
      rw [substituted,strip_letters other,substitute_letters other] at same
      exact List.append_cancel_left (congrArg Prod.snd same)
    have runs (σ : Type) (commands : Commands σ) (w : σ) :
        ∃ q, (pieces command).foldlM (put commands) (w,result_buffer) = .ok q ∧ q.2.terminated = true ∧
          (pieces command).foldl (strip commands) (w,[]) = substituted commands w command := by
      obtain ⟨qs,again,ran⟩ := execute_ok.1 (all σ commands w)
      obtain rfl := some.inj (taken.symm.trans again)
      exact ran
    refine ⟨(cut_pieces command).1 taken,?_,?_,?_,?_⟩
    · apply script_separated
      intro w
      obtain ⟨_,_,_,same⟩ := runs _ script w
      exact congrArg Prod.snd same
    · by_contra none
      obtain ⟨q,ran,ended,_⟩ := runs _ script []
      have unwritten := script_unwritten rfl (fun c listed => none ⟨c,listed⟩) ran
      rw [ended] at unwritten
      cases unwritten
    · obtain ⟨q,ran,_⟩ := runs _ script []
      exact puts_named ran
    · obtain ⟨q,ran,_⟩ := runs _ (lasting 0x78) ()
      have room := lasting_room (by decide) result_grown rfl ran
      omega
  · intro sound σ commands w
    obtain ⟨q,ran,ended⟩ := @puts_grown σ commands w result_buffer 0 (pieces command) result_grown (by have := sound.room; omega)
      sound.substitutions
    refine execute_ok.2 ⟨_,(cut_pieces command).2 sound.plain,q,ran,ended (.inr sound.literal),?_⟩
    exact strip_substitute sound.separated fun _ _ => by simp

/-- The two of them: for a command line and for the words of one. -/
theorem expansions_right (command : List UInt8) {envp : Environment.Envp} (entries : ∀ e ∈ envp, 0 ∉ e) {argv : List (List UInt8)}
    (terminated : ∀ text ∈ argv, 0 ∉ text) :
    ((∀ (σ : Type) (commands : Commands σ) (w : σ),
        execute_command_substitutions commands w command = .ok (substituted commands w command)) ↔ Sound command) ∧
      (∀ text ∈ argv, Expansion.read_env envp text = some (Expansion.expanded envp text) ↔ Expansion.Fits envp text) ∧
      (Expansion.argv_env_process envp argv = some (argv.map (Expansion.expanded envp)) ↔ ∀ text ∈ argv, Expansion.Fits envp text) :=
  ⟨execute_command_substitutions_iff command,fun text listed => Expansion.read_env_iff entries (terminated text listed),
    Expansion.argv_env_process_iff entries terminated⟩

/-- `e $(p)`, and `$A` where `A` is `b`. -/
theorem expansions_right_home : (∀ e ∈ [[0x41,0x3D,0x62]], (0 : UInt8) ∉ e) ∧ (∀ text ∈ [[dollar,0x41]], 0 ∉ text) ∧
    ((∀ (σ : Type) (commands : Commands σ) (w : σ), execute_command_substitutions commands w [0x65,0x20,dollar,opening,0x70,closing] =
        .ok (substituted commands w [0x65,0x20,dollar,opening,0x70,closing])) ↔ Sound [0x65,0x20,dollar,opening,0x70,closing]) ∧
      (∀ text ∈ [[dollar,0x41]], Expansion.read_env [[0x41,0x3D,0x62]] text = some (Expansion.expanded [[0x41,0x3D,0x62]] text) ↔
        Expansion.Fits [[0x41,0x3D,0x62]] text) ∧
      (Expansion.argv_env_process [[0x41,0x3D,0x62]] [[dollar,0x41]] = some ([[dollar,0x41]].map (Expansion.expanded [[0x41,0x3D,0x62]])) ↔
        ∀ text ∈ [[dollar,0x41]], Expansion.Fits [[0x41,0x3D,0x62]] text) :=
  ⟨by decide,by decide,expansions_right [0x65,0x20,dollar,opening,0x70,closing] (by decide) (by decide)⟩

/-- `x` and a newline before a substitution. -/
def broken_line : List UInt8 := [0x78,newline,dollar,opening,0x70,closing]

theorem broken_line_pieces : pieces broken_line = [.lit 0x78,.lit newline,.sub [0x70]] := by
  rw [broken_line,pieces_other (by decide),pieces_other (by decide),pieces_starts (p := ([0x70],[])) (by decide) (by decide),pieces]

theorem broken_line_cut : cut broken_line = some [.lit 0x78,.lit newline,.sub [0x70]] := by
  rw [← broken_line_pieces,cut_pieces,broken_line,plain_other (by decide),plain_other (by decide),plain_starts (by decide)]
  refine ⟨([0x70],[]),by decide,?_,?_⟩
  · exact .inr ⟨by decide,.inl rfl⟩
  · rw [Plain]
    trivial

/-- An entry whose value has 600 characters. -/
def long_entry : List UInt8 := 0x41 :: 0x3D :: List.replicate 600 0x78

theorem long_entry_expanded : Expansion.expanded [long_entry] [dollar,0x41] = List.replicate 600 0x78 := by
  rw [Expansion.expanded,if_pos rfl]
  change (some (List.replicate 600 0x78)).getD [] ++ Expansion.expanded [long_entry] [] = _
  rw [Expansion.expanded,append_nil,Option.getD_some]

/-- A `$(` that is not closed, a newline that is lost although nothing is printed, and a value that is too long. -/
theorem expansions_wrong :
    execute_command_substitutions script [] [dollar,opening] = .error .past_end ∧
      execute_command_substitutions script [] broken_line = .ok ([],[0x78]) ∧ substituted script [] broken_line = ([],[0x78,newline]) ∧
      Expansion.read_env [long_entry] [dollar,0x41] ≠ some (Expansion.expanded [long_entry] [dollar,0x41]) := by
  refine ⟨?_,?_,?_,?_⟩
  · rw [execute_command_substitutions,substitution_loop,if_pos (by decide)]
    rfl
  · rw [execute_ok]
    exact ⟨_,broken_line_cut,_,rfl,rfl,rfl⟩
  · rw [substituted,broken_line_pieces]
    rfl
  · intro right
    have entries : ∀ e ∈ [long_entry], (0 : UInt8) ∉ e := by
      intro e listed
      rw [List.mem_singleton.1 listed,long_entry,mem_cons,mem_cons]
      rintro (zero | zero | zero)
      · exact absurd zero (by decide)
      · exact absurd zero (by decide)
      · exact absurd (List.eq_of_mem_replicate zero) (by decide)
    have fits := ((Expansion.read_env_iff entries (by decide)).1 right).2
    rw [long_entry_expanded,length_replicate] at fits
    omega

end MicroOS.Substitution

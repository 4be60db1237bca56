import MicroOS.Strings

/-!
Formatted output: the number printers and the two `vsprintf` loops, over a
format's bytes and an argument list, and the text each of them stores.
-/
namespace MicroOS.Formatting
open Memory Strings

/-- An argument: the bytes of a string, or a 32-bit word. -/
inductive Arg
  | text (s : List UInt8)
  | word (w : BitVec 32)

/-- "0123456789abcdefghijklmnopqrstuvwxyz" -/
def digits : List UInt8 :=
  [48,49,50,51,52,53,54,55,56,57,97,98,99,100,101,102,103,104,105,106,107,108,109,110,111,112,113,114,115,116,117,118,
    119,120,121,122]

/-- `do { *--p = digits[x % base]; x /= base; } while (x)`, with `room` bytes
    before `p` and the text from `p` on; an index outside `digits` has no result. -/
def put_digits (base : Nat) : Nat → Int → List UInt8 → Option (List UInt8)
  | 0,_,_ => none
  | room+1,x,p =>
    let index := x.tmod base
    if index < 0 then none else
    (digits[index.toNat]?).bind (fun d =>
      if x.tdiv base ≠ 0 then put_digits base room (x.tdiv base) (d :: p) else some (d :: p))

/-- The kernel's `print_num(unsigned long x, ..)`: the bytes it stores at `str`. -/
def kernel_print_num (x : BitVec 32) (base : Nat) : Option (List UInt8) :=
  if base > 36 then some [] else put_digits base 64 x.toNat []

/-- libc's `print_num(long x, ..)`; `x *= -1` wraps. -/
def print_num (x : BitVec 32) (base : Nat) : Option (List UInt8) :=
  if base > 36 then some [] else
  if x.toInt < 0 then (put_digits base 64 (-x).toInt []).map (fun p => 45 :: p)
  else put_digits base 64 x.toInt []

def print_num_unsigned (x : BitVec 32) (base : Nat) : Option (List UInt8) :=
  if base > 36 then some [] else put_digits base 64 x.toNat []

/-- The number printers behind `%d` and `%u`, and behind `%x` and `%p`. -/
structure Printers where
  decimal : BitVec 32 → Option (List UInt8)
  hex : BitVec 32 → Option (List UInt8)

def kernel_printers : Printers := ⟨fun n => kernel_print_num n 10,fun n => kernel_print_num n 16⟩

def libc_printers : Printers := ⟨fun n => print_num n 10,fun n => print_num_unsigned n 16⟩

/-- `n = va_arg(args, ..)` for a word, and what is stored for it. -/
def word_arg (shown : BitVec 32 → Option (List UInt8)) : List Arg → Option (List UInt8 × List Arg)
  | .word w :: args => (shown w).map (fun bytes => (bytes,args))
  | _ => none

/-- `s = va_arg(args, char*)`, copied up to its terminator. -/
def text_arg : List Arg → Option (List UInt8 × List Arg)
  | .text s :: args => some (s,args)
  | _ => none

/-- The `switch (*str)` behind a '%': what is stored, and the arguments left. -/
def conversion (printers : Printers) (k : UInt8) (args : List Arg) : Option (List UInt8 × List Arg) :=
  if k = 115 then text_arg args
  else if k = 99 then word_arg (fun w => some [UInt8.ofNat w.toNat]) args
  else if k = 100 ∨ k = 117 then word_arg printers.decimal args
  else if k = 120 ∨ k = 112 then word_arg printers.hex args
  else if k = 37 then some ([37],args)
  else some ([37,k],args)

/-- Memory after the loop, and the address behind the last byte it stored. -/
structure Stored where
  memory : Bytes
  last : Nat

/-- The loop over the format's bytes; a '%' with nothing behind it leaves by `goto out`. -/
def vsprintf_loop (printers : Printers) : List UInt8 → Bytes → Nat → List Arg → Option Stored
  | [],m,buf,_ => some ⟨storeByte m buf 0,buf+1⟩
  | b :: str,m,buf,args =>
    if b = 37 then
      match str with
      | [] => some ⟨m,buf⟩
      | k :: str =>
        (conversion printers k args).bind (fun out =>
          vsprintf_loop printers str (storeBytes m buf out.1) (buf + out.1.length) out.2)
    else vsprintf_loop printers str (storeByte m buf b) (buf+1) args

/-- `while (*src++) i++;` -/
def strlen : Nat → Bytes → Nat → Option Nat
  | 0,_,_ => none
  | fuel+1,m,src => if m src ≠ 0 then (strlen fuel m (src+1)).map (· + 1) else some 0

/-- What a call leaves: memory, the address behind the last byte stored, and `strlen(orig_buf)`. -/
structure Formatted where
  memory : Bytes
  last : Nat
  value : Nat

def vsprintf (printers : Printers) (fuel : Nat) (m : Bytes) (buf : Nat) (str : List UInt8) (args : List Arg) :
    Option Formatted :=
  (vsprintf_loop printers str m buf args).bind (fun stored =>
    (strlen fuel stored.memory buf).map (fun n => ⟨stored.memory,stored.last,n⟩))

def kernel_vsprintf := vsprintf kernel_printers

def libc_vsprintf := vsprintf libc_printers

/-- `char buf[1024] = {0}; vsprintf(buf, format, args);` -/
def fill_buffer (printers : Printers) (m : Bytes) (buf : Nat) (format : List UInt8) (args : List Arg) : Option Stored :=
  vsprintf_loop printers format (storeBytes m buf (List.replicate 1024 0)) buf args

def kernel_printf_buffer := fill_buffer kernel_printers

def debugf_intrnl_buffer := fill_buffer kernel_printers

def libc_printf_buffer := fill_buffer libc_printers

def fprintf_buffer := fill_buffer libc_printers

/-- "Kernel PANIC -> %s\n" -/
def panic_format : List UInt8 := [75,101,114,110,101,108,32,80,65,78,73,67,32,45,62,32,37,115,10]

/-- `abortf_intrnl` formats into its own buffer at `buf` and hands that string
    to `printf`, whose buffer is at `inner`. -/
def abortf_buffers (fuel : Nat) (m : Bytes) (buf inner : Nat) (format : List UInt8) (args : List Arg) :
    Option (Stored × Stored) :=
  (fill_buffer kernel_printers m buf format args).bind (fun own =>
    (strlen fuel own.memory buf).bind (fun n =>
      (kernel_printf_buffer own.memory inner panic_format [.text (slice own.memory buf n)]).map (fun printed =>
        (own,printed))))

inductive Conv
  | string | char | decimal | unsigned | hex | pointer | percent
  deriving DecidableEq

/-- The letter behind the '%'. -/
def Conv.letter : Conv → UInt8
  | .string => 115
  | .char => 99
  | .decimal => 100
  | .unsigned => 117
  | .hex => 120
  | .pointer => 112
  | .percent => 37

/-- A byte of literal text, or a conversion. -/
inductive Piece
  | literal (b : UInt8)
  | conv (k : Conv)

def Piece.bytes : Piece → List UInt8
  | .literal b => [b]
  | .conv k => [37,k.letter]

/-- The bytes of a format, which may end in a lone '%'. -/
def format_bytes (pieces : List Piece) (lone : Bool) : List UInt8 :=
  pieces.flatMap Piece.bytes ++ (if lone then [37] else [])

/-- Literal text is neither '%' nor the terminator, and the arguments match the
    conversions in number and type. -/
inductive Matches : List Piece → List Arg → Prop
  | done (args : List Arg) : Matches [] args
  | literal {b : UInt8} {pieces : List Piece} {args : List Arg} (nonzero : b ≠ 0) (other : b ≠ 37)
      (rest : Matches pieces args) : Matches (.literal b :: pieces) args
  | percent {pieces : List Piece} {args : List Arg} (rest : Matches pieces args) : Matches (.conv .percent :: pieces) args
  | string {s : List UInt8} {pieces : List Piece} {args : List Arg} (nonzero : ∀ c ∈ s, c ≠ 0)
      (rest : Matches pieces args) : Matches (.conv .string :: pieces) (.text s :: args)
  | word {k : Conv} {w : BitVec 32} {pieces : List Piece} {args : List Arg} (not_text : k ≠ .string)
      (not_sign : k ≠ .percent) (rest : Matches pieces args) : Matches (.conv k :: pieces) (.word w :: args)

/-- `n` in base `base`, most significant digit first. -/
def numeral (base n : Nat) : List UInt8 := (Nat.toDigits base n).map (fun c => UInt8.ofNat c.toNat)

def signed_text (v : Int) : List UInt8 := if v < 0 then 45 :: numeral 10 v.natAbs else numeral 10 v.natAbs

/-- Which of `%d` and `%u` read their word as a signed number. -/
structure Signs where
  decimal : Bool
  unsigned : Bool

/-- As the C standard has it. -/
def standard_signs : Signs := ⟨true,false⟩

def kernel_signs : Signs := ⟨false,false⟩

def libc_signs : Signs := ⟨true,true⟩

def number_text (signed : Bool) (w : BitVec 32) : List UInt8 :=
  if signed then signed_text w.toInt else numeral 10 w.toNat

def value_text (signs : Signs) : Conv → Arg → List UInt8
  | .string,.text s => s
  | .char,.word w => [UInt8.ofNat w.toNat]
  | .decimal,.word w => number_text signs.decimal w
  | .unsigned,.word w => number_text signs.unsigned w
  | .hex,.word w => numeral 16 w.toNat
  | .pointer,.word w => numeral 16 w.toNat
  | _,_ => []

/-- The text of a format over its arguments. -/
def text (signs : Signs) : List Piece → List Arg → List UInt8
  | [],_ => []
  | .literal b :: pieces,args => b :: text signs pieces args
  | .conv .percent :: pieces,args => 37 :: text signs pieces args
  | .conv k :: pieces,a :: args => value_text signs k a ++ text signs pieces args
  | .conv _ :: _,[] => []

/-- The words a conversion prints. -/
def words (wanted : Conv) : List Piece → List Arg → List (BitVec 32)
  | [],_ => []
  | .literal _ :: pieces,args => words wanted pieces args
  | .conv .percent :: pieces,args => words wanted pieces args
  | .conv k :: pieces,.word w :: args => if k = wanted then w :: words wanted pieces args else words wanted pieces args
  | .conv _ :: pieces,.text _ :: args => words wanted pieces args
  | .conv _ :: _,[] => []

theorem digit_of_char {d : Nat} (small : d < 16) : digits[d]? = some (UInt8.ofNat (Nat.digitChar d).toNat) := by
  interval_cases d <;> rfl

theorem numeral_below {base n : Nat} (below : n < base) : numeral base n = [UInt8.ofNat (Nat.digitChar n).toNat] := by
  rw [numeral,Nat.toDigits_of_lt_base below]
  rfl

theorem numeral_above {base n : Nat} (two : 1 < base) (above : base ≤ n) :
    numeral base n = numeral base (n / base) ++ [UInt8.ofNat (Nat.digitChar (n % base)).toNat] := by
  rw [numeral,Nat.toDigits_of_base_le two above]
  simp [numeral]

/-- One digit is stored, and the loop goes on with the quotient. -/
theorem put_digits_step {base room n : Nat} {p : List UInt8} (two : 1 < base) (small : base ≤ 16) :
    put_digits base (room + 1) n p =
      if n / base ≠ 0 then put_digits base room ((n / base : Nat) : Int) (UInt8.ofNat (Nat.digitChar (n % base)).toNat :: p)
      else some (UInt8.ofNat (Nat.digitChar (n % base)).toNat :: p) := by
  have digit := digit_of_char (lt_of_lt_of_le (Nat.mod_lt n (by omega)) small)
  have index : (n : Int).tmod base = ((n % base : Nat) : Int) := (Int.ofNat_tmod n base).symm
  have quotient : (n : Int).tdiv base = ((n / base : Nat) : Int) := (Int.ofNat_tdiv n base).symm
  have nonnegative : ¬ ((n % base : Nat) : Int) < 0 := by omega
  simp only [put_digits,index,quotient,Int.toNat_natCast,digit]
  rw [if_neg nonnegative]
  simp only [Option.bind_some,ne_eq,Int.natCast_eq_zero]

/-- The loop stores the numeral in front of what is there, while there is room. -/
theorem put_digits_numeral {base room n : Nat} {p : List UInt8} (two : 1 < base) (small : base ≤ 16)
    (fits : n < base ^ (room + 1)) : put_digits base (room + 1) n p = some (numeral base n ++ p) := by
  induction room generalizing n p with
  | zero =>
    have below : n < base := by simpa using fits
    rw [put_digits_step two small,if_neg (by simp [Nat.div_eq_of_lt below]),Nat.mod_eq_of_lt below,numeral_below below]
    rfl
  | succ room step =>
    rw [put_digits_step two small]
    by_cases below : n < base
    · rw [if_neg (by simp [Nat.div_eq_of_lt below]),Nat.mod_eq_of_lt below,numeral_below below]
      rfl
    · have above : base ≤ n := by omega
      have quotient : n / base ≠ 0 := (Nat.div_pos above (by omega)).ne'
      have shorter : n / base < base ^ (room + 1) := by
        apply Nat.div_lt_of_lt_mul
        rwa [← Nat.pow_succ']
      rw [if_pos quotient,step shorter,numeral_above two above]
      simp

theorem word_fits (w : BitVec 32) {base : Nat} (two : 1 < base) : w.toNat < base ^ 64 :=
  calc w.toNat < 2 ^ 32 := w.isLt
    _ ≤ 2 ^ 64 := by decide
    _ ≤ base ^ 64 := Nat.pow_le_pow_left two 64

theorem kernel_print_num_text (w : BitVec 32) {base : Nat} (two : 1 < base) (small : base ≤ 16) :
    kernel_print_num w base = some (numeral base w.toNat) := by
  have printed := @put_digits_numeral base 63 w.toNat [] two small (word_fits w two)
  rw [kernel_print_num,if_neg (by omega),printed,List.append_nil]

theorem print_num_unsigned_text (w : BitVec 32) {base : Nat} (two : 1 < base) (small : base ≤ 16) :
    print_num_unsigned w base = some (numeral base w.toNat) := by
  have printed := @put_digits_numeral base 63 w.toNat [] two small (word_fits w two)
  rw [print_num_unsigned,if_neg (by omega),printed,List.append_nil]

/-- The least word stays negative when it is negated, and its digit index is
    negative; every other word is printed with its sign. -/
theorem print_num_text (w : BitVec 32) :
    print_num w 10 = if w = BitVec.intMin 32 then none else some (signed_text w.toInt) := by
  by_cases least : w = BitVec.intMin 32
  · subst least
    decide
  · have high : w.toInt < 2 ^ 31 := BitVec.toInt_lt
    have low : -2 ^ 31 ≤ w.toInt := BitVec.le_toInt w
    have fits : w.toInt.natAbs < 10 ^ (63 + 1) := by omega
    have printed := @put_digits_numeral 10 63 w.toInt.natAbs [] (by decide) (by decide) fits
    rw [if_neg least,print_num,if_neg (by omega)]
    by_cases negative : w.toInt < 0
    · have absolute : (-w).toInt = (w.toInt.natAbs : Int) := by
        rw [BitVec.toInt_neg_of_ne_intMin least]
        omega
      rw [if_pos negative,absolute,printed,signed_text,if_pos negative,List.append_nil]
      rfl
    · have value : w.toInt = (w.toInt.natAbs : Int) := by omega
      rw [if_neg negative,signed_text,if_neg negative]
      rw [value,printed,List.append_nil,Int.natAbs_natCast]

/-- What a piece stores and the arguments it leaves. -/
def piece_text (printers : Printers) : Piece → List Arg → Option (List UInt8 × List Arg)
  | .literal b,args => some ([b],args)
  | .conv k,args => conversion printers k.letter args

def rendered (printers : Printers) : List Piece → List Arg → Option (List UInt8)
  | [],_ => some []
  | p :: pieces,args =>
    (piece_text printers p args).bind (fun out => (rendered printers pieces out.2).map (fun rest => out.1 ++ rest))

/-- Literal text is neither '%' nor the terminator. -/
def Plain (pieces : List Piece) : Prop := ∀ b, Piece.literal b ∈ pieces → b ≠ 0 ∧ b ≠ 37

theorem storeBytes_single (m : Bytes) (a : Nat) (b : UInt8) : storeBytes m a [b] = storeByte m a b := by
  rw [← storeBytes_cons]
  funext x
  simp [storeBytes]

/-- What the loop leaves behind when the rest of its output is `out`. -/
def stored_text (m : Bytes) (buf : Nat) (lone : Bool) (out : List UInt8) : Stored :=
  if lone then ⟨storeBytes m buf out,buf + out.length⟩ else ⟨storeBytes m buf (out ++ [0]),buf + out.length + 1⟩

theorem stored_text_append (m : Bytes) (buf : Nat) (lone : Bool) (head tail : List UInt8) :
    stored_text (storeBytes m buf head) (buf + head.length) lone tail = stored_text m buf lone (head ++ tail) := by
  cases lone with
  | true => simp [stored_text,storeBytes_append,Nat.add_assoc]
  | false => simp [stored_text,storeBytes_append,Nat.add_assoc]

theorem loop_step (printers : Printers) (p : Piece) (plain : Plain [p]) (str : List UInt8) (m : Bytes) (buf : Nat)
    (args : List Arg) : vsprintf_loop printers (p.bytes ++ str) m buf args =
      (piece_text printers p args).bind (fun out =>
        vsprintf_loop printers str (storeBytes m buf out.1) (buf + out.1.length) out.2) := by
  cases p with
  | literal b =>
    obtain ⟨-,other⟩ := plain b (by simp)
    have next : vsprintf_loop printers (b :: str) m buf args
        = vsprintf_loop printers str (storeByte m buf b) (buf + 1) args := by
      conv_lhs => unfold vsprintf_loop
      exact if_neg other
    simpa [Piece.bytes,piece_text,storeBytes_single] using next
  | conv k => simp [Piece.bytes,vsprintf_loop,piece_text]

/-- The loop stores what the pieces render to, and the terminator unless the
    format ends in a lone '%'. -/
theorem vsprintf_loop_stores (printers : Printers) (pieces : List Piece) (plain : Plain pieces) (lone : Bool) (m : Bytes)
    (buf : Nat) (args : List Arg) :
    vsprintf_loop printers (format_bytes pieces lone) m buf args =
      (rendered printers pieces args).map (stored_text m buf lone) := by
  induction pieces generalizing m buf args with
  | nil =>
    cases lone with
    | true =>
      have none_stored : storeBytes m buf [] = m := by
        funext x
        simp [storeBytes]
      simp [format_bytes,vsprintf_loop,rendered,stored_text,none_stored]
    | false => simp [format_bytes,vsprintf_loop,rendered,stored_text,storeBytes_single]
  | cons p pieces step =>
    have head : Plain [p] := fun b member => plain b (by simpa using Or.inl (List.mem_singleton.mp member))
    have rest : Plain pieces := fun b member => plain b (by simp [member])
    have shape : format_bytes (p :: pieces) lone = p.bytes ++ format_bytes pieces lone := by simp [format_bytes]
    rw [shape,loop_step printers p head,rendered]
    cases piece_text printers p args with
    | none => rfl
    | some out =>
      simp only [Option.bind_some,step rest,Option.map_map]
      congr 1
      funext tail
      exact stored_text_append m buf lone out.1 tail

end MicroOS.Formatting

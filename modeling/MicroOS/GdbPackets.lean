import Mathlib.Tactic

/-!
Packets of the debugger (`gdb.c`, `encoding.c` and `connection.c`). `eof` is the value `GDB_EOF` of a routine, which the stub
answers with an error packet; a failed assertion is a panic, and a read behind the packet buffer is `outside`.
-/

namespace MicroOS.GdbPackets

abbrev Bytes := List UInt8
abbrev Address := BitVec 32
abbrev Memory := Address → UInt8

inductive Stop where
  | eof
  | panics
  | waits
  | outside
  deriving DecidableEq

def digits : Bytes := [48,49,50,51,52,53,54,55,56,57,97,98,99,100,101,102]

/-- A half of a byte is always a digit. -/
def gdb_get_digit (val : UInt8) : UInt8 := digits.getD val.toNat 255

def gdb_get_val (digit : UInt8) (base : Nat) : Option Nat :=
  let value := if 48 ≤ digit ∧ digit ≤ 57 then some (digit.toNat - 48)
    else if 97 ≤ digit ∧ digit ≤ 102 then some (digit.toNat - 97 + 10)
    else if 65 ≤ digit ∧ digit ≤ 70 then some (digit.toNat - 65 + 10)
    else none
  value.filter fun value => value < base

def enc_hex_loop : Bytes → Bytes
  | [] => []
  | c :: data => gdb_get_digit ((c >>> 4) &&& 15) :: gdb_get_digit (c &&& 15) :: enc_hex_loop data

def gdb_enc_hex (buf_len : Nat) (data : Bytes) : Except Stop Bytes :=
  if buf_len < data.length * 2 then .error .eof else .ok (enc_hex_loop data)

/-- The loop over the bytes of the result. -/
def dec_hex_loop : Nat → Bytes → Except Stop Bytes
  | 0,_ => .ok []
  | _ + 1,[] => .error .outside
  | n + 1,high :: buf =>
    match gdb_get_val high 16 with
    | none => .error .panics
    | some h =>
      match buf with
      | [] => .error .outside
      | low :: buf =>
        match gdb_get_val low 16 with
        | none => .error .panics
        | some l => do
          let data ← dec_hex_loop n buf
          pure ((UInt8.ofNat (h <<< 4) ||| UInt8.ofNat l) :: data)

def gdb_dec_hex (buf : Bytes) (buf_len : Int) (data_len : Nat) : Except Stop Bytes :=
  if buf_len ≠ data_len * 2 then .error .eof else dec_hex_loop data_len buf

/-- `$`, `#`, `}` and `*` -/
def escaped (c : UInt8) : Bool := c = 36 || c = 35 || c = 125 || c = 42

def enc_bin_loop (buf_len : Nat) : Bytes → Nat → Except Stop Bytes
  | [],_ => .ok []
  | c :: data,buf_pos =>
    if escaped c = true then
      if buf_pos + 1 ≥ buf_len then .error .panics
      else do
        let buf ← enc_bin_loop buf_len data (buf_pos + 2)
        pure (125 :: (c ^^^ 32) :: buf)
    else
      if buf_pos ≥ buf_len then .error .panics
      else do
        let buf ← enc_bin_loop buf_len data (buf_pos + 1)
        pure (c :: buf)

def gdb_enc_bin (buf_len : Nat) (data : Bytes) : Except Stop Bytes := enc_bin_loop buf_len data 0

def dec_bin_loop (data_len : Nat) : Bytes → Nat → Except Stop Bytes
  | [],_ => .ok []
  | c :: buf,data_pos =>
    if data_pos ≥ data_len then .error .panics
    else if c = 125 then
      match buf with
      | [] => .error .panics
      | d :: buf => do
        let data ← dec_bin_loop data_len buf (data_pos + 1)
        pure ((d ^^^ 32) :: data)
    else do
      let data ← dec_bin_loop data_len buf (data_pos + 1)
      pure (c :: data)

/-- A negative length is an empty one. -/
def gdb_dec_bin (buf : Bytes) (buf_len : Int) (data_len : Nat) : Except Stop Bytes :=
  if buf_len ≤ buf.length then dec_bin_loop data_len (buf.take buf_len.toNat) 0 else .error .outside

/-- `read_serial` returns a `char`, which has a sign here. -/
def gdb_sys_getc : Bytes → Except Stop (Int × Bytes)
  | [] => .error .waits
  | c :: input => .ok (c.toInt8.toInt,input)

def GDB_EOF : Int := -1

def gdb_read : Nat → Bytes → Except Stop (Bytes × Bytes)
  | 0,input => .ok ([],input)
  | _ + 1,[] => .error .waits
  | n + 1,c :: input =>
    if c.toInt8.toInt = GDB_EOF then .error .eof
    else do
      let (buf,input) ← gdb_read n input
      pure (c :: buf,input)

def gdb_checksum (buf : Bytes) : UInt8 := buf.foldl (· + ·) 0

/-- Up to a `$` -/
def await_start : Bytes → Except Stop Bytes
  | [] => .error .waits
  | c :: input => if c.toInt8.toInt = GDB_EOF then .error .eof else if c.toInt8.toInt = 36 then .ok input else await_start input

/-- Up to a `#` -/
def read_body (pkt_buf_len : Nat) : Bytes → Bytes → Except Stop (Bytes × Bytes)
  | [],_ => .error .waits
  | c :: input,pkt_buf =>
    if c.toInt8.toInt = GDB_EOF then .error .eof
    else if c.toInt8.toInt = 35 then .ok (pkt_buf,input)
    else if pkt_buf.length ≥ pkt_buf_len then .error .eof
    else read_body pkt_buf_len input (pkt_buf ++ [c])

/-- The packet and the rest of the input. -/
def gdb_recv_packet (input : Bytes) (pkt_buf_len : Nat) : Except Stop (Bytes × Bytes) := do
  let input ← await_start input
  let (pkt_buf,input) ← read_body pkt_buf_len input []
  let (buf,input) ← gdb_read 2 input
  let expected_csum ← gdb_dec_hex buf 2 1
  if [gdb_checksum pkt_buf] ≠ expected_csum then .error .eof else pure (pkt_buf,input)

/-- Two's complement, as the compiler computes it. -/
abbrev Word := BitVec 32

/-- The loop over the digits, with what is left of the text. -/
def strtol_loop (base : Nat) : Bytes → Nat → Word → Bool → Except Stop (Word × Bool × Bytes)
  | str,0,value,valid => .ok (value,valid,str)
  | [],_ + 1,_,_ => .error .outside
  | c :: str,len + 1,value,valid =>
    if c = 0 then .ok (value,valid,c :: str)
    else match gdb_get_val c base with
      | none => .ok (value,valid,c :: str)
      | some tmp => strtol_loop base str len (value * BitVec.ofNat 32 base + BitVec.ofNat 32 tmp) true

def first (str : Bytes) : Except Stop UInt8 :=
  match str with
  | [] => .error .outside
  | c :: _ => .ok c

/-- Whether a text begins with `0x` or `0X`, and has a character more. -/
def has_prefix (str : Bytes) (len : Nat) : Except Stop Bool :=
  if 2 < len then do
    let c ← first str
    if c = 48 then do
      let d ← first str.tail
      pure (d = 120 || d = 88)
    else pure false
  else pure false

/-- The number and what is behind it, which is none when there is no digit. -/
def gdb_strtol (str : Bytes) (len base : Nat) : Except Stop (Word × Option Bytes) :=
  if len < 1 then .ok (0,none)
  else do
    let c ← first str
    let sign : Word := if c = 45 then -1 else 1
    let (str,len) := if c = 45 ∨ c = 43 then (str.tail,len - 1) else (str,len)
    let hex ← has_prefix str len
    let (base,str,len) := if hex = true then (16,str.drop 2,len - 2) else (base,str,len)
    let base := if base = 0 then 10 else base
    let (value,valid,str) ← strtol_loop base str len 0 false
    if valid = true then pure (value * sign,some str) else pure (0,none)

inductive Format where
  | hex
  | bin

def decode : Format → Bytes → Int → Nat → Except Stop Bytes
  | .hex => gdb_dec_hex
  | .bin => gdb_dec_bin

/-- The bytes one after the other. -/
def write_bytes (m : Memory) (addr : Address) : Bytes → Memory
  | [] => m
  | c :: data => write_bytes (Function.update m addr c) (addr + 1) data

/-- `stale` is what the array for the bytes held before. -/
def gdb_mem_write (dec : Format) (stale : Nat → UInt8) (m : Memory) (buf : Bytes) (buf_len : Int) (addr : Address) (len : Word) :
    Except Stop Memory :=
  if len.toNat > 64 then .error .eof
  else do
    let data ← decode dec buf buf_len len.toNat
    pure (write_bytes m addr ((List.range len.toNat).map fun pos => data.getD pos (stale pos)))

/-- `pkt_len - (ptr_next - pkt_buf)`, from what is left of the buffer. -/
def token_remaining_buf (pkt_buf : Bytes) (pkt_len : Nat) (ptr_next : Bytes) : Int := pkt_len - (pkt_buf.length - ptr_next.length)

def token_expect_integer_arg (pkt_buf : Bytes) (pkt_len : Nat) (ptr_next : Bytes) : Except Stop (Word × Bytes) := do
  let (value,behind) ← gdb_strtol ptr_next (token_remaining_buf pkt_buf pkt_len ptr_next % 2 ^ 32).toNat 16
  match behind with
  | none => .error .eof
  | some ptr_next => pure (value,ptr_next)

def token_expect_seperator (c : UInt8) (ptr_next : Bytes) : Except Stop Bytes := do
  let d ← first ptr_next
  if d ≠ c then .error .eof else pure ptr_next.tail

structure Request where
  addr : Word
  length : Word
  ptr_next : Bytes

/-- The arguments of `M` and `X`. The buffer holds old bytes behind the packet. -/
def arguments (pkt_buf : Bytes) (pkt_len : Nat) : Except Stop Request := do
  let (addr,ptr_next) ← token_expect_integer_arg pkt_buf pkt_len pkt_buf.tail
  let ptr_next ← token_expect_seperator 44 ptr_next
  let (length,ptr_next) ← token_expect_integer_arg pkt_buf pkt_len ptr_next
  let ptr_next ← token_expect_seperator 58 ptr_next
  pure ⟨addr,length,ptr_next⟩

/-- `gdb_main` for `M` and `X`: the memory after an `OK`, or an error packet. -/
def write_packet (dec : Format) (stale : Nat → UInt8) (m : Memory) (pkt_buf : Bytes) (pkt_len : Nat) : Except Stop Memory := do
  let r ← arguments pkt_buf pkt_len
  gdb_mem_write dec stale m r.ptr_next (token_remaining_buf pkt_buf pkt_len r.ptr_next) r.addr r.length

end MicroOS.GdbPackets

import Mathlib.Data.List.Basic

/-! Lists of options on the wire: a code, the length of its data and the data, with single bytes of padding between the options
and a byte for the end behind them. -/

namespace MicroOS.OptionLists

def pad : UInt8 := 0
def stop : UInt8 := 255

structure Entry where
  code : UInt8
  data : List UInt8
  not_pad : code ≠ pad
  not_stop : code ≠ stop
  short : data.length < 256

def Entry.bytes (e : Entry) : List UInt8 := e.code :: UInt8.ofNat e.data.length :: e.data

/-- What the option says. -/
def Entry.pair (e : Entry) : UInt8 × List UInt8 := (e.code,e.data)

def encode (entries : List Entry) : List UInt8 := entries.flatMap Entry.bytes

@[simp] theorem Entry.bytes_length (e : Entry) : e.bytes.length = e.data.length + 2 := rfl

@[simp] theorem encode_nil : encode [] = [] := rfl

@[simp] theorem encode_cons (e : Entry) (entries : List Entry) : encode (e :: entries) = e.bytes ++ encode entries := by
  simp [encode]

theorem Entry.length_byte (e : Entry) : (UInt8.ofNat e.data.length).toNat = e.data.length := by
  simpa using Nat.mod_eq_of_lt e.short

/-- The place of the data of the first option of a type in the bytes of a list that begins at `i`; bytes that are not the
    whole of an option are none. -/
def first_option (type : UInt8) (i : Nat) : List UInt8 → Option Nat
  | [] => none
  | [_] => none
  | code :: len :: rest =>
    if code = pad then first_option type (i + 1) (len :: rest)
    else if code = stop ∨ rest.length < len.toNat then none
    else if code = type then some (i + 2)
    else first_option type (i + 2 + len.toNat) (rest.drop len.toNat)
termination_by bytes => bytes.length
decreasing_by all_goals simp only [List.length_cons,List.length_drop]; omega

@[simp] theorem first_option_nil (type : UInt8) (i : Nat) : first_option type i [] = none := by rw [first_option]

@[simp] theorem first_option_one (type : UInt8) (i : Nat) (b : UInt8) : first_option type i [b] = none := by rw [first_option]

theorem first_option_stop (type : UInt8) (i : Nat) (rest : List UInt8) : first_option type i (stop :: rest) = none := by
  cases rest with
  | nil => rw [first_option_one]
  | cons len rest =>
    have differs : stop ≠ pad := by decide
    rw [first_option,if_neg differs,if_pos (.inl rfl)]

theorem first_option_entry (type : UInt8) (i : Nat) (e : Entry) (rest : List UInt8) : first_option type i (e.bytes ++ rest) =
    if e.code = type then some (i + 2) else first_option type (i + e.bytes.length) rest := by
  have inside : ¬ (e.code = stop ∨ (e.data ++ rest).length < e.data.length) := by simp [e.not_stop]
  have next : i + 2 + e.data.length = i + e.bytes.length := by rw [Entry.bytes_length]; omega
  simp only [Entry.bytes,List.cons_append]
  rw [first_option,if_neg e.not_pad,e.length_byte,if_neg inside,List.drop_left,next]
  rfl

/-- No option has the code of the padding. -/
theorem first_option_pad (i : Nat) (bytes : List UInt8) : first_option pad i bytes = none := by
  induction i,bytes using first_option.induct pad with
  | case1 => exact first_option_nil _ _
  | case2 => exact first_option_one _ _ _
  | case3 i len rest ih => rw [first_option,if_pos rfl,ih]
  | case4 i code len rest other ends => rw [first_option,if_neg other,if_pos ends]
  | case5 i len rest other inside => exact absurd rfl other
  | case6 i code len rest other inside differs ih => rw [first_option,if_neg other,if_neg inside,if_neg differs,ih]

end MicroOS.OptionLists

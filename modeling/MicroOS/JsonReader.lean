import Mathlib.Tactic

/-!
The reader goes over the text once: `json_read` gives the next token and counts the
brackets, `json_iter_array` and `json_iter_object` first skip what is left of the
containers inside the one they are asked for. Pointers into the text are offsets; a byte
outside the text is not read, where the code would read one the result is `none`.
-/

namespace MicroOS.Json

inductive ValueType
  | error
  | end_
  | array
  | object
  | number
  | string
  | bool
  | null
deriving DecidableEq

/-- A `json_value_t`. -/
structure Value where
  type : ValueType
  start : Nat
  end_ : Nat
  depth : Int
deriving DecidableEq

/-- A `json_reader_t`; its `end` is the length of the text. The depth counts brackets of a
    text whose length is an int, so it stays within an int. -/
structure Reader where
  data : List UInt8
  current : Nat
  depth : Int
  error : Option String

def json_new_reader (data : List UInt8) (length : Nat) : Reader := ⟨data.take length,0,0,none⟩

def json_is_number_cont (c : UInt8) : Bool :=
  (0x30 ≤ c ∧ c ≤ 0x39) ∨ c = 0x65 ∨ c = 0x45 ∨ c = 0x2E ∨ c = 0x2D ∨ c = 0x2B

/-- White space, colons and commas are skipped alike. -/
def is_separator (c : UInt8) : Bool := c = 0x20 ∨ c = 0x0A ∨ c = 0x0D ∨ c = 0x09 ∨ c = 0x3A ∨ c = 0x2C

def json_is_string (data : List UInt8) : Nat → List UInt8 → Bool
  | _,[] => true
  | current,c :: expect => data[current]? = some c && json_is_string data (current + 1) expect

/-- The loop over the characters of a number. -/
def number_end (data : List UInt8) (current : Nat) : Nat :=
  if here : current < data.length then
    if json_is_number_cont data[current] then number_end data (current + 1) else current
  else current
termination_by data.length - current

/-- The loop over the characters of a string ends at a quote, at the end of the text, or behind it. -/
inductive StringEnd
  | closed (current : Nat)
  | unclosed
  | outside

def string_end (data : List UInt8) (current : Nat) : StringEnd :=
  if current = data.length then .unclosed
  else if here : current < data.length then
    if data[current] = 0x22 then .closed current
    else if data[current] = 0x5C then string_end data (current + 2)
    else string_end data (current + 1)
  else .outside
termination_by data.length - current

/-- An error is kept, and given as the next value. -/
def failed (r : Reader) (error : String) : Value × Reader :=
  (⟨.error,r.current,r.current,0⟩,{ r with error := some error })

def text_null : List UInt8 := [0x6E,0x75,0x6C,0x6C]
def text_true : List UInt8 := [0x74,0x72,0x75,0x65]
def text_false : List UInt8 := [0x66,0x61,0x6C,0x73,0x65]

def json_read (r : Reader) : Option (Value × Reader) :=
  if r.error.isSome then some (⟨.error,r.current,r.current,0⟩,r)
  else if r.current = r.data.length then some (failed r "unexpected eof")
  else if here : r.current < r.data.length then
    let c := r.data[r.current]
    if is_separator c then json_read { r with current := r.current + 1 }
    else if (0x30 ≤ c ∧ c ≤ 0x39) ∨ c = 0x2D then
      let stop := number_end r.data r.current
      some (⟨.number,r.current,stop,0⟩,{ r with current := stop })
    else if c = 0x22 then
      match string_end r.data (r.current + 1) with
      | .closed stop => some (⟨.string,r.current + 1,stop,0⟩,{ r with current := stop + 1 })
      | .unclosed => some (failed { r with current := r.data.length } "unclosed string")
      | .outside => none
    else if c = 0x7B ∨ c = 0x5B then
      some (⟨if c = 0x7B then .object else .array,r.current,r.current + 1,r.depth + 1⟩,
        { r with current := r.current + 1, depth := r.depth + 1 })
    else if c = 0x7D ∨ c = 0x5D then
      some (⟨.end_,r.current,r.current + 1,0⟩,{ r with current := r.current + 1, depth := r.depth - 1 })
    else if c = 0x6E ∨ c = 0x74 ∨ c = 0x66 then
      if json_is_string r.data r.current text_null then
        some (⟨.null,r.current,r.current + 4,0⟩,{ r with current := r.current + 4 })
      else if json_is_string r.data r.current text_true then
        some (⟨.bool,r.current,r.current + 4,0⟩,{ r with current := r.current + 4 })
      else if json_is_string r.data r.current text_false then
        some (⟨.bool,r.current,r.current + 5,0⟩,{ r with current := r.current + 5 })
      else some (failed r "unknown token")
    else some (failed r "unknown token")
  else none
termination_by r.data.length - r.current

theorem le_number_end (data : List UInt8) (current : Nat) : current ≤ number_end data current := by
  fun_induction number_end data current with
  | case1 current here cont ih => exact Nat.le_of_succ_le ih
  | case2 => exact Nat.le_refl _
  | case3 => exact Nat.le_refl _

theorem le_string_end {data : List UInt8} {current stop : Nat} (closed : string_end data current = .closed stop) : current ≤ stop := by
  fun_induction string_end data current with
  | case1 => cases closed
  | case2 current _ _ _ =>
    cases closed
    exact Nat.le_refl _
  | case3 current _ _ _ _ ih => exact Nat.le_of_add_right_le (ih closed)
  | case4 current _ _ _ _ ih => exact Nat.le_of_succ_le (ih closed)
  | case5 => cases closed

/-- What begins a number is part of it. -/
theorem begins_cont {c : UInt8} (begins : (0x30 ≤ c ∧ c ≤ 0x39) ∨ c = 0x2D) : json_is_number_cont c := by
  rw [json_is_number_cont,decide_eq_true_iff]
  rcases begins with digit | minus
  · exact .inl digit
  · exact .inr (.inr (.inr (.inr (.inl minus))))

/-- A value that is no error is behind the position the reader was at. -/
theorem json_read_moves {r s : Reader} {value : Value} (read : json_read r = some (value,s)) (good : value.type ≠ .error) :
    s.data = r.data ∧ r.current < r.data.length ∧ r.current < s.current := by
  fun_induction json_read r with
  | case1 | case2 | case6 | case13 | case14 =>
    cases read
    exact absurd rfl good
  | case3 r _ _ here c _ ih =>
    obtain ⟨same,_,moved⟩ := ih read
    exact ⟨same,here,Nat.lt_of_succ_lt moved⟩
  | case4 r _ _ here c _ begins stop =>
    cases read
    have longer : r.current + 1 ≤ stop := by
      rw [show stop = number_end r.data (r.current + 1) by
        rw [show stop = number_end r.data r.current from rfl,number_end,dif_pos here,if_pos (begins_cont begins)]]
      exact le_number_end _ _
    exact ⟨rfl,here,longer⟩
  | case5 r _ _ here c _ _ _ stop closed =>
    cases read
    exact ⟨rfl,here,Nat.lt_succ_of_le (Nat.le_of_succ_le (le_string_end closed))⟩
  | case7 | case15 => cases read
  | case8 r _ _ here | case9 r _ _ here =>
    cases read
    exact ⟨rfl,here,Nat.lt_succ_self _⟩
  | case10 r _ _ here | case11 r _ _ here | case12 r _ _ here =>
    cases read
    exact ⟨rfl,here,Nat.lt_add_of_pos_right (by decide)⟩

/-- The loop ends: every value that is discarded takes a part of the text. -/
def json_discard_until (r : Reader) (depth : Int) : Option Reader :=
  if r.current ≠ r.data.length ∧ r.depth > depth then
    match _read : json_read r with
    | none => none
    | some (value,s) => if _good : value.type = .error then some s else json_discard_until s depth
  else some r
termination_by r.data.length - r.current
decreasing_by
  obtain ⟨same,inside,moved⟩ := json_read_moves _read _good
  rw [same]
  omega

/-- Whether there is an element, and what was read. -/
def json_iter_array (reader : Reader) (array : Value) : Option (Bool × Value × Reader) := do
  let reader ← json_discard_until reader array.depth
  let (value,reader) ← json_read reader
  return (!(value.type = .error || value.type = .end_),value,reader)

/-- Whether there is a key with its value, the key, the value if one was read, and the reader. -/
def json_iter_object (reader : Reader) (object : Value) : Option (Bool × Value × Option Value × Reader) := do
  let reader ← json_discard_until reader object.depth
  let (key,reader) ← json_read reader
  if key.type = .error || key.type = .end_ then return (false,key,none,reader)
  let (value,reader) ← json_read reader
  if value.type = .error then
    return (false,key,some value,{ reader with error := some "unexpected object end" })
  if value.type = .end_ then return (false,key,some value,reader)
  return (true,key,some value,reader)

end MicroOS.Json

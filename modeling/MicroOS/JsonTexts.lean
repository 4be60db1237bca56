import MicroOS.JsonReader

/-!
The grammar of JSON as a type: a tree with the white space between its tokens, its text,
and what the reader is expected to say about every container in it. A tree is a
well-formed text by its construction.
-/

namespace MicroOS.Json

abbrev Blank := { text : List UInt8 // ∀ c ∈ text, c = 0x20 ∨ c = 0x0A ∨ c = 0x0D ∨ c = 0x09 }

inductive Literal
  | null
  | true
  | false

def Literal.text : Literal → List UInt8
  | .null => text_null
  | .true => text_true
  | .false => text_false

def digit (d : Fin 10) : UInt8 := 0x30 + UInt8.ofNat d

/-- At least one digit. -/
structure Digits where
  first : Fin 10
  rest : List (Fin 10)

def Digits.text (ds : Digits) : List UInt8 := digit ds.first :: ds.rest.map digit

/-- The digits before the point: 0, or digits that do not begin with 0. -/
inductive Whole
  | zero
  | digits (first : Fin 9) (rest : List (Fin 10))

def Whole.text : Whole → List UInt8
  | .zero => [digit 0]
  | .digits first rest => digit first.succ :: rest.map digit

inductive Sign
  | plus
  | minus

structure Exponent where
  upper : Bool
  sign : Option Sign
  digits : Digits

def Exponent.text (e : Exponent) : List UInt8 :=
  (if e.upper then 0x45 else 0x65) ::
    ((match e.sign with
      | none => []
      | some .plus => [0x2B]
      | some .minus => [0x2D]) ++ e.digits.text)

structure Number where
  minus : Bool
  whole : Whole
  fraction : Option Digits
  exponent : Option Exponent

def Number.text (n : Number) : List UInt8 :=
  (if n.minus then [0x2D] else []) ++ n.whole.text ++
    (match n.fraction with
      | none => []
      | some ds => 0x2E :: ds.text) ++
    (match n.exponent with
      | none => []
      | some e => e.text)

def is_hex (c : UInt8) : Bool := (0x30 ≤ c ∧ c ≤ 0x39) ∨ (0x41 ≤ c ∧ c ≤ 0x46) ∨ (0x61 ≤ c ∧ c ≤ 0x66)

/-- A byte that stands for itself, an escape, or the number of a character in four digits. -/
inductive Character
  | plain (c : { c : UInt8 // 0x20 ≤ c ∧ c ≠ 0x22 ∧ c ≠ 0x5C })
  | escape (c : { c : UInt8 // c ∈ [0x22,0x5C,0x2F,0x62,0x66,0x6E,0x72,0x74] })
  | unicode (a b c d : { c : UInt8 // is_hex c })

def Character.text : Character → List UInt8
  | .plain c => [c.1]
  | .escape c => [0x5C,c.1]
  | .unicode a b c d => [0x5C,0x75,a.1,b.1,c.1,d.1]

/-- What stands between the quotes. -/
def chars_text (chars : List Character) : List UInt8 := chars.flatMap Character.text

inductive Kind
  | array
  | object
deriving DecidableEq

def Kind.opening : Kind → UInt8
  | .array => 0x5B
  | .object => 0x7B

def Kind.closing : Kind → UInt8
  | .array => 0x5D
  | .object => 0x7D

def Kind.type : Kind → ValueType
  | .array => .array
  | .object => .object

/-- A key with its colon, and the white space around them. -/
structure Key where
  before : Blank
  chars : List Character
  colon : Blank
  after : Blank

/-- What stands before an element of an array, or before the value of a member of an object. -/
def Lead : Kind → Type
  | .array => Blank
  | .object => Key

def Key.rest (k : Key) : List UInt8 := k.colon.1 ++ 0x3A :: k.after.1

def Key.text (k : Key) : List UInt8 := k.before.1 ++ 0x22 :: (chars_text k.chars ++ 0x22 :: k.rest)

def Lead.text {kind : Kind} (lead : Lead kind) : List UInt8 :=
  match kind,lead with
  | .array,(blank : Blank) => blank.1
  | .object,(k : Key) => k.text

mutual

/-- A value. -/
inductive Tree
  | literal (l : Literal)
  | number (n : Number)
  | string (chars : List Character)
  | empty (kind : Kind) (blank : Blank)
  | container (kind : Kind) (items : Items kind)

/-- Elements or members with the white space behind them, separated by commas. -/
inductive Items : Kind → Type
  | one {kind : Kind} (lead : Lead kind) (v : Tree) (after : Blank) : Items kind
  | more {kind : Kind} (lead : Lead kind) (v : Tree) (after : Blank) (rest : Items kind) : Items kind

end

mutual

def Tree.text : Tree → List UInt8
  | .literal l => l.text
  | .number n => n.text
  | .string chars => 0x22 :: (chars_text chars ++ [0x22])
  | .empty kind blank => kind.opening :: (blank.1 ++ [kind.closing])
  | .container kind items => kind.opening :: (items.text ++ [kind.closing])

def Items.text {kind : Kind} : Items kind → List UInt8
  | .one lead v after => lead.text ++ (v.text ++ after.1)
  | .more lead v after rest => lead.text ++ (v.text ++ (after.1 ++ 0x2C :: rest.text))

end

/-- A whole text. -/
structure Document where
  before : Blank
  root : Tree
  after : Blank

def Document.text (doc : Document) : List UInt8 := doc.before.1 ++ (doc.root.text ++ doc.after.1)

/-- What is read for a value at an offset: a literal or a number with its text, a string with
    what stands between the quotes, and a container with its bracket. -/
def Tree.value (start : Nat) (depth : Int) : Tree → Value
  | .literal .null => ⟨.null,start,start + 4,0⟩
  | .literal .true => ⟨.bool,start,start + 4,0⟩
  | .literal .false => ⟨.bool,start,start + 5,0⟩
  | .number n => ⟨.number,start,start + n.text.length,0⟩
  | .string chars => ⟨.string,start + 1,start + 1 + (chars_text chars).length,0⟩
  | .empty kind _ | .container kind _ => ⟨kind.type,start,start + 1,depth + 1⟩

/-- What is read in one step: a scalar is read whole, of a container the bracket. -/
def Tree.token : Tree → List UInt8
  | .empty kind _ | .container kind _ => [kind.opening]
  | v => v.text

/-- How many brackets are open behind the token. -/
def Tree.opens : Tree → Int
  | .empty _ _ | .container _ _ => 1
  | _ => 0

/-- What a call for the next element answers: an element, a key with its value, or the end. -/
inductive Outcome
  | element (value : Value)
  | pair (key value : Value)
  | finished (value : Value)
deriving DecidableEq

/-- An answer for a container, with where the reader is and how deep. -/
structure Entry where
  container : Value
  outcome : Outcome
  current : Nat
  depth : Int
deriving DecidableEq

/-- The answer at the closing bracket. -/
def finish (container : Value) (start : Nat) : Entry :=
  ⟨container,.finished ⟨.end_,start,start + 1,0⟩,start + 1,container.depth - 1⟩

/-- An element, or a key with its value. -/
def outcome {kind : Kind} (start : Nat) (lead : Lead kind) (value : Value) : Outcome :=
  match kind,lead with
  | .array,_ => .element value
  | .object,(k : Key) =>
    let key := start + k.before.1.length + 1
    .pair ⟨.string,key,key + (chars_text k.chars).length,0⟩ value

/-- The answer for a value behind its lead. -/
def answer {kind : Kind} (container : Value) (start : Nat) (lead : Lead kind) (v : Tree) : Entry :=
  let inside := start + lead.text.length
  ⟨container,outcome start lead (v.value inside container.depth),inside + v.token.length,container.depth + v.opens⟩

def Items.entries {kind : Kind} (container : Value) (start : Nat) : Items kind → List Entry
  | .one lead v after =>
    [answer container start lead v,finish container (start + lead.text.length + v.text.length + after.1.length)]
  | .more lead v after rest =>
    answer container start lead v ::
      rest.entries container (start + lead.text.length + v.text.length + after.1.length + 1)

mutual

/-- The containers of a value, with all answers that are expected for each. -/
def Tree.containers (start : Nat) (depth : Int) : Tree → List (Value × List Entry)
  | .literal _ | .number _ | .string _ => []
  | .empty kind blank =>
    let container := ⟨kind.type,start,start + 1,depth + 1⟩
    [(container,[finish container (start + 1 + blank.1.length)])]
  | .container kind items =>
    let container := ⟨kind.type,start,start + 1,depth + 1⟩
    (container,items.entries container (start + 1)) :: items.containers (start + 1) (depth + 1)

def Items.containers {kind : Kind} (start : Nat) (depth : Int) : Items kind → List (Value × List Entry)
  | .one lead v _ => v.containers (start + lead.text.length) depth
  | .more lead v after rest =>
    v.containers (start + lead.text.length) depth ++
      rest.containers (start + lead.text.length + v.text.length + after.1.length + 1) depth

end

def Document.containers (doc : Document) : List (Value × List Entry) := doc.root.containers doc.before.1.length 0

end MicroOS.Json

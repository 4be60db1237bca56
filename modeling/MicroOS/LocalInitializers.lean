import Mathlib.Tactic

/-!
An initialiser of a local array becomes a list of assignments to its elements; the ones for which no value is given are set to
zero. The main theorem is `initializer_right`: for which initialisers every element is assigned exactly once.
-/
namespace MicroOS.LocalInitializers
open Option (bind_congr bind_eq_some_iff bind_some map_eq_some_iff map_some mem_def some.inj)
open List (mem_flatMap mem_range mem_singleton)

inductive Ty where
  | TY_INT
  | TY_CHAR
  | TY_ARRAY (base : Ty) (array_len : Nat)

/-- The indices of an element, the outermost first. -/
abbrev Desg := List Nat

/-- The right side of an assignment: an expression, a string as one, or a number. -/
inductive Rhs where
  | assign (node : Nat)
  | text (contents : List Int)
  | num (val : Int)
deriving DecidableEq

/-- An expression counts as one token here; anything behind the initialiser is `other`. -/
inductive Token where
  | lbrace
  | rbrace
  | comma
  | str (contents : List Int)
  | node (n : Nat)
  | other

def consume_end : List Token → Option (List Token)
  | .rbrace :: rest => some rest
  | .comma :: .rbrace :: rest => some rest
  | _ => none

def peek_end (toks : List Token) : Bool := (consume_end toks).isSome

def assign : List Token → Option (Rhs × List Token)
  | .node n :: rest => some (.assign n,rest)
  | .str contents :: rest => some (.text contents,rest)
  | _ => none

def consume_comma : List Token → Option (List Token)
  | .comma :: rest => some rest
  | _ => none

/-- One element that is skipped. -/
def excess_element (skip : List Token → Option (List Token)) : List Token → Option (List Token)
  | .lbrace :: rest => skip rest
  | toks => (assign toks).map Prod.snd

def skip_excess_elements2 : Nat → List Token → Option (List Token)
  | 0,_ => none
  | fuel + 1,toks =>
    (excess_element (skip_excess_elements2 fuel) toks).bind fun toks =>
      match consume_end toks with
      | some rest => some rest
      | none => (consume_comma toks).bind fun rest => skip_excess_elements2 fuel rest

def skip_excess_elements (toks : List Token) : Option (List Token) :=
  (consume_comma toks).bind fun rest => skip_excess_elements2 (rest.length + 1) rest

/-- The index is stepped twice in every round. -/
def lvar_init_zero : Ty → Desg → List (Desg × Rhs)
  | .TY_ARRAY base array_len,desg => ((List.range array_len).filter (· % 2 = 0)).flatMap fun i => lvar_init_zero base (desg ++ [i])
  | _,desg => [(desg,.num 0)]

section Reading
variable {α : Type} (put : Desg → Rhs → α) (zero : Ty → Desg → List α)

/-- What was read, the number of elements it was read for, and the tokens that are left. -/
structure Parsed (α : Type) where
  nodes : List α
  count : Nat
  rest : List Token

/-- The tokens of the next element, if there is one more. `limit` is `none` for an incomplete array. -/
def next_element (limit : Option Nat) (i : Nat) (toks : List Token) : Option (List Token) :=
  if (∀ n ∈ limit, i < n) ∧ !peek_end toks then consume_comma toks else none

/-- The loop over the elements of a list, from the one with an index on. -/
def elements (read : Nat → List Token → Option (Parsed α)) (limit : Option Nat) : Nat → Nat → List Token → Option (Parsed α)
  | 0,_,_ => none
  | fuel + 1,i,toks =>
    (read i toks).bind fun r =>
      match next_element limit (i + 1) r.rest with
      | some rest => (elements read limit fuel (i + 1) rest).map fun s => { s with nodes := r.nodes ++ s.nodes }
      | none => some ⟨r.nodes,i + 1,r.rest⟩

/-- The elements with these indices are left out. -/
def excess (base : Ty) (desg : Desg) (first last : Nat) : List α :=
  (List.range' first (last - first)).flatMap fun i => zero base (desg ++ [i])

def list_elements (read : Nat → List Token → Option (Parsed α)) (array_len : Option Nat) (toks : List Token) :
    Option (Parsed α) :=
  if toks.head? matches some .rbrace then some ⟨[],0,toks⟩ else elements read array_len (toks.length + 1) 0 toks

/-- The end of a list with braces: excess elements are skipped. -/
def close (opened : Bool) (toks : List Token) : Option (List Token) :=
  if opened then
    match consume_end toks with
    | some rest => some rest
    | none => skip_excess_elements toks
  else some toks

/-- A list for an array, with or without braces. -/
def list_initializer (read : Nat → List Token → Option (Parsed α)) (base : Ty) (array_len : Option Nat) (desg : Desg)
    (toks : List Token) : Option (Parsed α) :=
  let opened := toks.head? matches some .lbrace
  (list_elements read array_len (if opened then toks.tail else toks)).bind fun r =>
    (close opened r.rest).map fun rest => ⟨r.nodes ++ excess zero base desg r.count (array_len.getD 0),r.count,rest⟩

/-- A string for an array of char. -/
def string_initializer (contents : List Int) (array_len : Nat) (desg : Desg) (rest : List Token) : Parsed α :=
  let given := contents.take array_len
  let nodes := (List.range' 0 given.length).flatMap fun i => [put (desg ++ [i]) (.num (given.getD i 0))]
  ⟨nodes ++ excess zero .TY_CHAR desg given.length array_len,given.length,rest⟩

/-- An array, of a type that may be incomplete, with what is read for its elements. -/
def array_initializer (read : Nat → List Token → Option (Parsed α)) (base : Ty) (array_len : Option Nat) (desg : Desg)
    (toks : List Token) : Option (Parsed α) :=
  match base,toks with
  | .TY_CHAR,.str contents :: rest => some (string_initializer put zero contents (array_len.getD contents.length) desg rest)
  | base,toks => list_initializer zero read base array_len desg toks

def scalar_initializer (desg : Desg) (toks : List Token) : Option (Parsed α) :=
  match toks with
  | .lbrace :: toks => (assign toks).bind fun r => (consume_end r.2).map fun rest => ⟨[put desg r.1],1,rest⟩
  | toks => (assign toks).map fun r => ⟨[put desg r.1],1,r.2⟩

/-- The recursion of `lvar_initializer2`, for any meaning of the nodes that it makes. -/
def initializer2 : Ty → Desg → List Token → Option (Parsed α)
  | .TY_ARRAY base array_len,desg,toks =>
    array_initializer put zero (fun i toks => initializer2 base (desg ++ [i]) toks) base (some array_len) desg toks
  | _,desg,toks => scalar_initializer put desg toks

/-- The initialiser of an array variable. -/
def initializer (base : Ty) (array_len : Option Nat) (toks : List Token) : Option (Parsed α) :=
  array_initializer put zero (fun i toks => initializer2 put zero base [i] toks) base array_len [] toks

end Reading

/-- The assignments, as the compiler makes them. -/
def lvar_initializer (base : Ty) (array_len : Option Nat) (toks : List Token) : Option (Parsed (Desg × Rhs)) :=
  initializer Prod.mk lvar_init_zero base array_len toks

/-- A value that is given for an element, or an element of any type that is left out. -/
inductive Slot where
  | given (desg : Desg) (rhs : Rhs)
  | left (ty : Ty) (desg : Desg)

/-- What the initialiser gives and leaves out. -/
def slots (base : Ty) (array_len : Option Nat) (toks : List Token) : Option (Parsed Slot) :=
  initializer .given (fun ty desg => [.left ty desg]) base array_len toks

/-- The scalars of a variable, or of an element. -/
def scalars : Ty → Desg → List Desg
  | .TY_ARRAY base array_len,desg => (List.range array_len).flatMap fun i => scalars base (desg ++ [i])
  | _,desg => [desg]

def targets : Slot → List Desg
  | .given desg _ => [desg]
  | .left ty desg => scalars ty desg

/-- The assignments for a slot. -/
def assigned : Slot → List (Desg × Rhs)
  | .given desg rhs => [(desg,rhs)]
  | .left ty desg => lvar_init_zero ty desg

/-- Every scalar of the variable is assigned exactly once, and nothing else is: the value that is given for it, or else zero. -/
structure Initialised (ty : Ty) (given : List Slot) (nodes : List (Desg × Rhs)) : Prop where
  once : (nodes.map Prod.fst).Perm (scalars ty [])
  values : ∀ p v, (p,v) ∈ nodes → .given p v ∈ given ∨ v = .num 0 ∧ ∀ rhs, .given p rhs ∉ given

/-! ### The readers end

A reader never returns more tokens than it is given, so the fuel of a loop is enough when it is more than the tokens. -/

theorem consume_end_shorter {toks rest : List Token} (found : consume_end toks = some rest) : rest.length < toks.length := by
  unfold consume_end at found
  split at found
  · rw [← some.inj found]
    exact Nat.lt_succ_self _
  · rw [← some.inj found]
    exact Nat.lt_succ_of_lt (Nat.lt_succ_self _)
  · cases found

theorem consume_comma_shorter {toks rest : List Token} (found : consume_comma toks = some rest) : rest.length < toks.length := by
  unfold consume_comma at found
  split at found
  · rw [← some.inj found]
    exact Nat.lt_succ_self _
  · cases found

theorem assign_shorter {toks : List Token} {r : Rhs × List Token} (found : assign toks = some r) : r.2.length < toks.length := by
  unfold assign at found
  split at found
  · rw [← some.inj found]
    exact Nat.lt_succ_self _
  · rw [← some.inj found]
    exact Nat.lt_succ_self _
  · cases found

theorem excess_element_shorter {skip : List Token → Option (List Token)} {toks rest : List Token}
    (each : ∀ toks, ∀ rest ∈ skip toks, rest.length < toks.length) (found : excess_element skip toks = some rest) :
    rest.length < toks.length := by
  unfold excess_element at found
  split at found
  · exact Nat.lt_succ_of_lt (each _ rest found)
  · obtain ⟨r,read,rfl⟩ := map_eq_some_iff.1 found
    exact assign_shorter read

theorem skip_excess_elements2_shorter (fuel : Nat) (toks : List Token) :
    ∀ rest ∈ skip_excess_elements2 fuel toks, rest.length < toks.length := by
  induction fuel generalizing toks with
  | zero => nofun
  | succ fuel ih =>
    intro rest found
    rw [skip_excess_elements2,mem_def,bind_eq_some_iff] at found
    obtain ⟨next,element,found⟩ := found
    apply lt_trans _ (excess_element_shorter ih element)
    split at found
    · rename_i ended
      rw [← some.inj found]
      exact consume_end_shorter ended
    · obtain ⟨later,comma,skipped⟩ := bind_eq_some_iff.1 found
      exact (ih later rest skipped).trans (consume_comma_shorter comma)

theorem skip_excess_elements2_fuel {fuel fuel' : Nat} {toks : List Token} (enough : toks.length < fuel)
    (enough' : toks.length < fuel') : skip_excess_elements2 fuel toks = skip_excess_elements2 fuel' toks := by
  induction fuel generalizing fuel' toks with
  | zero => omega
  | succ fuel ih =>
    obtain ⟨fuel',rfl⟩ : ∃ k, fuel' = k + 1 := ⟨fuel' - 1,by omega⟩
    have element : excess_element (skip_excess_elements2 fuel) toks = excess_element (skip_excess_elements2 fuel') toks := by
      unfold excess_element
      split
      · rw [List.length_cons] at enough enough'
        exact ih (by omega) (by omega)
      · rfl
    rw [skip_excess_elements2,skip_excess_elements2,element]
    refine bind_congr fun next read => ?_
    have less := excess_element_shorter (skip_excess_elements2_shorter fuel') read
    cases consume_end next with
    | some rest => rfl
    | none =>
      refine bind_congr fun rest comma => ?_
      have shorter := consume_comma_shorter comma
      exact ih (by omega) (by omega)

section Shorter
variable {α : Type} {put : Desg → Rhs → α} {zero : Ty → Desg → List α}

/-- What a reader leaves is no longer than what it was given. -/
def Shorter (read : List Token → Option (Parsed α)) : Prop := ∀ toks, ∀ r ∈ read toks, r.rest.length ≤ toks.length

variable {toks rest : List Token} {read : Nat → List Token → Option (Parsed α)}

theorem next_element_shorter {limit : Option Nat} {i : Nat}
    (found : next_element limit i toks = some rest) : rest.length < toks.length := by
  unfold next_element at found
  split at found
  · exact consume_comma_shorter found
  · cases found

theorem elements_shorter (each : ∀ i, Shorter (read i)) (limit : Option Nat)
    (fuel i : Nat) : Shorter (elements read limit fuel i) := by
  intro toks
  induction fuel generalizing i toks with
  | zero => nofun
  | succ fuel ih =>
    intro r found
    rw [elements,mem_def,bind_eq_some_iff] at found
    obtain ⟨first,here,later⟩ := found
    have less := each i toks first here
    split at later
    · rename_i rest next
      obtain ⟨s,found,rfl⟩ := map_eq_some_iff.1 later
      have shorter := next_element_shorter next
      have last := ih (i + 1) rest s found
      dsimp only
      omega
    · rw [← some.inj later]
      exact less

/-- Any fuel that is more than the tokens gives the same elements. -/
theorem elements_fuel {read : Nat → List Token → Option (Parsed α)} (each : ∀ i, Shorter (read i)) (limit : Option Nat)
    {fuel fuel' i : Nat} {toks : List Token} (enough : toks.length < fuel) (enough' : toks.length < fuel') :
    elements read limit fuel i toks = elements read limit fuel' i toks := by
  induction fuel generalizing fuel' i toks with
  | zero => omega
  | succ fuel ih =>
    obtain ⟨fuel',rfl⟩ : ∃ k, fuel' = k + 1 := ⟨fuel' - 1,by omega⟩
    rw [elements,elements]
    refine bind_congr fun first here => ?_
    have less := each i toks first here
    cases next : next_element limit (i + 1) first.rest with
    | none => rfl
    | some rest =>
      have shorter := next_element_shorter next
      dsimp only
      rw [@ih fuel' (i + 1) rest (by omega) (by omega)]

theorem close_shorter {opened : Bool} (found : close opened toks = some rest) : rest.length ≤ toks.length := by
  unfold close at found
  split at found
  · split at found
    · rename_i ended
      rw [← some.inj found]
      exact (consume_end_shorter ended).le
    · obtain ⟨next,comma,skipped⟩ := bind_eq_some_iff.1 found
      exact ((skip_excess_elements2_shorter _ next rest skipped).trans (consume_comma_shorter comma)).le
  · rw [← some.inj found]

theorem array_shorter (each : ∀ i, Shorter (read i)) (base : Ty)
    (array_len : Option Nat) (desg : Desg) : Shorter (array_initializer put zero read base array_len desg) := by
  intro toks r found
  unfold array_initializer at found
  split at found
  · rw [← some.inj found]
    exact Nat.le_succ _
  · rw [list_initializer,mem_def,bind_eq_some_iff] at found
    obtain ⟨s,read_all,later⟩ := found
    obtain ⟨rest,closed,rfl⟩ := map_eq_some_iff.1 later
    have inside : ∀ toks, ∀ s ∈ list_elements read array_len toks, s.rest.length ≤ toks.length := by
      intro toks s found
      unfold list_elements at found
      split at found
      · rw [← some.inj found]
      · exact elements_shorter each array_len _ 0 toks s found
    have less := inside _ s read_all
    have last := close_shorter closed
    have tail : ∀ opened : Bool, (if opened then toks.tail else toks).length ≤ toks.length := by
      intro opened
      cases opened <;> simp
    exact (last.trans less).trans (tail _)

theorem initializer2_shorter (ty : Ty) (desg : Desg) : Shorter (initializer2 put zero ty desg) := by
  have scalar : ∀ desg, Shorter (scalar_initializer put desg) := by
    intro desg toks r found
    unfold scalar_initializer at found
    split at found
    · obtain ⟨s,read,later⟩ := bind_eq_some_iff.1 found
      obtain ⟨rest,ended,rfl⟩ := map_eq_some_iff.1 later
      have first := assign_shorter read
      have second := consume_end_shorter ended
      rw [List.length_cons]
      dsimp only
      omega
    · obtain ⟨s,read,rfl⟩ := map_eq_some_iff.1 found
      exact (assign_shorter read).le
  induction ty generalizing desg with
  | TY_INT => exact scalar desg
  | TY_CHAR => exact scalar desg
  | TY_ARRAY base array_len ih => exact array_shorter (fun i => ih (desg ++ [i])) base (some array_len) desg

theorem initializer2_elements (base : Ty) (desg : Desg) (limit : Option Nat) {fuel : Nat}
    (enough : toks.length < fuel) :
    elements (fun i => initializer2 put zero base (desg ++ [i])) limit fuel 0 toks =
      elements (fun i => initializer2 put zero base (desg ++ [i])) limit (toks.length + 1) 0 toks :=
  elements_fuel (fun i => initializer2_shorter base (desg ++ [i])) limit enough (Nat.lt_succ_self _)

theorem skip_excess_elements_enough (comma : consume_comma toks = some rest) {fuel : Nat}
    (enough : rest.length < fuel) : skip_excess_elements toks = skip_excess_elements2 fuel rest := by
  rw [skip_excess_elements,comma,bind_some]
  exact skip_excess_elements2_fuel (Nat.lt_succ_self _) enough

end Shorter

section Meaning
variable {α : Type} {put : Desg → Rhs → α} {zero : Ty → Desg → List α}

/-- The nodes for a slot. -/
def meaning (put : Desg → Rhs → α) (zero : Ty → Desg → List α) : Slot → List α
  | .given desg rhs => [put desg rhs]
  | .left ty desg => zero ty desg

def translate (put : Desg → Rhs → α) (zero : Ty → Desg → List α) (r : Parsed Slot) : Parsed α :=
  ⟨r.nodes.flatMap (meaning put zero),r.count,r.rest⟩

variable {read : Nat → List Token → Option (Parsed Slot)} {read' : Nat → List Token → Option (Parsed α)}

theorem elements_translate (same : ∀ i toks, read' i toks = (read i toks).map (translate put zero)) (limit : Option Nat) (fuel i : Nat)
    (toks : List Token) : elements read' limit fuel i toks = (elements read limit fuel i toks).map (translate put zero) := by
  induction fuel generalizing i toks with
  | zero => rfl
  | succ fuel ih =>
    rw [elements,elements,same]
    cases read i toks with
    | none => rfl
    | some r =>
      rw [map_some,bind_some,bind_some,translate]
      dsimp only
      cases next_element limit (i + 1) r.rest with
      | none => rfl
      | some rest =>
        dsimp only
        rw [ih]
        cases elements read limit fuel (i + 1) rest with
        | none => rfl
        | some s => simp [translate]

theorem excess_translate (put : Desg → Rhs → α) (base : Ty) (desg : Desg) (first last : Nat) :
    excess zero base desg first last =
      (excess (fun ty desg => [Slot.left ty desg]) base desg first last).flatMap (meaning put zero) := by
  simp [excess,List.flatMap_assoc,meaning]

theorem array_translate (same : ∀ i toks, read' i toks = (read i toks).map (translate put zero)) (base : Ty) (array_len : Option Nat) (desg : Desg)
    (toks : List Token) :
    array_initializer put zero read' base array_len desg toks =
      (array_initializer .given (fun ty desg => [.left ty desg]) read base array_len desg toks).map (translate put zero) := by
  have list : ∀ base toks, list_initializer zero read' base array_len desg toks =
      (list_initializer (fun ty desg => [.left ty desg]) read base array_len desg toks).map (translate put zero) := by
    intro base toks
    have inner : ∀ toks, list_elements read' array_len toks = (list_elements read array_len toks).map (translate put zero) := by
      intro toks
      unfold list_elements
      split
      · rfl
      · exact elements_translate same ..
    rw [list_initializer,list_initializer,inner]
    generalize list_elements read array_len _ = found
    cases found with
    | none => rfl
    | some r =>
      rw [map_some,bind_some,bind_some,translate]
      dsimp only
      generalize close _ r.rest = closed
      cases closed with
      | none => rfl
      | some rest =>
        rw [excess_translate put]
        simp [translate]
  unfold array_initializer
  split
  · rw [map_some]
    congr 1
    rw [string_initializer,string_initializer,translate,excess_translate put]
    simp [List.flatMap_assoc,meaning]
  · exact list base toks

theorem initializer2_translate (ty : Ty) (desg : Desg) (toks : List Token) :
    initializer2 put zero ty desg toks =
      (initializer2 .given (fun ty desg => [.left ty desg]) ty desg toks).map (translate put zero) := by
  have scalar : ∀ desg toks, scalar_initializer put desg toks = (scalar_initializer .given desg toks).map (translate put zero) := by
    intro desg toks
    unfold scalar_initializer
    split
    · rename_i toks
      cases assign toks with
      | none => rfl
      | some r =>
        rw [bind_some,bind_some]
        cases consume_end r.2 <;> rfl
    · cases assign toks <;> rfl
  induction ty generalizing desg toks with
  | TY_INT => exact scalar desg toks
  | TY_CHAR => exact scalar desg toks
  | TY_ARRAY base array_len ih => exact array_translate (fun i toks => ih (desg ++ [i]) toks) base (some array_len) desg toks

theorem initializer_translate (base : Ty) (array_len : Option Nat) (toks : List Token) :
    initializer put zero base array_len toks = (slots base array_len toks).map (translate put zero) :=
  array_translate (fun i toks => initializer2_translate base [i] toks) base array_len [] toks

end Meaning

theorem scalars_below {ty : Ty} {desg p : Desg} (member : p ∈ scalars ty desg) : desg <+: p := by
  induction ty generalizing desg with
  | TY_INT => rw [mem_singleton.1 member]
  | TY_CHAR => rw [mem_singleton.1 member]
  | TY_ARRAY base array_len ih =>
    obtain ⟨i,_,inside⟩ := mem_flatMap.1 member
    exact (List.prefix_append desg [i]).trans (ih inside)

/-- Two elements of one array have different indices. -/
theorem index_unique {desg p : Desg} {i j : Nat} (first : desg ++ [i] <+: p) (second : desg ++ [j] <+: p) : i = j := by
  have same := List.prefix_of_prefix_length_le first second (by simp)
  simpa using same

theorem mem_scalars_array {base : Ty} {n i : Nat} {desg p : Desg} (below : desg ++ [i] <+: p) :
    p ∈ scalars (.TY_ARRAY base n) desg ↔ i < n ∧ p ∈ scalars base (desg ++ [i]) := by
  rw [scalars,mem_flatMap]
  constructor
  · rintro ⟨j,less,inside⟩
    rw [index_unique below (scalars_below inside)]
    exact ⟨mem_range.1 less,inside⟩
  · intro ⟨less,inside⟩
    exact ⟨i,mem_range.2 less,inside⟩

theorem scalars_nodup (ty : Ty) (desg : Desg) : (scalars ty desg).Nodup := by
  induction ty generalizing desg with
  | TY_INT => exact List.nodup_singleton desg
  | TY_CHAR => exact List.nodup_singleton desg
  | TY_ARRAY base array_len ih =>
    rw [scalars,List.nodup_flatMap]
    refine ⟨fun i _ => ih _,List.nodup_range.imp ?_⟩
    intro i j different p first second
    exact different (index_unique (scalars_below first) (scalars_below second))

def covered (slots : List Slot) : List Desg := slots.flatMap targets

/-- The slots of an element, below its place: no scalar is in two of them, and each scalar of the element is in one. A slot lies
    in the element or has none of its scalars, as where an array of length 0 is given a value. -/
structure Fits (ty : Ty) (desg : Desg) (slots : List Slot) : Prop where
  nodup : (covered slots).Nodup
  below : ∀ p ∈ covered slots, desg <+: p
  covers : ∀ p ∈ scalars ty desg, p ∈ covered slots
  apart : ∀ s ∈ slots, (∀ p ∈ targets s, p ∈ scalars ty desg) ∨ ∀ p ∈ targets s, p ∉ scalars ty desg

theorem fits_left (ty : Ty) (desg : Desg) : Fits ty desg [.left ty desg] := by
  have same : covered [.left ty desg] = scalars ty desg := List.flatMap_singleton ..
  refine ⟨same ▸ scalars_nodup ty desg,fun p member => scalars_below (same ▸ member),fun p member => same ▸ member,
    fun s member => .inl ?_⟩
  rw [mem_singleton.1 member]
  exact fun p inside => inside

/-- The slots of the elements with a range of indices. -/
inductive Parts (base : Ty) (desg : Desg) : Nat → Nat → List Slot → Prop
  | nil (i : Nat) : Parts base desg i i []
  | cons {i k : Nat} {part rest : List Slot} (here : Fits base (desg ++ [i]) part) (later : Parts base desg (i + 1) k rest) :
      Parts base desg i k (part ++ rest)

variable {base : Ty} {desg : Desg} {i j k n : Nat}

theorem parts_append {first second : List Slot} (a : Parts base desg i j first) (b : Parts base desg j k second) :
    Parts base desg i k (first ++ second) := by
  induction a with
  | nil i => exact b
  | cons here later ih =>
    rw [List.append_assoc]
    exact .cons here (ih b)

theorem parts_range {g : Nat → List Slot} (each : ∀ i, Fits base (desg ++ [i]) (g i)) (first count : Nat) :
    Parts base desg first (first + count) ((List.range' first count).flatMap g) := by
  induction count generalizing first with
  | zero => exact .nil first
  | succ count ih =>
    rw [List.range'_succ,List.flatMap_cons,← Nat.add_assoc,Nat.add_right_comm]
    exact .cons (each first) (ih (first + 1))

section
variable {slots : List Slot} (parts : Parts base desg i k slots)
include parts

theorem parts_le : i ≤ k := by
  induction parts with
  | nil i => exact le_rfl
  | cons here later ih => omega

/-- Every slot belongs to an element, and lies in it or has none of its scalars. -/
theorem parts_slot {s : Slot} (member : s ∈ slots) : ∃ j, i ≤ j ∧ j < k ∧ (∀ p ∈ targets s, desg ++ [j] <+: p) ∧
      ((∀ p ∈ targets s, p ∈ scalars base (desg ++ [j])) ∨ ∀ p ∈ targets s, p ∉ scalars base (desg ++ [j])) := by
  induction parts with
  | nil i => cases member
  | @cons i k part rest here later ih =>
    rcases List.mem_append.1 member with now | then'
    · have le := parts_le later
      refine ⟨i,le_rfl,le,fun p inside => here.below p ?_,here.apart s now⟩
      exact mem_flatMap.2 ⟨s,now,inside⟩
    · obtain ⟨j,le,less,below,apart⟩ := ih then'
      exact ⟨j,by omega,less,below,apart⟩

theorem parts_nodup : (covered slots).Nodup := by
  induction parts with
  | nil i => exact List.nodup_nil
  | @cons i k part rest here later ih =>
    rw [covered,List.flatMap_append]
    refine List.nodup_append.2 ⟨here.nodup,ih,fun p first q second same => ?_⟩
    obtain ⟨s,member,inside⟩ := mem_flatMap.1 second
    obtain ⟨j,le,_,below,_⟩ := parts_slot later member
    have index := index_unique (here.below p first) (same ▸ below q inside)
    omega

theorem parts_covers {p : Desg} (from_here : i ≤ j) (less : j < k)
    (inside : p ∈ scalars base (desg ++ [j])) : p ∈ covered slots := by
  induction parts with
  | nil i => omega
  | @cons i k part rest here later ih =>
    rw [covered,List.flatMap_append,List.mem_append]
    by_cases now : j = i
    · rw [now] at inside
      exact .inl (here.covers p inside)
    · exact .inr (ih (by omega) less)

end

/-- The slots of the elements are the ones of the array. -/
theorem fits_array {slots : List Slot} (parts : Parts base desg 0 k slots) (enough : n ≤ k) :
    Fits (.TY_ARRAY base n) desg slots := by
  refine ⟨parts_nodup parts,fun p member => ?_,fun p member => ?_,fun s member => ?_⟩
  · obtain ⟨s,slot,inside⟩ := mem_flatMap.1 member
    obtain ⟨j,_,_,below,_⟩ := parts_slot parts slot
    exact (List.prefix_append desg [j]).trans (below p inside)
  · obtain ⟨j,less,inside⟩ := mem_flatMap.1 member
    have small := mem_range.1 less
    exact parts_covers parts (Nat.zero_le j) (by omega) inside
  · obtain ⟨j,_,_,below,apart⟩ := parts_slot parts member
    by_cases less : j < n
    · refine apart.imp (fun all p inside => ?_) fun none p inside => ?_
      · exact (mem_scalars_array (below p inside)).2 ⟨less,all p inside⟩
      · exact fun scalar => none p inside ((mem_scalars_array (below p inside)).1 scalar).2
    · exact .inr fun p inside scalar => less ((mem_scalars_array (below p inside)).1 scalar).1

theorem elements_parts {read : Nat → List Token → Option (Parsed Slot)}
    (each : ∀ i toks r, read i toks = some r → Fits base (desg ++ [i]) r.nodes) (limit : Option Nat) {fuel : Nat}
    {toks : List Token} {r : Parsed Slot} (found : elements read limit fuel i toks = some r) : Parts base desg i r.count r.nodes := by
  induction fuel generalizing i toks r with
  | zero => cases found
  | succ fuel ih =>
    rw [elements,bind_eq_some_iff] at found
    obtain ⟨first,here,later⟩ := found
    have fits := each i toks first here
    cases next : next_element limit (i + 1) first.rest with
    | none =>
      rw [next] at later
      rw [← some.inj later,← List.append_nil first.nodes]
      exact .cons fits (.nil _)
    | some rest =>
      rw [next,map_eq_some_iff] at later
      obtain ⟨s,found,rfl⟩ := later
      exact .cons fits (ih found)

/-- The elements that are left out follow the ones that were read. -/
theorem parts_excess {slots : List Slot} (parts : Parts base desg 0 k slots) (last : Nat) :
    ∃ m, last ≤ m ∧ k ≤ m ∧ (k = m ∨ last = m) ∧
      Parts base desg 0 m (slots ++ excess (fun ty desg => [.left ty desg]) base desg k last) := by
  refine ⟨k + (last - k),by omega,by omega,by omega,parts_append parts ?_⟩
  exact parts_range (fun i => fits_left base (desg ++ [i])) k (last - k)

theorem fits_given {ty : Ty} (scalar : scalars ty desg = [desg]) (rhs : Rhs) : Fits ty desg [.given desg rhs] := by
  have same : covered [.given desg rhs] = scalars ty desg := scalar.symm
  refine ⟨same ▸ scalars_nodup ty desg,fun p member => scalars_below (same ▸ member),fun p member => same ▸ member,
    fun s member => .inl ?_⟩
  rw [mem_singleton.1 member,scalar]
  exact fun p inside => inside

theorem array_fits {read : Nat → List Token → Option (Parsed Slot)}
    (each : ∀ i toks r, read i toks = some r → Fits base (desg ++ [i]) r.nodes) {array_len : Option Nat} {toks : List Token}
    {r : Parsed Slot}
    (found : array_initializer .given (fun ty desg => [.left ty desg]) read base array_len desg toks = some r) :
    Fits (.TY_ARRAY base (array_len.getD r.count)) desg r.nodes := by
  unfold array_initializer at found
  split at found
  · rename_i contents rest
    rw [← some.inj found]
    have parts := @parts_range .TY_CHAR desg _ (fun i => @fits_given (desg ++ [i]) .TY_CHAR rfl
        (.num ((contents.take (array_len.getD contents.length)).getD i 0))) 0
      (contents.take (array_len.getD contents.length)).length
    rw [Nat.zero_add] at parts
    obtain ⟨m,last,count,_,all⟩ := parts_excess parts (array_len.getD contents.length)
    refine fits_array all ?_
    cases array_len with
    | none => exact count
    | some n => exact last
  · rw [list_initializer,bind_eq_some_iff] at found
    obtain ⟨s,read_all,later⟩ := found
    obtain ⟨rest,_,rfl⟩ := map_eq_some_iff.1 later
    have parts : Parts base desg 0 s.count s.nodes := by
      unfold list_elements at read_all
      split at read_all
      · rw [← some.inj read_all]
        exact .nil 0
      · exact elements_parts each array_len read_all
    obtain ⟨m,last,count,_,all⟩ := parts_excess parts (array_len.getD 0)
    refine fits_array all ?_
    cases array_len with
    | none => exact count
    | some n => exact last

theorem initializer2_fits (ty : Ty) (desg : Desg) (toks : List Token) (r : Parsed Slot)
    (found : initializer2 .given (fun ty desg => [.left ty desg]) ty desg toks = some r) : Fits ty desg r.nodes := by
  have scalar : ∀ desg toks (r : Parsed Slot), scalar_initializer .given desg toks = some r → ∃ rhs, r.nodes = [.given desg rhs] := by
    intro desg toks r found
    unfold scalar_initializer at found
    split at found
    · rw [bind_eq_some_iff] at found
      obtain ⟨s,_,later⟩ := found
      obtain ⟨rest,_,rfl⟩ := map_eq_some_iff.1 later
      exact ⟨s.1,rfl⟩
    · obtain ⟨s,_,rfl⟩ := map_eq_some_iff.1 found
      exact ⟨s.1,rfl⟩
  induction ty generalizing desg toks r with
  | TY_INT =>
    obtain ⟨rhs,same⟩ := scalar desg toks r found
    rw [same]
    exact fits_given rfl rhs
  | TY_CHAR =>
    obtain ⟨rhs,same⟩ := scalar desg toks r found
    rw [same]
    exact fits_given rfl rhs
  | TY_ARRAY base array_len ih => exact @array_fits base desg _ (fun i toks r => ih (desg ++ [i]) toks r) (some array_len) _ _ found

theorem slots_fits {array_len : Option Nat} {toks : List Token} {r : Parsed Slot} (found : slots base array_len toks = some r) :
    Fits (.TY_ARRAY base (array_len.getD r.count)) [] r.nodes :=
  array_fits (fun i toks r => initializer2_fits base [i] toks r) found

theorem mem_zero_array {p : Desg} {v : Rhs} :
    (p,v) ∈ lvar_init_zero (.TY_ARRAY base n) desg ↔ ∃ i, (i < n ∧ i % 2 = 0) ∧ (p,v) ∈ lvar_init_zero base (desg ++ [i]) := by
  rw [lvar_init_zero,mem_flatMap]
  simp

theorem zero_inside {ty : Ty} {desg p : Desg} {v : Rhs} (member : (p,v) ∈ lvar_init_zero ty desg) :
    p ∈ scalars ty desg ∧ v = .num 0 := by
  induction ty generalizing desg with
  | TY_INT => simpa [lvar_init_zero,scalars] using member
  | TY_CHAR => simpa [lvar_init_zero,scalars] using member
  | TY_ARRAY base array_len ih =>
    obtain ⟨i,⟨less,_⟩,inside⟩ := mem_zero_array.1 member
    obtain ⟨scalar,value⟩ := ih inside
    exact ⟨mem_flatMap.2 ⟨i,mem_range.2 less,scalar⟩,value⟩

/-- How many scalars an element has. -/
def size : Ty → Nat
  | .TY_ARRAY base array_len => array_len * size base
  | _ => 1

theorem scalars_length (ty : Ty) (desg : Desg) : (scalars ty desg).length = size ty := by
  induction ty generalizing desg with
  | TY_INT => rfl
  | TY_CHAR => rfl
  | TY_ARRAY base array_len ih => simp [scalars,size,List.length_flatMap,ih]

theorem zero_some {ty : Ty} (some : 0 < size ty) (desg : Desg) : ∃ p, (p,.num 0) ∈ lvar_init_zero ty desg := by
  induction ty generalizing desg with
  | TY_INT => exact ⟨desg,mem_singleton.2 rfl⟩
  | TY_CHAR => exact ⟨desg,mem_singleton.2 rfl⟩
  | TY_ARRAY base array_len ih =>
    rw [size] at some
    obtain ⟨p,inside⟩ := ih (Nat.pos_of_mul_pos_left some) (desg ++ [0])
    exact ⟨p,mem_zero_array.2 ⟨0,⟨Nat.pos_of_mul_pos_right some,rfl⟩,inside⟩⟩

theorem scalars_none {ty : Ty} (none : size ty = 0) (desg : Desg) : scalars ty desg = [] :=
  List.length_eq_zero_iff.1 ((scalars_length ty desg).trans none)

/-- One scalar is set to zero. -/
theorem zero_single {ty : Ty} (single : size ty ≤ 1) (desg : Desg) :
    lvar_init_zero ty desg = (scalars ty desg).map fun p => (p,.num 0) := by
  induction ty generalizing desg with
  | TY_INT => rfl
  | TY_CHAR => rfl
  | TY_ARRAY base array_len ih =>
    rw [size] at single
    have small : size base ≤ 1 ∨ array_len = 0 := by
      by_contra both
      have more := Nat.mul_le_mul (show 1 ≤ array_len by omega) (show 2 ≤ size base by omega)
      omega
    rcases small with small | zero
    · rw [lvar_init_zero,scalars,List.map_flatMap]
      simp only [ih small]
      by_cases none : size base = 0
      · rw [List.flatMap_eq_nil_iff.2 fun i _ => by rw [scalars_none none]; rfl,
          List.flatMap_eq_nil_iff.2 fun i _ => by rw [scalars_none none]; rfl]
      · have few : array_len ≤ 1 := by
          have more := Nat.le_mul_of_pos_right array_len (Nat.pos_of_ne_zero none)
          omega
        interval_cases array_len <;> rfl
    · rw [zero]
      rfl

/-- Of several scalars one is left out. -/
theorem zero_misses {ty : Ty} (several : 2 ≤ size ty) (desg : Desg) :
    ∃ p ∈ scalars ty desg, ∀ v, (p,v) ∉ lvar_init_zero ty desg := by
  induction ty generalizing desg with
  | TY_INT => simp [size] at several
  | TY_CHAR => simp [size] at several
  | TY_ARRAY base array_len ih =>
    rw [size] at several
    have some : 0 < size base := Nat.pos_of_mul_pos_left (by omega : 0 < array_len * size base)
    by_cases many : 2 ≤ array_len
    · -- The second element is skipped.
      obtain ⟨p,inside⟩ := List.exists_mem_of_length_pos (by rw [scalars_length]; exact some : 0 < (scalars base (desg ++ [1])).length)
      refine ⟨p,mem_flatMap.2 ⟨1,mem_range.2 many,inside⟩,fun v member => ?_⟩
      obtain ⟨i,⟨_,even⟩,member⟩ := mem_zero_array.1 member
      have index := index_unique (scalars_below inside) (scalars_below (zero_inside member).1)
      omega
    · have one : array_len = 1 := by
        by_contra other
        have none : array_len = 0 := by omega
        rw [none] at several
        omega
      rw [one,Nat.one_mul] at several
      obtain ⟨p,inside,missed⟩ := ih several (desg ++ [0])
      refine ⟨p,mem_flatMap.2 ⟨0,by simp [one],inside⟩,fun v member => ?_⟩
      obtain ⟨i,⟨less,_⟩,member⟩ := mem_zero_array.1 member
      have zero : i = 0 := by omega
      exact missed v (zero ▸ member)

/-- A slot holds one scalar at most, and none that is outside the variable. -/
def Right (ty : Ty) (s : Slot) : Prop := (targets s).length ≤ 1 ∧ ∀ p ∈ targets s, p ∈ scalars ty []

theorem assigned_targets {s : Slot} {p : Desg} {v : Rhs} (member : (p,v) ∈ assigned s) : p ∈ targets s := by
  cases s with
  | given desg rhs => exact mem_singleton.2 (congrArg Prod.fst (mem_singleton.1 member))
  | left ty desg => exact (zero_inside member).1

/-- A scalar is in one slot only. -/
theorem slot_unique {ty : Ty} {slots : List Slot} (fits : Fits ty desg slots) {s t : Slot} (first : s ∈ slots) (second : t ∈ slots)
    {p : Desg} (inside : p ∈ targets s) (inside' : p ∈ targets t) : s = t := by
  by_contra different
  have apart := (List.nodup_flatMap.1 fits.nodup).2
  have symmetric : Std.Symm (Function.onFun List.Disjoint targets) := ⟨fun _ _ => List.Disjoint.symm⟩
  exact apart.forall first second different inside inside'

theorem initialised_iff {ty : Ty} {slots : List Slot} (fits : Fits ty [] slots) :
    Initialised ty slots (slots.flatMap assigned) ↔ ∀ s ∈ slots, Right ty s := by
  constructor
  · intro right s member
    have placed : ∀ {p v}, (p,v) ∈ assigned s → p ∈ scalars ty [] := fun {p v} inside =>
      right.once.mem_iff.1 (List.mem_map.2 ⟨(p,v),mem_flatMap.2 ⟨s,member,inside⟩,rfl⟩)
    cases s with
    | given desg rhs =>
      refine ⟨le_rfl,fun p inside => ?_⟩
      rw [mem_singleton.1 inside]
      exact placed (mem_singleton.2 rfl)
    | left t desg =>
      have length : (targets (.left t desg)).length = size t := scalars_length t desg
      rcases Nat.eq_zero_or_pos (size t) with none | some
      · refine ⟨by omega,fun p inside => ?_⟩
        rw [targets,scalars_none none] at inside
        cases inside
      · obtain ⟨q,zeroed⟩ := zero_some some desg
        have all := (fits.apart _ member).resolve_right fun outside => outside q (zero_inside zeroed).1 (placed zeroed)
        refine ⟨?_,all⟩
        by_contra several
        obtain ⟨p,inside,missed⟩ := zero_misses (show 2 ≤ size t by omega) desg
        obtain ⟨⟨p',v⟩,assigned_p,rfl⟩ := List.mem_map.1 (right.once.mem_iff.2 (all p inside))
        obtain ⟨u,member',here⟩ := mem_flatMap.1 assigned_p
        have same := slot_unique fits member member' inside (assigned_targets here)
        rw [← same] at here
        exact missed v here
  · intro right
    have each : ∀ s ∈ slots, (assigned s).map Prod.fst = targets s := by
      intro s member
      cases s with
      | given desg rhs => rfl
      | left t desg =>
        rw [assigned,zero_single (scalars_length t desg ▸ (right _ member).1),List.map_map]
        exact List.map_id _
    have places : (slots.flatMap assigned).map Prod.fst = covered slots := by
      rw [List.map_flatMap]
      exact List.flatMap_congr each
    refine ⟨?_,fun p v member => ?_⟩
    · rw [places]
      refine (List.perm_ext_iff_of_nodup fits.nodup (scalars_nodup ty [])).2 fun p => ⟨fun member => ?_,fits.covers p⟩
      obtain ⟨s,slot,inside⟩ := mem_flatMap.1 member
      exact (right s slot).2 p inside
    · obtain ⟨s,slot,here⟩ := mem_flatMap.1 member
      cases s with
      | given desg rhs =>
        obtain ⟨rfl,rfl⟩ := Prod.mk.injEq .. ▸ mem_singleton.1 here
        exact .inl slot
      | left t desg =>
        refine .inr ⟨(zero_inside here).2,fun rhs also => ?_⟩
        cases slot_unique fits slot also (zero_inside here).1 (mem_singleton.2 rfl)

/-- The loops do not end for want of fuel: with more of it they read the same. -/
structure Fuelled (base : Ty) : Prop where
  elements : ∀ (desg : Desg) (limit : Option Nat) (fuel : Nat) (toks : List Token), toks.length < fuel →
    elements (fun i => initializer2 Prod.mk lvar_init_zero base (desg ++ [i])) limit fuel 0 toks =
      elements (fun i => initializer2 Prod.mk lvar_init_zero base (desg ++ [i])) limit (toks.length + 1) 0 toks
  excess : ∀ (fuel : Nat) (toks rest : List Token), consume_comma toks = some rest → rest.length < fuel →
    skip_excess_elements toks = skip_excess_elements2 fuel rest

/-- Every scalar of an array is assigned exactly once just if no element that is left out has more than one scalar, and no value
    is given for an element of an array of length 0. -/
theorem initializer_right (base : Ty) (array_len : Option Nat) (toks : List Token) :
    ((∀ r ∈ lvar_initializer base array_len toks, ∀ s ∈ slots base array_len toks,
      Initialised (.TY_ARRAY base (array_len.getD r.count)) s.nodes r.nodes) ↔
    ∀ s ∈ slots base array_len toks, ∀ slot ∈ s.nodes, Right (.TY_ARRAY base (array_len.getD s.count)) slot) ∧ Fuelled base := by
  refine ⟨?_,⟨fun desg limit fuel toks enough => initializer2_elements base desg limit enough,
    fun fuel toks rest comma enough => skip_excess_elements_enough comma enough⟩⟩
  have same : meaning Prod.mk lvar_init_zero = assigned := by
    funext s
    cases s <;> rfl
  rw [lvar_initializer,initializer_translate]
  cases read : slots base array_len toks with
  | none => simp
  | some s =>
    have fits := slots_fits read
    simp only [map_some,Option.mem_some_iff,forall_eq',translate,same]
    exact initialised_iff fits

/-- `int x[2][2] = {1};` leaves `x[1][1]` unset. -/
theorem short_row_unset : ¬∀ (base : Ty) (array_len : Option Nat) (toks : List Token),
    ∀ r ∈ lvar_initializer base array_len toks, ∀ s ∈ slots base array_len toks,
      Initialised (.TY_ARRAY base (array_len.getD r.count)) s.nodes r.nodes := by
  intro right
  have row := (right (.TY_ARRAY .TY_INT 2) (some 2) [.lbrace,.node 0,.rbrace,.other] _ rfl _ rfl).once.length_eq
  revert row
  decide

end MicroOS.LocalInitializers

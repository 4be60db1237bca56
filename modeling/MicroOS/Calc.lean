import Mathlib.Tactic

/-!
The calculator: a lexer, a parser over the tokens by an index, and the evaluation of its
nodes. A read through NULL and an `abort` have no result; neither has a parse that is given
too little fuel.
-/
namespace MicroOS.Calc
set_option linter.style.nameCheck false

abbrev Word := BitVec 32

/-- A `lexer_token_t` with what its `value` is for its type. -/
inductive Token where
  | number (value : Word)
  | plus
  | minus
  | multiply
  | divide
  | modulo
  | lparen
  | rparen
  | comma
  | id (name : List Char)
  deriving DecidableEq

/-- `enum lexer_token_e`. -/
def Token.type : Token → Nat
  | number _ => 0
  | plus => 1
  | minus => 2
  | multiply => 3
  | divide => 4
  | modulo => 5
  | lparen => 6
  | rparen => 7
  | comma => 8
  | id _ => 9

/-- The places of two node types in `enum parser_node_type_e`. -/
def plus_node : Nat := 6
def minus_node : Nat := 7

/-- A `parser_node_t` by its type. -/
inductive Node where
  | number_node (value : Word)
  | add_node (node_a node_b : Node)
  | substract_node (node_a node_b : Node)
  | multiply_node (node_a node_b : Node)
  | divide_node (node_a node_b : Node)
  | modulo_node (node_a node_b : Node)
  | plus_node (node_a : Node)
  | minus_node (node_a : Node)
  deriving DecidableEq

/-- The value of a character in a number of any base. -/
def digit (c : Char) : Option Nat :=
  if '0' ≤ c ∧ c ≤ '9' then some (c.toNat - '0'.toNat)
  else if 'a' ≤ c ∧ c ≤ 'f' then some (c.toNat - 'a'.toNat + 10)
  else if 'A' ≤ c ∧ c ≤ 'F' then some (c.toNat - 'A'.toNat + 10)
  else none

/-- The loop of `_lexer_parse_number`: the number and the input behind it. -/
def number_loop (number_system_base : Word) : Word → List Char → Word × List Char
  | number, [] => (number,[])
  | number, c :: rest =>
    match digit c with
    | some d => number_loop number_system_base (number * number_system_base + BitVec.ofNat 32 d) rest
    | none => (number,c :: rest)

def _lexer_parse_number (input : List Char) : Word × List Char :=
  match input with
  | '0' :: 'x' :: rest => number_loop 16 0 rest
  | '0' :: 'b' :: rest => number_loop 2 0 rest
  | _ => number_loop 10 0 input

def letter (c : Char) : Bool := 'a' ≤ c && c ≤ 'z' || 'A' ≤ c && c ≤ 'Z'

/-- The loop of `lexer_tokenize`; each pass takes a character or more. -/
def lexer_loop : Nat → List Char → Option (List Token)
  | _, [] => some []
  | 0, _ => none
  | fuel + 1, current :: rest =>
    match current with
    | ' ' | '\t' | '\n' => lexer_loop fuel rest
    | '+' => (lexer_loop fuel rest).map (.plus :: ·)
    | '-' => (lexer_loop fuel rest).map (.minus :: ·)
    | '*' => (lexer_loop fuel rest).map (.multiply :: ·)
    | '/' => (lexer_loop fuel rest).map (.divide :: ·)
    | '%' => (lexer_loop fuel rest).map (.modulo :: ·)
    | '(' => (lexer_loop fuel rest).map (.lparen :: ·)
    | ')' => (lexer_loop fuel rest).map (.rparen :: ·)
    | ',' => (lexer_loop fuel rest).map (.comma :: ·)
    | _ =>
      if '0' ≤ current ∧ current ≤ '9' then
        let (number,rest) := _lexer_parse_number (current :: rest)
        (lexer_loop fuel rest).map (.number number :: ·)
      else if letter current then
        (lexer_loop fuel (rest.dropWhile letter)).map (.id (current :: rest.takeWhile letter) :: ·)
      else none

/-- The loop looks at the end of an empty input, which is no token. -/
def lexer_tokenize (input : List Char) : Option (List Token) :=
  if input = [] then none else lexer_loop input.length input

def dynamic_array_iterator_has_next (tokens : List Token) (idx : Nat) : Bool := idx < tokens.length

def dynamic_array_iterator_get_next (tokens : List Token) (idx : Nat) : Option Token := tokens[idx]?

/-- The token, NULL at the end, and the index behind it. -/
def dynamic_array_iterator_next (tokens : List Token) (idx : Nat) : Option Token × Nat :=
  if idx < tokens.length then (tokens[idx]?,idx + 1) else (none,idx)

def __parser_constant (name : List Char) : Option Word := if name = "test".toList then some 3 else none

/-- The node that a token makes in a term. -/
def term_node : Token → Option (Node → Node → Node)
  | .multiply => some .multiply_node
  | .divide => some .divide_node
  | .modulo => some .modulo_node
  | _ => none

/-- The node that a token makes in an expression. -/
def expr_node : Token → Option (Node → Node → Node)
  | .plus => some .add_node
  | .minus => some .substract_node
  | _ => none

mutual

def __parser_factor : Nat → List Token → Nat → Option (Node × Nat)
  | 0, _, _ => none
  | fuel + 1, tokens, idx =>
    match dynamic_array_iterator_get_next tokens idx with
    | none => none
    | some .lparen =>
      match __parser_expr fuel tokens (dynamic_array_iterator_next tokens idx).2 with
      | none => none
      | some (node,idx) =>
        let idx := idx - 1
        match dynamic_array_iterator_get_next tokens idx with
        | some .rparen => some (node,(dynamic_array_iterator_next tokens idx).2)
        | _ => none
    | some (.number value) => some (.number_node value,(dynamic_array_iterator_next tokens idx).2)
    | some current_token =>
      -- The types of tokens are compared with types of nodes here.
      if current_token.type = plus_node then
        (__parser_factor fuel tokens (dynamic_array_iterator_next tokens idx).2).map fun r => (.plus_node r.1,r.2)
      else if current_token.type = minus_node then
        (__parser_factor fuel tokens (dynamic_array_iterator_next tokens idx).2).map fun r => (.minus_node r.1,r.2)
      else
        match current_token with
        | .id name =>
          (__parser_constant name).map fun constant => (.number_node constant,(dynamic_array_iterator_next tokens idx).2)
        | _ => none

def __parser_term : Nat → List Token → Nat → Option (Node × Nat)
  | 0, _, _ => none
  | fuel + 1, tokens, idx =>
    match __parser_factor fuel tokens idx with
    | none => none
    | some (node,idx) => term_loop fuel tokens idx node

def term_loop : Nat → List Token → Nat → Node → Option (Node × Nat)
  | 0, _, _, _ => none
  | fuel + 1, tokens, idx, node =>
    match (dynamic_array_iterator_get_next tokens idx).bind term_node with
    | none => some (node,idx)
    | some make =>
      match __parser_factor fuel tokens (dynamic_array_iterator_next tokens idx).2 with
      | none => none
      | some (node_b,idx) => term_loop fuel tokens idx (make node node_b)

def __parser_expr : Nat → List Token → Nat → Option (Node × Nat)
  | 0, _, _ => none
  | fuel + 1, tokens, idx =>
    match __parser_term fuel tokens idx with
    | none => none
    | some (node,idx) => expr_loop fuel tokens (dynamic_array_iterator_get_next tokens idx) idx node

/-- The token of the loop is the next one at first, and one that was taken later. -/
def expr_loop : Nat → List Token → Option Token → Nat → Node → Option (Node × Nat)
  | 0, _, _, _, _ => none
  | fuel + 1, tokens, current_token, idx, node =>
    if dynamic_array_iterator_has_next tokens idx then
      match current_token with
      | none => none
      | some current_token =>
        match expr_node current_token with
        | none => some (node,idx)
        | some make =>
          match __parser_term fuel tokens (dynamic_array_iterator_next tokens idx).2 with
          | none => none
          | some (node_b,idx) =>
            let (current_token,idx) := dynamic_array_iterator_next tokens idx
            expr_loop fuel tokens current_token idx (make node node_b)
    else some (node,idx)

end

/-- The node and the index where the iterator is left. -/
def parser_parse (fuel : Nat) (tokens : List Token) : Option (Node × Nat) := __parser_expr fuel tokens 0

/-- The division of the processor, which faults when the quotient is no `int`. -/
def quotient (a b : Word) : Option Word :=
  if b = 0 ∨ a = BitVec.intMin 32 ∧ b = -1 then none else some (a.sdiv b)

def remainder (a b : Word) : Option Word :=
  if b = 0 ∨ a = BitVec.intMin 32 ∧ b = -1 then none else some (a.srem b)

def eval : Node → Option Word
  | .number_node value => some value
  | .add_node a b => do return (← eval a) + (← eval b)
  | .substract_node a b => do return (← eval a) - (← eval b)
  | .multiply_node a b => do return (← eval a) * (← eval b)
  | .divide_node a b => do quotient (← eval a) (← eval b)
  | .modulo_node a b => do remainder (← eval a) (← eval b)
  | .plus_node _ => none
  | .minus_node _ => none

end MicroOS.Calc

import MicroOS.Calc

/-!
Well-formed expressions and how the calculator reads them. In the order in which the parser
reads, an expression is `clean`, or its first fault makes the parser give up (`stuck`), or it
goes on with something else (`astray`). Clean expressions are calculated, and stuck ones are
not (`calculated`).
-/
namespace MicroOS.Calc

inductive Mark where
  | plus | minus | multiply | divide | modulo | lparen | rparen
  deriving DecidableEq

def Mark.char : Mark → Char
  | plus => '+'
  | minus => '-'
  | multiply => '*'
  | divide => '/'
  | modulo => '%'
  | lparen => '('
  | rparen => ')'

def Mark.token : Mark → Token
  | plus => .plus
  | minus => .minus
  | multiply => .multiply
  | divide => .divide
  | modulo => .modulo
  | lparen => .lparen
  | rparen => .rparen

inductive Lexeme where
  | number (n : Nat)
  | mark (m : Mark)
  deriving DecidableEq

def Lexeme.token : Lexeme → Token
  | number n => .number (BitVec.ofNat 32 n)
  | mark m => m.token

/-- Signs and the operators of sums, and those of terms. -/
inductive AddOp where
  | plus | minus
  deriving DecidableEq

inductive MulOp where
  | multiply | divide | modulo
  deriving DecidableEq

def AddOp.mark : AddOp → Mark
  | plus => .plus
  | minus => .minus

def MulOp.mark : MulOp → Mark
  | multiply => .multiply
  | divide => .divide
  | modulo => .modulo

mutual

inductive Factor where
  | number (n : Nat)
  | group (e : Sum)
  | signed (sign : AddOp) (f : Factor)

/-- Factors from the left. -/
inductive Term where
  | factor (f : Factor)
  | times (t : Term) (op : MulOp) (f : Factor)

/-- Terms from the left. -/
inductive Sum where
  | term (t : Term)
  | add (e : Sum) (op : AddOp) (t : Term)

end

mutual

def Factor.lexemes : Factor → List Lexeme
  | .number n => [.number n]
  | .group e => .mark .lparen :: (e.lexemes ++ [.mark .rparen])
  | .signed sign f => .mark sign.mark :: f.lexemes

def Term.lexemes : Term → List Lexeme
  | .factor f => f.lexemes
  | .times t op f => t.lexemes ++ .mark op.mark :: f.lexemes

def Sum.lexemes : Sum → List Lexeme
  | .term t => t.lexemes
  | .add e op t => e.lexemes ++ .mark op.mark :: t.lexemes

end

def Factor.tokens (f : Factor) : List Token := f.lexemes.map Lexeme.token
def Term.tokens (t : Term) : List Token := t.lexemes.map Lexeme.token
def Sum.tokens (e : Sum) : List Token := e.lexemes.map Lexeme.token

def blank (c : Char) : Bool := c = ' ' ∨ c = '\t' ∨ c = '\n'

def decimal (ds : List Char) : Nat := ds.foldl (fun n c => n * 10 + (c.toNat - '0'.toNat)) 0

/-- The strings that spell lexemes, with blanks before each and behind the last. -/
inductive Spells : List Lexeme → List Char → Prop
  | done {blanks : List Char} (blank : blanks.all blank = true) : Spells [] blanks
  | mark {blanks s : List Char} {ls : List Lexeme} (blank : blanks.all blank = true) (m : Mark) (rest : Spells ls s) :
      Spells (.mark m :: ls) (blanks ++ m.char :: s)
  | number {blanks ds s : List Char} {ls : List Lexeme} (blank : blanks.all blank = true) (some_digit : ds ≠ [])
      (digits : ds.all (fun c => '0' ≤ c ∧ c ≤ '9') = true) (rest : Spells ls s) :
      Spells (.number (decimal ds) :: ls) (blanks ++ ds ++ s)

/-- Numbers that overflow have no value. -/
def int (x : Int) : Option Int := if -2 ^ 31 ≤ x ∧ x < 2 ^ 31 then some x else none

def AddOp.value (op : AddOp) (a b : Int) : Option Int :=
  match op with
  | plus => int (a + b)
  | minus => int (a - b)

def MulOp.value (op : MulOp) (a b : Int) : Option Int :=
  match op with
  | multiply => int (a * b)
  | divide => if b = 0 then none else int (a.tdiv b)
  | modulo => if b = 0 then none else (int (a.tdiv b)).map fun _ => a.tmod b

mutual

def Factor.value : Factor → Option Int
  | .number n => int n
  | .group e => e.value
  | .signed sign f => f.value.bind fun x => sign.value 0 x

def Term.value : Term → Option Int
  | .factor f => f.value
  | .times t op f => t.value.bind fun a => f.value.bind fun b => op.value a b

def Sum.value : Sum → Option Int
  | .term t => t.value
  | .add e op t => e.value.bind fun a => t.value.bind fun b => op.value a b

end

/-- The calculator reads the whole string and has its value. -/
def Calculates (s : List Char) (v : Int) : Prop :=
  ∃ tokens fuel node w, lexer_tokenize s = some tokens ∧ parser_parse fuel tokens = some (node,tokens.length) ∧
    eval node = some w ∧ w.toInt = v

inductive Reading where
  | clean | stuck | astray
  deriving DecidableEq

/-- The first fault of two parts. -/
def Reading.andThen (first : Reading) (second : Reading) : Reading :=
  match first with
  | clean => second
  | other => other

/-- Whether what begins or ends here is a number. -/
def Lexeme.isNumber : Lexeme → Bool
  | number _ => true
  | mark _ => false

/-- A fault at a token, where a number stops the parser. -/
def fault (l : Option Lexeme) : Reading := if l.any Lexeme.isNumber then .stuck else .astray

mutual

/-- A sign is no factor. A group of one term must end like a group. -/
def Factor.reading : Factor → Reading
  | .number _ => .clean
  | .group e =>
    match e with
    | .term t => t.reading.andThen (fault t.lexemes.getLast?)
    | e => e.reading
  | .signed _ _ => .stuck

def Term.reading : Term → Reading
  | .factor f => f.reading
  | .times t _ f => t.reading.andThen f.reading

/-- The third term of a sum loses its first token. -/
def Sum.reading : Sum → Reading
  | .term t => t.reading
  | .add e _ t =>
    match e with
    | .term first => first.reading.andThen t.reading
    | e => e.reading.andThen (fault t.lexemes.head?)

end

end MicroOS.Calc

import MicroOS.CalcReadings

/-!
What the calculator does with well-formed expressions. The parser is read as rules without
fuel (`Factors`, `Terms`, `Exprs`); over the trees, a clean part is read as itself, and a stuck
part is never read (`factor_spec`, `term_spec`, `sum_spec`).
-/
namespace MicroOS.Calc
open Option (bind_eq_some_iff map_eq_some_iff some.inj some.injEq)
set_option linter.style.nameCheck false

/-! ### Rules of the parser -/

section
variable {tokens : List Token} {idx : Nat} {node : Node} {current : Option Token} {r : Node × Nat}

/-- More fuel gives the same result. -/
theorem more_fuel (fuel : Nat) : ∀ tokens : List Token,
    (∀ idx r, __parser_factor fuel tokens idx = some r → __parser_factor (fuel + 1) tokens idx = some r) ∧
    (∀ idx r, __parser_term fuel tokens idx = some r → __parser_term (fuel + 1) tokens idx = some r) ∧
    (∀ idx node r, term_loop fuel tokens idx node = some r → term_loop (fuel + 1) tokens idx node = some r) ∧
    (∀ idx r, __parser_expr fuel tokens idx = some r → __parser_expr (fuel + 1) tokens idx = some r) ∧
    (∀ current idx node r, expr_loop fuel tokens current idx node = some r →
      expr_loop (fuel + 1) tokens current idx node = some r) := by
  induction fuel with
  | zero =>
    intro tokens
    refine ⟨?_,?_,?_,?_,?_⟩ <;> intros <;> simp_all [__parser_factor,__parser_term,term_loop,__parser_expr,expr_loop]
  | succ fuel ih =>
    intro tokens
    obtain ⟨factor,term,terms,expr,exprs⟩ := ih tokens
    refine ⟨?_,?_,?_,?_,?_⟩
    · intro idx r parsed
      rw [__parser_factor] at parsed ⊢
      split at parsed
      · cases parsed
      · split at parsed
        · cases parsed
        · rename_i inner
          rw [expr _ _ inner]
          exact parsed
      · exact parsed
      · split at parsed
        · rename_i same
          rw [if_pos same]
          obtain ⟨r',inner,rfl⟩ := map_eq_some_iff.1 parsed
          rw [factor _ _ inner]
          rfl
        · rename_i other
          rw [if_neg other]
          split at parsed
          · rename_i same
            rw [if_pos same]
            obtain ⟨r',inner,rfl⟩ := map_eq_some_iff.1 parsed
            rw [factor _ _ inner]
            rfl
          · rename_i other
            rw [if_neg other]
            exact parsed
    · intro idx r parsed
      rw [__parser_term] at parsed ⊢
      split at parsed
      · cases parsed
      · rename_i inner
        rw [factor _ _ inner]
        exact terms _ _ _ parsed
    · intro idx node r parsed
      rw [term_loop] at parsed ⊢
      split at parsed
      · exact parsed
      · split at parsed
        · cases parsed
        · rename_i inner
          rw [factor _ _ inner]
          exact terms _ _ _ parsed
    · intro idx r parsed
      rw [__parser_expr] at parsed ⊢
      split at parsed
      · cases parsed
      · rename_i inner
        rw [term _ _ inner]
        exact exprs _ _ _ _ parsed
    · intro current idx node r parsed
      rw [expr_loop.eq_def] at parsed ⊢
      dsimp only at parsed ⊢
      split at parsed
      · rename_i next
        rw [if_pos next]
        split at parsed
        · cases parsed
        · split at parsed
          · exact parsed
          · split at parsed
            · cases parsed
            · rename_i inner
              rw [term _ _ inner]
              exact exprs _ _ _ _ parsed
      · rename_i last
        rw [if_neg last]
        exact parsed

def Factors (tokens : List Token) (idx : Nat) (r : Node × Nat) : Prop := ∃ fuel, __parser_factor fuel tokens idx = some r
def Terms (tokens : List Token) (idx : Nat) (r : Node × Nat) : Prop := ∃ fuel, __parser_term fuel tokens idx = some r
def TermLoop (tokens : List Token) (idx : Nat) (node : Node) (r : Node × Nat) : Prop :=
  ∃ fuel, term_loop fuel tokens idx node = some r
def Exprs (tokens : List Token) (idx : Nat) (r : Node × Nat) : Prop := ∃ fuel, __parser_expr fuel tokens idx = some r
def ExprLoop (tokens : List Token) (current : Option Token) (idx : Nat) (node : Node) (r : Node × Nat) : Prop :=
  ∃ fuel, expr_loop fuel tokens current idx node = some r

variable {low high : Nat}

theorem raised {α : Type} {run : Nat → Option α} (more : ∀ fuel x, run fuel = some x → run (fuel + 1) = some x) {x : α}
    (le : low ≤ high) (done : run low = some x) : run high = some x := by
  induction le with
  | refl => exact done
  | step _ ih => exact more _ _ ih

/-- A rule that reads a part and then the rest, with enough fuel for both. -/
theorem rule_runs (rule first : Nat → Option (Node × Nat)) (rest : Node → Nat → Nat → Option (Node × Nat)) (start : rule 0 = none)
    (goes : ∀ fuel, rule (fuel + 1) = (first fuel).bind fun p => rest p.1 p.2 fuel)
    (more : ∀ fuel x, first fuel = some x → first (fuel + 1) = some x)
    (more' : ∀ node j fuel x, rest node j fuel = some x → rest node j (fuel + 1) = some x) :
    (∃ fuel, rule fuel = some r) ↔ ∃ node j, (∃ fuel, first fuel = some (node,j)) ∧ ∃ fuel, rest node j fuel = some r := by
  constructor
  · rintro ⟨_ | fuel,parsed⟩
    · rw [start] at parsed
      cases parsed
    · rw [goes] at parsed
      obtain ⟨⟨node,j⟩,inner,parsed⟩ := bind_eq_some_iff.1 parsed
      exact ⟨node,j,⟨fuel,inner⟩,fuel,parsed⟩
  · rintro ⟨node,j,⟨f,inner⟩,g,parsed⟩
    refine ⟨max f g + 1,?_⟩
    rw [goes,raised more (Nat.le_max_left f g) inner]
    exact raised (more' node j) (Nat.le_max_right f g) parsed

theorem next_here {token : Token} (here : tokens[idx]? = some token) :
    dynamic_array_iterator_next tokens idx = (some token,idx + 1) := by
  obtain ⟨bound,-⟩ := List.getElem?_eq_some_iff.1 here
  rw [dynamic_array_iterator_next,if_pos bound,here]

theorem factor_end (here : tokens[idx]? = none) : ¬ Factors tokens idx r := by
  rintro ⟨_ | fuel,parsed⟩
  · simp [__parser_factor] at parsed
  · simp [__parser_factor,dynamic_array_iterator_get_next,here] at parsed

theorem factor_number {value : Word} (here : tokens[idx]? = some (.number value)) :
    Factors tokens idx r ↔ r = (.number_node value,idx + 1) := by
  constructor
  · rintro ⟨_ | fuel,parsed⟩
    · simp [__parser_factor] at parsed
    · simp only [__parser_factor,dynamic_array_iterator_get_next,here,next_here here,some.injEq] at parsed
      exact parsed.symm
  · rintro rfl
    exact ⟨1,by simp [__parser_factor,dynamic_array_iterator_get_next,here,next_here here]⟩

theorem factor_lparen (here : tokens[idx]? = some .lparen) :
    Factors tokens idx r ↔ ∃ e j, Exprs tokens (idx + 1) (e,j) ∧ tokens[j - 1]? = some .rparen ∧ r = (e,j - 1 + 1) := by
  constructor
  · rintro ⟨_ | fuel,parsed⟩
    · simp [__parser_factor] at parsed
    · simp only [__parser_factor,dynamic_array_iterator_get_next,here,next_here here] at parsed
      split at parsed
      · cases parsed
      · rename_i e j inner
        split at parsed
        · rename_i closed
          rw [next_here closed] at parsed
          exact ⟨e,j,⟨fuel,inner⟩,closed,(some.inj parsed).symm⟩
        · cases parsed
  · rintro ⟨e,j,⟨fuel,inner⟩,closed,rfl⟩
    refine ⟨fuel + 1,?_⟩
    simp only [__parser_factor,dynamic_array_iterator_get_next,here,next_here here,inner,closed,next_here closed]

/-- A closing parenthesis is taken for a sign. -/
theorem factor_rparen (here : tokens[idx]? = some .rparen) (parsed : Factors tokens idx r) :
    ∃ r, Factors tokens (idx + 1) r := by
  obtain ⟨_ | fuel,parsed⟩ := parsed
  · simp [__parser_factor] at parsed
  · simp only [__parser_factor,dynamic_array_iterator_get_next,here,next_here here] at parsed
    rw [if_neg (by decide),if_pos (by decide)] at parsed
    obtain ⟨r',inner,-⟩ := map_eq_some_iff.1 parsed
    exact ⟨r',fuel,inner⟩

def Mark.operates (m : Mark) : Bool := m ≠ .lparen ∧ m ≠ .rparen

/-- An operator is no factor, and neither is a sign. -/
theorem factor_operator {m : Mark} (operates : m.operates = true) (here : tokens[idx]? = some m.token) : ¬ Factors tokens idx r := by
  rintro ⟨_ | fuel,parsed⟩
  · simp [__parser_factor] at parsed
  · cases m <;> simp [Mark.operates] at operates <;>
      simp [__parser_factor,dynamic_array_iterator_get_next,here,Mark.token,Token.type,plus_node,minus_node] at parsed

theorem term_rule : Terms tokens idx r ↔ ∃ node j, Factors tokens idx (node,j) ∧ TermLoop tokens j node r := by
  refine rule_runs (__parser_term · tokens idx) (__parser_factor · tokens idx) (fun node j fuel => term_loop fuel tokens j node)
    (by rw [__parser_term]) (fun fuel => ?_) (fun fuel => (more_fuel fuel tokens).1 idx) fun node j fuel => (more_fuel fuel tokens).2.2.1 j node
  rw [__parser_term]
  cases __parser_factor fuel tokens idx <;> rfl

theorem term_loop_op {op : MulOp} (here : tokens[idx]? = some op.mark.token) {make : Node → Node → Node}
    (makes : term_node op.mark.token = some make) :
    TermLoop tokens idx node r ↔ ∃ node_b j, Factors tokens (idx + 1) (node_b,j) ∧ TermLoop tokens j (make node node_b) r := by
  refine rule_runs (term_loop · tokens idx node) (__parser_factor · tokens (idx + 1))
    (fun node_b j fuel => term_loop fuel tokens j (make node node_b)) (by rw [term_loop]) (fun fuel => ?_)
    (fun fuel => (more_fuel fuel tokens).1 (idx + 1)) fun node_b j fuel => (more_fuel fuel tokens).2.2.1 j (make node node_b)
  simp only [term_loop,dynamic_array_iterator_get_next,here,Option.bind_some,makes,next_here here]
  cases __parser_factor fuel tokens (idx + 1) <;> rfl

theorem term_loop_end (here : tokens[idx]?.bind term_node = none) : TermLoop tokens idx node r ↔ r = (node,idx) := by
  constructor
  · rintro ⟨_ | fuel,parsed⟩
    · simp [term_loop] at parsed
    · simp only [term_loop,dynamic_array_iterator_get_next,here,some.injEq] at parsed
      exact parsed.symm
  · rintro rfl
    exact ⟨1,by simp [term_loop,dynamic_array_iterator_get_next,here]⟩

theorem expr_rule : Exprs tokens idx r ↔ ∃ node j, Terms tokens idx (node,j) ∧ ExprLoop tokens tokens[j]? j node r := by
  refine rule_runs (__parser_expr · tokens idx) (__parser_term · tokens idx) (fun node j fuel => expr_loop fuel tokens tokens[j]? j node)
    (by rw [__parser_expr]) (fun fuel => ?_) (fun fuel => (more_fuel fuel tokens).2.1 idx) fun node j fuel =>
      (more_fuel fuel tokens).2.2.2.2 tokens[j]? j node
  rw [__parser_expr]
  cases __parser_term fuel tokens idx <;> rfl

/-- The loop takes a token, a term, and the token behind it. -/
theorem expr_loop_op {token : Token} (more : idx < tokens.length) {make : Node → Node → Node} (makes : expr_node token = some make) :
    ExprLoop tokens (some token) idx node r ↔ ∃ node_b j, Terms tokens (idx + 1) (node_b,j) ∧
      ExprLoop tokens (dynamic_array_iterator_next tokens j).1 (dynamic_array_iterator_next tokens j).2 (make node node_b) r := by
  have taken : (dynamic_array_iterator_next tokens idx).2 = idx + 1 := by rw [dynamic_array_iterator_next,if_pos more]
  refine rule_runs (expr_loop · tokens (some token) idx node) (__parser_term · tokens (idx + 1)) (fun node_b j fuel =>
    expr_loop fuel tokens (dynamic_array_iterator_next tokens j).1 (dynamic_array_iterator_next tokens j).2 (make node node_b))
    (by rw [expr_loop]) (fun fuel => ?_) (fun fuel => (more_fuel fuel tokens).2.1 (idx + 1)) fun node_b j fuel =>
      (more_fuel fuel tokens).2.2.2.2 _ _ (make node node_b)
  simp only [expr_loop,dynamic_array_iterator_has_next,more,decide_true,if_true,makes,taken]
  cases __parser_term fuel tokens (idx + 1) <;> rfl

theorem expr_loop_end (here : idx < tokens.length → ∃ token, current = some token ∧ expr_node token = none) :
    ExprLoop tokens current idx node r ↔ r = (node,idx) := by
  constructor
  · rintro ⟨_ | fuel,parsed⟩
    · simp [expr_loop] at parsed
    · by_cases more : idx < tokens.length
      · obtain ⟨token,rfl,ends⟩ := here more
        simp only [expr_loop,dynamic_array_iterator_has_next,more,decide_true,if_true,ends,some.injEq] at parsed
        exact parsed.symm
      · rw [expr_loop.eq_def] at parsed
        simp only [dynamic_array_iterator_has_next,more,decide_false] at parsed
        exact (some.inj parsed).symm
  · rintro rfl
    refine ⟨1,?_⟩
    by_cases more : idx < tokens.length
    · obtain ⟨token,rfl,ends⟩ := here more
      simp [expr_loop,dynamic_array_iterator_has_next,more,ends]
    · rw [expr_loop.eq_def]
      simp [dynamic_array_iterator_has_next,more]

end
/-! ### Trees -/

def AddOp.node : AddOp → Node → Node → Node
  | plus => .add_node
  | minus => .substract_node

def MulOp.node : MulOp → Node → Node → Node
  | multiply => .multiply_node
  | divide => .divide_node
  | modulo => .modulo_node

mutual

def Factor.node : Factor → Node
  | .number n => .number_node (BitVec.ofNat 32 n)
  | .group e => e.node
  | .signed .plus f => .plus_node f.node
  | .signed .minus f => .minus_node f.node

def Term.node : Term → Node
  | .factor f => f.node
  | .times t op f => op.node t.node f.node

def Sum.node : Sum → Node
  | .term t => t.node
  | .add e op t => op.node e.node t.node

end

/-- What stands behind an operand. -/
inductive Follows : List Token → Prop
  | done : Follows []
  | close {rest : List Token} (behind : Follows rest) : Follows (.rparen :: rest)
  | operator {m : Mark} (operates : m.operates = true) (rest : List Token) : Follows (m.token :: rest)

/-- What stands behind the operands of a sum. -/
def Ends (rest : List Token) : Prop := Follows rest ∧ rest.head?.bind term_node = none

@[simp] theorem factor_tokens_number (n : Nat) : (Factor.number n).tokens = [.number (BitVec.ofNat 32 n)] := rfl

@[simp] theorem factor_tokens_group (e : Sum) : (Factor.group e).tokens = .lparen :: (e.tokens ++ [.rparen]) := by
  simp [Factor.tokens,Factor.lexemes,Sum.tokens,Lexeme.token,Mark.token]

@[simp] theorem factor_tokens_signed (sign : AddOp) (f : Factor) :
    (Factor.signed sign f).tokens = sign.mark.token :: f.tokens := by
  simp [Factor.tokens,Factor.lexemes,Lexeme.token]

@[simp] theorem term_tokens_factor (f : Factor) : (Term.factor f).tokens = f.tokens := rfl

@[simp] theorem term_tokens_times (t : Term) (op : MulOp) (f : Factor) :
    (Term.times t op f).tokens = t.tokens ++ op.mark.token :: f.tokens := by
  simp [Term.tokens,Term.lexemes,Factor.tokens,Lexeme.token]

@[simp] theorem sum_tokens_term (t : Term) : (Sum.term t).tokens = t.tokens := rfl

@[simp] theorem sum_tokens_add (e : Sum) (op : AddOp) (t : Term) :
    (Sum.add e op t).tokens = e.tokens ++ op.mark.token :: t.tokens := by
  simp [Sum.tokens,Sum.lexemes,Term.tokens,Lexeme.token]

theorem mul_operates (op : MulOp) : op.mark.operates = true := by cases op <;> rfl
theorem add_operates (op : AddOp) : op.mark.operates = true := by cases op <;> rfl
theorem mul_makes (op : MulOp) : term_node op.mark.token = some op.node := by cases op <;> rfl
theorem add_makes (op : AddOp) : expr_node op.mark.token = some op.node := by cases op <;> rfl
theorem add_no_term (op : AddOp) : term_node op.mark.token = none := by cases op <;> rfl

theorem factor_nonempty (f : Factor) : f.lexemes ≠ [] := by
  cases f <;> simp [Factor.lexemes]

theorem term_nonempty (t : Term) : t.lexemes ≠ [] := by
  cases t with
  | factor f => exact factor_nonempty f
  | times t op f => simp [Term.lexemes]

theorem no_factor {rest : List Token} (follows : Follows rest) (pre : List Token) (r : Node × Nat) :
    ¬ Factors (pre ++ rest) pre.length r := by
  induction follows generalizing pre r with
  | done => exact factor_end (by simp)
  | @close rest behind ih =>
    intro parsed
    obtain ⟨r',inner⟩ := factor_rparen (by simp) parsed
    have shifted : pre ++ .rparen :: rest = (pre ++ [.rparen]) ++ rest := by simp
    rw [shifted] at inner
    exact ih (pre ++ [.rparen]) r' (by simpa using inner)
  | operator operates rest => exact factor_operator operates (by simp)

/-- Behind a number that begins a term there is no factor. -/
theorem term_tail : ∀ (t : Term) {n : Nat} {tail : List Lexeme} {rest : List Token}, t.lexemes = .number n :: tail →
    Follows rest → Follows (tail.map Lexeme.token ++ rest)
  | .factor f, n, tail, rest, begins, follows => by
    cases f with
    | number m =>
      obtain ⟨-,rfl⟩ := List.cons.inj begins
      exact follows
    | group e => cases begins
    | signed sign f => cases begins
  | .times t op f, n, tail, rest, begins, follows => by
    rw [Term.lexemes] at begins
    obtain ⟨first,others,same⟩ := List.exists_cons_of_ne_nil (term_nonempty t)
    rw [same,List.cons_append] at begins
    obtain ⟨rfl,rfl⟩ := List.cons.inj begins
    have behind : Follows (op.mark.token :: (f.tokens ++ rest)) := .operator (mul_operates op) _
    simpa [Factor.tokens,Lexeme.token] using term_tail t same behind

/-! ### What the parser makes of a tree -/

theorem andThen_clean {a b : Reading} (both : a.andThen b = .clean) : a = .clean ∧ b = .clean := by
  cases a <;> simp_all [Reading.andThen]

theorem andThen_stuck {a b : Reading} (either : a.andThen b = .stuck) : a = .stuck ∨ a = .clean ∧ b = .stuck := by
  cases a <;> simp_all [Reading.andThen]

theorem fault_stuck {l : Option Lexeme} (stuck : fault l = .stuck) : ∃ n, l = some (.number n) := by
  rw [fault] at stuck
  split at stuck
  · rename_i number
    obtain ⟨lexeme,rfl,is_number⟩ := Option.any_eq_true _ _ |>.1 number
    cases lexeme with
    | number n => exact ⟨n,rfl⟩
    | mark m => cases is_number
  · cases stuck

theorem fault_unclean (l : Option Lexeme) : fault l ≠ .clean := by
  rw [fault]
  split <;> simp

/-- Where the parser stands when it has read a sum. -/
def Sum.after (e : Sum) (tokens : List Token) (idx : Nat) (r : Node × Nat) : Prop :=
  match e with
  | .term t => ExprLoop tokens tokens[idx]? idx t.node r
  | .add .. => ExprLoop tokens (dynamic_array_iterator_next tokens idx).1 (dynamic_array_iterator_next tokens idx).2 e.node r

theorem head_at {tokens pre rest : List Token} (is : tokens = pre ++ rest) : tokens[pre.length]? = rest.head? := by
  rw [is,List.getElem?_append_right (Nat.le_refl _),Nat.sub_self,List.head?_eq_getElem?]

mutual

theorem factor_spec : ∀ (f : Factor) (tokens pre rest : List Token), tokens = pre ++ f.tokens ++ rest → Follows rest →
    (f.reading = .clean → ∀ r, Factors tokens pre.length r ↔ r = (f.node,(pre ++ f.tokens).length)) ∧
      (f.reading = .stuck → ∀ r, ¬ Factors tokens pre.length r)
  | .number n, tokens, pre, rest, is, follows => by
    have here : tokens[pre.length]? = some (.number (BitVec.ofNat 32 n)) := by simp [is]
    refine ⟨fun _ r => ?_,by simp [Factor.reading]⟩
    rw [factor_number here]
    simp [Factor.node]
  | .signed sign f, tokens, pre, rest, is, follows => by
    have here : tokens[pre.length]? = some sign.mark.token := by simp [is]
    exact ⟨by simp [Factor.reading],fun _ r => factor_operator (add_operates sign) here⟩
  | .group e, tokens, pre, rest, is, follows => by
    have here : tokens[pre.length]? = some .lparen := by simp [is]
    have inner := sum_spec e tokens (pre ++ [Token.lparen]) (.rparen :: rest) (by simp [is]) ⟨.close follows,rfl⟩
    have closing : tokens[(pre ++ [Token.lparen] ++ e.tokens).length]? = some .rparen :=
      @head_at _ _ (.rparen :: rest) (by simp [is])
    have begin_ : (pre ++ [Token.lparen]).length = pre.length + 1 := by simp
    rw [begin_] at inner
    cases e with
    | term t =>
      have last (clean : t.reading = .clean) (r : Node × Nat) :
          Exprs tokens (pre.length + 1) r ↔ r = (t.node,(pre ++ [Token.lparen] ++ t.tokens).length) := by
        rw [inner.1 clean,Sum.after]
        exact expr_loop_end fun _ => ⟨.rparen,closing,rfl⟩
      rw [Factor.reading]
      constructor
      · intro reads
        exact absurd (andThen_clean reads).2 (fault_unclean _)
      · intro reads r
        rw [factor_lparen here]
        rintro ⟨node,j,parsed,closed,-⟩
        rcases andThen_stuck reads with stuck | ⟨clean,number⟩
        · exact inner.2 stuck _ parsed
        · obtain ⟨n,number⟩ := fault_stuck number
          obtain ⟨init,split⟩ := List.getLast?_eq_some_iff.1 number
          have before : tokens = (pre ++ [Token.lparen] ++ init.map Lexeme.token) ++
              .number (BitVec.ofNat 32 n) :: (.rparen :: rest) := by
            simp [is,Term.tokens,split,Lexeme.token]
          have ended : (pre ++ [Token.lparen] ++ t.tokens).length - 1 =
              (pre ++ [Token.lparen] ++ init.map Lexeme.token).length := by
            simp [Term.tokens,split]
          obtain ⟨-,rfl⟩ := Prod.mk.inj ((last clean _).1 parsed)
          rw [ended,head_at before] at closed
          cases closed
    | add e op t =>
      have same : (Factor.group (.add e op t)).reading = (Sum.add e op t).reading := by simp [Factor.reading]
      rw [same]
      constructor
      · intro reads r
        have last (r : Node × Nat) : Exprs tokens (pre.length + 1) r ↔
            r = ((Sum.add e op t).node,(pre ++ [Token.lparen] ++ (Sum.add e op t).tokens).length + 1) := by
          rw [inner.1 reads,Sum.after,next_here closing]
          exact expr_loop_end fun _ => ⟨.rparen,rfl,rfl⟩
        have length : (pre ++ [Token.lparen] ++ (Sum.add e op t).tokens).length + 1 =
            (pre ++ (Factor.group (.add e op t)).tokens).length := by
          simp
          omega
        rw [factor_lparen here]
        constructor
        · rintro ⟨node,j,parsed,-,rfl⟩
          obtain ⟨rfl,rfl⟩ := Prod.mk.inj ((last _).1 parsed)
          rw [Nat.add_sub_cancel,length]
          rfl
        · rintro rfl
          exact ⟨_,_,(last _).2 rfl,closing,by rw [Nat.add_sub_cancel,length]; rfl⟩
      · intro reads r
        rw [factor_lparen here]
        rintro ⟨node,j,parsed,-,-⟩
        exact inner.2 reads _ parsed

theorem term_spec : ∀ (t : Term) (tokens pre rest : List Token), tokens = pre ++ t.tokens ++ rest → Follows rest →
    (t.reading = .clean → ∀ r, Terms tokens pre.length r ↔ TermLoop tokens (pre ++ t.tokens).length t.node r) ∧
      (t.reading = .stuck → ∀ r, ¬ Terms tokens pre.length r)
  | .factor f, tokens, pre, rest, is, follows => by
    obtain ⟨clean,stuck⟩ := factor_spec f tokens pre rest is follows
    constructor
    · intro reads r
      rw [term_rule]
      constructor
      · rintro ⟨node,j,first,others⟩
        obtain ⟨rfl,rfl⟩ := Prod.mk.inj ((clean reads _).1 first)
        exact others
      · intro others
        exact ⟨_,_,(clean reads _).2 rfl,others⟩
    · intro reads r
      rw [term_rule]
      rintro ⟨node,j,first,-⟩
      exact stuck reads _ first
  | .times t op f, tokens, pre, rest, is, follows => by
    have behind : Follows (op.mark.token :: (f.tokens ++ rest)) := .operator (mul_operates op) _
    obtain ⟨clean,stuck⟩ := term_spec t tokens pre _ (by simp [is]) behind
    obtain ⟨clean',stuck'⟩ := factor_spec f tokens (pre ++ t.tokens ++ [op.mark.token]) rest (by simp [is]) follows
    have here : tokens[(pre ++ t.tokens).length]? = some op.mark.token :=
      @head_at _ _ (op.mark.token :: (f.tokens ++ rest)) (by simp [is])
    have next : (pre ++ t.tokens ++ [op.mark.token]).length = (pre ++ t.tokens).length + 1 := by simp; omega
    have last : (pre ++ t.tokens ++ [op.mark.token] ++ f.tokens).length = (pre ++ (Term.times t op f).tokens).length := by simp
    rw [next] at clean' stuck'
    rw [last] at clean'
    constructor
    · intro reads r
      obtain ⟨first,second⟩ := andThen_clean reads
      rw [clean first,term_loop_op here (mul_makes op)]
      constructor
      · rintro ⟨node_b,j,factor,others⟩
        obtain ⟨rfl,rfl⟩ := Prod.mk.inj ((clean' second _).1 factor)
        exact others
      · intro others
        exact ⟨_,_,(clean' second _).2 rfl,others⟩
    · intro reads r
      rcases andThen_stuck reads with first | ⟨first,second⟩
      · exact stuck first r
      · rw [clean first,term_loop_op here (mul_makes op)]
        rintro ⟨node_b,j,factor,-⟩
        exact stuck' second _ factor

theorem sum_spec : ∀ (e : Sum) (tokens pre rest : List Token), tokens = pre ++ e.tokens ++ rest → Ends rest →
    (e.reading = .clean → ∀ r, Exprs tokens pre.length r ↔ e.after tokens (pre ++ e.tokens).length r) ∧
      (e.reading = .stuck → ∀ r, ¬ Exprs tokens pre.length r)
  | .term t, tokens, pre, rest, is, ends => by
    obtain ⟨clean,stuck⟩ := term_spec t tokens pre rest is ends.1
    have behind : tokens[(pre ++ t.tokens).length]?.bind term_node = none := by
      rw [← sum_tokens_term t,head_at is]
      exact ends.2
    constructor
    · intro reads r
      rw [expr_rule,Sum.after]
      constructor
      · rintro ⟨node,j,first,others⟩
        obtain ⟨rfl,rfl⟩ := Prod.mk.inj ((term_loop_end behind).1 ((clean reads _).1 first))
        exact others
      · intro others
        exact ⟨_,_,(clean reads _).2 ((term_loop_end behind).2 rfl),others⟩
    · intro reads r
      rw [expr_rule]
      rintro ⟨node,j,first,-⟩
      exact stuck reads _ first
  | .add (.term first) op t, tokens, pre, rest, is, ends => by
    have behind : Ends (op.mark.token :: (t.tokens ++ rest)) := ⟨.operator (add_operates op) _,add_no_term op⟩
    obtain ⟨clean,stuck⟩ := sum_spec (.term first) tokens pre _ (by simp [is]) behind
    obtain ⟨clean',stuck'⟩ := term_spec t tokens (pre ++ first.tokens ++ [op.mark.token]) rest (by simp [is]) ends.1
    have here : tokens[(pre ++ first.tokens).length]? = some op.mark.token :=
      @head_at _ _ (op.mark.token :: (t.tokens ++ rest)) (by simp [is])
    have more : (pre ++ first.tokens).length < tokens.length := (List.getElem?_eq_some_iff.1 here).1
    have next : (pre ++ first.tokens ++ [op.mark.token]).length = (pre ++ first.tokens).length + 1 := by simp; omega
    have last : pre ++ first.tokens ++ [op.mark.token] ++ t.tokens = pre ++ (Sum.add (.term first) op t).tokens := by simp
    have ended : tokens[(pre ++ (Sum.add (.term first) op t).tokens).length]?.bind term_node = none := by
      rw [head_at is]
      exact ends.2
    rw [next] at clean' stuck'
    rw [last] at clean'
    have begins (reads : first.reading = .clean) (r : Node × Nat) : Exprs tokens pre.length r ↔
        ExprLoop tokens (some op.mark.token) (pre ++ first.tokens).length first.node r := by
      rw [clean reads,Sum.after,sum_tokens_term,here]
    constructor
    · intro reads r
      obtain ⟨one,two⟩ := andThen_clean reads
      rw [begins one,expr_loop_op more (add_makes op),Sum.after]
      constructor
      · rintro ⟨node_b,j,term,others⟩
        obtain ⟨rfl,rfl⟩ := Prod.mk.inj ((term_loop_end ended).1 ((clean' two _).1 term))
        exact others
      · intro others
        exact ⟨_,_,(clean' two _).2 ((term_loop_end ended).2 rfl),others⟩
    · intro reads r
      rcases andThen_stuck reads with one | ⟨one,two⟩
      · exact stuck one r
      · rw [begins one,expr_loop_op more (add_makes op)]
        rintro ⟨node_b,j,term,-⟩
        exact stuck' two _ term
  | .add (.add e op' t') op t, tokens, pre, rest, is, ends => by
    have behind : Ends (op.mark.token :: (t.tokens ++ rest)) := ⟨.operator (add_operates op) _,add_no_term op⟩
    obtain ⟨clean,stuck⟩ := sum_spec (.add e op' t') tokens pre _ (by rw [is,sum_tokens_add]; simp) behind
    have here : tokens[(pre ++ (Sum.add e op' t').tokens).length]? = some op.mark.token :=
      @head_at _ _ (op.mark.token :: (t.tokens ++ rest)) (by rw [is,sum_tokens_add (.add e op' t')]; simp)
    constructor
    · intro reads
      exact absurd (andThen_clean reads).2 (fault_unclean _)
    · intro reads r
      rcases andThen_stuck reads with one | ⟨one,number⟩
      · exact stuck one r
      · obtain ⟨n,number⟩ := fault_stuck number
        obtain ⟨tail,split⟩ := List.head?_eq_some_iff.1 number
        have tokens_t : t.tokens = .number (BitVec.ofNat 32 n) :: tail.map Lexeme.token := by
          rw [Term.tokens,split]
          rfl
        have parts : tokens = (pre ++ (Sum.add e op' t').tokens ++ [op.mark.token,.number (BitVec.ofNat 32 n)]) ++
            (tail.map Lexeme.token ++ rest) := by
          rw [is,sum_tokens_add (.add e op' t'),tokens_t]
          simp
        have more : (pre ++ (Sum.add e op' t').tokens).length + 1 < tokens.length := by
          rw [parts]
          simp only [List.length_append,List.length_cons]
          omega
        rw [clean one,Sum.after,next_here here,expr_loop_op more (add_makes op)]
        rintro ⟨node_b,j,term,-⟩
        obtain ⟨node,j',factor,-⟩ := term_rule.1 term
        have none_ := no_factor (term_tail t split ends.1)
          (pre ++ (Sum.add e op' t').tokens ++ [op.mark.token,.number (BitVec.ofNat 32 n)]) (node,j')
        rw [← parts] at none_
        refine none_ ?_
        convert factor using 1
        simp only [List.length_append,List.length_cons,List.length_nil]

end

/-! ### Lexing -/

/-- Numbers do not stand next to each other. -/
def Apart (a b : Lexeme) : Prop := ¬ (a.isNumber = true ∧ b.isNumber = true)

theorem apart_around {xs ys : List Lexeme} {m : Mark} (before : xs.IsChain Apart) (behind : ys.IsChain Apart) :
    (xs ++ .mark m :: ys).IsChain Apart := by
  refine List.isChain_append.2 ⟨before,?_,?_⟩
  · refine List.isChain_cons.2 ⟨fun y _ => ?_,behind⟩
    simp [Apart,Lexeme.isNumber]
  · rintro x - y next
    obtain rfl := some.inj next
    simp [Apart,Lexeme.isNumber]

theorem no_lexemes : ([] : List Lexeme).IsChain Apart := List.isChain_nil

mutual

theorem factor_apart : ∀ f : Factor, f.lexemes.IsChain Apart
  | .number n => List.isChain_singleton _
  | .group e => by
    rw [Factor.lexemes]
    exact apart_around no_lexemes (apart_around (sum_apart e) List.isChain_nil)
  | .signed sign f => by
    rw [Factor.lexemes]
    exact apart_around no_lexemes (factor_apart f)

theorem term_apart : ∀ t : Term, t.lexemes.IsChain Apart
  | .factor f => factor_apart f
  | .times t op f => by
    rw [Term.lexemes]
    exact apart_around (term_apart t) (factor_apart f)

theorem sum_apart : ∀ e : Sum, e.lexemes.IsChain Apart
  | .term t => term_apart t
  | .add e op t => by
    rw [Sum.lexemes]
    exact apart_around (sum_apart e) (term_apart t)

end

variable {c : Char} {s : List Char} {ls : List Lexeme} {x : Int}

theorem lexer_blank (is_blank : blank c = true) (fuel : Nat) (rest : List Char) :
    lexer_loop (fuel + 1) (c :: rest) = lexer_loop fuel rest := by
  simp only [blank,decide_eq_true_eq] at is_blank
  rcases is_blank with rfl | rfl | rfl <;> rfl

theorem lexer_blanks {blanks : List Char} (blank : blanks.all blank = true) (fuel : Nat) (rest : List Char) :
    lexer_loop (fuel + blanks.length) (blanks ++ rest) = lexer_loop fuel rest := by
  induction blanks with
  | nil => rfl
  | cons c blanks ih =>
    rw [List.all_cons,Bool.and_eq_true] at blank
    rw [List.length_cons,← Nat.add_assoc,List.cons_append,lexer_blank blank.1,ih blank.2]

theorem lexer_mark (m : Mark) (fuel : Nat) (rest : List Char) :
    lexer_loop (fuel + 1) (m.char :: rest) = (lexer_loop fuel rest).map (m.token :: ·) := by
  cases m <;> rfl

theorem digit_cases (is_digit : '0' ≤ c ∧ c ≤ '9') : c ∈ ['0','1','2','3','4','5','6','7','8','9'] := by
  obtain ⟨low,high⟩ := is_digit
  have low' : 48 ≤ c.toNat := low
  have high' : c.toNat ≤ 57 := high
  have same : c = Char.ofNat c.toNat := (Char.ofNat_toNat c).symm
  rw [same]
  interval_cases c.toNat <;> decide

theorem lexer_digit (is_digit : '0' ≤ c ∧ c ≤ '9') (fuel : Nat) (rest : List Char) : lexer_loop (fuel + 1) (c :: rest) =
      (lexer_loop fuel (_lexer_parse_number (c :: rest)).2).map (.number (_lexer_parse_number (c :: rest)).1 :: ·) := by
  have cases := digit_cases is_digit
  simp only [List.mem_cons,List.not_mem_nil,or_false] at cases
  rcases cases with rfl | rfl | rfl | rfl | rfl | rfl | rfl | rfl | rfl | rfl <;> rfl

/-- What stops the loop of a number, and is no mark of a base. -/
def Stops (s : List Char) : Prop := ∀ c, s.head? = some c → digit c = none ∧ c ≠ 'x'

theorem number_loop_spec {ds : List Char} (digits : ds.all (fun c => '0' ≤ c ∧ c ≤ '9') = true) (stops : Stops s) (n : Nat) :
    number_loop 10 (BitVec.ofNat 32 n) (ds ++ s) =
      (BitVec.ofNat 32 (ds.foldl (fun n c => n * 10 + (c.toNat - '0'.toNat)) n),s) := by
  induction ds generalizing n with
  | nil =>
    cases s with
    | nil => rfl
    | cons c rest =>
      rw [List.nil_append,number_loop,(stops c rfl).1]
      rfl
  | cons c ds ih =>
    rw [List.all_cons,Bool.and_eq_true,decide_eq_true_eq] at digits
    have value : digit c = some (c.toNat - '0'.toNat) := by rw [digit,if_pos digits.1]
    have sum : BitVec.ofNat 32 n * 10 + BitVec.ofNat 32 (c.toNat - '0'.toNat) =
        BitVec.ofNat 32 (n * 10 + (c.toNat - '0'.toNat)) := by
      rw [BitVec.ofNat_add,BitVec.ofNat_mul]
      rfl
    rw [List.cons_append,number_loop,value]
    dsimp only
    rw [sum,ih digits.2]
    rfl

theorem parse_number_spec {ds : List Char} (some_digit : ds ≠ []) (digits : ds.all (fun c => '0' ≤ c ∧ c ≤ '9') = true)
    (stops : Stops s) : _lexer_parse_number (ds ++ s) = (BitVec.ofNat 32 (decimal ds),s) := by
  have base (c : Char) (second : (ds ++ s)[1]? = some c) : c ≠ 'x' ∧ c ≠ 'b' := by
    match ds, some_digit with
    | [d], _ =>
      have first : s.head? = some c := by rw [List.head?_eq_getElem?]; exact second
      refine ⟨(stops c first).2,?_⟩
      rintro rfl
      exact absurd (stops 'b' first).1 (by decide)
    | d :: d' :: ds, _ =>
      obtain rfl := some.inj second
      rw [List.all_cons,List.all_cons,Bool.and_eq_true,Bool.and_eq_true,decide_eq_true_eq,decide_eq_true_eq] at digits
      refine ⟨?_,?_⟩ <;> rintro rfl <;> exact absurd digits.2.1.2 (by decide)
  rw [_lexer_parse_number.eq_def]
  split
  · rename_i rest same
    exact absurd rfl (base 'x' (by rw [same]; rfl)).1
  · rename_i rest same
    exact absurd rfl (base 'b' (by rw [same]; rfl)).2
  · exact number_loop_spec digits stops 0

theorem spells_stops (spells : Spells ls s) (no_number : ∀ l, ls.head? = some l → l.isNumber = false) : Stops s := by
  have blank_stops {c : Char} (is_blank : blank c = true) : digit c = none ∧ c ≠ 'x' := by
    simp only [blank,decide_eq_true_eq] at is_blank
    rcases is_blank with rfl | rfl | rfl <;> decide
  intro c first
  cases spells with
  | done blanks =>
    exact blank_stops (List.all_eq_true.1 blanks c (List.mem_of_mem_head? first))
  | @mark blanks rest ls' all m spells =>
    cases blanks with
    | nil =>
      obtain rfl := some.inj first
      cases m <;> decide
    | cons b blanks =>
      obtain rfl := some.inj first
      rw [List.all_cons,Bool.and_eq_true] at all
      exact blank_stops all.1
  | number _ _ _ _ => exact absurd (no_number _ rfl) (by simp [Lexeme.isNumber])

theorem lexed (spells : Spells ls s) (apart : ls.IsChain Apart) :
    ∀ fuel, s.length ≤ fuel → lexer_loop fuel s = some (ls.map Lexeme.token) := by
  induction spells with
  | @done blanks blank =>
    intro fuel enough
    obtain ⟨more,rfl⟩ := Nat.exists_eq_add_of_le' enough
    have skipped := lexer_blanks blank more []
    rw [List.append_nil] at skipped
    rw [skipped]
    cases more <;> rfl
  | @mark blanks s ls blank m rest ih =>
    intro fuel enough
    rw [List.length_append,List.length_cons] at enough
    obtain ⟨more,rfl⟩ := Nat.exists_eq_add_of_le' (show 1 + blanks.length ≤ fuel by omega)
    rw [← Nat.add_assoc,lexer_blanks blank,lexer_mark,ih (List.isChain_cons.1 apart).2 more (by omega)]
    rfl
  | @number blanks ds s ls blank some_digit digits rest ih =>
    intro fuel enough
    obtain ⟨next,behind⟩ := List.isChain_cons.1 apart
    have stops : Stops s := spells_stops rest fun l first => by
      have := next l first
      simpa [Apart,Lexeme.isNumber] using this
    obtain ⟨d,ds',rfl⟩ := List.exists_cons_of_ne_nil some_digit
    have is_digit : '0' ≤ d ∧ d ≤ '9' := by
      rw [List.all_cons,Bool.and_eq_true,decide_eq_true_eq] at digits
      exact digits.1
    have parsed := parse_number_spec some_digit digits stops
    simp only [List.length_append,List.length_cons] at enough
    obtain ⟨more,rfl⟩ := Nat.exists_eq_add_of_le' (show 1 + blanks.length ≤ fuel by omega)
    rw [← Nat.add_assoc,List.append_assoc,lexer_blanks blank,List.cons_append,lexer_digit is_digit,← List.cons_append,parsed,
      ih behind more (by omega)]
    rfl

theorem sum_lexed {e : Sum} (spells : Spells e.lexemes s) : lexer_tokenize s = some e.tokens := by
  have some_char : s ≠ [] := by
    rintro rfl
    have nonempty : e.lexemes ≠ [] := by
      cases e with
      | term t => exact term_nonempty t
      | add e op t => simp [Sum.lexemes]
    generalize e.lexemes = ls at spells nonempty
    generalize same : ([] : List Char) = s at spells
    cases spells with
    | done _ => exact nonempty rfl
    | mark _ _ _ => simp at same
    | number _ some_digit _ _ => simp [some_digit] at same
  rw [lexer_tokenize,if_neg some_char]
  exact lexed spells (sum_apart e) s.length (Nat.le_refl _)

/-! ### Values -/

theorem int_some {v : Int} (fits : int x = some v) : x = v ∧ -2 ^ 31 ≤ x ∧ x < 2 ^ 31 := by
  rw [int] at fits
  split at fits
  · rename_i range
    exact ⟨some.inj fits,range⟩
  · cases fits

theorem bmod_int {v : Int} (fits : int x = some v) : x.bmod (2 ^ 32) = v := by
  obtain ⟨rfl,low,high⟩ := int_some fits
  exact Int.bmod_eq_of_le (by omega) (by omega)

/-- A word for a node that has a value. -/
def Evaluates (node : Node) (v : Int) : Prop := ∃ w, eval node = some w ∧ w.toInt = v

theorem evaluates_number {n : Nat} {v : Int} (fits : int n = some v) : Evaluates (.number_node (BitVec.ofNat 32 n)) v := by
  refine ⟨BitVec.ofNat 32 n,rfl,?_⟩
  rw [BitVec.toInt_eq_toNat_bmod,BitVec.toNat_ofNat]
  have same := bmod_int fits
  rwa [← Int.emod_bmod] at same

theorem evaluates_add (op : AddOp) {a b : Node} {y v : Int} (first : Evaluates a x) (second : Evaluates b y)
    (value : op.value x y = some v) : Evaluates (op.node a b) v := by
  obtain ⟨w,evaluated,rfl⟩ := first
  obtain ⟨w',evaluated',rfl⟩ := second
  cases op with
  | plus =>
    refine ⟨w + w',by simp [AddOp.node,eval,evaluated,evaluated'],?_⟩
    rw [BitVec.toInt_add]
    exact bmod_int value
  | minus =>
    refine ⟨w - w',by simp [AddOp.node,eval,evaluated,evaluated'],?_⟩
    rw [BitVec.toInt_sub]
    exact bmod_int value

/-- The division that has a value does not fault. -/
theorem divides {w w' : Word} {v : Int} (nonzero : w'.toInt ≠ 0) (fits : int (w.toInt.tdiv w'.toInt) = some v) :
    ¬ (w' = 0 ∨ w = BitVec.intMin 32 ∧ w' = -1) := by
  rintro (rfl | ⟨rfl,rfl⟩)
  · exact nonzero rfl
  · obtain ⟨-,-,high⟩ := int_some fits
    exact absurd high (by decide)

theorem evaluates_mul (op : MulOp) {a b : Node} {y v : Int} (first : Evaluates a x) (second : Evaluates b y)
    (value : op.value x y = some v) : Evaluates (op.node a b) v := by
  obtain ⟨w,evaluated,rfl⟩ := first
  obtain ⟨w',evaluated',rfl⟩ := second
  cases op with
  | multiply =>
    refine ⟨w * w',by simp [MulOp.node,eval,evaluated,evaluated'],?_⟩
    rw [BitVec.toInt_mul]
    exact bmod_int value
  | divide =>
    obtain ⟨nonzero,fits⟩ := Option.ite_none_left_eq_some.1 value
    have quotients : eval (.divide_node a b) = quotient w w' := by simp [eval,evaluated,evaluated']
    refine ⟨w.sdiv w',?_,?_⟩
    · rw [MulOp.node,quotients,quotient,if_neg (divides nonzero fits)]
    · rw [BitVec.toInt_sdiv]
      exact bmod_int fits
  | modulo =>
    obtain ⟨nonzero,mapped⟩ := Option.ite_none_left_eq_some.1 value
    obtain ⟨q,fits,same⟩ := map_eq_some_iff.1 mapped
    have remainders : eval (.modulo_node a b) = remainder w w' := by simp [eval,evaluated,evaluated']
    refine ⟨w.srem w',?_,?_⟩
    · rw [MulOp.node,remainders,remainder,if_neg (divides nonzero fits)]
    · rw [BitVec.toInt_srem]
      exact same

theorem group_clean {e : Sum} (reads : (Factor.group e).reading = .clean) : e.reading = .clean := by
  cases e with
  | term t =>
    rw [Factor.reading] at reads
    exact absurd (andThen_clean reads).2 (fault_unclean _)
  | add e op t => simpa [Factor.reading] using reads

theorem add_clean {e : Sum} {op : AddOp} {t : Term} (reads : (Sum.add e op t).reading = .clean) :
    e.reading = .clean ∧ t.reading = .clean := by
  cases e with
  | term first =>
    rw [Sum.reading] at reads
    rw [Sum.reading]
    exact andThen_clean reads
  | add e op' t' =>
    have same : (Sum.add (.add e op' t') op t).reading =
        (Sum.add e op' t').reading.andThen (fault t.lexemes.head?) := by simp [Sum.reading]
    rw [same] at reads
    exact absurd (andThen_clean reads).2 (fault_unclean _)

mutual

theorem factor_evaluates : ∀ (f : Factor) (v : Int), f.reading = .clean → f.value = some v → Evaluates f.node v
  | .number n, v => by
    intro _ value
    rw [Factor.value] at value
    rw [Factor.node]
    exact evaluates_number value
  | .signed sign f, v => by
    intro reads
    simp [Factor.reading] at reads
  | .group e, v => by
    intro reads value
    rw [Factor.value] at value
    rw [Factor.node]
    exact sum_evaluates e v (group_clean reads) value

theorem term_evaluates : ∀ (t : Term) (v : Int), t.reading = .clean → t.value = some v → Evaluates t.node v
  | .factor f, v => by
    intro reads value
    rw [Term.reading] at reads
    rw [Term.value] at value
    rw [Term.node]
    exact factor_evaluates f v reads value
  | .times t op f, v => by
    intro reads value
    rw [Term.reading] at reads
    rw [Term.value] at value
    rw [Term.node]
    obtain ⟨x,first,value⟩ := bind_eq_some_iff.1 value
    obtain ⟨y,second,value⟩ := bind_eq_some_iff.1 value
    obtain ⟨one,two⟩ := andThen_clean reads
    exact evaluates_mul op (term_evaluates t x one first) (factor_evaluates f y two second) value

theorem sum_evaluates : ∀ (e : Sum) (v : Int), e.reading = .clean → e.value = some v → Evaluates e.node v
  | .term t, v => by
    intro reads value
    rw [Sum.reading] at reads
    rw [Sum.value] at value
    rw [Sum.node]
    exact term_evaluates t v reads value
  | .add e op t, v => by
    intro reads value
    obtain ⟨one,two⟩ := add_clean reads
    rw [Sum.value] at value
    rw [Sum.node]
    obtain ⟨x,left,value⟩ := bind_eq_some_iff.1 value
    obtain ⟨y,right,value⟩ := bind_eq_some_iff.1 value
    exact evaluates_add op (sum_evaluates e x one left) (term_evaluates t y two right) value

end

/-! ### The calculator -/

/-- A clean expression is parsed to its tree and to its end. -/
theorem sum_parsed {e : Sum} (reads : e.reading = .clean) : Exprs e.tokens 0 (e.node,e.tokens.length) := by
  have spec := sum_spec e e.tokens [] [] (by simp) ⟨.done,rfl⟩
  simp only [List.length_nil,List.nil_append] at spec
  have past : e.tokens[e.tokens.length]? = none := by simp
  rw [spec.1 reads]
  cases e with
  | term t => exact (expr_loop_end fun more => absurd more (Nat.lt_irrefl _)).2 rfl
  | add e op t =>
    have next : dynamic_array_iterator_next (Sum.add e op t).tokens (Sum.add e op t).tokens.length =
        (none,(Sum.add e op t).tokens.length) := by
      rw [dynamic_array_iterator_next,if_neg (Nat.lt_irrefl _)]
    rw [Sum.after,next]
    exact (expr_loop_end fun more => absurd more (Nat.lt_irrefl _)).2 rfl

theorem stuck_uncalculated {e : Sum} (spells : Spells e.lexemes s) (reads : e.reading = .stuck) (v : Int) :
    ¬ Calculates s v := by
  rintro ⟨tokens,fuel,node,w,lexes,parsed,-⟩
  rw [sum_lexed spells] at lexes
  obtain rfl := some.inj lexes
  have spec := sum_spec e e.tokens [] [] (by simp) ⟨.done,rfl⟩
  exact spec.2 reads _ ⟨fuel,parsed⟩

/-- The calculator gives the value of a clean expression and reads it to its end, and it gives
    no value for one where it gets stuck. -/
theorem calculated {e : Sum} {s : List Char} (spells : Spells e.lexemes s) {v : Int} (value : e.value = some v) :
    (e.reading = .clean → Calculates s v) ∧ (e.reading = .stuck → ¬ Calculates s v) := by
  refine ⟨fun reads => ?_,fun reads => stuck_uncalculated spells reads v⟩
  obtain ⟨fuel,parsed⟩ := sum_parsed reads
  obtain ⟨w,evaluated,same⟩ := sum_evaluates e v reads value
  exact ⟨e.tokens,fuel,e.node,w,sum_lexed spells,parsed,evaluated,same⟩

theorem spells_digit (d : Char) (is_digit : '0' ≤ d ∧ d ≤ '9') (rest : Spells ls s) :
    Spells (.number (0 * 10 + (d.toNat - '0'.toNat)) :: ls) (d :: s) :=
  @Spells.number [] [d] s ls rfl (by simp) (by simpa using is_digit) rest

theorem spells_mark (m : Mark) (rest : Spells ls s) : Spells (.mark m :: ls) (m.char :: s) :=
  @Spells.mark [] s ls rfl m rest

def numeral (n : Nat) : Term := .factor (.number n)

/-- A group with a sum is calculated. -/
theorem calculated_group : Calculates ['2','*','(','3','+','4',')'] 14 := by
  let e : Sum := .term (.times (numeral 2) .multiply (.group (.add (.term (numeral 3)) .plus (numeral 4))))
  have spells : Spells e.lexemes ['2','*','(','3','+','4',')'] :=
    spells_digit '2' (by decide) (spells_mark .multiply (spells_mark .lparen (spells_digit '3' (by decide)
      (spells_mark .plus (spells_digit '4' (by decide) (spells_mark .rparen (@Spells.done [] rfl)))))))
  have value : e.value = some 14 := by decide
  exact (calculated spells value).1 (by decide)

/-- A sum of three numbers is not. -/
theorem three_uncalculated : ¬ ∀ (e : Sum) (s : List Char), Spells e.lexemes s → ∀ v, e.value = some v → Calculates s v := by
  intro claimed
  let e : Sum := .add (.add (.term (numeral 1)) .plus (numeral 2)) .plus (numeral 3)
  have spells : Spells e.lexemes ['1','+','2','+','3'] :=
    spells_digit '1' (by decide) (spells_mark .plus (spells_digit '2' (by decide) (spells_mark .plus
      (spells_digit '3' (by decide) (@Spells.done [] rfl)))))
  have value : e.value = some 6 := by decide
  exact stuck_uncalculated spells (by decide) 6 (claimed e _ spells 6 value)

end MicroOS.Calc

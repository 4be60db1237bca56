import Mathlib.Data.List.DropRight
import MicroOS.Quoting

/-!
`command_received` looks for an operator, cuts the line there in its own buffer, runs the command before it and goes on with
what stands behind it; behind `>` and `>>` stands a file. The main theorem is `command_lines`: for which lines the segments
are run one after the other, without the blanks around them, and each file ends up with what was captured.
-/

namespace MicroOS.CommandLines
open Quoting
open List (append_assoc append_nil cons_append cons_prefix_cons length_append length_set map_cons prefix_rfl)

/-! ### Strings in a buffer -/

/-- What stands in a buffer before the terminator; the one at its end is left out. -/
def cstr (mem : List UInt8) : List UInt8 := mem.takeWhile (· ≠ 0)

/-- Bytes stored at the start of a buffer. -/
def overwrite (mem bytes : List UInt8) : List UInt8 := (bytes ++ mem.drop bytes.length).take mem.length

def hashtag : UInt8 := 0x23

/-- What the first loop of `process_line` keeps. -/
def process_loop (check_hashtag : Bool) : List UInt8 → Bool → List UInt8
  | [],_ => []
  | c :: rest,text_found =>
    if c = blank ∧ ¬ text_found then process_loop check_hashtag rest false
    else if c = hashtag ∧ check_hashtag then []
    else c :: process_loop check_hashtag rest true

/-- The second loop puts terminators over the blanks at the end; it leaves the first character alone. -/
def zero_blanks : List UInt8 → List UInt8
  | [] => []
  | c :: rest => c :: (rest.rdropWhile (· = blank) ++ List.replicate (rest.rtakeWhile (· = blank)).length 0)

def process_line (mem : List UInt8) (check_hashtag : Bool) : List UInt8 :=
  let kept := process_loop check_hashtag (cstr mem) false
  overwrite (overwrite mem (kept ++ [0])) (zero_blanks kept)

/-! ### Commands and files -/

abbrev Text := List UInt8

/-- The files, and everything else that commands see and change. -/
structure World (σ : Type) where
  rest : σ
  files : Text → Option (List UInt8)

/-- What the terminal is given. A command gets its standard input and whether its output is captured; the result is the output
    if the command is found. `resolve_check` gives a path, and `opens` the file behind it that `fopen` opens or makes. -/
structure Shell (σ : Type) where
  run_command : World σ → Text → Option (List UInt8) → Bool → World σ × Option (List UInt8)
  resolve_check : World σ → Text → Option Text
  opens : World σ → Text → Option Text

/-- What happened: a command, or a file by the text of its segment with the content before and after. -/
inductive Event where
  | run (command : Text) (stdin stdout : Option (List UInt8))
  | file (name : Text) (before after : List UInt8)

/-- A write of the file system, at a position in the content. -/
def write_at (content : List UInt8) (pos : Nat) (bytes : List UInt8) : List UInt8 :=
  content.take pos ++ List.replicate (pos - content.length) 0 ++ bytes ++ content.drop (pos + bytes.length)

/-- `fopen` with "w", which leaves the content, `fseek` for `>>`, and `fwrite`. -/
def redirect {σ : Type} (shell : Shell σ) (w : World σ) (append : Bool) (name stdout : List UInt8) : Option (World σ × Event) :=
  match (shell.resolve_check w name).bind (shell.opens w) with
  | none => none
  | some file =>
    let before := (w.files file).getD []
    let pos := if append then before.length else 0
    let after := write_at before pos stdout
    some ({ w with files := Function.update w.files file (some after) },.file name before after)

theorem length_overwrite (mem bytes : List UInt8) (short : bytes.length ≤ mem.length + 1) :
    (overwrite mem bytes).length = mem.length := by
  rw [overwrite,List.length_take,length_append,List.length_drop]
  omega

theorem length_process_loop (check_hashtag : Bool) (s : List UInt8) (text_found : Bool) :
    (process_loop check_hashtag s text_found).length ≤ s.length := by
  induction s generalizing text_found with
  | nil => exact le_rfl
  | cons c rest ih =>
    rw [process_loop]
    split
    · exact Nat.le_succ_of_le (ih false)
    · split
      · exact Nat.zero_le _
      · exact Nat.succ_le_succ (ih true)

theorem length_zero_blanks (s : List UInt8) : (zero_blanks s).length = s.length := by
  cases s with
  | nil => rfl
  | cons c rest =>
    have parts := congrArg List.length (@List.rdropWhile_append_rtakeWhile _ (fun c => decide (c = blank)) rest)
    rw [length_append] at parts
    simp only [zero_blanks,List.length_cons,length_append,List.length_replicate]
    omega

theorem length_process_line (mem : List UInt8) (check_hashtag : Bool) : (process_line mem check_hashtag).length = mem.length := by
  have kept := length_process_loop check_hashtag (cstr mem) false
  have inside : (cstr mem).length ≤ mem.length := (List.takeWhile_sublist _).length_le
  have first : (overwrite mem (process_loop check_hashtag (cstr mem) false ++ [0])).length = mem.length := by
    apply length_overwrite
    rw [length_append]
    exact Nat.succ_le_succ (kept.trans inside)
  rw [process_line,length_overwrite,first]
  rw [length_zero_blanks,first]
  omega

/-- The place of the operator, where the segment before it ends. -/
def token_start (token : Token) : Nat := token.token_pos - if token.double_pipe_symbol then 1 else 0

/-- What stands behind the operator, after `process_line`. -/
def behind (mem : List UInt8) (token : Token) : List UInt8 := process_line (mem.drop (token.token_pos + 1)) false

theorem length_behind (mem : List UInt8) (token : Token) : (behind mem token).length ≤ mem.length - 1 := by
  rw [behind,length_process_line,List.length_drop]
  omega

theorem operator_inside {mem : List UInt8} (operator : (get_command_type (cstr mem)).type ≠ .NORMAL) : 0 < mem.length := by
  cases mem with
  | nil => exact absurd rfl operator
  | cons => exact Nat.succ_pos _

/-- `captured` tells whether there is a `stdout_final_pipe`. A pipe is the bytes in it; the events come with the result. -/
def command_received {σ : Type} (shell : Shell σ) (w : World σ) (mem : List UInt8) (stdin : Option (List UInt8)) (captured : Bool) :
    List Event × Bool :=
  if (get_command_type (cstr mem)).type ≠ .NORMAL then
    let token := get_command_type (cstr mem)
    let current := (process_line mem false).set (token_start token) 0
    let next := behind current token
    let ran := shell.run_command w (cstr current) stdin (decide (token.type ≠ .AND_RUN))
    match ran.2 with
    | none => ([.run (cstr current) stdin none],false)
    | some stdout =>
      if token.type = .PIPE_FILE ∨ token.type = .PIPE_FILE_APPEND then
        if (get_command_type (cstr next)).type ≠ .NORMAL then
          let name := next.set (token_start (get_command_type (cstr next))) 0
          match redirect shell ran.1 (token.type = .PIPE_FILE_APPEND) (cstr name) stdout with
          | none => ([.run (cstr current) stdin (some stdout)],false)
          | some (w,file) =>
            let rest := command_received shell w (behind name (get_command_type (cstr next))) (some stdout) captured
            (.run (cstr current) stdin (some stdout) :: file :: rest.1,rest.2)
        else
          match redirect shell ran.1 (token.type = .PIPE_FILE_APPEND) (cstr next) stdout with
          | none => ([.run (cstr current) stdin (some stdout)],false)
          | some (_,file) => ([.run (cstr current) stdin (some stdout),file],true)
      else
        let rest := command_received shell ran.1 next (if token.type = .PIPE_PROC then some stdout else none) captured
        (.run (cstr current) stdin (some stdout) :: rest.1,rest.2)
  else
    let ran := shell.run_command w (cstr mem) stdin captured
    ([.run (cstr mem) stdin ran.2],ran.2.isSome)
termination_by mem.length
decreasing_by
  all_goals
    have first := length_behind ((process_line mem false).set (token_start (get_command_type (cstr mem))) 0) (get_command_type (cstr mem))
    rw [length_set,length_process_line] at first
    have some := operator_inside ‹(get_command_type (cstr mem)).type ≠ .NORMAL›
  · refine lt_of_le_of_lt (length_behind _ _) ?_
    rw [length_set]
    omega
  · omega

/-! ### What is asked -/

inductive Operator where
  | pipe | greater | append | ampersand
  deriving DecidableEq

def redirects (operator : Option Operator) : Prop := operator = some .greater ∨ operator = some .append

instance (operator : Option Operator) : Decidable (redirects operator) := inferInstanceAs (Decidable (_ ∨ _))

/-- A backslash takes the meaning of the next character, and a quote sign has none inside the other quotes. -/
def escape_round (f : Flags) (c : UInt8) : Flags :=
  if f.special_char_next then { f with special_char_next := false }
  else if c = backslash then { f with special_char_next := true }
  else if c = quote ∧ ¬ f.double_quote_open then { f with quote_open := !f.quote_open }
  else if c = apostrophe ∧ ¬ f.quote_open then { f with double_quote_open := !f.double_quote_open }
  else f

/-- The operator that starts with a character, and what stands behind it. -/
def operator_at (c : UInt8) (rest : List UInt8) : Operator × List UInt8 :=
  if c = Quoting.pipe then (.pipe,rest)
  else if c = greater then if rest.head? = some greater then (.append,rest.tail) else (.greater,rest)
  else (.ampersand,rest)

/-- A line up to its first operator that is neither quoted nor escaped, the operator and the rest; a round gives the flags. -/
def cut_at (round : Flags → UInt8 → Flags) : List UInt8 → Flags → Option (Text × Operator × List UInt8)
  | [],_ => none
  | c :: rest,f =>
    if is_operator c ∧ ¬ busy f then some ([],operator_at c rest)
    else (cut_at round rest (round f c)).map fun p => (c :: p.1,p.2)

theorem length_operator_at (c : UInt8) (rest : List UInt8) : (operator_at c rest).2.length ≤ rest.length := by
  unfold operator_at
  split
  · exact le_rfl
  · split
    · split
      · rw [List.length_tail]
        exact Nat.sub_le _ _
      · exact le_rfl
    · exact le_rfl

theorem length_cut_at {round : Flags → UInt8 → Flags} {line : List UInt8} {f : Flags} {p : Text × Operator × List UInt8}
    (cut : cut_at round line f = some p) : p.2.2.length < line.length := by
  induction line generalizing f p with
  | nil => cases cut
  | cons c rest ih =>
    rw [cut_at] at cut
    split at cut
    · cases cut
      exact Nat.lt_succ_of_le (length_operator_at c rest)
    · obtain ⟨inner,found,rfl⟩ := Option.map_eq_some_iff.1 cut
      exact Nat.lt_succ_of_lt (ih (p := inner) found)

/-- A line split at its operators: each segment with the operator before it. -/
def split (round : Flags → UInt8 → Flags) (operator : Option Operator) (line : List UInt8) : List (Option Operator × Text) :=
  match cut : cut_at round line none_open with
  | none => [(operator,line)]
  | some p =>
    have := length_cut_at cut
    (operator,p.1) :: split round (some p.2.1) p.2.2
termination_by line.length

def ltrim (s : List UInt8) : List UInt8 := s.dropWhile (· = blank)
def rtrim (s : List UInt8) : List UInt8 := s.rdropWhile (· = blank)
def trim (s : List UInt8) : List UInt8 := rtrim (ltrim s)

/-- The segments of a line without the blanks around them. -/
def segments (line : List UInt8) : List (Option Operator × Text) :=
  (split escape_round none line).map fun s => (s.1,trim s.2)

/-- The commands are run in order and each is found, behind `|` with the output before it as input; a file is left with that output,
    behind `>>` after its old content. `stdout` is what was captured last. -/
def Meets : List UInt8 → List (Option Operator × Text) → List Event → Prop
  | _,[],[] => True
  | stdout,(operator,text) :: rest,.run command input output :: events =>
    ¬ redirects operator ∧ command = text ∧ (operator = some .pipe → input = some stdout) ∧
      ∃ captured, output = some captured ∧ Meets captured rest events
  | stdout,(operator,text) :: rest,.file name before after :: events =>
    name = text ∧ ((operator = some .greater ∧ after = stdout) ∨ (operator = some .append ∧ after = before ++ stdout)) ∧
      Meets stdout rest events
  | _,_,_ => False

/-- No file follows on a file. -/
def Single : List (Option Operator × Text) → Prop
  | (operator,_) :: (next,text) :: rest => ¬ (redirects operator ∧ redirects next) ∧ Single ((next,text) :: rest)
  | _ => True

/-- Between two operators no blank stands at the end of a segment, unless there is nothing else. -/
def Tidy : List (Option Operator × Text) → Prop
  | (_,text) :: next :: rest => trim text = ltrim text ∧ Tidy (next :: rest)
  | _ => True

/-- Every command is found and every file can be opened, and what is in a file behind `>` is not longer than the output. -/
def Ready {σ : Type} (shell : Shell σ) : World σ → Option (List UInt8) → Bool → List (Option Operator × Text) → Prop
  | _,_,_,[] => True
  | w,stdin,captured,[(_,text)] => ((shell.run_command w text stdin captured).2).isSome
  | w,stdin,captured,(_,text) :: (operator,next) :: rest =>
    let ran := shell.run_command w text stdin (decide (operator ≠ some .ampersand))
    ∃ stdout, ran.2 = some stdout ∧
      if redirects operator then
        ∃ file, (shell.resolve_check ran.1 next).bind (shell.opens ran.1) = some file ∧
          (operator = some .greater → ((ran.1.files file).getD []).length ≤ stdout.length) ∧
          ∀ w event, redirect shell ran.1 (operator = some .append) next stdout = some (w,event) → Ready shell w (some stdout) captured rest
      else Ready shell ran.1 (if operator = some .pipe then some stdout else none) captured ((operator,next) :: rest)

/-! ### Blanks -/

theorem rtrim_cons (c : UInt8) (s : List UInt8) :
    rtrim (c :: s) = if rtrim s = [] ∧ c = blank then [] else c :: rtrim s := by
  unfold rtrim List.rdropWhile
  rw [List.reverse_cons,List.dropWhile_append]
  cases none : s.reverse.dropWhile (fun c => decide (c = blank)) with
  | nil =>
    by_cases here : c = blank
    · simp [here]
    · simp [here]
  | cons d rest => simp

theorem rtrim_other {c : UInt8} (s : List UInt8) (other : c ≠ blank) : rtrim (c :: s) = c :: rtrim s := by
  rw [rtrim_cons,if_neg (fun both => other both.2)]

theorem rtrim_append_other (x : List UInt8) {c : UInt8} (s : List UInt8) (other : c ≠ blank) :
    rtrim (x ++ c :: s) = x ++ c :: rtrim s := by
  induction x with
  | nil => exact rtrim_other s other
  | cons d x ih =>
    rw [cons_append,rtrim_cons,ih,if_neg (by simp)]
    rfl

theorem rtrim_blanks (n : Nat) : rtrim (List.replicate n blank) = [] := by
  rw [rtrim,List.rdropWhile_eq_nil_iff]
  intro c listed
  simp [List.eq_of_mem_replicate listed]

theorem rtrim_append_blanks (s : List UInt8) (n : Nat) : rtrim (s ++ List.replicate n blank) = rtrim s := by
  induction s with
  | nil => exact rtrim_blanks n
  | cons c s ih => rw [cons_append,rtrim_cons,ih,← rtrim_cons]

/-- A text is what is left of it and the blanks at its end. -/
theorem rtrim_parts (s : List UInt8) : ∃ n, s = rtrim s ++ List.replicate n blank := by
  refine ⟨(s.rtakeWhile (· = blank)).length,?_⟩
  have blanks : s.rtakeWhile (· = blank) = List.replicate (s.rtakeWhile (· = blank)).length blank := by
    rw [List.eq_replicate_iff]
    refine ⟨rfl,fun c listed => ?_⟩
    simpa using List.mem_rtakeWhile_imp listed
  rw [← blanks]
  exact List.rdropWhile_append_rtakeWhile.symm

theorem ltrim_cons (c : UInt8) (s : List UInt8) : ltrim (c :: s) = if c = blank then ltrim s else c :: s := by
  rw [ltrim,List.dropWhile_cons]
  by_cases here : c = blank <;> simp [here,ltrim]

theorem ltrim_other {s : List UInt8} (other : s.head? ≠ some blank) : ltrim s = s := by
  cases s with
  | nil => rfl
  | cons c s => rw [ltrim_cons,if_neg (by simpa using other)]

theorem ltrim_head (s : List UInt8) : (ltrim s).head? ≠ some blank := by
  induction s with
  | nil => simp [ltrim]
  | cons c s ih =>
    rw [ltrim_cons]
    split
    · exact ih
    · rename_i other
      simpa using other

theorem rtrim_head {s : List UInt8} (other : s.head? ≠ some blank) : (rtrim s).head? ≠ some blank := by
  cases s with
  | nil => simp [rtrim]
  | cons c s =>
    rw [rtrim_other s (by simpa using other)]
    simpa using other

theorem rtrim_ltrim (s : List UInt8) : rtrim (ltrim s) = ltrim (rtrim s) := by
  induction s with
  | nil => rfl
  | cons c s ih =>
    rw [ltrim_cons]
    by_cases here : c = blank
    · rw [if_pos here,ih,rtrim_cons]
      split
      case isTrue none => rw [none.1]
      case isFalse => rw [ltrim_cons,if_pos here]
    · rw [if_neg here,rtrim_other s here,ltrim_cons,if_neg here]

theorem rtrim_rtrim (s : List UInt8) : rtrim (rtrim s) = rtrim s := List.rdropWhile_idempotent _ _

theorem trim_rtrim (s : List UInt8) : trim (rtrim s) = trim s := by
  rw [trim,trim,rtrim_ltrim,rtrim_rtrim,← rtrim_ltrim]

theorem trim_append_blanks (s : List UInt8) (n : Nat) : trim (s ++ List.replicate n blank) = trim s := by
  rw [← trim_rtrim,rtrim_append_blanks,trim_rtrim]

theorem trim_head (s : List UInt8) : (trim s).head? ≠ some blank := rtrim_head (ltrim_head s)

/-- How many characters are not blank: cutting blanks off leaves that. -/
def weight (s : List UInt8) : Nat := s.countP (· ≠ blank)

theorem weight_append (s t : List UInt8) : weight (s ++ t) = weight s + weight t := List.countP_append

theorem weight_ltrim (s : List UInt8) : weight (ltrim s) = weight s := by
  induction s with
  | nil => rfl
  | cons c s ih =>
    rw [ltrim_cons]
    split
    case isTrue here =>
      rw [ih,weight,weight,List.countP_cons_of_neg]
      simp [here]
    case isFalse => rfl

theorem weight_rtrim (s : List UInt8) : weight (rtrim s) = weight s := by
  obtain ⟨n,parts⟩ := rtrim_parts s
  have blanks : weight (List.replicate n blank) = 0 := by
    rw [weight,List.countP_eq_zero]
    intro c listed
    simp [List.eq_of_mem_replicate listed]
  have whole := congrArg weight parts
  rw [weight_append,blanks] at whole
  exact whole.symm

theorem weight_trim (s : List UInt8) : weight (trim s) = weight s := (weight_rtrim _).trans (weight_ltrim s)

/-! ### Cutting a line -/

section
variable {round : Flags → UInt8 → Flags} {line s : List UInt8} {f : Flags} {p : Text × Operator × List UInt8}

theorem cut_at_parts (cut : cut_at round line f = some p) :
    ∃ c rest, line = p.1 ++ c :: rest ∧ is_operator c = true ∧ p.2 = operator_at c rest := by
  induction line generalizing f p with
  | nil => cases cut
  | cons c rest ih =>
    rw [cut_at] at cut
    split at cut
    case isTrue operator =>
      cases cut
      exact ⟨c,rest,rfl,operator.1,rfl⟩
    case isFalse =>
      obtain ⟨inner,found,rfl⟩ := Option.map_eq_some_iff.1 cut
      obtain ⟨d,after,whole,operator,same⟩ := ih (p := inner) found
      exact ⟨d,after,by rw [whole]; rfl,operator,same⟩

theorem operator_at_append (c : UInt8) (rest : List UInt8) (n : Nat) :
    operator_at c (rest ++ List.replicate n blank) = ((operator_at c rest).1,(operator_at c rest).2 ++ List.replicate n blank) := by
  unfold operator_at
  split
  · rfl
  · split
    · cases rest with
      | nil => cases n <;> simp [List.replicate_succ,blank,greater]
      | cons d rest =>
        by_cases double : d = greater
        · simp [double]
        · simp [double]
    · rfl

theorem cut_at_blanks (n : Nat) (f : Flags) : cut_at round (List.replicate n blank) f = none := by
  induction n generalizing f with
  | zero => rfl
  | succ n ih =>
    rw [List.replicate_succ,cut_at,if_neg (by simp [is_operator,blank,Quoting.pipe,greater,ampersand]),ih]
    rfl

theorem cut_at_append_blanks (s : List UInt8) (n : Nat) (f : Flags) : cut_at round (s ++ List.replicate n blank) f =
    (cut_at round s f).map fun p => (p.1,p.2.1,p.2.2 ++ List.replicate n blank) := by
  induction s generalizing f with
  | nil => exact cut_at_blanks n f
  | cons c s ih =>
    rw [cons_append,cut_at,cut_at]
    split
    · rw [operator_at_append]
      rfl
    · rw [ih,Option.map_map,Option.map_map]
      rfl

/-- Blanks at the start stay in the first segment. -/
theorem cut_at_ltrim (calm : round none_open blank = none_open) (s : List UInt8) :
    cut_at round (ltrim s) none_open = (cut_at round s none_open).map fun p => (ltrim p.1,p.2) := by
  induction s with
  | nil => rfl
  | cons c s ih =>
    rw [ltrim_cons]
    by_cases here : c = blank
    · rw [if_pos here,ih,cut_at,if_neg (by simp [here,is_operator,blank,Quoting.pipe,greater,ampersand]),here,calm,Option.map_map]
      refine congrFun (congrArg Option.map (funext fun p => ?_)) _
      simp only [Function.comp_apply,ltrim_cons,if_true]
    · rw [if_neg here]
      cases cut : cut_at round (c :: s) none_open with
      | none => rfl
      | some p =>
        obtain ⟨d,rest,whole,_⟩ := cut_at_parts cut
        have head : p.1.head? ≠ some blank := by
          cases first : p.1 with
          | nil => simp
          | cons e seg =>
            rw [first] at whole
            cases whole
            simpa using here
        rw [Option.map_some,ltrim_other head]

/-- The token for an operator at a position. -/
def token_of : Operator → Nat → Token
  | .pipe,i => ⟨.PIPE_PROC,i,false⟩
  | .greater,i => ⟨.PIPE_FILE,i,false⟩
  | .append,i => ⟨.PIPE_FILE_APPEND,i + 1,true⟩
  | .ampersand,i => ⟨.AND_RUN,i,false⟩

theorem command_type_cut (s : List UInt8) (i : Nat) (f : Flags) : command_type_loop s i f =
    match cut_at get_round s f with
    | none => ⟨.NORMAL,0,false⟩
    | some p => token_of p.2.1 (i + p.1.length) := by
  induction s generalizing i f with
  | nil => rfl
  | cons c s ih =>
    rw [command_type_loop,cut_at]
    by_cases calm : busy f = true
    · rw [if_neg (by simp [calm]),if_neg (by simp [calm]),if_neg (by simp [calm]),if_neg (by simp [calm]),ih]
      cases cut_at get_round s (get_round f c) with
      | none => rfl
      | some p => simp [Nat.add_comm,Nat.add_left_comm]
    · by_cases is_pipe : c = Quoting.pipe
      · have taken : is_operator c = true ∧ ¬ busy f = true := ⟨by simp [is_pipe,is_operator],calm⟩
        rw [if_pos ⟨is_pipe,calm⟩,if_pos taken]
        simp [operator_at,is_pipe,token_of]
      · rw [if_neg (fun both => is_pipe both.1)]
        by_cases is_greater : c = greater
        · have taken : is_operator c = true ∧ ¬ busy f = true := ⟨by simp [is_greater,is_operator],calm⟩
          rw [if_pos ⟨is_greater,calm⟩,if_pos taken,operator_at,if_neg is_pipe,if_pos is_greater]
          by_cases double : s.head? = some greater
          · rw [if_pos double,if_pos double]
            rfl
          · rw [if_neg double,if_neg double]
            rfl
        · rw [if_neg (fun both => is_greater both.1)]
          by_cases is_ampersand : c = ampersand
          · have taken : is_operator c = true ∧ ¬ busy f = true := ⟨by simp [is_ampersand,is_operator],calm⟩
            rw [if_pos ⟨is_ampersand,calm⟩,if_pos taken,operator_at,if_neg is_pipe,if_neg is_greater]
            rfl
          · have left : ¬ (is_operator c = true ∧ ¬ busy f = true) := by simp [is_operator,is_pipe,is_greater,is_ampersand]
            rw [if_neg (fun both => is_ampersand both.1),if_neg left,ih]
            cases cut_at get_round s (get_round f c) with
            | none => rfl
            | some p => simp [Nat.add_comm,Nat.add_left_comm]

theorem get_command_type_cut (s : List UInt8) : get_command_type s =
    match cut_at get_round s none_open with
    | none => ⟨.NORMAL,0,false⟩
    | some p => token_of p.2.1 p.1.length := by
  rw [get_command_type,command_type_cut]
  simp only [Nat.zero_add]

end

/-! ### Cutting a buffer -/

section
variable {mem s t : List UInt8}

theorem cstr_append (plain : 0 ∉ s) : cstr (s ++ t) = s ++ cstr t := by
  refine List.takeWhile_append_of_pos fun c listed => ?_
  simp only [decide_eq_true_eq]
  rintro rfl
  exact plain listed

theorem cstr_plain (mem : List UInt8) : 0 ∉ cstr mem := by
  intro listed
  have other := List.mem_takeWhile_imp listed
  simp at other

theorem cstr_tail (mem : List UInt8) : ∃ tail, mem = cstr mem ++ tail ∧ cstr tail = [] := by
  refine ⟨mem.dropWhile (· ≠ 0),List.takeWhile_append_dropWhile.symm,?_⟩
  cases rest : mem.dropWhile (fun c => decide (c ≠ 0)) with
  | nil => rfl
  | cons c tail =>
    have stops := List.head_dropWhile_not (fun c : UInt8 => decide (c ≠ 0)) (l := mem) (by rw [rest]; simp)
    simp only [rest,List.head_cons,decide_eq_false_iff_not,not_not] at stops
    rw [cstr,List.takeWhile_cons_of_neg (by simp [stops])]

theorem cstr_zero (t : List UInt8) : cstr (0 :: t) = [] := rfl

/-- A terminator stored inside the string ends it there. -/
theorem cstr_set (mem : List UInt8) (n : Nat) : cstr (mem.set n 0) = (cstr mem).take n := by
  obtain ⟨tail,parts,none⟩ := cstr_tail mem
  conv_lhs => rw [parts]
  by_cases inside : n < (cstr mem).length
  · have plain : 0 ∉ (cstr mem).take n := fun listed => cstr_plain mem (List.mem_of_mem_take listed)
    rw [List.set_append_left _ _ inside,List.set_eq_take_append_cons_drop,if_pos inside,append_assoc,cstr_append plain,
      cons_append,cstr_zero,append_nil]
  · have behind : (cstr mem).length ≤ n := Nat.le_of_not_lt inside
    have ends : ∀ k, cstr (tail.set k 0) = [] := by
      intro k
      cases tail with
      | nil => rfl
      | cons c tail =>
        cases k with
        | zero => rfl
        | succ k =>
          by_cases zero : c = 0
          · rw [zero]
            rfl
          · simp [cstr,zero] at none
    rw [List.set_append_right _ _ behind,cstr_append (cstr_plain mem),ends,append_nil,List.take_of_length_le behind]

/-- What stands behind is left as it was. -/
theorem cstr_drop_set {n k : Nat} (before : n < k) (inside : k ≤ (cstr mem).length) :
    cstr ((mem.set n 0).drop k) = (cstr mem).drop k := by
  obtain ⟨tail,parts,none⟩ := cstr_tail mem
  have plain : 0 ∉ (cstr mem).drop k := fun listed => cstr_plain mem (List.mem_of_mem_drop listed)
  rw [List.drop_set_of_lt before]
  conv_lhs => rw [parts]
  rw [List.drop_append_of_le_length inside,cstr_append plain,none,append_nil]

theorem process_loop_found (s : List UInt8) : process_loop false s true = s := by
  induction s with
  | nil => rfl
  | cons c s ih => simp [process_loop,ih]

theorem process_loop_ltrim (s : List UInt8) : process_loop false s false = ltrim s := by
  induction s with
  | nil => rfl
  | cons c s ih =>
    rw [process_loop,ltrim_cons]
    by_cases here : c = blank
    · simp [here,ih]
    · simp [here,process_loop_found]

theorem zero_blanks_rtrim (other : s.head? ≠ some blank) : ∃ n, zero_blanks s = rtrim s ++ List.replicate n 0 := by
  cases s with
  | nil => exact ⟨0,rfl⟩
  | cons c s =>
    rw [rtrim_other s (by simpa using other)]
    exact ⟨_,rfl⟩

theorem cstr_overwrite (plain : 0 ∉ s) (short : s.length ≤ mem.length) : cstr (overwrite mem (s ++ [0])) = s := by
  rw [overwrite,append_assoc,List.take_append,List.take_of_length_le short,cstr_append plain]
  cases mem.length - s.length with
  | zero => simp [cstr]
  | succ n => simp [cstr]

/-- What `process_line` leaves in the buffer. -/
theorem cstr_process_line (mem : List UInt8) : cstr (process_line mem false) = trim (cstr mem) := by
  have inside : (cstr mem).length ≤ mem.length := (List.takeWhile_sublist _).length_le
  have shorter : (ltrim (cstr mem)).length ≤ (cstr mem).length := (List.dropWhile_sublist _).length_le
  have plain : 0 ∉ ltrim (cstr mem) := fun listed => cstr_plain mem ((List.dropWhile_sublist _).subset listed)
  have first := cstr_overwrite plain (shorter.trans inside)
  rw [process_line]
  simp only [process_loop_ltrim]
  generalize overwrite mem (ltrim (cstr mem) ++ [0]) = mem' at first ⊢
  obtain ⟨tail,parts,none⟩ := cstr_tail mem'
  rw [first] at parts
  obtain ⟨n,zeros⟩ := zero_blanks_rtrim (ltrim_head (cstr mem))
  have length := length_zero_blanks (ltrim (cstr mem))
  have rest : mem'.drop (zero_blanks (ltrim (cstr mem))).length = tail := by
    rw [parts,length,List.drop_left]
  have all : (zero_blanks (ltrim (cstr mem)) ++ tail).length ≤ mem'.length := by
    rw [parts,length_append,length_append,length]
  have clean : 0 ∉ trim (cstr mem) := fun listed => plain (( List.rdropWhile_prefix _ _).subset listed)
  rw [overwrite,rest,List.take_of_length_le all,zeros,append_assoc,← trim,cstr_append clean]
  cases n with
  | zero =>
    rw [List.replicate_zero,List.nil_append,none,append_nil]
  | succ n =>
    rw [List.replicate_succ,cons_append,cstr_zero,append_nil]

/-- How many characters an operator has. -/
def width : Operator → Nat
  | .append => 2
  | _ => 1

theorem operator_at_width {c : UInt8} {rest : List UInt8} (operator : is_operator c = true) :
    (c :: rest).drop (width (operator_at c rest).1) = (operator_at c rest).2 ∧ width (operator_at c rest).1 ≤ (rtrim (c :: rest)).length := by
  have other := (operator_sign operator).2
  rw [rtrim_other rest other]
  unfold operator_at
  split
  · exact ⟨rfl,by simp [width]⟩
  · split
    · split
      case isTrue double =>
        cases rest with
        | nil => cases double
        | cons d rest =>
          cases double
          rw [rtrim_other rest (by decide)]
          exact ⟨rfl,by simp [width]⟩
      case isFalse => exact ⟨rfl,by simp [width]⟩
    · exact ⟨rfl,by simp [width]⟩

theorem token_start_of (operator : Operator) (i : Nat) : token_start (token_of operator i) = i := by
  cases operator <;> rfl

theorem token_pos_of (operator : Operator) (i : Nat) : (token_of operator i).token_pos + 1 = i + width operator := by
  cases operator <;> rfl

/-- A buffer cut at its first operator. -/
theorem cut_buffer {p : Text × Operator × List UInt8} (cut : cut_at get_round (cstr mem) none_open = some p)
    (trimmed : rtrim (cstr mem) = cstr mem) :
    cstr (mem.set p.1.length 0) = p.1 ∧ cstr (behind (mem.set p.1.length 0) (token_of p.2.1 p.1.length)) = trim p.2.2 := by
  obtain ⟨c,rest,whole,operator,same⟩ := cut_at_parts cut
  obtain ⟨after,wide⟩ := @operator_at_width c rest operator
  rw [← same] at after wide
  have other := (operator_sign operator).2
  have end_plain : rtrim (c :: rest) = c :: rest := by
    rw [whole,rtrim_append_other _ _ other] at trimmed
    rw [rtrim_other _ other]
    exact List.append_cancel_left trimmed
  rw [end_plain] at wide
  have length : (cstr mem).length = p.1.length + (c :: rest).length := by rw [whole,length_append]
  have positive : 0 < width p.2.1 := by cases p.2.1 <;> decide
  refine ⟨?_,?_⟩
  · rw [cstr_set,whole,List.take_left]
  · rw [behind,cstr_process_line,token_pos_of,cstr_drop_set (by omega) (by omega),whole,← List.drop_drop,List.drop_left,after]

end

/-! ### Splitting a line -/

section
variable {round : Flags → UInt8 → Flags} {operator : Option Operator} {line : List UInt8}

theorem split_none (cut : cut_at round line none_open = none) : split round operator line = [(operator,line)] := by
  rw [split]
  split
  · rfl
  · rename_i found
    rw [cut] at found
    cases found

theorem split_some {p : Text × Operator × List UInt8} (cut : cut_at round line none_open = some p) :
    split round operator line = (operator,p.1) :: split round (some p.2.1) p.2.2 := by
  rw [split]
  split
  · rename_i found
    rw [cut] at found
    cases found
  · rename_i found
    rw [cut] at found
    cases found
    rfl

theorem split_nonempty (round : Flags → UInt8 → Flags) (operator : Option Operator) (line : List UInt8) :
    ∃ text rest, split round operator line = (operator,text) :: rest := by
  cases cut : cut_at round line none_open with
  | none => exact ⟨_,_,split_none cut⟩
  | some p => exact ⟨_,_,split_some cut⟩

/-- The segments behind an operator as they are cut in the buffer: only the last one loses the blanks at its end. -/
def laters : List (Option Operator × Text) → List (Option Operator × Text)
  | [] => []
  | [(operator,text)] => [(operator,trim text)]
  | (operator,text) :: next :: rest => (operator,ltrim text) :: laters (next :: rest)

/-- The first segment is left as it is. -/
def lefts : List (Option Operator × Text) → List (Option Operator × Text)
  | [] => []
  | first :: rest => first :: laters rest

theorem laters_split (operator next : Option Operator) (text line : Text) :
    laters ((operator,text) :: split round next line) = (operator,ltrim text) :: laters (split round next line) := by
  obtain ⟨text',rest,same⟩ := split_nonempty round next line
  rw [same,laters]

theorem laters_blanks (operator : Option Operator) (line : List UInt8) (n : Nat) :
    laters (split round operator (line ++ List.replicate n blank)) = laters (split round operator line) := by
  cases cut : cut_at round line none_open with
  | none =>
    have none : cut_at round (line ++ List.replicate n blank) none_open = none := by rw [cut_at_append_blanks,cut]; rfl
    rw [split_none cut,split_none none,laters,laters,trim_append_blanks]
  | some p =>
    have some : cut_at round (line ++ List.replicate n blank) none_open = some (p.1,p.2.1,p.2.2 ++ List.replicate n blank) := by
      rw [cut_at_append_blanks,cut]
      rfl
    have shorter := length_cut_at cut
    rw [split_some cut,split_some some,laters_split,laters_split,laters_blanks (Option.some p.2.1) p.2.2 n]
termination_by line.length

/-- Cutting the blanks off a whole line leaves of each segment what cutting it in the buffer does. -/
theorem lefts_trim (calm : round none_open blank = none_open) (operator : Option Operator) (line : List UInt8) :
    lefts (split round operator (trim line)) = laters (split round operator line) := by
  obtain ⟨n,parts⟩ := rtrim_parts line
  have ends : laters (split round operator line) = laters (split round operator (rtrim line)) := by
    conv_lhs => rw [parts]
    exact laters_blanks operator (rtrim line) n
  rw [ends,← trim_rtrim,trim,rtrim_ltrim,rtrim_rtrim]
  have starts := cut_at_ltrim calm (rtrim line)
  cases cut : cut_at round (rtrim line) none_open with
  | none =>
    rw [cut] at starts
    rw [split_none cut,split_none starts,lefts,laters,laters,trim,rtrim_ltrim,rtrim_rtrim]
  | some p =>
    rw [cut] at starts
    rw [split_some cut,split_some starts,laters_split,lefts]

end

/-! ### What happens -/

section
variable {σ : Type} {shell : Shell σ}

/-- What happens for segments as they are cut: the text behind `>` and `>>` is a file, and then comes a command. -/
def happens (shell : Shell σ) : World σ → Option (List UInt8) → Bool → List (Option Operator × Text) → List Event
  | _,_,_,[] => []
  | w,stdin,captured,[(_,text)] => [.run text stdin (shell.run_command w text stdin captured).2]
  | w,stdin,captured,(_,text) :: (operator,next) :: rest =>
    let ran := shell.run_command w text stdin (decide (operator ≠ some .ampersand))
    match ran.2 with
    | none => [.run text stdin none]
    | some stdout =>
      if redirects operator then
        match redirect shell ran.1 (operator = some .append) next stdout with
        | none => [.run text stdin (some stdout)]
        | some (w,file) => .run text stdin (some stdout) :: file :: happens shell w (some stdout) captured rest
      else
        .run text stdin (some stdout) ::
          happens shell ran.1 (if operator = some .pipe then some stdout else none) captured ((operator,next) :: rest)

theorem type_operator (operator : Operator) (i : Nat) : (token_of operator i).type ≠ .NORMAL ∧
    ((token_of operator i).type ≠ .AND_RUN ↔ some operator ≠ some .ampersand) ∧
    ((token_of operator i).type = .PIPE_FILE ∨ (token_of operator i).type = .PIPE_FILE_APPEND ↔ redirects (some operator)) ∧
    ((token_of operator i).type = .PIPE_FILE_APPEND ↔ some operator = some .append) ∧
    ((token_of operator i).type = .PIPE_PROC ↔ some operator = some .pipe) := by
  cases operator <;> simp [token_of,redirects]

theorem received_normal {w : World σ} {mem : List UInt8} {stdin : Option (List UInt8)} {captured : Bool}
    (cut : cut_at get_round (cstr mem) none_open = none) :
    (command_received shell w mem stdin captured).1 = [.run (cstr mem) stdin (shell.run_command w (cstr mem) stdin captured).2] := by
  rw [command_received,get_command_type_cut,cut]
  simp

variable {p : Text × Operator × List UInt8} {name : Text} {append : Bool}

/-- A buffer that `process_line` has trimmed is cut where the line is. -/
theorem cut_trimmed {mem : List UInt8} (cut : cut_at get_round (cstr mem) none_open = some p)
    (head : (cstr mem).head? ≠ some blank) :
    cstr ((process_line mem false).set p.1.length 0) = p.1 ∧
      cstr (behind ((process_line mem false).set p.1.length 0) (token_of p.2.1 p.1.length)) = trim p.2.2 := by
  obtain ⟨n,parts⟩ := rtrim_parts (cstr mem)
  have trimmed : cstr (process_line mem false) = rtrim (cstr mem) := by rw [cstr_process_line,trim,ltrim_other head]
  rw [parts,cut_at_append_blanks,Option.map_eq_some_iff] at cut
  obtain ⟨q,inner,rfl⟩ := cut
  rw [← trimmed] at inner
  obtain ⟨before,after⟩ := cut_buffer inner (by rw [trimmed,rtrim_rtrim])
  exact ⟨before,after.trans (trim_append_blanks _ _).symm⟩

theorem received_operator {w : World σ} {mem : List UInt8} {stdin : Option (List UInt8)} {captured : Bool}
    (cut : cut_at get_round (cstr mem) none_open = some p) :
    (command_received shell w mem stdin captured).1 =
      let current := (process_line mem false).set p.1.length 0
      let next := behind current (token_of p.2.1 p.1.length)
      let ran := shell.run_command w (cstr current) stdin (decide (some p.2.1 ≠ some .ampersand))
      match ran.2 with
      | none => [.run (cstr current) stdin none]
      | some stdout =>
        if redirects (some p.2.1) then
          match cut_at get_round (cstr next) none_open with
          | none =>
            match redirect shell ran.1 (some p.2.1 = some .append) (cstr next) stdout with
            | none => [.run (cstr current) stdin (some stdout)]
            | some (_,file) => [.run (cstr current) stdin (some stdout),file]
          | some q =>
            match redirect shell ran.1 (some p.2.1 = some .append) (cstr (next.set q.1.length 0)) stdout with
            | none => [.run (cstr current) stdin (some stdout)]
            | some (w,file) => .run (cstr current) stdin (some stdout) :: file ::
              (command_received shell w (behind (next.set q.1.length 0) (token_of q.2.1 q.1.length)) (some stdout) captured).1
        else
          .run (cstr current) stdin (some stdout) ::
            (command_received shell ran.1 next (if some p.2.1 = some .pipe then some stdout else none) captured).1 := by
  obtain ⟨operator,captures,to_file,appends,pipes⟩ := type_operator p.2.1 p.1.length
  conv_lhs => rw [command_received]
  simp only [get_command_type_cut (cstr mem),cut,token_start_of]
  rw [if_pos operator]
  simp only [captures,to_file]
  simp only [appends,pipes]
  generalize (process_line mem false).set p.1.length 0 = current
  generalize behind current (token_of p.2.1 p.1.length) = next
  generalize shell.run_command w (cstr current) stdin (decide (some p.2.1 ≠ some .ampersand)) = ran
  obtain ⟨w',output⟩ := ran
  cases output with
  | none => rfl
  | some stdout =>
    dsimp only
    by_cases file : redirects (some p.2.1)
    · rw [if_pos file,if_pos file,get_command_type_cut (cstr next)]
      cases cut_at get_round (cstr next) none_open with
      | none =>
        dsimp only
        rw [if_neg (by simp)]
        cases redirect shell w' (some p.2.1 = some .append) (cstr next) stdout <;> rfl
      | some q =>
        dsimp only
        rw [if_pos (type_operator q.2.1 q.1.length).1,token_start_of]
        cases redirect shell w' (some p.2.1 = some .append) (cstr (next.set q.1.length 0)) stdout <;> rfl
    · rw [if_neg file,if_neg file]

/-- The buffer is cut as the line is split. -/
theorem received_happens (w : World σ) (mem : List UInt8) (stdin : Option (List UInt8)) (captured : Bool) (operator : Option Operator)
    (starts : cut_at get_round (cstr mem) none_open = none ∨ (cstr mem).head? ≠ some blank) :
    (command_received shell w mem stdin captured).1 =
      happens shell w stdin captured (lefts (split get_round operator (cstr mem))) := by
  cases cut : cut_at get_round (cstr mem) none_open with
  | none =>
    rw [received_normal cut,split_none cut]
    rfl
  | some p =>
    have head : (cstr mem).head? ≠ some blank := starts.resolve_left (by rw [cut]; simp)
    obtain ⟨before,after⟩ := cut_trimmed cut head
    have calm : get_round none_open blank = none_open := rfl
    have inside : 0 < mem.length := operator_inside (by rw [get_command_type_cut,cut]; exact (type_operator _ _).1)
    have length := length_behind ((process_line mem false).set p.1.length 0) (token_of p.2.1 p.1.length)
    rw [length_set,length_process_line] at length
    rw [received_operator cut,split_some cut,lefts,← lefts_trim calm,← after]
    dsimp only
    rw [before]
    generalize behind ((process_line mem false).set p.1.length 0) (token_of p.2.1 p.1.length) = next at after length ⊢
    have next_head : (cstr next).head? ≠ some blank := by
      rw [after]
      exact trim_head _
    have trimmed : rtrim (cstr next) = cstr next := by
      rw [after,trim,rtrim_rtrim]
    have shorter : next.length < mem.length := by omega
    have onward := fun w stdin => received_happens w next stdin captured (some p.2.1) (Or.inr next_head)
    cases further : cut_at get_round (cstr next) none_open with
    | none =>
      simp only [split_none further,lefts,laters] at onward ⊢
      rw [happens]
      generalize shell.run_command w p.1 stdin (decide (some p.2.1 ≠ some .ampersand)) = ran
      obtain ⟨w',output⟩ := ran
      cases output with
      | none => rfl
      | some stdout =>
        dsimp only
        rw [onward]
        split
        · cases redirect shell w' (some p.2.1 = some .append) (cstr next) stdout <;> rfl
        · rfl
    | some q =>
      obtain ⟨before',after'⟩ := cut_buffer further trimmed
      have shorter' := length_behind (next.set q.1.length 0) (token_of q.2.1 q.1.length)
      rw [length_set] at shorter'
      simp only [split_some further,lefts] at onward ⊢
      rw [← lefts_trim calm,← after'] at onward ⊢
      rw [happens]
      rw [before']
      generalize behind (next.set q.1.length 0) (token_of q.2.1 q.1.length) = last at after' shorter' onward ⊢
      have last_head : (cstr last).head? ≠ some blank := by
        rw [after']
        exact trim_head _
      have shortest : last.length < mem.length := by omega
      have ending := fun w stdin => received_happens w last stdin captured (some q.2.1) (Or.inr last_head)
      generalize shell.run_command w p.1 stdin (decide (some p.2.1 ≠ some .ampersand)) = ran
      obtain ⟨w',output⟩ := ran
      cases output with
      | none => rfl
      | some stdout =>
        dsimp only
        rw [onward]
        split
        · cases redirect shell w' (some p.2.1 = some .append) q.1 stdout with
          | none => rfl
          | some r =>
            dsimp only
            rw [ending]
        · rfl
termination_by mem.length

/-! ### What was asked, about what happens -/

variable {asked cut : List (Option Operator × Text)} {events : List Event} {w : World σ} {stdin : Option (List UInt8)} {captured : Bool}
  {stdout : List UInt8}

theorem meets_nothing : Meets stdout asked [] ↔ asked = [] := by
  cases asked with
  | nil => simp [Meets]
  | cons first rest => simp [Meets]

theorem meets_run {command : Text} {input output : Option (List UInt8)} : Meets stdout asked (.run command input output :: events) ↔
    ∃ operator rest, asked = (operator,command) :: rest ∧ ¬ redirects operator ∧ (operator = some .pipe → input = some stdout) ∧
      ∃ captured, output = some captured ∧ Meets captured rest events := by
  cases asked with
  | nil => simp [Meets]
  | cons first rest =>
    obtain ⟨operator,text⟩ := first
    constructor
    · rintro ⟨plain,rfl,input,more⟩
      exact ⟨operator,rest,rfl,plain,input,more⟩
    · rintro ⟨_,_,same,plain,input,more⟩
      cases same
      exact ⟨plain,rfl,input,more⟩

theorem meets_file {before after : List UInt8} : Meets stdout asked (.file name before after :: events) ↔
    ∃ operator rest, asked = (operator,name) :: rest ∧
      ((operator = some .greater ∧ after = stdout) ∨ (operator = some .append ∧ after = before ++ stdout)) ∧ Meets stdout rest events := by
  cases asked with
  | nil => simp [Meets]
  | cons first rest =>
    obtain ⟨operator,text⟩ := first
    constructor
    · rintro ⟨rfl,content,more⟩
      exact ⟨operator,rest,rfl,content,more⟩
    · rintro ⟨_,_,same,content,more⟩
      cases same
      exact ⟨rfl,content,more⟩

/-- What `redirect` does when the file can be opened. -/
theorem redirect_some {r : World σ × Event} (done : redirect shell w append name stdout = some r) :
    ∃ before after, r.2 = .file name before after ∧
      (append = true → after = before ++ stdout) ∧ (append = false → (after = stdout ↔ before.length ≤ stdout.length)) ∧
      ∃ file, (shell.resolve_check w name).bind (shell.opens w) = some file ∧ before = (w.files file).getD [] := by
  unfold redirect at done
  split at done
  · cases done
  · rename_i file found
    cases done
    refine ⟨_,_,rfl,?_,?_,file,found,rfl⟩
    · rintro rfl
      simp [write_at]
    · rintro rfl
      simp only [write_at,Bool.false_eq_true,if_false,List.take_zero,Nat.zero_sub,List.replicate_zero,List.nil_append,Nat.zero_add]
      rw [List.append_right_eq_self,List.drop_eq_nil_iff]

theorem redirect_none : redirect shell w append name stdout = none ↔
    (shell.resolve_check w name).bind (shell.opens w) = none := by
  unfold redirect
  split
  · simp_all
  · simp_all

/-- The texts of what was asked for come first among those that were cut. -/
theorem meets_texts : ∀ (cut asked : List (Option Operator × Text)) (w : World σ) (stdin : Option (List UInt8)) (stdout : List UInt8),
    Meets stdout asked (happens shell w stdin captured cut) → asked.map Prod.snd <+: cut.map Prod.snd
  | [],asked,w,stdin,stdout,met => by
    rw [happens,meets_nothing] at met
    rw [met]
  | [(_,text)],asked,w,stdin,stdout,met => by
    rw [happens,meets_run] at met
    obtain ⟨_,rest,rfl,_,_,_,_,last⟩ := met
    rw [meets_nothing] at last
    rw [last]
    exact prefix_rfl
  | (_,text) :: (operator,next) :: rest,asked,w,stdin,stdout,met => by
    rw [happens] at met
    split at met
    · obtain ⟨_,_,_,_,_,_,missing,_⟩ := meets_run.1 met
      cases missing
    · split at met
      · split at met
        · obtain ⟨_,more,rfl,_,_,_,_,last⟩ := meets_run.1 met
          rw [meets_nothing] at last
          rw [last]
          exact List.prefix_append [text] _
        · rename_i done
          obtain ⟨before,after,same,_⟩ := redirect_some done
          dsimp only at same
          rw [same] at met
          obtain ⟨_,more,rfl,_,_,_,_,met⟩ := meets_run.1 met
          obtain ⟨_,more,rfl,_,met⟩ := meets_file.1 met
          exact cons_prefix_cons.2 ⟨rfl,cons_prefix_cons.2 ⟨rfl,meets_texts rest _ _ _ _ met⟩⟩
      · obtain ⟨_,more,rfl,_,_,_,_,met⟩ := meets_run.1 met
        exact cons_prefix_cons.2 ⟨rfl,meets_texts ((operator,next) :: rest) _ _ _ _ met⟩

/-- What is cut first is run. -/
theorem happens_first (w : World σ) (stdin : Option (List UInt8)) (o : Option Operator) (text : Text) (rest : List (Option Operator × Text)) :
    ∃ output events, happens shell w stdin captured ((o,text) :: rest) = .run text stdin output :: events := by
  cases rest with
  | nil => exact ⟨_,_,rfl⟩
  | cons next rest =>
    obtain ⟨operator,name⟩ := next
    rw [happens]
    split
    · exact ⟨_,_,rfl⟩
    · split
      · split
        · exact ⟨_,_,rfl⟩
        · exact ⟨_,_,rfl⟩
      · exact ⟨_,_,rfl⟩

/-- A command that follows on a file is one that was asked for. -/
theorem meets_behind {w : World σ} {stdout : List UInt8} {o : Option Operator} {text : Text} {rest : List (Option Operator × Text)}
    (file : redirects o) : ¬ Meets stdout ((o,text) :: rest) (happens shell w stdin captured ((o,text) :: rest)) := by
  obtain ⟨output,events,same⟩ := @happens_first σ shell captured w stdin o text rest
  rw [same,meets_run]
  rintro ⟨_,_,same,plain,_⟩
  cases same
  exact plain file

/-- When the segments are cut as they were asked for. -/
theorem meets_same : ∀ (cut : List (Option Operator × Text)) (w : World σ) (stdin : Option (List UInt8)) (stdout : List UInt8)
    (o : Option Operator) (text : Text), ¬ redirects o → (o = some .pipe → stdin = some stdout) →
    (Meets stdout ((o,text) :: cut) (happens shell w stdin captured ((o,text) :: cut)) ↔
      Single ((o,text) :: cut) ∧ Ready shell w stdin captured ((o,text) :: cut))
  | [],w,stdin,stdout,o,text,plain,input => by
    rw [happens,meets_run]
    constructor
    · rintro ⟨_,_,same,_,_,output,found,_⟩
      exact ⟨trivial,by rw [Ready,found]; rfl⟩
    · rintro ⟨_,found⟩
      obtain ⟨output,found⟩ := Option.isSome_iff_exists.1 found
      exact ⟨o,[],rfl,plain,input,output,found,trivial⟩
  | (operator,next) :: rest,w,stdin,stdout,o,text,plain,input => by
    rw [happens,Ready,Single]
    generalize shell.run_command w text stdin (decide (operator ≠ some .ampersand)) = ran
    obtain ⟨w',output⟩ := ran
    have started {events : List Event} {found : List UInt8} :
        Meets stdout ((o,text) :: (operator,next) :: rest) (.run text stdin (some found) :: events) ↔
          Meets found ((operator,next) :: rest) events := by
      rw [meets_run]
      constructor
      · rintro ⟨_,_,same,_,_,_,out,met⟩
        cases same
        cases out
        exact met
      · exact fun met => ⟨o,_,rfl,plain,input,found,rfl,met⟩
    cases output with
    | none =>
      refine iff_of_false ?_ ?_
      · rw [meets_run]
        rintro ⟨_,_,_,_,_,_,missing,_⟩
        cases missing
      · rintro ⟨_,_,missing,_⟩
        cases missing
    | some found =>
      dsimp only
      by_cases file : redirects operator
      · rw [if_pos file]
        cases done : redirect shell w' (operator = some .append) next found with
        | none =>
          refine iff_of_false ?_ ?_
          · dsimp only
            rw [started,meets_nothing]
            simp
          · rintro ⟨_,_,same,ready⟩
            cases same
            rw [if_pos file] at ready
            obtain ⟨file,opened,_⟩ := ready
            rw [redirect_none.1 done] at opened
            cases opened
        | some r =>
          obtain ⟨before,after,event,appended,written,path,opened,content⟩ := redirect_some done
          obtain ⟨w'',_⟩ := r
          cases event
          dsimp only
          have right : (operator = some .greater ∧ after = found ∨ operator = some .append ∧ after = before ++ found) ↔
              (operator = some .greater → before.length ≤ found.length) := by
            rcases file with rfl | rfl
            · simpa using written
            · simpa using appended
          have later : Meets found rest (happens shell w'' (some found) captured rest) ↔
              Single ((operator,next) :: rest) ∧ Ready shell w'' (some found) captured rest := by
            cases rest with
            | nil => exact iff_of_true trivial ⟨trivial,trivial⟩
            | cons third rest =>
              obtain ⟨o3,t3⟩ := third
              rw [Single]
              by_cases again : redirects o3
              · exact iff_of_false (meets_behind again) fun both => both.1.1 ⟨file,again⟩
              · rw [meets_same rest w'' (some found) found o3 t3 again (fun _ => rfl)]
                constructor
                · rintro ⟨single,ready⟩
                  exact ⟨⟨fun both => again both.2,single⟩,ready⟩
                · rintro ⟨⟨_,single⟩,ready⟩
                  exact ⟨single,ready⟩
          rw [started,meets_file]
          constructor
          · rintro ⟨_,_,same,met,more⟩
            cases same
            obtain ⟨single,ready⟩ := later.1 more
            refine ⟨⟨fun both => plain both.1,single⟩,found,rfl,?_⟩
            rw [if_pos file]
            refine ⟨path,opened,by rw [← content]; exact right.1 met,fun other event same => ?_⟩
            cases done.symm.trans same
            exact ready
          · rintro ⟨⟨_,single⟩,_,same,ready⟩
            cases same
            rw [if_pos file] at ready
            obtain ⟨path',opened',short,ready⟩ := ready
            cases opened.symm.trans opened'
            rw [← content] at short
            exact ⟨operator,rest,rfl,right.2 short,later.2 ⟨single,ready _ _ done⟩⟩
      · rw [if_neg file,started,meets_same rest w' _ found operator next file (fun pipe => by rw [if_pos pipe])]
        constructor
        · rintro ⟨single,ready⟩
          exact ⟨⟨fun both => file both.2,single⟩,found,rfl,by rwa [if_neg file]⟩
        · rintro ⟨⟨_,single⟩,_,same,ready⟩
          cases same
          rw [if_neg file] at ready
          exact ⟨single,ready⟩

end

/-! ### Two ways to split a line -/

section
variable {round round' : Flags → UInt8 → Flags} {line s : List UInt8} {f : Flags} {p q : Text × Operator × List UInt8}

/-- What goes past an operator weighs more than what ends before it. -/
theorem weight_past (cut : cut_at round line f = some p) (start : s <+: line) (longer : p.1.length < s.length) :
    weight p.1 < weight s := by
  obtain ⟨c,rest,whole,operator,_⟩ := cut_at_parts cut
  have other := (operator_sign operator).2
  have first : p.1 ++ [c] <+: line := ⟨rest,by rw [whole,append_assoc]; rfl⟩
  obtain ⟨more,rfl⟩ := List.prefix_of_prefix_length_le first start (by rw [length_append]; exact longer)
  have one : weight [c] = 1 := by
    rw [weight,List.countP_cons_of_pos (by simp [other])]
    rfl
  rw [weight_append,weight_append,one]
  omega

theorem cut_start (cut : cut_at round line f = some p) : p.1 <+: line ∧ p.1.length < line.length := by
  obtain ⟨c,rest,whole,_⟩ := cut_at_parts cut
  have length := congrArg List.length whole
  rw [length_append,List.length_cons] at length
  exact ⟨⟨c :: rest,whole.symm⟩,by omega⟩

/-- Where a line is cut tells how. -/
theorem cut_place (cut : cut_at round line f = some p) (cut' : cut_at round' line f = some q) (same : p.1.length = q.1.length) : p = q := by
  obtain ⟨c,rest,whole,_,parts⟩ := cut_at_parts cut
  obtain ⟨d,rest',whole',_,parts'⟩ := cut_at_parts cut'
  have both : p.1 ++ c :: rest = q.1 ++ d :: rest' := whole.symm.trans whole'
  obtain ⟨front,back⟩ := List.append_inj both same
  cases back
  exact Prod.ext front (parts.trans parts'.symm)

def weights (segments : List (Option Operator × Text)) : List Nat := segments.map fun s => weight s.2

/-- Segments of the same line that weigh the same are the same. -/
theorem split_same (operator : Option Operator) (line : List UInt8)
    (same : weights (split round' operator line) <+: weights (split round operator line)) :
    split round operator line = split round' operator line := by
  cases cut : cut_at round line none_open with
  | none =>
    cases cut' : cut_at round' line none_open with
    | none => rw [split_none cut,split_none cut']
    | some q =>
      rw [split_none cut,split_some cut'] at same
      obtain ⟨start,longer⟩ := cut_start cut'
      have lighter := weight_past cut' prefix_rfl longer
      have equal := (cons_prefix_cons.1 same).1
      dsimp only at equal
      omega
  | some p =>
    cases cut' : cut_at round' line none_open with
    | none =>
      rw [split_some cut,split_none cut'] at same
      obtain ⟨start,longer⟩ := cut_start cut
      have lighter := weight_past cut prefix_rfl longer
      have equal := (cons_prefix_cons.1 same).1
      dsimp only at equal
      omega
    | some q =>
      rw [split_some cut,split_some cut'] at same ⊢
      obtain ⟨equal,rest⟩ := cons_prefix_cons.1 same
      dsimp only at equal
      have place : p.1.length = q.1.length := by
        by_contra apart
        rcases Nat.lt_or_gt_of_ne apart with shorter | longer
        · have lighter := weight_past cut (cut_start cut').1 shorter
          omega
        · have lighter := weight_past cut' (cut_start cut).1 longer
          omega
      obtain rfl := cut_place cut cut' place
      have shorter := length_cut_at cut
      rw [split_same (some p.2.1) p.2.2 rest]
termination_by line.length

theorem weights_laters (segments : List (Option Operator × Text)) : weights (laters segments) = weights segments := by
  match segments with
  | [] => rfl
  | [(operator,text)] => simp [laters,weights,weight_trim]
  | (operator,text) :: next :: rest =>
    have more := weights_laters (next :: rest)
    rw [laters,weights,map_cons,weight_ltrim]
    exact congrArg _ more

theorem weights_lefts (segments : List (Option Operator × Text)) : weights (lefts segments) = weights segments := by
  cases segments with
  | nil => rfl
  | cons first rest => exact congrArg (weight first.2 :: ·) (weights_laters rest)

/-- The segments as they are asked for. -/
def trims (segments : List (Option Operator × Text)) : List (Option Operator × Text) := segments.map fun s => (s.1,trim s.2)

theorem weights_trims (segments : List (Option Operator × Text)) : weights (trims segments) = weights segments := by
  simp [weights,trims,weight_trim]

theorem weights_texts {a b : List (Option Operator × Text)} (texts : a.map Prod.snd <+: b.map Prod.snd) : weights a <+: weights b := by
  have mapped := texts.map weight
  rw [List.map_map,List.map_map] at mapped
  exact mapped

theorem segments_trims (line : List UInt8) : segments line = trims (split escape_round none line) := rfl

theorem length_laters (segments : List (Option Operator × Text)) : (laters segments).length = segments.length := by
  have same := congrArg List.length (weights_laters segments)
  simpa [weights] using same

/-- The blanks are cut off in the buffer exactly when none stands before an operator. -/
theorem laters_trims (segments : List (Option Operator × Text)) :
    ((laters segments).map Prod.snd = (trims segments).map Prod.snd ↔ Tidy segments) ∧
      (Tidy segments → laters segments = trims segments) := by
  match segments with
  | [] => simp [laters,trims,Tidy]
  | [(operator,text)] => simp [laters,trims,Tidy]
  | (operator,text) :: next :: rest =>
    obtain ⟨texts,same⟩ := laters_trims (next :: rest)
    constructor
    · rw [laters,Tidy,← texts,trims,map_cons,map_cons,map_cons,List.cons.injEq,eq_comm]
      exact Iff.rfl
    · rintro ⟨here,later⟩
      rw [laters,same later,← here]
      rfl

end

/-! ### The lines that are run as they are written -/

section
variable {σ : Type} (shell : Shell σ) (w : World σ) (mem : List UInt8) (stdin : Option (List UInt8)) (captured : Bool)

/-- The terminal reads the quotes and escapes of the line as they are meant, the first segment has no blanks around it, between two
    operators no blank stands before the second, no file follows on a file, and every command and file is there. -/
structure Careful : Prop where
  scanned : split get_round none (cstr mem) = split escape_round none (cstr mem)
  first : ∀ s ∈ (split escape_round none (cstr mem)).head?, trim s.2 = s.2
  tidy : Tidy (split escape_round none (cstr mem)).tail
  single : Single (segments (cstr mem))
  ready : Ready shell w stdin captured (segments (cstr mem))

/-- Behind blanks the buffer is cut too late. -/
theorem cut_late {mem : List UInt8} {p : Text × Operator × List UInt8} (cut : cut_at get_round (cstr mem) none_open = some p)
    (head : (cstr mem).head? = some blank) : cstr ((process_line mem false).set p.1.length 0) ≠ trim p.1 := by
  obtain ⟨n,parts⟩ := rtrim_parts (cstr mem)
  obtain ⟨c,rest,whole,operator,_⟩ := cut_at_parts cut
  have shorter : (ltrim p.1).length < p.1.length := by
    cases first : p.1 with
    | nil =>
      rw [whole,first] at head
      exact absurd (Option.some.inj head) (operator_sign operator).2
    | cons d seg =>
      rw [whole,first] at head
      rw [ltrim_cons,if_pos (Option.some.inj head)]
      exact Nat.lt_succ_of_le (List.dropWhile_sublist _).length_le
  have trimmed : ∃ q, cut_at get_round (trim (cstr mem)) none_open = some q ∧ q.1 = ltrim p.1 := by
    rw [parts,cut_at_append_blanks,Option.map_eq_some_iff] at cut
    obtain ⟨q,inner,rfl⟩ := cut
    rw [trim,rtrim_ltrim,cut_at_ltrim rfl,inner]
    exact ⟨_,rfl,rfl⟩
  obtain ⟨q,inner,same⟩ := trimmed
  obtain ⟨_,inside⟩ := cut_start inner
  intro equal
  rw [cstr_set,cstr_process_line] at equal
  have heavier := weight_past inner ( List.take_prefix p.1.length (trim (cstr mem))) (by rw [List.length_take,same]; rw [same] at inside; omega)
  rw [equal,same,weight_ltrim,weight_trim] at heavier
  exact lt_irrefl _ heavier

theorem received_first {p : Text × Operator × List UInt8} (cut : cut_at get_round (cstr mem) none_open = some p) :
    ∃ output events, (command_received shell w mem stdin captured).1 =
      .run (cstr ((process_line mem false).set p.1.length 0)) stdin output :: events := by
  rw [received_operator cut]
  dsimp only
  split
  · exact ⟨_,_,rfl⟩
  · split
    · split
      · split
        · exact ⟨_,_,rfl⟩
        · exact ⟨_,_,rfl⟩
      · split
        · exact ⟨_,_,rfl⟩
        · exact ⟨_,_,rfl⟩
    · exact ⟨_,_,rfl⟩

theorem careful_starts (careful : Careful shell w mem stdin captured) :
    cut_at get_round (cstr mem) none_open = none ∨ (cstr mem).head? ≠ some blank := by
  refine or_iff_not_imp_left.2 fun some => ?_
  obtain ⟨p,cut⟩ := Option.ne_none_iff_exists'.1 some
  intro head
  have first := careful.first (none,p.1) (by rw [← careful.scanned,split_some cut]; rfl)
  obtain ⟨c,rest,whole,operator,_⟩ := cut_at_parts cut
  dsimp only at first
  cases seg : p.1 with
  | nil =>
    rw [whole,seg] at head
    exact (operator_sign operator).2 (Option.some.inj head)
  | cons d seg' =>
    have blanks := trim_head p.1
    rw [first,seg] at blanks
    rw [whole,seg] at head
    exact blanks head

/-- On a careful line the segments are run and the files written as asked. On every other line they are not, but for a line that starts
    with a blank and whose quotes the terminal misreads. -/
theorem command_lines :
    (Careful shell w mem stdin captured → Meets [] (segments (cstr mem)) (command_received shell w mem stdin captured).1) ∧
      ((cstr mem).head? ≠ some blank ∨ split get_round none (cstr mem) = split escape_round none (cstr mem) →
        Meets [] (segments (cstr mem)) (command_received shell w mem stdin captured).1 → Careful shell w mem stdin captured) := by
  obtain ⟨text,rest,parts⟩ := split_nonempty escape_round none (cstr mem)
  have asked : segments (cstr mem) = (none,trim text) :: trims rest := by
    rw [segments,parts]
    rfl
  have plain : ¬ redirects none := by simp [redirects]
  constructor
  · intro careful
    have first := careful.first (none,text) (by rw [parts]; rfl)
    have tidy := careful.tidy
    have single := careful.single
    have ready := careful.ready
    rw [parts,List.tail_cons] at tidy
    dsimp only at first
    rw [asked] at single ready ⊢
    rw [received_happens w mem stdin captured none (careful_starts shell w mem stdin captured careful),careful.scanned,parts,lefts,
      (laters_trims rest).2 tidy]
    rw [first] at single ready ⊢
    exact (meets_same _ _ _ _ _ _ plain (by simp)).2 ⟨single,ready⟩
  · intro readable met
    have starts : cut_at get_round (cstr mem) none_open = none ∨ (cstr mem).head? ≠ some blank := by
      refine or_iff_not_imp_left.2 fun some head => ?_
      obtain ⟨p,cut⟩ := Option.ne_none_iff_exists'.1 some
      have scanned := readable.resolve_left (not_not.2 head)
      rw [split_some cut,parts] at scanned
      cases scanned
      obtain ⟨output,events,first⟩ := received_first shell w mem stdin captured cut
      rw [asked,first,meets_run] at met
      obtain ⟨_,_,same,_⟩ := met
      exact cut_late cut head (congrArg Prod.snd (List.cons.inj same).1).symm
    rw [received_happens w mem stdin captured none starts,asked] at met
    have texts := meets_texts _ _ _ _ _ met
    have heavy := weights_texts texts
    rw [← asked,weights_lefts,segments_trims,weights_trims] at heavy
    have scanned := split_same none (cstr mem) heavy
    rw [scanned,parts,lefts] at met texts
    have equal := texts.eq_of_length (by simp [trims,length_laters])
    simp only [map_cons,List.cons.injEq] at equal
    obtain ⟨first,later⟩ := equal
    have tidy := (laters_trims rest).1.1 later.symm
    rw [(laters_trims rest).2 tidy,first] at met
    obtain ⟨single,ready⟩ := (meets_same _ _ _ _ _ _ plain (by simp)).1 met
    refine ⟨scanned,?_,?_,?_,?_⟩
    · rw [parts]
      rintro s ⟨⟩
      exact first
    · rw [parts]
      exact tidy
    · rw [asked,first]
      exact single
    · rw [asked,first]
      exact ready

end

/-- A terminal where every command is found and every file can be opened. -/
def quiet : Shell Unit where
  run_command := fun w _ _ _ => (w,some [])
  resolve_check := fun _ name => some name
  opens := fun _ name => some name

def no_files : World Unit := ⟨(),fun _ => none⟩

theorem split_ab : split escape_round none [0x61,0x7C,0x62] = [(none,[0x61]),(some .pipe,[0x62])] := by
  rw [split_some (p := ([0x61],.pipe,[0x62])) rfl,split_none rfl]

/-- "a|b" is run as it is written. -/
theorem command_lines_ab :
    Meets [] (segments (cstr [0x61,0x7C,0x62])) (command_received quiet no_files [0x61,0x7C,0x62] none false).1 := by
  have line : cstr [0x61,0x7C,0x62] = [0x61,0x7C,0x62] := rfl
  have asked : segments [0x61,0x7C,0x62] = [(none,[0x61]),(some .pipe,[0x62])] := by
    rw [segments,split_ab]
    rfl
  refine (command_lines quiet no_files [0x61,0x7C,0x62] none false).1 ⟨?_,?_,?_,?_,?_⟩
  · rw [line,split_ab,split_some (p := ([0x61],.pipe,[0x62])) rfl,split_none rfl]
  · rw [line,split_ab]
    rintro s ⟨⟩
    rfl
  · rw [line,split_ab]
    trivial
  · rw [line,asked]
    exact ⟨by simp [redirects],trivial⟩
  · rw [line,asked]
    exact ⟨[],rfl,by rw [if_neg (by decide)]; rfl⟩

/-- "a |b": what is run first is "a ", with the blank. -/
theorem blank_kept : ¬ ∀ (shell : Shell Unit) (w : World Unit) (mem : List UInt8) (stdin : Option (List UInt8)) (captured : Bool),
    Meets [] (segments (cstr mem)) (command_received shell w mem stdin captured).1 := by
  intro all
  have met := all quiet no_files [0x61,0x20,0x7C,0x62] none false
  have line : cstr [0x61,0x20,0x7C,0x62] = [0x61,0x20,0x7C,0x62] := rfl
  obtain ⟨output,events,first⟩ := received_first quiet no_files [0x61,0x20,0x7C,0x62] none false (p := ([0x61,0x20],.pipe,[0x62])) rfl
  rw [first,meets_run,line,segments,split_some (p := ([0x61,0x20],.pipe,[0x62])) rfl] at met
  obtain ⟨_,_,same,_⟩ := met
  have texts : trim [0x61,0x20] = cstr ((process_line [0x61,0x20,0x7C,0x62] false).set 2 0) := congrArg Prod.snd (List.cons.inj same).1
  exact absurd texts (by decide)

end MicroOS.CommandLines

import Mathlib.Tactic

/-!
Three functions of the terminal go over a command with the same three flags: one looks for the
operators, one for the blanks between the arguments, one whether a quote is open. They differ in
when the flag behind a backslash is cleared. The main theorem is `scanners_agree`: for which
commands they agree.
-/

namespace MicroOS.Quoting

def backslash : UInt8 := 0x5C
def quote : UInt8 := 0x22
def apostrophe : UInt8 := 0x27
def blank : UInt8 := 0x20
def pipe : UInt8 := 0x7C
def greater : UInt8 := 0x3E
def ampersand : UInt8 := 0x26

/-- The flags, under their names in the source: the first is for `"`, the second for `'`. -/
structure Flags where
  quote_open : Bool
  double_quote_open : Bool
  special_char_next : Bool
deriving DecidableEq

def none_open : Flags := ⟨false,false,false⟩

/-- A backslash or a quote sign, which all scanners treat alike. -/
def sign (f : Flags) (c : UInt8) : Flags :=
  if c = backslash then { f with special_char_next := true }
  else if c = quote then
    if f.special_char_next || f.double_quote_open then { f with special_char_next := false }
    else { f with quote_open := !f.quote_open }
  else
    if f.special_char_next || f.quote_open then { f with special_char_next := false }
    else { f with double_quote_open := !f.double_quote_open }

def is_sign (c : UInt8) : Bool := c = backslash || c = quote || c = apostrophe

/-- One round of `get_command_type` that does not return. -/
def get_round (f : Flags) (c : UInt8) : Flags := if is_sign c then sign f c else { f with special_char_next := false }

/-- One round of `argv_split`, in both of its loops; a blank only changes the arguments. -/
def split_round (f : Flags) (c : UInt8) : Flags := if c = blank then f else if is_sign c then sign f c else f

/-- One round of `is_quote_open`. -/
def open_round (f : Flags) (c : UInt8) : Flags := if is_sign c then sign f c else f

inductive CommandType
  | NORMAL
  | PIPE_PROC
  | PIPE_FILE
  | AND_RUN
  | PIPE_FILE_APPEND
deriving DecidableEq

/-- What `get_command_type` returns, with `token_pos` and `double_pipe_symbol`. -/
structure Token where
  type : CommandType
  token_pos : Nat
  double_pipe_symbol : Bool
deriving DecidableEq

def busy (f : Flags) : Bool := f.quote_open || f.double_quote_open || f.special_char_next

def command_type_loop : List UInt8 → Nat → Flags → Token
  | [],_,_ => ⟨.NORMAL,0,false⟩
  | c :: rest,i,f =>
    if c = pipe ∧ ¬ busy f then ⟨.PIPE_PROC,i,false⟩
    else if c = greater ∧ ¬ busy f then
      if rest.head? = some greater then ⟨.PIPE_FILE_APPEND,i + 1,true⟩ else ⟨.PIPE_FILE,i,false⟩
    else if c = ampersand ∧ ¬ busy f then ⟨.AND_RUN,i,false⟩
    else command_type_loop rest (i + 1) (get_round f c)

def get_command_type (command : List UInt8) : Token := command_type_loop command 0 none_open

def in_quotes (f : Flags) : Bool := f.quote_open || f.double_quote_open

/-- The first loop of `argv_split`, for the size of the array. -/
def argc_loop : List UInt8 → Flags → Nat → Nat
  | [],_,argc => argc
  | c :: rest,f,argc => argc_loop rest (split_round f c) (if c = blank ∧ ¬ in_quotes f then argc + 1 else argc)

/-- The second loop: the argument that is being read, and those behind it. -/
def argv_loop : List UInt8 → Flags → List UInt8 → List (List UInt8)
  | [],_,argument => [argument]
  | c :: rest,f,argument =>
    if c = blank ∧ ¬ in_quotes f then argument :: argv_loop rest (split_round f c) []
    else argv_loop rest (split_round f c) (argument ++ [c])

def argv_split (str : List UInt8) : List (List UInt8) := argv_loop str none_open []

def is_quote_open (command : List UInt8) : Bool := in_quotes (command.foldl open_round none_open)

def get_flags (command : List UInt8) (i : Nat) : Flags := (command.take i).foldl get_round none_open
def split_flags (command : List UInt8) (i : Nat) : Flags := (command.take i).foldl split_round none_open
def open_flags (command : List UInt8) (i : Nat) : Flags := (command.take i).foldl open_round none_open

def is_operator (c : UInt8) : Bool := c = pipe || c = greater || c = ampersand

/-- `get_command_type` takes the character as an operator. -/
def separates (command : List UInt8) (i : Nat) : Prop :=
  ∃ c, command[i]? = some c ∧ is_operator c = true ∧ busy (get_flags command i) = false

/-- `argv_split` ends an argument here. -/
def cuts (command : List UInt8) (i : Nat) : Prop := command[i]? = some blank ∧ in_quotes (split_flags command i) = false

/-- A text, from its end, ends in a backslash that is not escaped itself. -/
def escapes : List UInt8 → Bool
  | [] => false
  | c :: before => c = backslash && !escapes before

/-- The character at a position is behind a backslash that is not escaped. -/
def escaped (command : List UInt8) (i : Nat) : Bool := escapes (command.take i).reverse

/-- The scanners agree about a character, and it separates exactly where it is neither inside quotes nor escaped. -/
structure Agrees (command : List UInt8) (i : Nat) : Prop where
  split : get_flags command i = split_flags command i
  opened : get_flags command i = open_flags command i
  operator : ∀ c, command[i]? = some c → is_operator c = true →
    (separates command i ↔ in_quotes (open_flags command i) = false ∧ escaped command i = false)
  cut : command[i]? = some blank → (cuts command i ↔ in_quotes (open_flags command i) = false ∧ escaped command i = false)

/-- The quote that is open behind a text, which is given from its end: a quote sign directly behind a
    backslash, or inside the other quotes, is a character like others. -/
def open_quote : List UInt8 → Option UInt8
  | [] => none
  | c :: before =>
    if (c = quote ∨ c = apostrophe) ∧ before.head? ≠ some backslash then
      match open_quote before with
      | none => some c
      | some other => if c = other then none else some other
    else open_quote before

/-- Behind a backslash comes a backslash or a quote sign, or the last character. If that is an operator outside
    of quotes, the backslash is not escaped; if it is a blank outside of quotes, the backslash is escaped. -/
structure Plain (command : List UInt8) : Prop where
  behind : ∀ j c, command[j]? = some backslash → command[j + 1]? = some c → j + 2 < command.length → is_sign c = true
  last : ∀ j c, command[j]? = some backslash → command[j + 1]? = some c → j + 2 = command.length →
    open_quote (command.take (j + 1)).reverse = none →
      (is_operator c = true → escaped command (j + 1) = true) ∧ (c = blank → escaped command (j + 1) = false)

section
variable {command : List UInt8} {i : Nat} {c : UInt8}

theorem take_next (here : command[i]? = some c) : command.take (i + 1) = command.take i ++ [c] := by
  rw [List.take_add_one,here]
  rfl

theorem get_flags_next (here : command[i]? = some c) : get_flags command (i + 1) = get_round (get_flags command i) c := by
  rw [get_flags,take_next here,List.foldl_append]
  rfl

theorem split_flags_next (here : command[i]? = some c) : split_flags command (i + 1) = split_round (split_flags command i) c := by
  rw [split_flags,take_next here,List.foldl_append]
  rfl

theorem open_flags_next (here : command[i]? = some c) : open_flags command (i + 1) = open_round (open_flags command i) c := by
  rw [open_flags,take_next here,List.foldl_append]
  rfl

end

/-- The flags of `get_command_type` behind a text, which is given from its end. -/
def reading (text : List UInt8) : Flags := ⟨open_quote text = some quote,open_quote text = some apostrophe,text.head? = some backslash⟩

theorem open_quote_sign (text : List UInt8) : open_quote text = none ∨ open_quote text = some quote ∨ open_quote text = some apostrophe := by
  induction text with
  | nil => exact .inl rfl
  | cons c before ih =>
    rw [open_quote]
    split
    · rename_i sign
      rcases ih with here | here | here
      · rw [here]
        rcases sign.1 with rfl | rfl
        · exact .inr (.inl rfl)
        · exact .inr (.inr rfl)
      · rw [here]
        dsimp only
        split
        · exact .inl rfl
        · exact .inr (.inl rfl)
      · rw [here]
        dsimp only
        split
        · exact .inl rfl
        · exact .inr (.inr rfl)
    · exact ih

theorem reading_next (c : UInt8) (before : List UInt8) : get_round (reading before) c = reading (c :: before) := by
  have apart : quote ≠ backslash ∧ apostrophe ≠ backslash ∧ apostrophe ≠ quote := by decide
  obtain ⟨first,second,third⟩ := apart
  by_cases is_backslash : c = backslash
  · subst is_backslash
    simp [get_round,is_sign,sign,reading,open_quote,first.symm,second.symm]
  · by_cases is_quote : c = quote
    · subst is_quote
      rcases open_quote_sign before with here | here | here <;> by_cases behind : before.head? = some backslash <;>
        simp [get_round,is_sign,sign,reading,open_quote,here,behind,first,third,third.symm]
    · by_cases is_apostrophe : c = apostrophe
      · subst is_apostrophe
        rcases open_quote_sign before with here | here | here <;> by_cases behind : before.head? = some backslash <;>
          simp [get_round,is_sign,sign,reading,open_quote,here,behind,second,third,third.symm]
      · simp [get_round,is_sign,reading,open_quote,is_backslash,is_quote,is_apostrophe]

theorem get_flags_reading (command : List UInt8) (i : Nat) : get_flags command i = reading (command.take i).reverse := by
  rw [get_flags]
  generalize command.take i = text
  induction text using List.reverseRecOn with
  | nil => rfl
  | append_singleton before c ih => rw [List.foldl_append,List.foldl_cons,List.foldl_nil,ih,reading_next,List.reverse_append]; rfl

section
variable {command : List UInt8} {i : Nat}

theorem separates_iff {c : UInt8} (here : command[i]? = some c) (operator : is_operator c = true) :
    separates command i ↔ busy (get_flags command i) = false := by
  constructor
  · rintro ⟨d,_,_,calm⟩
    exact calm
  · exact fun calm => ⟨c,here,operator,calm⟩

/-- The operator that is found, by its first character. -/
structure Found (command : List UInt8) (t : Token) (p : Nat) : Prop where
  separates : separates command p
  first : ∀ k < p, ¬ Quoting.separates command k
  type : (command[p]? = some pipe ∧ t = ⟨.PIPE_PROC,p,false⟩) ∨ (command[p]? = some ampersand ∧ t = ⟨.AND_RUN,p,false⟩) ∨
    (command[p]? = some greater ∧ command[p + 1]? ≠ some greater ∧ t = ⟨.PIPE_FILE,p,false⟩) ∨
    (command[p]? = some greater ∧ command[p + 1]? = some greater ∧ t = ⟨.PIPE_FILE_APPEND,p + 1,true⟩)

theorem command_type_loop_found {before rest : List UInt8} (none_before : ∀ k < before.length, ¬ separates (before ++ rest) k) :
    (command_type_loop rest before.length (get_flags (before ++ rest) before.length) = ⟨.NORMAL,0,false⟩ ∧
        ∀ k, ¬ separates (before ++ rest) k) ∨
      ∃ p, Found (before ++ rest) (command_type_loop rest before.length (get_flags (before ++ rest) before.length)) p := by
  induction rest generalizing before with
  | nil =>
    refine .inl ⟨rfl,?_⟩
    rintro k ⟨c,here,operator,calm⟩
    have inside : k < before.length := by
      have bound := (List.getElem?_eq_some_iff.1 here).1
      simpa using bound
    exact none_before k inside ⟨c,here,operator,calm⟩
  | cons c rest ih =>
    have here : (before ++ c :: rest)[before.length]? = some c := by simp
    have behind : (before ++ c :: rest)[before.length + 1]? = rest.head? := by
      rw [List.getElem?_append_right (Nat.le_succ _),show before.length.succ - before.length = 1 by omega]
      cases rest <;> rfl
    -- What is no operator is left behind.
    have onward (no : ¬ separates (before ++ c :: rest) before.length) :
        (command_type_loop rest (before.length + 1) (get_round (get_flags (before ++ c :: rest) before.length) c) = ⟨.NORMAL,0,false⟩ ∧
            ∀ k, ¬ separates (before ++ c :: rest) k) ∨
          ∃ p, Found (before ++ c :: rest)
            (command_type_loop rest (before.length + 1) (get_round (get_flags (before ++ c :: rest) before.length) c)) p := by
      have whole : before ++ [c] ++ rest = before ++ c :: rest := by simp
      have length : (before ++ [c]).length = before.length + 1 := by simp
      have next := @ih (before ++ [c])
      rw [whole,length,get_flags_next here] at next
      apply next
      intro k bound
      rcases Nat.lt_succ_iff_lt_or_eq.1 bound with less | rfl
      · exact none_before k less
      · exact no
    rw [command_type_loop]
    by_cases calm : busy (get_flags (before ++ c :: rest) before.length) = false
    · by_cases is_pipe : c = pipe
      · rw [if_pos ⟨is_pipe,by simp [calm]⟩]
        subst is_pipe
        exact .inr ⟨_,⟨_,here,rfl,calm⟩,none_before,.inl ⟨here,rfl⟩⟩
      · rw [if_neg (fun both => is_pipe both.1)]
        by_cases is_greater : c = greater
        · rw [if_pos ⟨is_greater,by simp [calm]⟩]
          subst is_greater
          by_cases double : rest.head? = some greater
          · rw [if_pos double]
            exact .inr ⟨_,⟨_,here,rfl,calm⟩,none_before,.inr (.inr (.inr ⟨here,behind.trans double,rfl⟩))⟩
          · rw [if_neg double]
            exact .inr ⟨_,⟨_,here,rfl,calm⟩,none_before,.inr (.inr (.inl ⟨here,by rwa [behind],rfl⟩))⟩
        · rw [if_neg (fun both => is_greater both.1)]
          by_cases is_ampersand : c = ampersand
          · rw [if_pos ⟨is_ampersand,by simp [calm]⟩]
            subst is_ampersand
            exact .inr ⟨_,⟨_,here,rfl,calm⟩,none_before,.inr (.inl ⟨here,rfl⟩)⟩
          · rw [if_neg (fun both => is_ampersand both.1)]
            apply onward
            rintro ⟨d,there,operator,_⟩
            obtain rfl := Option.some.inj (here.symm.trans there)
            simp [is_operator,is_pipe,is_greater,is_ampersand] at operator
    · have taken : busy (get_flags (before ++ c :: rest) before.length) = true := Bool.eq_true_of_not_eq_false calm
      rw [if_neg (fun both => both.2 taken),if_neg (fun both => both.2 taken),if_neg (fun both => both.2 taken)]
      apply onward
      rintro ⟨d,_,_,calm_there⟩
      exact calm calm_there

/-- The first operator is found, if there is one. -/
theorem get_command_type_found (command : List UInt8) :
    (get_command_type command = ⟨.NORMAL,0,false⟩ ∧ ∀ k, ¬ separates command k) ∨ ∃ p, Found command (get_command_type command) p :=
  @command_type_loop_found [] command fun _ below => absurd below (Nat.not_lt_zero _)

/-- A list divided at some positions, which are left out. -/
def divided (at_position : Nat → Bool) : List UInt8 → Nat → List UInt8 → List (List UInt8)
  | [],_,piece => [piece]
  | c :: rest,i,piece =>
    if at_position i then piece :: divided at_position rest (i + 1) [] else divided at_position rest (i + 1) (piece ++ [c])

instance (command : List UInt8) (i : Nat) : Decidable (cuts command i) := inferInstanceAs (Decidable (_ ∧ _))

theorem argv_loop_divided (before rest piece : List UInt8) : argv_loop rest (split_flags (before ++ rest) before.length) piece =
    divided (fun i => cuts (before ++ rest) i) rest before.length piece := by
  induction rest generalizing before piece with
  | nil => rfl
  | cons c rest ih =>
    have here : (before ++ c :: rest)[before.length]? = some c := by simp
    have next := fun piece => ih (before ++ [c]) piece
    rw [List.append_assoc,List.singleton_append,List.length_append,List.length_singleton,split_flags_next here] at next
    rw [argv_loop,divided]
    by_cases cut : c = blank ∧ in_quotes (split_flags (before ++ c :: rest) before.length) = false
    · obtain ⟨rfl,unquoted⟩ := cut
      rw [if_pos ⟨rfl,by simp [unquoted]⟩,if_pos (decide_eq_true ⟨here,unquoted⟩),next]
    · have no_cut : ¬ cuts (before ++ c :: rest) before.length := by
        rintro ⟨there,unquoted⟩
        exact cut ⟨Option.some.inj (here.symm.trans there),unquoted⟩
      rw [if_neg (by simpa using cut),if_neg (by simpa using no_cut),next]

theorem argc_argv (str : List UInt8) (f : Flags) (argc : Nat) (argument : List UInt8) :
    argc_loop str f (argc + 1) = argc + (argv_loop str f argument).length := by
  induction str generalizing f argc argument with
  | nil => rfl
  | cons c rest ih =>
    rw [argc_loop,argv_loop]
    by_cases cut : c = blank ∧ ¬ in_quotes f
    · rw [if_pos cut,if_pos cut,ih _ (argc + 1) [],List.length_cons]
      omega
    · rw [if_neg cut,if_neg cut,ih]

/-- The arguments are what stands between the cuts, and the array has room for them. -/
theorem argv_split_divided (str : List UInt8) :
    argv_split str = divided (fun i => cuts str i) str 0 [] ∧ argc_loop str none_open 1 = (argv_split str).length :=
  ⟨argv_loop_divided [] str [],by rw [argc_argv str none_open 0 [],Nat.zero_add,argv_split]⟩

end

section
variable {command : List UInt8} {i : Nat}

theorem open_round_split (f : Flags) (c : UInt8) : split_round f c = open_round f c := by
  unfold split_round open_round
  by_cases is_blank : c = blank
  · subst is_blank
    rfl
  · rw [if_neg is_blank]

/-- The loops of `argv_split` and that of `is_quote_open` have the same flags everywhere. -/
theorem split_flags_open (command : List UInt8) (i : Nat) : split_flags command i = open_flags command i := by
  rw [split_flags,open_flags,show split_round = open_round from funext fun f => funext fun c => open_round_split f c]

/-- What is cleared only by `get_command_type`. -/
theorem open_round_get {f : Flags} {c : UInt8} (plain : is_sign c = true ∨ f.special_char_next = false) :
    open_round f c = get_round f c := by
  unfold open_round get_round
  by_cases signed : is_sign c = true
  · rw [if_pos signed,if_pos signed]
  · rw [if_neg signed,if_neg signed]
    obtain behind := plain.resolve_left signed
    obtain ⟨q,d,s⟩ := f
    obtain rfl : s = false := behind
    rfl

theorem special_first (command : List UInt8) : (get_flags command 0).special_char_next = false := rfl

/-- The flag behind a backslash is set at the next character only. -/
theorem special_next (command : List UInt8) {j : Nat} (inside : j < command.length) :
    (get_flags command (j + 1)).special_char_next = true ↔ command[j]? = some backslash := by
  rw [get_flags_reading,reading,take_next (List.getElem?_eq_getElem inside),List.reverse_append,List.getElem?_eq_getElem inside]
  simp

theorem flags_equal (plain : Plain command) (inside : i < command.length) : get_flags command i = open_flags command i := by
  induction i with
  | zero => rfl
  | succ i ih =>
    obtain ⟨letter,here⟩ : ∃ letter, command[i]? = some letter := ⟨_,List.getElem?_eq_getElem (by omega)⟩
    rw [get_flags_next here,open_flags_next here,← ih (by omega)]
    refine (open_round_get ?_).symm
    cases i with
    | zero => exact .inr (special_first command)
    | succ j =>
      by_cases special : (get_flags command (j + 1)).special_char_next = true
      · have behind := (special_next command (by omega)).1 special
        exact .inl (plain.behind j _ behind here (by omega))
      · exact .inr (Bool.eq_false_of_not_eq_true special)

theorem busy_quotes (f : Flags) : busy f = (in_quotes f || f.special_char_next) := rfl

theorem in_quotes_reading (command : List UInt8) (i : Nat) :
    in_quotes (get_flags command i) = false ↔ open_quote (command.take i).reverse = none := by
  rw [get_flags_reading]
  rcases open_quote_sign (command.take i).reverse with here | here | here <;> simp [in_quotes,reading,here]

theorem escaped_next {j : Nat} (inside : j < command.length) :
    escaped command (j + 1) = (decide (command[j]? = some backslash) && !escaped command j) := by
  rw [escaped,take_next (List.getElem?_eq_getElem inside),List.reverse_append,List.getElem?_eq_getElem inside]
  simp [escapes,escaped]

/-- Away from a backslash an operator and a blank are told apart by the quotes alone. -/
theorem unescaped (inside : i < command.length) (calm : (get_flags command i).special_char_next = false) : escaped command i = false := by
  cases i with
  | zero => rfl
  | succ j =>
    have other : ¬ command[j]? = some backslash := by
      intro behind
      rw [(special_next command (by omega)).2 behind] at calm
      cases calm
    rw [escaped_next (by omega)]
    simp [other]

theorem operator_sign {c : UInt8} (operator : is_operator c = true) : is_sign c = false ∧ c ≠ blank := by
  have which : c = pipe ∨ c = greater ∨ c = ampersand := by simpa [is_operator,or_assoc] using operator
  rcases which with rfl | rfl | rfl
  · exact ⟨by decide,by decide⟩
  · exact ⟨by decide,by decide⟩
  · exact ⟨by decide,by decide⟩

theorem plain_agrees (plain : Plain command) (inside : i < command.length) : Agrees command i := by
  have equal := flags_equal plain inside
  have split := split_flags_open command i
  by_cases special : (get_flags command i).special_char_next = true
  · cases i with
    | zero => cases special
    | succ j =>
      have behind := (special_next command (by omega)).1 special
      -- An operator or a blank behind a backslash is the last character.
      have last {c : UInt8} (here : command[j + 1]? = some c) (other : is_sign c = false) : j + 2 = command.length := by
        by_contra more
        have signed := plain.behind j c behind here (by omega)
        rw [other] at signed
        cases signed
      refine ⟨equal.trans split.symm,equal,?_,?_⟩
      · intro c here operator
        have ends := plain.last j c behind here (last here (operator_sign operator).1)
        rw [separates_iff here operator,busy_quotes,special,← equal,Bool.or_true]
        by_cases quoted : in_quotes (get_flags command (j + 1)) = false
        · have is_escaped := (ends ((in_quotes_reading command (j + 1)).1 quoted)).1 operator
          simp [is_escaped]
        · simp [quoted]
      · intro here
        have ends := plain.last j blank behind here (last here rfl)
        rw [cuts,split,← equal]
        by_cases quoted : in_quotes (get_flags command (j + 1)) = false
        · have not_escaped := (ends ((in_quotes_reading command (j + 1)).1 quoted)).2 rfl
          simp [here,quoted,not_escaped]
        · simp [quoted]
  · have calm := Bool.eq_false_of_not_eq_true special
    have plain_text := unescaped inside calm
    refine ⟨equal.trans split.symm,equal,?_,?_⟩
    · intro c here operator
      rw [separates_iff here operator,busy_quotes,calm,equal,plain_text]
      simp
    · intro here
      rw [cuts,split,plain_text]
      simp [here]

theorem agrees_plain (agrees : ∀ i < command.length, Agrees command i) : Plain command := by
  constructor
  · intro j c behind here more
    by_contra other
    have first := (agrees (j + 1) (by omega)).opened
    have second := (agrees (j + 2) more).opened
    have special := (special_next command (by omega)).2 behind
    have cleared : (get_round (get_flags command (j + 1)) c).special_char_next = false := by rw [get_round,if_neg other]
    have kept : open_round (open_flags command (j + 1)) c = open_flags command (j + 1) := by rw [open_round,if_neg other]
    rw [get_flags_next here,open_flags_next here,kept,← first] at second
    rw [second,special] at cleared
    cases cleared
  · intro j c behind here last no_quote
    have agree := agrees (j + 1) (by omega)
    have special := (special_next command (by omega)).2 behind
    have unquoted := (in_quotes_reading command (j + 1)).2 no_quote
    constructor
    · intro operator
      have separated := agree.operator c here operator
      rw [separates_iff here operator,busy_quotes,special,Bool.or_true,← agree.opened,unquoted] at separated
      simpa using separated
    · rintro rfl
      have cut := agree.cut here
      rw [cuts,← agree.split,← agree.opened,unquoted] at cut
      simpa [here] using cut

end

/-- The scanners agree about every character of a command exactly if every backslash is in front of a backslash or
    a quote sign, up to the last character. -/
theorem scanners_agree (command : List UInt8) : (∀ i < command.length, Agrees command i) ↔ Plain command :=
  ⟨agrees_plain,fun plain _ inside => plain_agrees plain inside⟩

/-- The command `\a"b c"`. -/
def escaped_letter : List UInt8 := [0x5C,0x61,0x22,0x62,0x20,0x63,0x22]

/-- `get_command_type` sees the blank in quotes, `argv_split` ends an argument there. -/
theorem letter_splits : ¬ ∀ command i, i < command.length → Agrees command i := by
  intro all
  have opened := (all escaped_letter 4 (by decide)).opened
  exact absurd opened (by decide)

end MicroOS.Quoting

import MicroOS.PathBuffers
import MicroOS.Scanner

/-! The responses of a server and the buffer of a request (`http.c`). A result is none when a routine leaves the response
and its terminator, or when a size overflows an `int`; so is a status code that does. -/

namespace MicroOS.Http
open Ints
open Option (bind_eq_bind bind_some map_some)
open List (append_assoc cons_append forall_mem_cons length_append length_cons length_nil length_pos_iff nil_append)

/-- The loops of the status code, with the number of characters left. -/
def skip_word : Nat → List UInt8 → Option (Nat × List UInt8)
  | 0,p => some (0,p)
  | _ + 1,[] => none
  | left + 1,c :: p => if c ≠ 32 ∧ c ≠ 13 ∧ c ≠ 10 then skip_word left p else some (left + 1,c :: p)

def skip_blanks : Nat → List UInt8 → Option (Nat × List UInt8)
  | 0,p => some (0,p)
  | _ + 1,[] => none
  | left + 1,c :: p => if c = 32 then skip_blanks left p else some (left + 1,c :: p)

def read_digits : Nat → List UInt8 → Option Int → Nat → Option (Option Int × Nat)
  | 0,_,code,digits => some (code,digits)
  | _ + 1,[],_,_ => none
  | left + 1,c :: p,code,digits =>
    if c < 48 ∨ 57 < c then some (code,digits)
    else
      let next := code.bind fun code => (int (code * 10)).bind fun tens => int (tens + (c.toNat - 48))
      read_digits left p next (digits + 1)

def http_parse_status_code (status_line : List UInt8) (status_line_len : Nat) : Option (Option Int) := do
  let (left,p) ← skip_word status_line_len status_line
  let (left,p) ← skip_blanks left p
  let (code,digits) ← read_digits left p (some 0) 0
  pure (if digits > 0 then code else some (-1))

/-- The search for the end of the head, with the number of places left. -/
def find_end (m : List UInt8) : Nat → Nat → Option (Option Nat)
  | 0,_ => some none
  | left + 1,i => do
    let c0 ← m[i]?
    let c1 ← m[i + 1]?
    let c2 ← m[i + 2]?
    let c3 ← m[i + 3]?
    if c0 = 13 ∧ c1 = 10 ∧ c2 = 13 ∧ c3 = 10 then pure (some i) else find_end m left (i + 1)

/-- `while (p < endp && (*p == '\r' || *p == '\n' || *p == '\0')) p++`, with `endp - p`. -/
def skip_ends (m : List UInt8) : Nat → Nat → Option Nat
  | 0,p => some p
  | left + 1,p => do
    let c ← m[p]?
    if c = 13 ∨ c = 10 ∨ c = 0 then skip_ends m left (p + 1) else pure p

/-- `while (p < endp && *p != '\r' && *p != '\n') p++`, with `endp - p`. -/
def line_stop (m : List UInt8) : Nat → Nat → Option Nat
  | 0,p => some p
  | left + 1,p => do
    let c ← m[p]?
    if c ≠ 13 ∧ c ≠ 10 then line_stop m left (p + 1) else pure p

/-- The end of a line is overwritten: the memory, and the pointer behind it. -/
def cut (m : List UInt8) (p endp : Nat) : Option (List UInt8 × Nat) :=
  if p < endp then do
    let c ← m[p]?
    if c = 13 then do
      let m := m.set p 0
      if p + 1 < endp then do
        let c ← m[p + 1]?
        if c = 10 then pure (m.set (p + 1) 0,p + 2) else pure (m,p + 1)
      else pure (m,p + 1)
    else if c = 10 then pure (m.set p 0,p + 1)
    else pure (m,p)
  else pure (m,p)

/-- What the loop over the lines has set; there is a status line once it was got. -/
structure Lines where
  memory : List UInt8
  response_code : Option Int
  status_line : Option Nat
  headers : List Nat

def add_line (line_start : Nat) (s : Lines) : Option Lines := do
  let c ← s.memory[line_start]?
  if c = 0 then pure s
  else
    match s.status_line with
    | none => do
      let len ← PathBuffers.strlen (s.memory.drop line_start)
      let code ← http_parse_status_code (s.memory.drop line_start) len
      pure {s with status_line := some line_start,response_code := code}
    | some _ => pure {s with headers := s.headers ++ [line_start]}

def parse_lines (endp : Nat) : Nat → Nat → Lines → Option Lines
  | 0,_,_ => none
  | turns + 1,p,s =>
    if p < endp then do
      let p ← skip_ends s.memory (endp - p) p
      if p ≥ endp then pure s
      else do
        let line_start := p
        let p ← line_stop s.memory (endp - p) p
        let (memory,p) ← cut s.memory p endp
        let s ← add_line line_start {s with memory}
        parse_lines endp turns p s
    else pure s

/-- The fields of a request that are set; a pointer is its distance from the response. -/
structure Response where
  memory : List UInt8
  response_code : Option Int
  status_line : Option Nat
  headers : List Nat
  body : Option Nat
  body_length : Nat

def http_parse_response (response : List UInt8) : Option Response :=
  if response.length = 0 then pure ⟨response,some (-1),none,[],none,0⟩
  else do
    let _ ← int (response.length + 1)
    let memory := response ++ [0]
    match ← find_end memory (response.length - 3) 0 with
    | none => do
      let s ← parse_lines response.length (response.length + 1) 0 ⟨memory,some (-1),none,[]⟩
      pure ⟨s.memory,s.response_code,s.status_line,s.headers,none,0⟩
    | some header_end => do
      let memory := (((memory.set header_end 0).set (header_end + 1) 0).set (header_end + 2) 0).set (header_end + 3) 0
      let s ← parse_lines header_end (response.length + 1) 0 ⟨memory,some (-1),none,[]⟩
      pure ⟨s.memory,s.response_code,s.status_line,s.headers,some (header_end + 4),response.length - (header_end + 4)⟩

def ending : List UInt8 := [13,10,13,10]

/-- What stands before and behind the first empty line. -/
def split_head : List UInt8 → Option (List UInt8 × List UInt8)
  | [] => none
  | c :: l => if ending <+: c :: l then some ([],(c :: l).drop 4) else (split_head l).map fun parts => (c :: parts.1,parts.2)

def head (response : List UInt8) : List UInt8 := ((split_head response).map (·.1)).getD response

def body (response : List UInt8) : Option (List UInt8) := (split_head response).map (·.2)

def isEnd (c : UInt8) : Bool := c = 13 || c = 10

/-- The lines of a text that are not empty. -/
def lines (s : List UInt8) : List (List UInt8) := (s.splitOnP isEnd).filter fun line => !line.isEmpty

/-- The digits behind the first blanks of a line. -/
def digits_of (line : List UInt8) : List UInt8 := ((line.dropWhile (· ≠ 32)).dropWhile (· = 32)).takeWhile Scanner.digit

/-- The code of a line, when it fits an `int`. -/
def code_of (line : List UInt8) : Option Int :=
  if digits_of line = [] then some (-1) else int (Scanner.number (digits_of line))

/-- The string at a place, with its terminator. -/
def Str (m : List UInt8) (i : Nat) (s : List UInt8) : Prop := (∀ c ∈ s, c ≠ 0) ∧ ∃ after, m.drop i = s ++ 0 :: after

/-- The fields say what the response holds, and its memory has room for it and one terminator. -/
structure Right (response : List UInt8) (r : Response) : Prop where
  memory : response ≠ [] → r.memory.length = response.length + 1
  status_line : List.Forall₂ (Str r.memory) r.status_line.toList (lines (head response)).head?.toList
  response_code : r.response_code = ((lines (head response)).head?.map code_of).getD (some (-1))
  headers : List.Forall₂ (Str r.memory) r.headers (lines (head response)).tail
  content : r.body.map (fun i => (r.memory.drop i).take r.body_length) = body response
  length : r.body_length = ((body response).map List.length).getD 0

section
variable {line after : List UInt8}

theorem skip_word_eq (inline : ∀ c ∈ line, isEnd c = false) :
    skip_word line.length (line ++ after) = some ((line.dropWhile (· ≠ 32)).length,line.dropWhile (· ≠ 32) ++ after) := by
  induction line with
  | nil => simp [skip_word]
  | cons c line ih =>
    rw [forall_mem_cons] at inline
    have no_end : c ≠ 13 ∧ c ≠ 10 := by simpa [isEnd] using inline.1
    by_cases blank : c = 32
    · simp [skip_word,blank]
    · have going : c ≠ 32 ∧ c ≠ 13 ∧ c ≠ 10 := ⟨blank,no_end⟩
      simp only [length_cons,cons_append,skip_word,if_pos going,ih inline.2]
      simp [blank]

theorem skip_blanks_eq (line after : List UInt8) :
    skip_blanks line.length (line ++ after) = some ((line.dropWhile (· = 32)).length,line.dropWhile (· = 32) ++ after) := by
  induction line with
  | nil => simp [skip_blanks]
  | cons c line ih =>
    by_cases blank : c = 32
    · simp [skip_blanks,blank,ih]
    · simp [skip_blanks,blank]

/-- A digit more of a number that may not fit. -/
theorem int_digit {v d : Int} (positive : 0 ≤ v) (digit : 0 ≤ d) :
    ((int v).bind fun code => (int (code * 10)).bind fun tens => int (tens + d)) = int (v * 10 + d) := by
  by_cases fits : v < 2147483648
  · rw [int_fits ⟨by omega,fits⟩,bind_some]
    by_cases tens : v * 10 < 2147483648
    · rw [int_fits ⟨by omega,tens⟩,bind_some]
    · rw [int,if_neg fun small => tens small.2,int,if_neg fun small : Fits (v * 10 + d) => by have := small.2; omega]
      rfl
  · rw [int,if_neg fun small => fits small.2,int,if_neg fun small : Fits (v * 10 + d) => by have := small.2; omega]
    rfl

theorem read_digits_eq (line after : List UInt8) {v : Int} (positive : 0 ≤ v) (digits : Nat) :
    read_digits line.length (line ++ after) (int v) digits =
      some (int (Scanner.value v (line.takeWhile Scanner.digit)),digits + (line.takeWhile Scanner.digit).length) := by
  induction line generalizing v digits with
  | nil => simp [read_digits,Scanner.value]
  | cons c line ih =>
    by_cases is_digit : Scanner.digit c = true
    · obtain ⟨low,high⟩ := Scanner.digit_iff.mp is_digit
      have going : ¬ (c < 48 ∨ 57 < c) := not_or.mpr ⟨UInt8.not_lt.mpr low,UInt8.not_lt.mpr high⟩
      have value_low : 48 ≤ c.toNat := low
      simp only [length_cons,cons_append,read_digits,if_neg going]
      rw [int_digit positive (by omega),ih (by omega)]
      simp only [List.takeWhile_cons,is_digit,if_true,Scanner.value,length_cons]
      congr 2
      omega
    · have stops : c < 48 ∨ 57 < c := by
        by_contra going
        obtain ⟨low,high⟩ := not_or.mp going
        exact is_digit (Scanner.digit_iff.mpr ⟨UInt8.not_lt.mp low,UInt8.not_lt.mp high⟩)
      simp [read_digits,stops,is_digit,Scanner.value]

/-- The code of a line, read from the memory behind its start. -/
theorem status_code_eq (inline : ∀ c ∈ line, isEnd c = false) :
    http_parse_status_code (line ++ after) line.length = some (code_of line) := by
  rw [http_parse_status_code,skip_word_eq inline,bind_eq_bind,bind_some]
  simp only []
  rw [skip_blanks_eq,bind_eq_bind,bind_some]
  simp only []
  rw [← int_fits (show Fits 0 by decide),read_digits_eq _ _ (le_refl 0),bind_some]
  change some (if 0 + (digits_of line).length > 0 then int (Scanner.number (digits_of line)) else some (-1)) = some (code_of line)
  rw [code_of]
  cases found : digits_of line <;> simp

end

variable {response word : List UInt8} {c : UInt8} {need : Int}

theorem split_head_parts {front back : List UInt8} (split : split_head response = some (front,back)) :
    response = front ++ ending ++ back := by
  induction response generalizing front with
  | nil => cases split
  | cons c l ih =>
    rw [split_head] at split
    split_ifs at split with here
    · obtain ⟨rfl,rfl⟩ := Prod.mk.inj (Option.some.inj split)
      exact (List.prefix_append_drop here)
    · obtain ⟨⟨front',back'⟩,found,same⟩ := Option.map_eq_some_iff.mp split
      obtain ⟨rfl,rfl⟩ := Prod.mk.inj same
      rw [ih found]
      rfl

theorem split_head_short (short : response.length < 4) : split_head response = none := by
  cases found : split_head response with
  | none => rfl
  | some parts =>
    have length := congrArg List.length (split_head_parts found)
    simp only [ending,length_append,length_cons,length_nil] at length
    omega

/-- The loop finds the first empty line. -/
theorem find_end_eq (pre l : List UInt8) :
    find_end (pre ++ l ++ [0]) (l.length - 3) pre.length = some ((split_head l).map fun parts => pre.length + parts.1.length) := by
  induction l generalizing pre with
  | nil => rfl
  | cons c l ih =>
    by_cases short : (c :: l).length < 4
    · rw [split_head_short short,show (c :: l).length - 3 = 0 by omega]
      rfl
    · obtain ⟨c1,c2,c3,r,rfl⟩ : ∃ c1 c2 c3 r, l = c1 :: c2 :: c3 :: r := by
        match l,short with
        | c1 :: c2 :: c3 :: r,_ => exact ⟨c1,c2,c3,r,rfl⟩
        | [],short => exact absurd (by simp) short
        | [_],short => exact absurd (by simp) short
        | [_,_],short => exact absurd (by simp) short
      have rest := ih (pre ++ [c])
      have left : (c :: c1 :: c2 :: c3 :: r).length - 3 = (c1 :: c2 :: c3 :: r).length - 3 + 1 := by simp
      have here : ending <+: c :: c1 :: c2 :: c3 :: r ↔ c = 13 ∧ c1 = 10 ∧ c2 = 13 ∧ c3 = 10 := by
        simp [ending,List.cons_prefix_cons,eq_comm]
      simp only [append_assoc,List.singleton_append,length_append,List.length_singleton] at rest
      rw [left,find_end,split_head]
      simp only [here]
      simp only [append_assoc,cons_append,List.getElem?_append_right (le_refl _),
        List.getElem?_append_right (Nat.le_add_right _ _),Nat.sub_self,Nat.add_sub_cancel_left,List.getElem?_cons_zero,
        List.getElem?_cons_succ,bind_eq_bind,bind_some]
      split_ifs
      · rfl
      · simp only [cons_append] at rest
        rw [rest]
        cases split_head (c1 :: c2 :: c3 :: r) with
        | none => rfl
        | some parts =>
          simp only [map_some,length_cons,Option.some.injEq]
          omega

theorem isEnd_iff : isEnd c = true ↔ c = 13 ∨ c = 10 := by simp [isEnd]

theorem lines_end (ends : isEnd c = true) (l : List UInt8) : lines (c :: l) = lines l := by
  simp [lines,List.splitOnP_cons_eq_if_modifyHead,ends]

theorem lines_skip (l : List UInt8) : lines (l.dropWhile isEnd) = lines l := by
  induction l with
  | nil => rfl
  | cons c l ih =>
    by_cases ends : isEnd c = true
    · rw [List.dropWhile_cons_of_pos ends,ih,lines_end ends]
    · rw [List.dropWhile_cons_of_neg ends]

theorem lines_word (some_word : word ≠ []) (inline : ∀ c ∈ word, isEnd c = false) : lines word = [word] := by
  rw [lines,List.splitOnP_eq_singleton inline]
  simp [some_word]

theorem lines_more (some_word : word ≠ []) (inline : ∀ c ∈ word, isEnd c = false) (ends : isEnd c = true)
    (l : List UInt8) : lines (word ++ c :: l) = word :: lines l := by
  rw [lines,List.splitOnP_append_cons_of_forall_mem inline c ends,List.filter_cons_of_pos (by simpa using some_word)]
  rfl

section
variable {pre behind : List UInt8}

/-- The memory at a place of a part of it. -/
theorem read_part (pre : List UInt8) (c : UInt8) (l : List UInt8) : (pre ++ c :: l)[pre.length]? = some c := by simp

theorem skip_ends_eq (pre todo behind : List UInt8) (plain : ∀ c ∈ todo, c ≠ 0) :
    skip_ends (pre ++ todo ++ behind) todo.length pre.length = some (pre.length + (todo.takeWhile isEnd).length) := by
  induction todo generalizing pre with
  | nil => rfl
  | cons c todo ih =>
    rw [forall_mem_cons] at plain
    have rest := ih (pre ++ [c]) plain.2
    simp only [append_assoc,cons_append,nil_append,length_append,List.length_singleton] at rest
    simp only [length_cons,skip_ends,append_assoc,cons_append,read_part,bind_eq_bind,bind_some]
    by_cases ends : isEnd c = true
    · have going : c = 13 ∨ c = 10 ∨ c = 0 := (isEnd_iff.mp ends).imp_right .inl
      rw [if_pos going,rest]
      simp only [List.takeWhile_cons,ends,if_true,length_cons]
      congr 1
      omega
    · have stops : ¬ (c = 13 ∨ c = 10 ∨ c = 0) := by
        rintro (cr | lf | zero)
        · exact ends (isEnd_iff.mpr (.inl cr))
        · exact ends (isEnd_iff.mpr (.inr lf))
        · exact plain.1 zero
      simp [stops,ends]

theorem line_stop_eq (pre todo behind : List UInt8) :
    line_stop (pre ++ todo ++ behind) todo.length pre.length = some (pre.length + (todo.takeWhile (!isEnd ·)).length) := by
  induction todo generalizing pre with
  | nil => rfl
  | cons c todo ih =>
    have rest := ih (pre ++ [c])
    simp only [append_assoc,cons_append,nil_append,length_append,List.length_singleton] at rest
    simp only [length_cons,line_stop,append_assoc,cons_append,read_part,bind_eq_bind,bind_some]
    by_cases ends : isEnd c = true
    · have stops : ¬ (c ≠ 13 ∧ c ≠ 10) := fun going => (isEnd_iff.mp ends).elim going.1 going.2
      simp [stops,ends]
    · have going : c ≠ 13 ∧ c ≠ 10 := not_or.mp fun either => ends (isEnd_iff.mpr either)
      rw [if_pos going,rest]
      simp only [List.takeWhile_cons,ends,Bool.not_false,if_true,length_cons]
      congr 1
      omega

/-- What the cut leaves: the one or two bytes that end the line become zeros. -/
theorem cut_eq (pre todo behind : List UInt8) (stop : ∀ c l, todo = c :: l → isEnd c = true) :
    ∃ gone rest, todo = gone ++ rest ∧ (∀ c ∈ gone, isEnd c = true) ∧ (todo ≠ [] → gone ≠ []) ∧
      cut (pre ++ todo ++ behind) pre.length (pre.length + todo.length) =
        some (pre ++ List.replicate gone.length 0 ++ rest ++ behind,pre.length + gone.length) := by
  cases todo with
  | nil => exact ⟨[],[],rfl,by simp,by simp,by simp [cut]⟩
  | cons c l =>
    obtain rfl | rfl := isEnd_iff.mp (stop c l rfl)
    · cases l with
      | nil => exact ⟨[13],[],rfl,by simp [isEnd],by simp,by simp [cut]⟩
      | cons d l =>
        by_cases lf : d = 10
        · subst lf
          exact ⟨[13,10],l,rfl,by simp [isEnd],by simp,by simp [cut]⟩
        · exact ⟨[13],d :: l,rfl,by simp [isEnd],by simp,by simp [cut,lf]⟩
    · exact ⟨[10],l,rfl,by simp [isEnd],by simp,by simp [cut]⟩

end

/-- The lines a state has set, in order. -/
def Lines.starts (s : Lines) : List Nat := s.status_line.toList ++ s.headers

/-- No header is set before the status line. -/
def Lines.Ordered (s : Lines) : Prop := s.status_line = none → s.headers = []

/-- What some lines, whose text is in the memory, add to a state. -/
structure Adds (s s' : Lines) (ls : List (List UInt8)) : Prop where
  starts : ∃ new, s'.starts = s.starts ++ new ∧ List.Forall₂ (Str s'.memory) new ls
  ordered : s'.Ordered
  code : s'.response_code = if s.status_line = none then (ls.head?.map code_of).getD s.response_code else s.response_code

/-- A line that was cut, or that ends where the head does. -/
theorem cut_str {pre word rest behind after : List UInt8} (plain : ∀ c ∈ word, c ≠ 0) (ends : behind = 0 :: after) {n : Nat}
    (cut_off : 0 < n ∨ rest = []) : Str (pre ++ word ++ List.replicate n 0 ++ rest ++ behind) pre.length word := by
  refine ⟨plain,?_⟩
  cases n with
  | zero =>
    obtain rfl := cut_off.resolve_left (lt_irrefl 0)
    exact ⟨after,by simp [ends]⟩
  | succ n => exact ⟨List.replicate n 0 ++ rest ++ behind,by simp [List.replicate_succ]⟩

/-- The state with a line more: the status line or a header. -/
def Lines.set_line (s : Lines) (line_start : Nat) (line : List UInt8) : Lines :=
  if s.status_line = none then {s with status_line := some line_start,response_code := code_of line}
  else {s with headers := s.headers ++ [line_start]}

theorem set_line_memory (s : Lines) (line_start : Nat) (line : List UInt8) : (s.set_line line_start line).memory = s.memory := by
  unfold Lines.set_line
  split_ifs <;> rfl

theorem set_line_ordered (s : Lines) (line_start : Nat) (line : List UInt8) : (s.set_line line_start line).Ordered := by
  unfold Lines.set_line
  split_ifs with missing <;> simp [Lines.Ordered,missing]

/-- A line and those behind it. -/
theorem Adds.cons {s s' : Lines} {line_start : Nat} {memory line : List UInt8} {ls : List (List UInt8)} (str : Str s'.memory line_start line)
    (later : Adds (Lines.set_line {s with memory} line_start line) s' ls) (first : s.Ordered) : Adds s s' (line :: ls) := by
  obtain ⟨⟨new,starts,texts⟩,ordered,code⟩ := later
  cases found : s.status_line with
  | none =>
    simp only [Lines.set_line,found,if_true,reduceCtorEq,if_false] at starts code
    refine ⟨⟨line_start :: new,?_,.cons str texts⟩,ordered,by simp [code,found]⟩
    rw [starts]
    simp [Lines.starts,found,first found]
  | some start =>
    simp only [Lines.set_line,found,reduceCtorEq,if_false] at starts code
    refine ⟨⟨line_start :: new,?_,.cons str texts⟩,ordered,by simp [code,found]⟩
    rw [starts]
    simp [Lines.starts,found]

/-- A line of the memory is set as the status line or as a header. -/
theorem add_line_eq {s : Lines} {line_start : Nat} {line : List UInt8} (text : Str s.memory line_start line) (some_line : line ≠ [])
    (inline : ∀ c ∈ line, isEnd c = false) :
    add_line line_start s = some (s.set_line line_start line) := by
  obtain ⟨plain,after,text⟩ := text
  obtain ⟨c,rest,rfl⟩ := List.exists_cons_of_ne_nil some_line
  have first : s.memory[line_start]? = some c := by
    rw [← List.head?_drop,text]
    rfl
  have nonzero : c ≠ 0 := plain c (by simp)
  have length : PathBuffers.strlen (c :: rest ++ 0 :: after) = some (c :: rest).length := by
    rw [PathBuffers.strlen_append plain]
    simp [PathBuffers.strlen]
  rw [add_line,first,bind_eq_bind,bind_some,if_neg nonzero,text,length,Lines.set_line]
  cases found : s.status_line with
  | none => simp only [bind_eq_bind,bind_some,status_code_eq inline,if_true,Option.pure_def]
  | some start => simp

theorem dropWhile_head {p : UInt8 → Bool} {l rest : List UInt8} (dropped : l.dropWhile p = c :: rest) : p c = false := by
  have head := List.head?_dropWhile_not p l
  rw [dropped] at head
  exact head

/-- A text that is no line end at first is a line and what ends it. -/
theorem first_line {t : List UInt8} (some_left : t ≠ []) (starts : ∀ c l, t = c :: l → isEnd c = false) : ∃ word rest, t = word ++ rest ∧
    word ≠ [] ∧ t.takeWhile (!isEnd ·) = word ∧ (∀ c ∈ word, isEnd c = false) ∧ ∀ c l, rest = c :: l → isEnd c = true := by
  refine ⟨t.takeWhile (!isEnd ·),t.dropWhile (!isEnd ·),List.takeWhile_append_dropWhile.symm,?_,rfl,fun c mem => ?_,fun c l dropped => ?_⟩
  · obtain ⟨c,l,rfl⟩ := List.exists_cons_of_ne_nil some_left
    simp [starts c l rfl]
  · simpa using List.mem_takeWhile_imp mem
  · simpa using dropWhile_head dropped

theorem lines_cut {gone rest : List UInt8} (some_word : word ≠ []) (inline : ∀ c ∈ word, isEnd c = false)
    (ends : ∀ c ∈ gone, isEnd c = true) (either : gone ≠ [] ∨ rest = []) : lines (word ++ (gone ++ rest)) = word :: lines rest := by
  cases gone with
  | nil =>
    obtain rfl := either.resolve_left (fun some_gone => some_gone rfl)
    rw [List.append_nil,List.append_nil,lines_word some_word inline]
    rfl
  | cons c gone =>
    rw [forall_mem_cons] at ends
    rw [cons_append,lines_more some_word inline ends.1]
    congr 1
    have skip : ∀ gone : List UInt8, (∀ c ∈ gone, isEnd c = true) → lines (gone ++ rest) = lines rest := fun gone all => by
      induction gone with
      | nil => rfl
      | cons c gone ih =>
        rw [forall_mem_cons] at all
        rw [cons_append,lines_end all.1,ih all.2]
    exact skip gone ends.2

theorem parse_lines_eq (todo : List UInt8) (plain : ∀ c ∈ todo, c ≠ 0) {behind after : List UInt8} (ends : behind = 0 :: after)
    (turns : Nat) (pre : List UInt8) (s : Lines) (first : s.Ordered) (enough : todo.length < turns)
    (memory : s.memory = pre ++ todo ++ behind) :
    ∃ s' todo', parse_lines (pre.length + todo.length) turns pre.length s = some s' ∧ todo'.length = todo.length ∧
      s'.memory = pre ++ todo' ++ behind ∧ Adds s s' (lines todo) := by
  induction turns generalizing todo pre s with
  | zero => omega
  | succ turns ih =>
    have unchanged (no_line : lines todo = []) : Adds s s (lines todo) := by
      rw [no_line]
      exact ⟨⟨[],by simp,.nil⟩,first,by simp⟩
    rw [parse_lines]
    by_cases nothing : todo = []
    · subst nothing
      exact ⟨s,[],by simp,rfl,memory,unchanged rfl⟩
    · have some_left : 0 < todo.length := length_pos_iff.mpr nothing
      have skipped := skip_ends_eq pre todo behind plain
      have parts : todo.takeWhile isEnd ++ todo.dropWhile isEnd = todo := List.takeWhile_append_dropWhile
      have length := congrArg List.length parts
      rw [length_append] at length
      rw [if_pos (by omega),Nat.add_sub_cancel_left,memory,skipped,bind_eq_bind,bind_some]
      by_cases only_ends : todo.dropWhile isEnd = []
      · have past : pre.length + (todo.takeWhile isEnd).length ≥ pre.length + todo.length := by
          rw [only_ends,length_nil] at length
          omega
        rw [if_pos past]
        exact ⟨s,todo,rfl,rfl,memory,unchanged (by rw [← lines_skip,only_ends]; rfl)⟩
      · have going : ¬ pre.length + (todo.takeWhile isEnd).length ≥ pre.length + todo.length := by
          have := length_pos_iff.mpr only_ends
          omega
        have lines_eq := lines_skip todo
        rw [if_neg going]
        generalize todo.takeWhile isEnd = blanks at *
        obtain ⟨word,r,split,some_word,taken,inline,stop⟩ := first_line only_ends (fun c l => dropWhile_head)
        generalize todo.dropWhile isEnd = t at *
        subst split
        subst parts
        obtain ⟨gone,rest,rfl,all_ends,some_gone,cut_off⟩ := cut_eq (pre ++ blanks ++ word) r behind stop
        have either : 0 < gone.length ∨ rest = [] := by
          by_cases some_end : gone = []
          · subst some_end
            by_cases last : rest = []
            · exact .inr last
            · exact absurd rfl (some_gone last)
          · exact .inl (length_pos_iff.mpr some_end)
        have stopped := line_stop_eq (pre ++ blanks) (word ++ (gone ++ rest)) behind
        rw [taken] at stopped
        have plain_word : ∀ c ∈ word, c ≠ 0 := fun c mem => plain c (by simp [mem])
        have plain_rest : ∀ c ∈ rest, c ≠ 0 := fun c mem => plain c (by simp [mem])
        have text := @cut_str (pre ++ blanks) word rest behind after plain_word ends gone.length either
        have first_words := lines_cut some_word inline all_ends (either.imp length_pos_iff.mp id)
        rw [← lines_eq,first_words]
        have word_length := length_pos_iff.mpr some_word
        simp only [append_assoc,length_append] at stopped cut_off memory text enough ⊢
        have places : pre.length + (blanks.length + (word.length + (gone.length + rest.length))) - (pre.length + blanks.length) =
            word.length + (gone.length + rest.length) := by omega
        have stop_place : pre.length + blanks.length + word.length = pre.length + (blanks.length + word.length) := by omega
        have end_place : pre.length + (blanks.length + (word.length + (gone.length + rest.length))) =
            pre.length + (blanks.length + word.length) + (gone.length + rest.length) := by omega
        rw [places,stopped,bind_some,stop_place,end_place,cut_off,bind_eq_bind,bind_some]
        obtain ⟨s2,s2_eq⟩ : ∃ s2 : Lines, s2 =
            {s with memory := pre ++ (blanks ++ (word ++ (List.replicate gone.length 0 ++ (rest ++ behind))))} := ⟨_,rfl⟩
        have memory2 : s2.memory = pre ++ (blanks ++ (word ++ (List.replicate gone.length 0 ++ (rest ++ behind)))) := by rw [s2_eq]
        rw [← memory2] at text
        simp only []
        rw [← s2_eq,add_line_eq text some_word inline,bind_eq_bind,bind_some]
        have length_eq : (pre ++ blanks ++ word ++ List.replicate gone.length 0).length =
            pre.length + (blanks.length + word.length) + gone.length := by
          simp only [length_append,List.length_replicate]
          omega
        obtain ⟨s',todo',ran,same,memory',later⟩ := ih rest plain_rest (pre ++ blanks ++ word ++ List.replicate gone.length 0)
          (s2.set_line (pre.length + blanks.length) word) (set_line_ordered _ _ _) (by omega)
          (by rw [set_line_memory,memory2]; simp only [append_assoc])
        rw [length_eq,Nat.add_assoc _ gone.length] at ran
        refine ⟨s',blanks ++ (word ++ (List.replicate gone.length 0 ++ todo')),ran,by simp [same],by simp [memory'],?_⟩
        rw [s2_eq] at later
        refine Adds.cons ?_ later first
        have final := @cut_str (pre ++ blanks) word todo' behind after plain_word ends gone.length
          (either.imp_right fun last => List.length_eq_zero_iff.mp (by rw [same,last]; rfl))
        rw [memory']
        simpa only [append_assoc,length_append] using final

/-- The lines set from a state without any. -/
theorem Adds.split {s s' : Lines} {ls : List (List UInt8)} (adds : Adds s s' ls) (nothing : s.starts = []) (no_line : s.status_line = none) :
    List.Forall₂ (Str s'.memory) s'.status_line.toList ls.head?.toList ∧ List.Forall₂ (Str s'.memory) s'.headers ls.tail ∧
      s'.response_code = (ls.head?.map code_of).getD s.response_code := by
  obtain ⟨⟨new,starts,texts⟩,ordered,code⟩ := adds
  rw [nothing,nil_append,Lines.starts] at starts
  rw [if_pos no_line] at code
  subst starts
  cases found : s'.status_line with
  | none =>
    rw [found,ordered found] at texts
    cases texts
    exact ⟨.nil,by rw [ordered found]; exact .nil,code⟩
  | some start =>
    rw [found] at texts
    cases texts with
    | cons first others => exact ⟨.cons first .nil,others,code⟩

theorem split_head_head {front back : List UInt8} (split : split_head response = some (front,back)) :
    head response = front ∧ body response = some back := by
  simp [head,body,split]

/-- The end of the head is overwritten. -/
theorem cut_head (front back : List UInt8) :
    ((((front ++ ending ++ back ++ [0]).set front.length 0).set (front.length + 1) 0).set (front.length + 2) 0).set (front.length + 3) 0 =
      front ++ 0 :: 0 :: 0 :: 0 :: (back ++ [0]) := by
  simp [ending]

/-- A response whose size leaves room for the terminator is taken apart as it should be. -/
theorem parse_response_right (plain : ∀ c ∈ head response, c ≠ 0) (fits : response.length < 2147483647) :
    ∃ r, http_parse_response response = some r ∧ Right response r := by
  by_cases empty : response = []
  · subst empty
    exact ⟨_,rfl,fun some_byte => absurd rfl some_byte,.nil,rfl,.nil,rfl,rfl⟩
  · have some_byte : response.length ≠ 0 := fun none_left => empty (List.length_eq_zero_iff.mp none_left)
    have size : int (response.length + 1) = some ((response.length : Int) + 1) := int_fits ⟨by omega,by omega⟩
    have found := find_end_eq [] response
    simp only [nil_append,length_nil,Nat.zero_add] at found
    rw [http_parse_response,if_neg some_byte,size,bind_eq_bind,bind_some]
    simp only [found,bind_eq_bind,bind_some]
    cases split : split_head response with
    | none =>
      have whole : head response = response := by simp [head,split]
      have no_body : body response = none := by simp [body,split]
      rw [whole] at plain
      obtain ⟨s',todo',ran,same,memory,adds⟩ := parse_lines_eq response plain (show [0] = 0 :: [] from rfl) (response.length + 1) []
        ⟨response ++ [0],some (-1),none,[]⟩ (fun _ => rfl) (Nat.lt_succ_self _) rfl
      obtain ⟨status,headers,code⟩ := adds.split rfl rfl
      simp only [length_nil,Nat.zero_add] at ran
      refine ⟨_,by rw [Option.map_none,ran]; rfl,fun _ => ?_,?_,?_,?_,by rw [no_body]; rfl,by rw [no_body]; rfl⟩
      · rw [memory]
        simp [same]
      · rwa [whole]
      · rw [whole]
        exact code
      · rwa [whole]
    | some parts =>
      obtain ⟨front,back⟩ := parts
      obtain ⟨whole,has_body⟩ := split_head_head split
      have response_eq := split_head_parts split
      rw [whole] at plain
      obtain ⟨s',todo',ran,same,memory,adds⟩ := parse_lines_eq front plain
        (show 0 :: 0 :: 0 :: 0 :: (back ++ [0]) = 0 :: (0 :: 0 :: 0 :: (back ++ [0])) from rfl) (response.length + 1) []
        ⟨front ++ 0 :: 0 :: 0 :: 0 :: (back ++ [0]),some (-1),none,[]⟩ (fun _ => rfl)
        (by rw [response_eq]; simp [ending]) rfl
      obtain ⟨status,headers,code⟩ := adds.split rfl rfl
      have length : response.length = front.length + 4 + back.length := by
        rw [response_eq]
        simp [ending]
        omega
      have cut_memory := cut_head front back
      rw [← response_eq] at cut_memory
      simp only [length_nil,Nat.zero_add] at ran
      refine ⟨_,by rw [map_some]; simp only [cut_memory,ran]; rfl,fun _ => ?_,?_,?_,?_,?_,?_⟩
      · simp only [memory,nil_append,length_append,same,length_cons,length_nil]
        omega
      · rwa [whole]
      · rw [whole]
        exact code
      · rwa [whole]
      · have back_size : response.length - (front.length + 4) = back.length := by omega
        have place : front.length + 4 = (todo' ++ [0,0,0,0]).length := by simp [same]
        have memory_eq : s'.memory = todo' ++ [0,0,0,0] ++ (back ++ [0]) := by simp [memory]
        rw [has_body,map_some,back_size,place,memory_eq,List.drop_left,List.take_left]
      · rw [has_body]
        simp only [map_some,Option.getD_some]
        omega

/-- A longer response has no room for its terminator. -/
theorem parse_response_none (large : 2147483647 ≤ response.length) : http_parse_response response = none := by
  have size : int (response.length + 1) = none := if_neg fun fits => by have := fits.2; omega
  rw [http_parse_response,if_neg (by omega),size]
  rfl

def grow_loop (need : Int) : Nat → Int → Option Int
  | 0,_ => none
  | turns + 1,new_cap =>
    if new_cap < need then do
      let new_cap ← int (new_cap * 2)
      grow_loop need turns new_cap
    else pure new_cap

/-- The bytes are kept; what is behind them is not set. -/
def realloc (buf : List UInt8) (size : Int) : List UInt8 := buf ++ List.replicate (size.toNat - buf.length) 0

def http_buffer_grow (turns : Nat) (buf : List UInt8) (cap need : Int) : Option (List UInt8 × Int) :=
  if need ≤ cap then some (buf,cap)
  else do
    let new_cap ← grow_loop need turns (if cap ≤ 0 then 512 else cap)
    pure (realloc buf new_cap,new_cap)

/-- The routine ends with the same bytes and room for what is needed. -/
def Grows (buf : List UInt8) (cap need : Int) : Prop :=
  ∃ turns buf' cap', http_buffer_grow turns buf cap need = some (buf',cap') ∧ need ≤ cap' ∧ cap' ≤ buf'.length ∧ buf <+: buf'

theorem grow_loop_some {turns : Nat} {start new_cap : Int} (fits : start < 2147483648)
    (ran : grow_loop need turns start = some new_cap) : ∃ k : Nat, new_cap = start * 2 ^ k ∧ need ≤ new_cap ∧ new_cap < 2147483648 := by
  induction turns generalizing start with
  | zero => cases ran
  | succ turns ih =>
    rw [grow_loop] at ran
    split_ifs at ran with small
    · obtain ⟨next,doubled,ran⟩ := Option.bind_eq_some_iff.mp ran
      obtain ⟨next_fits,rfl⟩ := int_some.mp doubled
      obtain ⟨k,rfl,enough,fits'⟩ := ih next_fits.2 ran
      exact ⟨k + 1,by ring,enough,fits'⟩
    · obtain rfl := Option.some.inj ran
      exact ⟨0,by ring,by omega,fits⟩

theorem grow_loop_runs {start : Int} (positive : 0 < start) (k : Nat) (enough : need ≤ start * 2 ^ k) (fits : start * 2 ^ k < 2147483648) :
    ∃ turns new_cap, grow_loop need turns start = some new_cap ∧ need ≤ new_cap := by
  induction k generalizing start with
  | zero =>
    refine ⟨1,start,?_,by simpa using enough⟩
    have done : ¬ start < need := by
      rw [pow_zero,mul_one] at enough
      omega
    rw [grow_loop,if_neg done]
    rfl
  | succ k ih =>
    by_cases small : start < need
    · have next : start * 2 * 2 ^ k = start * 2 ^ (k + 1) := by ring
      have low : start * 2 ≤ start * 2 * 2 ^ k := le_mul_of_one_le_right (by omega) (one_le_pow₀ (by decide))
      obtain ⟨turns,new_cap,ran,room⟩ := @ih (start * 2) (by omega) (by rw [next]; exact enough) (by rw [next]; exact fits)
      refine ⟨turns + 1,new_cap,?_,room⟩
      rw [grow_loop,if_pos small,int_fits ⟨by omega,by omega⟩]
      exact ran
    · refine ⟨1,start,?_,by omega⟩
      rw [grow_loop,if_neg small]
      rfl

theorem grows_iff {buf : List UInt8} {cap : Int} (fits : cap < 2147483648) (held : cap ≤ buf.length) :
    Grows buf cap need ↔ need ≤ cap ∨
      ∃ k : Nat, need ≤ (if cap ≤ 0 then 512 else cap) * 2 ^ k ∧ (if cap ≤ 0 then 512 else cap) * 2 ^ k < 2147483648 := by
  unfold Grows http_buffer_grow
  by_cases room : need ≤ cap
  · simp only [room,if_true,true_or,iff_true]
    exact ⟨0,buf,cap,rfl,room,held,List.prefix_refl buf⟩
  · simp only [room,if_false,false_or]
    have start_fits : (if cap ≤ 0 then 512 else cap) < 2147483648 := by
      split_ifs <;> omega
    have start_positive : 0 < (if cap ≤ 0 then 512 else cap) := by
      split_ifs <;> omega
    generalize (if cap ≤ 0 then 512 else cap) = start at *
    constructor
    · rintro ⟨turns,buf',cap',ran,-⟩
      obtain ⟨new_cap,ran,-⟩ := Option.bind_eq_some_iff.mp ran
      obtain ⟨k,rfl,enough,fits'⟩ := grow_loop_some start_fits ran
      exact ⟨k,enough,fits'⟩
    · rintro ⟨k,enough,fits'⟩
      obtain ⟨turns,new_cap,ran,more⟩ := grow_loop_runs start_positive k enough fits'
      refine ⟨turns,realloc buf new_cap,new_cap,by rw [ran]; rfl,more,?_,List.prefix_append _ _⟩
      rw [realloc,length_append,List.length_replicate]
      omega

/-- Responses are taken apart and buffers grow as far as their sizes fit an `int`. -/
theorem response_and_buffer {response : List UInt8} (plain : ∀ c ∈ head response, c ≠ 0) {buf : List UInt8} {cap need : Int}
    (fits : cap < 2147483648) (held : cap ≤ buf.length) :
    ((∃ r, http_parse_response response = some r ∧ Right response r) ↔ response.length < 2147483647) ∧
    (Grows buf cap need ↔ need ≤ cap ∨
      ∃ k : Nat, need ≤ (if cap ≤ 0 then 512 else cap) * 2 ^ k ∧ (if cap ≤ 0 then 512 else cap) * 2 ^ k < 2147483648) := by
  refine ⟨⟨fun ⟨r,parsed,_⟩ => ?_,parse_response_right plain⟩,grows_iff fits held⟩
  by_contra large
  rw [parse_response_none (Nat.le_of_not_lt large)] at parsed
  cases parsed

/-- `HTTP/1 200`, the headers `A: b` and `C: d`, and the body `hi`. -/
def small_response : List UInt8 := [72,84,84,80,47,49,32,50,48,48,13,10,65,58,32,98,13,10,67,58,32,100,13,10,13,10,104,105]

/-- It is taken apart, and a buffer with three bytes grows. -/
theorem response_and_buffer_headers : (∃ r, http_parse_response small_response = some r ∧ Right small_response r) ∧
    Grows [1,2,3] 3 5 := by
  have plain : ∀ c ∈ head small_response, c ≠ 0 := by
    have parts : head small_response = [72,84,84,80,47,49,32,50,48,48,13,10,65,58,32,98,13,10,67,58,32,100] := rfl
    rw [parts]
    simp
  have both := @response_and_buffer _ plain [1,2,3] 3 5 (by decide) (by decide)
  exact ⟨both.1.mpr (by decide),both.2.mpr (.inr ⟨1,by decide,by decide⟩)⟩

/-- No capacity above 2^30 can be reached by doubling. -/
theorem large_need_endless : ¬ Grows [] 0 1073741825 := by
  rw [grows_iff (by decide) (by decide)]
  rintro (room | ⟨k,enough,fits⟩)
  · exact absurd room (by decide)
  · rw [if_pos (le_refl 0)] at enough fits
    by_cases small : k ≤ 21
    · have : (2 : Int) ^ k ≤ 2 ^ 21 := pow_le_pow_right₀ (by decide) small
      omega
    · have : (2 : Int) ^ 22 ≤ 2 ^ k := pow_le_pow_right₀ (by decide) (by omega)
      omega

end MicroOS.Http

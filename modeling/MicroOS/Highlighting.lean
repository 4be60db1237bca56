import Mathlib.Tactic

/-! Syntax highlighting (`syntax.c`). The output is a block as long as the input; a result is none when a read or write leaves
one of them. -/

namespace MicroOS.Highlighting
open Option (bind_eq_bind bind_some)

abbrev Bytes := List UInt8
abbrev Output := Nat → UInt8

def white : UInt8 := 7

/-- `red`, `green`, `yellow`, `blue`, `magenta` and `cyan` -/
def bracket_matching_colors : List UInt8 := [1,2,3,4,5,6]

structure syntax_section_t where
  active : Bool
  sect_start : Bytes
  sect_end : Bytes
  color : UInt8
  skip_next : UInt8
  start_some : sect_start ≠ []
  end_some : sect_end ≠ []

structure syntax_word_t where
  word : Bytes
  color : UInt8

structure syntax_header_t where
  single_line_comment : syntax_section_t
  multi_line_comment : syntax_section_t
  string : syntax_section_t
  single_char : syntax_section_t
  brackets_start : Bytes
  brackets_end : Bytes
  match_brackets : Bool
  words : List syntax_word_t

def isalpha (c : UInt8) : Bool := (97 ≤ c && c ≤ 122) || (65 ≤ c && c ≤ 90)

/-- A character that words are made of. -/
def letter (c : UInt8) : Bool := isalpha c || c = 95

def look_forward_compare (input : Bytes) (cur : Nat) : Bytes → Option Bool
  | [] => some true
  | c :: search =>
    if cur ≥ input.length then some false
    else do
      let b ← input[cur]?
      if b ≠ c then pure false else look_forward_compare input (cur + 1) search

/-- `memset` in the output -/
def memset (len : Nat) (output : Output) (start : Nat) (color : UInt8) (n : Nat) : Option Output :=
  if start + n ≤ len then some fun q => if start ≤ q ∧ q < start + n then color else output q else none

/-- The loop over the characters of a section. -/
def find_end (input : Bytes) (s : syntax_section_t) : Nat → Nat → Option Nat
  | 0,_ => none
  | turns + 1,cur => do
    if ← look_forward_compare input cur s.sect_end then pure cur
    else if cur ≥ input.length then pure cur
    else do
      let c ← input[cur]?
      find_end input s turns (if c = s.skip_next then cur + 2 else cur + 1)

def highlight_section (input : Bytes) (cur : Nat) (s : syntax_section_t) (output : Output) : Option (Nat × Output) := do
  if s.active = false then pure (cur,output)
  else if ← look_forward_compare input cur s.sect_start then do
    let start := cur
    let end_len := s.sect_end.length
    let cur ← find_end input s (input.length + 1) (cur + s.sect_start.length)
    let fill_len := (cur - start) + end_len
    let fill_len := if start + fill_len > input.length then input.length - start else fill_len
    let output ← memset input.length output start s.color fill_len
    let cur := cur + end_len - 1
    pure (if cur > input.length then input.length else cur,output)
  else pure (cur,output)

/-- The sections are looked for one after the other. -/
def highlight_sections (input : Bytes) : List syntax_section_t → Nat → Output → Option (Nat × Output)
  | [],i,output => some (i,output)
  | s :: sections,i,output => do
    let (i,output) ← highlight_section input i s output
    highlight_sections input sections i output

/-- The loop over the words. -/
def highlight_words (input : Bytes) : List syntax_word_t → Nat → Output → Option (Nat × Output)
  | [],i,output => some (i,output)
  | w :: words,i,output => do
    if ← look_forward_compare input i w.word then do
      let goes_on ← if i + w.word.length < input.length then (input[i + w.word.length]?).map letter else some false
      if goes_on then highlight_words input words i output
      else do
        let output ← memset input.length output i w.color w.word.length
        highlight_words input words (i + w.word.length) output
    else highlight_words input words i output

/-- The color of the brackets of a depth, which counts as unsigned. -/
def bracket_color (curr_bracket_idx : Int) : UInt8 := bracket_matching_colors.getD ((curr_bracket_idx % 2 ^ 32).toNat % 6) 0

def highlight_brackets (input : Bytes) (t : syntax_header_t) (i : Nat) (curr_bracket_idx : Int) (output : Output) : Option (Int × Output) := do
  let c ← input[i]?
  let (curr_bracket_idx,output) ← if t.brackets_start.contains c then
      (memset input.length output i (bracket_color (curr_bracket_idx + 1)) 1).map fun output => (curr_bracket_idx + 1,output)
    else some (curr_bracket_idx,output)
  if t.brackets_end.contains c then
    (memset input.length output i (bracket_color curr_bracket_idx) 1).map fun output => (curr_bracket_idx - 1,output)
  else pure (curr_bracket_idx,output)

def syntax_header_t.sections (t : syntax_header_t) : List syntax_section_t :=
  [t.string,t.single_char,t.single_line_comment,t.multi_line_comment]

/-- Whether no letter is in front. -/
def at_front (input : Bytes) (i : Nat) : Option Bool := if i = 0 then some true else (input[i - 1]?).map fun c => !letter c

def highlight_loop (input : Bytes) (t : syntax_header_t) : Nat → Nat → Int → Output → Option Output
  | 0,_,_,_ => none
  | turns + 1,i,curr_bracket_idx,output =>
    if i < input.length then do
      let (i,output) ← highlight_sections input t.sections i output
      if i ≥ input.length then pure output
      else do
        let (i,output) ← if ← at_front input i then highlight_words input t.words i output else some (i,output)
        let (curr_bracket_idx,output) ←
          if t.match_brackets then highlight_brackets input t i curr_bracket_idx output else some (curr_bracket_idx,output)
        highlight_loop input t turns (i + 1) curr_bracket_idx output
    else pure output

def highlight (input : Bytes) (t : syntax_header_t) : Option Output := highlight_loop input t (input.length + 1) 0 0 fun _ => white

section
variable (input : Bytes)

/-- Where the end of a section is met, or what is behind the text. -/
def close (s : syntax_section_t) (p : Nat) : Nat :=
  if s.sect_end <+: input.drop p then p
  else if p < input.length then close s (p + if input[p]? = some s.skip_next then 2 else 1)
  else p
termination_by input.length - p
decreasing_by split_ifs <;> omega

/-- The end of a section that begins at a place. -/
def end_of (s : syntax_section_t) (p : Nat) : Nat := close input s (p + s.sect_start.length)

def Opens (p : Nat) (s : syntax_section_t) : Prop := s.active = true ∧ s.sect_start <+: input.drop p

instance (p : Nat) (s : syntax_section_t) : Decidable (Opens input p s) := inferInstanceAs (Decidable (_ ∧ _))

/-- The section that begins at a place. -/
def opening (sections : List syntax_section_t) (p : Nat) : Option syntax_section_t := sections.find? fun s => Opens input p s

/-- The places outside of all sections, from the left. -/
inductive Outside (t : syntax_header_t) : Nat → Prop
  | start : Outside t 0
  | pass {p : Nat} (outside : Outside t p) (inside : p < input.length) (none_opens : opening input t.sections p = none) : Outside t (p + 1)
  | leave {p : Nat} {s : syntax_section_t} (outside : Outside t p) (opens : opening input t.sections p = some s) :
      Outside t (end_of input s p + s.sect_end.length)

/-- Every character between the marks of a section has its color. -/
def Colored (t : syntax_header_t) (output : Output) : Prop :=
  ∀ p s q, Outside input t p → opening input t.sections p = some s → p + s.sect_start.length ≤ q → q < end_of input s p →
    q < input.length → output q = s.color

/-- Where a section leaves the loop: at its last character. -/
def last_of (s : syntax_section_t) (p : Nat) : Nat := min (end_of input s p + s.sect_end.length - 1) input.length

def after_sections : List syntax_section_t → Nat → Nat
  | [],p => p
  | s :: sections,p => after_sections sections (if Opens input p s then last_of input s p else p)

/-- A word with no letter behind it. -/
def Stands (p : Nat) (w : syntax_word_t) : Prop :=
  w.word <+: input.drop p ∧ input[p + w.word.length]?.any letter = false

instance (p : Nat) (w : syntax_word_t) : Decidable (Stands input p w) := inferInstanceAs (Decidable (_ ∧ _))

def after_words : List syntax_word_t → Nat → Nat
  | [],p => p
  | w :: words,p => after_words words (if Stands input p w then p + w.word.length else p)

/-- The words are looked for where no letter is in front. -/
def words_end (t : syntax_header_t) (p : Nat) : Nat :=
  if p = 0 ∨ input[p - 1]?.any letter = false then after_words input t.words p else p

/-- The loop comes from one place to another. -/
inductive Visits (t : syntax_header_t) : Nat → Nat → Prop
  | here (p : Nat) : Visits t p p
  | next {p q : Nat} (inside : p < input.length) (before : after_sections input t.sections p < input.length)
      (later : Visits t (words_end input t (after_sections input t.sections p) + 1) q) : Visits t p q

/-- From a place on, words do not reach the end of the text when the brackets behind them are looked at. -/
def EndsFrom (t : syntax_header_t) (p : Nat) : Prop :=
  ∀ v, Visits input t p v → v < input.length → after_sections input t.sections v < input.length → t.match_brackets = true →
    words_end input t (after_sections input t.sections v) < input.length

def Ends (t : syntax_header_t) : Prop := EndsFrom input t 0

/-- No section begins where the loop passes it over: at the last character of another, in the words behind that place, or at
the character behind the words. -/
def Plain (t : syntax_header_t) : Prop :=
  ∀ p, Visits input t 0 p → p < input.length →
    (∀ s, opening input t.sections p = some s → after_sections input t.sections p = last_of input s p) ∧
    (after_sections input t.sections p < input.length → ∀ q, after_sections input t.sections p < q →
      q ≤ words_end input t (after_sections input t.sections p) → opening input t.sections q = none)

end

section
variable {input : Bytes} {t : syntax_header_t}

theorem look_eq (search : Bytes) (p : Nat) : look_forward_compare input p search = some (decide (search <+: input.drop p)) := by
  induction search generalizing p with
  | nil => simp [look_forward_compare]
  | cons c search ih =>
    rw [look_forward_compare]
    by_cases past : p ≥ input.length
    · rw [if_pos past,List.drop_eq_nil_of_le past]
      simp
    · have inside : p < input.length := Nat.lt_of_not_le past
      rw [if_neg past,List.getElem?_eq_getElem inside,bind_eq_bind,bind_some,List.drop_eq_getElem_cons inside,ih]
      by_cases same : input[p] = c
      · simp [same,List.cons_prefix_cons]
      · rw [if_pos same,decide_eq_false fun starts => same (List.cons_prefix_cons.mp starts).1.symm]
        rfl

theorem starts_inside {search : Bytes} {p : Nat} (some_char : search ≠ []) (starts : search <+: input.drop p) :
    p + search.length ≤ input.length := by
  have length := starts.length_le
  have := List.length_pos_of_ne_nil some_char
  rw [List.length_drop] at length
  omega

theorem find_end_eq {s : syntax_section_t} {turns p : Nat} (enough : input.length - p < turns) :
    find_end input s turns p = some (close input s p) := by
  induction turns generalizing p with
  | zero => omega
  | succ turns ih =>
    rw [find_end,look_eq,bind_eq_bind,bind_some,close]
    by_cases ends : s.sect_end <+: input.drop p
    · simp [ends]
    · by_cases inside : p < input.length
      · have not_past : ¬p ≥ input.length := Nat.not_le.mpr inside
        have step (k : Nat) (positive : 0 < k) : find_end input s turns (p + k) = some (close input s (p + k)) := ih (by omega)
        have two := step 2 (by omega)
        have one := step 1 (by omega)
        simp only [ends,decide_false,Bool.false_eq_true,if_false,if_neg not_past,if_pos inside,List.getElem?_eq_getElem inside,bind_eq_bind,
          bind_some,Option.some.injEq]
        split_ifs
        · exact two
        · exact one
      · have past : p ≥ input.length := Nat.le_of_not_lt inside
        simp [ends,inside,past]

theorem close_ge (s : syntax_section_t) (p : Nat) : p ≤ close input s p := by
  induction size : input.length - p using Nat.strong_induction_on generalizing p with
  | _ n ih =>
    rw [close]
    split_ifs with ends inside
    · exact le_refl p
    · have := ih (input.length - (p + 2)) (by omega) (p + 2) rfl
      omega
    · have := ih (input.length - (p + 1)) (by omega) (p + 1) rfl
      omega
    · exact le_refl p

theorem opens_inside {p : Nat} {s : syntax_section_t} (opens : Opens input p s) : p + s.sect_start.length ≤ input.length ∧ p < input.length := by
  have inside := starts_inside s.start_some opens.2
  have := List.length_pos_of_ne_nil s.start_some
  omega

/-- A section leaves the loop behind all of its characters. -/
theorem last_of_ge {p : Nat} {s : syntax_section_t} (opens : Opens input p s) :
    p < input.length ∧ p ≤ last_of input s p ∧ min (end_of input s p) input.length ≤ last_of input s p ∧ p + 1 ≤ end_of input s p := by
  have inside := opens_inside opens
  have ge := @close_ge input s (p + s.sect_start.length)
  have start := List.length_pos_of_ne_nil s.start_some
  have end_ := List.length_pos_of_ne_nil s.end_some
  rw [last_of,end_of]
  omega

theorem memset_some {len start n : Nat} (output : Output) (color : UInt8) (inside : start + n ≤ len) :
    memset len output start color n = some fun q => if start ≤ q ∧ q < start + n then color else output q := if_pos inside

/-- A section colors its characters, and nothing in front of it. -/
theorem highlight_section_eq (p : Nat) (s : syntax_section_t) (output : Output) : ∃ output',
    highlight_section input p s output = some (if Opens input p s then last_of input s p else p,output') ∧ (∀ q < p, output' q = output q) ∧
      (Opens input p s → ∀ q, p ≤ q → q < end_of input s p → q < input.length → output' q = s.color) := by
  rw [highlight_section,look_eq]
  by_cases opens : Opens input p s
  · obtain ⟨active,starts⟩ := opens
    have inside := opens_inside ⟨active,starts⟩
    have ends := last_of_ge ⟨active,starts⟩
    have found : find_end input s (input.length + 1) (p + s.sect_start.length) = some (end_of input s p) := find_end_eq (by omega)
    have some_end := List.length_pos_of_ne_nil s.end_some
    rw [if_neg (by rw [active]; decide)]
    simp only [starts,decide_true,if_true,found,bind_eq_bind,bind_some]
    obtain ⟨fill_len,fill_eq⟩ : ∃ fill_len, (if p + (end_of input s p - p + s.sect_end.length) > input.length then input.length - p
      else end_of input s p - p + s.sect_end.length) = fill_len := ⟨_,rfl⟩
    have fill_inside : p + fill_len ≤ input.length ∧ min (end_of input s p) input.length ≤ p + fill_len := by
      rw [← fill_eq]
      split_ifs <;> omega
    have left : (if end_of input s p + s.sect_end.length - 1 > input.length then input.length else end_of input s p + s.sect_end.length - 1) =
        last_of input s p := by
      rw [last_of]
      split_ifs <;> omega
    rw [fill_eq,memset_some output s.color fill_inside.1,bind_some,left,if_pos ⟨active,starts⟩]
    refine ⟨_,rfl,fun q before => ?_,fun _ q low high here => ?_⟩
    · exact if_neg (by omega)
    · exact if_pos (by omega)
  · refine ⟨output,?_,fun q before => rfl,fun is_open => (opens is_open).elim⟩
    rw [if_neg opens]
    by_cases active : s.active = false
    · rw [if_pos active]
      rfl
    · have no_start : ¬s.sect_start <+: input.drop p := fun starts => opens ⟨Bool.eq_true_of_not_eq_false active,starts⟩
      rw [if_neg active]
      simp [no_start]

theorem after_sections_ge (sections : List syntax_section_t) (p : Nat) : p ≤ after_sections input sections p := by
  induction sections generalizing p with
  | nil => exact le_refl p
  | cons s sections ih =>
    refine le_trans ?_ (ih _)
    split_ifs with opens
    · exact (last_of_ge opens).2.1
    · exact le_refl p

/-- The sections one after the other: the first that opens here keeps its characters. -/
theorem highlight_sections_eq (sections : List syntax_section_t) (p : Nat) (output : Output) : ∃ output',
    highlight_sections input sections p output = some (after_sections input sections p,output') ∧ (∀ q < p, output' q = output q) ∧
      ∀ s, opening input sections p = some s → ∀ q, p ≤ q → q < end_of input s p → q < input.length → output' q = s.color := by
  induction sections generalizing p output with
  | nil => exact ⟨output,rfl,fun q before => rfl,fun s opens => by cases opens⟩
  | cons s sections ih =>
    obtain ⟨output₁,first,keeps,colors⟩ := @highlight_section_eq input p s output
    obtain ⟨output₂,rest,keeps',colors'⟩ := ih (if Opens input p s then last_of input s p else p) output₁
    refine ⟨output₂,?_,fun q before => ?_,fun u opens q low high here => ?_⟩
    · rw [highlight_sections,first,bind_eq_bind,bind_some]
      exact rest
    · refine (keeps' q ?_).trans (keeps q before)
      split_ifs with opens
      · exact before.trans_le (last_of_ge opens).2.1
      · exact before
    · rw [opening,List.find?_cons] at opens
      by_cases here_opens : Opens input p s
      · simp only [here_opens,decide_true] at opens
        obtain rfl := Option.some.inj opens
        rw [if_pos here_opens] at keeps'
        have last := last_of_ge here_opens
        rw [keeps' q (by omega)]
        exact colors here_opens q low high here
      · simp only [here_opens,decide_false] at opens
        rw [if_neg here_opens] at colors'
        exact colors' u opens q low high here

theorem after_words_ge (words : List syntax_word_t) (p : Nat) : p ≤ after_words input words p := by
  induction words generalizing p with
  | nil => exact le_refl p
  | cons w words ih =>
    refine le_trans ?_ (ih _)
    split_ifs <;> omega

/-- The words stay in the text and leave what is in front of them. -/
theorem highlight_words_eq (words : List syntax_word_t) (p : Nat) (inside : p ≤ input.length) (output : Output) : ∃ output',
    highlight_words input words p output = some (after_words input words p,output') ∧ (∀ q < p, output' q = output q) ∧
      after_words input words p ≤ input.length := by
  induction words generalizing p output with
  | nil => exact ⟨output,rfl,fun q before => rfl,inside⟩
  | cons w words ih =>
    rw [highlight_words,look_eq,after_words,bind_eq_bind,bind_some]
    by_cases starts : w.word <+: input.drop p
    · have fits : p + w.word.length ≤ input.length := by
        have := starts.length_le
        rw [List.length_drop] at this
        omega
      have goes_on (turn : Bool → Option (Nat × Output)) : (if p + w.word.length < input.length then
          ((input[p + w.word.length]?).map letter).bind turn else (some false).bind turn) = turn (input[p + w.word.length]?.any letter) := by
        split_ifs with more
        · rw [List.getElem?_eq_getElem more]
          rfl
        · rw [List.getElem?_eq_none (Nat.le_of_not_lt more)]
          rfl
      simp only [starts,decide_true,if_true]
      rw [goes_on]
      by_cases more : input[p + w.word.length]?.any letter = true
      · have no_word : ¬Stands input p w := fun stands => Bool.noConfusion (more.symm.trans stands.2)
        rw [if_pos more,if_neg no_word]
        exact ih p inside output
      · have stands : Stands input p w := ⟨starts,Bool.eq_false_of_not_eq_true more⟩
        rw [if_neg more,if_pos stands,memset_some output w.color fits,bind_eq_bind,bind_some]
        obtain ⟨output',ran,keeps,ends⟩ := ih (p + w.word.length) fits
          fun q => if p ≤ q ∧ q < p + w.word.length then w.color else output q
        exact ⟨output',ran,fun q before => (keeps q (by omega)).trans (if_neg (by omega)),ends⟩
    · have no_word : ¬Stands input p w := fun stands => starts stands.1
      simp only [starts,decide_false,Bool.false_eq_true,if_false,if_neg no_word]
      exact ih p inside output

theorem words_end_ge (p : Nat) : p ≤ words_end input t p := by
  rw [words_end]
  split_ifs
  · exact after_words_ge t.words p
  · exact le_refl p

theorem front_words_eq (p : Nat) (inside : p < input.length) (output : Output) : ∃ front output', at_front input p = some front ∧
    (if front = true then highlight_words input t.words p output else some (p,output)) = some (words_end input t p,output') ∧
      (∀ q < p, output' q = output q) ∧ words_end input t p ≤ input.length := by
  have front : at_front input p = some (decide (p = 0 ∨ input[p - 1]?.any letter = false)) := by
    rw [at_front]
    by_cases first : p = 0
    · simp [first]
    · have before : p - 1 < input.length := by omega
      rw [if_neg first,List.getElem?_eq_getElem before]
      cases letter input[p - 1] <;> simp [first]
  rw [words_end]
  by_cases is_front : p = 0 ∨ input[p - 1]?.any letter = false
  · rw [if_pos is_front]
    exact ⟨true,(highlight_words_eq t.words p inside.le output).imp fun output' words => ⟨by rw [front,decide_eq_true is_front],words⟩⟩
  · rw [if_neg is_front]
    exact ⟨false,output,by rw [front,decide_eq_false is_front],rfl,fun q before => rfl,inside.le⟩

/-- The brackets are looked at in the text, and color their own place. -/
theorem highlight_brackets_eq (p : Nat) (idx : Int) (output : Output) :
    if p < input.length then ∃ idx' output', highlight_brackets input t p idx output = some (idx',output') ∧ ∀ q < p, output' q = output q
    else highlight_brackets input t p idx output = none := by
  by_cases inside : p < input.length
  · rw [if_pos inside,highlight_brackets,List.getElem?_eq_getElem inside]
    have write (output : Output) (color : UInt8) : memset input.length output p color 1 =
        some fun q => if p ≤ q ∧ q < p + 1 then color else output q := memset_some output color inside
    have kept (output : Output) (color : UInt8) (q : Nat) (before : q < p) : (if p ≤ q ∧ q < p + 1 then color else output q) = output q :=
      if_neg (by omega)
    cases starts : t.brackets_start.contains input[p] <;> cases ends : t.brackets_end.contains input[p] <;>
      simp only [starts,ends,bind_eq_bind,bind_some,if_true,if_false,Bool.false_eq_true,write,Option.map_some]
    · exact ⟨idx,output,rfl,fun q before => rfl⟩
    · exact ⟨idx - 1,_,rfl,kept output _⟩
    · exact ⟨idx + 1,_,rfl,kept output _⟩
    · exact ⟨idx + 1 - 1,_,rfl,fun q before => (if_neg (by omega)).trans (kept output _ q before)⟩
  · rw [if_neg inside,highlight_brackets,List.getElem?_eq_none (Nat.le_of_not_lt inside)]
    rfl

theorem opening_inside {sections : List syntax_section_t} {p : Nat} {s : syntax_section_t} (opens : opening input sections p = some s) :
    Opens input p s := by
  simpa using List.find?_some opens

/-- One turn leaves the text in front, colors the section that begins here and comes to the next place. -/
theorem loop_turn (turns : Nat) {p : Nat} (inside : p < input.length) (idx : Int) (output : Output) : ∃ idx' output',
    (∀ q < p, output' q = output q) ∧
      (∀ s, opening input t.sections p = some s → after_sections input t.sections p = last_of input s p →
        ∀ q, p ≤ q → q < end_of input s p → q < input.length → output' q = s.color) ∧
      highlight_loop input t (turns + 1) p idx output =
        if input.length ≤ after_sections input t.sections p then some output'
        else if t.match_brackets = true → words_end input t (after_sections input t.sections p) < input.length then
          highlight_loop input t turns (words_end input t (after_sections input t.sections p) + 1) idx' output'
        else none := by
  obtain ⟨output₁,sections,keeps₁,colors⟩ := @highlight_sections_eq input t.sections p output
  have ge := @after_sections_ge input t.sections p
  by_cases past : input.length ≤ after_sections input t.sections p
  · refine ⟨idx,output₁,keeps₁,fun s opens _ => colors s opens,?_⟩
    rw [highlight_loop,if_pos inside,sections,bind_eq_bind,bind_some,if_pos past]
    exact if_pos past
  · obtain ⟨front,output₂,is_front,words,keeps₂,words_inside⟩ := front_words_eq (t := t) _ (Nat.lt_of_not_le past) output₁
    have words_ge := @words_end_ge input t (after_sections input t.sections p)
    have colors₂ (s) (opens : opening input t.sections p = some s) (after : after_sections input t.sections p = last_of input s p) (q : Nat)
        (low : p ≤ q) (high : q < end_of input s p) (here : q < input.length) : output₂ q = s.color := by
      have last := last_of_ge (opening_inside opens)
      rw [keeps₂ q (by omega)]
      exact colors s opens q low high here
    have turn : highlight_loop input t (turns + 1) p idx output = if t.match_brackets = true then
        (highlight_brackets input t (words_end input t (after_sections input t.sections p)) idx output₂).bind fun state =>
          highlight_loop input t turns (words_end input t (after_sections input t.sections p) + 1) state.1 state.2
        else highlight_loop input t turns (words_end input t (after_sections input t.sections p) + 1) idx output₂ := by
      rw [highlight_loop,if_pos inside,sections,bind_eq_bind,bind_some]
      dsimp only
      rw [if_neg past,is_front,bind_eq_bind,bind_some]
      cases front
      · simp only [Bool.false_eq_true,if_false] at words ⊢
        rw [words,bind_some]
        rfl
      · simp only [if_true] at words ⊢
        rw [words,bind_some]
        rfl
    simp only [turn,if_neg past]
    have brackets := @highlight_brackets_eq input t (words_end input t (after_sections input t.sections p)) idx output₂
    have keeps (q : Nat) (before : q < p) : output₂ q = output q := (keeps₂ q (by omega)).trans (keeps₁ q before)
    by_cases match_brackets : t.match_brackets = true
    · by_cases ends : words_end input t (after_sections input t.sections p) < input.length
      · rw [if_pos ends] at brackets
        obtain ⟨idx',output₃,ran,keeps₃⟩ := brackets
        refine ⟨idx',output₃,fun q before => (keeps₃ q (by omega)).trans (keeps q before),fun s opens after q low high here => ?_,?_⟩
        · have last := last_of_ge (opening_inside opens)
          rw [keeps₃ q (by omega)]
          exact colors₂ s opens after q low high here
        · rw [if_pos match_brackets,ran,bind_some,if_pos fun _ => ends]
      · rw [if_neg ends] at brackets
        refine ⟨idx,output₂,keeps,colors₂,?_⟩
        rw [if_pos match_brackets,brackets,if_neg fun inside => ends (inside match_brackets)]
        rfl
    · refine ⟨idx,output₂,keeps,colors₂,?_⟩
      rw [if_neg match_brackets,if_pos fun matched => (match_brackets matched).elim]

/-- What the condition says of a turn and of the rest of the loop. -/
theorem ends_from_iff {p : Nat} (inside : p < input.length) : EndsFrom input t p ↔ (after_sections input t.sections p < input.length →
    (t.match_brackets = true → words_end input t (after_sections input t.sections p) < input.length) ∧
      EndsFrom input t (words_end input t (after_sections input t.sections p) + 1)) := by
  constructor
  · exact fun ends before => ⟨ends p (.here p) inside before,fun v visits => ends v (.next inside before visits)⟩
  · intro turn v visits v_inside v_before
    cases visits with
    | here => exact (turn v_before).1
    | next _ before later => exact (turn before).2 v later v_inside v_before

/-- By the turns: what a turn colors stays as it is, since the later ones are behind it. -/
theorem highlight_loop_eq {turns p : Nat} (enough : input.length - p < turns) (idx : Int) (output : Output) :
    (EndsFrom input t p → ∃ output', highlight_loop input t turns p idx output = some output' ∧ (∀ q < p, output' q = output q) ∧
      ∀ v s, Visits input t p v → opening input t.sections v = some s → after_sections input t.sections v = last_of input s v →
        ∀ q, v ≤ q → q < end_of input s v → q < input.length → output' q = s.color) ∧
    (¬EndsFrom input t p → highlight_loop input t turns p idx output = none) := by
  induction turns generalizing p idx output with
  | zero => omega
  | succ turns ih =>
    by_cases inside : p < input.length
    · obtain ⟨idx',output₁,keeps,colors,turn⟩ := loop_turn (t := t) turns inside idx output
      have ge := @after_sections_ge input t.sections p
      have words_ge := @words_end_ge input t (after_sections input t.sections p)
      rw [turn,ends_from_iff inside]
      by_cases past : input.length ≤ after_sections input t.sections p
      · simp only [if_pos past]
        refine ⟨fun _ => ⟨output₁,rfl,keeps,fun v s visits opens after => ?_⟩,fun not_ends => ?_⟩
        · cases visits with
          | here => exact colors s opens after
          | next _ before => omega
        · exact (not_ends fun before => by omega).elim
      · have before : after_sections input t.sections p < input.length := Nat.lt_of_not_le past
        have later := ih (p := words_end input t (after_sections input t.sections p) + 1) (by omega) idx' output₁
        simp only [if_neg past,before,true_implies]
        by_cases brackets : t.match_brackets = true → words_end input t (after_sections input t.sections p) < input.length
        · rw [if_pos brackets]
          refine ⟨fun ends => ?_,fun not_ends => later.2 fun ends => not_ends ⟨brackets,ends⟩⟩
          obtain ⟨output',ran,keeps',colors'⟩ := later.1 ends.2
          refine ⟨output',ran,fun q front => (keeps' q (by omega)).trans (keeps q front),fun v s visits opens after q low high here => ?_⟩
          cases visits with
          | here =>
            have last := last_of_ge (opening_inside opens)
            rw [keeps' q (by omega)]
            exact colors s opens after q low high here
          | next _ _ visits => exact colors' v s visits opens after q low high here
        · rw [if_neg brackets]
          exact ⟨fun ends => (brackets ends.1).elim,fun _ => rfl⟩
    · have stays (v : Nat) (visits : Visits input t p v) : v = p := by
        cases visits with
        | here => rfl
        | next here => exact (inside here).elim
      have ends : EndsFrom input t p := fun v visits here => (inside (stays v visits ▸ here)).elim
      refine ⟨fun _ => ⟨output,if_neg inside,fun q _ => rfl,fun v s visits opens => ?_⟩,fun not_ends => (not_ends ends).elim⟩
      exact (inside (stays v visits ▸ (opens_inside (opening_inside opens)).2)).elim

theorem visits_next {p v : Nat} (visits : Visits input t p v) (inside : v < input.length)
    (before : after_sections input t.sections v < input.length) :
    Visits input t p (words_end input t (after_sections input t.sections v) + 1) := by
  induction visits with
  | here p => exact .next inside before (.here _)
  | next here here_before _ ih => exact .next here here_before (ih inside before)

theorem after_none {sections : List syntax_section_t} {p : Nat} (none_opens : opening input sections p = none) :
    after_sections input sections p = p := by
  induction sections with
  | nil => rfl
  | cons s sections ih =>
    rw [opening,List.find?_cons] at none_opens
    by_cases opens : Opens input p s
    · simp [opens] at none_opens
    · simp only [opens,decide_false] at none_opens
      rw [after_sections,if_neg opens]
      exact ih none_opens

/-- A place outside of all sections is a place of the loop, or lies in words. -/
theorem outside_visits (plain : Plain input t) {p : Nat} (outside : Outside input t p) : input.length ≤ p ∨ Visits input t 0 p ∨
    ∃ v, Visits input t 0 v ∧ v < input.length ∧ after_sections input t.sections v < input.length ∧
      after_sections input t.sections v < p ∧ p ≤ words_end input t (after_sections input t.sections v) := by
  -- behind a visited place the next one is visited too, or still in the words found there
  have behind {v p : Nat} (visits : Visits input t 0 v) (inside : v < input.length) (before : after_sections input t.sections v < input.length)
      (low : after_sections input t.sections v ≤ p) (high : p ≤ words_end input t (after_sections input t.sections v)) :
      input.length ≤ p + 1 ∨ Visits input t 0 (p + 1) ∨ ∃ v, Visits input t 0 v ∧ v < input.length ∧
        after_sections input t.sections v < input.length ∧ after_sections input t.sections v < p + 1 ∧
        p + 1 ≤ words_end input t (after_sections input t.sections v) := by
    rcases Nat.eq_or_lt_of_le high with last | more
    · exact .inr (.inl (last ▸ visits_next visits inside before))
    · exact .inr (.inr ⟨v,visits,inside,before,Nat.lt_succ_of_le low,more⟩)
  induction outside with
  | start => exact .inr (.inl (.here 0))
  | @pass p _ inside none_opens ih =>
    rcases ih with past | visits | ⟨v,visits,v_inside,before,low,high⟩
    · omega
    · have same := after_none none_opens
      exact behind visits inside (same.symm ▸ inside) same.le (same.symm ▸ words_end_ge p)
    · exact behind visits v_inside before low.le high
  | @leave p s _ opens ih =>
    have ends := last_of_ge (opening_inside opens)
    have end_mark := List.length_pos_of_ne_nil s.end_some
    rcases ih with past | visits | ⟨v,visits,v_inside,before,low,high⟩
    · omega
    · have after := (plain p visits ends.1).1 s opens
      by_cases past : input.length ≤ end_of input s p + s.sect_end.length
      · exact .inl past
      · have last : after_sections input t.sections p = end_of input s p + s.sect_end.length - 1 := by
          rw [after,last_of]
          omega
        have next := behind visits ends.1 (by omega) last.le (last ▸ words_end_ge _)
        rwa [Nat.sub_add_cancel (by omega)] at next
    · have none_opens := (plain v visits v_inside).2 before p low high
      rw [none_opens] at opens
      cases opens

theorem highlight_some : (∃ output, highlight input t = some output) ↔ Ends input t := by
  have run := @highlight_loop_eq input t (input.length + 1) 0 (Nat.lt_succ_self _) 0 fun _ => white
  constructor
  · rintro ⟨output,ran⟩
    by_contra not_ends
    rw [highlight,run.2 not_ends] at ran
    cases ran
  · intro ends
    obtain ⟨output,ran,_⟩ := run.1 ends
    exact ⟨output,ran⟩

theorem highlight_colored (ends : Ends input t) (plain : Plain input t) : ∃ output, highlight input t = some output ∧ Colored input t output := by
  obtain ⟨output,ran,_,colors⟩ := (@highlight_loop_eq input t (input.length + 1) 0 (Nat.lt_succ_self _) 0 fun _ => white).1 ends
  refine ⟨output,ran,fun p s q outside opens low high here => ?_⟩
  have inside := last_of_ge (opening_inside opens)
  rcases outside_visits plain outside with past | visits | ⟨v,visits,v_inside,before,low,high⟩
  · omega
  · exact colors p s visits opens ((plain p visits inside.1).1 s opens) q (by omega) high here
  · have none_opens := (plain v visits v_inside).2 before p low high
    rw [none_opens] at opens
    cases opens

end

/-- The highlighting finishes and stays in the text exactly when no word ends the text in front of the brackets, and the
sections have their colors when none begins where the loop passes it over. -/
theorem highlight_safe (input : Bytes) (t : syntax_header_t) : ((∃ output, highlight input t = some output) ↔ Ends input t) ∧
    (Ends input t → Plain input t → ∃ output, highlight input t = some output ∧ Colored input t output) :=
  ⟨highlight_some,highlight_colored⟩

def quoted (active : Bool) : syntax_section_t := ⟨active,[34],[34],3,92,by decide,by decide⟩

/-- Strings in `"` and the word `if` -/
def small_header (match_brackets : Bool) : syntax_header_t :=
  ⟨quoted false,quoted false,quoted true,quoted false,[40],[41],match_brackets,[⟨[105,102],2⟩]⟩

/-- The text `if` -/
theorem highlight_past_end : ¬∀ input t, ∃ output, highlight input t = some output ∧ Colored input t output := by
  intro right
  obtain ⟨output,ran,_⟩ := right [105,102] (small_header true)
  have out : highlight [105,102] (small_header true) = none := rfl
  rw [out] at ran
  cases ran

-- the string of `if"a"` is not seen, and that of `if "a"` is
example : (highlight [105,102,34,97,34] (small_header false)).map (fun output => output 3) = some white := by decide
example : (highlight [105,102,32,34,97,34] (small_header false)).map (fun output => output 4) = some 3 := by decide

end MicroOS.Highlighting

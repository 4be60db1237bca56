import MicroOS.Highlighting

/-! The text editor: the keys `listen_input` handles (`edit/input.c`) and the state `main` starts from (`edit/main.c`). An
operation is none when it reads or writes outside the buffer or gets no memory. Of the frames only the colors are modelled,
which `highlight` works out for the whole buffer when a syntax is loaded. -/

namespace MicroOS.Edit
open Highlighting (syntax_header_t highlight Ends)

def newline : UInt8 := 10

/-- The arithmetic of `unsigned int`. -/
def inc (x : Nat) : Nat := (x + 1) % 4294967296
def dec (x : Nat) : Nat := (x + 4294967295) % 4294967296
def minus (x y : Nat) : Nat := (x + 4294967296 - y) % 4294967296

/-- What `realloc` gives: blocks up to a size, with some byte where a block grows. -/
structure Heap where
  limit : Nat
  fresh : UInt8
  small : limit < 2147483648

def realloc (h : Heap) (block : List UInt8) (size : Nat) : Option (List UInt8) :=
  if size ≤ h.limit then some (block.take size ++ List.replicate (size - block.length) h.fresh) else none

def memmove (block : List UInt8) (dst src n : Nat) : Option (List UInt8) :=
  if src + n ≤ block.length ∧ dst + n ≤ block.length then
    some (block.take dst ++ (block.drop src).take n ++ block.drop (dst + n))
  else none

/-- `block[i] = c`. -/
def store (block : List UInt8) (i : Nat) (c : UInt8) : Option (List UInt8) :=
  if i < block.length then some (block.set i c) else none

/-- The state, with what the file holds after it was last loaded or saved. -/
structure edit_state_t where
  input_buffer : List UInt8
  is_edited : Bool
  is_in_insert_mode : Bool
  show_tab_char : Bool
  ln_cnt : Nat
  char_cnt : Nat
  buffer_ln_idx : Nat
  buffer_idx : Nat
  current_size : Nat
  read_only : Bool
  file : List UInt8

/-- A character, or an arrow that `async_getarrw` reports. -/
inductive Press where
  | char (input : UInt8)
  | up
  | down
  | left
  | right

/-- The loop of `move_up`; `i` and `buffer_idx` go down together. -/
def up_loop (input_buffer : List UInt8) : Nat → Option Nat
  | 0 => some 0
  | i + 1 => do
    let c ← input_buffer[i]?
    if c = newline then some i else up_loop input_buffer i

def move_up (s : edit_state_t) : Option edit_state_t :=
  if s.buffer_ln_idx ≤ 0 ∨ s.buffer_idx ≤ 0 then some s
  else do
    let buffer_idx ← up_loop s.input_buffer s.buffer_idx
    pure { s with buffer_idx := buffer_idx, buffer_ln_idx := dec s.buffer_ln_idx }

/-- The loop of `move_down`, with the number of turns left before `current_size`. -/
def down_loop (input_buffer : List UInt8) : Nat → Nat → Option Nat
  | 0,i => some i
  | n + 1,i => do
    let c ← input_buffer[i]?
    if c = newline then some (i + 1) else down_loop input_buffer n (i + 1)

def move_down (s : edit_state_t) : Option edit_state_t :=
  if s.buffer_ln_idx ≥ minus s.ln_cnt 1 ∨ s.buffer_idx ≥ s.current_size then some s
  else do
    let buffer_idx ← down_loop s.input_buffer (s.current_size - s.buffer_idx) s.buffer_idx
    pure { s with buffer_idx := buffer_idx, buffer_ln_idx := inc s.buffer_ln_idx }

def move_left (s : edit_state_t) : Option edit_state_t :=
  if ¬ s.buffer_idx ≤ 0 then do
    let c ← s.input_buffer[minus s.buffer_idx 1]?
    let buffer_ln_idx := if c = newline then dec s.buffer_ln_idx else s.buffer_ln_idx
    pure { s with buffer_ln_idx := buffer_ln_idx, buffer_idx := dec s.buffer_idx }
  else some s

def move_right (s : edit_state_t) : Option edit_state_t :=
  if s.buffer_idx < s.current_size then do
    let c ← s.input_buffer[s.buffer_idx]?
    let buffer_ln_idx := if c = newline then inc s.buffer_ln_idx else s.buffer_ln_idx
    pure { s with buffer_ln_idx := buffer_ln_idx, buffer_idx := inc s.buffer_idx }
  else some s

/-- The colors of the buffer, in a block of their own, when there is a syntax. -/
def rerender_color (header : Option syntax_header_t) (s : edit_state_t) : Option edit_state_t :=
  match header with
  | none => some s
  | some t => (highlight (s.input_buffer.take s.current_size) t).map fun _ => s

/-- The character in front of the cursor goes. -/
def delete_char (h : Heap) (s : edit_state_t) : Option edit_state_t := do
  let deleted ← s.input_buffer[minus s.buffer_idx 1]?
  let buffer_ln_idx := if deleted = newline then dec s.buffer_ln_idx else s.buffer_ln_idx
  let moved ← (if s.buffer_idx = s.current_size then some s.input_buffer
    else memmove s.input_buffer (minus s.buffer_idx 1) s.buffer_idx (minus s.current_size s.buffer_idx))
  -- The character at the cursor is looked at only now, after the bytes behind it have moved.
  let c ← moved[s.buffer_idx]?
  let block ← realloc h moved (dec s.current_size)
  pure { s with
    input_buffer := block
    buffer_ln_idx := buffer_ln_idx
    ln_cnt := if c = newline then dec s.ln_cnt else s.ln_cnt
    char_cnt := if c = newline then s.char_cnt else dec s.char_cnt
    current_size := dec s.current_size
    buffer_idx := dec s.buffer_idx }

/-- The case of the backspace in insert mode. -/
def backspace (h : Heap) (header : Option syntax_header_t) (s : edit_state_t) : Option edit_state_t :=
  if s.buffer_idx < 1 ∨ s.current_size < 1 then some s else (delete_char h s).bind (rerender_color header)

/-- The default case in insert mode, up to the colors. -/
def insert_char (h : Heap) (input : UInt8) (s : edit_state_t) : Option edit_state_t := do
  let block ← realloc h s.input_buffer (inc s.current_size)
  let block ← memmove block (s.buffer_idx + 1) s.buffer_idx (minus (minus (inc s.current_size) s.buffer_idx) 1)
  let block ← store block s.buffer_idx input
  pure { s with
    input_buffer := block
    ln_cnt := if input = newline then inc s.ln_cnt else s.ln_cnt
    buffer_ln_idx := if input = newline then inc s.buffer_ln_idx else s.buffer_ln_idx
    char_cnt := if input = newline then s.char_cnt else inc s.char_cnt
    is_edited := true
    current_size := inc s.current_size
    buffer_idx := inc s.buffer_idx }

/-- The keys of the command mode and of the read-only mode that move. -/
def letter_move (input : UInt8) (s : edit_state_t) : Option edit_state_t :=
  if input = 97 then move_left s
  else if input = 100 then move_right s
  else if input = 119 then move_up s
  else if input = 115 then move_down s
  else some s

/-- One press; the result says whether the editor ends. -/
def listen_input (h : Heap) (header : Option syntax_header_t) (s : edit_state_t) : Press → Option (Bool × edit_state_t)
  | .up => (move_up s).map (false,·)
  | .down => (move_down s).map (false,·)
  | .left => (move_left s).map (false,·)
  | .right => (move_right s).map (false,·)
  | .char input =>
    if s.read_only then
      if input = 113 ∨ input = 27 then some (true,s) else (letter_move input s).map (false,·)
    else if !s.is_in_insert_mode then
      if input = 113 then some (true,s)
      else if input = 27 then some (false,{ s with is_in_insert_mode := !s.is_in_insert_mode })
      else if input = 116 then some (false,{ s with show_tab_char := !s.show_tab_char })
      else if input = 43 then some (false,{ s with file := s.input_buffer.take s.current_size, is_edited := false })
      else (letter_move input s).map (false,·)
    else if input = 8 then (backspace h header s).map (false,·)
    else if input = 27 then some (false,{ s with is_in_insert_mode := !s.is_in_insert_mode })
    else ((insert_char h input s).bind (rerender_color header)).map (false,·)

/-- The loop over the buffer in `main`: `ln_cnt`, `buffer_ln_idx` and `char_cnt`. -/
def count_loop : List UInt8 → Nat × Nat × Nat → Nat × Nat × Nat
  | [],counts => counts
  | c :: rest,(ln_cnt,buffer_ln_idx,char_cnt) =>
    count_loop rest (if c = newline then (inc ln_cnt,inc buffer_ln_idx,dec (inc char_cnt)) else (ln_cnt,buffer_ln_idx,inc char_cnt))

/-- The state `main` starts from. -/
def initial (h : Heap) (file : List UInt8) (read_only : Bool) : Option edit_state_t :=
  let counts := count_loop file (1,0,0)
  if file.length ≤ h.limit then some {
    input_buffer := file
    is_edited := false
    is_in_insert_mode := true
    show_tab_char := false
    ln_cnt := counts.1
    char_cnt := counts.2.2
    buffer_ln_idx := if read_only then 0 else counts.2.1
    buffer_idx := if read_only then 0 else file.length
    current_size := file.length
    read_only := read_only
    file := file }
  else none

/-- The state after some presses; one that ends the editor changes nothing. -/
def presses (h : Heap) (header : Option syntax_header_t) (s : edit_state_t) (keys : List Press) : Option edit_state_t :=
  keys.foldlM (fun s key => (listen_input h header s key).map Prod.snd) s

/-- What the editor is for: a text, a cursor in it, the modes and what was last loaded or saved. -/
structure Editor where
  text : List UInt8
  cursor : Nat
  insert_mode : Bool
  read_only : Bool
  saved : List UInt8

def newlines (text : List UInt8) : Nat := text.count newline

/-- The newline before a place that is nearest to it, and the nearest one from it on. -/
def last_newline (text : List UInt8) (cursor : Nat) : Option Nat :=
  (List.range cursor).reverse.find? fun i => text[i]? = some newline
def next_newline (text : List UInt8) (cursor : Nat) : Option Nat :=
  (List.range' cursor (text.length - cursor)).find? fun i => text[i]? = some newline

def Editor.up (e : Editor) : Editor := { e with cursor := (last_newline e.text e.cursor).getD e.cursor }
def Editor.down (e : Editor) : Editor := { e with cursor := ((next_newline e.text e.cursor).map (· + 1)).getD e.cursor }
def Editor.left (e : Editor) : Editor := { e with cursor := e.cursor - 1 }
def Editor.right (e : Editor) : Editor := { e with cursor := min (e.cursor + 1) e.text.length }

def Editor.insert (e : Editor) (c : UInt8) : Editor :=
  { e with text := e.text.take e.cursor ++ c :: e.text.drop e.cursor, cursor := e.cursor + 1 }
def Editor.delete (e : Editor) : Editor := { e with text := e.text.take (e.cursor - 1) ++ e.text.drop e.cursor, cursor := e.cursor - 1 }

def Editor.letter (e : Editor) (c : UInt8) : Editor :=
  if c = 97 then e.left else if c = 100 then e.right else if c = 119 then e.up else if c = 115 then e.down else e

def Editor.press (e : Editor) : Press → Editor
  | .up => e.up
  | .down => e.down
  | .left => e.left
  | .right => e.right
  | .char c =>
    if e.read_only then e.letter c
    else if !e.insert_mode then
      if c = 27 then { e with insert_mode := true } else if c = 43 then { e with saved := e.text } else e.letter c
    else if c = 8 then e.delete
    else if c = 27 then { e with insert_mode := false }
    else e.insert c

def opened (file : List UInt8) (read_only : Bool) : Editor := ⟨file,if read_only then 0 else file.length,true,read_only,file⟩

/-- The state is that of an editor: the buffer is its text, the counters count, and it is marked as edited when the text
    differs from what was last loaded or saved. -/
structure Shows (h : Heap) (s : edit_state_t) (e : Editor) : Prop where
  room : e.text.length ≤ h.limit
  buffer : s.input_buffer = e.text
  size : s.current_size = e.text.length
  cursor : s.buffer_idx = e.cursor
  inside : e.cursor ≤ e.text.length
  line : s.buffer_ln_idx = newlines (e.text.take e.cursor)
  lines : s.ln_cnt = 1 + newlines e.text
  chars : s.char_cnt = e.text.length - newlines e.text
  file : s.file = e.saved
  edited : e.text ≠ e.saved → s.is_edited = true
  insert_mode : s.is_in_insert_mode = e.insert_mode
  read_only : s.read_only = e.read_only

/-- With a syntax the colors of the text are worked out without leaving it. -/
def Colors (header : Option syntax_header_t) (text : List UInt8) : Prop := ∀ t ∈ header, Ends text t

section
variable {text : List UInt8} {i : Nat} {c : UInt8}

theorem newlines_append (first second : List UInt8) : newlines (first ++ second) = newlines first + newlines second :=
  List.count_append

theorem newlines_cons (c : UInt8) (text : List UInt8) : newlines (c :: text) = (if c = newline then 1 else 0) + newlines text := by
  simp [newlines,List.count_cons,Nat.add_comm]

theorem newlines_le (text : List UInt8) : newlines text ≤ text.length := List.count_le_length

theorem newlines_split (text : List UInt8) (i : Nat) : newlines text = newlines (text.take i) + newlines (text.drop i) := by
  rw [← newlines_append,List.take_append_drop]

theorem newlines_take_succ (here : text[i]? = some c) :
    newlines (text.take (i + 1)) = newlines (text.take i) + if c = newline then 1 else 0 := by
  rw [List.take_add_one,here,newlines_append]
  simp [newlines,List.count_cons]

theorem newlines_drop (here : text[i]? = some c) :
    newlines (text.drop i) = (if c = newline then 1 else 0) + newlines (text.drop (i + 1)) := by
  have whole := newlines_split text i
  have whole' := newlines_split text (i + 1)
  have next := newlines_take_succ here
  omega

theorem get_some (inside : i < text.length) : ∃ c, text[i]? = some c := ⟨_,List.getElem?_eq_getElem inside⟩

theorem last_newline_succ (here : text[i]? = some c) :
    last_newline text (i + 1) = if c = newline then some i else last_newline text i := by
  unfold last_newline
  rw [List.range_succ,List.reverse_append,List.reverse_singleton,List.singleton_append,List.find?_cons,here]
  by_cases is : c = newline <;> simp [is]

/-- The loop of `move_up` goes to the nearest newline before the cursor, or to the start. -/
theorem up_loop_eq (inside : i ≤ text.length) : up_loop text i = some ((last_newline text i).getD 0) := by
  induction i with
  | zero => rfl
  | succ i ih =>
    obtain ⟨c,here⟩ := get_some (Nat.lt_of_succ_le inside)
    rw [up_loop,here,last_newline_succ here]
    by_cases is : c = newline
    · simp [is]
    · simp [is,ih (Nat.le_of_succ_le inside)]

theorem last_newline_cases (inside : i ≤ text.length) :
    last_newline text i = none ∧ newlines (text.take i) = 0 ∨
      ∃ j, last_newline text i = some j ∧ j < i ∧ newlines (text.take i) = newlines (text.take j) + 1 := by
  induction i with
  | zero => exact .inl ⟨rfl,rfl⟩
  | succ i ih =>
    obtain ⟨c,here⟩ := get_some (Nat.lt_of_succ_le inside)
    rw [last_newline_succ here,newlines_take_succ here]
    by_cases is : c = newline
    · exact .inr ⟨i,by simp [is],by simp,by simp [is]⟩
    · obtain ⟨absent,none⟩ | ⟨j,found,before,count⟩ := ih (Nat.le_of_succ_le inside)
      · exact .inl ⟨by simp [is,absent],by simp [is,none]⟩
      · exact .inr ⟨j,by simp [is,found],by omega,by simp [is,count]⟩

theorem next_newline_end (beyond : text.length ≤ i) : next_newline text i = none := by
  rw [next_newline,Nat.sub_eq_zero_of_le beyond]
  rfl

theorem next_newline_here (here : text[i]? = some c) :
    next_newline text i = if c = newline then some i else next_newline text (i + 1) := by
  have inside : i < text.length := (List.getElem?_eq_some_iff.mp here).1
  obtain ⟨n,left⟩ : ∃ n, text.length - i = n + 1 := ⟨text.length - i - 1,by omega⟩
  have left' : text.length - (i + 1) = n := by omega
  rw [next_newline,next_newline,left,left',List.range'_succ,List.find?_cons,here]
  by_cases is : c = newline <;> simp [is]

/-- The loop of `move_down` goes behind the nearest newline from the cursor on, or to the end. -/
theorem down_loop_eq {n : Nat} (left : text.length = i + n) :
    down_loop text n i = some (((next_newline text i).map (· + 1)).getD text.length) := by
  induction n generalizing i with
  | zero =>
    rw [down_loop,next_newline_end (by omega),left]
    rfl
  | succ n ih =>
    obtain ⟨c,here⟩ := @get_some text i (by omega)
    rw [down_loop,here,next_newline_here here]
    by_cases is : c = newline
    · simp [is]
    · simp [is,@ih (i + 1) (by omega)]

theorem next_newline_cases {n : Nat} (left : text.length = i + n) :
    next_newline text i = none ∧ newlines (text.drop i) = 0 ∨
      ∃ j, next_newline text i = some j ∧ j < text.length ∧ newlines (text.take (j + 1)) = newlines (text.take i) + 1 := by
  induction n generalizing i with
  | zero => exact .inl ⟨next_newline_end (by omega),by rw [List.drop_eq_nil_of_le (by omega)]; rfl⟩
  | succ n ih =>
    obtain ⟨c,here⟩ := @get_some text i (by omega)
    rw [next_newline_here here,newlines_drop here]
    by_cases is : c = newline
    · exact .inr ⟨i,by simp [is],by omega,by rw [newlines_take_succ here,if_pos is]⟩
    · obtain ⟨absent,none⟩ | ⟨j,found,inside,count⟩ := @ih (i + 1) (by omega)
      · exact .inl ⟨by simp [is,absent],by simp [is,none]⟩
      · exact .inr ⟨j,by simp [is,found],inside,by rw [count,newlines_take_succ here]; simp [is]⟩

end

end MicroOS.Edit

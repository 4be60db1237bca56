import MicroOS.Edit

/-! The editor keeps its text and counters, key by key and over every run. -/

namespace MicroOS.EditRuns
open Edit
open Highlighting (syntax_header_t highlight_some)
open Option (bind_eq_bind bind_some some.injEq)

theorem inc_eq {x : Nat} (small : x < 4294967295) : inc x = x + 1 := by unfold inc; omega
theorem dec_eq {x : Nat} (positive : 0 < x) (small : x < 4294967296) : dec x = x - 1 := by unfold dec; omega
theorem minus_eq {x y : Nat} (le : y ≤ x) (small : x < 4294967296) : minus x y = x - y := by unfold minus; omega

section
variable {h : Heap} {header : Option syntax_header_t} {s : edit_state_t} {e : Editor}

theorem up_shows (shows : Shows h s e) : ∃ s', move_up s = some s' ∧ Shows h s' e.up := by
  have small := h.small
  have room := shows.room
  have counted := newlines_le (e.text.take e.cursor)
  rw [List.length_take] at counted
  obtain ⟨absent,none⟩ | ⟨j,found,before,count⟩ := last_newline_cases shows.inside
  · refine ⟨s,by rw [move_up,if_pos (.inl (by rw [shows.line,none]))],?_⟩
    rw [Editor.up,absent]
    exact shows
  · have guard : ¬ (s.buffer_ln_idx ≤ 0 ∨ s.buffer_idx ≤ 0) := by rw [shows.line,shows.cursor]; omega
    refine ⟨{ s with buffer_idx := j, buffer_ln_idx := dec s.buffer_ln_idx },?_,?_⟩
    · rw [move_up,if_neg guard,shows.buffer,shows.cursor,up_loop_eq shows.inside,found]
      rfl
    · rw [Editor.up,found]
      have inside := shows.inside
      have line : dec s.buffer_ln_idx = newlines (e.text.take j) := by
        rw [shows.line,dec_eq (by omega) (by omega)]
        omega
      exact ⟨shows.room,shows.buffer,shows.size,rfl,show j ≤ e.text.length by omega,line,shows.lines,shows.chars,shows.file,
        shows.edited,shows.insert_mode,shows.read_only⟩

theorem down_shows (shows : Shows h s e) : ∃ s', move_down s = some s' ∧ Shows h s' e.down := by
  have small := h.small
  have room := shows.room
  have counted := newlines_le e.text
  have inside := shows.inside
  have whole := newlines_split e.text e.cursor
  have lines : minus s.ln_cnt 1 = newlines e.text := by
    rw [shows.lines,minus_eq (by omega) (by omega)]
    omega
  obtain ⟨absent,none⟩ | ⟨j,found,before,count⟩ := @next_newline_cases e.text e.cursor (e.text.length - e.cursor) (by omega)
  · refine ⟨s,by rw [move_down,if_pos (.inl (by rw [lines,shows.line]; omega))],?_⟩
    rw [Editor.down,absent]
    exact shows
  · have more := newlines_split e.text (j + 1)
    have guard : ¬ (s.buffer_ln_idx ≥ minus s.ln_cnt 1 ∨ s.buffer_idx ≥ s.current_size) := by
      rw [lines,shows.line,shows.cursor,shows.size]
      intro stays
      obtain few | last := stays
      · omega
      · rw [next_newline_end last] at found
        cases found
    refine ⟨{ s with buffer_idx := j + 1, buffer_ln_idx := inc s.buffer_ln_idx },?_,?_⟩
    · rw [move_down,if_neg guard,shows.buffer,shows.cursor,shows.size,
        @down_loop_eq e.text e.cursor (e.text.length - e.cursor) (by omega),found]
      rfl
    · rw [Editor.down,found]
      exact { shows with
        cursor := rfl
        inside := show j + 1 ≤ e.text.length by omega
        line := by
          show inc s.buffer_ln_idx = newlines (e.text.take (j + 1))
          rw [shows.line,inc_eq (by omega),count] }

theorem left_shows (shows : Shows h s e) : ∃ s', move_left s = some s' ∧ Shows h s' e.left := by
  have small := h.small
  have room := shows.room
  have inside := shows.inside
  have counted := newlines_le (e.text.take e.cursor)
  rw [List.length_take] at counted
  by_cases start : e.cursor = 0
  · refine ⟨s,by rw [move_left,if_neg (by rw [shows.cursor]; omega)],?_⟩
    rw [Editor.left,start]
    exact { shows with cursor := by rw [shows.cursor,start], inside := by simp, line := by rw [shows.line,start] }
  · obtain ⟨i,next⟩ : ∃ i, e.cursor = i + 1 := ⟨e.cursor - 1,by omega⟩
    obtain ⟨c,here⟩ := @get_some e.text i (by omega)
    have count := newlines_take_succ here
    rw [← next] at count
    refine ⟨{ s with
      buffer_ln_idx := if c = newline then dec s.buffer_ln_idx else s.buffer_ln_idx
      buffer_idx := dec s.buffer_idx },?_,?_⟩
    · rw [move_left,if_pos (by rw [shows.cursor]; omega),shows.cursor,minus_eq (by omega) (by omega),next,
        Nat.add_sub_cancel,shows.buffer,here]
      rfl
    · rw [Editor.left,next,Nat.add_sub_cancel]
      exact { shows with
        cursor := by
          show dec s.buffer_idx = i
          rw [shows.cursor,dec_eq (by omega) (by omega)]
          omega
        inside := show i ≤ e.text.length by omega
        line := by
          show (if c = newline then dec s.buffer_ln_idx else s.buffer_ln_idx) = newlines (e.text.take i)
          split_ifs at count ⊢
          · rw [shows.line,dec_eq (by omega) (by omega)]
            omega
          · rw [shows.line,count]
            rfl }

theorem right_shows (shows : Shows h s e) : ∃ s', move_right s = some s' ∧ Shows h s' e.right := by
  have small := h.small
  have room := shows.room
  have inside := shows.inside
  have counted := newlines_le (e.text.take e.cursor)
  rw [List.length_take] at counted
  by_cases last : e.cursor = e.text.length
  · refine ⟨s,by rw [move_right,if_neg (by rw [shows.cursor,shows.size]; omega)],?_⟩
    have stays : min (e.cursor + 1) e.text.length = e.cursor := by omega
    rw [Editor.right,stays]
    exact shows
  · obtain ⟨c,here⟩ := @get_some e.text e.cursor (by omega)
    have count := newlines_take_succ here
    have next : min (e.cursor + 1) e.text.length = e.cursor + 1 := by omega
    refine ⟨{ s with
      buffer_ln_idx := if c = newline then inc s.buffer_ln_idx else s.buffer_ln_idx
      buffer_idx := inc s.buffer_idx },?_,?_⟩
    · rw [move_right,if_pos (by rw [shows.cursor,shows.size]; omega),shows.cursor,shows.buffer,here]
      rfl
    · rw [Editor.right,next]
      exact { shows with
        cursor := by
          show inc s.buffer_idx = e.cursor + 1
          rw [shows.cursor,inc_eq (by omega)]
        inside := show e.cursor + 1 ≤ e.text.length by omega
        line := by
          show (if c = newline then inc s.buffer_ln_idx else s.buffer_ln_idx) = newlines (e.text.take (e.cursor + 1))
          split_ifs at count ⊢
          · rw [shows.line,inc_eq (by omega),count]
          · rw [shows.line,count]
            rfl }

theorem letter_shows (shows : Shows h s e) (c : UInt8) : ∃ s', letter_move c s = some s' ∧ Shows h s' (e.letter c) := by
  unfold letter_move Editor.letter
  split_ifs
  · exact left_shows shows
  · exact right_shows shows
  · exact up_shows shows
  · exact down_shows shows
  · exact ⟨s,rfl,shows⟩

/-- An edited text is shown with new colors exactly when they can be worked out. -/
theorem rerendered_iff {made : Option edit_state_t} :
    (∃ s', made.bind (rerender_color header) = some s' ∧ Shows h s' e) ↔
      (∃ s', made = some s' ∧ Shows h s' e) ∧ Colors header e.text := by
  cases made with
  | none => simp
  | some s =>
    rw [bind_some]
    cases header with
    | none => simp [rerender_color,Colors]
    | some t =>
      have same (shows : Shows h s e) : s.input_buffer.take s.current_size = e.text := by
        rw [shows.buffer,shows.size,List.take_length]
      simp only [rerender_color,Colors,Option.mem_def,some.injEq,forall_eq']
      constructor
      · rintro ⟨s',colored,shows⟩
        obtain ⟨output,made,rfl⟩ := Option.map_eq_some_iff.1 colored
        rw [same shows] at made
        exact ⟨⟨s,rfl,shows⟩,highlight_some.1 ⟨output,made⟩⟩
      · rintro ⟨⟨s',rfl,shows⟩,ends⟩
        obtain ⟨output,made⟩ := highlight_some.2 ends
        exact ⟨s,by rw [same shows,made]; rfl,shows⟩

theorem insert_block {h : Heap} {text : List UInt8} (room : text.length < h.limit) {i : Nat} (inside : i ≤ text.length)
    (input : UInt8) :
    ((realloc h text (text.length + 1)).bind fun block =>
      (memmove block (i + 1) i (text.length + 1 - i - 1)).bind fun block => store block i input) =
      some (text.take i ++ input :: text.drop i) := by
  have grown : realloc h text (text.length + 1) = some (text ++ [h.fresh]) := by
    rw [realloc,if_pos (Nat.succ_le_of_lt room),List.take_of_length_le (Nat.le_succ _),Nat.add_sub_cancel_left]
    rfl
  have rest : ((text ++ [h.fresh]).drop i).take (text.length + 1 - i - 1) = text.drop i := by
    rw [List.drop_append_of_le_length inside]
    refine List.take_left' ?_
    rw [List.length_drop]
    omega
  have none_behind : (text ++ [h.fresh]).drop (i + 1 + (text.length + 1 - i - 1)) = [] := by
    refine List.drop_eq_nil_of_le ?_
    rw [List.length_append,List.length_singleton]
    omega
  have moved : memmove (text ++ [h.fresh]) (i + 1) i (text.length + 1 - i - 1) =
      some ((text ++ [h.fresh]).take (i + 1) ++ text.drop i) := by
    rw [memmove,if_pos (by rw [List.length_append,List.length_singleton]; omega),rest,none_behind,List.append_nil]
  obtain ⟨c,here⟩ := @get_some (text ++ [h.fresh]) i (by rw [List.length_append,List.length_singleton]; omega)
  have first : (text ++ [h.fresh]).take (i + 1) = text.take i ++ [c] := by
    rw [List.take_add_one,here,List.take_append_of_le_length inside]
    rfl
  have length : (text.take i).length = i := List.length_take_of_le inside
  rw [grown,bind_some,moved,bind_some,first,store,if_pos (by simp; omega),List.append_assoc,
    List.set_append_right _ _ (by omega),length,Nat.sub_self]
  rfl

/-- An insertion is made exactly when there is memory for one byte more. -/
theorem insert_iff (shows : Shows h s e) (input : UInt8) :
    (∃ s', insert_char h input s = some s' ∧ Shows h s' (e.insert input)) ↔ s.current_size < h.limit := by
  have small := h.small
  have room := shows.room
  have inside := shows.inside
  have counted := newlines_le e.text
  have whole := newlines_split e.text e.cursor
  rw [shows.size]
  have sizes : inc s.current_size = e.text.length + 1 := by rw [shows.size,inc_eq (by omega)]
  constructor
  · rintro ⟨s',made,-⟩
    simp only [insert_char,bind_eq_bind,Option.bind_eq_some_iff] at made
    obtain ⟨block,grown,-⟩ := made
    rw [realloc,sizes] at grown
    by_contra full
    rw [if_neg (by omega)] at grown
    cases grown
  · intro fits
    have behind : minus (minus (e.text.length + 1) e.cursor) 1 = e.text.length + 1 - e.cursor - 1 := by
      have first : minus (e.text.length + 1) e.cursor = e.text.length + 1 - e.cursor := minus_eq (by omega) (by omega)
      rw [first,minus_eq (by omega) (by omega)]
    have block := insert_block fits inside input
    rw [← behind] at block
    refine ⟨{ s with
      input_buffer := e.text.take e.cursor ++ input :: e.text.drop e.cursor
      ln_cnt := if input = newline then inc s.ln_cnt else s.ln_cnt
      buffer_ln_idx := if input = newline then inc s.buffer_ln_idx else s.buffer_ln_idx
      char_cnt := if input = newline then s.char_cnt else inc s.char_cnt
      is_edited := true
      current_size := inc s.current_size
      buffer_idx := inc s.buffer_idx },?_,?_⟩
    · simp only [insert_char,sizes,shows.cursor,shows.buffer,bind_eq_bind]
      simp only [Option.bind_eq_some_iff] at block ⊢
      obtain ⟨grown,given,moved,move,stored⟩ := block
      exact ⟨grown,given,moved,move,_,stored,rfl⟩
    · have length : (e.text.take e.cursor).length = e.cursor := List.length_take_of_le inside
      have total : (e.text.take e.cursor ++ input :: e.text.drop e.cursor).length = e.text.length + 1 := by
        rw [List.length_append,List.length_cons,List.length_drop,length]
        omega
      have lines : newlines (e.text.take e.cursor ++ input :: e.text.drop e.cursor) =
          newlines e.text + if input = newline then 1 else 0 := by
        rw [newlines_append,newlines_cons,whole]
        omega
      have before : newlines ((e.text.take e.cursor ++ input :: e.text.drop e.cursor).take (e.cursor + 1)) =
          newlines (e.text.take e.cursor) + if input = newline then 1 else 0 := by
        rw [List.take_append,length,Nat.add_sub_cancel_left,List.take_of_length_le (by omega),List.take_succ_cons,
          List.take_zero,newlines_append,newlines_cons]
        rfl
      refine ⟨?_,rfl,?_,?_,?_,?_,?_,?_,shows.file,fun _ => rfl,shows.insert_mode,shows.read_only⟩
      · simp only [Editor.insert,total]
        omega
      · simp only [Editor.insert,total,sizes]
      · simp only [Editor.insert,shows.cursor]
        exact inc_eq (by omega)
      · simp only [Editor.insert,total]
        omega
      · simp only [Editor.insert,before,shows.line]
        split_ifs
        · exact inc_eq (by omega)
        · rfl
      · simp only [Editor.insert,lines,shows.lines]
        split_ifs
        · rw [inc_eq (by omega)]
          omega
        · rfl
      · simp only [Editor.insert,lines,total,shows.chars]
        split_ifs
        · omega
        · rw [inc_eq (by omega)]
          omega

/-- The bytes after the `memmove` of a deletion. -/
theorem deleted_block {text : List UInt8} {i : Nat} (positive : 0 < i) (inside : i < text.length) :
    ∃ moved, memmove text (i - 1) i (text.length - i) = some moved ∧ moved[i]? = text[min (i + 1) (text.length - 1)]? ∧
      moved.length = text.length ∧ moved.take (text.length - 1) = text.take (i - 1) ++ text.drop i := by
  have length : (text.take (i - 1) ++ text.drop i).length = text.length - 1 := by
    rw [List.length_append,List.length_take,List.length_drop]
    omega
  refine ⟨text.take (i - 1) ++ text.drop i ++ text.drop (text.length - 1),?_,?_,?_,?_⟩
  · have whole : (text.drop i).take (text.length - i) = text.drop i := List.take_of_length_le (by rw [List.length_drop])
    have last : i - 1 + (text.length - i) = text.length - 1 := by omega
    rw [memmove,if_pos (by omega),whole,last]
  · by_cases last : i = text.length - 1
    · have least : min (i + 1) (text.length - 1) = text.length - 1 + 0 := by omega
      rw [List.getElem?_append_right (by omega),length,least,← List.getElem?_drop]
      congr 1
      omega
    · have least : min (i + 1) (text.length - 1) = i + 1 := by omega
      have taken : (text.take (i - 1)).length = i - 1 := List.length_take_of_le (by omega)
      rw [List.getElem?_append_left (by omega),List.getElem?_append_right (by omega),taken,least,List.getElem?_drop]
      congr 1
      omega
  · rw [List.length_append,length,List.length_drop]
    omega
  · exact List.take_left' length

/-- What a deletion looks at: not at the end, where the byte behind the buffer is read, marked as edited, and a newline behind
    the cursor (or, before the last byte, that byte) exactly when the deleted character is one. -/
structure Deletes (s : edit_state_t) : Prop where
  before_end : s.buffer_idx < s.current_size
  edited : s.is_edited = true
  alike : s.input_buffer[min (s.buffer_idx + 1) (s.current_size - 1)]? = some newline ↔
    s.input_buffer[s.buffer_idx - 1]? = some newline

theorem backspace_at_end (shows : Shows h s e) (positive : 0 < e.cursor) (last : e.cursor = e.text.length) :
    delete_char h s = none := by
  have small := h.small
  have room := shows.room
  obtain ⟨c,here⟩ := @get_some e.text (e.cursor - 1) (by omega)
  rw [delete_char,shows.cursor,shows.size,shows.buffer,minus_eq (by omega) (by omega),here,if_pos last]
  simp [last]

theorem backspace_inside (shows : Shows h s e) (positive : 0 < e.cursor) (inside : e.cursor < e.text.length) :
    ∃ deleted tested, e.text[e.cursor - 1]? = some deleted ∧
      e.text[min (e.cursor + 1) (e.text.length - 1)]? = some tested ∧ delete_char h s = some { s with
        input_buffer := e.text.take (e.cursor - 1) ++ e.text.drop e.cursor
        buffer_ln_idx := if deleted = newline then dec s.buffer_ln_idx else s.buffer_ln_idx
        ln_cnt := if tested = newline then dec s.ln_cnt else s.ln_cnt
        char_cnt := if tested = newline then s.char_cnt else dec s.char_cnt
        current_size := e.text.length - 1
        buffer_idx := e.cursor - 1 } := by
  have small := h.small
  have room := shows.room
  obtain ⟨deleted,here⟩ := @get_some e.text (e.cursor - 1) (by omega)
  obtain ⟨tested,there⟩ := @get_some e.text (min (e.cursor + 1) (e.text.length - 1)) (by omega)
  obtain ⟨moved,move,look,length,taken⟩ := deleted_block positive inside
  have index : minus e.cursor 1 = e.cursor - 1 := minus_eq (by omega) (by omega)
  have count : minus e.text.length e.cursor = e.text.length - e.cursor := minus_eq (by omega) (by omega)
  have shorter : dec e.text.length = e.text.length - 1 := dec_eq (by omega) (by omega)
  have back : dec e.cursor = e.cursor - 1 := dec_eq (by omega) (by omega)
  have block : realloc h moved (e.text.length - 1) = some (e.text.take (e.cursor - 1) ++ e.text.drop e.cursor) := by
    rw [realloc,if_pos (by omega),taken,length,Nat.sub_eq_zero_of_le (Nat.sub_le _ _),List.replicate_zero,List.append_nil]
  refine ⟨deleted,tested,here,there,?_⟩
  rw [delete_char,shows.cursor,shows.size,shows.buffer,index,here,if_neg (Nat.ne_of_lt inside),count,move]
  simp only [bind_eq_bind,bind_some,look,there,shorter,back,block,Option.pure_def]

/-- A deletion keeps the counters exactly when what it looks at is as it should be. -/
theorem delete_iff (shows : Shows h s e) (positive : 0 < e.cursor) :
    (∃ s', delete_char h s = some s' ∧ Shows h s' e.delete) ↔ Deletes s := by
  have small := h.small
  have room := shows.room
  have counted := newlines_le e.text
  obtain last | inside := Nat.eq_or_lt_of_le shows.inside
  · rw [backspace_at_end shows positive last]
    refine ⟨fun ⟨s',given,_⟩ => (by cases given),fun deletes => ?_⟩
    have before := deletes.before_end
    rw [shows.cursor,shows.size] at before
    omega
  obtain ⟨deleted,tested,here,there,result⟩ := backspace_inside shows positive inside
  have length : (e.text.take (e.cursor - 1)).length = e.cursor - 1 := List.length_take_of_le (by omega)
  have total : (e.text.take (e.cursor - 1) ++ e.text.drop e.cursor).length = e.text.length - 1 := by
    rw [List.length_append,length,List.length_drop]
    omega
  have before := newlines_take_succ here
  rw [Nat.sub_add_cancel positive] at before
  have whole := newlines_split e.text e.cursor
  have lines := newlines_append (e.text.take (e.cursor - 1)) (e.text.drop e.cursor)
  have fewer := newlines_le (e.text.take (e.cursor - 1) ++ e.text.drop e.cursor)
  have ends : s.buffer_idx < s.current_size := by
    rw [shows.cursor,shows.size]
    exact inside
  have alike_iff : (s.input_buffer[min (s.buffer_idx + 1) (s.current_size - 1)]? = some newline ↔
      s.input_buffer[s.buffer_idx - 1]? = some newline) ↔ (tested = newline ↔ deleted = newline) := by
    rw [shows.buffer,shows.cursor,shows.size,here,there,some.injEq,some.injEq]
  rw [result]
  constructor
  · rintro ⟨_,⟨rfl⟩,after⟩
    refine ⟨ends,?_,alike_iff.mpr ?_⟩
    · by_cases same : e.text = e.saved
      · refine after.edited fun still => ?_
        have := congrArg List.length (same.trans still.symm)
        simp only [Editor.delete,total] at this
        omega
      · exact shows.edited same
    · have counts := after.lines
      simp only [Editor.delete,shows.lines,lines] at counts
      have fewer_lines : dec (1 + newlines e.text) = newlines e.text := by
        rw [dec_eq (by omega) (by omega)]
        omega
      rw [fewer_lines] at counts
      split_ifs at counts with looked <;> split_ifs at before with was <;> simp only [looked,was] <;> omega
  · rintro ⟨-,edited,alike⟩
    replace alike := alike_iff.mp alike
    refine ⟨_,rfl,?_,rfl,?_,rfl,?_,?_,?_,?_,shows.file,fun _ => edited,shows.insert_mode,shows.read_only⟩
    · simp only [Editor.delete,total]
      omega
    · simp only [Editor.delete,total]
    · simp only [Editor.delete,total]
      omega
    · have first : (e.text.take (e.cursor - 1) ++ e.text.drop e.cursor).take (e.cursor - 1) = e.text.take (e.cursor - 1) :=
        List.take_left' length
      simp only [Editor.delete,first,shows.line]
      split_ifs at before ⊢
      · rw [dec_eq (by omega) (by omega)]
        omega
      · exact before
    · simp only [Editor.delete,shows.lines,lines,alike]
      split_ifs at before ⊢
      · rw [dec_eq (by omega) (by omega)]
        omega
      · omega
    · simp only [Editor.delete,shows.chars,lines,total,alike]
      split_ifs at before ⊢
      · omega
      · rw [dec_eq (by omega) (by omega)]
        omega

/-- A backspace does nothing at the start of the text, and otherwise deletes and works out the colors. -/
theorem backspace_iff (shows : Shows h s e) : (∃ s', backspace h header s = some s' ∧ Shows h s' e.delete) ↔
    (0 < s.buffer_idx → Deletes s ∧ Colors header (s.input_buffer.take (s.buffer_idx - 1) ++ s.input_buffer.drop s.buffer_idx)) := by
  have inside := shows.inside
  rw [shows.cursor,shows.buffer,backspace,shows.cursor,shows.size]
  by_cases start : e.cursor = 0
  · have stays : e.delete = e := by
      obtain ⟨text,cursor,_,_,_⟩ := e
      obtain rfl : cursor = 0 := start
      simp [Editor.delete]
    rw [stays,if_pos (.inl (by omega))]
    exact ⟨fun _ positive => absurd positive (by omega),fun _ => ⟨s,rfl,shows⟩⟩
  · have positive : 0 < e.cursor := Nat.pos_of_ne_zero start
    rw [if_neg (by omega),rerendered_iff,delete_iff shows positive]
    exact ⟨fun fine _ => fine,fun fine => fine positive⟩

/-- A press at which the editor goes on rightly: in insert mode a backspace that deletes must look at the right characters, a
    character needs memory for one byte more, and the changed text has colors. -/
def Allowed (h : Heap) (header : Option syntax_header_t) (s : edit_state_t) : Press → Prop
  | .char input => s.read_only = false → s.is_in_insert_mode = true →
      if input = 8 then 0 < s.buffer_idx →
        Deletes s ∧ Colors header (s.input_buffer.take (s.buffer_idx - 1) ++ s.input_buffer.drop s.buffer_idx)
      else input ≠ 27 →
        s.current_size < h.limit ∧ Colors header (s.input_buffer.take s.buffer_idx ++ input :: s.input_buffer.drop s.buffer_idx)
  | _ => True

/-- The state after one press. -/
def pressed (h : Heap) (header : Option syntax_header_t) (s : edit_state_t) (key : Press) : Option edit_state_t :=
  (listen_input h header s key).map Prod.snd

theorem pressed_moves {o : Option edit_state_t} : (o.map fun s => (false,s)).map Prod.snd = o := by cases o <;> rfl

/-- The quitting keys and the others that move nothing. -/
theorem letter_other {c : UInt8} (other : c ≠ 97 ∧ c ≠ 100 ∧ c ≠ 119 ∧ c ≠ 115) (e : Editor) : e.letter c = e := by
  simp [Editor.letter,other]

theorem pressed_read_only (only : s.read_only = true) (c : UInt8) :
    pressed h header s (.char c) = if c = 113 ∨ c = 27 then some s else letter_move c s := by
  rw [pressed,listen_input,if_pos only]
  split_ifs
  · rfl
  · exact pressed_moves

theorem pressed_command (only : s.read_only = false) (commanding : s.is_in_insert_mode = false) (c : UInt8) :
    pressed h header s (.char c) = if c = 113 then some s
      else if c = 27 then some { s with is_in_insert_mode := true }
      else if c = 116 then some { s with show_tab_char := !s.show_tab_char }
      else if c = 43 then some { s with file := s.input_buffer.take s.current_size, is_edited := false }
      else letter_move c s := by
  have writable : ¬ s.read_only = true := by simp [only]
  have command : (!s.is_in_insert_mode) = true := by simp [commanding]
  rw [pressed,listen_input,if_neg writable,if_pos command,command]
  split_ifs
  all_goals first | rfl | exact pressed_moves

theorem pressed_insert (only : s.read_only = false) (inserting : s.is_in_insert_mode = true) (c : UInt8) :
    pressed h header s (.char c) = if c = 8 then backspace h header s
      else if c = 27 then some { s with is_in_insert_mode := false }
      else (insert_char h c s).bind (rerender_color header) := by
  have writable : ¬ s.read_only = true := by simp [only]
  have insert : ¬ (!s.is_in_insert_mode) = true := by simp [inserting]
  have toggled : (!s.is_in_insert_mode) = false := by simp [inserting]
  rw [pressed,listen_input,if_neg writable,if_neg insert,toggled]
  split_ifs
  all_goals first | rfl | exact pressed_moves

section
variable (shows : Shows h s e)
include shows

theorem shows_mode (mode : Bool) : Shows h { s with is_in_insert_mode := mode } { e with insert_mode := mode } :=
  ⟨shows.room,shows.buffer,shows.size,shows.cursor,shows.inside,shows.line,shows.lines,shows.chars,shows.file,shows.edited,
    rfl,shows.read_only⟩

theorem shows_tabs (tabs : Bool) : Shows h { s with show_tab_char := tabs } e :=
  ⟨shows.room,shows.buffer,shows.size,shows.cursor,shows.inside,shows.line,shows.lines,shows.chars,shows.file,shows.edited,
    shows.insert_mode,shows.read_only⟩

theorem shows_saved :
    Shows h { s with file := s.input_buffer.take s.current_size, is_edited := false } { e with saved := e.text } :=
  ⟨shows.room,shows.buffer,shows.size,shows.cursor,shows.inside,shows.line,shows.lines,shows.chars,
    by rw [shows.buffer,shows.size,List.take_length],fun differs => absurd rfl differs,shows.insert_mode,shows.read_only⟩

theorem read_only_shows (only : e.read_only = true) (c : UInt8) :
    ∃ s', pressed h header s (.char c) = some s' ∧ Shows h s' (e.press (.char c)) := by
  rw [pressed_read_only (shows.read_only.trans only),Editor.press,if_pos only]
  split_ifs with quits
  · have other : c ≠ 97 ∧ c ≠ 100 ∧ c ≠ 119 ∧ c ≠ 115 := by
      obtain rfl | rfl := quits <;> decide
    rw [letter_other other]
    exact ⟨s,rfl,shows⟩
  · exact letter_shows shows c

theorem command_shows (only : e.read_only = false) (commanding : e.insert_mode = false) (c : UInt8) :
    ∃ s', pressed h header s (.char c) = some s' ∧ Shows h s' (e.press (.char c)) := by
  have writable : ¬ e.read_only = true := by simp [only]
  have command : (!e.insert_mode) = true := by simp [commanding]
  rw [pressed_command (shows.read_only.trans only) (shows.insert_mode.trans commanding),Editor.press,if_neg writable,
    if_pos command]
  by_cases quits : c = 113
  · subst quits
    rw [if_pos rfl,if_neg (by decide),if_neg (by decide),letter_other (by decide)]
    exact ⟨s,rfl,shows⟩
  rw [if_neg quits]
  by_cases escapes : c = 27
  · rw [if_pos escapes,if_pos escapes]
    exact ⟨_,rfl,shows_mode shows true⟩
  rw [if_neg escapes,if_neg escapes]
  by_cases tabs : c = 116
  · subst tabs
    rw [if_pos rfl,if_neg (by decide),letter_other (by decide)]
    exact ⟨_,rfl,shows_tabs shows _⟩
  rw [if_neg tabs]
  by_cases saves : c = 43
  · rw [if_pos saves,if_pos saves]
    exact ⟨_,rfl,shows_saved shows⟩
  rw [if_neg saves,if_neg saves]
  exact letter_shows shows c

theorem insert_mode_iff (only : e.read_only = false) (inserting : e.insert_mode = true) (c : UInt8) :
    (∃ s', pressed h header s (.char c) = some s' ∧ Shows h s' (e.press (.char c))) ↔
      if c = 8 then 0 < s.buffer_idx →
        Deletes s ∧ Colors header (s.input_buffer.take (s.buffer_idx - 1) ++ s.input_buffer.drop s.buffer_idx)
      else c ≠ 27 →
        s.current_size < h.limit ∧ Colors header (s.input_buffer.take s.buffer_idx ++ c :: s.input_buffer.drop s.buffer_idx) := by
  have writable : ¬ e.read_only = true := by simp [only]
  have insert : ¬ (!e.insert_mode) = true := by simp [inserting]
  rw [pressed_insert (shows.read_only.trans only) (shows.insert_mode.trans inserting),Editor.press,if_neg writable,
    if_neg insert]
  by_cases deletes : c = 8
  · rw [if_pos deletes,if_pos deletes,if_pos deletes]
    exact backspace_iff shows
  rw [if_neg deletes,if_neg deletes,if_neg deletes]
  by_cases escapes : c = 27
  · rw [if_pos escapes,if_pos escapes]
    exact ⟨fun _ other => absurd escapes other,fun _ => ⟨_,rfl,shows_mode shows false⟩⟩
  · rw [if_neg escapes,if_neg escapes]
    rw [rerendered_iff,insert_iff shows c,shows.buffer,shows.cursor]
    exact ⟨fun fine _ => fine,fun fine => fine escapes⟩

theorem pressed_iff (key : Press) :
    (∃ s', pressed h header s key = some s' ∧ Shows h s' (e.press key)) ↔ Allowed h header s key := by
  cases key with
  | up => exact iff_of_true (by simpa only [pressed,listen_input,pressed_moves,Editor.press] using up_shows shows) trivial
  | down => exact iff_of_true (by simpa only [pressed,listen_input,pressed_moves,Editor.press] using down_shows shows) trivial
  | left => exact iff_of_true (by simpa only [pressed,listen_input,pressed_moves,Editor.press] using left_shows shows) trivial
  | right => exact iff_of_true (by simpa only [pressed,listen_input,pressed_moves,Editor.press] using right_shows shows) trivial
  | char c =>
    rw [Allowed,shows.read_only,shows.insert_mode]
    cases only : e.read_only with
    | true => exact iff_of_true (read_only_shows shows only c) fun writable => (by cases writable)
    | false =>
      cases inserting : e.insert_mode with
      | true => exact (insert_mode_iff shows only inserting c).trans ⟨fun allowed _ _ => allowed,fun allowed => allowed rfl rfl⟩
      | false => exact iff_of_true (command_shows shows only inserting c) fun _ insert => (by cases insert)

end

theorem count_loop_eq {text : List UInt8} {ln_cnt buffer_ln_idx char_cnt : Nat}
    (small : ln_cnt + text.length < 4294967295 ∧ buffer_ln_idx + text.length < 4294967295 ∧
      char_cnt + text.length < 4294967295) :
    count_loop text (ln_cnt,buffer_ln_idx,char_cnt) =
      (ln_cnt + newlines text,buffer_ln_idx + newlines text,char_cnt + (text.length - newlines text)) := by
  induction text generalizing ln_cnt buffer_ln_idx char_cnt with
  | nil => rfl
  | cons c text ih =>
    rw [List.length_cons] at small
    have counted := newlines_le text
    rw [count_loop,newlines_cons,List.length_cons]
    split_ifs with is
    · rw [inc_eq (by omega),inc_eq (by omega),inc_eq (by omega),dec_eq (by omega) (by omega),Nat.add_sub_cancel,ih ⟨by omega,by omega,by omega⟩]
      simp only [Prod.mk.injEq]
      omega
    · rw [inc_eq (by omega),ih ⟨by omega,by omega,by omega⟩]
      simp only [Prod.mk.injEq]
      omega

theorem initial_iff (h : Heap) (file : List UInt8) (read_only : Bool) :
    (∃ s, initial h file read_only = some s ∧ Shows h s (opened file read_only)) ↔ file.length ≤ h.limit := by
  have small := h.small
  constructor
  · rintro ⟨s,given,-⟩
    by_contra full
    rw [initial,if_neg full] at given
    cases given
  · intro fits
    have counts := @count_loop_eq file 1 0 0 ⟨by omega,by omega,by omega⟩
    rw [initial,if_pos fits,counts]
    refine ⟨_,rfl,fits,rfl,rfl,rfl,?_,?_,rfl,?_,rfl,fun differs => absurd rfl differs,rfl,rfl⟩
    · cases read_only <;> simp [opened]
    · cases read_only <;> simp [opened,newlines]
    · exact Nat.zero_add _

end

/-- The state after `main`, whose first frame works out the colors, and some presses. -/
def reached (h : Heap) (header : Option syntax_header_t) (file : List UInt8) (read_only : Bool) (keys : List Press) :
    Option edit_state_t :=
  ((initial h file read_only).bind (rerender_color header)).bind fun s => presses h header s keys

theorem reached_snoc (h : Heap) (header : Option syntax_header_t) (file : List UInt8) (read_only : Bool) (keys : List Press)
    (key : Press) : reached h header file read_only (keys ++ [key]) =
      (reached h header file read_only keys).bind fun s => pressed h header s key := by
  unfold reached presses
  cases (initial h file read_only).bind (rerender_color header) with
  | none => rfl
  | some s =>
    simp only [bind_some,List.foldlM_append,List.foldlM_cons,List.foldlM_nil,bind_eq_bind]
    cases keys.foldlM (fun s key => (listen_input h header s key).map Prod.snd) s with
    | none => rfl
    | some s' =>
      simp only [bind_some,pressed]
      cases (listen_input h header s' key).map Prod.snd <;> rfl

/-- In every run the buffer is the edited text and the counters, the mark and the bounds are right in every state exactly when
    the file fits and has colors and every press is allowed in the state it finds. -/
theorem editor_runs (h : Heap) (header : Option syntax_header_t) (file : List UInt8) (read_only : Bool) (keys : List Press) :
    (∀ before, before <+: keys → ∃ s, reached h header file read_only before = some s ∧
      Shows h s (before.foldl Editor.press (opened file read_only))) ↔
    (file.length ≤ h.limit ∧ Colors header file) ∧
      ∀ before key, before ++ [key] <+: keys → ∀ s, reached h header file read_only before = some s → Allowed h header s key := by
  have start : reached h header file read_only [] = (initial h file read_only).bind (rerender_color header) := by
    unfold reached
    cases (initial h file read_only).bind (rerender_color header) <;> rfl
  have opens : (∃ s, reached h header file read_only [] = some s ∧ Shows h s (opened file read_only)) ↔
      file.length ≤ h.limit ∧ Colors header file := by
    rw [start,rerendered_iff,initial_iff]
    rfl
  constructor
  · intro right
    refine ⟨?_,fun before key early s given => ?_⟩
    · exact opens.mp (right [] List.nil_prefix)
    · obtain ⟨s',given',shows⟩ := right before ((List.prefix_append before [key]).trans early)
      obtain rfl : s' = s := Option.some.inj (given'.symm.trans given)
      obtain ⟨next,given_next,shows_next⟩ := right _ early
      rw [reached_snoc,given,bind_some] at given_next
      rw [List.foldl_append] at shows_next
      exact (pressed_iff shows key).mp ⟨next,given_next,shows_next⟩
  · rintro ⟨fits,allowed⟩ before
    induction before using List.reverseRecOn with
    | nil =>
      intro _
      exact opens.mpr fits
    | append_singleton before key ih =>
      intro early
      obtain ⟨s,given,shows⟩ := ih ((List.prefix_append before [key]).trans early)
      obtain ⟨next,given_next,shows_next⟩ := (pressed_iff shows key).mpr (allowed before key early s given)
      refine ⟨next,by rw [reached_snoc,given,bind_some,given_next],?_⟩
      rw [List.foldl_append]
      exact shows_next

def sample_heap : Heap := ⟨65536,0,by decide⟩

/-- A backspace behind the last byte reads behind the buffer; in "a", newline, "b" one before the "b" leaves two lines counted,
    and no mark. -/
theorem backspace_wrong :
    (reached sample_heap none [97] false [.char 8]).isNone = true ∧
    (reached sample_heap none [97,10,98] false [.left,.char 8]).map (fun s => (s.input_buffer,s.ln_cnt,s.char_cnt,s.is_edited)) =
      some ([97,98],2,1,false) ∧
    ¬ ∀ before, before <+: [.left,.char 8] → ∃ s, reached sample_heap none [97,10,98] false before = some s ∧
      Shows sample_heap s (before.foldl Editor.press (opened [97,10,98] false)) := by
  have counted : (reached sample_heap none [97,10,98] false [.left,.char 8]).map
      (fun s => (s.input_buffer,s.ln_cnt,s.char_cnt,s.is_edited)) = some ([97,98],2,1,false) := by decide +kernel
  refine ⟨by decide +kernel,counted,fun right => ?_⟩
  obtain ⟨s,given,shows⟩ := right _ (List.prefix_refl _)
  rw [given,Option.map_some,some.injEq,Prod.mk.injEq,Prod.mk.injEq] at counted
  have lines := shows.lines
  rw [← shows.buffer,counted.1,counted.2.1] at lines
  exact absurd lines (by decide)

-- the word `if` at the end of the text, with brackets to be matched
example : (reached sample_heap (some (Highlighting.small_header true)) [] false [.char 105,.char 102]).isNone = true := by decide +kernel

end MicroOS.EditRuns

import MicroOS.Strings
import MicroOS.PathBuffers
import MicroOS.Scanner
import MicroOS.GrowingArrays
import MicroOS.Streams

/-! The configuration of the scheduler (`scheduler/main.c`). A result is none when a routine leaves its buffer or a table,
uses a freed array or overflows an `int`. -/

namespace MicroOS.Configuration
open Scanner GrowingArrays Ints
open Streams (forall_splits_cons)
open Option (bind_eq_bind bind_some map_some some.inj some.injEq)
open List (cons_append dropWhile_sublist drop_eq_nil_of_le drop_sublist forall_mem_cons length_append length_cons
  length_nil length_take nil_append)

inductive JobType
  | JOB_EVERY_MINUTES
  | JOB_EVERY_HOURS
  | JOB_REBOOT
  | JOB_SERVICE
  deriving DecidableEq

def MAX_JOBS : Nat := 128
def CMD_LEN : Nat := 256
def MAX_CMD : Nat := 64

structure Job where
  type : JobType
  value : Int
  hour : Int
  minute : Int
  command : List UInt8
  last_run : Int
  last_run_day : Int
  pid : Int
  retry : Int
  stopped : Bool

structure Shortcut where
  key : UInt8
  command : List UInt8

/-- `memset(j, 0, sizeof(*j))` -/
def cleared : Job := ⟨.JOB_EVERY_MINUTES,0,0,0,List.replicate CMD_LEN 0,0,0,0,0,false⟩

def strncmp : Cells → Cells → Nat → Option Int
  | _,_,0 => some 0
  | c :: s,d :: t,n + 1 => if c ≠ 0 ∧ c = d then strncmp s t n else some (Strings.char_value c - Strings.char_value d)
  | _,_,_ => none

def reboot : List UInt8 := [64,114,101,98,111,111,116]
def service : List UInt8 := [64,115,101,114,118,105,99,101]
def every : List UInt8 := [101,118,101,114,121]
def shortcut : List UInt8 := [115,104,111,114,116,99,117,116]
def Strg : List UInt8 := [83,116,114,103,43]

/-- `!strncmp(line, keyword, strlen(keyword))` -/
def begins (line : Cells) (keyword : List UInt8) : Option Bool := (strncmp line (keyword ++ [0]) keyword.length).map (· == 0)

/-- The branch of a line that begins with `every`. -/
def every_line (line : Cells) : Option Job := do
  let q ← skip_ws (line.drop 5)
  let (value,q) ← read_int q
  let q ← skip_ws q
  let (unit,q) ← read_word q (List.replicate 16 0) 16
  let c ← unit.head?
  let command ← read_rest q cleared.command CMD_LEN
  pure {cleared with type := if c = 109 then .JOB_EVERY_MINUTES else .JOB_EVERY_HOURS,value,command}

/-- The branch of a line that begins with `shortcut`: what it pushes, if its key is valid. -/
def shortcut_line (line : Cells) : Option (Option Shortcut) := do
  let (key,q) ← read_word (line.drop 9) (List.replicate 32 0) 32
  let command ← read_rest (q.drop 1) (List.replicate MAX_CMD 0) MAX_CMD
  let starts ← begins key Strg
  if starts then do
    let key ← key[5]?
    let command ← PathBuffers.strcpy (fun i => command[i]?) (List.replicate MAX_CMD 0) 0
    pure (some ⟨key,command⟩)
  else pure none

/-- The jobs up to `job_count` and the memory of the shortcuts. -/
structure Loaded where
  jobs : List Job
  heap : Memory Shortcut

def Loaded.add (s : Loaded) (j : Job) : Loaded := {s with jobs := s.jobs ++ [{j with last_run := 0}]}

/-- A turn of the loop, from the pointer to the line on. -/
def parse_line (shortcuts : Nat) (line : Cells) (s : Loaded) : Option Loaded := do
  let line ← skip_ws line
  let c ← line.head?
  if c = 0 ∨ c = 35 then pure s
  -- The next entry of the table is cleared before it is known whether the line needs it.
  else if s.jobs.length < MAX_JOBS then do
    let is_reboot ← begins line reboot
    if is_reboot then do
      let command ← read_rest (line.drop 7) cleared.command CMD_LEN
      pure (s.add {cleared with type := .JOB_REBOOT,command})
    else do
      let is_service ← begins line service
      if is_service then do
        let command ← read_rest (line.drop 8) cleared.command CMD_LEN
        pure (s.add {cleared with type := .JOB_SERVICE,command})
      else do
        let is_every ← begins line every
        if is_every then do
          let j ← every_line line
          pure (s.add j)
        else do
          let is_shortcut ← begins line shortcut
          if is_shortcut then do
            match ← shortcut_line line with
            | none => pure s
            | some sc =>
              -- The array that is returned is not kept.
              let (_,heap) ← array_push s.heap shortcuts sc
              pure {s with heap}
          else pure s
  else none

/-- `while (*p && *p != '\n')`: what is passed, and the memory from its end on. -/
def line_end : Cells → Option (List UInt8 × Cells)
  | [] => none
  | c :: p => if c ≠ 0 ∧ c ≠ newline then (line_end p).map fun (passed,p) => (c :: passed,p) else some ([],c :: p)

def parse_loop (shortcuts : Nat) : Nat → Cells → Loaded → Option Loaded
  | 0,_,_ => none
  | turns + 1,p,s => do
    let c ← p.head?
    if c ≠ 0 then do
      let (passed,q) ← line_end p
      let c ← q.head?
      -- The newline is overwritten by the end of the line.
      let (line,p) := if c ≠ 0 then (passed ++ 0 :: q.tail,q.tail) else (passed ++ q,q)
      let s ← parse_line shortcuts line s
      parse_loop shortcuts turns p s
    else pure s

/-- The jobs and the array that is returned, which has to be there for its length. -/
structure Parsed where
  jobs : List Job
  shortcuts : List Shortcut

def parse_config (file : List UInt8) : Option Parsed := do
  let buf := file ++ [0]
  let (shortcuts,heap) := array_create [] 4
  let s ← parse_loop shortcuts (buf.length + 1) buf ⟨[],heap⟩
  let returned ← block s.heap shortcuts
  pure ⟨s.jobs,returned.elements⟩

/-! ### The lines of a configuration -/

/-- The text ends at the first zero of the file. -/
def text (file : List UInt8) : List UInt8 := file.takeWhile (· ≠ 0)

def lines (file : List UInt8) : List (List UInt8) := (text file).splitOn newline

def trimmed (line : List UInt8) : List UInt8 := line.dropWhile blank

/-- A line that is neither empty nor a comment. -/
def Significant (line : List UInt8) : Prop := ∃ c rest, trimmed line = c :: rest ∧ c ≠ 35

/-- The job of what follows `every`: a number, a unit and a command. -/
def every_job (line : List UInt8) : Job :=
  let q := line.dropWhile blank
  let unit := word 16 ((q.dropWhile digit).dropWhile blank)
  {cleared with
    type := if unit.head? = some 109 then .JOB_EVERY_MINUTES else .JOB_EVERY_HOURS
    value := number (q.takeWhile digit)
    command := field CMD_LEN (rest CMD_LEN (((q.dropWhile digit).dropWhile blank).drop unit.length))}

def job_of (line : List UInt8) : Option Job :=
  if reboot <+: trimmed line then
    some {cleared with type := .JOB_REBOOT,command := field CMD_LEN (rest CMD_LEN ((trimmed line).drop 7))}
  else if service <+: trimmed line then
    some {cleared with type := .JOB_SERVICE,command := field CMD_LEN (rest CMD_LEN ((trimmed line).drop 8))}
  else if every <+: trimmed line then some (every_job ((trimmed line).drop 5))
  else none

/-- The key of a shortcut stands behind the keyword and one character, and has to fit its array. -/
def key_of (line : List UInt8) : List UInt8 := ((trimmed line).drop 9).takeWhile (!blank ·)

def shortcut_of (line : List UInt8) : Option Shortcut :=
  if shortcut <+: trimmed line ∧ Strg <+: key_of line ∧ (key_of line).length < 32 then
    some ⟨((key_of line)[5]?).getD 0,field MAX_CMD (rest MAX_CMD (((trimmed line).drop 9).dropWhile (!blank ·)))⟩
  else none

/-- The memory behind a line that some lines follow; behind the text lies `beyond`. -/
def following (beyond : Cells) : List (List UInt8) → Cells
  | [] => beyond
  | line :: rest => line ++ (if rest = [] then 0 else newline) :: following beyond rest

/-- What is left of the buffer behind the text. -/
def beyond (file : List UInt8) : Cells := ((file ++ [0]).drop ((text file).length + 1))

def next_line (after : Cells) : List UInt8 := after.takeWhile fun c => c ≠ 0 && c ≠ newline

/-- What follows a line that is the word `shortcut`: a line in whose place none is read. -/
def SkipsBare (after : Cells) : Prop :=
  (word 32 (next_line after)).length + 1 < after.length ∧ ¬ Strg <+: word 32 (next_line after)

/-- A shortcut's line that is read as itself: its key fits, and one without a command is followed by an empty line. -/
def ReadsShortcut (line after : Cells) : Prop :=
  if (trimmed line).length = 8 then SkipsBare after
  else (Strg <+: key_of line → (key_of line).length < 32) ∧
    (key_of line = (trimmed line).drop 9 → (key_of line).length < 32 →
      after ≠ [] ∧ (Strg <+: key_of line → rest MAX_CMD (next_line after) = []))

def ReadsLine (line after : Cells) : Prop :=
  (every <+: trimmed line → number (((trimmed line).drop 5).dropWhile blank |>.takeWhile digit) < 2147483648) ∧
    (shortcut <+: trimmed line → ReadsShortcut line after)

/-- The configurations that are read. -/
structure Readable (file : List UInt8) : Prop where
  jobs : ∀ before line rest, lines file = before ++ line :: rest → Significant line → (before.filterMap job_of).length < MAX_JOBS
  shortcuts : ((lines file).filterMap shortcut_of).length ≤ 4
  each : ∀ before line rest, lines file = before ++ line :: rest → ReadsLine line (following (beyond file) rest)

/-! ### Keywords -/

variable {keyword t line : List UInt8}

theorem strncmp_prefix (plain : ∀ c ∈ keyword, c ≠ 0) (s after : List UInt8) :
    ∃ d, strncmp (s ++ 0 :: after) (keyword ++ [0]) keyword.length = some d ∧ (d = 0 ↔ keyword <+: s) := by
  have differ {c d : UInt8} (other : c ≠ d) : Strings.char_value c - Strings.char_value d ≠ 0 := fun zero =>
    other (Strings.char_value_injective (Int.sub_eq_zero.mp zero))
  induction keyword generalizing s with
  | nil => exact ⟨0,by cases s <;> simp [strncmp],by simp⟩
  | cons k keyword ih =>
    rw [forall_mem_cons] at plain
    cases s with
    | nil => exact ⟨Strings.char_value 0 - Strings.char_value k,by simp [strncmp],iff_of_false (differ plain.1.symm) (by simp)⟩
    | cons c s =>
      by_cases same : c = k
      · subst same
        obtain ⟨d,compared,equal⟩ := ih plain.2 s
        exact ⟨d,by simpa [strncmp,plain.1] using compared,by simpa using equal⟩
      · refine ⟨Strings.char_value c - Strings.char_value k,by simp [strncmp,same],iff_of_false (differ same) fun begins => ?_⟩
        exact same (List.cons_prefix_cons.mp begins).1.symm

theorem begins_eq (plain : ∀ c ∈ keyword, c ≠ 0) (s after : List UInt8) :
    begins (s ++ 0 :: after) keyword = some (decide (keyword <+: s)) := by
  obtain ⟨d,compared,same⟩ := strncmp_prefix plain s after
  rw [begins,compared,map_some]
  congr 1
  rw [Bool.beq_eq_decide_eq]
  exact decide_eq_decide.mpr same

/-- A line that begins with one word begins with no other that begins otherwise. -/
theorem not_prefix {s : List UInt8} (begins : s <+: line) (differ : s.take 2 ≠ t.take 2) (long : 2 ≤ s.length ∧ 2 ≤ t.length) :
    ¬ t <+: line := by
  rintro ⟨after,rfl⟩
  obtain ⟨after',same⟩ := begins
  have starts := congrArg (List.take 2) same
  rw [List.take_append_of_le_length long.1,List.take_append_of_le_length long.2] at starts
  exact differ starts

theorem drop_append_stop {after : List UInt8} {n : Nat} (long : n ≤ t.length) : (t ++ 0 :: after).drop n = t.drop n ++ 0 :: after :=
  List.drop_append_of_le_length long

section
variable {t after : List UInt8}

theorem field_head (w : List UInt8) : (field 16 w).head? = some (w.head?.getD 0) := by
  cases w <;> simp [field,List.replicate_succ]

theorem read_command {s : List UInt8} {stop : UInt8} (inline : Inline s) (stops : Stop stop) :
    read_rest (s ++ stop :: after) cleared.command CMD_LEN = some (field CMD_LEN (rest CMD_LEN s)) :=
  read_rest_eq inline stops (by decide)

theorem every_line_eq (inline : Inline t) (long : 5 ≤ t.length) : every_line (t ++ 0 :: after) =
    (int (number (((t.drop 5).dropWhile blank).takeWhile digit))).map fun _ => every_job (t.drop 5) := by
  have part : Inline (t.drop 5) := inline.sublist (drop_sublist _ _)
  have unit_part : Inline ((((t.drop 5).dropWhile blank).dropWhile digit).dropWhile blank) :=
    part.sublist (((dropWhile_sublist _).trans (dropWhile_sublist _)).trans (dropWhile_sublist _))
  rw [every_line,drop_append_stop long,skip_ws_eq (.inl rfl),bind_eq_bind,bind_some,read_int_eq (.inl rfl)]
  cases fits : int (number (((t.drop 5).dropWhile blank).takeWhile digit)) with
  | none => rfl
  | some v =>
    obtain ⟨-,rfl⟩ := int_some.mp fits
    simp only [map_some,bind_eq_bind,bind_some]
    rw [skip_ws_eq (.inl rfl),bind_some,read_word_eq unit_part (.inl rfl) (by decide),bind_some,field_head,
      bind_some,read_command (unit_part.sublist (drop_sublist _ _)) (.inl rfl)]
    have minutes (w : List UInt8) : w.head?.getD 0 = 109 ↔ w.head? = some 109 := by
      cases w <;> simp
    simp only [bind_some,minutes]
    rfl

/-! ### Shortcuts -/

theorem field_room {w : List UInt8} (room : w.length < 32) : field 32 w = w ++ 0 :: List.replicate (31 - w.length) 0 := by
  rw [field,show 32 - w.length = 31 - w.length + 1 by omega,List.replicate_succ]

theorem field_key (w : List UInt8) (room : w.length < 32) : (field 32 w)[5]? = some ((w[5]?).getD 0) := by
  rw [field,List.getElem?_append]
  split_ifs with inside
  · simp [inside]
  · rw [List.getElem?_replicate,if_pos (by omega),List.getElem?_eq_none (by omega)]
    rfl

theorem copy_command {s : List UInt8} (plain : ∀ c ∈ s, c ≠ 0) (room : s.length < MAX_CMD) :
    PathBuffers.strcpy (fun i => (field MAX_CMD s)[i]?) (List.replicate MAX_CMD 0) 0 = some (field MAX_CMD s) := by
  have length : (List.replicate MAX_CMD (0 : UInt8)).length = MAX_CMD := List.length_replicate
  by_cases empty : s = []
  · subst empty
    rfl
  · have given (k : Nat) (inside : k < s.length) : (field MAX_CMD s)[0 + k]? = s[k]? := by
      rw [Nat.zero_add,field,List.getElem?_append_left inside]
    have ends : (field MAX_CMD s)[0 + s.length]? = some 0 := by
      rw [field,Nat.zero_add,List.getElem?_append_right (le_refl _),Nat.sub_self,List.getElem?_replicate,if_pos (by omega)]
    rw [PathBuffers.strcpy_some empty (by rw [length]; exact room.le) given (fun c later => plain c (List.mem_of_mem_tail later)) ends,
      List.drop_replicate,field]

theorem word_lt (s : List UInt8) : (word 32 s).length < 32 := by
  rw [word,length_take]
  omega

theorem rest_lt (s : List UInt8) : (rest MAX_CMD s).length < MAX_CMD := by
  rw [rest,length_take]
  unfold MAX_CMD
  omega

/-- What the branch pushes, when its two reads stay inside the buffer. -/
theorem shortcut_line_eq {line q : Cells} {w command : List UInt8} (key : read_word (line.drop 9) (List.replicate 32 0) 32 = some (field 32 w,q))
    (room : w.length < 32) (read : read_rest (q.drop 1) (List.replicate MAX_CMD 0) MAX_CMD = some (field MAX_CMD command))
    (plain : ∀ c ∈ command, c ≠ 0) (fits : command.length < MAX_CMD) :
    shortcut_line line = some (if Strg <+: w then some ⟨(w[5]?).getD 0,field MAX_CMD command⟩ else none) := by
  have starts : begins (field 32 w) Strg = some (decide (Strg <+: w)) := by
    rw [field_room room,begins_eq (by decide +kernel)]
  simp only [shortcut_line,key,bind_eq_bind,bind_some,read,starts]
  by_cases valid : Strg <+: w
  · simp [valid,field_key w room,copy_command plain fits]
  · simp [valid]

/-- Memory that is used up or ends with a zero. -/
def Ends (after : Cells) : Prop := after = [] ∨ after.getLast? = some 0

/-- Memory that ends with a zero begins with some bytes of a line and what ends it. -/
theorem Ends.split (ends : Ends after) (left : after ≠ []) :
    ∃ s stop more, after = s ++ stop :: more ∧ Inline s ∧ Stop stop ∧ Ends more ∧ next_line after = s := by
  induction after with
  | nil => exact absurd rfl left
  | cons c after ih =>
    by_cases stops : c = 0 ∨ c = newline
    · refine ⟨[],c,after,rfl,fun d mem => by simp at mem,stops,?_,?_⟩
      · cases after with
        | nil => exact .inl rfl
        | cons d after => exact .inr (by simpa [Ends] using ends)
      · rw [next_line,List.takeWhile_cons_of_neg]
        obtain rfl | rfl := stops <;> decide
    · have plain := not_or.mp stops
      have last : (c :: after).getLast? = some 0 := ends.resolve_left left
      have more : after ≠ [] := by
        rintro rfl
        simp [plain.1] at last
      have last' : after.getLast? = some 0 := by rwa [List.getLast?_cons_of_ne_nil more] at last
      obtain ⟨s,stop,rest,rfl,inline,stops',ends',next⟩ := ih (.inr last') more
      refine ⟨c :: s,stop,rest,rfl,forall_mem_cons.mpr ⟨plain,inline⟩,stops',ends',?_⟩
      rw [next_line,List.takeWhile_cons_of_pos (by simpa using plain),← next_line,next]

theorem Ends.drop (ends : Ends after) (n : Nat) : Ends (after.drop n) := by
  obtain rfl | last := ends
  · exact .inl List.drop_nil
  · by_cases short : after.length ≤ n
    · exact .inl (drop_eq_nil_of_le short)
    · exact .inr (by rw [List.getLast?_drop,if_neg short,last])

theorem rest_plain {s : List UInt8} (inline : Inline s) : ∀ c ∈ rest MAX_CMD s, c ≠ 0 := fun c mem =>
  (inline c ((dropWhile_sublist _).subset (List.mem_of_mem_take mem))).1

theorem read_rest_next (ends : Ends after) (left : after ≠ []) : Inline (next_line after) ∧
    read_rest after (List.replicate MAX_CMD 0) MAX_CMD = some (field MAX_CMD (rest MAX_CMD (next_line after))) := by
  obtain ⟨s,stop,more,rfl,inline,stops,-,next⟩ := ends.split left
  rw [next]
  exact ⟨inline,read_rest_eq inline stops (by decide)⟩

theorem word_le (s : List UInt8) : (word 32 s).length ≤ s.length :=
  ((List.take_sublist _ _).trans (List.takeWhile_sublist _)).length_le

/-- The branch of a line, from what the reads of the key and of the command find. -/
theorem shortcut_line_reads {line q : Cells} {w : List UInt8}
    (key : read_word (line.drop 9) (List.replicate 32 0) 32 = some (field 32 w,q)) (room : w.length < 32) (ends : Ends (q.drop 1)) :
    (q.drop 1 ≠ [] → shortcut_line line =
      some (if Strg <+: w then some ⟨(w[5]?).getD 0,field MAX_CMD (rest MAX_CMD (next_line (q.drop 1)))⟩ else none)) ∧
    (q.drop 1 = [] → shortcut_line line = none) := by
  constructor
  · intro left
    obtain ⟨inline,read⟩ := read_rest_next ends left
    exact shortcut_line_eq key room read (rest_plain inline) (rest_lt _)
  · intro past
    simp only [shortcut_line,key,bind_eq_bind,bind_some,past]
    rfl

/-- The word `shortcut` alone takes the next line for its key and command. -/
theorem bare_line (short : t.length = 8) (ends : Ends after) :
    ((word 32 (next_line after)).length + 1 < after.length → ∃ command, shortcut_line (t ++ 0 :: after) =
      some (if Strg <+: word 32 (next_line after) then some command else none)) ∧
    (¬ (word 32 (next_line after)).length + 1 < after.length → shortcut_line (t ++ 0 :: after) = none) := by
  have pointer : (t ++ 0 :: after).drop 9 = after := by
    rw [List.drop_append,short]
    simp [short]
  by_cases left : after = []
  · subst left
    refine ⟨fun inside => absurd inside (by simp),fun _ => ?_⟩
    rw [shortcut_line,pointer]
    rfl
  · obtain ⟨s,stop,more,split,inline,stops,-,next⟩ := ends.split left
    have behind : s.drop (word 32 s).length ++ stop :: more = after.drop (word 32 s).length := by
      rw [split,List.drop_append_of_le_length (word_le s)]
    have key : read_word ((t ++ 0 :: after).drop 9) (List.replicate 32 0) 32 =
        some (field 32 (word 32 s),after.drop (word 32 s).length) := by
      rw [pointer,← behind,split]
      exact read_word_eq inline stops (by decide)
    have reads := shortcut_line_reads key (word_lt s) ((ends.drop _).drop 1)
    rw [List.drop_drop] at reads
    rw [next]
    constructor
    · intro inside
      exact ⟨_,reads.1 (by rw [ne_eq,List.drop_eq_nil_iff]; omega)⟩
    · intro outside
      exact reads.2 (drop_eq_nil_of_le (by omega))

theorem key_inline {s : List UInt8} (long : 9 ≤ t.length) (inline : Inline t) (s_eq : s = t.drop 9) :
    read_word ((t ++ 0 :: after).drop 9) (List.replicate 32 0) 32 =
      some (field 32 (word 32 s),s.drop (word 32 s).length ++ 0 :: after) := by
  subst s_eq
  rw [drop_append_stop long]
  exact read_word_eq (inline.sublist (drop_sublist _ _)) (.inl rfl) (by decide)

/-- A key that ends its line takes its command from the next one. -/
theorem whole_key (long : 9 ≤ t.length) (inline : Inline t) (ends : Ends after) (whole : (t.drop 9).takeWhile (!blank ·) = t.drop 9)
    (room : (t.drop 9).length < 32) :
    (after ≠ [] → shortcut_line (t ++ 0 :: after) =
      some (if Strg <+: t.drop 9 then some ⟨((t.drop 9)[5]?).getD 0,field MAX_CMD (rest MAX_CMD (next_line after))⟩ else none)) ∧
    (after = [] → shortcut_line (t ++ 0 :: after) = none) := by
  have all : word 32 (t.drop 9) = t.drop 9 := by
    rw [word,whole,List.take_of_length_le (by omega)]
  have key := @key_inline t after _ long inline rfl
  rw [all,List.drop_length] at key
  exact shortcut_line_reads key room ends

/-- One that is followed by more takes what is behind the next character. -/
theorem cut_key (long : 9 ≤ t.length) (inline : Inline t) {d : UInt8} {s : List UInt8}
    (more : (t.drop 9).drop (word 32 (t.drop 9)).length = d :: s) :
    shortcut_line (t ++ 0 :: after) = some (if Strg <+: word 32 (t.drop 9) then
      some ⟨((word 32 (t.drop 9))[5]?).getD 0,field MAX_CMD (rest MAX_CMD s)⟩ else none) := by
  have key := @key_inline t after _ long inline rfl
  have part : Inline s := inline.sublist
    (((List.sublist_cons_self d s).trans (more ▸ drop_sublist _ _)).trans (drop_sublist _ _))
  rw [more] at key
  exact shortcut_line_eq key (word_lt _) (read_rest_eq part (.inl rfl) (by decide)) (rest_plain part) (rest_lt _)

end

theorem trimmed_inline (inline : Inline line) : Inline (trimmed line) := inline.sublist (dropWhile_sublist _)

theorem Strg_word (s : List UInt8) : Strg <+: word 32 s ↔ Strg <+: s.takeWhile (!blank ·) := by
  rw [word,List.prefix_take_iff]
  exact and_iff_left (by decide)

theorem field_nil_iff {s : List UInt8} (plain : ∀ c ∈ s, c ≠ 0) : field MAX_CMD s = field MAX_CMD [] ↔ s = [] := by
  constructor
  · intro same
    cases s with
    | nil => rfl
    | cons c s =>
      have first := congrArg List.head? same
      simp only [field,cons_append,List.head?_cons,nil_append,length_nil,Nat.sub_zero] at first
      exact absurd (some.inj first) (plain c (by simp))
  · rintro rfl
    rfl

/-- What is pushed for a line is its shortcut, or one too much. -/
def OneToo (line after : Cells) : Prop :=
  (shortcut_line (trimmed line ++ 0 :: after) = some (shortcut_of line) ↔ ReadsShortcut line after) ∧
    ∀ o, shortcut_line (trimmed line ++ 0 :: after) = some o → (shortcut_of line).toList.length ≤ o.toList.length

section
variable {line after : List UInt8}

theorem bare_right (ends : Ends after) (short : (trimmed line).length = 8) : OneToo line after := by
  have none_of : shortcut_of line = none := by
    refine if_neg fun valid => ?_
    have key : key_of line = [] := by rw [key_of,drop_eq_nil_of_le (by omega),List.takeWhile_nil]
    rw [key] at valid
    exact absurd valid.2.1 (by decide)
  obtain ⟨inside,outside⟩ := bare_line short ends
  rw [OneToo,none_of,ReadsShortcut,if_pos short,SkipsBare]
  refine ⟨?_,fun o _ => Nat.zero_le _⟩
  by_cases skips : (word 32 (next_line after)).length + 1 < after.length
  · obtain ⟨command,pushed⟩ := inside skips
    rw [pushed,some.injEq]
    split_ifs with starts <;> simp [starts,skips]
  · rw [outside skips]
    simp [skips]

theorem whole_right (inline : Inline line) (ends : Ends after) (long : 9 ≤ (trimmed line).length)
    (begins : shortcut <+: trimmed line) (whole : key_of line = (trimmed line).drop 9) (room : (key_of line).length < 32) :
    OneToo line after := by
  have reads := whole_key long (trimmed_inline inline) ends whole (whole ▸ room)
  have no_rest : ((trimmed line).drop 9).dropWhile (!blank ·) = [] :=
    List.dropWhile_eq_nil_iff.mpr (List.takeWhile_eq_self_iff.mp whole)
  have right : ReadsShortcut line after ↔ after ≠ [] ∧ (Strg <+: key_of line → rest MAX_CMD (next_line after) = []) := by
    rw [ReadsShortcut,if_neg (by omega)]
    exact ⟨fun reads => reads.2 whole room,fun reads => ⟨fun _ => room,fun _ _ => reads⟩⟩
  rw [OneToo,right,shortcut_of,no_rest]
  simp only [← whole] at reads
  by_cases left : after = []
  · rw [reads.2 left]
    simp [left]
  · have plain := rest_plain (read_rest_next ends left).1
    simp only [reads.1 left,begins,room,true_and,and_true,some.injEq]
    by_cases starts : Strg <+: key_of line
    · have same := field_nil_iff plain
      simp only [rest,List.dropWhile_nil,List.take_nil] at same ⊢
      simp [starts,left,same]
    · simp [starts,left]

theorem cut_right (inline : Inline line) (long : 9 ≤ (trimmed line).length) (begins : shortcut <+: trimmed line)
    (more : ¬ (key_of line = (trimmed line).drop 9 ∧ (key_of line).length < 32)) : OneToo line after := by
  have right : ReadsShortcut line after ↔ (Strg <+: key_of line → (key_of line).length < 32) := by
    rw [ReadsShortcut,if_neg (by omega)]
    exact and_iff_left fun whole room => absurd ⟨whole,room⟩ more
  have parts : key_of line ++ ((trimmed line).drop 9).dropWhile (!blank ·) = (trimmed line).drop 9 :=
    List.takeWhile_append_dropWhile
  rw [OneToo,right,shortcut_of]
  by_cases room : (key_of line).length < 32
  · -- Behind the key stands a blank, which is skipped either way.
    have all : word 32 ((trimmed line).drop 9) = key_of line := by
      rw [word,← key_of,List.take_of_length_le (by omega)]
    obtain ⟨d,s,behind⟩ : ∃ d s, ((trimmed line).drop 9).dropWhile (!blank ·) = d :: s :=
      List.exists_cons_of_ne_nil fun nothing => more ⟨by rw [← parts,nothing,List.append_nil],room⟩
    have white : blank d = true := by
      have := List.dropWhile_get_zero_not (!blank ·) ((trimmed line).drop 9) (by simp [behind])
      simpa [behind] using this
    have cut : ((trimmed line).drop 9).drop (word 32 ((trimmed line).drop 9)).length = d :: s := by
      rw [all,← parts,behind,List.drop_left]
    have same : rest MAX_CMD (d :: s) = rest MAX_CMD s := by simp [rest,white]
    rw [cut_key long (trimmed_inline inline) cut,all,behind,same]
    simp [begins,room]
  · have cut_off : (word 32 ((trimmed line).drop 9)).length = 31 := by
      rw [word,length_take,← key_of]
      omega
    obtain ⟨d,s,behind⟩ : ∃ d s, ((trimmed line).drop 9).drop (word 32 ((trimmed line).drop 9)).length = d :: s := by
      refine List.exists_cons_of_ne_nil fun nothing => ?_
      have := List.drop_eq_nil_iff.mp nothing
      have := congrArg List.length parts
      rw [length_append] at this
      omega
    rw [cut_key long (trimmed_inline inline) behind,some.injEq]
    have starts := Strg_word ((trimmed line).drop 9)
    rw [← key_of] at starts
    simp only [starts,room,and_false,if_false]
    split_ifs with valid <;> simp [valid]

/-- A shortcut's line that is read as itself is exactly one of those described; another pushes none or one too much. -/
theorem shortcut_right (inline : Inline line) (ends : Ends after) (begins : shortcut <+: trimmed line) : OneToo line after := by
  have eight : 8 ≤ (trimmed line).length := begins.length_le
  by_cases short : (trimmed line).length = 8
  · exact bare_right ends short
  · by_cases whole : key_of line = (trimmed line).drop 9 ∧ (key_of line).length < 32
    · exact whole_right inline ends (by omega) begins whole.1 whole.2
    · exact cut_right inline (by omega) begins whole

end

/-! ### Lines -/

/-- What a line adds to the jobs and to the shortcuts; there is none when it is not read within the buffer. -/
def adds (line after : Cells) : Option (Option Job × Option Shortcut) :=
  if shortcut <+: trimmed line then (shortcut_line (trimmed line ++ 0 :: after)).map fun pushed => (none,pushed)
  else if every <+: trimmed line ∧ ¬ number ((((trimmed line).drop 5).dropWhile blank).takeWhile digit) < 2147483648 then none
  else some (job_of line,none)

def Loaded.push (s : Loaded) (shortcuts : Nat) : Option Shortcut → Option Loaded
  | none => some s
  | some sc => (array_push s.heap shortcuts sc).map fun moved => {s with heap := moved.2}

theorem number_low (s : List UInt8) : 0 ≤ number (s.takeWhile digit) :=
  value_grows _ (fun _ mem => List.mem_takeWhile_imp mem) (le_refl 0)

section
variable {line after : List UInt8} {s : Loaded}

theorem parse_line_insignificant (shortcuts : Nat) (plain : ¬ Significant line) : parse_line shortcuts (line ++ 0 :: after) s = some s := by
  rw [parse_line,skip_ws_eq (.inl rfl),bind_eq_bind,bind_some,← trimmed]
  cases starts : trimmed line with
  | nil => rfl
  | cons c rest =>
    have comment : c = 35 := by
      by_contra other
      exact plain ⟨c,rest,starts,other⟩
    simp [comment]

theorem parse_line_full (shortcuts : Nat) (inline : Inline line) (significant : Significant line) (full : MAX_JOBS ≤ s.jobs.length) :
    parse_line shortcuts (line ++ 0 :: after) s = none := by
  obtain ⟨c,rest,starts,other⟩ := significant
  have plain := (trimmed_inline inline c (by simp [starts])).1
  rw [parse_line,skip_ws_eq (.inl rfl),bind_eq_bind,bind_some,← trimmed,starts]
  simp [plain,other,Nat.not_lt.mpr full]

theorem parse_line_adds (shortcuts : Nat) (inline : Inline line) (significant : Significant line) (room : s.jobs.length < MAX_JOBS) :
    parse_line shortcuts (line ++ 0 :: after) s =
      (adds line after).bind fun added => Loaded.push {s with jobs := s.jobs ++ added.1.toList} shortcuts added.2 := by
  obtain ⟨c,rest,starts,other⟩ := significant
  have plain := (trimmed_inline inline c (by simp [starts])).1
  have inline' := trimmed_inline inline
  have going : ¬ (c = 0 ∨ c = 35) := not_or.mpr ⟨plain,other⟩
  have head : (trimmed line ++ 0 :: after).head? = some c := by simp [starts]
  rw [parse_line,skip_ws_eq (.inl rfl),bind_eq_bind,bind_some,← trimmed,head,bind_eq_bind,bind_some,
    if_neg going,if_pos room,begins_eq (by decide +kernel),bind_eq_bind,bind_some,adds]
  by_cases is_reboot : reboot <+: trimmed line
  · have no_shortcut := not_prefix is_reboot (show reboot.take 2 ≠ shortcut.take 2 by decide) (by decide)
    have no_every := not_prefix is_reboot (show reboot.take 2 ≠ every.take 2 by decide) (by decide)
    have long : 7 ≤ (trimmed line).length := is_reboot.length_le
    rw [drop_append_stop long,read_command (inline'.sublist (drop_sublist _ _)) (.inl rfl)]
    simp [is_reboot,no_shortcut,no_every,job_of,Loaded.push,Loaded.add,cleared]
  · rw [decide_eq_false is_reboot,if_neg Bool.false_ne_true,begins_eq (by decide +kernel),bind_some]
    by_cases is_service : service <+: trimmed line
    · have no_shortcut := not_prefix is_service (show service.take 2 ≠ shortcut.take 2 by decide) (by decide)
      have no_every := not_prefix is_service (show service.take 2 ≠ every.take 2 by decide) (by decide)
      have long : 8 ≤ (trimmed line).length := is_service.length_le
      rw [drop_append_stop long,read_command (inline'.sublist (drop_sublist _ _)) (.inl rfl)]
      simp [is_reboot,is_service,no_shortcut,no_every,job_of,Loaded.push,Loaded.add,cleared]
    · rw [decide_eq_false is_service,if_neg Bool.false_ne_true,begins_eq (by decide +kernel),bind_some]
      by_cases is_every : every <+: trimmed line
      · have no_shortcut := not_prefix is_every (show every.take 2 ≠ shortcut.take 2 by decide) (by decide)
        have low := number_low ((((trimmed line).drop 5).dropWhile blank))
        rw [every_line_eq inline' is_every.length_le,if_neg no_shortcut]
        by_cases small : number ((((trimmed line).drop 5).dropWhile blank).takeWhile digit) < 2147483648
        · rw [int_fits ⟨by omega,small⟩]
          simp [is_reboot,is_service,is_every,small,job_of,Loaded.push,Loaded.add,every_job,cleared]
        · rw [show int (number ((((trimmed line).drop 5).dropWhile blank).takeWhile digit)) = none from if_neg fun fits => small fits.2]
          simp [is_every,small]
      · rw [decide_eq_false is_every,if_neg Bool.false_ne_true,begins_eq (by decide +kernel),bind_some]
        by_cases is_shortcut : shortcut <+: trimmed line
        · rw [decide_eq_true is_shortcut,if_pos rfl,if_pos is_shortcut]
          cases shortcut_line (trimmed line ++ 0 :: after) with
          | none => rfl
          | some pushed =>
            cases pushed with
            | none => simp [Loaded.push]
            | some sc =>
              simp only [map_some,bind_eq_bind,bind_some,Loaded.push,Option.toList_none,List.append_nil]
              cases array_push s.heap shortcuts sc <;> rfl
        · simp [is_reboot,is_service,is_every,is_shortcut,job_of,Loaded.push]

theorem insignificant_adds (plain : ¬ Significant line) : job_of line = none ∧ shortcut_of line = none ∧ adds line after = some (none,none) ∧
    ReadsLine line after := by
  have no_keyword {keyword : List UInt8} {c : UInt8} {rest : List UInt8} (word : keyword = c :: rest) (other : c ≠ 35) :
      ¬ keyword <+: trimmed line := by
    rintro ⟨more,begins⟩
    exact plain ⟨c,rest ++ more,by rw [← begins,word]; rfl,other⟩
  have no_reboot : ¬ reboot <+: trimmed line := no_keyword rfl (by decide)
  have no_service : ¬ service <+: trimmed line := no_keyword rfl (by decide)
  have no_every : ¬ every <+: trimmed line := no_keyword rfl (by decide)
  have no_shortcut : ¬ shortcut <+: trimmed line := no_keyword rfl (by decide)
  simp [job_of,shortcut_of,adds,ReadsLine,no_reboot,no_service,no_every,no_shortcut]

/-- What a line adds is its job and its shortcut exactly when it is read as itself; it is never less. -/
theorem adds_right (inline : Inline line) (ends : Ends after) :
    (adds line after = some (job_of line,shortcut_of line) ↔ ReadsLine line after) ∧
      ∀ j o, adds line after = some (j,o) → j = job_of line ∧ (shortcut_of line).toList.length ≤ o.toList.length := by
  rw [adds,ReadsLine]
  by_cases is_shortcut : shortcut <+: trimmed line
  · obtain ⟨right,more⟩ := shortcut_right inline ends is_shortcut
    have no_reboot := not_prefix is_shortcut (show shortcut.take 2 ≠ reboot.take 2 by decide) (by decide)
    have no_service := not_prefix is_shortcut (show shortcut.take 2 ≠ service.take 2 by decide) (by decide)
    have no_every := not_prefix is_shortcut (show shortcut.take 2 ≠ every.take 2 by decide) (by decide)
    have no_job : job_of line = none := by simp [job_of,no_reboot,no_service,no_every]
    simp only [no_job,no_every,is_shortcut,if_true,false_implies,true_implies,true_and,← right]
    cases pushed : shortcut_line (trimmed line ++ 0 :: after) with
    | none => simp
    | some o =>
      refine ⟨by simp,fun j o' same => ?_⟩
      obtain ⟨rfl,rfl⟩ := Prod.mk.inj (some.inj same)
      exact ⟨rfl,more o pushed⟩
  · have no_pushed : shortcut_of line = none := if_neg fun valid => is_shortcut valid.1
    simp only [no_pushed,is_shortcut,if_false,false_implies,and_true]
    by_cases unread : every <+: trimmed line ∧ ¬ number ((((trimmed line).drop 5).dropWhile blank).takeWhile digit) < 2147483648
    · simp only [if_pos unread]
      exact ⟨iff_of_false (by simp) fun reads => unread.2 (reads unread.1),fun j o none_read => by cases none_read⟩
    · simp only [if_neg unread]
      refine ⟨iff_of_true trivial fun is_every => by_contra fun large => unread ⟨is_every,large⟩,fun j o same => ?_⟩
      obtain ⟨rfl,rfl⟩ := Prod.mk.inj (some.inj same)
      exact ⟨rfl,Nat.zero_le _⟩

end

/-! ### Whole configurations -/

theorem following_ends {rest : Cells} (ends : Ends rest) (lines : List (List UInt8)) : Ends (following rest lines) := by
  induction lines with
  | nil => exact ends
  | cons line lines ih =>
    right
    rw [following,List.getLast?_append_of_ne_nil _ (by simp)]
    cases lines with
    | nil =>
      obtain rfl | last := ends
      · rfl
      · have left : rest ≠ [] := by
          rintro rfl
          cases last
        simpa [following,List.getLast?_cons_of_ne_nil left] using last
    | cons next lines =>
      have left : following rest (next :: lines) ≠ [] := by simp [following]
      rw [List.getLast?_cons_of_ne_nil left]
      exact ih.resolve_left left

/-- The turns of the loop for some lines. -/
def run (shortcuts : Nat) (rest : Cells) : List (List UInt8) → Loaded → Option Loaded
  | [],s => some s
  | line :: lines,s => (parse_line shortcuts (line ++ 0 :: following rest lines) s).bind (run shortcuts rest lines)

theorem line_end_eq {line after : List UInt8} {stop : UInt8} (inline : Inline line) (stops : Stop stop) :
    line_end (line ++ stop :: after) = some (line,stop :: after) := by
  induction line with
  | nil =>
    have ends : ¬ (stop ≠ 0 ∧ stop ≠ newline) := fun goes => stops.elim goes.1 goes.2
    simp only [nil_append,line_end,if_neg ends]
  | cons c line ih =>
    have goes := inline c (by simp)
    simp only [cons_append,line_end,if_pos goes,ih inline.tail,map_some]

theorem parse_loop_run (shortcuts : Nat) (rest : Cells) {lines : List (List UInt8)} (some_line : lines ≠ [])
    (inline : ∀ line ∈ lines, Inline line) {turns : Nat} (enough : lines.length < turns) (s : Loaded) :
    parse_loop shortcuts turns (following rest lines) s = run shortcuts rest lines s := by
  induction lines generalizing turns s with
  | nil => exact absurd rfl some_line
  | cons line lines ih =>
    obtain ⟨turns,rfl⟩ : ∃ n, turns = n + 1 := ⟨turns - 1,by omega⟩
    rw [forall_mem_cons] at inline
    rw [length_cons] at enough
    by_cases last : lines = []
    · subst last
      simp only [following,if_true,run]
      cases line with
      | nil =>
        rw [parse_line_insignificant _ (by rintro ⟨c,rest,starts,-⟩; cases starts)]
        rfl
      | cons c line =>
        have going : c ≠ 0 := (inline.1 c (by simp)).1
        obtain ⟨turns,rfl⟩ : ∃ n, turns = n + 1 := ⟨turns - 1,by omega⟩
        have line_ends := @line_end_eq (c :: line) rest 0 inline.1 (.inl rfl)
        rw [parse_loop]
        simp only [cons_append,List.head?_cons,bind_eq_bind,bind_some,if_pos going] at line_ends ⊢
        rw [line_ends]
        rfl
    · have line_ends := @line_end_eq line (following rest lines) newline inline.1 (.inr rfl)
      have newline_goes : newline ≠ 0 := by decide
      have first : ∃ c, (line ++ newline :: following rest lines).head? = some c ∧ c ≠ 0 := by
        cases line with
        | nil => exact ⟨newline,rfl,by decide⟩
        | cons c line => exact ⟨c,rfl,(inline.1 c (by simp)).1⟩
      obtain ⟨c,head,going⟩ := first
      rw [following,if_neg last,parse_loop,head,run]
      simp only [bind_eq_bind,bind_some,if_pos going,line_ends,List.head?_cons,List.tail_cons,if_pos newline_goes]
      congr 1
      funext s
      exact ih last inline.2 (by omega) s

/-- What some lines add. -/
def all_adds (rest : Cells) : List (List UInt8) → Option (List Job × List Shortcut)
  | [] => some ([],[])
  | line :: lines => do
    let (j,sc) ← adds line (following rest lines)
    let (js,scs) ← all_adds rest lines
    pure (j.toList ++ js,sc.toList ++ scs)

/-- A line is only begun while there is room for a job. -/
def Room (jobs : Nat) (lines : List (List UInt8)) : Prop :=
  ∀ before line behind, lines = before ++ line :: behind → Significant line → jobs + (before.filterMap job_of).length < MAX_JOBS

/-- What is left of the jobs and shortcuts at the end of a run. -/
def returned (shortcuts : Nat) (s : Loaded) : Option Parsed := (block s.heap shortcuts).map fun header => ⟨s.jobs,header.elements⟩

theorem room_cons {jobs : Nat} {lines : List (List UInt8)} :
    Room jobs (line :: lines) ↔ (Significant line → jobs < MAX_JOBS) ∧ Room (jobs + (job_of line).toList.length) lines := by
  unfold Room
  rw [@forall_splits_cons _ line lines fun before x _ => Significant x → jobs + (before.filterMap job_of).length < MAX_JOBS]
  have total (before : List (List UInt8)) : jobs + ((line :: before).filterMap job_of).length =
      jobs + (job_of line).toList.length + (before.filterMap job_of).length := by
    cases found : job_of line <;> simp [found]
    omega
  simp only [total,List.filterMap_nil,length_nil,Nat.add_zero]

theorem all_adds_cons {rest : Cells} {lines : List (List UInt8)} {js : List Job} {scs : List Shortcut} :
    all_adds rest (line :: lines) = some (js,scs) ↔ ∃ j o js' scs', adds line (following rest lines) = some (j,o) ∧
      all_adds rest lines = some (js',scs') ∧ js = j.toList ++ js' ∧ scs = o.toList ++ scs' := by
  rw [all_adds]
  cases added : adds line (following rest lines) with
  | none => simp
  | some first =>
    cases later : all_adds rest lines with
    | none => simp
    | some others => simp [Prod.ext_iff,eq_comm]

section
variable {rest : Cells} {lines : List (List UInt8)} {s : Loaded} {shortcuts : Nat}

section
variable (inline : ∀ line ∈ lines, Inline line)
include inline

/-- Once the array is freed nothing is returned. -/
theorem run_freed (freed : block s.heap shortcuts = none) :
    (run shortcuts rest lines s).bind (returned shortcuts) = none := by
  induction lines generalizing s with
  | nil => simp [run,returned,freed]
  | cons line lines ih =>
    rw [forall_mem_cons] at inline
    rw [run]
    by_cases significant : Significant line
    · by_cases room : s.jobs.length < MAX_JOBS
      · rw [parse_line_adds shortcuts inline.1 significant room]
        cases adds line (following rest lines) with
        | none => rfl
        | some added =>
          obtain ⟨j,o⟩ := added
          cases o with
          | none => exact ih inline.2 freed
          | some sc => simp [Loaded.push,push_freed freed]
      · rw [parse_line_full shortcuts inline.1 significant (Nat.le_of_not_lt room)]
        rfl
    · rw [parse_line_insignificant shortcuts significant]
      exact ih inline.2 freed

/-- The result of a run: there is room for the jobs, every line is read, and the array never grows. -/
theorem run_returned (ends : Ends rest) {es : List Shortcut}
    (held : block s.heap shortcuts = some ⟨4,es⟩) (few : es.length ≤ 4) (p : Parsed) :
    (run shortcuts rest lines s).bind (returned shortcuts) = some p ↔ Room s.jobs.length lines ∧
      ∃ js scs, all_adds rest lines = some (js,scs) ∧ es.length + scs.length ≤ 4 ∧ p = ⟨s.jobs ++ js,es ++ scs⟩ := by
  induction lines generalizing s es with
  | nil =>
    have room : Room s.jobs.length [] := fun before line behind split => by simp at split
    simp [run,returned,held,all_adds,room,few,eq_comm]
  | cons line lines ih =>
    rw [forall_mem_cons] at inline
    rw [run,room_cons]
    simp only [all_adds_cons]
    by_cases significant : Significant line
    · by_cases room : s.jobs.length < MAX_JOBS
      · rw [parse_line_adds shortcuts inline.1 significant room]
        have right := (adds_right inline.1 (following_ends ends lines)).2
        cases added : adds line (following rest lines) with
        | none => simp
        | some both =>
          obtain ⟨j,o⟩ := both
          obtain ⟨rfl,-⟩ := right j o added
          cases o with
          | none =>
            refine (ih inline.2 (s := {s with jobs := s.jobs ++ (job_of line).toList}) held few).trans ?_
            simp [room]
          | some sc =>
            by_cases more : es.length < 4
            · obtain ⟨heap',pushed,held'⟩ := push_room held more sc
              have next := ih inline.2 (s := ⟨s.jobs ++ (job_of line).toList,heap'⟩) held' (by simpa using more)
              simp only [bind_some,Loaded.push,pushed,map_some]
              refine next.trans ?_
              simp [room,Nat.add_assoc]
            · -- The array moves, and what is left behind is freed.
              obtain ⟨heap',pushed,freed,-⟩ := push_full held (show es.length = 4 by omega) (show 0 < 4 by decide) sc
              have none_left := @run_freed rest lines ⟨s.jobs ++ (job_of line).toList,heap'⟩ shortcuts inline.2 freed
              simp only [bind_some,Loaded.push,pushed,map_some,none_left]
              refine iff_of_false (by simp) ?_
              rintro ⟨-,js,scs,⟨j,o,js',scs',same,-,-,rfl⟩,total,-⟩
              obtain ⟨-,rfl⟩ := Prod.mk.inj (some.inj same)
              simp only [Option.toList_some,cons_append,nil_append,length_cons] at total
              omega
      · rw [parse_line_full shortcuts inline.1 significant (Nat.le_of_not_lt room)]
        simp [significant,room]
    · obtain ⟨no_job,-,added,-⟩ := @insignificant_adds line (following rest lines) significant
      rw [parse_line_insignificant shortcuts significant,bind_some,ih inline.2 held few]
      simp [significant,no_job,added]

/-- What the lines add are their jobs and at least as many shortcuts as there are. -/
theorem all_adds_more (ends : Ends rest) {js : List Job} {scs : List Shortcut}
    (added : all_adds rest lines = some (js,scs)) : js = lines.filterMap job_of ∧ (lines.filterMap shortcut_of).length ≤ scs.length := by
  induction lines generalizing js scs with
  | nil =>
    obtain ⟨rfl,rfl⟩ := Prod.mk.inj (some.inj added)
    exact ⟨rfl,le_refl _⟩
  | cons line lines ih =>
    rw [forall_mem_cons] at inline
    obtain ⟨j,o,js',scs',first,others,rfl,rfl⟩ := all_adds_cons.mp added
    obtain ⟨rfl,more⟩ := (adds_right inline.1 (following_ends ends lines)).2 j o first
    obtain ⟨rfl,more'⟩ := ih inline.2 others
    constructor
    · cases found : job_of line <;> simp [found]
    · rw [length_append]
      cases found : shortcut_of line with
      | none =>
        rw [List.filterMap_cons_none found]
        omega
      | some sc =>
        rw [found,Option.toList_some,List.length_singleton] at more
        rw [List.filterMap_cons_some found,length_cons]
        omega

/-- They are these exactly when every line is read as itself. -/
theorem all_adds_iff (ends : Ends rest) :
    all_adds rest lines = some (lines.filterMap job_of,lines.filterMap shortcut_of) ↔
      ∀ before line behind, lines = before ++ line :: behind → ReadsLine line (following rest behind) := by
  induction lines with
  | nil => simp [all_adds]
  | cons line lines ih =>
    rw [forall_mem_cons] at inline
    obtain ⟨right,more⟩ := adds_right inline.1 (following_ends ends lines)
    rw [@forall_splits_cons _ line lines fun _ x behind => ReadsLine x (following rest behind),← right,← ih inline.2,all_adds_cons]
    have jobs_cons : (line :: lines).filterMap job_of = (job_of line).toList ++ lines.filterMap job_of := by
      cases found : job_of line <;> simp [found]
    have shortcuts_cons : (line :: lines).filterMap shortcut_of = (shortcut_of line).toList ++ lines.filterMap shortcut_of := by
      cases found : shortcut_of line <;> simp [found]
    rw [jobs_cons,shortcuts_cons]
    constructor
    · rintro ⟨j,o,js,scs,first,others,same_jobs,same_shortcuts⟩
      obtain ⟨rfl,long⟩ := more j o first
      obtain ⟨rfl,long'⟩ := all_adds_more inline.2 ends others
      -- Neither part is shorter, so that both are of the same length.
      have lengths := congrArg List.length same_shortcuts
      rw [length_append,length_append] at lengths
      obtain ⟨same,same'⟩ := List.append_inj same_shortcuts (by omega)
      have one : shortcut_of line = o := by simpa using congrArg List.head? same
      rw [first,others,← one,← same']
      exact ⟨rfl,rfl⟩
    · rintro ⟨first,others⟩
      exact ⟨_,_,_,_,first,others,rfl,rfl⟩

end

end

/-! ### Files -/

theorem text_zero (file : List UInt8) : file ++ [0] = text file ++ 0 :: beyond file := by
  have split : ∃ rest, file ++ [0] = text file ++ 0 :: rest := by
    unfold text
    induction file with
    | nil => exact ⟨[],rfl⟩
    | cons c file ih =>
      by_cases zero : c = 0
      · subst zero
        exact ⟨file ++ [0],by simp⟩
      · obtain ⟨rest,split⟩ := ih
        exact ⟨rest,by simp [zero,split]⟩
  obtain ⟨rest,split⟩ := split
  rw [beyond,split,List.drop_append,drop_eq_nil_of_le (Nat.le_succ _)]
  simp

theorem splitOn_lines (s : List UInt8) (plain : ∀ c ∈ s, c ≠ 0) (rest : Cells) :
    s.splitOn newline ≠ [] ∧ (∀ line ∈ s.splitOn newline, Inline line) ∧ following rest (s.splitOn newline) = s ++ 0 :: rest ∧
      (s.splitOn newline).length ≤ s.length + 1 := by
  induction s with
  | nil => simp [Inline,following]
  | cons c s ih =>
    rw [forall_mem_cons] at plain
    obtain ⟨some_line,inline,memory,count⟩ := ih plain.2
    rw [List.splitOn_cons_eq_if_modifyHead]
    by_cases ends : c = newline
    · simp only [ends,beq_self_eq_true,if_true]
      refine ⟨by simp,forall_mem_cons.mpr ⟨fun d mem => by simp at mem,inline⟩,?_,by simpa using count⟩
      rw [following,if_neg some_line,memory]
      rfl
    · obtain ⟨line,lines,parts⟩ := List.exists_cons_of_ne_nil some_line
      rw [parts,forall_mem_cons] at inline
      rw [parts] at memory count
      simp only [beq_iff_eq,ends,if_false,parts,List.modifyHead_cons]
      refine ⟨by simp,forall_mem_cons.mpr ⟨forall_mem_cons.mpr ⟨⟨plain.1,ends⟩,inline.1⟩,inline.2⟩,?_,?_⟩
      · rw [cons_append,← memory]
        rfl
      · simp only [length_cons] at count ⊢
        omega

theorem beyond_ends (file : List UInt8) : Ends (beyond file) := Ends.drop (.inr List.getLast?_concat) _

/-- What is read of a file: there is room for the jobs, every line adds something and the shortcuts fit their array. -/
theorem parse_config_iff (file : List UInt8) (p : Parsed) : parse_config file = some p ↔ Room 0 (lines file) ∧
    ∃ js scs, all_adds (beyond file) (lines file) = some (js,scs) ∧ scs.length ≤ 4 ∧ p = ⟨js,scs⟩ := by
  have plain : ∀ c ∈ text file, c ≠ 0 := fun c mem => by simpa using List.mem_takeWhile_imp mem
  obtain ⟨some_line,inline,memory,count⟩ := splitOn_lines (text file) plain (beyond file)
  have size : (file ++ [0]).length = (text file).length + 1 + (beyond file).length := by
    rw [text_zero]
    simp
    omega
  have parsed : parse_config file = (run 0 (beyond file) (lines file) ⟨[],[some ⟨4,[]⟩]⟩).bind (returned 0) := by
    rw [parse_config]
    simp only [array_create,length_nil,nil_append]
    rw [size,text_zero,← memory,parse_loop_run 0 (beyond file) some_line inline (by omega)]
    simp only [bind_eq_bind,Option.pure_def]
    congr 1
    funext s
    rw [returned,Option.map_eq_bind]
    rfl
  rw [parsed,@run_returned (beyond file) (lines file) ⟨[],[some ⟨4,[]⟩]⟩ 0 inline (beyond_ends file) [] rfl (by decide)]
  simp

theorem lines_inline (file : List UInt8) : ∀ line ∈ lines file, Inline line :=
  (splitOn_lines (text file) (fun c mem => by simpa using List.mem_takeWhile_imp mem) (beyond file)).2.1

/-- Of whatever file is read, the jobs are those of its lines. -/
theorem parse_config_jobs {file : List UInt8} {p : Parsed} (read : parse_config file = some p) :
    Room 0 (lines file) ∧ p.jobs = (lines file).filterMap job_of := by
  obtain ⟨room,js,scs,added,-,rfl⟩ := (parse_config_iff file p).mp read
  exact ⟨room,(all_adds_more (lines_inline file) (beyond_ends file) added).1⟩

/-- The configurations that are read: what the scheduler then holds are their jobs and shortcuts, in order. -/
theorem configuration_read (file : List UInt8) :
    parse_config file = some ⟨(lines file).filterMap job_of,(lines file).filterMap shortcut_of⟩ ↔ Readable file := by
  have right := all_adds_iff (lines_inline file) (beyond_ends file)
  rw [parse_config_iff]
  constructor
  · rintro ⟨room,js,scs,added,few,same⟩
    obtain ⟨rfl,rfl⟩ := Parsed.mk.inj same
    exact ⟨fun before line behind split significant => by simpa using room before line behind split significant,few,right.mp added⟩
  · rintro ⟨room,few,each⟩
    exact ⟨fun before line behind split significant => by simpa using room before line behind split significant,_,_,right.mpr each,
      few,rfl⟩

/-- `shortcut Strg+A a` and the end of the line. -/
def shortcut_A : List UInt8 := shortcut ++ [32] ++ Strg ++ [65,32,97,10]

/-- The keyword at the end of the file is followed out of the buffer, and a fifth shortcut frees the array that is returned. -/
theorem keyword_at_end :
    parse_config shortcut ≠ some ⟨(lines shortcut).filterMap job_of,(lines shortcut).filterMap shortcut_of⟩ ∧
      parse_config (shortcut_A ++ shortcut_A ++ shortcut_A ++ shortcut_A ++ shortcut_A) ≠
        some ⟨(lines (shortcut_A ++ shortcut_A ++ shortcut_A ++ shortcut_A ++ shortcut_A)).filterMap job_of,
          (lines (shortcut_A ++ shortcut_A ++ shortcut_A ++ shortcut_A ++ shortcut_A)).filterMap shortcut_of⟩ := by
  have outside : parse_config shortcut = none := rfl
  have freed : parse_config (shortcut_A ++ shortcut_A ++ shortcut_A ++ shortcut_A ++ shortcut_A) = none := rfl
  rw [outside,freed]
  exact ⟨nofun,nofun⟩

end MicroOS.Configuration

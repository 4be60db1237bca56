import Mathlib.Tactic

/-!
The text console: the cursor and the screen of each terminal, and the escape
sequences that `ansi.c` collects for them. The four arrays that collect them lie one
behind the other in the driver, and the code indexes them by the number of the
terminal, 1 to 4; they are one memory here, and an access outside of it has no
result. Every call also returns what it wrote to the screen it writes to.
-/
namespace MicroOS.Console
open Function (update)

abbrev Word := BitVec 32

def SCREEN_WIDTH : Int := 80
def SCREEN_HEIGHT : Int := 25
def MAX_VTERM : Nat := 4

/-- A cell's two bytes, character and color, stand at twice its number. -/
abbrev Screen := Int → UInt8
abbrev Writes := List (Int × UInt8)

def store (screen : Screen) (writes : Writes) : Screen :=
  writes.foldl (fun s w => update s w.1 w.2) screen

structure Vterm where
  x : Int
  y : Int
  color : Word
  buffer : Screen

structure Display where
  video : Screen
  vterms : Nat → Vterm
  current_term : Nat
  /-- `ansi_esc`, `ansi_esc_buffer`, `ansi_esc_buffer_index` and `ansi_bright`. -/
  ansi : Nat → UInt8

def Display.vterm (s : Display) (term : Nat) : Vterm := s.vterms (term - 1)
def Display.setVterm (s : Display) (term : Nat) (v : Vterm) : Display :=
  { s with vterms := update s.vterms (term - 1) v }

/-- The screen that writes to a terminal go to. -/
def Display.screen (s : Display) (term : Nat) : Screen :=
  if s.current_term = term then s.video else (s.vterm term).buffer
def Display.show (s : Display) (term : Nat) (writes : Writes) : Display :=
  if s.current_term = term then { s with video := store s.video writes }
  else s.setVterm term { s.vterm term with buffer := store (s.vterm term).buffer writes }

/-- Both bytes of a cell. -/
def cell (v : Vterm) (c : UInt8) (i : Int) : Writes := [(2 * i,c),(2 * i + 1,UInt8.ofNat v.color.toNat)]
def blanks (v : Vterm) (start_pos end_pos : Int) : Writes :=
  (List.range (end_pos - start_pos).toNat).flatMap (fun i : Nat => cell v 32 (start_pos + i))

/-- Moves every line up by one and clears the last. -/
def scroll (screen : Screen) : Writes :=
  (List.range 3840).map (fun i : Nat => ((i : Int),screen (i + 160))) ++
    (List.range 160).map (fun i : Nat => ((i : Int) + 3840,0))

/-- A newline, and any character behind the end of a line, goes to the next line. -/
def wrap (v : Vterm) (c : UInt8) : Vterm :=
  if c = 10 ∨ v.x > SCREEN_WIDTH - 1 then { v with x := 0, y := v.y + 1 } else v

/-- Behind the last line the screen is scrolled. -/
def settle (screen : Screen) (v : Vterm) : Vterm × Writes :=
  if v.y > SCREEN_HEIGHT - 1 then ({ v with y := v.y - 1 },scroll screen) else (v,[])

/-- What `text_console_putc` does with a character that belongs to no escape. A return,
    a tab and a backspace end before the scroll. -/
def put (screen : Screen) (v : Vterm) (c : UInt8) : Vterm × Writes :=
  let v := wrap v c
  if c = 13 then ({ v with x := 0 },[])
  else if c = 9 then ({ v with x := if v.x.tmod 4 = 0 then v.x + 4 else v.x + (4 - v.x.tmod 4) },[])
  else if c = 8 then
    let v := if v.x > 0 then { v with x := v.x - 1 } else v
    (v,cell v 32 (v.y * SCREEN_WIDTH + v.x))
  else
    let (v,moved) := settle screen v
    if c = 10 then (v,moved)
    else ({ v with x := v.x + 1 },moved ++ cell v c (v.y * SCREEN_WIDTH + v.x))

def text_console_clrscr (s : Display) (term : Nat) : Display × Writes :=
  let v := s.vterm term
  let w := blanks v 0 (25 * 80)
  let s := s.show term w
  (s.setVterm term { s.vterm term with x := 0, y := 0 },w)

/-- The cells that an erase covers, given the cursor's line and place in it. -/
def display_range (v : Vterm) (mode : Int) : Option (Int × Int) :=
  let total_cells := SCREEN_WIDTH * SCREEN_HEIGHT
  let current_pos := v.y * SCREEN_WIDTH + v.x
  match mode with
  | 0 => some (current_pos,total_cells)
  | 1 => some (0,current_pos + 1)
  | 2 | 3 => some (0,total_cells)
  | _ => none

def line_range (v : Vterm) (mode : Int) : Option (Int × Int) :=
  let line_start := v.y * SCREEN_WIDTH
  match mode with
  | 0 => some (line_start + v.x,line_start + SCREEN_WIDTH)
  | 1 => some (line_start,line_start + v.x + 1)
  | 2 => some (line_start,line_start + SCREEN_WIDTH)
  | _ => none

def erase (s : Display) (term : Nat) (range : Option (Int × Int)) : Display × Writes :=
  match range with
  | none => (s,[])
  | some (start_pos,end_pos) =>
    let w := blanks (s.vterm term) start_pos end_pos
    (s.show term w,w)

def text_console_erase_display (s : Display) (term : Nat) (mode : Int) : Display × Writes :=
  erase s term (display_range (s.vterm term) mode)
def text_console_erase_line (s : Display) (term : Nat) (mode : Int) : Display × Writes :=
  erase s term (line_range (s.vterm term) mode)

def text_console_vcursor (s : Display) (term : Nat) (x y : Int) : Display :=
  s.setVterm term { s.vterm term with x := x, y := y }

def color_table : List String :=
  ["black","blue","green","cyan","red","magenta","brown","light_grey","grey","light_blue","light_green","light_cyan",
    "light_red","light_magenta","yellow","white"]

def text_console_set_color (s : Display) (term : Nat) (color : String) (background : Bool) : Display :=
  let v := s.vterm term
  let i := BitVec.ofNat 32 (color_table.findIdx (· == color))
  s.setVterm term { v with color := if background then (i <<< 4) ||| (v.color &&& 0xF) else i ||| (v.color &&& 0xF0) }

def ANSI_FIELDS : Nat := 152
def ansi_esc (term : Nat) : Nat := term
def ansi_esc_buffer (term : Nat) : Nat := 4 + 32 * term
def ansi_esc_buffer_index (term : Nat) : Nat := 132 + 4 * term
def ansi_bright (term : Nat) : Nat := 148 + term

def color_pallet : List String := ["black","red","green","yellow","blue","magenta","cyan","white"]
def color_pallet_bright : List String :=
  ["grey","light_red","light_green","yellow","light_blue","light_magenta","light_cyan","white"]

def isalpha (c : UInt8) : Bool := (97 ≤ c && c ≤ 122) || (65 ≤ c && c ≤ 90)
def isdigit (c : UInt8) : Bool := 48 ≤ c && c ≤ 57

/-- The value of a digit in any of the bases. -/
def digit (c : UInt8) : Option Nat :=
  if 48 ≤ c && c ≤ 57 then some (c.toNat - 48)
  else if 97 ≤ c && c ≤ 102 then some (c.toNat - 97 + 10)
  else if 65 ≤ c && c ≤ 70 then some (c.toNat - 65 + 10)
  else none

def parse_digits (number_system_base : Word) : List UInt8 → Word → Word × List UInt8
  | [], number => (number,[])
  | c :: rest, number =>
    match digit c with
    | some d => parse_digits number_system_base rest (number * number_system_base + BitVec.ofNat 32 d)
    | none => (number,c :: rest)

def parse_number : List UInt8 → Word × List UInt8
  | 48 :: 120 :: rest => parse_digits 16 rest 0
  | 48 :: 98 :: rest => parse_digits 2 rest 0
  | input => parse_digits 10 input 0

inductive Parsed where
  /-- Reading went on behind the fields. -/
  | leaves
  /-- The sequence is malformed; these parameters were stored before that was seen. -/
  | nothing (argv : List Word)
  | command (f : UInt8) (argv : List Word)

/-- How many parameters were stored in `args`. -/
def Parsed.stored : Parsed → Nat
  | .leaves => 0
  | .nothing argv => argv.length
  | .command _ argv => argv.length

/-- The loop over the parameters; each turn takes at least one character. -/
def parameters : Nat → List UInt8 → List Word → Parsed
  | 0, _, _ => .leaves
  | _ + 1, [], _ => .leaves
  | fuel + 1, c :: rest, args =>
    if c = 59 then parameters fuel (parse_number rest).2 (args ++ [(parse_number rest).1])
    else if isalpha c then .command c args
    else if c = 0 then .nothing args
    else if !isdigit c then .nothing args
    else parameters fuel (parse_number (c :: rest)).2 (args ++ [(parse_number (c :: rest)).1])

def parse_ansi : List UInt8 → Parsed
  | 27 :: 91 :: rest => parameters (rest.length + 1) rest []
  | _ => .nothing []

/-- The fields from the start of a terminal's escape buffer on. -/
def collected (ansi : Nat → UInt8) (term : Nat) : List UInt8 :=
  (List.range (ANSI_FIELDS - ansi_esc_buffer term)).map (fun i => ansi (ansi_esc_buffer term + i))

def setBright (s : Display) (term : Nat) (b : UInt8) : Option Display :=
  if ansi_bright term < ANSI_FIELDS then some { s with ansi := update s.ansi (ansi_bright term) b } else none

/-- The names that `m` with a color chooses from. -/
def pallet (s : Display) (term : Nat) : Option (List String) :=
  if ansi_bright term < ANSI_FIELDS then
    some (if s.ansi (ansi_bright term) ≠ 0 then color_pallet_bright else color_pallet)
  else none

def plain_colors (s : Display) (term : Nat) : Option Display :=
  setBright (text_console_set_color (text_console_set_color s term "black" true) term "white" false) term 0

/-- One parameter of `m`. -/
def ansi_color (term : Nat) (s : Display) (a : Word) : Option Display :=
  let i := a.toInt
  if i = 0 then plain_colors s term
  else if i = 1 then setBright s term 1
  else if 30 ≤ i ∧ i ≤ 37 then
    (pallet s term).map (fun names => text_console_set_color s term (names.getD (i - 30).toNat "") false)
  else if 40 ≤ i ∧ i ≤ 47 then
    (pallet s term).map (fun names => text_console_set_color
      (text_console_set_color s term (color_pallet.getD (i - 40).toNat "") true) term (names.getD (i - 40).toNat "") true)
  else some s

def ansi_run (s : Display) (term : Nat) (f : UInt8) (argv : List Word) : Option (Display × Writes) :=
  if f = 109 then
    match argv with
    | [] => (plain_colors s term).map (fun s => (s,[]))
    | _ => (argv.foldlM (ansi_color term) s).map (fun s => (s,[]))
  else if f = 72 then
    match argv with
    | [a,b] => some (text_console_vcursor s term (min 25 b.toInt - 1) (min 80 a.toInt - 1),[])
    | _ => some (text_console_vcursor s term 0 0,[])
  else if f = 74 then some (text_console_erase_display s term (argv.headD 0).toInt)
  else if f = 75 then some (text_console_erase_line s term (argv.headD 0).toInt)
  else some (s,[])

/-- `args` has room for 32 parameters, also for those of a sequence that turns out to be malformed. -/
def ansi_process_args (s : Display) (term : Nat) : Option (Display × Writes) :=
  match parse_ansi (collected s.ansi term) with
  | .leaves => none
  | .nothing argv => if argv.length ≤ 32 then some (s,[]) else none
  | .command f argv => if argv.length ≤ 32 then ansi_run s term f argv else none

/-- Where the next character of an escape goes; `ansi_esc_buffer_index` is an `int`. -/
def place (ansi : Nat → UInt8) (term : Nat) : Int :=
  let index := (List.range 4).foldr (fun k n => n * 2 ^ 8 + (ansi (ansi_esc_buffer_index term + k)).toNat) 0
  ansi_esc_buffer term + (BitVec.ofNat 32 index).toInt

def setIndex (ansi : Nat → UInt8) (term : Nat) (index : Word) : Nat → UInt8 := fun i =>
  if ansi_esc_buffer_index term ≤ i ∧ i < ansi_esc_buffer_index term + 4 then
    UInt8.ofNat (index.toNat / 2 ^ (8 * (i - ansi_esc_buffer_index term)))
  else ansi i

def inFields (at_ : Int) : Bool := 0 ≤ at_ && at_ < ANSI_FIELDS

/-- Whether a character belongs to an escape. -/
def escaping (ansi : Nat → UInt8) (term : Nat) (c : UInt8) : Bool := c == 27 || ansi (ansi_esc term) != 0

/-- The fields after a character of an escape was kept; the index is stepped before. -/
def keep (ansi : Nat → UInt8) (term : Nat) (c : UInt8) : Nat → UInt8 :=
  let ansi := if c = 27 then update ansi (ansi_esc term) 1 else ansi
  let at_ := place ansi term
  update (setIndex ansi term (BitVec.ofInt 32 (at_ - ansi_esc_buffer term + 1))) at_.toNat c

/-- The fields once an escape is complete. -/
def finish (ansi : Nat → UInt8) (term : Nat) : Nat → UInt8 :=
  setIndex (update (update ansi (place ansi term).toNat 0) (ansi_esc term) 0) term 0

/-- The character that is left to print is 0 when an escape took it. -/
def ansi_process (s : Display) (term : Nat) (c : UInt8) : Option (Display × Writes × UInt8) :=
  if escaping s.ansi term c then
    if inFields (place s.ansi term) then
      let ansi := keep s.ansi term c
      if isalpha c then
        if inFields (place ansi term) then
          (ansi_process_args { s with ansi := finish ansi term } term).map (fun (s,w) => (s,w,0))
        else none
      else some ({ s with ansi := ansi },[],0)
    else none
  else some (s,[],c)

/-- The driver passes itself, so `driver` is never NULL here. -/
def text_console_putc (s : Display) (term : Nat) (c : UInt8) : Option (Display × Writes) :=
  match ansi_process s term c with
  | none => none
  | some (s,w,c) =>
    if c = 0 then some (s,w)
    else
      let (v,w') := put (s.screen term) (s.vterm term) c
      some ((s.setVterm term v).show term w',w ++ w')

def text_console_puts (s : Display) (term : Nat) : List UInt8 → Option (Display × Writes)
  | [] => some (s,[])
  | c :: rest =>
    match text_console_putc s term c with
    | none => none
    | some (s,w) => (text_console_puts s term rest).map (fun (s,w') => (s,w ++ w'))

/-- The bytes of a whole screen. -/
def copied (screen : Screen) : Writes := (List.range (80 * 25 * 2)).map (fun i : Nat => ((i : Int),screen i))

/-- The shown terminal's screen is put away and the other one's is shown. -/
def text_console_vterm (s : Display) (term : Nat) : Display × Writes :=
  let old := s.current_term
  let kept := copied s.video
  let s := s.setVterm old { s.vterm old with buffer := store (s.vterm old).buffer kept }
  let shown := copied (s.vterm term).buffer
  ({ s with video := store s.video shown, current_term := term },kept ++ shown)

def WHITE_ON_BLACK : Word := 0x0F

/-- The console before its driver is initialised, over any memory for the screens. -/
def text_console_early (video : Screen) (buffers : Nat → Screen) : Display where
  video := video
  vterms i := ⟨0,0,if i = 0 then WHITE_ON_BLACK else 0,buffers i⟩
  current_term := 1
  ansi _ := 0

def nothing_to_see_here : List UInt8 :=
  [110,111,116,104,105,110,103,32,116,111,32,115,101,101,32,104,101,114,101,10]

/-- What the initialisation does for one of the terminals behind the first. -/
def init_vterm (s : Display) (term : Nat) : Option (Display × Writes) :=
  let s := s.setVterm term { s.vterm term with x := 0, y := 0, color := WHITE_ON_BLACK }
  let cleared := text_console_clrscr s term
  (text_console_puts cleared.1 term nothing_to_see_here).map (fun (s,w) => (s,cleared.2 ++ w))

def init_vterms (s : Display) : List Nat → Option (Display × Writes)
  | [] => some (s,[])
  | term :: terms =>
    match init_vterm s term with
    | none => none
    | some (s,w) => (init_vterms s terms).map (fun (s,w') => (s,w ++ w'))

def text_console_driver_init (s : Display) : Option (Display × Writes) := init_vterms s [2,3,4]

end MicroOS.Console

import Mathlib.Data.List.DropRight
import MicroOS.ConsoleBounds
import MicroOS.Unwinding

/-!
The terminals one by one. What was typed on a terminal, and where its cursor stands, is
decided by the characters written to it: `content_apart`. The cursor on the screen is
another matter, since a newline does not move it: it is where the characters put it
exactly when the newlines since it was last set leave it in place (`apart_iff`).
-/
namespace MicroOS.Terminals
open Console Runs Unwinding
open ConsoleBounds (Action OnScreen AllOn allOn_setVterm allOn_show put_on plain_putc init_vterms_kept)
open Option (map_eq_some_iff map_some some.inj some_inj)

/-- The console and the place at which the video card shows the cursor. -/
structure Machine where
  display : Display
  cursor : BitVec 16

/-- A terminal's cursor the way `text_console_setcursor` gets it. -/
def location (v : Vterm) : BitVec 16 := BitVec.ofInt 16 (v.y * SCREEN_WIDTH + v.x)

/-- Whether `text_console_setcursor` is called for a character of the current terminal: for
    a printed one, a backspace, and the escape that moves the cursor. A newline, a tab and
    a return end before it. -/
def sets_cursor (s : Display) (term : Nat) (c : UInt8) : Bool :=
  if escaping s.ansi term c then
    isalpha c && (match parse_ansi (collected (finish (keep s.ansi term c) term) term) with
      | .command f _ => f == 72
      | _ => false)
  else c != 0 && c != 13 && c != 9 && c != 10

def text_console_driver_putc (m : Machine) (term : Nat) (c : UInt8) : Option Machine :=
  (text_console_putc m.display term c).map (fun (s,_) =>
    ⟨s,if m.display.current_term = term ∧ sets_cursor m.display term c = true then location (s.vterm term) else m.cursor⟩)

def text_console_driver_vterm (m : Machine) (term : Nat) : Machine :=
  ⟨(text_console_vterm m.display term).1,location (m.display.vterm term)⟩

/-- Before there is a driver the characters go to the screen itself, and escapes, too. -/
def early_putc (s : Display) (c : UInt8) : Display :=
  let (v,w) := put s.video (s.vterm 1) c
  { s.setVterm 1 v with video := store s.video w }

/-- From the cleared screen to the driver, with what was printed in between. -/
def boot (video : Screen) (buffers : Nat → Screen) (text : List UInt8) : Option Display :=
  let cleared := (text_console_clrscr (text_console_early video buffers) 1).1
  (text_console_driver_init (text.foldl early_putc cleared)).map Prod.fst

/-- Printable characters and newlines. -/
def Plain (c : UInt8) : Prop := c = 10 ∨ (32 ≤ c ∧ c ≠ 127)

def Typed : Action → Prop
  | .write _ c => Plain c
  | .switch _ => True

def perform (m : Machine) : Action → Option Machine
  | .write term c => text_console_driver_putc m term c
  | .switch term => some (text_console_driver_vterm m term)

def terminals : System Machine Action where
  start m := ∃ video buffers text, (∀ c ∈ text, Plain c) ∧ boot video buffers text = some m.display
  step m a m' := 1 ≤ a.term ∧ a.term ≤ MAX_VTERM ∧ Typed a ∧ perform m a = some m'

abbrev Term := { t : Nat // 1 ≤ t ∧ t ≤ MAX_VTERM }

def written (t : Term) : Action → Option UInt8
  | .write term c => if term = t then some c else none
  | .switch _ => none

/-- A terminal's screen and cursor. -/
@[ext] structure Content where
  text : Fin (80 * 25 * 2) → UInt8
  x : Int
  y : Int
  color : Word

def content (t : Term) (m : Machine) : Content :=
  ⟨fun i => m.display.screen t i,(m.display.vterm t).x,(m.display.vterm t).y,(m.display.vterm t).color⟩

/-- The current terminal's cursor is the one on the screen, the others' are put away. -/
def shown_cursor (t : Term) (m : Machine) : BitVec 16 :=
  if m.display.current_term = t then m.cursor else location (m.display.vterm t)

section
variable {s : Display} {v : Vterm} {term : Nat}

theorem store_append (screen : Screen) (w w' : Writes) : store screen (w ++ w') = store (store screen w) w' :=
  List.foldl_append

variable {b : Screen} {text : List UInt8} {start : Machine} {as : List Action}

theorem store_agree {a : Screen} {k : Int} (w : Writes) (same : a k = b k) : store a w k = store b w k := by
  induction w generalizing a b with
  | nil => exact same
  | cons p w ih =>
    apply ih
    dsimp only
    rw [Function.update_apply,Function.update_apply,same]

theorem store_range (screen other : Screen) (n : Nat) {k : Int} (low : 0 ≤ k) (high : k < n) :
    store screen ((List.range n).map (fun i : Nat => ((i : Int),other i))) k = other k := by
  induction n with
  | zero => omega
  | succ n ih =>
    rw [List.range_succ,List.map_append,store_append]
    simp only [store,List.map_cons,List.map_nil,List.foldl_cons,List.foldl_nil,Function.update_apply]
    by_cases last : k = n
    · rw [if_pos last,last]
    · rw [if_neg last]
      exact ih (by omega)

/-- The bytes that a switch copies. -/
def Agree (a b : Screen) : Prop := ∀ k, 0 ≤ k → k < 80 * 25 * 2 → a k = b k

theorem copied_agree (screen other : Screen) : Agree (store screen (copied other)) other :=
  fun _ low high => store_range screen other _ low high

theorem scroll_agree {a : Screen} (agree : Agree a b) : scroll a = scroll b := by
  have moved (n : Nat) (few : n ≤ 3840) : (List.range n).map (fun i : Nat => ((i : Int),a (i + 160))) =
      (List.range n).map (fun i : Nat => ((i : Int),b (i + 160))) := by
    apply List.map_congr_left
    intro i below
    rw [List.mem_range] at below
    rw [agree _ (by omega) (by omega)]
  rw [scroll,scroll,moved _ le_rfl]

theorem put_agree {a : Screen} (agree : Agree a b) (v : Vterm) (c : UInt8) : put a v c = put b v c := by
  have same : settle a (wrap v c) = settle b (wrap v c) := by
    rw [settle,settle,scroll_agree agree]
  simp only [put,same]

theorem put_buffer (screen : Screen) (v : Vterm) (buffer : Screen) (c : UInt8) :
    put screen { v with buffer := buffer } c = ({ (put screen v c).1 with buffer := buffer },(put screen v c).2) := by
  have wrapped : wrap { v with buffer := buffer } c = { wrap v c with buffer := buffer } := by
    rw [wrap,wrap]
    split <;> rfl
  simp only [put,wrapped]
  generalize wrap v c = u
  have settled : settle screen { u with buffer := buffer } =
      ({ (settle screen u).1 with buffer := buffer },(settle screen u).2) := by
    rw [settle,settle]
    split <;> rfl
  simp only [settled]
  split_ifs <;> rfl

theorem put_keeps_buffer (screen : Screen) (v : Vterm) (c : UInt8) : (put screen v c).1.buffer = v.buffer := by
  have same := congrArg (fun r => r.1.buffer) (put_buffer screen v v.buffer c)
  exact same

@[simp] theorem setVterm_vterm (s : Display) (term : Nat) (v : Vterm) : (s.setVterm term v).vterm term = v := by
  simp [Display.vterm,Display.setVterm]

theorem setVterm_screen (s : Display) (term : Nat) (v : Vterm) :
    (s.setVterm term v).screen term = if s.current_term = term then s.video else v.buffer := by
  rw [Display.screen,setVterm_vterm]
  rfl

theorem setVterm_other {t : Nat} (s : Display) (v : Vterm) (low : 1 ≤ t) (low' : 1 ≤ term) (other : term ≠ t) :
    (s.setVterm term v).vterm t = s.vterm t := by
  simp only [Display.vterm,Display.setVterm]
  exact Function.update_of_ne (by omega) _ _

@[simp] theorem show_current (s : Display) (term : Nat) (w : Writes) : (s.show term w).current_term = s.current_term := by
  rw [Display.show]
  split <;> rfl

theorem show_vterm (s : Display) (term : Nat) (w : Writes) :
    ∃ buffer, (s.show term w).vterm term = { s.vterm term with buffer := buffer } := by
  rw [Display.show]
  split
  · exact ⟨(s.vterm term).buffer,rfl⟩
  · exact ⟨store (s.vterm term).buffer w,setVterm_vterm _ _ _⟩

theorem show_screen (s : Display) (term : Nat) (w : Writes) :
    (s.show term w).screen term = store (s.screen term) w := by
  by_cases current : s.current_term = term
  · rw [Display.show,if_pos current,Display.screen,if_pos current,Display.screen,if_pos current]
  · rw [Display.show,if_neg current,setVterm_screen,if_neg current,Display.screen,if_neg current]

/-- The display after a character that belongs to no escape. -/
def typed (s : Display) (term : Nat) (c : UInt8) : Display :=
  (s.setVterm term (put (s.screen term) (s.vterm term) c).1).show term (put (s.screen term) (s.vterm term) c).2

theorem plain_facts {c : UInt8} (plain : Plain c) : c ≠ 27 ∧ c ∉ [27,13,9,8] ∧ c ≠ 13 ∧ c ≠ 9 ∧ c ≠ 8 ∧ c ≠ 0 := by
  rcases plain with rfl | ⟨low,-⟩
  · decide
  · simp only [List.mem_cons,List.not_mem_nil,or_false,not_or]
    refine ⟨?_,⟨?_,?_,?_,?_⟩,?_,?_,?_,?_⟩ <;> (rintro rfl; exact absurd low (by decide))

theorem plain_outside {c : UInt8} (quiet : s.ansi (ansi_esc term) = 0) (plain : Plain c) :
    escaping s.ansi term c = false := by
  simp [escaping,quiet,(plain_facts plain).1]

theorem putc_typed {c : UInt8} (quiet : s.ansi (ansi_esc term) = 0) (plain : Plain c) :
    (text_console_putc s term c).map Prod.fst = some (typed s term c) := by
  have outside := plain_outside quiet plain
  have printed : c ≠ 0 := (plain_facts plain).2.2.2.2.2
  rw [text_console_putc,ansi_process,outside]
  simp only [Bool.false_eq_true,↓reduceIte,if_neg printed,map_some]
  rfl

theorem typed_current (s : Display) (term : Nat) (c : UInt8) : (typed s term c).current_term = s.current_term :=
  show_current _ _ _

theorem typed_vterm (s : Display) (term : Nat) (c : UInt8) : ∃ buffer, (typed s term c).vterm term =
    { (put (s.screen term) (s.vterm term) c).1 with buffer := buffer } := by
  obtain ⟨buffer,same⟩ := show_vterm (s.setVterm term (put (s.screen term) (s.vterm term) c).1) term
    (put (s.screen term) (s.vterm term) c).2
  exact ⟨buffer,by rw [setVterm_vterm] at same; exact same⟩

theorem typed_screen (s : Display) (term : Nat) (c : UInt8) : (typed s term c).screen term =
    store (s.screen term) (put (s.screen term) (s.vterm term) c).2 := by
  rw [typed,show_screen,setVterm_screen,put_keeps_buffer]
  rfl

theorem typed_other {t : Nat} (s : Display) (c : UInt8) (low : 1 ≤ t) (low' : 1 ≤ term) (other : term ≠ t) :
    (typed s term c).vterm t = s.vterm t ∧ (typed s term c).screen t = s.screen t := by
  have vterm_ : (typed s term c).vterm t = s.vterm t := by
    rw [typed]
    simp only [Display.show]
    split
    · exact setVterm_other _ _ low low' other
    · exact (setVterm_other _ _ low low' other).trans (setVterm_other _ _ low low' other)
  refine ⟨vterm_,?_⟩
  rw [Display.screen,Display.screen,vterm_,typed_current]
  by_cases current : s.current_term = t
  · rw [if_pos current,if_pos current,typed,Display.show]
    rw [if_neg (show (s.setVterm term _).current_term ≠ term from fun same => other (same.symm.trans current))]
    rfl
  · rw [if_neg current,if_neg current]

/-- First the screen is put away in the current terminal's buffer. -/
def put_away (s : Display) : Display :=
  s.setVterm s.current_term
    { s.vterm s.current_term with buffer := store (s.vterm s.current_term).buffer (copied s.video) }

/-- Then it is the other terminal's. -/
def turn (s : Display) (term : Nat) (video : Screen) : Display := { s with video := video, current_term := term }

theorem switch_eq (s : Display) (term : Nat) : (text_console_vterm s term).1 =
    turn (put_away s) term (store s.video (copied ((put_away s).vterm term).buffer)) := rfl

theorem turn_vterm (s : Display) (term t : Nat) (video : Screen) : (turn s term video).vterm t = s.vterm t := rfl

theorem turn_screen (s : Display) (term t : Nat) (video : Screen) :
    (turn s term video).screen t = if term = t then video else (s.vterm t).buffer := rfl

theorem turn_ansi (s : Display) (term : Nat) (video : Screen) : (turn (put_away s) term video).ansi = s.ansi := rfl

section
variable {t : Nat} (s : Display) (low : 1 ≤ t) (current : 1 ≤ s.current_term)
include low current

/-- Every terminal's buffer holds its screen then. -/
theorem put_away_vterm :
    ∃ buffer, (put_away s).vterm t = { s.vterm t with buffer := buffer } ∧ Agree buffer (s.screen t) := by
  by_cases old : s.current_term = t
  · refine ⟨store (s.vterm t).buffer (copied s.video),?_,?_⟩
    · rw [put_away,old,setVterm_vterm]
    · rw [Display.screen,if_pos old]
      exact copied_agree _ _
  · refine ⟨(s.vterm t).buffer,?_,?_⟩
    · rw [put_away,setVterm_other _ _ low current old]
    · rw [Display.screen,if_neg old]
      exact fun _ _ _ => rfl

theorem switch_vterm : ∃ buffer, (text_console_vterm s term).1.vterm t = { s.vterm t with buffer := buffer } := by
  obtain ⟨buffer,same,-⟩ := put_away_vterm s low current
  exact ⟨buffer,by rw [switch_eq,turn_vterm,same]⟩

theorem switch_screen : Agree ((text_console_vterm s term).1.screen t) (s.screen t) := by
  obtain ⟨buffer,same,agree⟩ := put_away_vterm s low current
  rw [switch_eq,turn_screen]
  by_cases new : term = t
  · rw [if_pos new,new,same]
    exact fun k below above => (copied_agree _ _ k below above).trans (agree k below above)
  · rw [if_neg new,same]
    exact agree

end

/-- No terminal is in an escape, and every cursor is on the screen. -/
structure Idle (m : Machine) : Prop where
  quiet : m.display.ansi = fun _ => 0
  on : AllOn m.display
  current : 1 ≤ m.display.current_term

variable {m m' : Machine}

theorem driver_putc_typed {c : UInt8} (idle : Idle m) (plain : Plain c) : text_console_driver_putc m term c =
    some ⟨typed m.display term c,
      if m.display.current_term = term ∧ c ≠ 10 then location ((typed m.display term c).vterm term) else m.cursor⟩ := by
  have quiet : m.display.ansi (ansi_esc term) = 0 := by rw [idle.quiet]
  obtain ⟨-,-,not_return,not_tab,-,printed⟩ := plain_facts plain
  have sets : sets_cursor m.display term c = true ↔ c ≠ 10 := by
    rw [sets_cursor,plain_outside quiet plain]
    simp [printed,not_return,not_tab]
  obtain ⟨r,done,same⟩ := map_eq_some_iff.mp (putc_typed quiet plain)
  rw [text_console_driver_putc,done,map_some]
  simp only [sets,same]

theorem typed_idle {c : UInt8} (idle : Idle m) (plain : Plain c) (low : 1 ≤ term) (high : term ≤ MAX_VTERM) :
    AllOn (typed m.display term c) ∧ (typed m.display term c).ansi = m.display.ansi := by
  have quiet : m.display.ansi (ansi_esc term) = 0 := by rw [idle.quiet]
  obtain ⟨r,done,kept,same⟩ := plain_putc idle.on low high quiet (plain_facts plain).2.1
  have result := putc_typed quiet plain
  rw [done,map_some,some_inj] at result
  rw [← result]
  exact ⟨kept.1,same⟩

theorem step_idle {a : Action} (idle : Idle m) (step : terminals.step m a m') : Idle m' := by
  obtain ⟨low,high,plain,done⟩ := step
  cases a with
  | write term c =>
    obtain ⟨on,same⟩ := typed_idle idle plain low high
    rw [perform,driver_putc_typed idle plain,some_inj] at done
    rw [← done]
    exact ⟨same.trans idle.quiet,on,by rw [typed_current]; exact idle.current⟩
  | switch term =>
    obtain rfl := some.inj done
    have kept : AllOn (text_console_vterm m.display term).1 := (ConsoleBounds.switch_kept idle.on).1
    have quiet : (text_console_vterm m.display term).1.ansi = m.display.ansi := by rw [switch_eq,turn_ansi]
    have current : (text_console_vterm m.display term).1.current_term = term := by rw [switch_eq,turn]
    exact ⟨quiet.trans idle.quiet,kept,le_of_le_of_eq low current.symm⟩

/-- Nothing that is typed gets stuck. -/
theorem step_possible {a : Action} (idle : Idle m) (low : 1 ≤ a.term) (high : a.term ≤ MAX_VTERM) (plain : Typed a) :
    ∃ m', terminals.step m a m' := by
  cases a with
  | write term c => exact ⟨_,low,high,plain,driver_putc_typed idle plain⟩
  | switch term => exact ⟨_,low,high,plain,rfl⟩

theorem early_on {c : UInt8} (on : AllOn s) (plain : Plain c) : AllOn (early_putc s c) := by
  have other : ¬ (c = 13 ∨ c = 9 ∨ c = 8) := by
    obtain ⟨-,-,not_return,not_tab,not_back,-⟩ := plain_facts plain
    simp [not_return,not_tab,not_back]
  exact allOn_setVterm on (put_on (on 0) (fun h => absurd h other)).1

theorem early_text_on (on : AllOn s) (quiet : s.ansi = fun _ => 0) (plain : ∀ c ∈ text, Plain c) :
    AllOn (text.foldl early_putc s) ∧ (text.foldl early_putc s).ansi = (fun _ => 0) ∧
      (text.foldl early_putc s).current_term = s.current_term := by
  induction text generalizing s with
  | nil => exact ⟨on,quiet,rfl⟩
  | cons c text ih =>
    exact ih (early_on on (plain c List.mem_cons_self)) quiet (fun c member => plain c (List.mem_cons_of_mem _ member))

theorem puts_current {r : Display × Writes} (on : AllOn s) (low : 1 ≤ term) (high : term ≤ MAX_VTERM)
    (quiet : s.ansi = fun _ => 0) (plain : ∀ c ∈ text, Plain c) (done : text_console_puts s term text = some r) :
    r.1.current_term = s.current_term := by
  induction text generalizing s r with
  | nil =>
    obtain rfl := some.inj done
    rfl
  | cons c text ih =>
    have here : s.ansi (ansi_esc term) = 0 := by rw [quiet]
    obtain ⟨⟨t,w⟩,first,kept,same⟩ := plain_putc on low high here (plain_facts (plain c List.mem_cons_self)).2.1
    have result := putc_typed here (plain c List.mem_cons_self)
    rw [first,map_some,some_inj] at result
    simp only [text_console_puts,first,map_eq_some_iff] at done
    obtain ⟨⟨u,w'⟩,rest,rfl⟩ := done
    have later := ih kept.1 (same.trans quiet) (fun c member => plain c (List.mem_cons_of_mem _ member)) rest
    have current : t.current_term = s.current_term := by
      rw [show t = typed s term c from result]
      exact typed_current _ _ _
    exact later.trans current

theorem cleared_on (on : AllOn s) (quiet : s.ansi = fun _ => 0) :
    AllOn (text_console_clrscr s term).1 ∧ (text_console_clrscr s term).1.ansi = (fun _ => 0) ∧
      (text_console_clrscr s term).1.current_term = s.current_term := by
  refine ⟨allOn_setVterm (allOn_show on _) ⟨by simp,by simp,by simp,by simp⟩,?_,?_⟩
  · simp only [text_console_clrscr,ConsoleBounds.setVterm_ansi,ConsoleBounds.show_ansi,quiet]
  · exact show_current _ _ _

theorem see_plain : ∀ c ∈ nothing_to_see_here, Plain c := by
  unfold Plain
  decide +kernel

theorem init_vterms_current {terms : List Nat} {r : Display × Writes} (on : AllOn s)
    (numbers : ∀ term ∈ terms, 1 ≤ term ∧ term ≤ MAX_VTERM) (quiet : s.ansi = fun _ => 0)
    (done : init_vterms s terms = some r) : r.1.current_term = s.current_term := by
  induction terms generalizing s r with
  | nil =>
    obtain rfl := some.inj done
    rfl
  | cons term terms ih =>
    have here := numbers term List.mem_cons_self
    obtain ⟨⟨t,w⟩,first,kept,same⟩ := ConsoleBounds.init_vterm_kept on here.1 here.2 quiet
    simp only [init_vterms,first,map_eq_some_iff] at done
    obtain ⟨⟨u,w'⟩,rest,rfl⟩ := done
    have later := ih kept.1 (fun term member => numbers term (List.mem_cons_of_mem _ member)) same rest
    rw [init_vterm,map_eq_some_iff] at first
    obtain ⟨⟨v,w''⟩,puts,pair⟩ := first
    have begins : AllOn (s.setVterm term { s.vterm term with x := 0, y := 0, color := WHITE_ON_BLACK }) :=
      allOn_setVterm on ⟨by simp,by simp,by simp,by simp⟩
    obtain ⟨begun_on,begun_quiet,begun_current⟩ := @cleared_on _ term begins quiet
    have printed := puts_current begun_on here.1 here.2 begun_quiet see_plain puts
    have after : v = t := congrArg Prod.fst pair
    exact later.trans ((congrArg Display.current_term after).symm.trans (printed.trans begun_current))

theorem early_all_on (video : Screen) (buffers : Nat → Screen) : AllOn (text_console_early video buffers) := fun _ =>
  ⟨by simp [text_console_early],by simp [text_console_early],by simp [text_console_early],by simp [text_console_early]⟩

theorem boot_idle {video : Screen} {buffers : Nat → Screen} {d : Display}
    (plain : ∀ c ∈ text, Plain c) (booted : boot video buffers text = some d) :
    d.ansi = (fun _ => 0) ∧ AllOn d ∧ d.current_term = 1 := by
  obtain ⟨r,done,rfl⟩ := map_eq_some_iff.mp booted
  obtain ⟨cleared,quiet,current⟩ := @cleared_on _ 1 (early_all_on video buffers) rfl
  obtain ⟨on,still,same⟩ := early_text_on cleared quiet plain
  obtain ⟨r',done',kept,ansi⟩ := @init_vterms_kept _ [2,3,4] on (by decide) still
  obtain rfl : r = r' := some.inj (done.symm.trans done')
  have stays := init_vterms_current on (by decide) still done
  exact ⟨ansi,kept.1,stays.trans (same.trans current)⟩

theorem content_eq {t : Term} (vterm_ : ∃ buffer, m'.display.vterm t = { m.display.vterm t with buffer := buffer })
    (agree : Agree (m'.display.screen t) (m.display.screen t)) : content t m' = content t m := by
  obtain ⟨buffer,same⟩ := vterm_
  rw [content,content,same]
  refine Content.ext ?_ rfl rfl rfl
  funext i
  exact agree _ (by omega) (by omega)

/-- Only the characters for a terminal change what it holds. -/
theorem content_respects {t : Term} {a : Action} (idle : Idle m) (step : terminals.step m a m')
    (silent : written t a = none) : content t m' = content t m := by
  obtain ⟨low,high,plain,done⟩ := step
  cases a with
  | write term c =>
    have other : term ≠ t := by
      intro same
      rw [written,if_pos same] at silent
      cases silent
    rw [perform,driver_putc_typed idle plain,some_inj] at done
    obtain ⟨vterm_,screen_⟩ := typed_other m.display c t.2.1 low other
    rw [← done]
    exact content_eq ⟨_,vterm_⟩ (fun k _ _ => congrFun screen_ k)
  | switch term =>
    obtain rfl := some.inj done
    exact content_eq (switch_vterm _ t.2.1 idle.current) (switch_screen _ t.2.1 idle.current)

/-- They change it the same way wherever it is kept. -/
theorem content_typed {t : Term} {n n' : Machine} {c : UInt8} (same : content t m = content t n)
    (typed_m : m'.display = typed m.display t c) (typed_n : n'.display = typed n.display t c) :
    content t m' = content t n' := by
  have agree : Agree (m.display.screen t) (n.display.screen t) := by
    intro k low high
    have at_ := congrFun (congrArg Content.text same) ⟨k.toNat,by omega⟩
    simpa only [content,Int.toNat_of_nonneg low] using at_
  have alike : n.display.vterm t = { m.display.vterm t with buffer := (n.display.vterm t).buffer } := by
    have x : (m.display.vterm t).x = (n.display.vterm t).x := congrArg Content.x same
    have y : (m.display.vterm t).y = (n.display.vterm t).y := congrArg Content.y same
    have color : (m.display.vterm t).color = (n.display.vterm t).color := congrArg Content.color same
    dsimp only
    rw [x,y,color]
  have put_ : put (n.display.screen t) (n.display.vterm t) c =
      ({ (put (m.display.screen t) (m.display.vterm t) c).1 with buffer := (n.display.vterm t).buffer },
        (put (m.display.screen t) (m.display.vterm t) c).2) := by
    rw [← put_agree agree]
    exact (congrArg (fun v => put _ v c) alike).trans (put_buffer _ _ _ _)
  obtain ⟨buffer,vterm_⟩ := typed_vterm m.display t c
  obtain ⟨buffer',vterm_'⟩ := typed_vterm n.display t c
  rw [content,content,typed_m,typed_n,typed_screen,typed_screen,vterm_,vterm_',put_]
  refine Content.ext ?_ rfl rfl rfl
  funext i
  exact store_agree _ (agree _ (by omega) (by omega))

theorem terminals_unwind : Unwinds terminals Idle content written where
  preserved _ _ _ idle step := step_idle idle step
  local_respect _ _ _ _ idle step silent := content_respects idle step silent
  consistent := by
    intro t m a m' n b n' c idle step idle' step' event event' same
    cases a with
    | switch term => cases event
    | write term d =>
      cases b with
      | switch term' => cases event'
      | write term' d' =>
        simp only [written,Option.ite_none_right_eq_some,some_inj] at event event'
        obtain ⟨rfl,rfl⟩ := event
        obtain ⟨rfl,rfl⟩ := event'
        obtain ⟨-,-,plain,done⟩ := step
        obtain ⟨-,-,plain',done'⟩ := step'
        rw [perform,driver_putc_typed idle plain,some_inj] at done
        rw [perform,driver_putc_typed idle' plain',some_inj] at done'
        exact content_typed same (by rw [← done]) (by rw [← done'])

/-- What a terminal holds after a run is decided by what was written to it. -/
theorem content_apart {t : Term} {n : Machine} {bs : List Action} (idle : Idle start)
    (run : Run terminals as start m) (run' : Run terminals bs start n) (same : events written t bs = events written t as) :
    content t n = content t m :=
  same_view terminals_unwind run' run idle idle same rfl

/-- The actions that leave the cursor on the screen where it is, as long as the terminal is
    the current one: newlines, and whatever is written to the others. -/
def unset (t : Term) : Action → Bool
  | .write term c => term != t || c == 10
  | .switch _ => false

/-- The place of a cursor after some newlines. -/
def below (v : Vterm) (newlines : Nat) : Int :=
  if newlines = 0 then v.y * 80 + v.x else min 24 (v.y + newlines) * 80

/-- The cursor on the screen is not the terminal's, or the newlines since it was last set
    leave it in its place. -/
def Steady (t : Term) (start : Machine) (as : List Action) (m : Machine) : Prop :=
  m.display.current_term = t → ∃ last, Run terminals (as.rdropWhile (unset t)) start last ∧
    (last.cursor.toNat : Int) = below (last.display.vterm t) (events written t (as.rtakeWhile (unset t))).length

theorem location_iff (on : OnScreen v) (cursor : BitVec 16) :
    cursor = location v ↔ (cursor.toNat : Int) = v.y * 80 + v.x := by
  obtain ⟨x0,x80,y0,y25⟩ := on
  have place : ((location v).toNat : Int) = v.y * 80 + v.x := by
    rw [location,BitVec.toNat_ofInt,SCREEN_WIDTH]
    omega
  rw [← BitVec.toNat_inj,← place]
  omega

theorem newline_vterm (on : OnScreen (s.vterm term)) :
    ((typed s term 10).vterm term).x = 0 ∧ ((typed s term 10).vterm term).y = min 24 ((s.vterm term).y + 1) := by
  obtain ⟨buffer,same⟩ := typed_vterm s term 10
  have wrapped : wrap (s.vterm term) 10 = { s.vterm term with x := 0, y := (s.vterm term).y + 1 } := if_pos (.inl rfl)
  have result : (put (s.screen term) (s.vterm term) 10).1 =
      (settle (s.screen term) { s.vterm term with x := 0, y := (s.vterm term).y + 1 }).1 := by
    simp [put,wrapped]
  have below24 : (s.vterm term).y ≤ 24 := by
    have := on.2.2.2
    omega
  rw [same,result,settle]
  by_cases last : (s.vterm term).y + 1 > SCREEN_HEIGHT - 1
  · rw [if_pos last]
    simp only [SCREEN_HEIGHT] at last
    exact ⟨rfl,by dsimp only; omega⟩
  · rw [if_neg last]
    simp only [SCREEN_HEIGHT] at last
    exact ⟨rfl,by dsimp only; omega⟩

/-- One more newline first, and the others after it. -/
theorem below_newline {u : Vterm} (low : 0 ≤ v.y) (x : u.x = 0) (y : u.y = min 24 (v.y + 1)) (n : Nat) :
    below u n = below v (n + 1) := by
  rw [below,below,if_neg (Nat.succ_ne_zero n),x,y]
  push_cast
  by_cases none_ : n = 0
  · rw [if_pos none_,none_]
    simp
  · rw [if_neg none_]
    congr 1
    omega

theorem unset_current {t : Term} (run : Run terminals as m m') (idle : Idle m)
    (silent : ∀ a ∈ as, unset t a = true) : m'.display.current_term = m.display.current_term := by
  induction run with
  | done m => rfl
  | @step m n m' a as first rest ih =>
    have later := ih (step_idle idle first) (fun b member => silent b (List.mem_cons_of_mem _ member))
    have quiet := silent a List.mem_cons_self
    obtain ⟨-,-,plain,done⟩ := first
    cases a with
    | switch term => cases quiet
    | write term c =>
      rw [perform,driver_putc_typed idle plain,some_inj] at done
      have display : n.display = typed m.display term c := by rw [← done]
      rw [later,display,typed_current]

theorem unset_run {t : Term} (run : Run terminals as m m') (idle : Idle m)
    (silent : ∀ a ∈ as, unset t a = true) (current : m.display.current_term = t) :
    m'.cursor = m.cursor ∧
      (m'.display.vterm t).y * 80 + (m'.display.vterm t).x = below (m.display.vterm t) (events written t as).length := by
  induction run with
  | done m => exact ⟨rfl,rfl⟩
  | @step m n m' a as first rest ih =>
    have idle' := step_idle idle first
    have later := fun here => ih idle' (fun b member => silent b (List.mem_cons_of_mem _ member)) here
    have quiet := silent a List.mem_cons_self
    obtain ⟨low,high,plain,done⟩ := first
    cases a with
    | switch term => cases quiet
    | write term c =>
      rw [perform,driver_putc_typed idle plain,some_inj] at done
      have display : n.display = typed m.display term c := by rw [← done]
      obtain ⟨cursor,place⟩ := later (by rw [display,typed_current,current])
      refine ⟨cursor.trans ?_,place.trans ?_⟩
      · rw [← done]
        refine if_neg (fun both => ?_)
        rw [unset,Bool.or_eq_true,bne_iff_ne,beq_iff_eq] at quiet
        exact quiet.elim (fun other => other (both.1.symm.trans current)) both.2
      · rw [events_cons,display]
        by_cases here : term = t
        · rw [unset,here,bne_self_eq_false,Bool.false_or,beq_iff_eq] at quiet
          have on : OnScreen (m.display.vterm t) := idle.on _
          obtain ⟨x,y⟩ := newline_vterm on
          rw [here,quiet,written,if_pos rfl]
          exact below_newline on.2.2.1 x y _
        · obtain ⟨same,-⟩ := typed_other m.display c t.2.1 low here
          rw [written,if_neg here]
          exact congrArg (fun v => below v _) same

theorem run_idle (run : Run terminals as start m) (idle : Idle start) : Idle m :=
  run_invariant (fun _ _ _ => step_idle) run idle

theorem run_unique {n : Machine} (run : Run terminals as start m) (run' : Run terminals as start n) : m = n := by
  induction run with
  | done s =>
    cases run'
    rfl
  | step first _ ih =>
    cases run' with
    | step first' rest' =>
      obtain rfl := some.inj (first.2.2.2.symm.trans first'.2.2.2)
      exact ih rest'

/-- The cursor is shown where the characters put it exactly in the steady runs. -/
theorem steady_iff {t : Term} (idle : Idle start)
    (run : Run terminals as start m) : Steady t start as m ↔ shown_cursor t m = location (m.display.vterm t) := by
  have parts : as.rdropWhile (unset t) ++ as.rtakeWhile (unset t) = as := List.rdropWhile_append_rtakeWhile
  obtain ⟨last,before,rest⟩ := run_split (by rw [parts]; exact run)
  by_cases current : m.display.current_term = t
  · have idle' := run_idle before idle
    have silent : ∀ a ∈ as.rtakeWhile (unset t), unset t a = true := fun _ => List.mem_rtakeWhile_imp
    have current' : last.display.current_term = t := (unset_current rest idle' silent).symm.trans current
    obtain ⟨cursor,place⟩ := unset_run rest idle' silent current'
    have on : OnScreen (m.display.vterm t) := (run_idle run idle).on _
    rw [shown_cursor,if_pos current,location_iff on,place,cursor]
    constructor
    · intro steady
      obtain ⟨last',before',stays⟩ := steady current
      obtain rfl := run_unique before before'
      exact stays
    · exact fun stays _ => ⟨last,before,stays⟩
  · rw [shown_cursor,if_neg current]
    exact ⟨fun _ => rfl,fun _ here => absurd here current⟩

theorem location_content {t : Term} {n : Machine} (same : content t n = content t m) :
    location (n.display.vterm t) = location (m.display.vterm t) := by
  have x : (n.display.vterm t).x = (m.display.vterm t).x := congrArg Content.x same
  have y : (n.display.vterm t).y = (m.display.vterm t).y := congrArg Content.y same
  rw [location,location,x,y]

/-- A switch to the terminal shows its cursor. -/
theorem switched {t : Term} (idle : Idle start) (run : Run terminals as start m) :
    ∃ n, Run terminals (as ++ [.switch t]) start n ∧ events written t (as ++ [.switch t]) = events written t as ∧
      Steady t start (as ++ [.switch t]) n := by
  have step : terminals.step m (.switch t) (text_console_driver_vterm m t) := ⟨t.2.1,t.2.2,trivial,rfl⟩
  have run' := run_snoc run step
  have same : events written t (as ++ [.switch t]) = events written t as := by
    rw [events_append]
    exact List.append_nil _
  have content_ : content t (text_console_driver_vterm m t) = content t m :=
    content_respects (run_idle run idle) step rfl
  have current : (text_console_driver_vterm m t).display.current_term = t := by
    rw [text_console_driver_vterm,switch_eq,turn]
  refine ⟨_,run',same,(steady_iff idle run').2 ?_⟩
  rw [shown_cursor,if_pos current,location_content content_]
  rfl

/-- A run is steady exactly if the steady runs that write the same to the terminal show
    its cursor where this one does. -/
theorem apart_iff {t : Term} (idle : Idle start) (run : Run terminals as start m) :
    Steady t start as m ↔ ∀ bs n, Run terminals bs start n → events written t bs = events written t as →
      Steady t start bs n → shown_cursor t n = shown_cursor t m := by
  constructor
  · intro steady bs n run' same steady'
    have here := (steady_iff idle run).1 steady
    have there := (steady_iff idle run').1 steady'
    exact there.trans ((location_content (content_apart idle run run' same)).trans here.symm)
  · intro alike
    obtain ⟨n,run',same,steady'⟩ := switched (t := t) idle run
    have there := (steady_iff idle run').1 steady'
    have place := location_content (content_apart idle run run' same)
    exact (steady_iff idle run).2 ((alike _ n run' same steady').symm.trans (there.trans place))

theorem start_idle (started : terminals.start start) : Idle start := by
  obtain ⟨video,buffers,text,plain,booted⟩ := started
  obtain ⟨quiet,on,current⟩ := boot_idle plain booted
  exact ⟨quiet,on,current.ge⟩

/-- Whatever is typed on the terminals and whichever is switched to, what a terminal holds and
    where its cursor stands depend on what was typed on it alone. The cursor on the screen
    does so in the steady runs, and only in them. -/
theorem terminals_apart {start : Machine} {as : List Action} (started : terminals.start start)
    (run : Run terminals as start m) (t : Term) :
    (∀ a : Action, 1 ≤ a.term → a.term ≤ MAX_VTERM → Typed a → ∃ n, terminals.step m a n) ∧
      (∀ bs n, Run terminals bs start n → events written t bs = events written t as → content t n = content t m) ∧
      (Steady t start as m ↔ ∀ bs n, Run terminals bs start n → events written t bs = events written t as →
        Steady t start bs n → shown_cursor t n = shown_cursor t m) :=
  have idle := start_idle started
  ⟨fun _ => step_possible (run_idle run idle),fun _ _ => content_apart idle run,apart_iff idle run⟩

theorem run_performs (numbers : ∀ a ∈ as, 1 ≤ a.term ∧ a.term ≤ MAX_VTERM ∧ Typed a)
    (done : as.foldlM perform m = some m') : Run terminals as m m' := by
  induction as generalizing m with
  | nil =>
    obtain rfl := some.inj done
    exact .done m
  | cons a as ih =>
    rw [List.foldlM_cons] at done
    obtain ⟨n,first,rest⟩ := Option.bind_eq_some_iff.mp done
    obtain ⟨low,high,plain⟩ := numbers a List.mem_cons_self
    exact .step ⟨low,high,plain,first⟩ (ih (fun b member => numbers b (List.mem_cons_of_mem _ member)) rest)

end

/-- The console over cleared memory, with nothing printed before it. -/
def blank : Option Machine := (boot (fun _ => 0) (fun _ _ => 0) []).map (fun d => ⟨d,0⟩)

theorem blank_started : ∃ start, blank = some start ∧ terminals.start start := by
  obtain ⟨d,booted⟩ : ∃ d, boot (fun _ => 0) (fun _ _ => 0) [] = some d := by
    obtain ⟨cleared,quiet,-⟩ := @cleared_on _ 1 (early_all_on (fun _ => 0) (fun _ _ => 0)) rfl
    obtain ⟨r,done,-⟩ := @init_vterms_kept _ [2,3,4] cleared (by decide) quiet
    exact ⟨r.1,by rw [boot,List.foldl_nil,text_console_driver_init,done,map_some]⟩
  exact ⟨⟨d,0⟩,by rw [blank,booted,map_some],_,_,[],by simp,booted⟩

def first : Term := ⟨1,by decide⟩

theorem terminals_apart_letter : ∃ start m, terminals.start start ∧ Run terminals [.write 1 97] start m ∧
    ∀ bs n, Run terminals bs start n → events written first bs = [97] → content first n = content first m := by
  obtain ⟨start,-,started⟩ := blank_started
  obtain ⟨m,step⟩ := @step_possible start (.write 1 97) (start_idle started) (by decide) (by decide)
    (.inr (by decide))
  have run : Run terminals [.write 1 97] start m := .step step (.done m)
  exact ⟨start,m,started,run,(terminals_apart started run first).2.1⟩

def letter_line : List Action := [.write 1 97,.write 1 10]

theorem letter_line_typed : ∀ a ∈ letter_line, 1 ≤ a.term ∧ a.term ≤ MAX_VTERM ∧ Typed a := by
  intro a member
  rcases List.mem_cons.mp member with rfl | member
  · exact ⟨by decide,by decide,.inr (by decide)⟩
  · obtain rfl := List.mem_singleton.mp member
    exact ⟨by decide,by decide,.inl rfl⟩

/-- A letter and a newline leave the cursor behind the letter, until the terminal is switched to. -/
theorem newline_not_shown : ¬ ∀ start m n as bs (t : Term), terminals.start start → Run terminals as start m →
    Run terminals bs start n → events written t bs = events written t as →
    content t n = content t m ∧ shown_cursor t n = shown_cursor t m := by
  intro alike
  obtain ⟨start,same,started⟩ := blank_started
  have stale : (blank.bind (List.foldlM perform · letter_line)).map (shown_cursor first) = some 1 := by decide +kernel
  have fresh : (blank.bind (List.foldlM perform · (letter_line ++ [.switch 1]))).map (shown_cursor first) = some 80 := by
    decide +kernel
  rw [same,Option.bind_some,map_eq_some_iff] at stale fresh
  obtain ⟨m,done,at_letter⟩ := stale
  obtain ⟨n,done',at_line⟩ := fresh
  have run := run_performs letter_line_typed done
  have run' : Run terminals (letter_line ++ [.switch 1]) start n := by
    refine run_performs (fun a member => ?_) done'
    rcases List.mem_append.mp member with typed_ | last
    · exact letter_line_typed a typed_
    · obtain rfl := List.mem_singleton.mp last
      exact ⟨by decide,by decide,trivial⟩
  have shown := (alike start m n _ _ first started run run' rfl).2
  rw [at_letter,at_line] at shown
  exact absurd shown (by decide)

end MicroOS.Terminals

import MicroOS.Console
import MicroOS.Runs

/-!
The cursors stay on the screen and the writes inside it, as long as no tab, return or
backspace comes with the cursor behind the last line's end, escapes do not outgrow
the driver's fields, and no escape moves the cursor to a place off the screen or
erases up to a cursor behind the last cell.
-/
namespace MicroOS.ConsoleBounds
open Console Runs

def OnScreen (v : Vterm) : Prop := 0 ≤ v.x ∧ v.x ≤ 80 ∧ 0 ≤ v.y ∧ v.y < 25
def AllOn (s : Display) : Prop := ∀ i, OnScreen (s.vterms i)

def InScreen (w : Writes) : Prop := ∀ p ∈ w, 0 ≤ p.1 ∧ p.1 < 80 * 25 * 2

@[simp] theorem inScreen_nil : InScreen [] := by simp [InScreen]
@[simp] theorem inScreen_append (v w : Writes) : InScreen (v ++ w) ↔ InScreen v ∧ InScreen w := by
  simp only [InScreen,List.mem_append]
  exact ⟨fun h => ⟨fun p x => h p (.inl x),fun p y => h p (.inr y)⟩,fun h p m => m.elim (h.1 p) (h.2 p)⟩

/-- The cursor behind the last cell of the last line. -/
def Corner (v : Vterm) : Prop := v.x = 80 ∧ v.y = 24

section
variable {s : Display} {v : Vterm} {term : Nat} {screen : Screen}

@[simp] theorem setVterm_ansi (s : Display) (term : Nat) (v : Vterm) : (s.setVterm term v).ansi = s.ansi := rfl
@[simp] theorem show_ansi (s : Display) (term : Nat) (w : Writes) : (s.show term w).ansi = s.ansi := by
  rw [Display.show]
  split <;> rfl

theorem allOn_setVterm (on : AllOn s) (here : OnScreen v) : AllOn (s.setVterm term v) := by
  intro i
  simp only [Display.setVterm,Function.update_apply]
  split
  · exact here
  · exact on i

theorem allOn_show (on : AllOn s) (w : Writes) : AllOn (s.show term w) := by
  rw [Display.show]
  split
  · exact on
  · exact allOn_setVterm on (on (term - 1))

variable {c : UInt8} {start_pos end_pos : Int}

theorem cell_in {i : Int} (low : 0 ≤ i) (high : i < 80 * 25) : InScreen (cell v c i) := by
  simp only [InScreen,cell,List.forall_mem_cons]
  exact ⟨by omega,by omega,by simp⟩

theorem blanks_in (low : 0 ≤ start_pos) (high : end_pos ≤ 80 * 25) : InScreen (blanks v start_pos end_pos) := by
  intro p member
  obtain ⟨i,below,here⟩ := List.mem_flatMap.mp member
  rw [List.mem_range] at below
  exact cell_in (by omega) (by omega) p here

theorem scroll_in : InScreen (scroll screen) := by
  rw [scroll,inScreen_append]
  simp only [InScreen,List.forall_mem_map,List.mem_range]
  exact ⟨fun i below => by omega,fun i below => by omega⟩

/-- After the wrap there is room in the line; the line is one too far only in the corner
    or after a newline. -/
theorem wrap_on (on : OnScreen v) : 0 ≤ (wrap v c).x ∧ (wrap v c).x ≤ 79 ∧ 0 ≤ (wrap v c).y ∧
    (wrap v c).y ≤ 25 ∧ (¬ Corner v → c ≠ 10 → (wrap v c).y < 25) := by
  obtain ⟨x0,x80,y0,y25⟩ := on
  have width : SCREEN_WIDTH = 80 := rfl
  rw [wrap,Corner]
  by_cases wraps : c = 10 ∨ v.x > SCREEN_WIDTH - 1
  · rw [if_pos wraps]
    dsimp only
    refine ⟨by omega,by omega,by omega,by omega,fun inside other => ?_⟩
    have behind := wraps.resolve_left other
    omega
  · rw [if_neg wraps]
    exact ⟨x0,by omega,y0,by omega,fun _ _ => y25⟩

theorem settle_on (x0 : 0 ≤ v.x) (x79 : v.x ≤ 79) (y0 : 0 ≤ v.y) (y25 : v.y ≤ 25) :
    0 ≤ (settle screen v).1.x ∧ (settle screen v).1.x ≤ 79 ∧ 0 ≤ (settle screen v).1.y ∧ (settle screen v).1.y < 25 ∧
      InScreen (settle screen v).2 := by
  have height : SCREEN_HEIGHT = 25 := rfl
  rw [settle]
  by_cases behind : v.y > SCREEN_HEIGHT - 1
  · rw [if_pos behind]
    exact ⟨x0,x79,by dsimp only; omega,by dsimp only; omega,scroll_in⟩
  · rw [if_neg behind]
    exact ⟨x0,x79,y0,by dsimp only; omega,inScreen_nil⟩

/-- A character keeps the cursor on the screen and its cells inside, except a return,
    a tab or a backspace in the corner: only the others scroll. -/
theorem put_on {c : UInt8} (on : OnScreen v) (fit : c = 13 ∨ c = 9 ∨ c = 8 → ¬ Corner v) :
    OnScreen (put screen v c).1 ∧ InScreen (put screen v c).2 := by
  have width : SCREEN_WIDTH = 80 := rfl
  obtain ⟨ux,ux',uy,uy',corner⟩ := wrap_on (c := c) on
  simp only [put,width]
  generalize wrap v c = u at *
  by_cases ret : c = 13
  · rw [if_pos ret]
    exact ⟨⟨by simp,by simp,uy,corner (fit (.inl ret)) (by rw [ret]; decide)⟩,inScreen_nil⟩
  rw [if_neg ret]
  by_cases tab : c = 9
  · rw [if_pos tab]
    have same : u.x.tmod 4 = u.x % 4 := Int.tmod_eq_emod_of_nonneg ux
    have inside := corner (fit (.inr (.inl tab))) (by rw [tab]; decide)
    rw [same]
    refine ⟨⟨?_,?_,uy,inside⟩,inScreen_nil⟩ <;> (dsimp only; split <;> omega)
  rw [if_neg tab]
  by_cases back : c = 8
  · rw [if_pos back]
    have inside := corner (fit (.inr (.inr back))) (by rw [back]; decide)
    by_cases left : u.x > 0
    · rw [if_pos left]
      exact ⟨⟨by dsimp only; omega,by dsimp only; omega,uy,inside⟩,cell_in (by dsimp only; omega) (by dsimp only; omega)⟩
    · rw [if_neg left]
      exact ⟨⟨ux,by dsimp only; omega,uy,inside⟩,cell_in (by omega) (by omega)⟩
  rw [if_neg back]
  obtain ⟨tx,tx',ty,ty',moved⟩ := @settle_on _ screen ux ux' uy uy'
  generalize settle screen u = r at *
  obtain ⟨t,w⟩ := r
  dsimp only at *
  by_cases line : c = 10
  · rw [if_pos line]
    exact ⟨⟨tx,by dsimp only; omega,ty,ty'⟩,moved⟩
  · rw [if_neg line]
    refine ⟨⟨by dsimp only; omega,by dsimp only; omega,ty,ty'⟩,?_⟩
    rw [inScreen_append]
    exact ⟨moved,cell_in (by omega) (by omega)⟩

variable {mode : Int} {argv : List Word} {ansi : Nat → UInt8}

theorem display_range_in (on : OnScreen v) (fit : mode = 1 → ¬ Corner v)
    (range : display_range v mode = some (start_pos,end_pos)) : 0 ≤ start_pos ∧ end_pos ≤ 80 * 25 := by
  obtain ⟨x0,x80,y0,y25⟩ := on
  simp only [Corner] at fit
  simp only [display_range,SCREEN_WIDTH,SCREEN_HEIGHT] at range
  split at range <;> simp only [Option.some.injEq,Prod.mk.injEq,reduceCtorEq] at range
  all_goals obtain ⟨rfl,rfl⟩ := range
  · omega
  · have inside := fit rfl
    omega
  · omega
  · omega

theorem line_range_in (on : OnScreen v) (fit : mode = 1 → ¬ Corner v)
    (range : line_range v mode = some (start_pos,end_pos)) : 0 ≤ start_pos ∧ end_pos ≤ 80 * 25 := by
  obtain ⟨x0,x80,y0,y25⟩ := on
  simp only [Corner] at fit
  simp only [line_range,SCREEN_WIDTH] at range
  split at range <;> simp only [Option.some.injEq,Prod.mk.injEq,reduceCtorEq] at range
  all_goals obtain ⟨rfl,rfl⟩ := range
  · omega
  · have inside := fit rfl
    omega
  · omega

/-- A result that left every cursor on the screen and wrote inside it. -/
def Kept (r : Display × Writes) : Prop := AllOn r.1 ∧ InScreen r.2

theorem erase_kept {range : Option (Int × Int)} (on : AllOn s)
    (inside : ∀ start_pos end_pos, range = some (start_pos,end_pos) → 0 ≤ start_pos ∧ end_pos ≤ 80 * 25) :
    Kept (erase s term range) := by
  match range, inside with
  | none, _ => exact ⟨on,inScreen_nil⟩
  | some (start_pos,end_pos), inside =>
    have bounds := inside start_pos end_pos rfl
    exact ⟨allOn_show on _,blanks_in bounds.1 bounds.2⟩

/-- Colors move no cursor. -/
theorem set_color_on (on : AllOn s) (color : String) (background : Bool) :
    AllOn (text_console_set_color s term color background) :=
  allOn_setVterm on (on (term - 1))

theorem setBright_on {b : UInt8} (on : AllOn s) (room : term < 4) : ∃ t, setBright s term b = some t ∧ AllOn t := by
  have inside : ansi_bright term < ANSI_FIELDS := by
    simp only [ansi_bright,ANSI_FIELDS]
    omega
  exact ⟨{ s with ansi := Function.update s.ansi (ansi_bright term) b },by rw [setBright,if_pos inside],on⟩

/-- The parameters of `m` that look up or set the brightness of the terminal. -/
def Bright (a : Word) : Prop :=
  a.toInt = 0 ∨ a.toInt = 1 ∨ (30 ≤ a.toInt ∧ a.toInt ≤ 37) ∨ (40 ≤ a.toInt ∧ a.toInt ≤ 47)

theorem ansi_color_on {a : Word} (on : AllOn s) (room : term < 4 ∨ ¬ Bright a) :
    ∃ t, ansi_color term s a = some t ∧ AllOn t := by
  simp only [Bright,not_or] at room
  rw [ansi_color]
  split_ifs with black bright fore back
  · exact setBright_on (set_color_on (set_color_on on _ _) _ _) (room.resolve_right (fun h => h.1 black))
  · exact setBright_on on (room.resolve_right (fun h => h.2.1 bright))
  · have inside : ansi_bright term < ANSI_FIELDS := by
      have := room.resolve_right (fun h => h.2.2.1 fore)
      simp only [ansi_bright,ANSI_FIELDS]
      omega
    exact ⟨_,by rw [pallet,if_pos inside]; rfl,set_color_on on _ _⟩
  · have inside : ansi_bright term < ANSI_FIELDS := by
      have := room.resolve_right (fun h => h.2.2.2 back)
      simp only [ansi_bright,ANSI_FIELDS]
      omega
    exact ⟨_,by rw [pallet,if_pos inside]; rfl,set_color_on (set_color_on on _ _) _ _⟩
  · exact ⟨s,rfl,on⟩

theorem ansi_colors_on (on : AllOn s) (room : term < 4 ∨ ∀ a ∈ argv, ¬ Bright a) :
    ∃ t, argv.foldlM (ansi_color term) s = some t ∧ AllOn t := by
  induction argv generalizing s with
  | nil => exact ⟨s,rfl,on⟩
  | cons a argv ih =>
    obtain ⟨t,first,on'⟩ := ansi_color_on (a := a) on (room.imp_right (fun all => all a List.mem_cons_self))
    obtain ⟨u,rest,on''⟩ := ih on' (room.imp_right (fun all b member => all b (List.mem_cons_of_mem _ member)))
    exact ⟨u,by rw [List.foldlM_cons,first]; exact rest,on''⟩

/-- The escapes that keep the cursor on the screen: colors that have their field, a
    cursor position on the screen, and no erase up to the cursor in the corner. -/
structure Mild (v : Vterm) (term : Nat) (f : UInt8) (argv : List Word) : Prop where
  count : argv.length ≤ 32
  color : f = 109 → term < 4 ∨ (argv ≠ [] ∧ ∀ a ∈ argv, ¬ Bright a)
  position : f = 72 → ∀ a b, argv = [a,b] → 1 ≤ b.toInt ∧ 1 ≤ a.toInt ∧ a.toInt ≤ 25
  corner : f = 74 ∨ f = 75 → (argv.headD 0).toInt = 1 → ¬ Corner v

/-- What the letter of an escape may complete: a mild command, or a malformed sequence whose
    parameters have room in `args`. -/
def Orderly (v : Vterm) (term : Nat) : Parsed → Prop
  | .leaves => True
  | .nothing argv => argv.length ≤ 32
  | .command f argv => Mild v term f argv

theorem ansi_run_kept {f : UInt8} (on : AllOn s) (mild : Mild (s.vterm term) term f argv) :
    ∃ r, ansi_run s term f argv = some r ∧ Kept r := by
  rw [ansi_run.eq_def]
  by_cases color : f = 109
  · rw [if_pos color]
    split
    · have room := (mild.color color).resolve_right (fun h => h.1 rfl)
      obtain ⟨t,same,on'⟩ := setBright_on (b := 0) (set_color_on (set_color_on on "black" true) "white" false) room
      exact ⟨(t,[]),by rw [plain_colors,same]; rfl,on',inScreen_nil⟩
    · obtain ⟨t,same,on'⟩ := ansi_colors_on on ((mild.color color).imp_right (fun h => h.2))
      exact ⟨(t,[]),by rw [same]; rfl,on',inScreen_nil⟩
  rw [if_neg color]
  by_cases position : f = 72
  · rw [if_pos position]
    split
    · obtain ⟨b1,a1,a25⟩ := mild.position position _ _ rfl
      refine ⟨_,rfl,allOn_setVterm on ?_,inScreen_nil⟩
      exact ⟨by dsimp only; omega,by dsimp only; omega,by dsimp only; omega,by dsimp only; omega⟩
    · exact ⟨_,rfl,allOn_setVterm on ⟨by simp,by simp,by simp,by simp⟩,inScreen_nil⟩
  rw [if_neg position]
  by_cases display : f = 74
  · rw [if_pos display]
    exact ⟨_,rfl,erase_kept on (fun _ _ => display_range_in (on (term - 1)) (mild.corner (.inl display)))⟩
  rw [if_neg display]
  by_cases line : f = 75
  · rw [if_pos line]
    exact ⟨_,rfl,erase_kept on (fun _ _ => line_range_in (on (term - 1)) (mild.corner (.inr line)))⟩
  rw [if_neg line]
  exact ⟨_,rfl,on,inScreen_nil⟩

theorem parse_digits_rest (number_system_base : Word) (input : List UInt8) (number : Word) :
    (0 ∈ input → 0 ∈ (parse_digits number_system_base input number).2) ∧
      (parse_digits number_system_base input number).2.length ≤ input.length := by
  induction input generalizing number with
  | nil => simp [parse_digits]
  | cons c rest ih =>
    rw [parse_digits]
    split
    · rename_i d some_
      refine ⟨fun ends => (ih _).1 ?_,(ih _).2.trans (Nat.le_succ _)⟩
      rcases List.mem_cons.mp ends with rfl | later
      · have none : digit 0 = none := by decide
        exact absurd (none.symm.trans some_) (by simp)
      · exact later
    · exact ⟨id,le_rfl⟩

theorem parse_number_rest (input : List UInt8) : (0 ∈ input → 0 ∈ (parse_number input).2) ∧
    (parse_number input).2.length ≤ input.length := by
  rw [parse_number.eq_def]
  split
  · have rest := parse_digits_rest 16 (by assumption) 0
    exact ⟨fun ends => rest.1 (by simpa using ends),by have := rest.2; simp only [List.length_cons]; omega⟩
  · have rest := parse_digits_rest 2 (by assumption) 0
    exact ⟨fun ends => rest.1 (by simpa using ends),by have := rest.2; simp only [List.length_cons]; omega⟩
  · exact parse_digits_rest 10 input 0

/-- A number that begins with a digit takes at least that. -/
theorem parse_number_takes {c : UInt8} {rest : List UInt8} (first : isdigit c = true) :
    (parse_number (c :: rest)).2.length ≤ rest.length := by
  rw [parse_number.eq_def]
  split
  · rename_i same
    obtain ⟨rfl,rfl⟩ := List.cons.inj same
    exact (parse_digits_rest 16 _ 0).2.trans (Nat.le_succ _)
  · rename_i same
    obtain ⟨rfl,rfl⟩ := List.cons.inj same
    exact (parse_digits_rest 2 _ 0).2.trans (Nat.le_succ _)
  · rw [parse_digits]
    have some_ : digit c = some (c.toNat - 48) := by
      rw [isdigit] at first
      rw [digit,if_pos first]
    rw [some_]
    exact (parse_digits_rest 10 rest _).2

theorem parameters_stay {fuel : Nat} {input : List UInt8} {args : List Word} (enough : input.length < fuel)
    (ends : 0 ∈ input) : parameters fuel input args ≠ .leaves := by
  induction fuel generalizing input args with
  | zero => omega
  | succ fuel ih =>
    cases input with
    | nil => simp at ends
    | cons c rest =>
      simp only [List.length_cons] at enough
      rw [parameters]
      split_ifs with separator letter zero other
      · have later : 0 ∈ rest := by
          rcases List.mem_cons.mp ends with rfl | later
          · exact absurd separator (by decide)
          · exact later
        exact ih (by have := (parse_number_rest rest).2; omega) ((parse_number_rest rest).1 later)
      · simp
      · simp
      · simp
      · have takes := @parse_number_takes c rest (by simpa using other)
        exact ih (by omega) ((parse_number_rest (c :: rest)).1 ends)

/-- The fields of a finished escape end with its index, which is 0 then. -/
theorem finish_ends {ansi : Nat → UInt8} (low : 1 ≤ term) (high : term ≤ 4) :
    0 ∈ collected (finish ansi term) term := by
  refine List.mem_map.mpr ⟨ansi_esc_buffer_index term - ansi_esc_buffer term,?_,?_⟩
  · rw [List.mem_range]
    simp only [ansi_esc_buffer_index,ansi_esc_buffer,ANSI_FIELDS]
    omega
  · have place_ : ansi_esc_buffer term + (ansi_esc_buffer_index term - ansi_esc_buffer term) =
        ansi_esc_buffer_index term := by
      simp only [ansi_esc_buffer_index,ansi_esc_buffer]
      omega
    rw [place_,finish,setIndex,if_pos ⟨le_rfl,by omega⟩]
    simp

theorem parse_ansi_stays (low : 1 ≤ term) (high : term ≤ 4) :
    parse_ansi (collected (finish ansi term) term) ≠ .leaves := by
  have ends := @finish_ends _ ansi low high
  rw [parse_ansi.eq_def]
  split
  · rename_i rest same
    rw [same] at ends
    exact parameters_stay (Nat.lt_succ_self _) (by simpa using ends)
  · simp

/-- A character of an escape stays in the driver's fields, and completes an orderly one; any
    other character is no return, tab or backspace in the corner. -/
structure Fits (s : Display) (term : Nat) (c : UInt8) : Prop where
  room : escaping s.ansi term c = true → inFields (place s.ansi term) = true
  close : escaping s.ansi term c = true → isalpha c = true → inFields (place (keep s.ansi term c) term) = true
  complete : escaping s.ansi term c = true → isalpha c = true →
    Orderly (s.vterm term) term (parse_ansi (collected (finish (keep s.ansi term c) term) term))
  plain : escaping s.ansi term c = false → c = 13 ∨ c = 9 ∨ c = 8 → ¬ Corner (s.vterm term)

theorem ansi_process_args_kept (on : AllOn s) (low : 1 ≤ term) (high : term ≤ 4)
    (orderly : Orderly (s.vterm term) term (parse_ansi (collected (finish ansi term) term))) :
    ∃ r, ansi_process_args { s with ansi := finish ansi term } term = some r ∧ Kept r := by
  rw [ansi_process_args]
  cases parsed : parse_ansi (collected (finish ansi term) term) with
  | leaves => exact absurd parsed (parse_ansi_stays low high)
  | nothing argv =>
    rw [parsed] at orderly
    have few : argv.length ≤ 32 := orderly
    simp only [if_pos few]
    exact ⟨_,rfl,on,inScreen_nil⟩
  | command f argv =>
    rw [parsed] at orderly
    have mild : Mild (s.vterm term) term f argv := orderly
    simp only [if_pos mild.count]
    exact ansi_run_kept (s := { s with ansi := finish ansi term }) on mild

theorem putc_kept (on : AllOn s) (low : 1 ≤ term) (high : term ≤ 4) (fits : Fits s term c) :
    ∃ r, text_console_putc s term c = some r ∧ Kept r := by
  rw [text_console_putc,ansi_process]
  cases escape : escaping s.ansi term c with
  | true =>
    rw [if_pos rfl,if_pos (fits.room escape)]
    dsimp only
    cases letter : isalpha c with
    | true =>
      rw [if_pos rfl,if_pos (fits.close escape letter)]
      obtain ⟨r,same,kept⟩ := ansi_process_args_kept on low high (fits.complete escape letter)
      rw [same]
      exact ⟨r,rfl,kept⟩
    | false => exact ⟨_,rfl,on,inScreen_nil⟩
  | false =>
    simp only [Bool.false_eq_true,↓reduceIte]
    split
    · exact ⟨_,rfl,on,inScreen_nil⟩
    · obtain ⟨stays,inside⟩ := @put_on _ (s.screen term) _ (on (term - 1)) (fits.plain escape)
      exact ⟨_,rfl,allOn_show (allOn_setVterm on stays) _,inside⟩

theorem switch_kept (on : AllOn s) : Kept (text_console_vterm s term) := by
  have whole (screen : Screen) : InScreen (copied screen) := by
    simp only [InScreen,copied,List.forall_mem_map,List.mem_range]
    intro i below
    omega
  constructor
  · intro i
    simp only [text_console_vterm]
    generalize store (s.vterm s.current_term).buffer (copied s.video) = kept
    have away := @allOn_setVterm _ { s.vterm s.current_term with buffer := kept } s.current_term on
      (on (s.current_term - 1))
    exact away i
  · simp only [text_console_vterm,inScreen_append]
    exact ⟨whole _,whole _⟩

/-- Printable characters and newlines outside of an escape. -/
theorem plain_putc (on : AllOn s) (low : 1 ≤ term) (high : term ≤ 4) (quiet : s.ansi (ansi_esc term) = 0)
    (plain : c ∉ [27,13,9,8]) : ∃ r, text_console_putc s term c = some r ∧ Kept r ∧ r.1.ansi = s.ansi := by
  simp only [List.mem_cons,List.not_mem_nil,or_false,not_or] at plain
  have outside : escaping s.ansi term c = false := by simp [escaping,quiet,plain.1]
  have fits : Fits s term c := by
    refine ⟨?_,?_,?_,?_⟩
    · simp [outside]
    · simp [outside]
    · simp [outside]
    · rintro - (h | h | h)
      · exact absurd h plain.2.1
      · exact absurd h plain.2.2.1
      · exact absurd h plain.2.2.2
  obtain ⟨r,same,kept⟩ := putc_kept on low high fits
  refine ⟨r,same,kept,?_⟩
  rw [text_console_putc,ansi_process,outside] at same
  simp only [Bool.false_eq_true,↓reduceIte] at same
  split at same <;> simp only [Option.some.injEq] at same
  · rw [← same]
  · rw [← same]
    simp only [Display.show]
    split <;> rfl

theorem plain_puts {text : List UInt8} (on : AllOn s) (low : 1 ≤ term) (high : term ≤ 4)
    (quiet : s.ansi (ansi_esc term) = 0) (plain : ∀ c ∈ text, c ∉ [27,13,9,8]) :
    ∃ r, text_console_puts s term text = some r ∧ Kept r ∧ r.1.ansi = s.ansi := by
  induction text generalizing s with
  | nil => exact ⟨(s,[]),rfl,⟨on,inScreen_nil⟩,rfl⟩
  | cons c text ih =>
    obtain ⟨⟨t,w⟩,first,kept,same⟩ := plain_putc on low high quiet (plain c List.mem_cons_self)
    obtain ⟨⟨u,w'⟩,rest,kept',same'⟩ := ih kept.1 (by rw [same]; exact quiet)
      (fun c member => plain c (List.mem_cons_of_mem _ member))
    refine ⟨(u,w ++ w'),by rw [text_console_puts,first]; simp only [rest]; rfl,⟨kept'.1,?_⟩,same'.trans same⟩
    exact (inScreen_append ..).mpr ⟨kept.2,kept'.2⟩

theorem init_vterm_kept (on : AllOn s) (low : 1 ≤ term) (high : term ≤ 4) (quiet : s.ansi = fun _ => 0) :
    ∃ r, init_vterm s term = some r ∧ Kept r ∧ r.1.ansi = fun _ => 0 := by
  let begun := s.setVterm term { s.vterm term with x := 0, y := 0, color := WHITE_ON_BLACK }
  have on' : AllOn begun := allOn_setVterm on ⟨by simp,by simp,by simp,by simp⟩
  have cleared : AllOn (text_console_clrscr begun term).1 :=
    allOn_setVterm (allOn_show on' _) ⟨by simp,by simp,by simp,by simp⟩
  have same : (text_console_clrscr begun term).1.ansi = fun _ => 0 := by
    simp only [text_console_clrscr,setVterm_ansi,show_ansi,begun,quiet]
  have inside : InScreen (text_console_clrscr begun term).2 := by
    simp only [text_console_clrscr]
    exact blanks_in (by decide) (by decide)
  obtain ⟨⟨t,w⟩,puts,kept,kept_ansi⟩ := @plain_puts _ _ nothing_to_see_here cleared low high (by rw [same])
    (by decide +kernel)
  refine ⟨(t,(text_console_clrscr begun term).2 ++ w),?_,⟨kept.1,?_⟩,kept_ansi.trans same⟩
  · rw [init_vterm]
    simp only [begun] at puts ⊢
    rw [puts]
    rfl
  · exact (inScreen_append ..).mpr ⟨inside,kept.2⟩

theorem init_vterms_kept {terms : List Nat} (on : AllOn s) (numbers : ∀ term ∈ terms, 1 ≤ term ∧ term ≤ 4)
    (quiet : s.ansi = fun _ => 0) : ∃ r, init_vterms s terms = some r ∧ Kept r ∧ r.1.ansi = fun _ => 0 := by
  induction terms generalizing s with
  | nil => exact ⟨(s,[]),rfl,⟨on,inScreen_nil⟩,quiet⟩
  | cons term terms ih =>
    have here := numbers term List.mem_cons_self
    obtain ⟨⟨t,w⟩,first,kept,same⟩ := init_vterm_kept on here.1 here.2 quiet
    obtain ⟨⟨u,w'⟩,rest,kept',same'⟩ := ih kept.1 (fun term member => numbers term (List.mem_cons_of_mem _ member)) same
    refine ⟨(u,w ++ w'),by rw [init_vterms,first]; simp only [rest]; rfl,⟨kept'.1,?_⟩,same'⟩
    exact (inScreen_append ..).mpr ⟨kept.2,kept'.2⟩

end

theorem early_init_kept (video : Screen) (buffers : Nat → Screen) :
    ∃ r, text_console_driver_init (text_console_early video buffers) = some r ∧ Kept r ∧ r.1.ansi = fun _ => 0 :=
  init_vterms_kept (fun _ => ⟨by simp [text_console_early],by simp [text_console_early],by simp [text_console_early],
    by simp [text_console_early]⟩) (by decide) rfl

inductive Action where
  | write (term : Nat) (c : UInt8)
  | switch (term : Nat)

def Action.term : Action → Nat
  | .write term _ => term
  | .switch term => term

def perform (s : Display) : Action → Option (Display × Writes)
  | .write term c => text_console_putc s term c
  | .switch term => some (text_console_vterm s term)

/-- A step of the console and of the log of its writes; once an access left the
    driver's fields nothing more is known. -/
def after (x : Option (Display × Writes)) (a : Action) : Option (Display × Writes) :=
  x.bind (fun r => (perform r.1 a).map (fun r' => (r'.1,r.2 ++ r'.2)))

def console_system : System (Option (Display × Writes)) Action where
  start x := ∃ video buffers, x = text_console_driver_init (text_console_early video buffers)
  step x a y := 1 ≤ a.term ∧ a.term ≤ MAX_VTERM ∧ y = after x a

/-- Every cursor is on the screen, and every write was inside it. -/
def Sound (x : Option (Display × Writes)) : Prop := ∃ r, x = some r ∧ Kept r

def Tame (x : Option (Display × Writes)) : Action → Prop
  | .write term c => ∀ r, x = some r → Fits r.1 term c
  | .switch _ => True

variable {x : Option (Display × Writes)}

theorem tame_keeps {a : Action} (sound : Sound x) (low : 1 ≤ a.term)
    (high : a.term ≤ MAX_VTERM) (tame : Tame x a) : Sound (after x a) := by
  obtain ⟨⟨s,log⟩,rfl,on,inside⟩ := sound
  obtain ⟨r,done,kept⟩ : ∃ r, perform s a = some r ∧ Kept r := by
    cases a with
    | write term c => exact putc_kept on low high (tame _ rfl)
    | switch term => exact ⟨_,rfl,switch_kept on⟩
  refine ⟨(r.1,log ++ r.2),by simp [after,done],kept.1,?_⟩
  exact (inScreen_append ..).mpr ⟨inside,kept.2⟩

/-- Whatever is written to the terminals and whichever is shown, after each tame
    character the cursors are on the screen and all writes were inside it. -/
theorem console_sound {x : Option (Display × Writes)} (reached : Reached (guarded console_system Tame) x) : Sound x := by
  refine guarded_invariant ?_ ?_ reached
  · intro x start
    obtain ⟨video,buffers,made⟩ := start
    obtain ⟨r,same,kept,-⟩ := early_init_kept video buffers
    exact ⟨r,made.trans same,kept⟩
  · rintro x a y sound ⟨low,high,rfl⟩ tame
    exact tame_keeps sound low high tame

/-- The console over cleared memory. -/
def blank_console : Option (Display × Writes) :=
  text_console_driver_init (text_console_early (fun _ => 0) (fun _ _ => 0))

section
variable {v : Vterm} {term : Nat}

instance (v : Vterm) : Decidable (Corner v) := inferInstanceAs (Decidable (_ ∧ _))
instance (a : Word) : Decidable (Bright a) := inferInstanceAs (Decidable (_ ∨ _ ∨ _ ∨ _))

instance (f : UInt8) (argv : List Word) : Decidable (Mild v term f argv) :=
  decidable_of_iff (argv.length ≤ 32 ∧ (f = 109 → term < 4 ∨ argv ≠ [] ∧ ∀ a ∈ argv, ¬ Bright a) ∧
      (f = 72 → argv.length = 2 → 1 ≤ (argv.getD 1 0).toInt ∧ 1 ≤ (argv.getD 0 0).toInt ∧ (argv.getD 0 0).toInt ≤ 25) ∧
      (f = 74 ∨ f = 75 → (argv.headD 0).toInt = 1 → ¬ Corner v)) (by
    constructor
    · rintro ⟨count,color,position,corner⟩
      exact ⟨count,color,fun cursor a b same => by subst same; exact position cursor rfl,corner⟩
    · intro mild
      refine ⟨mild.count,mild.color,fun cursor two => ?_,mild.corner⟩
      obtain ⟨a,b,rfl⟩ := List.length_eq_two.mp two
      exact mild.position cursor a b rfl)

instance : DecidablePred (Orderly v term)
  | .leaves => isTrue trivial
  | .nothing _ => inferInstanceAs (Decidable (_ ≤ _))
  | .command _ _ => inferInstanceAs (Decidable (Mild ..))

instance (s : Display) (c : UInt8) : Decidable (Fits s term c) :=
  decidable_of_iff ((escaping s.ansi term c = true → inFields (place s.ansi term) = true) ∧
      (escaping s.ansi term c = true → isalpha c = true → inFields (place (keep s.ansi term c) term) = true) ∧
      (escaping s.ansi term c = true → isalpha c = true →
        Orderly (s.vterm term) term (parse_ansi (collected (finish (keep s.ansi term c) term) term))) ∧
      (escaping s.ansi term c = false → c = 13 ∨ c = 9 ∨ c = 8 → ¬ Corner (s.vterm term)))
    (by
      constructor
      · rintro ⟨room,close,complete,plain⟩
        exact ⟨room,close,complete,plain⟩
      · exact fun fits => ⟨fits.room,fits.close,fits.complete,fits.plain⟩)

end

/-- An action that a console can take, and that is tame in the state it finds. -/
def allowed (x : Option (Display × Writes)) (a : Action) : Bool :=
  1 ≤ a.term && a.term ≤ MAX_VTERM && match x, a with
    | some r, .write term c => decide (Fits r.1 term c)
    | _, _ => true

def all_allowed (x : Option (Display × Writes)) : List Action → Bool
  | [] => true
  | a :: actions => allowed x a && all_allowed (after x a) actions

theorem allowed_run {actions : List Action} (all : all_allowed x actions = true) :
    Run (guarded console_system Tame) actions x (actions.foldl after x) := by
  induction actions generalizing x with
  | nil => exact .done x
  | cons a actions ih =>
    simp only [all_allowed,allowed,Bool.and_eq_true,decide_eq_true_eq] at all
    refine .step ⟨⟨all.1.1.1,all.1.1.2,rfl⟩,?_⟩ (ih all.2)
    cases a with
    | write term c =>
      rintro r rfl
      exact of_decide_eq_true all.1.2
    | switch term => trivial

/-- A cursor position, a tab and a letter, a malformed escape, and another terminal. -/
def typing : List Action :=
  [27,91,50,59,53,72,9,65,27,91,49,63,66].map (Action.write 1) ++ [.switch 2,.write 2 10,.write 1 13]

theorem console_sound_typing : Sound (typing.foldl after blank_console) :=
  console_sound ⟨blank_console,typing,⟨_,_,rfl⟩,allowed_run (by decide +kernel)⟩

theorem run_after (actions : List Action) (numbers : ∀ a ∈ actions, 1 ≤ a.term ∧ a.term ≤ MAX_VTERM) :
    Run console_system actions x (actions.foldl after x) := by
  induction actions generalizing x with
  | nil => exact .done x
  | cons a actions ih =>
    have here := numbers a List.mem_cons_self
    exact .step ⟨here.1,here.2,rfl⟩ (ih (fun a member => numbers a (List.mem_cons_of_mem _ member)))

/-- Down to the last line, to its end, and one more tab. -/
def tabs : List Action := List.replicate 24 (.write 1 10) ++ List.replicate 21 (.write 1 9)

/-- A tab behind the end of the last line leaves the screen: it wraps without a scroll. -/
theorem tab_leaves : ¬ ∀ x, Reached console_system x → Sound x := by
  intro always
  obtain ⟨r,same,on,-⟩ := always (tabs.foldl after blank_console)
    ⟨blank_console,tabs,⟨_,_,rfl⟩,run_after tabs (by decide)⟩
  have line : (tabs.foldl after blank_console).map (fun r => (r.1.vterms 0).y) = some 25 := by decide +kernel
  rw [same] at line
  have y : (r.1.vterms 0).y = 25 := Option.some.inj line
  have below := (on 0).2.2.2
  omega

end MicroOS.ConsoleBounds

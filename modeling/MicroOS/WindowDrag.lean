import Mathlib.Data.List.Basic
import MicroOS.Ints

/-! Moving and resizing a window of the desktop with the mouse (`window.c`). -/

namespace MicroOS.WindowDrag
open Ints
open Option (bind_eq_bind bind_eq_some_iff pure_def some.injEq)

def TITLE_BAR_HEIGHT : Int := 20
def RESIZE_BORDER : Int := 8

inductive drag_type_t where
  | none
  | move
  | resize_n
  | resize_s
  | resize_e
  | resize_w
  | resize_ne
  | resize_nw
  | resize_se
  | resize_sw
  deriving DecidableEq

structure click_area_t where
  x : Int
  y : Int
  width : Int
  height : Int

structure window_instance_t where
  x : Int
  y : Int
  width : Int
  height : Int
  minimize_button : click_area_t
  is_dirty : Bool
  drag_state : drag_type_t
  drag_start_x : Int
  drag_start_y : Int
  drag_start_win_x : Int
  drag_start_win_y : Int
  drag_start_win_width : Int
  drag_start_win_height : Int

/-- Whether a coordinate is in the range between two others, of which the second is only computed for the second test. -/
def between (low : Option Int) (p : Int) (high : Option Int) : Option Bool := do
  if p ≥ (← low) then
    return decide (p < (← high))
  else
    return false

def detect_drag_type (w : window_instance_t) (x y : Int) : Option drag_type_t := do
  let on_title ← between (some w.y) y (int (w.y + TITLE_BAR_HEIGHT))
  let on_title ← if on_title then between (some w.x) x (int (w.x + w.width)) else some false
  if on_title ∧ x < w.minimize_button.x then
    return .move
  let on_top ← between (some w.y) y (int (w.y + RESIZE_BORDER))
  let on_bottom ← between ((int (w.y + w.height)).bind fun bottom => int (bottom - RESIZE_BORDER)) y (int (w.y + w.height))
  let on_left ← between (some w.x) x (int (w.x + RESIZE_BORDER))
  let on_right ← between ((int (w.x + w.width)).bind fun right => int (right - RESIZE_BORDER)) x (int (w.x + w.width))
  if on_top ∧ on_left then return .resize_nw
  if on_top ∧ on_right then return .resize_ne
  if on_bottom ∧ on_left then return .resize_sw
  if on_bottom ∧ on_right then return .resize_se
  if on_top then return .resize_n
  if on_bottom then return .resize_s
  if on_left then return .resize_w
  if on_right then return .resize_e
  return .none

def handle_window_drag (w : window_instance_t) (mouse_x mouse_y : Int) : Option window_instance_t := do
  let dx ← int (mouse_x - w.drag_start_x)
  let dy ← int (mouse_y - w.drag_start_y)
  let w ← match w.drag_state with
    | .move => do
      let x ← int (w.drag_start_win_x + dx)
      let y ← int (w.drag_start_win_y + dy)
      pure { w with x := x, y := y }
    | .resize_n => do
      let y ← int (w.drag_start_win_y + dy)
      let height ← int (w.drag_start_win_height - dy)
      pure { w with y := y, height := if height < 100 then 100 else height }
    | .resize_s => do
      let height ← int (w.drag_start_win_height + dy)
      pure { w with height := if height < 100 then 100 else height }
    | .resize_w => do
      let x ← int (w.drag_start_win_x + dx)
      let width ← int (w.drag_start_win_width - dx)
      pure { w with x := x, width := if width < 150 then 150 else width }
    | .resize_e => do
      let width ← int (w.drag_start_win_width + dx)
      pure { w with width := if width < 150 then 150 else width }
    | .resize_ne => do
      let y ← int (w.drag_start_win_y + dy)
      let height ← int (w.drag_start_win_height - dy)
      let width ← int (w.drag_start_win_width + dx)
      pure { w with y := y, height := if height < 100 then 100 else height, width := if width < 150 then 150 else width }
    | .resize_nw => do
      let x ← int (w.drag_start_win_x + dx)
      let y ← int (w.drag_start_win_y + dy)
      let width ← int (w.drag_start_win_width - dx)
      let height ← int (w.drag_start_win_height - dy)
      pure { w with x := x, y := y, height := if height < 100 then 100 else height,
                    width := if width < 150 then 150 else width }
    | .resize_se => do
      let width ← int (w.drag_start_win_width + dx)
      let height ← int (w.drag_start_win_height + dy)
      pure { w with height := if height < 100 then 100 else height, width := if width < 150 then 150 else width }
    | .resize_sw => do
      let x ← int (w.drag_start_win_x + dx)
      let width ← int (w.drag_start_win_width - dx)
      let height ← int (w.drag_start_win_height + dy)
      pure { w with x := x, height := if height < 100 then 100 else height, width := if width < 150 then 150 else width }
    | .none => some w
  pure { w with is_dirty := true }

/-- What the desktop notes in a window when a drag begins at `(x,y)`. -/
def start_drag (w : window_instance_t) (drag : drag_type_t) (x y : Int) : window_instance_t :=
  { w with drag_state := drag, drag_start_x := x, drag_start_y := y, drag_start_win_x := w.x, drag_start_win_y := w.y,
           drag_start_win_width := w.width, drag_start_win_height := w.height }

/-- The window after the mouse was at some positions. -/
def drags (w : window_instance_t) (positions : List (Int × Int)) : Option window_instance_t :=
  positions.foldlM (fun w p => handle_window_drag w p.1 p.2) w

/-- What a drag does to a side of the window and the one opposite to it. -/
inductive Hold where
  | neither
  | low
  | high
  | both

def drag_type_t.horizontal : drag_type_t → Hold
  | .none | .resize_n | .resize_s => .neither
  | .move => .both
  | .resize_w | .resize_nw | .resize_sw => .low
  | .resize_e | .resize_ne | .resize_se => .high

def drag_type_t.vertical : drag_type_t → Hold
  | .none | .resize_e | .resize_w => .neither
  | .move => .both
  | .resize_n | .resize_nw | .resize_ne => .low
  | .resize_s | .resize_sw | .resize_se => .high

/-- An interval on an axis: where it begins and how long it is. -/
structure Span where
  start : Int
  length : Int

def Span.finish (s : Span) : Int := s.start + s.length

/-- The interval after a drag by `d` that began at `s`, where `now` is the present one. -/
def Span.dragged (hold : Hold) (least : Int) (s now : Span) (d : Int) : Option Span :=
  match hold with
  | .neither => some now
  | .both => do pure ⟨← int (s.start + d),now.length⟩
  | .low => do
    let start ← int (s.start + d)
    let length ← int (s.length - d)
    pure ⟨start,if length < least then least else length⟩
  | .high => do
    let length ← int (s.length + d)
    pure ⟨now.start,if length < least then least else length⟩

def window_instance_t.columns (w : window_instance_t) : Span := ⟨w.x,w.width⟩
def window_instance_t.rows (w : window_instance_t) : Span := ⟨w.y,w.height⟩

/-- The geometry a drag began with. -/
def window_instance_t.start_columns (w : window_instance_t) : Span := ⟨w.drag_start_win_x,w.drag_start_win_width⟩
def window_instance_t.start_rows (w : window_instance_t) : Span := ⟨w.drag_start_win_y,w.drag_start_win_height⟩

/-- The eight directions are a drag of the columns and one of the rows. -/
theorem handle_axes (w : window_instance_t) (mouse_x mouse_y : Int) : handle_window_drag w mouse_x mouse_y = (do
    let dx ← int (mouse_x - w.drag_start_x)
    let dy ← int (mouse_y - w.drag_start_y)
    let columns ← Span.dragged w.drag_state.horizontal 150 w.start_columns w.columns dx
    let rows ← Span.dragged w.drag_state.vertical 100 w.start_rows w.rows dy
    pure { w with x := columns.start, y := rows.start, width := columns.length, height := rows.length, is_dirty := true }) := by
  unfold handle_window_drag
  cases int (mouse_x - w.drag_start_x) with
  | none => rfl
  | some dx =>
    cases int (mouse_y - w.drag_start_y) with
    | none => rfl
    | some dy =>
      cases drag : w.drag_state
      all_goals
        simp only [drag_type_t.horizontal,drag_type_t.vertical,Span.dragged,window_instance_t.columns,window_instance_t.rows,
          window_instance_t.start_columns,window_instance_t.start_rows,bind_eq_bind,Option.bind_some,pure_def,
          Option.bind_assoc]
      -- The order of the operations differs, but with any overflow there is no result.
      case resize_ne =>
        cases int (w.drag_start_win_y + dy) <;> cases int (w.drag_start_win_height - dy) <;>
          cases int (w.drag_start_win_width + dx) <;> rfl
      case resize_nw =>
        cases int (w.drag_start_win_x + dx) <;> cases int (w.drag_start_win_y + dy) <;>
          cases int (w.drag_start_win_width - dx) <;> cases int (w.drag_start_win_height - dy) <;> rfl
      rw [drag]

/-- What a drag leaves alone: the side opposite to a held one, and the length when both are held. -/
def Span.Kept (hold : Hold) (least : Int) (s now : Span) : Prop :=
  least ≤ now.length ∧ match hold with
    | .neither => now = s
    | .both => now.length = s.length
    | .low => now.finish = s.finish
    | .high => now.start = s.start

/-- A drag that overflows no `int` and that does not push the first side beyond the least length. -/
def Span.Allowed (hold : Hold) (least : Int) (s : Span) (d : Int) : Prop :=
  Fits d ∧ match hold with
    | .neither => True
    | .both => Fits (s.start + d)
    | .low => Fits (s.start + d) ∧ Fits (s.length - d) ∧ least ≤ s.length - d
    | .high => Fits (s.length + d)

theorem Span.kept_refl {least : Int} {s : Span} (long : least ≤ s.length) (hold : Hold) : Span.Kept hold least s s :=
  ⟨long,by cases hold <;> rfl⟩

section
variable {hold : Hold} {least : Int} {s now : Span} (long : least ≤ s.length) (kept : Span.Kept hold least s now)
include long kept

/-- One drag keeps what it is to keep exactly when it is allowed. -/
theorem Span.dragged_kept {d : Int} (fits : Fits d) :
    (∃ next, Span.dragged hold least s now d = some next ∧ Span.Kept hold least s next) ↔ Span.Allowed hold least s d := by
  obtain ⟨start,length⟩ := s
  obtain ⟨now_start,now_length⟩ := now
  cases hold with
  | neither => simp [Span.dragged,Span.Allowed,fits,kept]
  | both =>
    have same : now_length = length := kept.2
    subst same
    have long' : least ≤ now_length := kept.1
    simp only [Span.dragged,Span.Allowed,Span.Kept,fits,int_some,true_and,bind_eq_bind,
      bind_eq_some_iff,pure_def,some.injEq]
    constructor
    · rintro ⟨_,⟨_,⟨fits_start,rfl⟩,rfl⟩,-,-⟩
      exact fits_start
    · intro fits_start
      exact ⟨_,⟨_,⟨fits_start,rfl⟩,rfl⟩,long',rfl⟩
  | low =>
    have same : now_start + now_length = start + length := kept.2
    simp only [Span.dragged,Span.Allowed,Span.Kept,Span.finish,fits,int_some,true_and,bind_eq_bind,
      bind_eq_some_iff,pure_def,some.injEq]
    constructor
    · rintro ⟨_,⟨_,⟨fits_start,rfl⟩,_,⟨fits_length,rfl⟩,rfl⟩,long',finish⟩
      refine ⟨fits_start,fits_length,?_⟩
      by_contra short
      simp only [if_pos (Int.not_le.mp short)] at finish
      omega
    · rintro ⟨fits_start,fits_length,enough⟩
      refine ⟨_,⟨_,⟨fits_start,rfl⟩,_,⟨fits_length,rfl⟩,rfl⟩,?_⟩
      simp only [if_neg (Int.not_lt.mpr enough)]
      omega
  | high =>
    have same : now_start = start := kept.2
    subst same
    simp only [Span.dragged,Span.Allowed,Span.Kept,fits,int_some,true_and,bind_eq_bind,
      bind_eq_some_iff,pure_def,some.injEq]
    constructor
    · rintro ⟨_,⟨_,⟨fits_length,rfl⟩,rfl⟩,-,-⟩
      exact fits_length
    · intro fits_length
      refine ⟨_,⟨_,⟨fits_length,rfl⟩,rfl⟩,?_,rfl⟩
      dsimp only
      split_ifs <;> omega

/-- Back at the start of the drag the interval is the one it began with. -/
theorem Span.dragged_back (fits_start : Fits s.start) (fits_length : Fits s.length) :
    Span.dragged hold least s now 0 = some s := by
  obtain ⟨start,length⟩ := s
  obtain ⟨now_start,now_length⟩ := now
  have enough : ¬ length < least := Int.not_lt.mpr long
  cases hold with
  | neither => exact congrArg some kept.2
  | both =>
    have same : now_length = length := kept.2
    simp [Span.dragged,int,fits_start,same]
  | low => simp [Span.dragged,int,fits_start,fits_length,enough]
  | high =>
    have same : now_start = start := kept.2
    simp [Span.dragged,int,fits_length,enough,same]

end

/-- The coordinates of the window are values of the type `int`. -/
structure window_instance_t.Ints (w : window_instance_t) : Prop where
  x : Fits w.x
  y : Fits w.y
  width : Fits w.width
  height : Fits w.height

/-- The least size, and what the drag is to leave alone. -/
def Kept (w : window_instance_t) (drag : drag_type_t) (s : window_instance_t) : Prop :=
  Span.Kept drag.horizontal 150 w.columns s.columns ∧ Span.Kept drag.vertical 100 w.rows s.rows

/-- With the mouse back at `(x,y)` the window has its first geometry again. -/
def Restored (w : window_instance_t) (x y : Int) (s : window_instance_t) : Prop :=
  ∃ back, handle_window_drag s x y = some back ∧ back.columns = w.columns ∧ back.rows = w.rows

/-- A position at which no `int` overflows and no least size is active in a direction that moves the origin. -/
def Allowed (w : window_instance_t) (drag : drag_type_t) (x y : Int) (p : Int × Int) : Prop :=
  Span.Allowed drag.horizontal 150 w.columns (p.1 - x) ∧ Span.Allowed drag.vertical 100 w.rows (p.2 - y)

/-- A drag that began in `w` at `(x,y)`. -/
structure Started (w : window_instance_t) (drag : drag_type_t) (x y : Int) (s : window_instance_t) : Prop where
  state : s.drag_state = drag
  start_x : s.drag_start_x = x
  start_y : s.drag_start_y = y
  columns : s.start_columns = w.columns
  rows : s.start_rows = w.rows

section
variable {w s : window_instance_t} {drag : drag_type_t} {x y : Int}

theorem started (w : window_instance_t) (drag : drag_type_t) (x y : Int) : Started w drag x y (start_drag w drag x y) :=
  ⟨rfl,rfl,rfl,rfl,rfl⟩

section
variable (started : Started w drag x y s)
include started

theorem Started.handle (mouse_x mouse_y : Int) : handle_window_drag s mouse_x mouse_y = (do
    let dx ← int (mouse_x - x)
    let dy ← int (mouse_y - y)
    let columns ← Span.dragged drag.horizontal 150 w.columns s.columns dx
    let rows ← Span.dragged drag.vertical 100 w.rows s.rows dy
    pure { s with x := columns.start, y := rows.start, width := columns.length, height := rows.length, is_dirty := true }) := by
  rw [handle_axes,started.state,started.start_x,started.start_y,started.columns,started.rows]

theorem Started.next {mouse_x mouse_y : Int} {s' : window_instance_t}
    (handled : handle_window_drag s mouse_x mouse_y = some s') : Started w drag x y s' := by
  rw [handle_axes] at handled
  simp only [bind_eq_bind,bind_eq_some_iff,pure_def,some.injEq] at handled
  obtain ⟨_,-,_,-,_,-,_,-,rfl⟩ := handled
  exact ⟨started.state,started.start_x,started.start_y,started.columns,started.rows⟩

section
variable (wide : 150 ≤ w.width) (high : 100 ≤ w.height)
include wide high

theorem Started.restored (ints : w.Ints) (kept : Kept w drag s) : Restored w x y s := by
  have still : int 0 = some 0 := rfl
  have columns := Span.dragged_back wide kept.1 ints.x ints.width
  have rows := Span.dragged_back high kept.2 ints.y ints.height
  refine ⟨{ s with x := w.x, y := w.y, width := w.width, height := w.height, is_dirty := true },?_,rfl,rfl⟩
  rw [started.handle,Int.sub_self,Int.sub_self,still]
  simp only [bind_eq_bind,Option.bind_some,columns,rows]
  rfl

/-- A step keeps what it is to keep exactly at the allowed positions. -/
theorem Started.step (kept : Kept w drag s) (p : Int × Int) :
    (∃ s', handle_window_drag s p.1 p.2 = some s' ∧ Kept w drag s') ↔ Allowed w drag x y p := by
  rw [started.handle]
  simp only [bind_eq_bind,bind_eq_some_iff,pure_def,some.injEq,int_some]
  constructor
  · rintro ⟨_,⟨_,⟨fits_x,rfl⟩,_,⟨fits_y,rfl⟩,columns,dragged,rows,dragged',rfl⟩,keeps⟩
    exact ⟨(Span.dragged_kept wide kept.1 fits_x).mp ⟨columns,dragged,keeps.1⟩,
      (Span.dragged_kept high kept.2 fits_y).mp ⟨rows,dragged',keeps.2⟩⟩
  · rintro ⟨columns_allowed,rows_allowed⟩
    obtain ⟨columns,dragged,keeps⟩ := (Span.dragged_kept wide kept.1 columns_allowed.1).mpr columns_allowed
    obtain ⟨rows,dragged',keeps'⟩ := (Span.dragged_kept high kept.2 rows_allowed.1).mpr rows_allowed
    exact ⟨_,⟨_,⟨columns_allowed.1,rfl⟩,_,⟨rows_allowed.1,rfl⟩,columns,dragged,rows,dragged',rfl⟩,keeps,keeps'⟩

theorem Started.run (ints : w.Ints) (kept : Kept w drag s) (positions : List (Int × Int)) :
    (∀ before, before <+: positions → ∃ s', drags s before = some s' ∧ Kept w drag s' ∧ Restored w x y s') ↔
      ∀ p ∈ positions, Allowed w drag x y p := by
  induction positions generalizing s with
  | nil =>
    refine ⟨fun _ p absent => absurd absent List.not_mem_nil,fun _ before none => ?_⟩
    rw [List.prefix_nil.mp none]
    exact ⟨s,rfl,kept,started.restored wide high ints kept⟩
  | cons p positions ih =>
    rw [List.forall_mem_cons,← started.step wide high kept p]
    constructor
    · intro good
      obtain ⟨s',handled,keeps,-⟩ := good [p] (List.prefix_append [p] positions)
      replace handled : handle_window_drag s p.1 p.2 = some s' := by simpa [drags] using handled
      refine ⟨⟨s',handled,keeps⟩,(ih (started.next handled) keeps).mp fun before early => ?_⟩
      simpa [drags,handled] using good (p :: before) ((List.prefix_cons_inj p).mpr early)
    · rintro ⟨⟨s',handled,keeps⟩,later⟩ before early
      cases before with
      | nil => exact ⟨s,rfl,kept,started.restored wide high ints kept⟩
      | cons q before =>
        obtain ⟨rfl,early'⟩ := List.cons_prefix_cons.mp early
        simpa [drags,handled] using (ih (started.next handled) keeps).mpr later before early'

end

end

end

/-- In every drag, of whichever kind `detect_drag_type` chooses, the window keeps its least size and the sides that are not
    held, and comes back with the mouse, exactly when no position makes a least size active in a direction that moves the
    origin (or overflows an `int`). -/
theorem window_drag {w : window_instance_t} {drag : drag_type_t} {x y : Int} (wide : 150 ≤ w.width) (high : 100 ≤ w.height)
    (ints : w.Ints) (positions : List (Int × Int)) :
    (∀ before, before <+: positions → ∃ s, drags (start_drag w drag x y) before = some s ∧ Kept w drag s ∧ Restored w x y s) ↔
      ∀ p ∈ positions, Allowed w drag x y p :=
  (started w drag x y).run wide high ints ⟨Span.kept_refl wide _,Span.kept_refl high _⟩ positions

/-- A window of 200 by 150 at `(100,100)`. -/
def sample_window : window_instance_t where
  x := 100
  y := 100
  width := 200
  height := 150
  minimize_button := ⟨262,102,16,16⟩
  is_dirty := false
  drag_state := .none
  drag_start_x := 0
  drag_start_y := 0
  drag_start_win_x := 0
  drag_start_win_y := 0
  drag_start_win_width := 0
  drag_start_win_height := 0

theorem sample_window_ints : sample_window.Ints := ⟨by decide,by decide,by decide,by decide⟩

/-- Its left side, dragged by 50 pixels and back. -/
theorem window_drag_left : detect_drag_type sample_window 102 180 = some .resize_w ∧
    ((∀ before, before <+: [(152,180),(102,180)] → ∃ s, drags (start_drag sample_window .resize_w 102 180) before = some s ∧
      Kept sample_window .resize_w s ∧ Restored sample_window 102 180 s) ↔
        ∀ p ∈ [((152 : Int),(180 : Int)),(102,180)], Allowed sample_window .resize_w 102 180 p) :=
  ⟨rfl,window_drag (by decide) (by decide) sample_window_ints _⟩

/-- Its left side, dragged by 100 pixels: the width stays at 150 and the right side moves by 50 pixels. -/
theorem clamped_side_moves : detect_drag_type sample_window 102 180 = some .resize_w ∧
    (drags (start_drag sample_window .resize_w 102 180) [(202,180)]).map (fun s => s.x + s.width) =
      some (sample_window.x + sample_window.width + 50) ∧
    ¬ ∀ before, before <+: [(202,180)] → ∃ s, drags (start_drag sample_window .resize_w 102 180) before = some s ∧
      Kept sample_window .resize_w s ∧ Restored sample_window 102 180 s := by
  refine ⟨rfl,by decide,fun good => ?_⟩
  obtain ⟨s,dragged,⟨⟨-,side⟩,-⟩,-⟩ := good [(202,180)] (List.prefix_refl _)
  replace side : s.x + s.width = 100 + 200 := side
  have moved : (drags (start_drag sample_window .resize_w 102 180) [(202,180)]).map (fun s => s.x + s.width) = some 350 := by
    decide
  rw [dragged,Option.map_some,side] at moved
  exact absurd moved (by decide)

end MicroOS.WindowDrag

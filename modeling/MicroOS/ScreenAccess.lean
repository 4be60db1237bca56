import MicroOS.Terminals

/-!
Processes that read and write a terminal's screen and cursor themselves. A call names bytes of the screen by a number and a
count that come from the process; places count modulo `2 ^ 32`.
-/

namespace MicroOS.ScreenAccess
open Console Runs
open ConsoleBounds (InScreen)
open Terminals
open Option (map_eq_some_iff some.inj)

structure cpu_registers_t where
  ebx : Word
  ecx : Word
  edx : Word

def place (offset : Word) (i : Nat) : Int := ((offset.toNat + i) % 2 ^ 32 : Nat)

/-- `memcpy` to a screen, whose other bytes stay. -/
def text_console_driver_vpoke (s : Display) (term : Nat) (offset : Word) (val : Nat → UInt8) (range : Word) : Display × Writes :=
  let w := (List.range range.toNat).map fun i => (place offset i,val i)
  (s.show term w,w)

/-- The bytes that are copied to the process. -/
def text_console_driver_vpeek (s : Display) (term : Nat) (offset range : Word) : List UInt8 :=
  (List.range range.toNat).map fun i => s.screen term (place offset i)

def text_console_driver_vcursor (m : Machine) (term : Nat) (x y : Int) : Machine :=
  let s := text_console_vcursor m.display term x y
  ⟨s,if s.current_term = term then location (s.vterm term) else m.cursor⟩

/-- Both numbers are the place in the line. -/
def text_console_vcursor_get (s : Display) (term : Nat) : Int × Int := ((s.vterm term).x,(s.vterm term).x)

/-- `memory` are the bytes of the process. -/
def sys_vpoke (m : Machine) (current : Nat) (regs : cpu_registers_t) (memory : Word → UInt8) : Option (Machine × Writes) :=
  if regs.ecx = 0 then none
  else
    let (s,w) := text_console_driver_vpoke m.display current regs.ebx (fun i => memory (regs.ecx + BitVec.ofNat 32 i)) regs.edx
    some (⟨s,m.cursor⟩,w)

def sys_vpeek (m : Machine) (current : Nat) (regs : cpu_registers_t) : Option (List UInt8) :=
  if regs.ecx = 0 then none else some (text_console_driver_vpeek m.display current regs.ebx regs.edx)

def sys_vcursor (m : Machine) (current : Nat) (regs : cpu_registers_t) : Machine :=
  text_console_driver_vcursor m current regs.ebx.toInt regs.ecx.toInt

def sys_vcursor_get (m : Machine) (current : Nat) (regs : cpu_registers_t) : Option (Int × Int) :=
  if regs.ebx = 0 ∨ regs.ecx = 0 then none else some (text_console_vcursor_get m.display current)

inductive Event where
  | vpoke (t : Term) (regs : cpu_registers_t) (memory : Word → UInt8)
  | vpeek (t : Term) (regs : cpu_registers_t)
  | vcursor (t : Term) (regs : cpu_registers_t)
  | vcursor_get (t : Term) (regs : cpu_registers_t)
  | vterm (t : Term)

def perform (m : Machine) : Event → Option (Machine × Writes)
  | .vpoke t regs memory => sys_vpoke m t regs memory
  | .vpeek t regs => (sys_vpeek m t regs).map fun _ => (m,[])
  | .vcursor t regs => some (sys_vcursor m t regs,[])
  | .vcursor_get t regs => (sys_vcursor_get m t regs).map fun _ => (m,[])
  | .vterm t => some (text_console_driver_vterm m t,[])

def screen_calls : System Machine Event where
  start m := 1 ≤ m.display.current_term ∧ m.display.current_term ≤ MAX_VTERM
  step m e m' := ∃ w, perform m e = some (m',w)

def pokes (t : Term) : Event → Bool
  | .vpoke u _ _ => u = t
  | _ => false

def places (t : Term) : Event → Bool
  | .vcursor u _ => u = t
  | _ => false

/-- Only bytes of a terminal's screen are different, and only those written. -/
structure Frame (t : Term) (m m' : Machine) (w : Writes) : Prop where
  inside : InScreen w
  bytes : ∀ k, k ∉ w.map Prod.fst → m'.display.screen t k = m.display.screen t k
  others : ∀ u : Term, u ≠ t → m'.display.screen u = m.display.screen u
  cursors : ∀ u : Term, ∃ buffer, m'.display.vterm u = { m.display.vterm u with buffer := buffer }
  rest : m'.display.current_term = m.display.current_term ∧ m'.display.ansi = m.display.ansi ∧ m'.cursor = m.cursor

/-- What the calls promise, along a run that has come to `m`. -/
structure Right (start : Machine) (events : List Event) (m : Machine) : Prop where
  frame : ∀ front (t : Term) regs memory back m₁ m₂ w, events = front ++ .vpoke t regs memory :: back → Run screen_calls front start m₁ →
    sys_vpoke m₁ t regs memory = some (m₂,w) → Frame t m₁ m₂ w
  read : ∀ front (t : Term) regs memory middle, events = front ++ .vpoke t regs memory :: middle → (∀ e ∈ middle, pokes t e = false) →
    text_console_driver_vpeek m.display t regs.ebx regs.edx =
      (List.range regs.edx.toNat).map fun i => memory (regs.ecx + BitVec.ofNat 32 i)
  cursor : ∀ front (t : Term) regs middle, events = front ++ .vcursor t regs :: middle → (∀ e ∈ middle, places t e = false) →
    text_console_vcursor_get m.display t = (regs.ebx.toInt,regs.ecx.toInt)

def Fits (offset range : Word) : Prop := range = 0 ∨ offset.toNat + range.toNat ≤ 80 * 25 * 2

instance (offset range : Word) : Decidable (Fits offset range) := inferInstanceAs (Decidable (_ ∨ _))

def Meets : Event → Prop
  | .vpoke _ regs _ => Fits regs.ebx regs.edx
  | .vcursor _ regs => regs.ebx = regs.ecx
  | _ => True

section
variable {s : Display} {m m' : Machine} {offset range : Word}

theorem place_eq (fits : Fits offset range) {i : Nat} (here : i < range.toNat) : place offset i = offset.toNat + i := by
  rcases fits with rfl | fits
  · exact absurd here (by simp)
  · rw [place,Nat.mod_eq_of_lt (by omega)]
    rfl

/-- Exactly the accesses that fit stay on the screen. -/
theorem vpoke_inside (s : Display) (term : Nat) (offset : Word) (val : Nat → UInt8) (range : Word) :
    InScreen (text_console_driver_vpoke s term offset val range).2 ↔ Fits offset range := by
  have places : InScreen (text_console_driver_vpoke s term offset val range).2 ↔
      ∀ i < range.toNat, 0 ≤ place offset i ∧ place offset i < 80 * 25 * 2 := by
    simp [InScreen,text_console_driver_vpoke]
  rw [places]
  constructor
  · intro inside
    by_contra not_fits
    rw [Fits,not_or] at not_fits
    have some_byte : range.toNat ≠ 0 := fun zero => not_fits.1 (BitVec.eq_of_toNat_eq zero)
    have first := (inside 0 (by omega)).2
    rw [place,Nat.add_zero,Nat.mod_eq_of_lt offset.isLt] at first
    have behind := (inside (4000 - offset.toNat) (by omega)).2
    rw [place,Nat.add_sub_of_le (by omega)] at behind
    omega
  · intro fits i here
    rw [place_eq fits here]
    rcases fits with rfl | fits
    · exact absurd here (by simp)
    · omega

example (s : Display) : ¬InScreen (text_console_driver_vpoke s 1 4000 (fun _ => 65) 1).2 := by
  rw [vpoke_inside]
  decide

theorem store_other (screen : Screen) {w : Writes} {k : Int} (other : k ∉ w.map Prod.fst) : store screen w k = screen k := by
  induction w generalizing screen with
  | nil => rfl
  | cons p w ih =>
    rw [List.map_cons,List.mem_cons,not_or] at other
    exact (ih _ other.2).trans (Function.update_of_ne other.1 _ _)

/-- Bytes written one behind the other are read back. -/
theorem store_here (screen : Screen) (base : Int) (val : Nat → UInt8) {n i : Nat} (here : i < n) :
    store screen ((List.range n).map fun i : Nat => (base + i,val i)) (base + i) = val i := by
  induction n with
  | zero => omega
  | succ n ih =>
    rw [List.range_succ,List.map_append,store_append]
    simp only [store,List.map_cons,List.map_nil,List.foldl_cons,List.foldl_nil,Function.update_apply]
    by_cases last : i = n
    · rw [if_pos (by rw [last]),last]
    · rw [if_neg (by omega)]
      exact ih (by omega)

theorem show_other {t u : Nat} (s : Display) (w : Writes) (low : 1 ≤ t) (low' : 1 ≤ u) (other : u ≠ t) :
    (s.show t w).screen u = s.screen u := by
  rw [Display.screen,Display.screen,show_current]
  by_cases current : s.current_term = t
  · rw [Display.show,if_pos current,if_neg fun same => other (same.symm.trans current),if_neg fun same => other (same.symm.trans current)]
    rfl
  · rw [Display.show,if_neg current,setVterm_other s _ low' low other.symm]
    rfl

theorem show_cursors {t u : Nat} (s : Display) (w : Writes) (low : 1 ≤ t) (low' : 1 ≤ u) :
    ∃ buffer, (s.show t w).vterm u = { s.vterm u with buffer := buffer } := by
  by_cases same : u = t
  · rw [same]
    exact show_vterm s t w
  · refine ⟨(s.vterm u).buffer,?_⟩
    rw [Display.show]
    split
    · rfl
    · exact setVterm_other s _ low' low (Ne.symm same)

theorem show_ansi (s : Display) (term : Nat) (w : Writes) : (s.show term w).ansi = s.ansi := by
  rw [Display.show]
  split <;> rfl

section
variable {t : Term} {regs : cpu_registers_t} {memory : Word → UInt8} {w : Writes}
  (poked : sys_vpoke m t regs memory = some (m',w))
include poked

theorem vpoke_some :
    w = (List.range regs.edx.toNat).map (fun i => (place regs.ebx i,memory (regs.ecx + BitVec.ofNat 32 i))) ∧
      m' = ⟨m.display.show t w,m.cursor⟩ ∧ (InScreen w ↔ Fits regs.ebx regs.edx) := by
  rw [sys_vpoke] at poked
  split_ifs at poked
  have fits := vpoke_inside m.display t regs.ebx (fun i => memory (regs.ecx + BitVec.ofNat 32 i)) regs.edx
  obtain ⟨rfl,rfl⟩ := Prod.mk.inj (some.inj poked)
  exact ⟨rfl,rfl,fits⟩

theorem vpoke_frame (fits : Fits regs.ebx regs.edx) : Frame t m m' w := by
  obtain ⟨_,rfl,inside⟩ := vpoke_some poked
  refine ⟨inside.mpr fits,fun k other => ?_,fun u other => ?_,fun u => ?_,show_current _ _ _,show_ansi _ _ _,rfl⟩
  · exact (congrFun (show_screen _ _ _) k).trans (store_other _ other)
  · exact show_other _ _ t.property.1 u.property.1 fun same => other (Subtype.ext same)
  · exact show_cursors _ _ t.property.1 u.property.1

theorem vpoke_read (fits : Fits regs.ebx regs.edx) {i : Nat} (here : i < regs.edx.toNat) :
    m'.display.screen t (place regs.ebx i) = memory (regs.ecx + BitVec.ofNat 32 i) := by
  obtain ⟨rfl,rfl,_⟩ := vpoke_some poked
  rw [show_screen,place_eq fits here]
  have placed : (List.range regs.edx.toNat).map (fun i => (place regs.ebx i,memory (regs.ecx + BitVec.ofNat 32 i))) =
      (List.range regs.edx.toNat).map fun i : Nat => ((regs.ebx.toNat : Int) + i,memory (regs.ecx + BitVec.ofNat 32 i)) := by
    apply List.map_congr_left
    intro j below
    rw [place_eq fits (List.mem_range.mp below)]
  rw [placed]
  exact store_here _ _ (fun i => memory (regs.ecx + BitVec.ofNat 32 i)) here

end

theorem vcursor_screen (m : Machine) {t u : Nat} (low : 1 ≤ t) (low' : 1 ≤ u) (x y : Int) :
    (text_console_driver_vcursor m t x y).display.screen u = m.display.screen u ∧
      (u ≠ t → (text_console_driver_vcursor m t x y).display.vterm u = m.display.vterm u) ∧
      ((text_console_driver_vcursor m t x y).display.vterm t).x = x := by
  simp only [text_console_driver_vcursor,text_console_vcursor]
  refine ⟨?_,fun other => setVterm_other _ _ low' low other.symm,by rw [setVterm_vterm]⟩
  by_cases same : u = t
  · rw [same,setVterm_screen,Display.screen]
  · rw [Display.screen,setVterm_other _ _ low' low (Ne.symm same)]
    rfl

theorem step_current {e : Event} (step : screen_calls.step m e m') (current : 1 ≤ m.display.current_term) :
    1 ≤ m'.display.current_term := by
  obtain ⟨w,step⟩ := step
  cases e with
  | vpoke t regs memory =>
    obtain ⟨_,rfl,_⟩ := vpoke_some step
    exact current.trans_eq (show_current _ _ _).symm
  | vpeek t regs =>
    obtain ⟨_,_,same⟩ := map_eq_some_iff.mp step
    exact (Prod.mk.inj same).1 ▸ current
  | vcursor t regs =>
    obtain ⟨rfl,_⟩ := Prod.mk.inj (some.inj step)
    exact current
  | vcursor_get t regs =>
    obtain ⟨_,_,same⟩ := map_eq_some_iff.mp step
    exact (Prod.mk.inj same).1 ▸ current
  | vterm t =>
    obtain ⟨rfl,_⟩ := Prod.mk.inj (some.inj step)
    exact t.property.1

/-- A step keeps the screens it does not write to and the cursors it does not place. -/
theorem step_keeps {e : Event} (step : screen_calls.step m e m') (current : 1 ≤ m.display.current_term) (t : Term) :
    (pokes t e = false → Agree (m'.display.screen t) (m.display.screen t)) ∧
      (places t e = false → (m'.display.vterm t).x = (m.display.vterm t).x) := by
  obtain ⟨w,step⟩ := step
  cases e with
  | vpoke u regs memory =>
    obtain ⟨_,rfl,_⟩ := vpoke_some step
    refine ⟨fun unpoked k _ _ => ?_,fun _ => ?_⟩
    · have other : (t : Nat) ≠ u := fun same => by simp [pokes,Subtype.ext same] at unpoked
      exact congrFun (show_other _ _ u.property.1 t.property.1 other) k
    · obtain ⟨buffer,same⟩ := show_cursors m.display w u.property.1 t.property.1
      exact (congrArg Vterm.x same).trans rfl
  | vpeek u regs =>
    obtain ⟨_,_,same⟩ := map_eq_some_iff.mp step
    obtain rfl := (Prod.mk.inj same).1
    exact ⟨fun _ _ _ _ => rfl,fun _ => rfl⟩
  | vcursor u regs =>
    obtain ⟨rfl,_⟩ := Prod.mk.inj (some.inj step)
    have kept := vcursor_screen m u.property.1 t.property.1 regs.ebx.toInt regs.ecx.toInt
    refine ⟨fun _ k _ _ => congrFun kept.1 k,fun unplaced => ?_⟩
    have other : (t : Nat) ≠ u := fun same => by simp [places,Subtype.ext same] at unplaced
    exact congrArg Vterm.x (kept.2.1 other)
  | vcursor_get u regs =>
    obtain ⟨_,_,same⟩ := map_eq_some_iff.mp step
    obtain rfl := (Prod.mk.inj same).1
    exact ⟨fun _ _ _ _ => rfl,fun _ => rfl⟩
  | vterm u =>
    obtain ⟨rfl,_⟩ := Prod.mk.inj (some.inj step)
    refine ⟨fun _ => switch_screen m.display t.property.1 current,fun _ => ?_⟩
    obtain ⟨buffer,same⟩ := @switch_vterm u t m.display t.property.1 current
    exact (congrArg Vterm.x same).trans rfl

/-- The same along a run. -/
theorem run_keeps {events : List Event} (run : Run screen_calls events m m') (current : 1 ≤ m.display.current_term) (t : Term) :
    1 ≤ m'.display.current_term ∧ ((∀ e ∈ events, pokes t e = false) → Agree (m'.display.screen t) (m.display.screen t)) ∧
      ((∀ e ∈ events, places t e = false) → (m'.display.vterm t).x = (m.display.vterm t).x) := by
  induction run with
  | done m => exact ⟨current,fun _ _ _ _ => rfl,fun _ => rfl⟩
  | step first rest ih =>
    obtain ⟨last,screens,cursors⟩ := ih (step_current first current)
    have now := step_keeps first current t
    refine ⟨last,fun unpoked k low high => ?_,fun unplaced => ?_⟩
    · have later := screens (fun e behind => unpoked e (List.mem_cons_of_mem _ behind)) k low high
      exact later.trans (now.1 (unpoked _ (List.mem_cons_self ..)) k low high)
    · exact (cursors fun e behind => unplaced e (List.mem_cons_of_mem _ behind)).trans (now.2 (unplaced _ (List.mem_cons_self ..)))

/-- Along a run whose accesses fit, and which places every cursor at equal numbers, the calls do what they promise. -/
theorem screen_calls_right {events : List Event} (started : screen_calls.start m) (run : Run screen_calls events m m')
    (meets : ∀ e ∈ events, Meets e) : Right m events m' := by
  refine ⟨fun front t regs memory back m₁ m₂ w split _ poked => ?_,fun front t regs memory middle split unpoked => ?_,
    fun front t regs middle split unplaced => ?_⟩
  · exact vpoke_frame poked (meets (.vpoke t regs memory) (by simp [split]))
  · have fits : Fits regs.ebx regs.edx := meets (.vpoke t regs memory) (by simp [split])
    rw [split] at run
    obtain ⟨m₁,before,rest⟩ := run_split run
    cases rest with
    | step first behind =>
      have current := (run_keeps before started.1 t).1
      have kept := (run_keeps behind (step_current first current) t).2.1 unpoked
      obtain ⟨w,poked⟩ := first
      apply List.map_congr_left
      intro i below
      have here := List.mem_range.mp below
      rw [← vpoke_read poked fits here]
      have place := place_eq fits here
      rcases fits with zero | fits
      · rw [zero] at here
        exact absurd here (by simp)
      · exact kept _ (by omega) (by omega)
  · have equal : regs.ebx = regs.ecx := meets (.vcursor t regs) (by simp [split])
    rw [split] at run
    obtain ⟨m₁,before,rest⟩ := run_split run
    cases rest with
    | step first behind =>
      have current := (run_keeps before started.1 t).1
      have kept := (run_keeps behind (step_current first current) t).2.2 unplaced
      obtain ⟨w,placed⟩ := first
      obtain ⟨rfl,_⟩ := Prod.mk.inj (some.inj placed)
      have set := (vcursor_screen m₁ t.property.1 t.property.1 regs.ebx.toInt regs.ecx.toInt).2.2
      rw [text_console_vcursor_get,kept,← equal]
      exact Prod.ext set set

end

def first : Term := Terminals.first
def second : Term := ⟨2,by decide⟩

def empty_machine : Machine := ⟨⟨fun _ => 0,fun _ => ⟨0,0,7,fun _ => 0⟩,1,fun _ => 0⟩,0⟩

theorem screen_calls_right_two : ∃ m, Right empty_machine [.vpoke first ⟨10,4096,1⟩ (fun _ => 65),.vterm second,.vcursor first ⟨3,3,0⟩] m :=
  ⟨_,screen_calls_right ⟨by decide,by decide⟩ (.step ⟨_,rfl⟩ (.step ⟨_,rfl⟩ (.step ⟨_,rfl⟩ (.done _)))) (by
    simp only [List.mem_cons,List.not_mem_nil,or_false,forall_eq_or_imp,forall_eq]
    exact ⟨.inr (by decide),trivial,rfl⟩)⟩

/-- A cursor at column 3 and line 5 is read back at line 3. -/
theorem line_not_read : ¬∀ start events m, screen_calls.start start → Run screen_calls events start m → Right start events m := by
  intro right
  have placed := right empty_machine [.vcursor first ⟨3,5,0⟩] _ ⟨by decide,by decide⟩ (.step ⟨_,rfl⟩ (.done _))
  have cursor := placed.cursor [] first ⟨3,5,0⟩ [] rfl fun e behind => by simp at behind
  exact absurd cursor (by decide)

end MicroOS.ScreenAccess

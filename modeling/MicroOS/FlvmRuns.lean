import MicroOS.Flvm
import MicroOS.Outcomes
import MicroOS.Runs

/-! Runs of the bytecode machine that stay in it: what an instruction needs of the state it begins in, and that it is enough. -/

namespace MicroOS.FlvmRuns
open Flvm Outcomes Runs

/-- The stack and the call stack are used within their sizes. -/
structure Slots (vm : vm_instance) : Prop where
  stack_low : 0 ≤ vm.stack_ptr
  stack_high : vm.stack_ptr ≤ vm.max_stack
  depth_low : 0 ≤ vm.call_depth
  depth_high : vm.call_depth < MAX_CALL_DEPTH

/-- And the next instruction lies in the code. -/
def Limits (vm : vm_instance) : Prop := Slots vm ∧ vm.counter.toNat < vm.code_size

section
variable (p : Process) (vm : vm_instance)

/-- The eight bytes behind the instruction. -/
def operand : Value := BitVec.ofNat 64 (code_number vm vm.counter.toNat 8)

/-- The next value to be taken off the stack, and the one below. -/
def top : Value := vm.stack (vm.stack_ptr - 1)
def below : Value := vm.stack (vm.stack_ptr - 1 - 1)

def this_frame : call_frame := vm.call_stack vm.call_depth

/-- Some bytes of operands are there. -/
def Reads (n : Nat) : Prop := vm.counter.toNat + n ≤ vm.code_size

/-- And an instruction behind them. -/
def Ahead (n : Nat) : Prop := vm.counter.toNat + n < vm.code_size

/-- The stack has the values that are taken and room for those that are put on it then. -/
def Room (pops pushes : Nat) : Prop := (pops : Int) ≤ vm.stack_ptr ∧ vm.stack_ptr - pops + pushes ≤ vm.max_stack

def Has (idx : Value) : Prop := idx.toNat < 256 ∨ ((idx.toNat - 256 : Nat) : Int) < vm.global_variable_size

/-- There is memory for a global, whose number is a positive one of 31 bits then. -/
def Grows (idx : Value) : Prop :=
  (idx.toNat : Int) < vm.global_variable_size ∨ (8 * (idx.toNat + 1) < 2 ^ 32 ∧ p.room (idx.toNat + 1) = true)

def type_of (idx : Value) : UInt8 :=
  if idx.toNat ≥ 256 then vm.global_variable_types (idx.toNat - 256) else (this_frame vm).variable_types idx.toNat

def value_of (idx : Value) : Value :=
  if idx.toNat ≥ 256 then vm.global_variables (idx.toNat - 256) else (this_frame vm).variables_ idx.toNat

/-- An element of an array is not a part of the machine. -/
def Element (idx index : Value) : Prop :=
  ∀ size, datatypeToSize (getVariableType (type_of vm idx)) = .ok size → apart p (element (value_of vm idx) index size) size = true

/-- What an instruction needs, in the state behind its byte. -/
def Fit : Instructions → Prop
  | .GLOBAL_RESERVE => Ahead vm 10 ∧ Grows p vm (operand vm - 256)
  | .VARIABLE => Ahead vm 10 ∧ (operand vm).toNat < 256
  | .ASSIGN => Ahead vm 8 ∧ Room vm 1 0 ∧ Has vm (operand vm)
  | .ASSIGN_INDEXED => Ahead vm 8 ∧ Room vm 2 0 ∧ Has vm (operand vm) ∧ Element p vm (operand vm) (below vm)
  | .LOAD => Ahead vm 8 ∧ Room vm 0 1 ∧ Has vm (operand vm)
  | .LOAD_INDEXED => Ahead vm 8 ∧ Room vm 1 1 ∧ Has vm (operand vm) ∧
      if getVariableArray (type_of vm (operand vm)) = true then Element p vm (operand vm) (top vm)
      else (top vm).toNat < 31 ∨ 64 ≤ (top vm).toNat
  | .STRING => Reads vm 8 ∧ Room vm 0 1 ∧ (vm.counter + 8 + (operand vm + 1)).toNat < vm.code_size
  | .NUMBER => Ahead vm 8 ∧ Room vm 0 1
  | .GOTO => Reads vm 8 ∧ (operand vm).toNat < vm.code_size
  | .GOTO_TRUE => Reads vm 8 ∧ Room vm 1 0 ∧ if top vm ≠ 0 then (operand vm).toNat < vm.code_size else Ahead vm 8
  | .GOTO_FALSE => Reads vm 8 ∧ Room vm 1 0 ∧ if top vm = 0 then (operand vm).toNat < vm.code_size else Ahead vm 8
  | .INVOKE => Reads vm 8 ∧ (operand vm).toNat < vm.code_size ∧ vm.call_depth + 1 < MAX_CALL_DEPTH
  | .INVOKE_NATIVE => Reads vm 8 ∧ ∀ n, native p (operand vm) = some n → Ahead vm 8 ∧ Room vm n.pops n.pushes
  | .RETURN =>
      if (this_frame vm).noreturn = true then vm.call_depth + 1 < MAX_CALL_DEPTH ∧ 24 ≤ vm.code_size ∧ code_number vm 16 8 < vm.code_size
      else 0 < vm.call_depth → (this_frame vm).return_address.toNat < vm.code_size
  | .INCREASE | .DECREASE => Ahead vm 8 ∧ Has vm (operand vm)
  | .INVERT | .NOT | .CHANGE_SIGN => Ahead vm 0 ∧ Room vm 1 1
  | .NORETURN => Ahead vm 0
  | .DELETE => Ahead vm 0 ∧ Room vm 1 0
  | _ => Ahead vm 0 ∧ Room vm 2 1

/-- The instruction a state is at. -/
def instruction : Option Instructions := all_instructions[(UInt8.ofNat (code_number vm vm.counter.toNat 1)).toNat]?

/-- The condition on a step. -/
def Fits : Prop := ∀ i, instruction vm = some i → Fit p (advance vm 1) i

/-- A bit of a variable is read as it is. -/
def Bit (vm' : vm_instance) : Prop :=
  instruction vm = some .LOAD_INDEXED → getVariableArray (type_of vm (operand (advance vm 1))) = false → (top vm).toNat < 64 →
    top vm' = flag ((value_of vm (operand (advance vm 1))).getLsbD (top vm).toNat)

/-- A step aborts, ends the process, stops the machine or keeps it in its limits, without an access that leaves it. -/
structure Stays : Prop where
  inside : step vm p ≠ .error .outside
  keeps : ∀ vm', step vm p = .ok vm' → vm'.running = true → Limits vm'
  bit : ∀ vm', step vm p = .ok vm' → Bit vm vm'

end

section
variable {p : Process} {vm : vm_instance} {idx index value : Value}

@[simp] theorem has_lower : Has (lower vm) idx ↔ Has vm idx := Iff.rfl
@[simp] theorem has_advance (n : Value) : Has (advance vm n) idx ↔ Has vm idx := Iff.rfl
@[simp] theorem grows_advance (n : Value) : Grows p (advance vm n) idx ↔ Grows p vm idx := Iff.rfl
@[simp] theorem value_lower : value_of (lower vm) idx = value_of vm idx := rfl
@[simp] theorem value_advance (n : Value) : value_of (advance vm n) idx = value_of vm idx := rfl
@[simp] theorem type_lower : type_of (lower vm) idx = type_of vm idx := rfl
@[simp] theorem type_advance (n : Value) : type_of (advance vm n) idx = type_of vm idx := rfl
@[simp] theorem top_advance (n : Value) : top (advance vm n) = top vm := rfl
@[simp] theorem below_advance (n : Value) : below (advance vm n) = below vm := rfl
@[simp] theorem top_lower : top (lower vm) = below vm := rfl
@[simp] theorem top_raise : top (raise vm value) = value := by simp [top,raise]
@[simp] theorem stack_ptr_advance (n : Value) : (advance vm n).stack_ptr = vm.stack_ptr := rfl
@[simp] theorem stack_ptr_lower : (lower vm).stack_ptr = vm.stack_ptr - 1 := rfl
@[simp] theorem stack_ptr_raise : (raise vm value).stack_ptr = vm.stack_ptr + 1 := rfl
@[simp] theorem max_stack_advance (n : Value) : (advance vm n).max_stack = vm.max_stack := rfl
@[simp] theorem max_stack_lower : (lower vm).max_stack = vm.max_stack := rfl
@[simp] theorem max_stack_raise : (raise vm value).max_stack = vm.max_stack := rfl

theorem operand_ok (reads : Reads vm 8) : read_u64 vm vm.counter = .ok (operand vm) := if_pos reads

theorem frame_ok (slots : Slots vm) : frame vm = .ok (this_frame vm) := if_pos ⟨slots.depth_low,slots.depth_high⟩

theorem set_frame_ok (slots : Slots vm) (f : call_frame) :
    set_frame vm f = .ok (put_frame vm f) := if_pos ⟨slots.depth_low,slots.depth_high⟩

theorem select_ok (slots : Slots vm) (has : Has vm idx) : selectVariable vm idx = .ok (value_of vm idx) := by
  rw [selectVariable,value_of]
  by_cases global : idx.toNat ≥ 256
  · rw [if_pos global,if_pos global]
    exact if_pos (has.resolve_left (by omega))
  · rw [if_neg global,if_neg global,frame_ok slots]
    rfl

theorem type_ok (slots : Slots vm) (has : Has vm idx) : variable_type vm idx = .ok (type_of vm idx) := by
  rw [variable_type,type_of]
  by_cases global : idx.toNat ≥ 256
  · rw [if_pos global,if_pos global]
    exact if_pos (has.resolve_left (by omega))
  · rw [if_neg global,if_neg global,frame_ok slots]
    rfl

theorem size_safe (dt : UInt8) : Safe .outside (fun size => datatypeToSize dt = .ok size) (datatypeToSize dt) := by
  refine ⟨?_,fun size sized => sized⟩
  rw [datatypeToSize]
  split <;> simp

/-- What an operation on the variables or the memory leaves. -/
structure Same (vm vm' : vm_instance) : Prop where
  stack_ptr : vm'.stack_ptr = vm.stack_ptr
  max_stack : vm'.max_stack = vm.max_stack
  call_depth : vm'.call_depth = vm.call_depth
  counter : vm'.counter = vm.counter
  code_size : vm'.code_size = vm.code_size

theorem same_limits {vm' : vm_instance} (limits : Limits vm) (same : Same vm vm') : Limits vm' := by
  obtain ⟨⟨stack_low,stack_high,depth_low,depth_high⟩,inside⟩ := limits
  refine ⟨⟨?_,?_,?_,?_⟩,?_⟩
  · rwa [same.stack_ptr]
  · rwa [same.stack_ptr,same.max_stack]
  · rwa [same.call_depth]
  · rwa [same.call_depth]
  · rwa [same.counter,same.code_size]

theorem set_safe (limits : Limits vm) (has : Has vm idx) (value : Value) : Safe .outside Limits (setVariable vm idx value) := by
  refine safe_mono (P := Same vm) ?_ fun _ same => same_limits limits same
  rw [setVariable]
  by_cases global : idx.toNat ≥ 256
  · rw [if_pos global,if_pos (has.resolve_left (by omega))]
    exact safe_ok ⟨rfl,rfl,rfl,rfl,rfl⟩
  · rw [if_neg global,frame_ok limits.1,ok_bind,set_frame_ok limits.1]
    exact safe_ok ⟨rfl,rfl,rfl,rfl,rfl⟩

theorem write_safe {a : Address} {size : Nat} (limits : Limits vm) (off : apart p a size = true) (value : Value) :
    Safe .outside Limits (write_array vm p a size value) := by
  rw [write_array,if_pos off]
  exact safe_ok (same_limits limits ⟨rfl,rfl,rfl,rfl,rfl⟩)

theorem read_array_ok {a : Address} {size : Nat} (off : apart p a size = true) :
    read_array vm p a size = .ok (BitVec.ofNat 64 (number vm.memory a size)) := if_pos off

theorem advance_counter {n : Nat} (small : vm.counter.toNat + n ≤ vm.code_size) :
    (advance vm (BitVec.ofNat 64 n)).counter.toNat = vm.counter.toNat + n := by
  have size := vm.code_size_lt
  rw [advance,BitVec.toNat_add,BitVec.toNat_ofNat]
  omega

theorem slots_advance (n : Value) : Slots (advance vm n) ↔ Slots vm := ⟨fun ⟨a,b,c,d⟩ => ⟨a,b,c,d⟩,fun ⟨a,b,c,d⟩ => ⟨a,b,c,d⟩⟩

theorem ahead_limits {n : Nat} (slots : Slots vm) (ahead : Ahead vm n) : Limits (advance vm (BitVec.ofNat 64 n)) := by
  refine ⟨(slots_advance _).mpr slots,?_⟩
  rw [advance_counter (Nat.le_of_lt ahead)]
  exact ahead

theorem lower_slots (slots : Slots vm) (low : 1 ≤ vm.stack_ptr) : Slots (lower vm) := by
  obtain ⟨stack_low,stack_high,depth_low,depth_high⟩ := slots
  exact ⟨by rw [stack_ptr_lower]; omega,by rw [stack_ptr_lower,max_stack_lower]; omega,depth_low,depth_high⟩

theorem raise_slots (slots : Slots vm) (room : vm.stack_ptr < vm.max_stack) (value : Value) : Slots (raise vm value) := by
  obtain ⟨stack_low,stack_high,depth_low,depth_high⟩ := slots
  exact ⟨by rw [stack_ptr_raise]; omega,by rw [stack_ptr_raise,max_stack_raise]; omega,depth_low,depth_high⟩

theorem pop_ok (slots : Slots vm) (low : 1 ≤ vm.stack_ptr) : stack_pop vm = .ok (top vm,lower vm) := by
  have high := slots.stack_high
  exact if_pos ⟨by omega,by omega⟩

theorem push_ok (slots : Slots vm) (room : vm.stack_ptr < vm.max_stack) (value : Value) : stack_push vm value = .ok (raise vm value) :=
  if_pos ⟨slots.stack_low,room⟩

theorem lower_limits (limits : Limits vm) (low : 1 ≤ vm.stack_ptr) : Limits (lower vm) := ⟨lower_slots limits.1 low,limits.2⟩

theorem push_safe (limits : Limits vm) (room : vm.stack_ptr < vm.max_stack) (value : Value) : Safe .outside Limits (stack_push vm value) := by
  rw [push_ok limits.1 room]
  exact safe_ok ⟨raise_slots limits.1 room value,limits.2⟩

theorem assign_safe (slots : Slots vm) (fit : Fit p vm .ASSIGN) : Safe .outside Limits (execute vm p .ASSIGN) := by
  obtain ⟨ahead,room,has⟩ := fit
  have limits : Limits (advance vm 8) := ahead_limits slots ahead
  unfold execute
  dsimp only
  rw [operand_ok ahead.le,ok_bind]
  rw [pop_ok limits.1 room.1,ok_bind]
  exact set_safe (lower_limits limits room.1) (by simpa using has) (top vm)

theorem assign_indexed_safe (slots : Slots vm) (fit : Fit p vm .ASSIGN_INDEXED) : Safe .outside Limits (assign_indexed vm p) := by
  obtain ⟨ahead,room,has,off⟩ := fit
  have two : 2 ≤ vm.stack_ptr := room.1
  have limits : Limits (advance vm 8) := ahead_limits slots ahead
  have once := lower_limits limits (by rw [stack_ptr_advance]; omega)
  have twice := lower_limits once (by rw [stack_ptr_lower,stack_ptr_advance]; omega)
  rw [assign_indexed,operand_ok ahead.le,ok_bind]
  dsimp only
  rw [pop_ok limits.1 (by rw [stack_ptr_advance]; omega),ok_bind]
  dsimp only
  rw [pop_ok once.1 (by rw [stack_ptr_lower,stack_ptr_advance]; omega),ok_bind]
  dsimp only
  rw [type_ok twice.1 (by simpa using has),ok_bind]
  refine safe_bind (size_safe _) fun size sized => ?_
  rw [select_ok twice.1 (by simpa using has),ok_bind]
  simp only [type_lower,type_advance] at sized
  exact write_safe twice (by simpa using off size sized) _

theorem load_safe (slots : Slots vm) (fit : Fit p vm .LOAD) : Safe .outside Limits (execute vm p .LOAD) := by
  obtain ⟨ahead,room,has⟩ := fit
  have limits : Limits (advance vm 8) := ahead_limits slots ahead
  unfold execute
  dsimp only
  rw [operand_ok ahead.le,ok_bind]
  rw [select_ok limits.1 (by simpa using has),ok_bind]
  exact push_safe limits (by have := room.2; simp only [stack_ptr_advance,max_stack_advance]; omega) _

theorem resize_safe (grows : Grows p vm idx) (limits : Limits vm) :
    Safe .outside (fun vm' => Limits vm' ∧ (idx.toNat : Int) < vm'.global_variable_size)
      (resizeGlobalsIfNecessary vm p (idx.setWidth 32).toInt) := by
  have small : (idx.setWidth 32).toInt < 2 ^ 31 := by
    have := BitVec.toInt_lt (x := idx.setWidth 32)
    simpa using this
  have same (few : idx.toNat < 2 ^ 31) : (idx.setWidth 32).toInt = idx.toNat := by
    rw [BitVec.toInt_eq_toNat_of_lt] <;> rw [BitVec.toNat_setWidth,Nat.mod_eq_of_lt (by omega)]
    omega
  rw [resizeGlobalsIfNecessary]
  cases grows with
  | inl there => exact safe_if (fun more => absurd more (by omega)) fun _ => safe_ok ⟨limits,there⟩
  | inr room =>
    have few : idx.toNat < 2 ^ 31 := by omega
    have bytes : 8 * ((idx.toNat : Int) + 1) < 2 ^ 32 := by exact_mod_cast room.1
    have count : ((idx.toNat : Int) + 1).toNat = idx.toNat + 1 := by omega
    rw [same few,count]
    refine safe_if (fun more => ?_) fun enough => safe_ok ⟨limits,by omega⟩
    rw [if_pos ⟨bytes,room.2⟩]
    exact safe_ok ⟨same_limits limits ⟨rfl,rfl,rfl,rfl,rfl⟩,Int.lt_add_one_of_le le_rfl⟩

theorem read_next (inside : vm.counter.toNat < vm.code_size) :
    read_u8 vm vm.counter = .ok (UInt8.ofNat (code_number vm vm.counter.toNat 1)) := if_pos inside

theorem ahead_of {m n : Nat} (ahead : Ahead vm m) (less : n ≤ m) : Ahead vm n := Nat.lt_of_le_of_lt (Nat.add_le_add_left less _) ahead

theorem reserve_safe (slots : Slots vm) (ahead : Ahead vm 10) {global : Bool}
    (here : if global = true then Grows p vm (operand vm - 256) else (operand vm).toNat < 256) : Safe .outside Limits (reserve vm p global) := by
  have reads : Ahead vm 8 := ahead_of ahead (by decide)
  have at8 : (advance vm 8).counter.toNat = vm.counter.toNat + 8 := advance_counter reads.le
  have eight : Limits (advance vm 8) := ahead_limits slots reads
  have more : Ahead (advance vm 8) 1 := by
    rw [Ahead,at8]
    exact ahead_of ahead (show 9 ≤ 10 by decide)
  have at9 : (advance (advance vm 8) 1).counter.toNat = (advance vm 8).counter.toNat + 1 := advance_counter more.le
  have nine : Limits (advance (advance vm 8) 1) := ahead_limits eight.1 more
  have last : Ahead (advance (advance vm 8) 1) 1 := by
    rw [Ahead,at9,at8]
    exact ahead
  have ten : Limits (advance (advance (advance vm 8) 1) 1) := ahead_limits nine.1 last
  rw [reserve,operand_ok reads.le,ok_bind]
  dsimp only
  rw [read_next eight.2,ok_bind,read_next nine.2,ok_bind]
  cases global with
  | true =>
    simp only [if_true] at here ⊢
    have grown : Grows p (advance (advance (advance vm 8) 1) 1) (operand vm - 256) := by simpa only [grows_advance] using here
    refine safe_bind (resize_safe grown ten) fun vm' kept => ?_
    rw [if_pos kept.2]
    exact safe_ok (same_limits kept.1 ⟨rfl,rfl,rfl,rfl,rfl⟩)
  | false =>
    simp only [Bool.false_eq_true,if_false] at here ⊢
    rw [frame_ok ten.1,ok_bind,if_pos here,set_frame_ok ten.1]
    exact safe_ok (same_limits ten ⟨rfl,rfl,rfl,rfl,rfl⟩)

/-- A bit is read the way it is computed. -/
theorem load_bit (slots : Slots vm) (ahead : Ahead vm 8) (room : Room vm 1 1) (has : Has vm (operand vm))
    (single : getVariableArray (type_of vm (operand vm)) = false) : load_indexed vm p =
      .ok (raise (lower (advance vm 8)) (if value_of vm (operand vm) &&& bit_mask (top vm) ≠ 0 then 1 else 0)) := by
  have limits : Limits (advance vm 8) := ahead_limits slots ahead
  have popped := lower_limits limits room.1
  rw [load_indexed,operand_ok ahead.le,ok_bind]
  dsimp only
  rw [type_ok limits.1 (by simpa using has),ok_bind,type_advance,single,if_neg Bool.false_ne_true,select_ok limits.1 (by simpa using has),
    ok_bind,pop_ok limits.1 room.1,ok_bind]
  dsimp only
  have free := room.2
  have low := room.1
  rw [push_ok popped.1 (by simp only [stack_ptr_lower,stack_ptr_advance,max_stack_lower,max_stack_advance]; omega)]
  rfl

theorem load_indexed_safe (slots : Slots vm) (fit : Fit p vm .LOAD_INDEXED) : Safe .outside Limits (load_indexed vm p) := by
  obtain ⟨ahead,room,has,off⟩ := fit
  have limits : Limits (advance vm 8) := ahead_limits slots ahead
  have popped := lower_limits limits room.1
  have free : (lower (advance vm 8)).stack_ptr < (lower (advance vm 8)).max_stack := by
    obtain ⟨low,high⟩ := room
    simp only [stack_ptr_lower,stack_ptr_advance,max_stack_lower,max_stack_advance]
    omega
  by_cases array : getVariableArray (type_of vm (operand vm)) = true
  · rw [if_pos array] at off
    rw [load_indexed,operand_ok ahead.le,ok_bind]
    dsimp only
    rw [type_ok limits.1 (by simpa using has),ok_bind,type_advance,if_pos array]
    refine safe_bind (size_safe _) fun size sized => ?_
    rw [select_ok limits.1 (by simpa using has),ok_bind,pop_ok limits.1 room.1,ok_bind]
    dsimp only
    rw [read_array_ok (by simpa using off size sized),ok_bind]
    exact push_safe popped free _
  · rw [load_bit slots ahead room has (Bool.eq_false_of_not_eq_true array)]
    exact safe_ok ⟨raise_slots popped.1 free _,popped.2⟩

theorem number_safe (slots : Slots vm) (fit : Fit p vm .NUMBER) : Safe .outside Limits (execute vm p .NUMBER) := by
  obtain ⟨ahead,room⟩ := fit
  have limits : Limits (advance vm 8) := ahead_limits slots ahead
  unfold execute
  dsimp only
  rw [operand_ok ahead.le,ok_bind]
  exact push_safe limits (by have := room.2; simp only [stack_ptr_advance,max_stack_advance]; omega) _

theorem string_safe (slots : Slots vm) (fit : Fit p vm .STRING) : Safe .outside Limits (execute vm p .STRING) := by
  obtain ⟨reads,room,next⟩ := fit
  have free : (advance vm 8).stack_ptr < (advance vm 8).max_stack := by
    have := room.2
    simp only [stack_ptr_advance,max_stack_advance]
    omega
  have slots' := (slots_advance 8).mpr slots
  unfold execute
  dsimp only
  rw [operand_ok reads,ok_bind]
  rw [push_ok slots' free,ok_bind]
  exact safe_ok ⟨(slots_advance _).mpr (raise_slots slots' free _),next⟩

theorem jump_limits {place : Value} (slots : Slots vm) (inside : place.toNat < vm.code_size) : Limits (jump vm place) :=
  ⟨⟨slots.stack_low,slots.stack_high,slots.depth_low,slots.depth_high⟩,inside⟩

theorem goto_safe (slots : Slots vm) (fit : Fit p vm .GOTO) : Safe .outside Limits (execute vm p .GOTO) := by
  unfold execute
  dsimp only
  rw [operand_ok fit.1,ok_bind]
  exact safe_ok (jump_limits slots fit.2)

theorem goto_if_safe (slots : Slots vm) (reads : Reads vm 8) (room : Room vm 1 0) {taken : Value → Bool}
    (next : if taken (top vm) = true then (operand vm).toNat < vm.code_size else Ahead vm 8) : Safe .outside Limits (goto_if vm taken) := by
  have slots' := (slots_advance 8).mpr slots
  rw [goto_if,operand_ok reads,ok_bind]
  dsimp only
  rw [pop_ok slots' room.1,ok_bind]
  dsimp only
  rw [top_advance]
  by_cases take : taken (top vm) = true
  · rw [if_pos take] at next ⊢
    exact safe_ok (jump_limits (lower_slots slots' room.1) next)
  · rw [if_neg take] at next ⊢
    exact safe_ok (lower_limits (ahead_limits slots next) room.1)

theorem deepen_slots (slots : Slots vm) (deeper : vm.call_depth + 1 < MAX_CALL_DEPTH) : Slots (deepen vm) :=
  ⟨slots.stack_low,slots.stack_high,Int.le_add_one slots.depth_low,deeper⟩

theorem put_frame_slots (slots : Slots vm) (f : call_frame) : Slots (put_frame vm f) :=
  ⟨slots.stack_low,slots.stack_high,slots.depth_low,slots.depth_high⟩

theorem invoke_safe (slots : Slots vm) (fit : Fit p vm .INVOKE) : Safe .outside Limits (do_invoke vm) := by
  obtain ⟨reads,inside,deeper⟩ := fit
  have slots' : Slots (deepen (advance vm 8)) := deepen_slots ((slots_advance 8).mpr slots) deeper
  rw [do_invoke,operand_ok reads,ok_bind]
  dsimp only
  rw [set_frame_ok slots',ok_bind]
  exact safe_ok (jump_limits (put_frame_slots slots' _) inside)

/-- A native takes its values. -/
theorem pop_values_safe (n : Nat) (limits : Limits vm) (enough : (n : Int) ≤ vm.stack_ptr) :
    Safe .outside (fun r => Limits r.2 ∧ r.2.stack_ptr = vm.stack_ptr - n ∧ r.2.max_stack = vm.max_stack) (pop_values n vm) := by
  induction n generalizing vm with
  | zero => exact safe_ok ⟨limits,by simp,rfl⟩
  | succ n ih =>
    have low : 1 ≤ vm.stack_ptr := by omega
    rw [pop_values,pop_ok limits.1 low,ok_bind]
    refine safe_bind (ih (lower_limits limits low) (by rw [stack_ptr_lower]; omega)) fun r kept => safe_ok ⟨kept.1,?_,kept.2.2⟩
    dsimp only
    rw [kept.2.1,stack_ptr_lower]
    omega

theorem push_values_safe (values : List Value) (limits : Limits vm) (room : vm.stack_ptr + values.length ≤ vm.max_stack) :
    Safe .outside Limits (push_values values vm) := by
  induction values generalizing vm with
  | nil => exact safe_ok limits
  | cons value values ih =>
    rw [List.length_cons] at room
    have free : vm.stack_ptr < vm.max_stack := by omega
    rw [push_values,push_ok limits.1 free,ok_bind]
    exact ih ⟨raise_slots limits.1 free value,limits.2⟩ (by rw [stack_ptr_raise,max_stack_raise]; omega)

theorem native_safe (slots : Slots vm) (fit : Fit p vm .INVOKE_NATIVE) : Safe .outside Limits (invoke_native vm p) := by
  obtain ⟨reads,needs⟩ := fit
  rw [invoke_native,operand_ok reads,ok_bind]
  cases found : native p (operand vm) with
  | none => exact safe_error Fault.noConfusion
  | some n =>
    obtain ⟨ahead,room⟩ := needs n found
    have limits : Limits (advance vm 8) := ahead_limits slots ahead
    refine safe_bind (pop_values_safe n.pops limits room.1) ?_
    rintro ⟨values,vm'⟩ ⟨popped,stack_ptr,max_stack⟩
    simp only [stack_ptr_advance,max_stack_advance] at popped stack_ptr max_stack ⊢
    cases ran : n.run values vm'.memory with
    | none => exact safe_error Fault.noConfusion
    | some result =>
      have free := room.2
      have kept : Limits (put_memory vm' result.2) := same_limits popped ⟨rfl,rfl,rfl,rfl,rfl⟩
      refine push_values_safe result.1.val kept ?_
      rw [result.1.property]
      show vm'.stack_ptr + n.pushes ≤ vm'.max_stack
      omega

theorem header_ok (f : call_frame) (header : 24 ≤ vm.code_size) :
    read_u64 (put_frame (deepen vm) f) 16 = .ok (BitVec.ofNat 64 (code_number vm 16 8)) := if_pos header

theorem return_safe (slots : Slots vm) (fit : Fit p vm .RETURN) :
    Safe .outside (fun vm' => vm'.running = true → Limits vm') (do_return vm) := by
  rw [do_return,frame_ok slots,ok_bind]
  rw [Fit] at fit
  by_cases noreturn : (this_frame vm).noreturn = true
  · rw [if_pos noreturn] at fit ⊢
    obtain ⟨deeper,header,inside⟩ := fit
    have slots' := deepen_slots slots deeper
    dsimp only
    rw [frame_ok slots',ok_bind,set_frame_ok slots',ok_bind,header_ok _ header,ok_bind]
    refine safe_ok fun _ => jump_limits (put_frame_slots slots' _) ?_
    exact (BitVec.toNat_ofNat _ _).trans_lt (Nat.lt_of_le_of_lt (Nat.mod_le _ _) inside)
  · rw [if_neg noreturn] at fit ⊢
    by_cases called : vm.call_depth > 0
    · rw [if_pos called]
      refine safe_ok fun _ => jump_limits ⟨slots.stack_low,slots.stack_high,Int.le_sub_one_of_lt called,?_⟩ (fit called)
      have high := slots.depth_high
      show vm.call_depth - 1 < MAX_CALL_DEPTH
      omega
    · rw [if_neg called]
      exact safe_ok fun runs => by cases runs

theorem change_safe (slots : Slots vm) (ahead : Ahead vm 8) (has : Has vm (operand vm)) (d : Value) :
    Safe .outside Limits (change_variable vm d) := by
  have limits : Limits (advance vm 8) := ahead_limits slots ahead
  rw [change_variable,operand_ok ahead.le,ok_bind]
  dsimp only
  rw [select_ok limits.1 (by simpa using has),ok_bind]
  exact set_safe limits (by simpa using has) _

theorem operator_safe (i : Instructions) (a b : Value) : Safe .outside (fun _ => True) (operator i a b) := by
  cases i
  case DIV | MOD => exact safe_if (fun _ => safe_error Fault.noConfusion) fun _ => safe_ok trivial
  all_goals first | exact safe_ok trivial | exact safe_error Fault.noConfusion

theorem binary_safe (limits : Limits vm) (room : Room vm 2 1) (i : Instructions) : Safe .outside Limits (binary vm i) := by
  obtain ⟨enough,free⟩ := room
  have once := lower_limits limits (by omega)
  have twice := lower_limits once (by rw [stack_ptr_lower]; omega)
  rw [binary,pop_ok limits.1 (by omega),ok_bind]
  dsimp only
  rw [pop_ok once.1 (by rw [stack_ptr_lower]; omega),ok_bind]
  refine safe_bind (operator_safe i _ _) fun value _ => ?_
  exact push_safe twice (by simp only [stack_ptr_lower,max_stack_lower]; omega) value

theorem unary_safe (limits : Limits vm) (room : Room vm 1 1) (f : Value → Value) : Safe .outside Limits (unary vm f) := by
  obtain ⟨enough,free⟩ := room
  rw [unary,pop_ok limits.1 enough,ok_bind]
  exact push_safe (lower_limits limits enough) (by simp only [stack_ptr_lower,max_stack_lower]; omega) _

theorem noreturn_safe (slots : Slots vm) (ahead : Ahead vm 0) : Safe .outside Limits (execute vm p .NORETURN) := by
  unfold execute
  dsimp only
  rw [frame_ok slots,ok_bind,set_frame_ok slots]
  exact safe_ok ⟨put_frame_slots slots _,ahead⟩

theorem delete_safe (slots : Slots vm) (ahead : Ahead vm 0) (room : Room vm 1 0) : Safe .outside Limits (execute vm p .DELETE) := by
  unfold execute
  dsimp only
  rw [pop_ok slots room.1,ok_bind]
  exact safe_ok (lower_limits ⟨slots,ahead⟩ room.1)

/-- The machine stays in its limits as long as it runs. -/
theorem execute_safe (slots : Slots vm) {i : Instructions} (fit : Fit p vm i) :
    Safe .outside (fun vm' => vm'.running = true → Limits vm') (execute vm p i) := by
  have running {r : Except Fault vm_instance} (safe : Safe .outside Limits r) :
      Safe .outside (fun vm' => vm'.running = true → Limits vm') r := safe_mono safe fun _ limits _ => limits
  cases i
  case RETURN => exact return_safe slots fit
  all_goals apply running
  case GLOBAL_RESERVE => exact reserve_safe slots fit.1 fit.2
  case VARIABLE => exact reserve_safe slots fit.1 fit.2
  case ASSIGN => exact assign_safe slots fit
  case ASSIGN_INDEXED => exact assign_indexed_safe slots fit
  case LOAD => exact load_safe slots fit
  case LOAD_INDEXED => exact load_indexed_safe slots fit
  case STRING => exact string_safe slots fit
  case NUMBER => exact number_safe slots fit
  case GOTO => exact goto_safe slots fit
  case GOTO_TRUE =>
    unfold execute
    dsimp only
    exact goto_if_safe slots fit.1 fit.2.1 (by simpa only [decide_eq_true_eq] using fit.2.2)
  case GOTO_FALSE =>
    unfold execute
    dsimp only
    exact goto_if_safe slots fit.1 fit.2.1 (by simpa only [decide_eq_true_eq] using fit.2.2)
  case INVOKE => exact invoke_safe slots fit
  case INVOKE_NATIVE => exact native_safe slots fit
  case INCREASE | DECREASE => exact change_safe slots fit.1 fit.2 _
  case INVERT | NOT | CHANGE_SIGN =>
    unfold execute
    dsimp only
    exact unary_safe ⟨slots,fit.1⟩ fit.2 _
  case NORETURN => exact noreturn_safe slots fit
  case DELETE => exact delete_safe slots fit.1 fit.2
  all_goals exact binary_safe ⟨slots,fit.1⟩ fit.2 _

theorem step_eq (limits : Limits vm) : step vm p = match instruction vm with
    | none => .error .aborts
    | some i => execute (advance vm 1) p i := by
  rw [step,read_next limits.2,ok_bind]
  rfl

theorem step_safe (limits : Limits vm) (fits : Fits p vm) :
    Safe .outside (fun vm' => vm'.running = true → Limits vm') (step vm p) := by
  rw [step_eq limits]
  cases here : instruction vm with
  | none => exact safe_error Fault.noConfusion
  | some i => exact execute_safe ((slots_advance 1).mpr limits.1) (fits i here)

/-- The mask is right below the sign. -/
theorem bit_mask_eq {n : Value} (small : n.toNat < 31) : bit_mask n = BitVec.twoPow 64 n.toNat := by
  have masks : ∀ k < 31, ((1 : BitVec 32) <<< (k % 32)).signExtend 64 = BitVec.twoPow 64 k := by decide
  exact masks _ small

theorem bit_read {value n : Value} (small : n.toNat < 31) :
    (if value &&& bit_mask n ≠ 0 then (1 : Value) else 0) = flag (value.getLsbD n.toNat) := by
  rw [bit_mask_eq small,BitVec.and_twoPow,flag]
  cases value.getLsbD n.toNat with
  | false => rfl
  | true =>
    have positive : BitVec.twoPow 64 n.toNat ≠ 0 := fun zero => by
      have := congrArg (fun x => x.getLsbD n.toNat) zero
      simp at this
      omega
    simp only [if_true]
    exact if_pos positive

-- from 31 on the mask is another one
example : (2 ^ 40 : Value) &&& bit_mask 40 = 0 := by decide

theorem step_bit (limits : Limits vm) (fits : Fits p vm) {vm' : vm_instance} (stepped : step vm p = .ok vm') : Bit vm vm' := by
  intro here single small
  obtain ⟨ahead,room,has,bit⟩ := fits _ here
  rw [step_eq limits,here] at stepped
  unfold execute at stepped
  dsimp only at stepped
  have single' : getVariableArray (type_of (advance vm 1) (operand (advance vm 1))) = false := by rwa [type_advance]
  rw [load_bit ((slots_advance 1).mpr limits.1) ahead room has single'] at stepped
  rw [if_neg (by rw [single']; exact Bool.false_ne_true)] at bit
  simp only [top_advance] at bit
  rw [← Except.ok.inj stepped,top_raise]
  simp only [top_advance,value_advance]
  exact bit_read (bit.resolve_right (Nat.not_le.mpr small))

theorem step_stays (limits : Limits vm) (fits : Fits p vm) : Stays p vm where
  inside := (step_safe limits fits).fails
  keeps := (step_safe limits fits).result
  bit _ stepped := step_bit limits fits stepped

end

/-- A machine is started at a place of the code, and steps as long as it runs. -/
def flvm (p : Process) : System vm_instance Unit where
  start s := ∃ vm location, Slots vm ∧ location.toNat < vm.code_size ∧ invoke vm location = .ok s
  step s _ s' := s.running = true ∧ step s p = .ok s'

theorem start_limits {p : Process} {s : vm_instance} (started : (flvm p).start s) : Limits s := by
  obtain ⟨vm,location,slots,inside,invoked⟩ := started
  rw [invoke,set_frame_ok slots,ok_bind] at invoked
  obtain rfl := Except.ok.inj invoked
  exact ⟨⟨slots.stack_low,slots.stack_high,slots.depth_low,slots.depth_high⟩,inside⟩

/-- In every run whose steps have what they need, the machine stays in its limits. -/
theorem flvm_stays {p : Process} {s : vm_instance} (reached : Reached (guarded (flvm p) fun s _ => Fits p s) s) :
    s.running = true → Limits s ∧ (Fits p s → Stays p s) := by
  have limits : s.running = true → Limits s := by
    refine @guarded_invariant _ _ _ _ (fun s => s.running = true → Limits s) (fun s started _ => start_limits started) ?_ s reached
    exact fun s _ s' holds stepped fits => (step_stays (holds stepped.1) fits).keeps s' stepped.2
  exact fun running => ⟨limits running,step_stays (limits running)⟩

/-- A process whose functions do nothing. -/
def quiet_process : Process := ⟨fun _ _ m => (0,m),[],fun _ => false,fun _ => true⟩

/-- A global and a local variable are made; 5 goes through the stack to the one and from there to the other. -/
def program : List UInt8 := [0,0,1,0,0,0,0,0,0,0,1,13,0,0,0,0,0,0,0,0,0,1,5,5,0,0,0,0,0,0,0,1,0,1,0,0,0,0,0,0,
  3,0,1,0,0,0,0,0,0,1,0,0,0,0,0,0,0,0,12]

def loaded : vm_instance := vm_create (fun a => program.getD a.toNat 0) 0 59 (by decide)

def begun : vm_instance := { put_frame loaded empty_frame with counter := 0, running := true }

def after_step (s : vm_instance) : vm_instance :=
  match step s quiet_process with
  | .ok s' => s'
  | .error _ => s

instance (s : vm_instance) (n : Nat) : Decidable (Ahead s n) := inferInstanceAs (Decidable (_ < _))
instance (s : vm_instance) (pops pushes : Nat) : Decidable (Room s pops pushes) := inferInstanceAs (Decidable (_ ∧ _))
instance (s : vm_instance) (idx : Value) : Decidable (Has s idx) := inferInstanceAs (Decidable (_ ∨ _))

theorem fits_step {s : vm_instance} {k : Nat} {i : Instructions} (running : s.running = true)
    (byte : (UInt8.ofNat (code_number s s.counter.toNat 1)).toNat = k) (named : all_instructions[k]? = some i)
    (fit : Fit quiet_process (advance s 1) i) (ends : (step s quiet_process).isOk = true) :
    (guarded (flvm quiet_process) fun s _ => Fits quiet_process s).step s () (after_step s) := by
  refine ⟨⟨running,?_⟩,fun i' here => ?_⟩
  · rw [after_step]
    cases stepped : step s quiet_process with
    | error e =>
      rw [stepped] at ends
      cases ends
    | ok s' => rfl
  · rw [instruction,byte,named] at here
    exact Option.some.inj here ▸ fit

theorem flvm_stays_variables : ∃ s, s.counter = 58 ∧ (this_frame s).variables_ 0 = 5 ∧ s.global_variables 0 = 5 ∧ s.stack_ptr = 0 ∧
    (s.running = true → Limits s ∧ (Fits quiet_process s → Stays quiet_process s)) := by
  have slots : Slots loaded := ⟨by decide,by decide,by decide,by decide⟩
  have reserved := @fits_step begun 0 _ (by decide +kernel) (by decide +kernel) rfl
    ⟨by decide +kernel,.inr ⟨by decide +kernel,rfl⟩⟩ (by decide +kernel)
  have declared := @fits_step (after_step begun) 13 _ (by decide +kernel) (by decide +kernel) rfl
    ⟨by decide +kernel,by decide +kernel⟩ (by decide +kernel)
  have pushed := @fits_step (after_step (after_step begun)) 5 _ (by decide +kernel) (by decide +kernel) rfl
    ⟨by decide +kernel,by decide +kernel⟩ (by decide +kernel)
  have assigned := @fits_step (after_step (after_step (after_step begun))) 1 _ (by decide +kernel) (by decide +kernel) rfl
    ⟨by decide +kernel,by decide +kernel,by decide +kernel⟩ (by decide +kernel)
  have loads := @fits_step (after_step (after_step (after_step (after_step begun)))) 3 _ (by decide +kernel) (by decide +kernel) rfl
    ⟨by decide +kernel,by decide +kernel,by decide +kernel⟩ (by decide +kernel)
  have stored := @fits_step (after_step (after_step (after_step (after_step (after_step begun))))) 1 _ (by decide +kernel)
    (by decide +kernel) rfl ⟨by decide +kernel,by decide +kernel,by decide +kernel⟩ (by decide +kernel)
  refine ⟨_,?_,?_,?_,?_,flvm_stays ⟨begun,[(),(),(),(),(),()],⟨loaded,0,slots,by decide,rfl⟩,
    .step reserved (.step declared (.step pushed (.step assigned (.step loads (.step stored (.done _))))))⟩⟩
  · decide +kernel
  · decide +kernel
  · decide +kernel
  · decide +kernel

/-- The code of a single addition. -/
def addition : vm_instance := vm_create (fun _ => 16) 0 1 (by decide)

theorem empty_stack_popped : ¬∀ p s, Reached (flvm p) s → s.running = true → Stays p s := by
  intro stays
  have slots : Slots addition := ⟨by decide,by decide,by decide,by decide⟩
  have reached : Reached (flvm quiet_process) { put_frame addition empty_frame with counter := 0, running := true } :=
    ⟨_,[],⟨addition,0,slots,by decide,rfl⟩,.done _⟩
  exact (stays quiet_process _ reached rfl).inside rfl

end MicroOS.FlvmRuns

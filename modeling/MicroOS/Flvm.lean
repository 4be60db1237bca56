import Mathlib.Tactic

/-!
The bytecode machine (`flvm.c`). An access to a slot or a byte of code that the machine does not have, or through a pointer into
the machine itself, is the fault `outside`. Code, strings and arrays lie in one memory.
-/

namespace MicroOS.Flvm
open Function (update)

abbrev Value := BitVec 64
abbrev Address := BitVec 32
abbrev Memory := Address → UInt8

def MAX_CALL_DEPTH : Int := 256

inductive Fault where
  | aborts
  | exits
  | outside
  deriving DecidableEq

inductive Instructions where
  | GLOBAL_RESERVE | ASSIGN | ASSIGN_INDEXED | LOAD | LOAD_INDEXED | NUMBER | STRING | GOTO | GOTO_TRUE | GOTO_FALSE | INVOKE
  | INVOKE_NATIVE | RETURN | VARIABLE | INCREASE | DECREASE | ADD | SUB | MUL | DIV | MOD | LESS | LESS_EQUALS | MORE | MORE_EQUALS
  | EQUALS | NOT_EQUALS | INVERT | SHIFT_LEFT | SHIFT_RIGHT | OR | AND | XOR | NOT | NORETURN | DELETE | CHANGE_SIGN

/-- In the order of their numbers. -/
def all_instructions : List Instructions :=
  [.GLOBAL_RESERVE,.ASSIGN,.ASSIGN_INDEXED,.LOAD,.LOAD_INDEXED,.NUMBER,.STRING,.GOTO,.GOTO_TRUE,.GOTO_FALSE,.INVOKE,.INVOKE_NATIVE,
    .RETURN,.VARIABLE,.INCREASE,.DECREASE,.ADD,.SUB,.MUL,.DIV,.MOD,.LESS,.LESS_EQUALS,.MORE,.MORE_EQUALS,.EQUALS,.NOT_EQUALS,.INVERT,
    .SHIFT_LEFT,.SHIFT_RIGHT,.OR,.AND,.XOR,.NOT,.NORETURN,.DELETE,.CHANGE_SIGN]

structure call_frame where
  return_address : Value
  variables_ : Nat → Value
  variable_types : Nat → UInt8
  noreturn : Bool

def empty_frame : call_frame := ⟨0,fun _ => 0,fun _ => 0,false⟩

structure vm_instance where
  memory : Memory
  code : Address
  stack : Int → Value
  stack_ptr : Int
  max_stack : Int
  global_variables : Nat → Value
  global_variable_types : Nat → UInt8
  global_variable_size : Int
  counter : Value
  call_stack : Int → call_frame
  call_depth : Int
  running : Bool
  code_size : Nat
  /-- The size is a positive number of 64 bits with a sign. -/
  code_size_lt : code_size < 2 ^ 63

/-- What a native takes off the stack and puts on it; none is a process that ends. -/
structure Native where
  pops : Nat
  pushes : Nat
  run : List Value → Memory → Option ({ results : List Value // results.length = pushes } × Memory)

/-- What the machine needs from its process. -/
structure Process where
  /-- The functions that `nativeFunctions` call, with the values they take. -/
  system : Nat → List Value → Memory → Value × Memory
  natives : List (BitVec 32 × Native)
  /-- Where the machine's own structures lie. -/
  own : Address → Bool
  /-- The counts of globals for which `realloc` has memory. -/
  room : Nat → Bool

def process_ends : Native := ⟨1,1,fun _ _ => none⟩

/-- Takes values and pushes one. -/
def pushes_one (p : Process) (pops id : Nat) : Native :=
  ⟨pops,1,fun values m => some (⟨[(p.system id values m).1],rfl⟩,(p.system id values m).2)⟩

/-- `nativeExit`, `nativePutchar`, `nativePuts`, `nativeMalloc`, `nativeFree`, `nativeFopen`, `nativeFclose`, `nativeFseek`,
    `nativeFread`, `nativeFwrite` and `nativeFtell` -/
def nativeFunctions (p : Process) : List Native :=
  [process_ends,pushes_one p 1 1,pushes_one p 1 2,pushes_one p 1 3,pushes_one p 1 4,pushes_one p 2 5,pushes_one p 1 6,pushes_one p 3 7,
    pushes_one p 4 8,pushes_one p 4 9,pushes_one p 1 10]

/-- The registered natives follow the built-in ones, their numbers with their sign. -/
def native (p : Process) (nativeID : Value) : Option Native :=
  if nativeID.toNat ≥ (nativeFunctions p).length then (p.natives.find? fun n => n.1.signExtend 64 = nativeID).map Prod.snd
  else (nativeFunctions p)[nativeID.toNat]?

section
variable (vm : vm_instance)

/-- A little-endian number of some bytes. -/
def number (m : Memory) (a : Address) : Nat → Nat
  | 0 => 0
  | n + 1 => (m a).toNat + 256 * number m (a + 1) n

def code_number (place size : Nat) : Nat := number vm.memory (vm.code + BitVec.ofNat 32 place) size

def read_u8 (place : Value) : Except Fault UInt8 :=
  if place.toNat < vm.code_size then .ok (UInt8.ofNat (code_number vm place.toNat 1)) else .error .outside

def read_u64 (place : Value) : Except Fault Value :=
  if place.toNat + 8 ≤ vm.code_size then .ok (BitVec.ofNat 64 (code_number vm place.toNat 8)) else .error .outside

/-! The updates of the machine have names, which keeps what they leave short. -/

def advance (n : Value) : vm_instance := { vm with counter := vm.counter + n }
def jump (place : Value) : vm_instance := { vm with counter := place }

def deepen : vm_instance := { vm with call_depth := vm.call_depth + 1 }
def leave : vm_instance := { vm with call_depth := vm.call_depth - 1 }
def put_frame (f : call_frame) : vm_instance := { vm with call_stack := update vm.call_stack vm.call_depth f }
def put_memory (memory : Memory) : vm_instance := { vm with memory := memory }
def put_global (n : Nat) (value : Value) : vm_instance := { vm with global_variables := update vm.global_variables n value }
def put_global_type (n : Nat) (type : UInt8) : vm_instance :=
  { vm with global_variable_types := update vm.global_variable_types n type }
def resized (size : Int) : vm_instance := { vm with global_variable_size := size }

/-- A value more, and a value less. -/
def raise (value : Value) : vm_instance :=
  { vm with stack := update vm.stack vm.stack_ptr value, stack_ptr := vm.stack_ptr + 1 }
def lower : vm_instance := { vm with stack_ptr := vm.stack_ptr - 1 }

def stack_push (value : Value) : Except Fault vm_instance :=
  if 0 ≤ vm.stack_ptr ∧ vm.stack_ptr < vm.max_stack then .ok (raise vm value) else .error .outside

def stack_pop : Except Fault (Value × vm_instance) :=
  if 0 ≤ vm.stack_ptr - 1 ∧ vm.stack_ptr - 1 < vm.max_stack then .ok (vm.stack (vm.stack_ptr - 1),lower vm) else .error .outside

def frame : Except Fault call_frame :=
  if 0 ≤ vm.call_depth ∧ vm.call_depth < MAX_CALL_DEPTH then .ok (vm.call_stack vm.call_depth) else .error .outside

def set_frame (f : call_frame) : Except Fault vm_instance :=
  if 0 ≤ vm.call_depth ∧ vm.call_depth < MAX_CALL_DEPTH then .ok (put_frame vm f) else .error .outside

/-- The variable is read through the pointer. -/
def selectVariable (idx : Value) : Except Fault Value :=
  if idx.toNat ≥ 256 then
    if (idx.toNat - 256 : Nat) < vm.global_variable_size then .ok (vm.global_variables (idx.toNat - 256)) else .error .outside
  else do
    let f ← frame vm
    pure (f.variables_ idx.toNat)

/-- The variable is written through the pointer. -/
def setVariable (idx value : Value) : Except Fault vm_instance :=
  if idx.toNat ≥ 256 then
    if (idx.toNat - 256 : Nat) < vm.global_variable_size then .ok (put_global vm (idx.toNat - 256) value) else .error .outside
  else do
    let f ← frame vm
    set_frame vm { f with variables_ := update f.variables_ idx.toNat value }

def variable_type (idx : Value) : Except Fault UInt8 :=
  if idx.toNat ≥ 256 then
    if (idx.toNat - 256 : Nat) < vm.global_variable_size then .ok (vm.global_variable_types (idx.toNat - 256)) else .error .outside
  else do
    let f ← frame vm
    pure (f.variable_types idx.toNat)

/-- Without the mark of a single value. -/
def getVariableType (type : UInt8) : UInt8 := type &&& 127
def getVariableArray (type : UInt8) : Bool := type &&& 128 = 0

/-- `INT`, `CHR`, `STR`, `PTR`, `I16` and `I32` -/
def datatypeToSize (dt : UInt8) : Except Fault Nat :=
  match [8,1,8,8,2,4][dt.toNat]? with
  | some size => .ok size
  | none => .error .aborts

/-- A shorter block than the globals need leaves the last of them outside. -/
def resizeGlobalsIfNecessary (p : Process) (idx : Int) : Except Fault vm_instance :=
  if idx + 1 > vm.global_variable_size then
    if 8 * (idx + 1) < 2 ^ 32 ∧ p.room (idx + 1).toNat = true then .ok (resized vm (idx + 1)) else .error .outside
  else .ok vm

/-- No byte of an array is one of the machine. -/
def apart (p : Process) (a : Address) (size : Nat) : Bool := (List.range size).all fun i => !p.own (a + BitVec.ofNat 32 i)

def read_array (p : Process) (a : Address) (size : Nat) : Except Fault Value :=
  if apart p a size = true then .ok (BitVec.ofNat 64 (number vm.memory a size)) else .error .outside

def write_memory (m : Memory) (a : Address) (value : Value) : Nat → Memory
  | 0 => m
  | n + 1 => write_memory (update m a (UInt8.ofNat (value.toNat % 256))) (a + 1) (value >>> 8) n

def write_array (p : Process) (a : Address) (size : Nat) (value : Value) : Except Fault vm_instance :=
  if apart p a size = true then .ok (put_memory vm (write_memory vm.memory a value size)) else .error .outside

/-- `GLOBAL_RESERVE` and `VARIABLE` -/
def reserve (p : Process) (global : Bool) : Except Fault vm_instance := do
  let idx ← read_u64 vm vm.counter
  let vm := advance vm 8
  let datatype ← read_u8 vm vm.counter
  let vm := advance vm 1
  let array ← read_u8 vm vm.counter
  let vm := advance vm 1
  let datatype := if array = 0 then datatype ||| 128 else datatype
  if global = true then do
    let idx := idx - 256
    let vm ← resizeGlobalsIfNecessary vm p (idx.setWidth 32).toInt
    if (idx.toNat : Int) < vm.global_variable_size then pure (put_global_type (put_global vm idx.toNat 0) idx.toNat datatype)
    else .error .outside
  else do
    let f ← frame vm
    if idx.toNat < 256 then
      set_frame vm { f with
        variables_ := update f.variables_ idx.toNat 0
        variable_types := update f.variable_types idx.toNat datatype }
    else .error .outside

/-- Where an element of an array lies. -/
def element (pointer index : Value) (size : Nat) : Address := (pointer + index * BitVec.ofNat 64 size).setWidth 32

def assign_indexed (p : Process) : Except Fault vm_instance := do
  let idx ← read_u64 vm vm.counter
  let vm := advance vm 8
  let (b,vm) ← stack_pop vm
  let (a,vm) ← stack_pop vm
  let type ← variable_type vm idx
  let sz ← datatypeToSize (getVariableType type)
  let pointer ← selectVariable vm idx
  write_array vm p (element pointer a sz) sz b

/-- `1 << n` is a number of 32 bits with a sign, and the processor takes the count modulo 32. -/
def bit_mask (n : Value) : Value := ((1 : BitVec 32) <<< (n.toNat % 32)).signExtend 64

def load_indexed (p : Process) : Except Fault vm_instance := do
  let idx ← read_u64 vm vm.counter
  let vm := advance vm 8
  let type ← variable_type vm idx
  if getVariableArray type = true then do
    let sz ← datatypeToSize (getVariableType type)
    let pointer ← selectVariable vm idx
    let (a,vm) ← stack_pop vm
    let value ← read_array vm p (element pointer a sz) sz
    stack_push vm value
  else do
    let value ← selectVariable vm idx
    let (n,vm) ← stack_pop vm
    stack_push vm (if value &&& bit_mask n ≠ 0 then 1 else 0)

/-- The values a native takes, the topmost first. -/
def pop_values : Nat → vm_instance → Except Fault (List Value × vm_instance)
  | 0,vm => .ok ([],vm)
  | n + 1,vm => do
    let (value,vm) ← stack_pop vm
    let (values,vm) ← pop_values n vm
    pure (value :: values,vm)

def push_values : List Value → vm_instance → Except Fault vm_instance
  | [],vm => .ok vm
  | value :: values,vm => do
    let vm ← stack_push vm value
    push_values values vm

def invoke_native (p : Process) : Except Fault vm_instance := do
  let nativeID ← read_u64 vm vm.counter
  let vm := advance vm 8
  match native p nativeID with
  | none => .error .aborts
  | some n => do
    let (values,vm) ← pop_values n.pops vm
    match n.run values vm.memory with
    | none => .error .exits
    | some (results,memory) => push_values results (put_memory vm memory)

def do_return : Except Fault vm_instance := do
  let f ← frame vm
  if f.noreturn = true then do
    let vm := deepen vm
    let f ← frame vm
    let vm ← set_frame vm { f with return_address := vm.counter }
    let place ← read_u64 vm 16
    pure (jump vm place)
  else if vm.call_depth > 0 then pure (jump (leave vm) f.return_address)
  else pure { vm with running := false }

def do_invoke : Except Fault vm_instance := do
  let loc ← read_u64 vm vm.counter
  let vm := advance vm 8
  let vm := deepen vm
  let vm ← set_frame vm { empty_frame with return_address := vm.counter }
  pure (jump vm loc)

def change_variable (d : Value) : Except Fault vm_instance := do
  let idx ← read_u64 vm vm.counter
  let vm := advance vm 8
  let value ← selectVariable vm idx
  setVariable vm idx (value + d)

def goto_if (taken : Value → Bool) : Except Fault vm_instance := do
  let nextCounter ← read_u64 vm vm.counter
  let vm := advance vm 8
  let (value,vm) ← stack_pop vm
  pure (if taken value = true then jump vm nextCounter else vm)

def flag (b : Bool) : Value := if b = true then 1 else 0

/-- The operators; a division by zero ends the process. -/
def operator : Instructions → Value → Value → Except Fault Value
  | .ADD,a,b => .ok (a + b)
  | .SUB,a,b => .ok (a - b)
  | .MUL,a,b => .ok (a * b)
  | .DIV,a,b => if b = 0 then .error .exits else .ok (a.sdiv b)
  | .MOD,a,b => if b = 0 then .error .exits else .ok (a.srem b)
  | .LESS,a,b => .ok (flag (a.slt b))
  | .LESS_EQUALS,a,b => .ok (flag (a.sle b))
  | .MORE,a,b => .ok (flag (b.slt a))
  | .MORE_EQUALS,a,b => .ok (flag (b.sle a))
  | .EQUALS,a,b => .ok (flag (a = b))
  | .NOT_EQUALS,a,b => .ok (flag (a ≠ b))
  | .SHIFT_LEFT,a,b => .ok (a <<< (b.toNat % 64))
  | .SHIFT_RIGHT,a,b => .ok (a.sshiftRight (b.toNat % 64))
  | .OR,a,b => .ok (a ||| b)
  | .AND,a,b => .ok (a &&& b)
  | .XOR,a,b => .ok (a ^^^ b)
  | _,_,_ => .error .aborts

def binary (i : Instructions) : Except Fault vm_instance := do
  let (b,vm) ← stack_pop vm
  let (a,vm) ← stack_pop vm
  let value ← operator i a b
  stack_push vm value

def unary (f : Value → Value) : Except Fault vm_instance := do
  let (value,vm) ← stack_pop vm
  stack_push vm (f value)

/-- What an instruction does behind its own byte. -/
def execute (p : Process) : Instructions → Except Fault vm_instance
  | .GLOBAL_RESERVE => reserve vm p true
  | .VARIABLE => reserve vm p false
  | .ASSIGN => do
    let idx ← read_u64 vm vm.counter
    let vm := advance vm 8
    let (value,vm) ← stack_pop vm
    setVariable vm idx value
  | .ASSIGN_INDEXED => assign_indexed vm p
  | .LOAD => do
    let idx ← read_u64 vm vm.counter
    let vm := advance vm 8
    let value ← selectVariable vm idx
    stack_push vm value
  | .LOAD_INDEXED => load_indexed vm p
  | .STRING => do
    let len ← read_u64 vm vm.counter
    let vm := advance vm 8
    let vm ← stack_push vm (vm.code.signExtend 64 + vm.counter)
    pure (advance vm (len + 1))
  | .NUMBER => do
    let num ← read_u64 vm vm.counter
    let vm := advance vm 8
    stack_push vm num
  | .GOTO => do
    let place ← read_u64 vm vm.counter
    pure (jump vm place)
  | .GOTO_TRUE => goto_if vm fun value => value ≠ 0
  | .GOTO_FALSE => goto_if vm fun value => value = 0
  | .INVOKE => do_invoke vm
  | .INVOKE_NATIVE => invoke_native vm p
  | .RETURN => do_return vm
  | .INCREASE => change_variable vm 1
  | .DECREASE => change_variable vm (-1)
  | .INVERT => unary vm fun value => flag (value = 0)
  | .NOT => unary vm fun value => ~~~value
  | .CHANGE_SIGN => unary vm fun value => -value
  | .NORETURN => do
    let f ← frame vm
    set_frame vm { f with noreturn := true }
  | .DELETE => do
    let (_,vm) ← stack_pop vm
    pure vm
  | i => binary vm i

def step (p : Process) : Except Fault vm_instance := do
  let instruction ← read_u8 vm vm.counter
  let vm := advance vm 1
  match all_instructions[instruction.toNat]? with
  | none => .error .aborts
  | some i => execute vm p i

/-- The machine that `invoke` starts to step. -/
def invoke (location : Value) : Except Fault vm_instance := do
  let vm ← set_frame vm empty_frame
  pure { vm with counter := location, running := true }

end

def vm_create (memory : Memory) (code : Address) (code_size : Nat) (small : code_size < 2 ^ 63) : vm_instance :=
  ⟨memory,code,fun _ => 0,0,256,fun _ => 0,fun _ => 0,0,0,fun _ => empty_frame,0,false,code_size,small⟩

end MicroOS.Flvm

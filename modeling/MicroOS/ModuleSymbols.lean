import MicroOS.ObjectFiles
import MicroOS.Runs

/-!
The context that a module keeps of its loading points to the array of the section addresses, a variable of `load_object_file`.
The frames of calls are numbered in the order in which they are made, so that a frame that is gone is no later one. The main
theorem is `module_symbols`: which questions can be answered without the array.
-/

namespace MicroOS.ModuleSymbols
open Memory Runs ObjectFiles
open Linker (le16 le32 ELF_MAGIC)

/-- The symbols of all tables in the order of the loops, each with the place of its name in the image. -/
def symbols (image : Bytes) : List Symbol :=
  (section_headers image).flatMap fun s =>
    if s.type = SHT_SYMTAB then
      (List.range (s.size / 16)).map fun j =>
        { symbol_at image s.offset j with name := (section_header image s.link).offset + (symbol_at image s.offset j).name }
    else []

section
variable (image : Bytes) (load_base : Nat)

/-- With what is read at each index of `section_addresses`. -/
def sym_addr (entry : Nat → Nat) (symbol : Symbol) : Nat := wrap (load_base + entry symbol.shndx + symbol.value)

/-- The address for a name, 0 for none, and the indices of `section_addresses` that were used. -/
def resolve_symbol_address (entry : Nat → Nat) (symbol_name : List UInt8) : Nat × List Nat :=
  match (symbols image).find? fun symbol => string_is image symbol.name symbol_name with
  | none => (0,[])
  | some symbol => (sym_addr load_base entry symbol,[symbol.shndx])

/-- The rounds of the search for an address. -/
def name_loop (entry : Nat → Nat) (address : Nat) : List Symbol → Option Nat × List Nat
  | [] => (none,[])
  | symbol :: rest =>
    let start := sym_addr load_base entry symbol
    if start ≤ address ∧ address < wrap (start + symbol.size) then (some symbol.name,[symbol.shndx])
    else ((name_loop entry address rest).1,symbol.shndx :: (name_loop entry address rest).2)

/-- The name for an address, as its place in the image, and the indices that were used. -/
def resolve_symbol_name (entry : Nat → Nat) (address : Nat) : Option Nat × List Nat := name_loop load_base entry address (symbols image)

/-- "__module__". -/
def module_name : List UInt8 := [0x5F,0x5F,0x6D,0x6F,0x64,0x75,0x6C,0x65,0x5F,0x5F]

/-- The entries of the array while the loader runs, with what stands behind it on the stack. -/
def loader_entry (beyond : Nat → Nat) (i : Nat) : Nat :=
  if i < sh_entry_count image then (section_addresses image).getD i 0 else beyond i

/-- The memory and the module; `none` if the loader refuses the image, or there is no module in it. -/
def load_object_file (resolve_symbol_from_name beyond : Nat → Nat) (m : Bytes) : Option (Bytes × Nat) :=
  (load_object resolve_symbol_from_name image load_base m).bind fun m =>
    let module_ := (resolve_symbol_address image load_base (loader_entry image beyond) module_name).1
    if module_ = 0 then none else some (m,module_)

end

/-- An `elf_object_context_t`; the array is named by the frame that it lies in. -/
structure Context where
  image : Bytes
  section_addresses : Nat
  load_base : Nat

/-- The frames of the calls that have not returned, the number of the next one, and the contexts in the modules. -/
structure Kernel where
  frames : List Nat
  next : Nat
  modules : List Context

/-- A call, a return, and a call of `load_object_file` that returned a module. -/
inductive Action where
  | call
  | ret
  | load (resolve_symbol_from_name beyond : Nat → Nat) (image : Bytes) (load_base : Nat) (m : Bytes)

def kernel : System Kernel Action where
  start k := k = ⟨[],0,[]⟩
  step k a k' :=
    match a with
    | .call => k' = ⟨k.next :: k.frames,k.next + 1,k.modules⟩
    | .ret => k' = { k with frames := k.frames.tail }
    | .load resolve_symbol_from_name beyond image load_base m =>
      (∃ loaded, load_object_file image load_base resolve_symbol_from_name beyond m = some loaded) ∧
        k' = ⟨k.frames,k.next + 1,⟨image,k.next,load_base⟩ :: k.modules⟩

inductive Query where
  | address (address : Nat)
  | name (symbol_name : List UInt8)

/-- The indices that a call uses. -/
def used (c : Context) (entry : Nat → Nat) : Query → List Nat
  | .address address => (resolve_symbol_name c.image c.load_base entry address).2
  | .name symbol_name => (resolve_symbol_address c.image c.load_base entry symbol_name).2

/-- Where the section of a symbol was placed, for one that is in a section. -/
def placed_at (c : Context) (symbol : Symbol) : Option Nat :=
  if symbol.shndx = SHN_ABS then some symbol.value
  else if symbol.shndx ≠ SHN_UNDEF ∧ symbol.shndx < sh_entry_count c.image then
    some (c.load_base + (section_addresses c.image).getD symbol.shndx 0 + symbol.value)
  else none

/-- Only entries of an array that is still there are read, and a name that is returned is that of a symbol at the address. -/
structure Safe (k : Kernel) (c : Context) (entry : Nat → Nat) (q : Query) : Prop where
  bounded : ∀ i ∈ used c entry q, i < sh_entry_count c.image
  alive : ∀ i ∈ used c entry q, c.section_addresses ∈ k.frames
  belongs : ∀ address name, q = .address address → (resolve_symbol_name c.image c.load_base entry address).1 = some name →
    ∃ symbol ∈ symbols c.image, symbol.name = name ∧
      ∃ start, placed_at c symbol = some start ∧ start ≤ address ∧ address < start + symbol.size

/-- A name that no symbol has. -/
def Unknown (c : Context) : Query → Prop
  | .address _ => False
  | .name symbol_name => ∀ symbol ∈ symbols c.image, string_is c.image symbol.name symbol_name = false

/-- The arrays of the modules are in frames that are gone. -/
structure Gone (k : Kernel) : Prop where
  frames : ∀ f ∈ k.frames, f < k.next
  modules : ∀ c ∈ k.modules, c.section_addresses < k.next ∧ c.section_addresses ∉ k.frames
  defined : ∀ c ∈ k.modules, symbols c.image ≠ []

theorem loaded_symbols {image : Bytes} {load_base : Nat} {resolve_symbol_from_name beyond : Nat → Nat} {m : Bytes} {loaded : Bytes × Nat}
    (here : load_object_file image load_base resolve_symbol_from_name beyond m = some loaded) : symbols image ≠ [] := by
  intro none_there
  obtain ⟨m,_,found⟩ := Option.bind_eq_some_iff.1 here
  rw [resolve_symbol_address,none_there] at found
  cases found

theorem gone_step {k k' : Kernel} {a : Action} (gone : Gone k) (step : kernel.step k a k') : Gone k' := by
  obtain ⟨frames,modules,defined⟩ := gone
  cases a with
  | call =>
    obtain rfl := step
    refine ⟨?_,?_,defined⟩
    · intro f among
      rcases List.mem_cons.1 among with rfl | among
      · exact Nat.lt_succ_self _
      · exact Nat.lt_succ_of_lt (frames f among)
    · intro c kept
      obtain ⟨earlier,absent⟩ := modules c kept
      refine ⟨Nat.lt_succ_of_lt earlier,?_⟩
      rw [List.mem_cons,not_or]
      exact ⟨Nat.ne_of_lt earlier,absent⟩
  | ret =>
    obtain rfl := step
    refine ⟨fun f among => frames f (List.mem_of_mem_tail among),fun c kept => ?_,defined⟩
    obtain ⟨earlier,absent⟩ := modules c kept
    exact ⟨earlier,fun among => absent (List.mem_of_mem_tail among)⟩
  | load resolve_symbol_from_name beyond image load_base m =>
    obtain ⟨⟨loaded,here⟩,rfl⟩ := step
    refine ⟨fun f among => Nat.lt_succ_of_lt (frames f among),?_,?_⟩
    · intro c kept
      rcases List.mem_cons.1 kept with rfl | kept
      · exact ⟨Nat.lt_succ_self _,fun among => lt_irrefl _ (frames _ among)⟩
      · obtain ⟨earlier,absent⟩ := modules c kept
        exact ⟨Nat.lt_succ_of_lt earlier,absent⟩
    · intro c kept
      rcases List.mem_cons.1 kept with rfl | kept
      · exact loaded_symbols here
      · exact defined c kept

theorem gone_reached {k : Kernel} (reached : Reached kernel k) : Gone k := by
  refine reached_invariant ?_ (fun _ _ _ => gone_step) reached
  rintro k rfl
  exact ⟨fun _ among => absurd among List.not_mem_nil,fun _ kept => absurd kept List.not_mem_nil,
    fun _ kept => absurd kept List.not_mem_nil⟩

/-- The first symbol is looked at whatever it is. -/
theorem name_loop_uses (load_base : Nat) (entry : Nat → Nat) (address : Nat) (symbol : Symbol) (rest : List Symbol) :
    symbol.shndx ∈ (name_loop load_base entry address (symbol :: rest)).2 := by
  rw [name_loop]
  split
  · exact List.mem_singleton_self _
  · exact List.mem_cons_self ..

/-- For every module that was loaded, at any later time and whatever is in the memory where the array was, the questions that are
    answered without reading there are those for names that no symbol has. -/
theorem module_symbols {k : Kernel} (reached : Reached kernel k) {c : Context} (loaded : c ∈ k.modules) (entry : Nat → Nat) (q : Query) :
    Safe k c entry q ↔ Unknown c q := by
  have gone := gone_reached reached
  have absent := (gone.modules c loaded).2
  cases q with
  | address address =>
    refine iff_of_false (fun safe => ?_) id
    obtain ⟨symbol,rest,some_symbol⟩ := List.exists_cons_of_ne_nil (gone.defined c loaded)
    refine absent (safe.alive symbol.shndx ?_)
    rw [used,resolve_symbol_name,some_symbol]
    exact name_loop_uses c.load_base entry address symbol rest
  | name symbol_name =>
    cases found : (symbols c.image).find? fun symbol => string_is c.image symbol.name symbol_name with
    | none =>
      have none_used : used c entry (.name symbol_name) = [] := by rw [used,resolve_symbol_address,found]
      refine iff_of_true ⟨?_,?_,?_⟩ ?_
      · intro i use
        exact absurd (none_used ▸ use) List.not_mem_nil
      · intro i use
        exact absurd (none_used ▸ use) List.not_mem_nil
      · intro address name no
        cases no
      · intro symbol among
        simpa using List.find?_eq_none.1 found symbol among
    | some symbol =>
      have one_used : used c entry (.name symbol_name) = [symbol.shndx] := by rw [used,resolve_symbol_address,found]
      refine iff_of_false (fun safe => absent (safe.alive symbol.shndx ?_)) (fun unknown => ?_)
      · rw [one_used]
        exact List.mem_singleton_self _
      · have named := List.find?_some found
        rw [unknown symbol (List.mem_of_find?_eq_some found)] at named
        cases named

def section_bytes (s : SectionHeader) : List UInt8 :=
  le32 0 ++ le32 s.type ++ le32 s.flags ++ le32 0 ++ le32 s.offset ++ le32 s.size ++ le32 s.link ++ le32 s.info ++ le32 s.addralign ++
    le32 0

def symbol_bytes (s : Symbol) : List UInt8 :=
  le32 s.name ++ le32 s.value ++ le32 s.size ++ [UInt8.ofNat s.info,0] ++ le16 s.shndx

/-- One section of four bytes with the module in it, and a variable `c` that has no section. -/
def common_image : Bytes := fun i =>
  (le32 ELF_MAGIC ++ List.replicate 28 0 ++ le32 52 ++ List.replicate 12 0 ++ le16 4 ++ le16 0 ++
    section_bytes ⟨0,0,0,0,0,0,0⟩ ++ section_bytes ⟨SHT_PROGBITS,SHF_ALLOC,212,4,0,0,4⟩ ++ section_bytes ⟨SHT_SYMTAB,0,216,48,3,0,4⟩ ++
    section_bytes ⟨3,0,264,14,0,0,1⟩ ++ le32 1 ++ symbol_bytes ⟨0,0,0,0,0⟩ ++ symbol_bytes ⟨1,0,4,0x11,1⟩ ++
    symbol_bytes ⟨12,4,4,0x11,0xFFF2⟩ ++ 0 :: module_name ++ [0,0x63,0]).getD i 0

/-- A block behind the first megabyte. -/
def module_base : Nat := 0x100000

theorem common_loads : ∃ loaded, load_object_file common_image module_base (fun _ => 0) (fun _ => 0) (fun _ => 0) = some loaded := by
  rw [← Option.isSome_iff_exists]
  decide +kernel

/-- The kernel when the module is loaded and `load_object_file` has returned. -/
def module_loaded : Kernel := ⟨[],1,[⟨common_image,0,module_base⟩]⟩

theorem module_loaded_reached : Reached kernel module_loaded :=
  ⟨⟨[],0,[]⟩,[.load (fun _ => 0) (fun _ => 0) common_image module_base fun _ => 0],rfl,.step ⟨common_loads,rfl⟩ (.done _)⟩

theorem module_symbols_loaded : Reached kernel module_loaded ∧ (⟨common_image,0,module_base⟩ : Context) ∈ module_loaded.modules ∧
    (Safe module_loaded ⟨common_image,0,module_base⟩ (fun _ => 0) (.name [0x64]) ↔
      Unknown ⟨common_image,0,module_base⟩ (.name [0x64])) :=
  ⟨module_loaded_reached,List.mem_singleton_self _,module_symbols module_loaded_reached (List.mem_singleton_self _) (fun _ => 0) _⟩

/-- An address in the module, for which an array that is gone is read, and the name of the variable, for which an entry far behind it is. -/
theorem symbols_of_gone_frame : Reached kernel module_loaded ∧ (⟨common_image,0,module_base⟩ : Context) ∈ module_loaded.modules ∧
    0 ∈ used ⟨common_image,0,module_base⟩ (fun _ => 0) (.address module_base) ∧
    0xFFF2 ∈ used ⟨common_image,0,module_base⟩ (fun _ => 0) (.name [0x63]) ∧ sh_entry_count common_image = 4 ∧
    ¬ Safe module_loaded ⟨common_image,0,module_base⟩ (fun _ => 0) (.address module_base) ∧
    ¬ Safe module_loaded ⟨common_image,0,module_base⟩ (fun _ => 0) (.name [0x63]) := by
  have address : 0 ∈ used ⟨common_image,0,module_base⟩ (fun _ => 0) (.address module_base) := by decide +kernel
  have name : 0xFFF2 ∈ used ⟨common_image,0,module_base⟩ (fun _ => 0) (.name [0x63]) := by decide +kernel
  have count : sh_entry_count common_image = 4 := by decide +kernel
  refine ⟨module_loaded_reached,List.mem_singleton_self _,address,name,count,?_,?_⟩
  · intro safe
    exact absurd (safe.alive 0 address) List.not_mem_nil
  · intro safe
    have inside := safe.bounded 0xFFF2 name
    rw [count] at inside
    omega

end MicroOS.ModuleSymbols

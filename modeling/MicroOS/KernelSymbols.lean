import MicroOS.Scanner

/-! The symbol table of the kernel (`utils/trace.c`), read from a file that `gen_syms.sh` closes with the address 0xffffffff.
A result is none when a read leaves the file or the table, or a write `name`. -/

namespace MicroOS.KernelSymbols

structure symbol_t where
  address : UInt32
  name : List UInt8
deriving DecidableEq

def register_symbol (symbols : List symbol_t) (sym : symbol_t) : List symbol_t :=
  if sym.name.getD 0 0 = 46 ∧ sym.name.getD 1 0 = 76 then symbols
  else if sym.name.getD 0 0 = 95 ∧ sym.name.getD 1 0 = 95 ∧ sym.name.getD 2 0 = 70 then symbols
  else symbols ++ [sym]

/-- The loop sees a symbol and those behind it. -/
def resolve_symbol_from_addr : List symbol_t → UInt32 → Option (Option (List UInt8))
  | [],_ => some none
  | [sym],address => if sym.address ≤ address then none else some none
  | sym :: next :: symbols,address =>
    if sym.address ≤ address ∧ address < next.address ∧ next.address ≠ 0xffffffff then some (some sym.name)
    else resolve_symbol_from_addr (next :: symbols) address

def read_address : List UInt8 → UInt32 → Option (UInt32 × List UInt8)
  | [],_ => none
  | c :: file,addr =>
    if 48 ≤ c ∧ c ≤ 57 then read_address file (addr * 16 + (c - 48).toUInt32)
    else if 97 ≤ c ∧ c ≤ 102 then read_address file (addr * 16 + (c - 97 + 10).toUInt32)
    else if 65 ≤ c ∧ c ≤ 70 then read_address file (addr * 15 + (c - 65 + 10).toUInt32)
    else some (addr,c :: file)

def read_name : List UInt8 → List UInt8 → Nat → Option (List UInt8 × List UInt8)
  | [],_,_ => none
  | c :: file,name,i =>
    if c ≠ 10 then do
      let name ← Scanner.put name i c
      read_name file name (i + 1)
    else some (name,file)

/-- The loop over the lines. -/
def read_symbols : Nat → List UInt8 → List symbol_t → Option (List symbol_t)
  | 0,_,_ => none
  | turns + 1,file,symbols => do
    let (addr,file) ← read_address file 0
    let c ← file.head?
    if c = 32 then do
      let (name,file) ← read_name file.tail (List.replicate 128 0) 0
      read_symbols turns file (register_symbol symbols ⟨addr,name⟩)
    else pure symbols

def init_global_symbols (symfile : List UInt8) : Option (List symbol_t) := read_symbols (symfile.length + 1) symfile []

def digit_value (c : UInt8) : Nat :=
  if c ≤ 57 then c.toNat - 48 else if 97 ≤ c then c.toNat - 87 else c.toNat - 55

def upper (c : UInt8) : Prop := 65 ≤ c ∧ c ≤ 70
def hex_digit (c : UInt8) : Prop := 48 ≤ c ∧ c ≤ 57 ∨ 97 ≤ c ∧ c ≤ 102 ∨ upper c

/-- The value of digits behind those that are worth `v`. -/
def value (v : Nat) (digits : List UInt8) : Nat := digits.foldl (fun v c => v * 16 + digit_value c) v

/-- A line of the file: the address and the name of a symbol. -/
structure Line where
  digits : List UInt8
  name : List UInt8
  hex : ∀ c ∈ digits, hex_digit c
  some_digit : digits ≠ []
  fits : value 0 digits < 2 ^ 32
  line : Scanner.Inline name

def Line.address (l : Line) : UInt32 := UInt32.ofNat (value 0 l.digits)

/-- The symbol of a line, with its name at the front of the array. -/
def Line.symbol (l : Line) : symbol_t := ⟨l.address,Scanner.field 128 l.name⟩

/-- Labels within functions, and names that begin with `__F`, are left out. -/
def Line.accepted (l : Line) : Bool := !([46,76].isPrefixOf l.name) && !([95,95,70].isPrefixOf l.name)

def text : List Line → List UInt8
  | [] => []
  | l :: lines => l.digits ++ 32 :: (l.name ++ 10 :: text lines)

/-- The symbols that the lines stand for. -/
def table (lines : List Line) : List symbol_t := (lines.filter Line.accepted).map Line.symbol

/-- The name has room in front of a NUL, and a letter of the address that is a capital has only zeros in front of it. -/
structure Line.Plain (l : Line) : Prop where
  short : l.name.length < 128
  case : ∀ front c back, l.digits = front ++ c :: back → upper c → value 0 front = 0

/-- The last symbol at an address or below it. -/
def last_below (symbols : List symbol_t) (address : UInt32) : Option (List UInt8) :=
  (symbols.filter (·.address ≤ address)).getLast?.map (·.name)

/-- A symbol above the address, other than the one that closes the table. -/
def Covered (symbols : List symbol_t) (address : UInt32) : Prop := ∃ s ∈ symbols, address < s.address ∧ s.address ≠ 0xffffffff

instance (symbols : List symbol_t) (address : UInt32) : Decidable (Covered symbols address) :=
  inferInstanceAs (Decidable (∃ s ∈ symbols, address < s.address ∧ s.address ≠ 0xffffffff))

section
variable {stop : UInt8} {after : List UInt8}

/-- The difference of a digit to the first of its kind, as it is added. -/
theorem part_eq {c low : UInt8} {offset n : Nat} (above : low ≤ c) (small : c.toNat - low.toNat + offset < 256)
    (same : c.toNat - low.toNat + offset = n) : (c - low + UInt8.ofNat offset).toUInt32 = UInt32.ofNat n := by
  rw [← UInt32.toNat_inj,UInt8.toNat_toUInt32,UInt8.toNat_add,UInt8.toNat_sub_of_le _ _ above,UInt8.toNat_ofNat',UInt32.toNat_ofNat']
  omega

/-- A digit adds its value, unless it is a capital letter behind another digit. -/
theorem read_digit {c : UInt8} (hex : hex_digit c) {v : Nat} (case : upper c → v = 0) (file : List UInt8) :
    read_address (c :: file) (UInt32.ofNat v) = read_address file (UInt32.ofNat (v * 16 + digit_value c)) := by
  obtain number | letter | capital := hex
  · have low : 48 ≤ c.toNat := number.1
    have high : c.toNat ≤ 57 := number.2
    have digit : (c - 48 + UInt8.ofNat 0).toUInt32 = UInt32.ofNat (digit_value c) :=
      part_eq number.1 (show c.toNat - 48 + 0 < 256 by omega) (by rw [digit_value,if_pos number.2]; rfl)
    rw [read_address,if_pos number,← UInt8.add_zero (c - 48),show (0 : UInt8) = UInt8.ofNat 0 from rfl,digit]
    simp
  · have low : 97 ≤ c.toNat := letter.1
    have high : c.toNat ≤ 102 := letter.2
    have number : ¬c ≤ 57 := fun le => by
      have : c.toNat ≤ 57 := le
      omega
    have digit : (c - 97 + UInt8.ofNat 10).toUInt32 = UInt32.ofNat (digit_value c) :=
      part_eq letter.1 (show c.toNat - 97 + 10 < 256 by omega) (by
        rw [digit_value,if_neg number,if_pos letter.1]
        show c.toNat - 97 + 10 = c.toNat - 87
        omega)
    rw [read_address,if_neg fun both => number both.2,if_pos letter,show (10 : UInt8) = UInt8.ofNat 10 from rfl,digit]
    simp
  · have low : 65 ≤ c.toNat := capital.1
    have high : c.toNat ≤ 70 := capital.2
    have number : ¬c ≤ 57 := fun le => by
      have : c.toNat ≤ 57 := le
      omega
    have letter : ¬97 ≤ c := fun le => by
      have : 97 ≤ c.toNat := le
      omega
    have digit : (c - 65 + UInt8.ofNat 10).toUInt32 = UInt32.ofNat (digit_value c) :=
      part_eq capital.1 (show c.toNat - 65 + 10 < 256 by omega) (by
        rw [digit_value,if_neg number,if_neg letter]
        show c.toNat - 65 + 10 = c.toNat - 55
        omega)
    obtain rfl := case capital
    have is_capital : 65 ≤ c ∧ c ≤ 70 := capital
    rw [read_address,if_neg fun both => number both.2,if_neg fun both => letter both.1,if_pos is_capital,
      show (10 : UInt8) = UInt8.ofNat 10 from rfl,digit]
    simp

/-- The loop over the digits is right while a capital letter has nothing in front of it. -/
theorem read_address_eq {digits : List UInt8} (hex : ∀ c ∈ digits, hex_digit c) (ends : ¬hex_digit stop) {v : Nat}
    (case : ∀ front c back, digits = front ++ c :: back → upper c → value v front = 0) :
    read_address (digits ++ stop :: after) (UInt32.ofNat v) = some (UInt32.ofNat (value v digits),stop :: after) := by
  induction digits generalizing v with
  | nil =>
    simp only [hex_digit,upper,not_or] at ends
    rw [List.nil_append,read_address,if_neg ends.1,if_neg ends.2.1,if_neg ends.2.2]
    rfl
  | cons c digits ih =>
    have first : upper c → v = 0 := case [] c digits rfl
    rw [List.cons_append,read_digit (hex c (List.mem_cons_self ..)) first]
    refine ih (fun d mem => hex d (List.mem_cons_of_mem _ mem)) fun front d back split => ?_
    exact case (c :: front) d back (by rw [split]; rfl)

/-- A name is copied to its newline when there is room for it. -/
theorem read_name_eq {s t : List UInt8} (line : Scanner.Inline s) (room : t.length + s.length < 128) :
    read_name (s ++ 10 :: after) (Scanner.field 128 t) t.length = some (Scanner.field 128 (t ++ s),after) := by
  induction s generalizing t with
  | nil => simp [read_name]
  | cons c s ih =>
    have plain : c ≠ 10 := (line c (List.mem_cons_self ..)).2
    rw [List.length_cons] at room
    have rest := @ih (t ++ [c]) line.tail (by simp; omega)
    rw [List.length_append,List.length_singleton,List.append_assoc] at rest
    rw [List.cons_append,read_name,if_pos plain,Scanner.put_field (by omega),Option.bind_eq_bind,Option.bind_some]
    exact rest

end

theorem field_getD (size : Nat) (t : List UInt8) (i : Nat) : (Scanner.field size t).getD i 0 = t.getD i 0 := by
  rw [Scanner.field,List.getD_eq_getElem?_getD,List.getD_eq_getElem?_getD,List.getElem?_append]
  split_ifs with inside
  · rfl
  · rw [List.getElem?_replicate,List.getElem?_eq_none (Nat.le_of_not_lt inside)]
    split_ifs <;> rfl

theorem label_iff (name : List UInt8) : (name.getD 0 0 = 46 ∧ name.getD 1 0 = 76) ↔ [46,76].isPrefixOf name = true := by
  rcases name with _ | ⟨a,_ | ⟨b,name⟩⟩
  · decide
  · simp
  · simp
    grind

theorem hidden_iff (name : List UInt8) :
    (name.getD 0 0 = 95 ∧ name.getD 1 0 = 95 ∧ name.getD 2 0 = 70) ↔ [95,95,70].isPrefixOf name = true := by
  rcases name with _ | ⟨a,_ | ⟨b,_ | ⟨c,name⟩⟩⟩
  · decide
  · simp
  · simp
  · simp
    grind

/-- The names that are left out are recognised in the array. -/
theorem register_eq (l : Line) (symbols : List symbol_t) :
    register_symbol symbols l.symbol = symbols ++ if l.accepted then [l.symbol] else [] := by
  rw [register_symbol,Line.accepted]
  simp only [Line.symbol,field_getD,label_iff,hidden_iff]
  by_cases label : [46,76].isPrefixOf l.name = true
  · simp only [label,if_true,Bool.not_true,Bool.false_and,Bool.false_eq_true,if_false,List.append_nil]
  · by_cases hidden : [95,95,70].isPrefixOf l.name = true
    · simp only [hidden,if_true,ite_self,Bool.not_true,Bool.and_false,Bool.false_eq_true,if_false,List.append_nil]
    · rw [if_neg label,if_neg hidden,Bool.eq_false_of_not_eq_true label,Bool.eq_false_of_not_eq_true hidden]
      rfl

theorem space_ends : ¬hex_digit 32 := by
  rw [hex_digit,upper]
  decide

/-- Each line adds its symbol, if it is accepted. -/
theorem read_symbols_eq {lines : List Line} (plain : ∀ l ∈ lines, l.Plain) {turns : Nat} (enough : lines.length < turns)
    (symbols : List symbol_t) :
    read_symbols turns (text lines ++ [0]) symbols = some (symbols ++ table lines) := by
  induction lines generalizing turns symbols with
  | nil =>
    obtain ⟨turns,rfl⟩ : ∃ n, turns = n + 1 := ⟨turns - 1,by simp at enough; omega⟩
    simp [read_symbols,read_address,text,table]
  | cons l lines ih =>
    obtain ⟨turns,rfl⟩ : ∃ n, turns = n + 1 := ⟨turns - 1,by simp at enough; omega⟩
    have is_plain := plain l (List.mem_cons_self ..)
    have name := @read_name_eq (text lines ++ [0]) l.name [] l.line (by simpa using is_plain.short)
    rw [Scanner.field_nil,List.length_nil,List.nil_append] at name
    have whole : text (l :: lines) ++ [0] = l.digits ++ 32 :: (l.name ++ 10 :: (text lines ++ [0])) := by simp [text]
    have first := @read_address_eq 32 (l.name ++ 10 :: (text lines ++ [0])) l.digits l.hex space_ends 0 is_plain.case
    have rest := @ih (fun k mem => plain k (List.mem_cons_of_mem _ mem)) turns (by simpa using enough) (register_symbol symbols l.symbol)
    rw [whole,read_symbols,show (0 : UInt32) = UInt32.ofNat 0 from rfl,first]
    simp only [Option.bind_eq_bind,Option.bind_some,List.head?_cons,List.tail_cons,if_true,name]
    refine rest.trans (congrArg some ?_)
    rw [register_eq,table,table,List.filter_cons]
    cases l.accepted <;> simp

section
variable {address : UInt32}

variable {symbols : List symbol_t}

/-- Nothing is found, or read behind the table, while all symbols are above. -/
theorem resolve_above (above : ∀ s ∈ symbols, address < s.address) :
    resolve_symbol_from_addr symbols address = some none := by
  induction symbols with
  | nil => rfl
  | cons sym symbols ih =>
    have not_below : ¬sym.address ≤ address := UInt32.not_le.mpr (above sym (List.mem_cons_self ..))
    cases symbols with
    | nil => rw [resolve_symbol_from_addr,if_neg not_below]
    | cons next symbols =>
      rw [resolve_symbol_from_addr,if_neg fun all => not_below all.1]
      exact ih fun s mem => above s (List.mem_cons_of_mem _ mem)

theorem last_below_above (above : ∀ s ∈ symbols, address < s.address) : last_below symbols address = none := by
  have : symbols.filter (·.address ≤ address) = [] := List.filter_eq_nil_iff.mpr fun s mem => by simpa using above s mem
  rw [last_below,this]
  rfl

theorem last_below_next {sym : symbol_t} (below : sym.address ≤ address) :
    last_below (sym :: symbols) address = (last_below symbols address).or (some sym.name) := by
  rw [last_below,last_below,List.filter_cons,if_pos (decide_eq_true below)]
  cases last : (symbols.filter (·.address ≤ address)).getLast? <;> simp [List.getLast?_cons,last]

theorem covered_next {sym : symbol_t} (below : sym.address ≤ address) :
    Covered (sym :: symbols) address ↔ Covered symbols address := by
  have not_above : ¬address < sym.address := UInt32.not_lt.mpr below
  simp [Covered,not_above]

/-- Below the last entry the lookup stays in the table: it finds the last symbol at or below the address, unless only the
closing entry is above. -/
theorem resolve_eq (ascending : symbols.Pairwise fun s t => s.address ≤ t.address)
    (inside : ∃ s ∈ symbols, address < s.address) :
    resolve_symbol_from_addr symbols address = some (if Covered symbols address then last_below symbols address else none) := by
  induction symbols with
  | nil => simp at inside
  | cons sym symbols ih =>
    obtain ⟨from_here,ascending⟩ := List.pairwise_cons.mp ascending
    by_cases below : sym.address ≤ address
    · have later : ∃ s ∈ symbols, address < s.address := by
        obtain ⟨s,mem,above⟩ := inside
        obtain rfl | mem := List.mem_cons.mp mem
        · exact (UInt32.not_lt.mpr below above).elim
        · exact ⟨s,mem,above⟩
      rw [last_below_next below,if_congr (covered_next below) rfl rfl]
      cases symbols with
      | nil => simp at later
      | cons next symbols =>
        rw [resolve_symbol_from_addr]
        by_cases here : address < next.address
        · have above : ∀ s ∈ next :: symbols, address < s.address :=
            List.forall_mem_cons.mpr ⟨here,fun s mem => UInt32.lt_of_lt_of_le here ((List.pairwise_cons.mp ascending).1 s mem)⟩
          rw [last_below_above above]
          by_cases closing : next.address = 0xffffffff
          · have not_covered : ¬Covered (next :: symbols) address := by
              rintro ⟨s,mem,-,other⟩
              have from_next : next.address ≤ s.address :=
                (List.mem_cons.mp mem).elim (fun same => same ▸ UInt32.le_refl _) fun mem => (List.pairwise_cons.mp ascending).1 s mem
              rw [closing] at from_next
              have large : 4294967295 ≤ s.address.toNat := from_next
              have small := s.address.toNat_lt
              exact other (UInt32.toNat_inj.mp (show s.address.toNat = 4294967295 by omega))
            rw [if_neg fun all => all.2.2 closing,resolve_above above,if_neg not_covered]
          · rw [if_pos ⟨below,here,closing⟩,if_pos ⟨next,List.mem_cons_self ..,here,closing⟩]
            rfl
        · rw [if_neg fun all => here all.2.1,ih ascending later]
          have found : (last_below (next :: symbols) address).isSome := by
            rw [last_below_next (UInt32.not_lt.mp here)]
            cases last_below symbols address <;> rfl
          obtain ⟨name,found⟩ := Option.isSome_iff_exists.mp found
          rw [found]
          rfl
    · have above : ∀ s ∈ sym :: symbols, address < s.address :=
        List.forall_mem_cons.mpr ⟨UInt32.not_le.mp below,fun s mem => UInt32.lt_of_lt_of_le (UInt32.not_le.mp below) (from_here s mem)⟩
      rw [resolve_above above,last_below_above above,ite_self]

end

/-- The addresses do not fall from line to line. -/
def Ascending (lines : List Line) : Prop := lines.Pairwise fun k l => k.address ≤ l.address

theorem table_ascending {lines : List Line} (ascending : Ascending lines) : (table lines).Pairwise fun s t => s.address ≤ t.address :=
  List.pairwise_map.mpr (ascending.filter _)

theorem init_eq {lines : List Line} (plain : ∀ l ∈ lines, l.Plain) : init_global_symbols (text lines ++ [0]) = some (table lines) := by
  have enough : ∀ lines : List Line, lines.length ≤ (text lines).length := by
    intro lines
    induction lines with
    | nil => exact le_refl 0
    | cons l lines ih =>
      simp only [text,List.length_append,List.length_cons]
      omega
  rw [init_global_symbols]
  refine (read_symbols_eq plain ?_ []).trans rfl
  have := enough lines
  simp
  omega

/-- The accepted symbols of a file are registered with their addresses and names, and the lookup of an address below the
last entry stays in the table and finds the last symbol at or below it, or none in front of the closing entry alone. -/
theorem symbols_registered_and_resolved (lines : List Line) (plain : ∀ l ∈ lines, l.Plain) (ascending : Ascending lines) :
    init_global_symbols (text lines ++ [0]) = some (table lines) ∧ ∀ address, (table lines = [] ∨ ∃ s ∈ table lines, address < s.address) →
      resolve_symbol_from_addr (table lines) address =
        some (if Covered (table lines) address then last_below (table lines) address else none) := by
  refine ⟨init_eq plain,fun address inside => ?_⟩
  obtain nothing | inside := inside
  · have above : ∀ s ∈ ([] : List symbol_t), address < s.address := by simp
    rw [nothing,resolve_above above,last_below_above above,ite_self]
  · exact resolve_eq (table_ascending ascending) inside

/-- `c0100000 main` -/
def main_line : Line where
  digits := [99,48,49,48,48,48,48,48]
  name := [109,97,105,110]
  hex := by simp [hex_digit,upper]
  some_digit := by decide
  fits := by decide
  line := by simp [Scanner.Inline,Scanner.newline]

/-- `ffffffff xxxxxx` -/
def closing_line : Line where
  digits := List.replicate 8 102
  name := List.replicate 6 120
  hex := by simp [hex_digit,upper]
  some_digit := by decide
  fits := by decide
  line := by simp [Scanner.Inline,Scanner.newline]

theorem no_capital {l : Line} (no_upper : ∀ c ∈ l.digits, ¬upper c) (short : l.name.length < 128) : l.Plain :=
  ⟨short,fun front c back split capital => (no_upper c (split ▸ by simp) capital).elim⟩

/-- The file of a kernel with one symbol: the address is behind the symbol, but only the closing entry is above it. -/
theorem symbols_registered_and_resolved_main :
    init_global_symbols (text [main_line,closing_line] ++ [0]) = some (table [main_line,closing_line]) ∧ ∀ address,
      (table [main_line,closing_line] = [] ∨ ∃ s ∈ table [main_line,closing_line], address < s.address) →
      resolve_symbol_from_addr (table [main_line,closing_line]) address =
        some (if Covered (table [main_line,closing_line]) address then last_below (table [main_line,closing_line]) address else none) :=
  symbols_registered_and_resolved [main_line,closing_line]
    (by
      intro l mem
      obtain rfl | rfl : l = main_line ∨ l = closing_line := by simpa using mem
      · exact no_capital (by simp [main_line,upper]) (by decide)
      · exact no_capital (by simp [closing_line,upper]) (by decide))
    (by simp [Ascending]; decide)

/-- The last symbol in front of the closing entry is not found. -/
theorem main_not_resolved :
    ¬∀ address, resolve_symbol_from_addr (table [main_line,closing_line]) address = some (last_below (table [main_line,closing_line]) address) := by
  intro always
  have found := always 0xc0100010
  have missing : resolve_symbol_from_addr (table [main_line,closing_line]) 0xc0100010 = some none := by decide
  have expected : (last_below (table [main_line,closing_line]) 0xc0100010).isSome := by decide
  rw [missing] at found
  rw [← Option.some.inj found] at expected
  cases expected

end MicroOS.KernelSymbols

import MicroOS.LinkerLoad

/-!
The objects are read one after the other into a table of symbols and a list of pending relocations. The main theorem is
`relocated_right`: for which pending relocations linker_relocate writes the word that the chosen definition asks for.
-/
namespace MicroOS.LinkerSymbols
open Memory Linker
open LinkerLoad (outline)
open Option (map_eq_some_iff some.inj)

def SHN_UNDEF : Nat := 0
def SHN_ABS : Nat := 0xFFF1
def STB_LOCAL : Nat := 0
def STB_GLOBAL : Nat := 1
def STB_WEAK : Nat := 2
def STT_NOTYPE : Nat := 0
def STT_SECTION : Nat := 3
def STT_FILE : Nat := 4
def MAX_INPUT_FILES : Nat := 16
def MAX_SYMBOLS : Nat := 8192
def MAX_RELOCS : Nat := 16384

/-! ### Objects -/

/-- `elf32_sym_t`, with its name. -/
structure ElfSym where
  name : List UInt8
  value : Word
  bind : Nat
  stype : Nat
  shndx : Nat

/-- `elf32_rel_t` or `elf32_rela_t`. -/
structure ElfRel where
  offset : Word
  type : Nat
  sym : Nat
  addend : Word

/-- A section of relocations; `info` is the index of the section that they patch. -/
structure RelSection where
  rela : Bool
  info : Nat
  entries : List ElfRel

/-- What an object file holds: its sections, its symbol tables and its relocations. -/
structure Object where
  headers : List Header
  tables : List (List ElfSym)
  rels : List RelSection

/-! ### The table of symbols -/

/-- `global_symbol_t`, and the symbol that its definition was taken from. -/
structure GlobalSymbol where
  name : List UInt8
  value : Nat
  defined : Bool
  obj_idx : Option Nat
  sec_idx : Option Nat
  bind : Nat
  type : Nat
  origin : Option ElfSym

def linker_find_symbol (symbols : List GlobalSymbol) (name : List UInt8) : Option Nat :=
  symbols.findIdx? fun sym => sym.name == name

/-- The table afterwards and the index of the symbol in it. -/
def linker_add_symbol (symbols : List GlobalSymbol) (new : GlobalSymbol) : Option (List GlobalSymbol × Nat) :=
  match linker_find_symbol symbols new.name with
  | some idx =>
    match symbols[idx]? with
    | none => none
    | some existing =>
      if new.defined = true then
        if existing.defined = true ∧ new.bind = STB_GLOBAL ∧ existing.bind = STB_GLOBAL then none
        else if existing.defined = false ∨ existing.bind = STB_WEAK then
          some (symbols.set idx { new with name := existing.name },idx)
        else some (symbols,idx)
      else some (symbols,idx)
  | none =>
    if symbols.length ≥ MAX_SYMBOLS then none
    else some (symbols ++ [{ new with name := new.name.take 127 }],symbols.length)

def decimal (n : Nat) : List UInt8 := (Nat.toDigits 10 n).map fun c => UInt8.ofNat c.toNat

/-- "__sec_%d_%d_%s" -/
def section_name (obj_idx shndx : Nat) (name : List UInt8) : List UInt8 :=
  [0x5F,0x5F,0x73,0x65,0x63,0x5F] ++ decimal obj_idx ++ [0x5F] ++ decimal shndx ++ [0x5F] ++ name

/-- "__local_%d_%d_%s" -/
def local_name (obj_idx j : Nat) (name : List UInt8) : List UInt8 :=
  [0x5F,0x5F,0x6C,0x6F,0x63,0x61,0x6C,0x5F] ++ decimal obj_idx ++ [0x5F] ++ decimal j ++ [0x5F] ++ name

/-! ### Reading an object -/

/-- The input section of every section, from an index on. -/
def map_sections : Nat → List Header → List (Option Nat)
  | _,[] => []
  | isec,h :: headers =>
    match input_section h with
    | none => none :: map_sections isec headers
    | some _ => some isec :: map_sections (isec + 1) headers

/-- The input section at an index of the object. -/
def mapped (sec_map : List (Option Nat)) (shndx : Nat) : Option Nat := (sec_map[shndx]?).join

/-- What is known of the object whose symbols are read. -/
structure Context where
  obj_idx : Nat
  sec_map : List (Option Nat)
  sections : List Section

/-- The name of a symbol; a section without a name of its own is called after its section, if that is loaded. -/
def symbol_name (c : Context) (sym : ElfSym) : Option (List UInt8) :=
  if sym.stype = STT_SECTION then do
    let isec ← mapped c.sec_map sym.shndx
    let sec ← c.sections[isec]?
    return section_name c.obj_idx sym.shndx sec.name
  else some sym.name

def record (c : Context) (sym : ElfSym) (name : List UInt8) : GlobalSymbol where
  name := name
  value := sym.value.toNat
  defined := sym.shndx ≠ SHN_UNDEF
  obj_idx := some c.obj_idx
  sec_idx := if sym.shndx ≠ SHN_UNDEF ∧ sym.shndx ≠ SHN_ABS then mapped c.sec_map sym.shndx else none
  bind := sym.bind
  type := sym.stype
  origin := some sym

/-- The table afterwards and the index of the symbol, if it gets one. The name of a local symbol is written into 192 bytes. -/
def parse_symbol (c : Context) (j : Nat) (sym : ElfSym) (symbols : List GlobalSymbol) :
    Option (List GlobalSymbol × Option Nat) :=
  if j = 0 ∨ sym.stype = STT_FILE then some (symbols,none)
  else
    match symbol_name c sym with
    | none => some (symbols,none)
    | some symname =>
      if symname = [] then some (symbols,none)
      else if sym.bind = STB_LOCAL then
        if sym.shndx = SHN_UNDEF then some (symbols,none)
        else if 192 ≤ (local_name c.obj_idx j symname).length then none
        else (linker_add_symbol symbols (record c sym (local_name c.obj_idx j symname))).map fun p => (p.1,some p.2)
      else (linker_add_symbol symbols (record c sym symname)).map fun p => (p.1,some p.2)

/-- The loop over the symbols from an index on, with `sym_map`. -/
def parse_table (c : Context) : Nat → List ElfSym → List GlobalSymbol → Option (List GlobalSymbol × List (Option Nat))
  | _,[],symbols => some (symbols,[])
  | j,sym :: rest,symbols =>
    match parse_symbol c j sym symbols with
    | none => none
    | some (symbols,gidx) => (parse_table c (j + 1) rest symbols).map fun p => (p.1,gidx :: p.2)

/-- Every table sets `sym_map` anew. -/
def parse_tables (c : Context) : List (List ElfSym) → List (Option Nat) → List GlobalSymbol →
    Option (List GlobalSymbol × List (Option Nat))
  | [],sym_map,symbols => some (symbols,sym_map)
  | table :: tables,_,symbols =>
    match parse_table c 0 table symbols with
    | none => none
    | some (symbols,sym_map) => parse_tables c tables sym_map symbols

/-- The loop over the relocations of an input section. Without an index for their symbol they are skipped. -/
def parse_entries (isec : Nat) (rela : Bool) (sym_map : List (Option Nat)) : List ElfRel → List Reloc → Option (List Reloc)
  | [],relocs => some relocs
  | e :: rest,relocs =>
    if relocs.length ≥ MAX_RELOCS then none
    else
      match (sym_map[e.sym]?).join with
      | none => parse_entries isec rela sym_map rest relocs
      | some gsym => parse_entries isec rela sym_map rest (relocs ++ [{
          isec_idx := isec, offset := e.offset.toNat, type := e.type, sym_idx := gsym
          addend := if rela then e.addend else 0, has_addend := rela }])

def parse_rels (sec_map sym_map : List (Option Nat)) : List RelSection → List Reloc → Option (List Reloc)
  | [],relocs => some relocs
  | s :: rest,relocs =>
    match mapped sec_map s.info with
    | none => parse_rels sec_map sym_map rest relocs
    | some isec =>
      match parse_entries isec s.rela sym_map s.entries relocs with
      | none => none
      | some relocs => parse_rels sec_map sym_map rest relocs

/-- What was read, with the `sec_map` of every object. -/
structure Parsed where
  sections : List Section
  symbols : List GlobalSymbol
  relocs : List Reloc
  sec_maps : List (List (Option Nat))

def parse_elf_object (st : Parsed) (o : Object) : Option Parsed :=
  let sections := st.sections ++ o.headers.filterMap input_section
  let c : Context := ⟨st.sec_maps.length,map_sections st.sections.length o.headers,sections⟩
  if sections.length > MAX_SECTIONS then none
  else
    match parse_tables c o.tables [] st.symbols with
    | none => none
    | some (symbols,sym_map) =>
      (parse_rels c.sec_map sym_map o.rels st.relocs).map fun relocs => ⟨sections,symbols,relocs,st.sec_maps ++ [c.sec_map]⟩

/-- An object, or the name that linker_resolve_libraries looks for. -/
inductive Input where
  | object (o : Object)
  | entry (name : List UInt8)

def link_input (st : Parsed) : Input → Option Parsed
  | .object o => if st.sec_maps.length ≥ MAX_INPUT_FILES then none else parse_elf_object st o
  | .entry name =>
    if name = [] ∨ (linker_find_symbol st.symbols name).isSome then some st
    else
      (linker_add_symbol st.symbols ⟨name,0,false,none,none,STB_GLOBAL,STT_NOTYPE,none⟩).map fun p => { st with symbols := p.1 }

def link_inputs : List Input → Parsed → Option Parsed
  | [],st => some st
  | input :: rest,st => (link_input st input).bind (link_inputs rest)

def empty : Parsed := ⟨[],[],[],[]⟩

def symbol_of (sym : GlobalSymbol) : Symbol := ⟨sym.name,sym.value,sym.defined,sym.sec_idx⟩

/-- The state that is laid out. -/
def Parsed.state (st : Parsed) (load_addr : Nat) (entry_name : List UInt8) : State :=
  ⟨st.sections,st.symbols.map symbol_of,st.relocs,load_addr,entry_name⟩

/-! ### What the records hold -/

/-- The input section of the definition, if it has one. -/
def section_of (sec_map : List (Option Nat)) (e : ElfSym) : Option Nat :=
  if e.shndx ≠ SHN_UNDEF ∧ e.shndx ≠ SHN_ABS then mapped sec_map e.shndx else none

/-- A record has a name, and one that is defined agrees with the symbol that it was filled from. -/
structure Filled (sec_maps : List (List (Option Nat))) (count : Nat) (rec : GlobalSymbol) : Prop where
  named : rec.name ≠ []
  definition : rec.defined = true → ∃ e k m, rec.origin = some e ∧ rec.obj_idx = some k ∧ sec_maps[k]? = some m ∧
    e.shndx ≠ SHN_UNDEF ∧ rec.value = e.value.toNat ∧ rec.sec_idx = section_of m e
  index : ∀ i, rec.sec_idx = some i → i < count

variable {sec_maps : List (List (Option Nat))} {count i isec x addr type : Nat} {rec : GlobalSymbol}
  {sec_map sym_map : List (Option Nat)} {relocs relocs' : List Reloc} {sec : Section}

theorem filled_mono {more : List (List (Option Nat))} {count' : Nat} (le : count ≤ count')
    (filled : Filled sec_maps count rec) : Filled (sec_maps ++ more) count' rec := by
  refine ⟨filled.named,fun defined => ?_,fun i same => (filled.index i same).trans_le le⟩
  obtain ⟨e,k,m,origin,obj,map,rest⟩ := filled.definition defined
  exact ⟨e,k,m,origin,obj,List.getElem?_append_left (List.getElem?_eq_some_iff.1 map).1 ▸ map,rest⟩

theorem filled_name {name : List UInt8} (named : name ≠ [])
    (filled : Filled sec_maps count rec) : Filled sec_maps count { rec with name := name } :=
  ⟨named,filled.definition,filled.index⟩

theorem mapped_mem {shndx : Nat} (found : mapped sec_map shndx = some i) : some i ∈ sec_map :=
  List.mem_of_getElem? (Option.join_eq_some_iff.1 found)

theorem map_sections_lt {headers : List Header} (member : some i ∈ map_sections isec headers) :
    i < isec + (headers.filterMap input_section).length := by
  induction headers generalizing isec with
  | nil => cases member
  | cons h headers ih =>
    rw [map_sections] at member
    cases loaded : input_section h with
    | none =>
      rw [loaded] at member
      rw [List.filterMap_cons_none loaded]
      exact ih ((List.mem_cons.1 member).resolve_left (by simp))
    | some sec =>
      rw [loaded] at member
      rw [List.filterMap_cons_some loaded,List.length_cons]
      rcases List.mem_cons.1 member with here | later
      · cases here
        omega
      · have less := ih later
        omega

section
variable {c : Context} {sec_maps : List (List (Option Nat))} {count : Nat}

theorem record_filled (known : sec_maps[c.obj_idx]? = some c.sec_map) (small : ∀ i, some i ∈ c.sec_map → i < count) (sym : ElfSym)
    {name : List UInt8} (named : name ≠ []) : Filled sec_maps count (record c sym name) := by
  refine ⟨named,fun defined => ⟨sym,c.obj_idx,c.sec_map,rfl,rfl,known,of_decide_eq_true defined,rfl,rfl⟩,fun i same => ?_⟩
  by_cases inside : sym.shndx ≠ SHN_UNDEF ∧ sym.shndx ≠ SHN_ABS
  · exact small i (mapped_mem ((if_pos inside).symm.trans same))
  · cases (if_neg inside).symm.trans same

/-- The records stay filled, none is lost, and the index is one of the table. -/
theorem add_symbol_filled {symbols symbols' : List GlobalSymbol} {new : GlobalSymbol} {idx : Nat}
    (all : ∀ rec ∈ symbols, Filled sec_maps count rec) (filled : Filled sec_maps count new)
    (done : linker_add_symbol symbols new = some (symbols',idx)) :
    (∀ rec ∈ symbols', Filled sec_maps count rec) ∧ symbols.length ≤ symbols'.length ∧ idx < symbols'.length := by
  rw [linker_add_symbol] at done
  cases found : linker_find_symbol symbols new.name with
  | none =>
    rw [found] at done
    dsimp only at done
    by_cases full : symbols.length ≥ MAX_SYMBOLS
    · rw [if_pos full] at done
      cases done
    · rw [if_neg full] at done
      cases done
      refine ⟨fun rec member => ?_,by simp,by simp⟩
      rcases List.mem_append.1 member with old | last
      · exact all rec old
      · rw [List.mem_singleton.1 last]
        exact filled_name (by simpa using filled.named) filled
  | some i =>
    rw [found] at done
    dsimp only at done
    cases here : symbols[i]? with
    | none =>
      rw [here] at done
      cases done
    | some existing =>
      rw [here] at done
      obtain ⟨inside,_⟩ := List.getElem?_eq_some_iff.1 here
      dsimp only at done
      split_ifs at done
      · cases done
        refine ⟨fun rec member => ?_,by simp,by simpa using inside⟩
        rcases List.mem_or_eq_of_mem_set member with old | changed
        · exact all rec old
        · rw [changed]
          exact filled_name (all existing (List.mem_of_getElem? here)).named filled
      · cases done
        exact ⟨all,le_rfl,inside⟩
      · cases done
        exact ⟨all,le_rfl,inside⟩

/-- A table of filled records that has lost none, with indices of records. -/
structure Grown (sec_maps : List (List (Option Nat))) (count : Nat) (symbols symbols' : List GlobalSymbol) (indices : Nat → Prop) : Prop where
  filled : ∀ rec ∈ symbols', Filled sec_maps count rec
  grows : symbols.length ≤ symbols'.length
  inside : ∀ i, indices i → i < symbols'.length

section
variable (known : sec_maps[c.obj_idx]? = some c.sec_map) (small : ∀ i, some i ∈ c.sec_map → i < count)
include known small

theorem parse_symbol_filled {j : Nat}
    {sym : ElfSym} {symbols symbols' : List GlobalSymbol} {gidx : Option Nat} (all : ∀ rec ∈ symbols, Filled sec_maps count rec)
    (done : parse_symbol c j sym symbols = some (symbols',gidx)) : Grown sec_maps count symbols symbols' (gidx = some ·) := by
  have skipped : (symbols,(none : Option Nat)) = (symbols',gidx) → Grown sec_maps count symbols symbols' (gidx = some ·) := by
    intro same
    cases same
    exact ⟨all,le_rfl,fun i none => by cases none⟩
  have added : ∀ name, name ≠ [] → (linker_add_symbol symbols (record c sym name)).map (fun p => (p.1,some p.2)) = some (symbols',gidx) →
      Grown sec_maps count symbols symbols' (gidx = some ·) := by
    intro name named same
    obtain ⟨⟨table,idx⟩,found,last⟩ := map_eq_some_iff.1 same
    cases last
    obtain ⟨filled,grows,inside⟩ := add_symbol_filled all (record_filled known small sym named) found
    exact ⟨filled,grows,fun i last => some.inj last ▸ inside⟩
  rw [parse_symbol] at done
  split at done
  · exact skipped (some.inj done)
  · split at done
    · exact skipped (some.inj done)
    · split_ifs at done
      · exact skipped (some.inj done)
      · exact skipped (some.inj done)
      · exact added _ (by simp [local_name]) done
      · exact added _ (by assumption) done

theorem parse_table_filled {j : Nat}
    {table : List ElfSym} {symbols symbols' : List GlobalSymbol} {sym_map : List (Option Nat)}
    (all : ∀ rec ∈ symbols, Filled sec_maps count rec) (done : parse_table c j table symbols = some (symbols',sym_map)) :
    Grown sec_maps count symbols symbols' (some · ∈ sym_map) := by
  induction table generalizing j symbols sym_map with
  | nil =>
    cases done
    exact ⟨all,le_rfl,fun i member => by cases member⟩
  | cons sym rest ih =>
    rw [parse_table] at done
    cases first : parse_symbol c j sym symbols with
    | none =>
      rw [first] at done
      cases done
    | some p =>
      rw [first] at done
      obtain ⟨⟨table,map⟩,later,last⟩ := map_eq_some_iff.1 done
      cases last
      obtain ⟨filled,grows,inside⟩ := @parse_symbol_filled c sec_maps count known small j sym symbols p.1 p.2 all first
      obtain ⟨filled',grows',inside'⟩ := ih filled later
      refine ⟨filled',grows.trans grows',fun i member => ?_⟩
      rcases List.mem_cons.1 member with here | there
      · exact (inside i here.symm).trans_le grows'
      · exact inside' i there

theorem parse_tables_filled {tables : List (List ElfSym)} {symbols symbols' : List GlobalSymbol} {before sym_map : List (Option Nat)}
    (all : ∀ rec ∈ symbols, Filled sec_maps count rec) (old : ∀ i, some i ∈ before → i < symbols.length)
    (done : parse_tables c tables before symbols = some (symbols',sym_map)) :
    Grown sec_maps count symbols symbols' (some · ∈ sym_map) := by
  induction tables generalizing before symbols with
  | nil =>
    cases done
    exact ⟨all,le_rfl,old⟩
  | cons table tables ih =>
    rw [parse_tables] at done
    cases first : parse_table c 0 table symbols with
    | none =>
      rw [first] at done
      cases done
    | some p =>
      rw [first] at done
      obtain ⟨filled,grows,inside⟩ := @parse_table_filled c sec_maps count known small 0 table symbols p.1 p.2 all first
      obtain ⟨filled',grows',inside'⟩ := ih filled inside done
      exact ⟨filled',grows.trans grows',inside'⟩

end

end

/-- The relocation names a section and a symbol. -/
def Names (sections symbols : Nat) (r : Reloc) : Prop := r.isec_idx < sections ∧ r.sym_idx < symbols

theorem parse_entries_names {sections symbols : Nat} {rela : Bool} {entries : List ElfRel}
    (place : isec < sections) (small : ∀ i, some i ∈ sym_map → i < symbols)
    (all : ∀ r ∈ relocs, Names sections symbols r) (done : parse_entries isec rela sym_map entries relocs = some relocs') :
    ∀ r ∈ relocs', Names sections symbols r := by
  induction entries generalizing relocs with
  | nil =>
    cases done
    exact all
  | cons e rest ih =>
    rw [parse_entries] at done
    by_cases full : relocs.length ≥ MAX_RELOCS
    · rw [if_pos full] at done
      cases done
    · rw [if_neg full] at done
      cases found : (sym_map[e.sym]?).join with
      | none =>
        rw [found] at done
        exact ih all done
      | some gsym =>
        rw [found] at done
        refine ih (fun r member => ?_) done
        rcases List.mem_append.1 member with old | last
        · exact all r old
        · rw [List.mem_singleton.1 last]
          exact ⟨place,small gsym (List.mem_of_getElem? (Option.join_eq_some_iff.1 found))⟩

theorem parse_rels_names {sections symbols : Nat} {rels : List RelSection}
    (places : ∀ i, some i ∈ sec_map → i < sections) (small : ∀ i, some i ∈ sym_map → i < symbols)
    (all : ∀ r ∈ relocs, Names sections symbols r) (done : parse_rels sec_map sym_map rels relocs = some relocs') :
    ∀ r ∈ relocs', Names sections symbols r := by
  induction rels generalizing relocs with
  | nil =>
    cases done
    exact all
  | cons s rest ih =>
    rw [parse_rels] at done
    cases found : mapped sec_map s.info with
    | none =>
      rw [found] at done
      exact ih all done
    | some isec =>
      rw [found] at done
      dsimp only at done
      cases first : parse_entries isec s.rela sym_map s.entries relocs with
      | none =>
        rw [first] at done
        cases done
      | some relocs' =>
        rw [first] at done
        exact ih (parse_entries_names (places isec (mapped_mem found)) small all first) done

theorem input_section_small {h : Header} (made : input_section h = some sec) : sec.size < 2 ^ 32 := by
  rw [input_section] at made
  split at made
  · cases made
  · split at made
    · cases made
    · obtain ⟨group,_,last⟩ := map_eq_some_iff.1 made
      rw [← last]
      exact h.size.isLt

/-- What holds whenever an input has been read. -/
structure Sound (st : Parsed) : Prop where
  sizes : ∀ sec ∈ st.sections, sec.size < 2 ^ 32 ∧ ∀ d, sec.data = some d → d.length = sec.size
  symbols : ∀ rec ∈ st.symbols, Filled st.sec_maps st.sections.length rec
  relocs : ∀ r ∈ st.relocs, Names st.sections.length st.symbols.length r

variable {st st' : Parsed}

theorem parse_elf_object_sound {o : Object} (sound : Sound st) (done : parse_elf_object st o = some st') :
    Sound st' := by
  rw [parse_elf_object] at done
  dsimp only at done
  split_ifs at done
  have grown : st.sections.length ≤ (st.sections ++ o.headers.filterMap input_section).length := by simp
  have small : ∀ i, some i ∈ map_sections st.sections.length o.headers →
      i < (st.sections ++ o.headers.filterMap input_section).length := by
    intro i member
    rw [List.length_append]
    exact map_sections_lt member
  cases tables : parse_tables ⟨st.sec_maps.length,map_sections st.sections.length o.headers,
      st.sections ++ o.headers.filterMap input_section⟩ o.tables [] st.symbols with
  | none =>
    rw [tables] at done
    cases done
  | some p =>
    rw [tables] at done
    obtain ⟨relocs,rels,last⟩ := map_eq_some_iff.1 done
    have known : (st.sec_maps ++ [map_sections st.sections.length o.headers])[st.sec_maps.length]? =
        some (map_sections st.sections.length o.headers) := by simp
    obtain ⟨filled,grows,inside⟩ := @parse_tables_filled ⟨_,_,_⟩ _ _ known small _ _ p.1 _ p.2
      (fun rec member => filled_mono grown (sound.symbols rec member)) (fun i member => by cases member) tables
    have old : ∀ r ∈ st.relocs, Names (st.sections ++ o.headers.filterMap input_section).length p.1.length r := by
      intro r member
      obtain ⟨place,symbol⟩ := sound.relocs r member
      exact ⟨place.trans_le grown,symbol.trans_le grows⟩
    rw [← last]
    refine ⟨fun sec member => ?_,filled,parse_rels_names small inside old rels⟩
    rcases List.mem_append.1 member with before | new
    · exact sound.sizes sec before
    · obtain ⟨h,_,made⟩ := List.mem_filterMap.1 new
      exact ⟨input_section_small made,fun d data => ((LinkerSegments.input_section_sane made).exact d data).1⟩

theorem link_input_sound {input : Input} (sound : Sound st) (done : link_input st input = some st') : Sound st' := by
  cases input with
  | object o =>
    rw [link_input] at done
    split_ifs at done
    exact parse_elf_object_sound sound done
  | entry name =>
    rw [link_input] at done
    split_ifs at done
    · cases done
      exact sound
    · obtain ⟨⟨symbols,idx⟩,added,last⟩ := map_eq_some_iff.1 done
      have undefined : Filled st.sec_maps st.sections.length ⟨name,0,false,none,none,STB_GLOBAL,STT_NOTYPE,none⟩ :=
        ⟨fun none => ‹¬ (_ ∨ _)› (.inl none),fun defined => absurd defined (by simp),fun i same => absurd same (by simp)⟩
      obtain ⟨filled,grows,_⟩ := add_symbol_filled sound.symbols undefined added
      rw [← last]
      refine ⟨sound.sizes,filled,fun r member => ?_⟩
      exact ⟨(sound.relocs r member).1,(sound.relocs r member).2.trans_le grows⟩

theorem link_inputs_sound {inputs : List Input} (sound : Sound st) (done : link_inputs inputs st = some st') :
    Sound st' := by
  induction inputs generalizing st with
  | nil =>
    cases done
    exact sound
  | cons input rest ih =>
    obtain ⟨next,first,later⟩ := Option.bind_eq_some_iff.1 done
    exact ih (link_input_sound sound first) later

theorem empty_sound : Sound empty :=
  ⟨by simp [empty],by simp [empty],by simp [empty]⟩

/-! ### The words of a section -/

theorem load32_lt (m : Bytes) (a : Nat) : load32 m a < 2 ^ 32 := by
  have b0 := (m a).toNat_lt
  have b1 := (m (a + 1)).toNat_lt
  have b2 := (m (a + 2)).toNat_lt
  have b3 := (m (a + 3)).toNat_lt
  unfold load32
  omega

theorem getD_patch {data : List UInt8} {offset : Nat} (v : Nat) (inside : x < data.length) :
    (patch data offset v).getD x 0 = store32 (fun i => data.getD i 0) offset v x := by
  simp [patch,List.getD_eq_getElem?_getD,inside]

theorem word_patch {data : List UInt8} {offset v : Nat} (inside : offset + 4 ≤ data.length) (word : v < 2 ^ 32) :
    word_at (patch data offset v) offset = v := by
  refine Eq.trans (load32_agree ?_) (load32_store32 (fun i => data.getD i 0) offset word)
  intro x low high
  exact getD_patch v (by omega)

theorem patch_rest {data : List UInt8} {offset : Nat} (v : Nat) (outside : x < offset ∨ offset + 4 ≤ x) :
    (patch data offset v)[x]? = data[x]? := by
  have other : ¬ (offset ≤ x ∧ x < offset + 4) := by omega
  by_cases inside : x < data.length
  · simp [patch,store32,other,inside]
  · rw [List.getElem?_eq_none (by simpa [patch] using inside),List.getElem?_eq_none (by simpa using inside)]

theorem store32_load32 (m : Bytes) (a : Nat) : store32 m a (load32 m a) = m := by
  funext x
  by_cases inside : a ≤ x ∧ x < a + 4
  · have b0 := (m a).toNat_lt
    have b1 := (m (a + 1)).toNat_lt
    have b2 := (m (a + 2)).toNat_lt
    have b3 := (m (a + 3)).toNat_lt
    have which : x = a ∨ x = a + 1 ∨ x = a + 2 ∨ x = a + 3 := by omega
    rw [store32,if_pos inside]
    apply UInt8.toNat_inj.1
    rw [UInt8.toNat_ofNat']
    unfold load32
    rcases which with rfl | rfl | rfl | rfl
    · simp only [Nat.sub_self]
      omega
    · simp only [Nat.add_sub_cancel_left]
      omega
    · simp only [Nat.add_sub_cancel_left]
      omega
    · simp only [Nat.add_sub_cancel_left]
      omega
  · exact if_neg inside

/-- Writing a word over itself changes nothing. -/
theorem patch_same (data : List UInt8) (offset : Nat) : patch data offset (word_at data offset) = data := by
  refine List.ext_getElem (by simp [patch]) fun x _ inside => ?_
  simp only [patch,word_at,store32_load32]
  simp [List.getD_eq_getElem?_getD,inside]

/-! ### Relocations -/

def SHN_LORESERVE : Nat := 0xFF00

/-- The symbol has an address: it is absolute, or it lies in a section that is loaded. -/
def Addressable (rec : GlobalSymbol) : Prop :=
  ∃ e, rec.origin = some e ∧ (e.shndx = SHN_ABS ∨ e.shndx < SHN_LORESERVE ∧ rec.sec_idx.isSome)

/-- The final address of a symbol, once the sections are placed: that of its section and its value, or its value alone. The
    reserved indices behind `SHN_LORESERVE`, such as the one of a COMMON symbol, name no section. -/
def final_address (st : Parsed) (placed : List Section) (rec : GlobalSymbol) : Option Word :=
  rec.origin.bind fun e =>
    if e.shndx = SHN_ABS then some e.value
    else if e.shndx < SHN_LORESERVE then
      rec.obj_idx.bind fun k => st.sec_maps[k]?.bind fun sec_map => (mapped sec_map e.shndx).bind fun isec =>
        placed[isec]?.map fun sec => e.value + BitVec.ofNat 32 sec.out_vaddr
    else none

/-- S + A, less P for the relative types. -/
def wanted (type : Nat) (S A P : Word) : Word := if type = R_386_32 then S + A else S + A - P

/-- The four bytes at the offset are those of a word, and the others are as before. -/
structure Patched (data data' : List UInt8) (offset : Nat) (v : Word) : Prop where
  inside : offset + 4 ≤ data.length
  length : data'.length = data.length
  word : word_at data' offset = v.toNat
  rest : ∀ x, x < offset ∨ offset + 4 ≤ x → data'[x]? = data[x]?

/-- The relocation fails, or it patches its word and nothing else. Other types than the three known ones patch nothing. -/
def Relocates (st : Parsed) (placed sections : List Section) (r : Reloc) (rec : GlobalSymbol) : Outcome (List Section) → Prop
  | .failed => True
  | .outside => False
  | .ok sections' =>
    if patches r.type = true then
      ∃ sec data data' S, sections[r.isec_idx]? = some sec ∧ sec.data = some data ∧ final_address st placed rec = some S ∧
        Patched data data' r.offset (wanted r.type S (if r.has_addend then r.addend else BitVec.ofNat 32 (word_at data r.offset))
          (BitVec.ofNat 32 (sec.out_vaddr + r.offset))) ∧
        sections' = sections.set r.isec_idx { sec with data := some data' }
    else sections' = sections

/-- The relocation is refused, or it patches nothing and reads its word inside of its section, or it patches a word inside of its
    section with the address of a symbol that has one. -/
def Careful (r : Reloc) (rec : GlobalSymbol) (sec : Section) : Prop :=
  rec.defined = false ∨ sec.data = none ∨ sec.size < wrap (r.offset + 4) ∨
    patches r.type = false ∧ (r.has_addend = true ∨ r.offset + 4 ≤ sec.size) ∨
    patches r.type = true ∧ r.offset + 4 < 2 ^ 32 ∧ Addressable rec

/-! ### Layout -/

section
variable {α : Type} (f : Section → α) (keeps : ∀ sec v, f { sec with out_vaddr := v, out_offset := 0 } = f sec)
include keeps

theorem place_keeps {group : Nat} {sections : List Section} : (place group addr sections).2.map f = sections.map f := by
  induction sections generalizing addr with
  | nil => rfl
  | cons sec rest ih =>
    rw [place]
    by_cases other : sec.out_group ≠ group
    · rw [if_pos other]
      simp [ih]
    · rw [if_neg other]
      simp [ih,keeps]

theorem place_groups_keeps {groups : List Nat} {sections : List Section} : (place_groups groups addr sections).map f = sections.map f := by
  induction groups generalizing addr sections with
  | nil => rfl
  | cons group groups ih => rw [place_groups,ih,place_keeps f keeps]

end

/-- What the layout leaves alone of a section. -/
def contents (sec : Section) : Nat × Option (List UInt8) := (sec.size,sec.data)

theorem layout_contents (s : State) : (linker_layout s).sections.map contents = s.sections.map contents :=
  place_groups_keeps contents fun _ _ => rfl

/-- In every section that is relocated the bytes are as many as its size. -/
theorem relocated_sizes (sound : Sound st) {load_addr : Nat} {entry_name : List UInt8} {symbols : List Symbol}
    {before : List Reloc} {sections : List Section}
    (so_far : relocate_all symbols before (linker_layout (st.state load_addr entry_name)).sections = .ok sections) :
    sections.length = st.sections.length ∧
      ∀ sec ∈ sections, sec.size < 2 ^ 32 ∧ ∀ d, sec.data = some d → d.length = sec.size := by
  have same := LinkerLoad.relocate_all_outline so_far
  have kept : (linker_layout (st.state load_addr entry_name)).sections.map contents = st.sections.map contents := layout_contents _
  have lengths := congrArg List.length same
  have kept_lengths := congrArg List.length kept
  rw [List.length_map,List.length_map] at lengths kept_lengths
  refine ⟨lengths.trans kept_lengths,fun sec member => ?_⟩
  obtain ⟨placed,placed_member,outlined⟩ := List.mem_map.1 (same ▸ List.mem_map_of_mem member)
  obtain ⟨old,old_member,unchanged⟩ := List.mem_map.1 (kept ▸ List.mem_map_of_mem placed_member)
  obtain ⟨small,exact_⟩ := sound.sizes old old_member
  simp only [outline,Prod.mk.injEq] at outlined
  simp only [contents,Prod.mk.injEq] at unchanged
  obtain ⟨_,_,size,_,_,data⟩ := outlined
  refine ⟨by omega,fun d here => ?_⟩
  rw [here] at data
  obtain ⟨d',there,length⟩ := map_eq_some_iff.1 data
  have old_length := exact_ d' (unchanged.2.trans there)
  omega

section
variable {st : Parsed} {placed : List Section} {rec : GlobalSymbol}

/-- A symbol has a final address exactly when it is addressable, and the layout computes it. -/
theorem final_address_spec (filled : Filled st.sec_maps placed.length rec) (defined : rec.defined = true) :
    (Addressable rec ↔ (final_address st placed rec).isSome) ∧
      ∀ S, final_address st placed rec = some S → (place_symbol placed (symbol_of rec)).value = S.toNat := by
  obtain ⟨e,k,m,origin,obj,map,other,value,section_⟩ := filled.definition defined
  have address : final_address st placed rec = if e.shndx = SHN_ABS then some e.value else if e.shndx < SHN_LORESERVE then
      (mapped m e.shndx).bind fun isec => placed[isec]?.map fun sec => e.value + BitVec.ofNat 32 sec.out_vaddr else none := by
    simp [final_address,origin,obj,map]
  have placed_value : (place_symbol placed (symbol_of rec)).value =
      ((rec.sec_idx.bind fun i => placed[i]?).map fun sec => wrap (rec.value + sec.out_vaddr)).getD rec.value := by
    rw [place_symbol,if_pos (show (symbol_of rec).defined = true from defined)]
    cases found : rec.sec_idx.bind fun i => placed[i]? with
    | none => simp only [symbol_of,found,Option.map_none,Option.getD_none]
    | some sec => simp only [symbol_of,found,Option.map_some,Option.getD_some]
  have addressable : Addressable rec ↔ e.shndx = SHN_ABS ∨ e.shndx < SHN_LORESERVE ∧ rec.sec_idx.isSome := by
    simp [Addressable,origin]
  rw [addressable,address,placed_value]
  by_cases absolute : e.shndx = SHN_ABS
  · have none : rec.sec_idx = none := section_.trans (if_neg fun both => both.2 absolute)
    rw [if_pos absolute,none]
    simp [absolute,value]
  · have own : rec.sec_idx = mapped m e.shndx := section_.trans (if_pos ⟨other,absolute⟩)
    rw [if_neg absolute,← own]
    by_cases reserved : e.shndx < SHN_LORESERVE
    · rw [if_pos reserved]
      cases index : rec.sec_idx with
      | none => simp [absolute]
      | some isec =>
        have inside := filled.index isec index
        simp [reserved,inside,value,wrap]
    · rw [if_neg reserved]
      simp [absolute,reserved]

end

/-! ### One relocation -/

/-- The patched word is the wanted one. -/
theorem relocated_wanted {type value addend place old : Nat} {S A P : Word} (known : patches type = true)
    (address : value = S.toNat) (add : addend = A.toNat) (here : place = P.toNat) :
    relocated type value addend place old = some (wanted type S A P).toNat := by
  subst address add here
  by_cases absolute : type = R_386_32
  · rw [relocated,if_pos absolute,wanted,if_pos absolute]
    simp [wrap]
  · have relative : type = R_386_PC32 ∨ type = R_386_PLT32 := by
      simpa [patches,absolute] using known
    rw [relocated,if_neg absolute,if_pos relative,wanted,if_neg absolute,BitVec.toNat_sub,BitVec.toNat_add]
    have small := P.isLt
    congr 1
    unfold wrap
    omega

theorem relocated_known (value addend place old : Nat) (known : patches type = true) :
    ∃ v, relocated type value addend place old = some v := by
  by_cases absolute : type = R_386_32
  · exact ⟨_,if_pos absolute⟩
  · have relative : type = R_386_PC32 ∨ type = R_386_PLT32 := by
      simpa [patches,absolute] using known
    exact ⟨_,by rw [relocated,if_neg absolute,if_pos relative]⟩

/-- The other types change no byte. -/
theorem relocated_other {value addend place old v : Nat} (other : patches type = false)
    (done : relocated type value addend place old = some v) : v = old := by
  simp only [patches,Bool.or_eq_false_iff,decide_eq_false_iff_not] at other
  obtain ⟨⟨absolute,relative⟩,plt⟩ := other
  rw [relocated,if_neg absolute,if_neg (by tauto)] at done
  split_ifs at done
  exact (some.inj done).symm

/-- What becomes of a relocation that passes the checks of its symbol and its offset. -/
theorem relocate_section_spec {sym : Symbol} {r : Reloc} {data : List UInt8} (defined : sym.defined = true)
    (bytes : sec.data = some data) (checked : ¬ wrap (r.offset + 4) > sec.size) :
    relocate_section sym r sec =
      if r.offset + 4 > sec.size ∧ (r.has_addend = false ∨ patches r.type = true) then .outside
      else
        match relocated r.type sym.value (if r.has_addend then r.addend.toNat else word_at data r.offset)
          (wrap (sec.out_vaddr + r.offset)) (word_at data r.offset) with
        | some v => .ok { sec with data := some (patch data r.offset v) }
        | none => .failed := by
  rw [relocate_section,bytes,if_neg (by simp [defined])]
  dsimp only
  exact if_neg checked

section
variable {st : Parsed} {placed sections : List Section} {symbols : List Symbol} {r : Reloc} {rec : GlobalSymbol} {sec : Section}

theorem placed_symbol_defined : (place_symbol placed (symbol_of rec)).defined = rec.defined := by
  rw [place_symbol]
  split
  · split <;> rfl
  · rfl

theorem placed_defined (defined : rec.defined = true) : (place_symbol placed (symbol_of rec)).defined = true :=
  placed_symbol_defined.trans defined

/-- A relocation that passes the checks of its symbol and its offset, and patches a word. -/
theorem relocate_patches {data : List UInt8} (filled : Filled st.sec_maps placed.length rec) (here : sections[r.isec_idx]? = some sec)
    (symbol : symbols[r.sym_idx]? = some (place_symbol placed (symbol_of rec))) (small : sec.size < 2 ^ 32)
    (defined : rec.defined = true) (bytes : sec.data = some data) (exact_ : data.length = sec.size)
    (checked : ¬ wrap (r.offset + 4) > sec.size) (known : patches r.type = true) :
    Relocates st placed sections r rec (relocate symbols sections r) ↔ r.offset + 4 < 2 ^ 32 ∧ Addressable rec := by
  obtain ⟨addressable,computed⟩ := final_address_spec filled defined
  rw [relocate,here,symbol]
  dsimp only
  rw [relocate_section_spec (placed_defined defined) bytes checked]
  by_cases far : r.offset + 4 > sec.size
  · rw [if_pos ⟨far,.inr known⟩]
    refine ⟨False.elim,fun both => checked ?_⟩
    rw [wrap_of_lt both.1]
    exact far
  · rw [if_neg fun both => far both.1,addressable]
    have near : r.offset + 4 < 2 ^ 32 := by omega
    obtain ⟨v,word⟩ := relocated_known (place_symbol placed (symbol_of rec)).value
      (if r.has_addend then r.addend.toNat else word_at data r.offset) (wrap (sec.out_vaddr + r.offset))
      (word_at data r.offset) known
    rw [word]
    dsimp only
    rw [Relocates,if_pos known]
    constructor
    · rintro ⟨_,_,_,S,_,_,some,_⟩
      exact ⟨near,by rw [some]; rfl⟩
    · rintro ⟨_,some⟩
      obtain ⟨S,address⟩ := Option.isSome_iff_exists.1 some
      have old : word_at data r.offset < 2 ^ 32 := load32_lt _ _
      have right := @relocated_wanted r.type _ (if r.has_addend then r.addend.toNat else word_at data r.offset)
        (wrap (sec.out_vaddr + r.offset)) (word_at data r.offset) S
        (if r.has_addend then r.addend else BitVec.ofNat 32 (word_at data r.offset))
        (BitVec.ofNat 32 (sec.out_vaddr + r.offset)) known (computed S address)
        (by
          split
          · rfl
          · rw [BitVec.toNat_ofNat,Nat.mod_eq_of_lt old]) (by simp [wrap])
      rw [word] at right
      rw [Option.some.inj right]
      exact ⟨sec,data,_,S,here,bytes,address,⟨by omega,by simp [patch],word_patch (by omega) (BitVec.isLt _),
        fun x outside => patch_rest _ outside⟩,rfl⟩

/-- A relocation that passes the checks of its symbol and its offset, and patches nothing. -/
theorem relocate_other {data : List UInt8} (here : sections[r.isec_idx]? = some sec)
    (symbol : symbols[r.sym_idx]? = some (place_symbol placed (symbol_of rec))) (defined : rec.defined = true)
    (bytes : sec.data = some data) (checked : ¬ wrap (r.offset + 4) > sec.size) (other : patches r.type = false) :
    Relocates st placed sections r rec (relocate symbols sections r) ↔ r.has_addend = true ∨ r.offset + 4 ≤ sec.size := by
  rw [relocate,here,symbol]
  dsimp only
  rw [relocate_section_spec (placed_defined defined) bytes checked]
  by_cases far : r.offset + 4 > sec.size ∧ (r.has_addend = false ∨ patches r.type = true)
  · rw [if_pos far]
    refine ⟨False.elim,fun fine => ?_⟩
    have read := far.2.resolve_right (by simp [other])
    rcases fine with given | near
    · rw [read] at given
      cases given
    · exact absurd far.1 (by omega)
  · rw [if_neg far]
    have fine : r.has_addend = true ∨ r.offset + 4 ≤ sec.size := by
      cases given : r.has_addend with
      | true => exact .inl rfl
      | false => exact .inr (not_lt.1 fun behind => far ⟨behind,.inl given⟩)
    refine ⟨fun _ => fine,fun _ => ?_⟩
    cases word : relocated r.type (place_symbol placed (symbol_of rec)).value
        (if r.has_addend then r.addend.toNat else word_at data r.offset) (wrap (sec.out_vaddr + r.offset))
        (word_at data r.offset) with
    | none => trivial
    | some v =>
      dsimp only
      rw [Relocates,if_neg (by simp [other]),relocated_other other word,patch_same,← bytes]
      obtain ⟨inside,same⟩ := List.getElem?_eq_some_iff.1 here
      rw [← same]
      exact List.set_getElem_self inside

end

/-- Every pending relocation fails or patches its word with the address of the chosen definition, exactly when it is careful. -/
theorem relocated_right {inputs : List Input} {st : Parsed} (accepted : link_inputs inputs empty = some st) (load_addr : Nat)
    (entry_name : List UInt8) {before after : List Reloc} {r : Reloc} (pending : st.relocs = before ++ r :: after)
    {sections : List Section}
    (so_far : relocate_all (linker_layout (st.state load_addr entry_name)).symbols before
      (linker_layout (st.state load_addr entry_name)).sections = .ok sections) :
    ∃ rec sec, st.symbols[r.sym_idx]? = some rec ∧ rec.name ≠ [] ∧ sections[r.isec_idx]? = some sec ∧
      (Relocates st (linker_layout (st.state load_addr entry_name)).sections sections r rec
        (relocate (linker_layout (st.state load_addr entry_name)).symbols sections r) ↔ Careful r rec sec) := by
  have sound := link_inputs_sound empty_sound accepted
  obtain ⟨count,sizes⟩ := relocated_sizes sound so_far
  obtain ⟨place,index⟩ := sound.relocs r (by simp [pending])
  obtain ⟨rec,listed⟩ : ∃ rec, st.symbols[r.sym_idx]? = some rec := ⟨_,List.getElem?_eq_getElem index⟩
  obtain ⟨sec,here⟩ : ∃ sec, sections[r.isec_idx]? = some sec := ⟨_,List.getElem?_eq_getElem (count ▸ place)⟩
  obtain ⟨small,exact_⟩ := sizes sec (List.mem_of_getElem? here)
  have placed_count : (linker_layout (st.state load_addr entry_name)).sections.length = st.sections.length := by
    simpa [Parsed.state] using congrArg List.length (layout_contents (st.state load_addr entry_name))
  have filled := sound.symbols rec (List.mem_of_getElem? listed)
  rw [← placed_count] at filled
  have symbol : (linker_layout (st.state load_addr entry_name)).symbols[r.sym_idx]? =
      some (place_symbol (linker_layout (st.state load_addr entry_name)).sections (symbol_of rec)) := by
    simp [linker_layout,Parsed.state,listed]
  refine ⟨rec,sec,listed,filled.named,here,?_⟩
  have refused : ∀ refuses : relocate_section (place_symbol (linker_layout (st.state load_addr entry_name)).sections (symbol_of rec))
      r sec = .failed, Relocates st (linker_layout (st.state load_addr entry_name)).sections sections r rec
        (relocate (linker_layout (st.state load_addr entry_name)).symbols sections r) := by
    intro refuses
    rw [relocate,here,symbol]
    dsimp only
    rw [refuses]
    trivial
  cases defined : rec.defined with
  | false =>
    refine ⟨fun _ => .inl defined,fun _ => refused ?_⟩
    rw [relocate_section,if_pos (by simp [placed_symbol_defined,defined])]
  | true =>
    cases bytes : sec.data with
    | none =>
      refine ⟨fun _ => .inr (.inl bytes),fun _ => refused ?_⟩
      rw [relocate_section,if_neg (by simp [placed_symbol_defined,defined]),bytes]
    | some data =>
      by_cases checked : wrap (r.offset + 4) > sec.size
      · refine ⟨fun _ => .inr (.inr (.inl checked)),fun _ => refused ?_⟩
        rw [relocate_section,if_neg (by simp [placed_symbol_defined,defined]),bytes]
        dsimp only
        rw [if_pos checked]
      · cases known : patches r.type with
        | false =>
          rw [relocate_other here symbol defined bytes checked known]
          simp [Careful,defined,bytes,checked,known]
        | true =>
          rw [relocate_patches filled here symbol small defined bytes (exact_ data bytes) checked known]
          simp [Careful,defined,bytes,checked,known]

/-- An object of four bytes of text, with one symbol and one relocation. -/
def one_object (shndx : Nat) (offset : Word) : Object where
  headers := [⟨[],0,0,0,0,fun _ => 0⟩,⟨dot_text,1,6,4,4,fun _ => 0⟩]
  tables := [[⟨[],0,0,0,0⟩,⟨[0x66],0,STB_GLOBAL,STT_NOTYPE,shndx⟩]]
  rels := [⟨false,1,[⟨offset,R_386_32,1,0⟩]⟩]

def one_parsed (shndx : Nat) (offset : Word) : Parsed where
  sections := (one_object shndx offset).headers.filterMap input_section
  symbols := [record ⟨0,[none,some 0],(one_object shndx offset).headers.filterMap input_section⟩
    ⟨[0x66],0,STB_GLOBAL,STT_NOTYPE,shndx⟩ [0x66]]
  relocs := [⟨0,offset.toNat,R_386_32,0,0,false⟩]
  sec_maps := [[none,some 0]]

/-- The address of the text is written into it. -/
theorem relocated_right_text : ∃ rec sec, (one_parsed 1 0).symbols[0]? = some rec ∧
    (linker_layout ((one_parsed 1 0).state 0xB0000000 [])).sections[0]? = some sec ∧
    Relocates (one_parsed 1 0) (linker_layout ((one_parsed 1 0).state 0xB0000000 [])).sections
      (linker_layout ((one_parsed 1 0).state 0xB0000000 [])).sections ⟨0,0,R_386_32,0,0,false⟩ rec
      (relocate (linker_layout ((one_parsed 1 0).state 0xB0000000 [])).symbols
        (linker_layout ((one_parsed 1 0).state 0xB0000000 [])).sections ⟨0,0,R_386_32,0,0,false⟩) := by
  obtain ⟨rec,sec,listed,_,here,right⟩ := @relocated_right [.object (one_object 1 0)] (one_parsed 1 0) rfl 0xB0000000 []
    [] [] ⟨0,0,R_386_32,0,0,false⟩ rfl _ rfl
  refine ⟨rec,sec,listed,here,right.2 (.inr (.inr (.inr (.inr ⟨by decide,by decide,?_⟩))))⟩
  cases listed
  exact ⟨_,rfl,.inr ⟨by decide,rfl⟩⟩

/-- With the offset 2^32 - 2 the check passes, and the word is written behind the section. -/
theorem offset_wraps : ¬ ∀ (inputs : List Input) (st : Parsed) (load_addr : Nat) (entry_name : List UInt8) (before after : List Reloc)
    (r : Reloc) (sections : List Section) (rec : GlobalSymbol), link_inputs inputs empty = some st → st.relocs = before ++ r :: after →
    relocate_all (linker_layout (st.state load_addr entry_name)).symbols before
      (linker_layout (st.state load_addr entry_name)).sections = .ok sections → st.symbols[r.sym_idx]? = some rec →
    Relocates st (linker_layout (st.state load_addr entry_name)).sections sections r rec
      (relocate (linker_layout (st.state load_addr entry_name)).symbols sections r) := by
  intro all
  have relocates := all [.object (one_object 1 0xFFFFFFFE)] (one_parsed 1 0xFFFFFFFE) 0xB0000000 [] [] []
    ⟨0,0xFFFFFFFE,R_386_32,0,0,false⟩ _ _ rfl rfl rfl rfl
  have left : relocate (linker_layout ((one_parsed 1 0xFFFFFFFE).state 0xB0000000 [])).symbols
      (linker_layout ((one_parsed 1 0xFFFFFFFE).state 0xB0000000 [])).sections ⟨0,0xFFFFFFFE,R_386_32,0,0,false⟩ = .outside := rfl
  rw [left] at relocates
  exact relocates

end MicroOS.LinkerSymbols

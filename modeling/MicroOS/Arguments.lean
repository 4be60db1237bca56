import Mathlib.Tactic

/-! The options of a command line (`argparser.c`, in the kernel and in the library). The command line is given with its NUL,
and a result is none when a read goes past it; the name is given as `strlen` counts it. -/

namespace MicroOS.Arguments

abbrev Memory := Nat → UInt8

inductive Comparison where
  | ended
  | differs
  /-- The characters behind the name. -/
  | same (rest : List UInt8)

def compare : List UInt8 → List UInt8 → Option Comparison
  | [],rest => some (.same rest)
  | _ :: _,[] => some .ended
  | a :: arg,c :: rest => if c ≠ a then some .differs else compare arg rest

def copy_value : List UInt8 → Nat → Memory → Option Memory
  | [],_,_ => none
  | c :: rest,x,out => if c ≠ 32 ∧ c ≠ 0 then copy_value rest (x + 1) (Function.update out x c) else some out

/-- What is returned, and what is in `out` then, which may be NULL. -/
abbrev Answer := Option (Bool × Option Memory)

def found (rest : List UInt8) (out : Option Memory) : Answer :=
  match out with
  | none => some (true,none)
  | some memory => do
    let c ← rest.head?
    if c = 61 then do
      let memory ← copy_value rest.tail 0 memory
      pure (true,some memory)
    else pure (true,some memory)

/-- The loop over the places of the string. Only one of the copies looks at what is behind the name. -/
def search (bounded : Bool) (arg : List UInt8) (out : Option Memory) : Nat → List UInt8 → Answer
  | 0,_ => none
  | turns + 1,in_ =>
    if 1 < in_.length then do
      match ← compare arg in_ with
      | .ended => pure (false,out)
      | .differs => search bounded arg out turns in_.tail
      | .same rest =>
        if 1 < rest.length then do
          let c ← rest.head?
          if bounded ∧ c ≠ 32 ∧ c ≠ 61 then search bounded arg out turns rest.tail
          else found rest out
        else pure (true,out)
    else pure (false,out)

/-- The kernel's copy. -/
def is_arg_kernel (in_ arg : List UInt8) (out : Option Memory) : Answer := search true arg out (in_.length + 1) in_

/-- The copy of the library. -/
def is_arg_libc (in_ arg : List UInt8) (out : Option Memory) : Answer := search false arg out (in_.length + 1) in_

/-- The characters of a string. -/
structure Text where
  chars : List UInt8
  plain : 0 ∉ chars

/-- The name of an option. -/
structure Name extends Text where
  nonempty : chars ≠ []
  no_blank : 32 ∉ chars
  no_equals : 61 ∉ chars

def Text.string (s : Text) : List UInt8 := s.chars ++ [0]

/-- A word that is the name, or begins with the name and an equals sign. -/
def is_option (name word : List UInt8) : Bool := word = name ∨ name ++ [61] <+: word

/-- The first option of the name among the words. -/
def option (s : Text) (name : Name) : Option (List UInt8) := (s.chars.splitOn 32).find? (is_option name.chars)

/-- What is behind the name and the equals sign. -/
def value (name word : List UInt8) : List UInt8 := word.drop (name.length + 1)

/-- A cleared array with a string, and so a NUL behind it. -/
def stored (v : List UInt8) : Memory := fun i => v.getD i 0

/-- An array that the caller cleared, or NULL. -/
def cleared (given : Bool) : Option Memory := if given then some (stored []) else none

/-- Both copies answer by the first option, and store its value in a cleared array. -/
def Right (s : Text) (name : Name) (given : Bool) : Prop :=
  ∀ copy ∈ [is_arg_kernel,is_arg_libc], copy s.string name.chars (cleared given) =
    some ((option s name).isSome,if given then some (stored (((option s name).map (value name.chars)).getD [])) else none)

/-- What can stand behind an option. -/
def Ended (back : List UInt8) : Prop := back.head? ∈ [none,some 32,some 61]

instance (back : List UInt8) : Decidable (Ended back) := inferInstanceAs (Decidable (back.head? ∈ [none,some 32,some 61]))

/-- What is behind the first place where the name stands, in a word or not. -/
def first (name : List UInt8) : List UInt8 → Option (List UInt8)
  | [] => none
  | c :: l => if name <+: c :: l then some ((c :: l).drop name.length) else first name l

/-- The name with an end is met, from the left, with something behind it. Where it has no end, the next place is behind the
character that follows. -/
inductive Met (name : List UInt8) : List UInt8 → List UInt8 → Prop
  | here {back : List UInt8} (ended : Ended back) : Met name (name ++ back) back
  | next {c : UInt8} {l back : List UInt8} (differs : ¬name <+: c :: l) (later : Met name l back) : Met name (c :: l) back
  | skip {c : UInt8} {l back : List UInt8} (no_end : ¬Ended (c :: l)) (later : Met name l back) : Met name (name ++ c :: l) back

/-- The value behind a name, up to the next blank. -/
def behind (back : List UInt8) : List UInt8 := if back.head? = some 61 then back.tail.takeWhile (· ≠ 32) else []

/-- The name stands nowhere, or there is an option and the value is the same behind the first place of the name, behind the
first with an end, and in the first option. -/
def Clear (s : Text) (name : Name) (given : Bool) : Prop :=
  ¬name.chars <:+: s.chars ∨ ∃ word, option s name = some word ∧ (given = true →
    (∀ back, first name.chars s.chars = some back → behind back = value name.chars word) ∧
    ∀ back, Met name.chars s.chars back → behind back = value name.chars word)

section
variable {l name : List UInt8}

theorem compare_eq (plain : 0 ∉ name) :
    compare name (l ++ [0]) = some (if name <+: l then .same (l.drop name.length ++ [0]) else .differs) := by
  induction name generalizing l with
  | nil => simp [compare]
  | cons a name ih =>
    have nonzero : (0 : UInt8) ≠ a := fun zero => plain (zero ▸ List.mem_cons_self ..)
    cases l with
    | nil => simp [compare,nonzero]
    | cons c l =>
      have rest := @ih l fun mem => plain (List.mem_cons_of_mem _ mem)
      by_cases same : c = a
      · subst same
        simp [compare,rest,List.cons_prefix_cons]
      · have differs : ¬a :: name <+: c :: l := fun starts => same (List.cons_prefix_cons.mp starts).1.symm
        simp [compare,same,differs]

theorem stored_append (w : List UInt8) (c : UInt8) : Function.update (stored w) w.length c = stored (w ++ [c]) := by
  funext i
  simp only [Function.update_apply,stored,List.getD_eq_getElem?_getD,List.getElem?_append]
  split_ifs with here inside
  · omega
  · simp [here]
  · rfl
  · rw [List.getElem?_eq_none (by omega),List.getElem?_eq_none (by simp; omega)]

/-- The value goes up to the next blank. -/
theorem copy_value_eq (plain : 0 ∉ l) (w : List UInt8) :
    copy_value (l ++ [0]) w.length (stored w) = some (stored (w ++ l.takeWhile (· ≠ 32))) := by
  induction l generalizing w with
  | nil => simp [copy_value]
  | cons c l ih =>
    have nonzero : c ≠ 0 := fun zero => plain (zero ▸ List.mem_cons_self ..)
    have rest := ih (fun mem => plain (List.mem_cons_of_mem _ mem)) (w ++ [c])
    by_cases blank : c = 32
    · simp [copy_value,blank]
    · rw [List.length_append,List.length_singleton,← stored_append] at rest
      simp [copy_value,blank,nonzero,rest]

/-- The answer of a copy that finds the name. -/
def answer (given : Bool) (back : List UInt8) : Answer := some (true,if given then some (stored (behind back)) else none)

def none_found (given : Bool) : Answer := some (false,cleared given)

theorem found_eq {given : Bool} {back : List UInt8} (plain : 0 ∉ back) :
    found (back ++ [0]) (cleared given) = answer given back := by
  cases given with
  | false => rfl
  | true =>
    cases back with
    | nil => rfl
    | cons c back =>
      have copied := @copy_value_eq back (fun mem => plain (List.mem_cons_of_mem _ mem)) []
      by_cases equals : c = 61
      · subst equals
        simp only [List.length_nil,List.nil_append] at copied
        simp [found,answer,behind,cleared,copied]
      · simp [found,answer,behind,cleared,equals]

variable {bounded given : Bool} {turns : Nat} {back : List UInt8}

theorem search_nil : search bounded name (cleared given) (turns + 1) ([] ++ [0]) = none_found given := rfl

theorem search_differs {out : Option Memory} {c : UInt8} (plain : 0 ∉ name) (differs : ¬name <+: c :: l) :
    search bounded name out (turns + 1) (c :: l ++ [0]) = search bounded name out turns (l ++ [0]) := by
  have compared := @compare_eq (c :: l) name plain
  rw [if_neg differs] at compared
  have more : 1 < (c :: l ++ [0]).length := by simp
  rw [search,if_pos more,compared]
  rfl

/-- The search at a place where the name stands. -/
theorem search_same (plain : 0 ∉ name) (plain' : 0 ∉ back) (some_char : name ≠ []) :
    search bounded name (cleared given) (turns + 1) (name ++ back ++ [0]) =
      if bounded = true ∧ ¬Ended back then search bounded name (cleared given) turns (back.tail ++ [0])
      else answer given back := by
  have compared := @compare_eq (name ++ back) name plain
  rw [if_pos (List.prefix_append ..),List.drop_left] at compared
  have more : 1 < (name ++ back ++ [0]).length := by
    have := List.length_pos_of_ne_nil some_char
    simp
    omega
  rw [search,if_pos more,compared,Option.bind_eq_bind,Option.bind_some]
  cases back with
  | nil =>
    have ended : Ended [] := by decide
    rw [if_neg fun all => all.2 ended]
    cases given <;> rfl
  | cons c back =>
    have inside : 1 < (c :: back ++ [0]).length := by simp
    have no_end : ¬Ended (c :: back) ↔ c ≠ 32 ∧ c ≠ 61 := by simp [Ended]
    have found_eq := @found_eq given (c :: back) plain'
    rw [List.cons_append] at inside found_eq
    simp only [if_pos inside,List.cons_append,List.head?_cons,Option.bind_eq_bind,Option.bind_some,List.tail_cons,no_end,found_eq]

/-- The copy of the library finds the first place of the name. -/
theorem search_libc {given : Bool} {turns : Nat} (plain : 0 ∉ name) (plain' : 0 ∉ l) (some_char : name ≠ []) (enough : l.length < turns) :
    search false name (cleared given) turns (l ++ [0]) =
      ((first name l).map (answer given)).getD (none_found given) := by
  induction l generalizing turns with
  | nil =>
    obtain ⟨turns,rfl⟩ : ∃ n, turns = n + 1 := ⟨turns - 1,by simp at enough; omega⟩
    exact search_nil
  | cons c l ih =>
    obtain ⟨turns,rfl⟩ : ∃ n, turns = n + 1 := ⟨turns - 1,by simp at enough; omega⟩
    rw [first]
    by_cases here : name <+: c :: l
    · obtain ⟨back,whole⟩ := here
      rw [if_pos ⟨back,whole⟩,← whole,List.drop_left,search_same plain (fun mem => plain' (whole ▸ List.mem_append_right _ mem)) some_char]
      simp
    · rw [if_neg here,search_differs plain here]
      exact ih (fun mem => plain' (List.mem_cons_of_mem _ mem)) (by simpa using enough)

/-- The kernel's copy finds the first place with an end. -/
theorem search_met (plain : 0 ∉ name) (plain' : 0 ∉ l) (some_char : name ≠ [])
    (enough : l.length < turns) (met : Met name l back) :
    search true name (cleared given) turns (l ++ [0]) = answer given back := by
  induction met generalizing turns with
  | here ended =>
    obtain ⟨turns,rfl⟩ : ∃ n, turns = n + 1 := ⟨turns - 1,by omega⟩
    rw [search_same plain (fun mem => plain' (List.mem_append_right _ mem)) some_char,if_neg fun all => all.2 ended]
  | next differs later ih =>
    obtain ⟨turns,rfl⟩ : ∃ n, turns = n + 1 := ⟨turns - 1,by omega⟩
    rw [search_differs plain differs]
    exact ih (fun mem => plain' (List.mem_cons_of_mem _ mem)) (by simpa using enough)
  | skip no_end later ih =>
    obtain ⟨turns,rfl⟩ : ∃ n, turns = n + 1 := ⟨turns - 1,by omega⟩
    rw [search_same plain (fun mem => plain' (List.mem_append_right _ mem)) some_char,if_pos ⟨rfl,no_end⟩]
    refine ih (fun mem => plain' (List.mem_append_right _ (List.mem_cons_of_mem _ mem))) ?_
    simp at enough
    omega

/-- Where no such place is met, nothing is found. -/
theorem search_unmet (plain : 0 ∉ name) (plain' : 0 ∉ l) (some_char : name ≠ []) (enough : l.length < turns)
    (unmet : ∀ back, ¬Met name l back) : search true name (cleared given) turns (l ++ [0]) = none_found given := by
  induction turns generalizing l with
  | zero => omega
  | succ turns ih =>
    cases l with
    | nil => exact search_nil
    | cons c l =>
      by_cases here : name <+: c :: l
      · obtain ⟨back,whole⟩ := here
        have plain_back : 0 ∉ back := fun mem => plain' (whole ▸ List.mem_append_right _ mem)
        have no_end : ¬Ended back := fun ended => unmet back (whole ▸ .here ended)
        rw [← whole,search_same plain plain_back some_char,if_pos ⟨rfl,no_end⟩]
        cases back with
        | nil => exact (no_end (by decide)).elim
        | cons d back =>
          refine ih (fun mem => plain_back (List.mem_cons_of_mem _ mem)) ?_ fun b later => unmet b (whole ▸ .skip no_end later)
          have := congrArg List.length whole
          simp at this enough
          simp
          omega
      · rw [search_differs plain here]
        exact ih (fun mem => plain' (List.mem_cons_of_mem _ mem)) (by simpa using enough) fun b later => unmet b (.next here later)

theorem first_within (some_char : name ≠ []) : name <:+: l ↔ ∃ back, first name l = some back := by
  induction l with
  | nil => simp [first,some_char]
  | cons c l ih =>
    rw [List.infix_cons_iff,first,ih]
    by_cases here : name <+: c :: l <;> simp [here]

theorem met_within (met : Met name l back) : name <:+: l := by
  induction met with
  | here => exact (List.prefix_append ..).isInfix
  | next _ _ ih => exact List.infix_cons ih
  | skip => exact (List.prefix_append ..).isInfix

/-- A word begins at the front or behind a blank. -/
def Begins (front : List UInt8) : Prop := front = [] ∨ ∃ before, front = before ++ [32]

theorem begins_tail {c : UInt8} {front : List UInt8} (begins : Begins (c :: front)) : Begins front := by
  obtain empty | ⟨before,split⟩ := begins
  · cases empty
  · cases before with
    | nil => exact .inl (List.cons.inj split).2
    | cons b before => exact .inr ⟨before,(List.cons.inj split).2⟩

/-- An option is not passed over: the characters in front of it that are passed are no blanks. -/
theorem option_met {front : List UInt8} (no_blank : 32 ∉ name) (begins : Begins front) (ended : Ended back) :
    ∃ b, Met name (front ++ (name ++ back)) b := by
  induction size : front.length using Nat.strong_induction_on generalizing front with
  | _ n ih =>
    cases front with
    | nil => exact ⟨back,.here ended⟩
    | cons c front =>
      by_cases here : name <+: c :: front ++ (name ++ back)
      · obtain ⟨rest,whole⟩ := here
        by_cases ends : Ended rest
        · exact ⟨rest,whole ▸ .here ends⟩
        · obtain ⟨before,split⟩ := begins.resolve_left (by simp)
          obtain ⟨d,l,rfl⟩ : ∃ d l, rest = d :: l := by
            cases rest with
            | nil => exact (ends (by decide)).elim
            | cons d l => exact ⟨d,l,rfl⟩
          have no_blank' : 32 ∉ name ++ [d] := by
            have : d ≠ 32 := fun blank => ends (by simp [Ended,blank])
            simp [no_blank,this.symm]
          have whole' : (name ++ [d]) ++ l = before ++ (32 :: (name ++ back)) := by
            rw [split] at whole
            simpa using whole
          obtain ⟨passed,rfl⟩ : ∃ passed, l = passed ++ 32 :: (name ++ back) := by
            obtain ⟨passed,-,l_eq⟩ | ⟨more,name_eq,-⟩ := List.append_eq_append_iff.mp whole'
            · exact ⟨passed,l_eq⟩
            · cases more with
              | nil =>
                rw [List.append_nil] at name_eq
                rw [name_eq] at whole'
                exact ⟨[],List.append_cancel_left whole'⟩
              | cons e more =>
                rw [name_eq,List.append_assoc] at whole'
                have blank : e = 32 := (List.cons.inj (List.append_cancel_left whole')).1
                rw [name_eq,blank] at no_blank'
                simp at no_blank'
          have shorter : (passed ++ [32]).length < n := by
            have := congrArg List.length whole
            simp at this size
            simp
            omega
          obtain ⟨b,met⟩ := ih _ shorter (.inr ⟨passed,rfl⟩) rfl
          refine ⟨b,whole ▸ .skip ends ?_⟩
          simpa using met
      · obtain ⟨b,met⟩ := ih front.length (by simp at size; omega) (begins_tail begins) rfl
        exact ⟨b,.next here met⟩

end

/-- Where a word of a text stands. -/
theorem word_splits {words : List (List UInt8)} {word : List UInt8} (mem : word ∈ words) :
    ∃ front back, [32].intercalate words = front ++ (word ++ back) ∧ Begins front ∧ (back = [] ∨ ∃ rest, back = 32 :: rest) := by
  induction words with
  | nil => cases mem
  | cons w words ih =>
    cases words with
    | nil =>
      obtain rfl := List.mem_singleton.mp mem
      exact ⟨[],[],by simp [List.intercalate_singleton],.inl rfl,.inl rfl⟩
    | cons w' words =>
      rw [List.intercalate_cons_cons]
      obtain rfl | later := List.mem_cons.mp mem
      · exact ⟨[],32 :: [32].intercalate (w' :: words),by simp,.inl rfl,.inr ⟨_,rfl⟩⟩
      · obtain ⟨front,back,whole,begins,ends⟩ := ih later
        refine ⟨w ++ 32 :: front,back,by rw [whole]; simp,.inr ?_,ends⟩
        obtain rfl | ⟨before,rfl⟩ := begins
        · exact ⟨w,rfl⟩
        · exact ⟨w ++ 32 :: before,by simp⟩

section
variable {s : Text} {name : Name} {word : List UInt8} {given : Bool}

/-- An option stands at the front of a word, with an end. -/
theorem option_stands (is_first : option s name = some word) :
    ∃ front back, s.chars = front ++ (name.chars ++ back) ∧ Begins front ∧ Ended back := by
  obtain ⟨front,rest,whole,begins,ends⟩ := word_splits (List.mem_of_find?_eq_some is_first)
  rw [List.intercalate_splitOn] at whole
  have named := List.find?_some is_first
  simp only [is_option,Bool.decide_or,Bool.or_eq_true,decide_eq_true_eq] at named
  obtain rfl | ⟨v,rfl⟩ := named
  · refine ⟨front,rest,whole,begins,?_⟩
    obtain rfl | ⟨more,rfl⟩ := ends
    · decide
    · exact List.mem_cons_of_mem _ (List.mem_cons_self ..)
  · exact ⟨front,61 :: v ++ rest,by rw [whole]; simp,begins,List.mem_cons_of_mem _ (List.mem_cons_of_mem _ (List.mem_cons_self ..))⟩

theorem stored_injective {v w : List UInt8} (plain : 0 ∉ v) (plain' : 0 ∉ w) (same : stored v = stored w) : v = w := by
  refine List.ext_getElem? fun i => ?_
  have here : v.getD i 0 = w.getD i 0 := congrFun same i
  rw [List.getD_eq_getElem?_getD,List.getD_eq_getElem?_getD] at here
  cases first : v[i]? with
  | none =>
    cases second : w[i]? with
    | none => rfl
    | some b =>
      rw [first,second] at here
      have zero : (0 : UInt8) = b := here
      exact (plain' (zero ▸ List.mem_of_getElem? second)).elim
  | some a =>
    cases second : w[i]? with
    | none =>
      rw [first,second] at here
      have zero : a = (0 : UInt8) := here
      exact (plain (zero ▸ List.mem_of_getElem? first)).elim
    | some b =>
      rw [first,second] at here
      exact congrArg some here

variable {back : List UInt8}

theorem plain_behind (plain : 0 ∉ back) : 0 ∉ behind back := by
  rw [behind]
  split_ifs
  · exact fun mem => plain (List.mem_of_mem_tail (List.takeWhile_subset _ mem))
  · simp

theorem plain_value (is_first : option s name = some word) : 0 ∉ value name.chars word := by
  obtain ⟨front,rest,whole,-,-⟩ := word_splits (List.mem_of_find?_eq_some is_first)
  rw [List.intercalate_splitOn] at whole
  intro mem
  refine s.plain ?_
  rw [whole]
  exact List.mem_append_right _ (List.mem_append_left _ (List.mem_of_mem_drop mem))

theorem plain_first {l name : List UInt8} (plain : 0 ∉ l) (is_first : first name l = some back) : 0 ∉ back := by
  induction l with
  | nil => cases is_first
  | cons c l ih =>
    rw [first] at is_first
    split_ifs at is_first
    · obtain rfl := Option.some.inj is_first
      exact fun mem => plain (List.mem_of_mem_drop mem)
    · exact ih (fun mem => plain (List.mem_cons_of_mem _ mem)) is_first

theorem plain_met {l name : List UInt8} (plain : 0 ∉ l) (met : Met name l back) : 0 ∉ back := by
  induction met with
  | here => exact fun mem => plain (List.mem_append_right _ mem)
  | next _ _ ih => exact ih fun mem => plain (List.mem_cons_of_mem _ mem)
  | skip _ _ ih => exact ih fun mem => plain (List.mem_append_right _ (List.mem_cons_of_mem _ mem))

theorem kernel_met (met : Met name.chars s.chars back) :
    is_arg_kernel s.string name.chars (cleared given) = answer given back :=
  search_met name.plain s.plain name.nonempty (by simp [Text.string]) met

theorem libc_first (is_first : first name.chars s.chars = some back) :
    is_arg_libc s.string name.chars (cleared given) = answer given back := by
  have found := @search_libc s.chars name.chars given (s.string.length + 1) name.plain s.plain name.nonempty (by simp [Text.string])
  rw [is_first] at found
  exact found

/-- What a right copy answers. -/
def expected (s : Text) (name : Name) (given : Bool) : Answer :=
  some ((option s name).isSome,if given then some (stored (((option s name).map (value name.chars)).getD [])) else none)

theorem expected_some (is_first : option s name = some word) :
    expected s name given = some (true,if given then some (stored (value name.chars word)) else none) := by
  rw [expected,is_first]
  rfl

theorem answer_expected (plain : 0 ∉ back) (is_first : option s name = some word) :
    answer given back = expected s name given ↔ (given = true → behind back = value name.chars word) := by
  rw [expected_some is_first,answer]
  cases given with
  | false => simp
  | true =>
    simp only [if_true,Option.some.injEq,Prod.mk.injEq,true_and,true_implies]
    exact ⟨stored_injective (plain_behind plain) (plain_value is_first),congrArg stored⟩

theorem right_clear : Right s name given ↔ Clear s name given := by
  have copies : Right s name given ↔ is_arg_kernel s.string name.chars (cleared given) = expected s name given ∧
      is_arg_libc s.string name.chars (cleared given) = expected s name given := by
    rw [Right,List.forall_mem_cons,List.forall_mem_singleton]
    rfl
  rw [copies]
  by_cases stands : name.chars <:+: s.chars
  · obtain ⟨back,is_first⟩ := (first_within name.nonempty).mp stands
    rw [libc_first is_first]
    cases found : option s name with
    | none =>
      refine iff_of_false (fun both => ?_) ?_
      · have wrong := both.2
        rw [expected,found,answer] at wrong
        simp at wrong
      · rintro (nowhere | ⟨word,is_option,-⟩)
        · exact nowhere stands
        · rw [found] at is_option
          cases is_option
    | some word =>
      obtain ⟨front,rest,whole,begins,ends⟩ := option_stands found
      obtain ⟨b,met⟩ := option_met name.no_blank begins ends
      rw [← whole] at met
      constructor
      · rintro ⟨kernel,libc⟩
        refine .inr ⟨word,found,fun is_given => ⟨fun c is_first' => ?_,fun c met' => ?_⟩⟩
        · obtain rfl := Option.some.inj (is_first.symm.trans is_first')
          exact (answer_expected (plain_first s.plain is_first) found).mp libc is_given
        · exact (answer_expected (plain_met s.plain met') found).mp ((kernel_met met').symm.trans kernel) is_given
      · rintro (nowhere | ⟨word',is_option,same⟩)
        · exact (nowhere stands).elim
        · obtain rfl := Option.some.inj (found.symm.trans is_option)
          rw [kernel_met met,answer_expected (plain_first s.plain is_first) found,answer_expected (plain_met s.plain met) found]
          exact ⟨fun is_given => (same is_given).2 b met,fun is_given => (same is_given).1 back is_first⟩
  · have none_first : first name.chars s.chars = none := Option.eq_none_iff_forall_ne_some.mpr fun back is_first =>
      stands ((first_within name.nonempty).mpr ⟨back,is_first⟩)
    have none_option : option s name = none := Option.eq_none_iff_forall_ne_some.mpr fun word found => by
      obtain ⟨front,back,whole,-,-⟩ := option_stands found
      exact stands ⟨front,back,by rw [whole,List.append_assoc]⟩
    have none_met : ∀ back, ¬Met name.chars s.chars back := fun back met => stands (met_within met)
    have expected_none : expected s name given = none_found given := by
      rw [expected,none_option]
      rfl
    refine iff_of_true ⟨?_,?_⟩ (.inl stands)
    · rw [expected_none]
      exact search_unmet name.plain s.plain name.nonempty (by simp [Text.string]) none_met
    · rw [expected_none]
      refine (search_libc name.plain s.plain name.nonempty (by simp [Text.string])).trans ?_
      rw [none_first]
      rfl

end

/-- Both copies answer by the words of the string, without a read behind it, exactly when the name stands nowhere or an option
is there and no other place of the name in front of it has another value. -/
theorem arguments_answered (s : Text) (name : Name) (given : Bool) : Right s name given ↔ Clear s name given := right_clear

/-- `--initrd` -/
def initrd : Text := ⟨[45,45,105,110,105,116,114,100],by decide⟩

/-- `--init` -/
def init : Name := ⟨⟨[45,45,105,110,105,116],by decide⟩,by decide,by decide,by decide⟩

/-- The copy of the library takes another option for the one that is asked for. -/
theorem initrd_found : ¬∀ (s : Text) (name : Name) (given : Bool), Right s name given := by
  intro always
  obtain nowhere | ⟨word,found,-⟩ := right_clear.mp (always initrd init false)
  · exact nowhere ⟨[],[114,100],rfl⟩
  · have none_option : option initrd init = none := by decide
    rw [none_option] at found
    cases found

end MicroOS.Arguments

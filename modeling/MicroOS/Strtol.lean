import MicroOS.Ints
import Mathlib.Data.List.TakeWhile
import Mathlib.Tactic

/-! `strtol` of the library; its `long` has 32 bits. A string is given with its NUL, the end pointer is what is left of it, and
there is no result when a read goes past the NUL or a number overflows. -/

namespace MicroOS.Strtol
open Ints
open Option (bind_eq_bind bind_some)

abbrev Cells := List UInt8

def isspace (c : UInt8) : Bool := c = 9 || c = 10 || c = 11 || c = 12 || c = 13 || c = 32
def isdigit (c : UInt8) : Bool := 48 ≤ c && c ≤ 57
def isxdigit (c : UInt8) : Bool := isdigit c || (97 ≤ c && c ≤ 102) || (65 ≤ c && c ≤ 70)
def tolower (c : UInt8) : Nat := if 65 ≤ c && c ≤ 90 then c.toNat + 32 else c.toNat

def skip_spaces : Cells → Option Cells
  | [] => none
  | c :: p => if isspace c then skip_spaces p else some (c :: p)

/-- `*p == '0' && (*(p + 1) == 'x' || *(p + 1) == 'X')` -/
def marked (p : Cells) : Option Bool := do
  let c ← p.head?
  if c = 48 then do
    let x ← p.tail.head?
    pure (x = 120 || x = 88)
  else pure false

def digit (base : Nat) (c : UInt8) : Option Nat :=
  if isdigit c then some (c.toNat - 48)
  else if base = 16 ∧ isxdigit c then some (tolower c - 97 + 10)
  else none

def read_digits (base : Nat) : Cells → Int → Option (Int × Cells)
  | [],_ => none
  | c :: p,result =>
    if c = 0 then some (result,c :: p)
    else match digit base c with
      | none => some (result,c :: p)
      | some digit =>
        if digit ≥ base then some (result,c :: p)
        else do
          let shifted ← int (result * base)
          let result ← int (shifted + digit)
          read_digits base p result

/-- The base, when it is left to the number, and where the digits are looked for. -/
def select_base (base : Nat) (p : Cells) : Option (Nat × Cells) :=
  if base = 0 then do
    let c ← p.head?
    if c = 48 then do
      let x ← marked p
      pure (if x then 16 else 8,p)
    else pure (10,p)
  else if base = 16 then do
    let x ← marked p
    pure (base,if x then p.drop 2 else p)
  else pure (base,p)

def strtol (nptr : Cells) (base : Nat) : Option (Int × Cells) := do
  let p ← skip_spaces nptr
  let c ← p.head?
  let negative := c = 45
  let p := if c = 45 ∨ c = 43 then p.tail else p
  let (base,p) ← select_base base p
  let (result,p) ← read_digits base p 0
  let result ← if negative then int (-result) else pure result
  pure (result,p)

abbrev Base := { b : Nat // b = 0 ∨ 2 ≤ b ∧ b ≤ 36 }

/-- The value of a digit or letter; others are no digits in any base. -/
def digit_value (c : UInt8) : Nat :=
  if isdigit c then c.toNat - 48
  else if 97 ≤ c && c ≤ 122 then c.toNat - 87
  else if 65 ≤ c && c ≤ 90 then c.toNat - 55
  else 36

/-- What is behind the white space. -/
def trimmed (s : List UInt8) : List UInt8 := s.dropWhile isspace

def negative (s : List UInt8) : Bool := (trimmed s).head? = some 45

/-- What is behind the sign. -/
def body (s : List UInt8) : List UInt8 :=
  if (trimmed s).head? = some 45 ∨ (trimmed s).head? = some 43 then (trimmed s).tail else trimmed s

/-- `0x`, in front of anything. -/
def x_marked : List UInt8 → Bool
  | 48 :: x :: _ => x = 120 || x = 88
  | _ => false

/-- `0x` and a hexadecimal digit. -/
def hexadecimal (l : List UInt8) : Bool := x_marked l && (match l.drop 2 with
  | d :: _ => digit_value d < 16
  | [] => false)

/-- The base of the number and where its digits begin. -/
def form (base : Nat) (l : List UInt8) : Nat × List UInt8 :=
  if (base = 0 ∨ base = 16) ∧ hexadecimal l then (16,l.drop 2)
  else if base = 0 then (if l.head? = some 48 then 8 else 10,l)
  else (base,l)

def digits (base : Nat) (l : List UInt8) : List UInt8 := (form base l).2.takeWhile (digit_value · < (form base l).1)
def behind (base : Nat) (l : List UInt8) : List UInt8 := (form base l).2.dropWhile (digit_value · < (form base l).1)

def value (base : Nat) (ds : List UInt8) (v : Nat) : Nat := ds.foldl (fun v c => v * base + digit_value c) v

def magnitude (base : Nat) (l : List UInt8) : Nat := value (form base l).1 (digits base l) 0

def signed (s : List UInt8) (n : Nat) : Int := if negative s then -n else n

/-- The number, which is 0 if there are no digits. -/
def number (s : List UInt8) (base : Nat) : Int := signed s (magnitude base (body s))

def end_pointer (s : List UInt8) (base : Nat) : List UInt8 := if digits base (body s) = [] then s else behind base (body s)

/-- A string without its NUL. -/
abbrev Text := { s : List UInt8 // 0 ∉ s }

/-- The value of a number that fits is returned, and the end pointer if it is wanted. -/
def Right (s : Text) (base : Base) (wanted : Bool) : Prop := Fits (number s.1 base.1) →
  ∃ p, strtol (s.1 ++ [0]) base.1 = some (number s.1 base.1,p) ∧ (wanted = true → p = end_pointer s.1 base.1 ++ [0])

/-- The characters that the loop takes. -/
def taken (base : Nat) (c : UInt8) : Bool := (isdigit c || (base = 16 && isxdigit c)) && digit_value c < base

/-- The base and the beginning of the digits in the code. -/
def code_form (base : Nat) (l : List UInt8) : Nat × List UInt8 :=
  if base = 0 then (if l.head? = some 48 then (if x_marked l then 16 else 8) else 10,l)
  else if base = 16 then (base,if x_marked l then l.drop 2 else l)
  else (base,l)

def code_digits (base : Nat) (l : List UInt8) : List UInt8 := (code_form base l).2.takeWhile (taken (code_form base l).1)
def code_behind (base : Nat) (l : List UInt8) : List UInt8 := (code_form base l).2.dropWhile (taken (code_form base l).1)

section
variable {l : List UInt8} {base : Nat} {c : UInt8}

theorem skip_spaces_eq : skip_spaces (l ++ [0]) = some (l.dropWhile isspace ++ [0]) := by
  induction l with
  | nil => rfl
  | cons c l ih =>
    by_cases space : isspace c = true
    · simp [skip_spaces,space,ih]
    · simp [skip_spaces,space]

theorem marked_eq : marked (l ++ [0]) = some (x_marked l) := by
  rcases l with _ | ⟨a,l⟩
  · rfl
  · by_cases zero : a = 48
    · subst zero
      cases l with
      | nil => rfl
      | cons b l => rfl
    · have unmarked : x_marked (a :: l) = false := by
        unfold x_marked
        split
        · rename_i x rest same
          exact (zero (List.cons.inj same).1).elim
        · rfl
      rw [unmarked]
      simp [marked,zero]

theorem isdigit_iff : isdigit c = true ↔ 48 ≤ c.toNat ∧ c.toNat ≤ 57 := by
  simp [isdigit,UInt8.le_iff_toNat_le]

theorem isxdigit_iff : isxdigit c = true ↔ isdigit c = true ∨ 97 ≤ c.toNat ∧ c.toNat ≤ 102 ∨ 65 ≤ c.toNat ∧ c.toNat ≤ 70 := by
  simp [isxdigit,UInt8.le_iff_toNat_le,or_assoc]

theorem digit_value_number (number : isdigit c = true) : digit_value c = c.toNat - 48 := by rw [digit_value,if_pos number]

theorem digit_value_lower (low : 97 ≤ c.toNat) (high : c.toNat ≤ 122) : digit_value c = c.toNat - 87 := by
  have no_number : ¬isdigit c = true := fun number => by
    have := (isdigit_iff.mp number).2
    omega
  rw [digit_value,if_neg no_number,if_pos (by simp [UInt8.le_iff_toNat_le,low,high])]

theorem digit_value_upper (low : 65 ≤ c.toNat) (high : c.toNat ≤ 90) : digit_value c = c.toNat - 55 := by
  have no_number : ¬isdigit c = true := fun number => by
    have := (isdigit_iff.mp number).2
    omega
  have no_lower : ¬((97 ≤ c && c ≤ 122) = true) := by
    simp [UInt8.le_iff_toNat_le]
    omega
  rw [digit_value,if_neg no_number,if_neg no_lower,if_pos (by simp [UInt8.le_iff_toNat_le,low,high])]

/-- A letter is a digit of hexadecimal numbers alone. -/
theorem digit_eq : digit base c = if (isdigit c || (base = 16 && isxdigit c)) = true then some (digit_value c) else none := by
  rw [digit]
  by_cases number : isdigit c = true
  · simp [number,digit_value_number number]
  · by_cases letter : base = 16 ∧ isxdigit c = true
    · have value_eq : tolower c - 97 + 10 = digit_value c := by
        obtain lower | upper := (isxdigit_iff.mp letter.2).resolve_left number
        · have same : ¬((65 ≤ c && c ≤ 90) = true) := by
            simp [UInt8.le_iff_toNat_le]
            omega
          rw [digit_value_lower lower.1 (by omega),tolower,if_neg same]
          omega
        · rw [digit_value_upper upper.1 (by omega),tolower,if_pos (by simp [UInt8.le_iff_toNat_le]; omega)]
          omega
      simp [number,letter,value_eq]
    · rw [if_neg number,if_neg letter]
      simp [number,letter]

theorem value_grows (ds : List UInt8) (v : Nat) (positive : 0 < base) : v ≤ value base ds v := by
  induction ds generalizing v with
  | nil => exact le_refl v
  | cons c ds ih => exact ((Nat.le_mul_of_pos_right v positive).trans (Nat.le_add_right _ _)).trans (ih _)

theorem int_nat (n : Nat) : int (n : Int) = if n < 2147483648 then some (n : Int) else none := by
  rw [int]
  refine if_congr ?_ rfl rfl
  rw [Fits]
  omega

/-- The loop over the digits, which overflows with the number. -/
theorem read_digits_eq (plain : 0 ∉ l) (positive : 0 < base) (v : Nat) (fits : v < 2147483648) :
    read_digits base (l ++ [0]) v =
      (int (value base (l.takeWhile (taken base)) v : Nat)).map fun n => (n,l.dropWhile (taken base) ++ [0]) := by
  induction l generalizing v with
  | nil =>
    have here : int (v : Int) = some (v : Int) := int_fits ⟨by omega,by omega⟩
    simp [read_digits,value,here]
  | cons c l ih =>
    have nonzero : c ≠ 0 := fun zero => plain (zero ▸ List.mem_cons_self ..)
    have here : int (v : Int) = some (v : Int) := int_fits ⟨by omega,by omega⟩
    rw [List.cons_append,read_digits,if_neg nonzero,digit_eq]
    by_cases kind : (isdigit c || (base = 16 && isxdigit c)) = true
    · by_cases below : digit_value c < base
      · have takes : taken base c = true := by simp only [taken,kind,below,Bool.true_and,decide_true]
        rw [if_pos kind,List.takeWhile_cons_of_pos takes,List.dropWhile_cons_of_pos takes]
        have not_over : ¬digit_value c ≥ base := Nat.not_le.mpr below
        simp only [if_neg not_over]
        have step : value base (c :: l.takeWhile (taken base)) v = value base (l.takeWhile (taken base)) (v * base + digit_value c) := rfl
        rw [step]
        have rest := ih fun mem => plain (List.mem_cons_of_mem _ mem)
        have product : (v : Int) * base = (v * base : Nat) := by push_cast; rfl
        have sum : ((v * base : Nat) : Int) + (digit_value c : Nat) = (v * base + digit_value c : Nat) := by push_cast; rfl
        rw [product,int_nat]
        by_cases small : v * base + digit_value c < 2147483648
        · rw [if_pos (by omega),bind_eq_bind,bind_some,sum,int_nat,if_pos small,bind_some,rest _ small]
        · -- The number only grows, so that it cannot fit any more.
          have grows := value_grows (l.takeWhile (taken base)) (v * base + digit_value c) positive
          have large : ¬value base (l.takeWhile (taken base)) (v * base + digit_value c) < 2147483648 := by omega
          rw [int_nat,if_neg large]
          split_ifs
          · rw [bind_eq_bind,bind_some,sum,int_nat,if_neg small]
            rfl
          · rfl
      · have stops : ¬taken base c = true := by simp [taken,below]
        rw [if_pos kind,List.takeWhile_cons_of_neg stops,List.dropWhile_cons_of_neg stops]
        simp [Nat.le_of_not_lt below,value,here]
    · have stops : ¬taken base c = true := by simp only [taken,kind,Bool.false_and]; simp
      rw [if_neg kind,List.takeWhile_cons_of_neg stops,List.dropWhile_cons_of_neg stops]
      simp [value,here]

theorem form_positive {base : Base} : 0 < (code_form base.1 l).1 := by
  simp only [code_form]
  split_ifs <;> simp <;> omega

theorem code_form_plain (plain : 0 ∉ l) : 0 ∉ (code_form base l).2 := by
  simp only [code_form]
  split_ifs <;> first | exact plain | exact fun mem => plain (List.mem_of_mem_drop mem)

theorem head_nul (l : List UInt8) : (l ++ [0]).head? = some (l.headD 0) := by cases l <;> rfl

theorem headD_iff {c : UInt8} (nonzero : c ≠ 0) : l.headD 0 = c ↔ l.head? = some c := by
  cases l with
  | nil => simp [nonzero.symm]
  | cons d l => simp

theorem x_marked_length (mark : x_marked l = true) : 2 ≤ l.length := by
  rcases l with _ | ⟨a,_ | ⟨b,rest⟩⟩
  · cases mark
  · simp [x_marked] at mark
  · simp

theorem select_base_eq : select_base base (l ++ [0]) = some ((code_form base l).1,(code_form base l).2 ++ [0]) := by
  rw [select_base,code_form,head_nul,marked_eq]
  by_cases automatic : base = 0
  · rw [if_pos automatic,if_pos automatic,bind_eq_bind,bind_some,bind_eq_bind,bind_some]
    have first : l.headD 0 = 48 ↔ l.head? = some 48 := headD_iff (by decide)
    by_cases zero : l.head? = some 48
    · rw [if_pos (first.mpr zero),if_pos zero]
      rfl
    · rw [if_neg fun same => zero (first.mp same),if_neg zero]
      rfl
  · rw [if_neg automatic,if_neg automatic]
    by_cases hexadecimal : base = 16
    · rw [if_pos hexadecimal,if_pos hexadecimal,bind_eq_bind,bind_some]
      by_cases mark : x_marked l = true
      · rw [if_pos mark,if_pos mark,List.drop_append_of_le_length (x_marked_length mark)]
        rfl
      · rw [if_neg mark,if_neg mark]
        rfl
    · rw [if_neg hexadecimal,if_neg hexadecimal]
      rfl

/-- The routine reads the number in its own form. -/
theorem strtol_eq (s : Text) (base : Base) : strtol (s.1 ++ [0]) base.1 =
    (int (value (code_form base.1 (body s.1)).1 (code_digits base.1 (body s.1)) 0 : Nat)).map fun _ =>
      (signed s.1 (value (code_form base.1 (body s.1)).1 (code_digits base.1 (body s.1)) 0),code_behind base.1 (body s.1) ++ [0]) := by
  have plain : 0 ∉ body s.1 := by
    have trimmed_plain : 0 ∉ trimmed s.1 := fun mem => s.2 ((List.dropWhile_sublist _).subset mem)
    rw [body]
    split_ifs
    · exact fun mem => trimmed_plain (List.mem_of_mem_tail mem)
    · exact trimmed_plain
  have minus : (trimmed s.1).headD 0 = 45 ↔ (trimmed s.1).head? = some 45 := headD_iff (by decide)
  have plus : (trimmed s.1).headD 0 = 43 ↔ (trimmed s.1).head? = some 43 := headD_iff (by decide)
  have behind_sign : (if (trimmed s.1).headD 0 = 45 ∨ (trimmed s.1).headD 0 = 43 then (trimmed s.1 ++ [0]).tail else trimmed s.1 ++ [0]) =
      body s.1 ++ [0] := by
    rw [body,← if_congr (or_congr minus plus) rfl rfl]
    split_ifs with sign
    · cases split : trimmed s.1 with
      | nil => simp [split] at sign
      | cons c l => rfl
    · rfl
  have read := @read_digits_eq (code_form base.1 (body s.1)).2 (code_form base.1 (body s.1)).1 (code_form_plain plain) form_positive 0 (by decide)
  rw [strtol,skip_spaces_eq,bind_eq_bind,bind_some,← trimmed,head_nul,bind_eq_bind,bind_some]
  simp only [behind_sign,select_base_eq,bind_eq_bind,bind_some]
  rw [Nat.cast_zero] at read
  rw [read,← code_digits,← code_behind,int_nat]
  generalize value (code_form base.1 (body s.1)).1 (code_digits base.1 (body s.1)) 0 = m
  by_cases small : m < 2147483648
  · rw [if_pos small,Option.map_some,bind_some,Option.map_some]
    by_cases sign : (trimmed s.1).headD 0 = 45
    · have is_negative : negative s.1 = true := decide_eq_true (minus.mp sign)
      rw [if_pos sign,int_fits ⟨by omega,by omega⟩,signed,if_pos is_negative]
      rfl
    · have not_negative : ¬negative s.1 = true := fun is_negative => sign (minus.mpr (of_decide_eq_true is_negative))
      rw [if_neg sign,signed,if_neg not_negative]
      rfl
  · rw [if_neg small]
    rfl

end

/-- Where the routine does what the standard prescribes: no letters in a base in which it knows none, no base taken from `0x`
(which it does not skip), no `0x` without a digit and nothing in front of missing digits where the end is wanted, and not the
least number, whose magnitude overflows. -/
structure Clear (s : List UInt8) (base : Nat) (wanted : Bool) : Prop where
  letters : 10 < base → base ≠ 16 → ∀ c ∈ digits base (body s), isdigit c = true
  automatic : base = 0 → hexadecimal (body s) = true → wanted = false ∧ number s base = 0
  bare : base = 16 → x_marked (body s) = true → hexadecimal (body s) = false → wanted = false
  missing : digits base (body s) = [] → wanted = true → body s = s
  least : number s base ≠ -2147483648

section
variable {l : List UInt8} {base : Nat} {c : UInt8}

theorem digit_value_cases (c : UInt8) : (48 ≤ c.toNat ∧ c.toNat ≤ 57 ∧ digit_value c = c.toNat - 48) ∨
    (97 ≤ c.toNat ∧ c.toNat ≤ 122 ∧ digit_value c = c.toNat - 87) ∨ (65 ≤ c.toNat ∧ c.toNat ≤ 90 ∧ digit_value c = c.toNat - 55) ∨
    (¬(48 ≤ c.toNat ∧ c.toNat ≤ 57) ∧ ¬(97 ≤ c.toNat ∧ c.toNat ≤ 122) ∧ ¬(65 ≤ c.toNat ∧ c.toNat ≤ 90) ∧
      digit_value c = 36) := by
  by_cases number : isdigit c = true
  · exact .inl ⟨(isdigit_iff.mp number).1,(isdigit_iff.mp number).2,digit_value_number number⟩
  · by_cases lower : 97 ≤ c.toNat ∧ c.toNat ≤ 122
    · exact .inr (.inl ⟨lower.1,lower.2,digit_value_lower lower.1 lower.2⟩)
    · by_cases upper : 65 ≤ c.toNat ∧ c.toNat ≤ 90
      · exact .inr (.inr (.inl ⟨upper.1,upper.2,digit_value_upper upper.1 upper.2⟩))
      · refine .inr (.inr (.inr ⟨mt isdigit_iff.mpr number,lower,upper,?_⟩))
        have no_lower : ¬((97 ≤ c && c ≤ 122) = true) := by simpa [UInt8.le_iff_toNat_le] using lower
        have no_upper : ¬((65 ≤ c && c ≤ 90) = true) := by simpa [UInt8.le_iff_toNat_le] using upper
        rw [digit_value,if_neg number,if_neg no_lower,if_neg no_upper]

theorem isdigit_below : isdigit c = true ↔ digit_value c < 10 := by
  have := digit_value_cases c
  rw [isdigit_iff]
  omega

theorem isxdigit_below : isxdigit c = true ↔ digit_value c < 16 := by
  have := digit_value_cases c
  rw [isxdigit_iff,isdigit_iff]
  omega

/-- In these bases the loop takes the digits of the base. -/
theorem taken_below (known : base ≤ 10 ∨ base = 16) : taken base c = decide (digit_value c < base) := by
  rw [Bool.eq_iff_iff]
  simp only [taken,Bool.and_eq_true,Bool.or_eq_true,decide_eq_true_eq,isdigit_below,isxdigit_below]
  omega

/-- In others it takes numbers alone. -/
theorem taken_number (more : 10 < base) (other : base ≠ 16) : taken base c = isdigit c := by
  rw [Bool.eq_iff_iff]
  simp only [taken,Bool.and_eq_true,Bool.or_eq_true,decide_eq_true_eq,isdigit_below,isxdigit_below]
  omega

theorem mark_value (mark : (c = 120 || c = 88) = true) : digit_value c = 33 := by
  obtain rfl | rfl : c = 120 ∨ c = 88 := by simpa using mark
  · decide
  · decide

/-- What a mark is. -/
theorem x_marked_eq (mark : x_marked l = true) : ∃ x rest, l = 48 :: x :: rest ∧ (x = 120 || x = 88) = true := by
  unfold x_marked at mark
  split at mark
  · exact ⟨_,_,rfl,mark⟩
  · cases mark

theorem hexadecimal_eq (hex : hexadecimal l = true) :
    ∃ x d rest, l = 48 :: x :: d :: rest ∧ (x = 120 || x = 88) = true ∧ digit_value d < 16 := by
  rw [hexadecimal,Bool.and_eq_true] at hex
  obtain ⟨x,rest,rfl,mark⟩ := x_marked_eq hex.1
  cases rest with
  | nil => cases hex.2
  | cons d rest => exact ⟨x,d,rest,rfl,mark,of_decide_eq_true hex.2⟩

theorem x_marked_cons {x : UInt8} (mark : (x = 120 || x = 88) = true) (rest : List UInt8) : x_marked (48 :: x :: rest) = true := mark

/-- A mark that is no part of the number: a zero, and what cannot go on with it. -/
theorem zero_digits {x : UInt8} (rest : List UInt8) {f : UInt8 → Bool} (zero : f 48 = true) (stops : f x = false) :
    (48 :: x :: rest).takeWhile f = [48] ∧ (48 :: x :: rest).dropWhile f = x :: rest := by
  simp [zero,stops]

theorem missing_behind (missing : digits base l = []) : behind base l = l := by
  by_cases hex : (base = 0 ∨ base = 16) ∧ hexadecimal l = true
  · obtain ⟨x,d,rest,rfl,-,below⟩ := hexadecimal_eq hex.2
    rw [digits,form,if_pos hex] at missing
    simp [below] at missing
  · have whole : (form base l).2 = l := by
      rw [form,if_neg hex]
      split_ifs <;> rfl
    have joined := List.takeWhile_append_dropWhile (p := (digit_value · < (form base l).1)) (l := (form base l).2)
    rw [← digits,missing,List.nil_append,whole] at joined
    rw [behind,whole]
    exact joined

end

/-- Value and end of the routine are those of the standard. -/
def Agrees (s : List UInt8) (base : Nat) (wanted : Bool) : Prop :=
  value (code_form base (body s)).1 (code_digits base (body s)) 0 = magnitude base (body s) ∧
    (wanted = true → code_behind base (body s) = end_pointer s base)

/-- What the forms of the numbers have to do with that. -/
structure Matches (s : List UInt8) (base : Nat) (wanted : Bool) : Prop where
  letters : 10 < base → base ≠ 16 → ∀ c ∈ digits base (body s), isdigit c = true
  automatic : base = 0 → hexadecimal (body s) = true → wanted = false ∧ magnitude base (body s) = 0
  bare : base = 16 → x_marked (body s) = true → hexadecimal (body s) = false → wanted = false
  missing : digits base (body s) = [] → wanted = true → body s = s

section
variable {s : List UInt8} {base : Nat} {wanted : Bool}

/-- The end when the routine takes the same digits. -/
theorem agrees_same (same_digits : code_digits base (body s) = digits base (body s)) (same_behind : code_behind base (body s) = behind base (body s))
    (same_value : value (code_form base (body s)).1 (digits base (body s)) 0 = magnitude base (body s)) :
    Agrees s base wanted ↔ (digits base (body s) = [] → wanted = true → body s = s) := by
  rw [Agrees,same_digits,same_behind,end_pointer]
  by_cases missing : digits base (body s) = []
  · rw [if_pos missing,missing_behind missing]
    exact ⟨fun both _ => both.2,fun end_ => ⟨same_value,end_ missing⟩⟩
  · rw [if_neg missing]
    exact iff_of_true ⟨same_value,fun _ => rfl⟩ fun empty => (missing empty).elim

theorem agrees_form (same : code_form base (body s) = form base (body s)) (known : (form base (body s)).1 ≤ 10 ∨ (form base (body s)).1 = 16) :
    Agrees s base wanted ↔ (digits base (body s) = [] → wanted = true → body s = s) := by
  refine agrees_same ?_ ?_ ?_
  · rw [code_digits,same,digits]
    exact congrArg (List.takeWhile · _) (funext fun c => taken_below known)
  · rw [code_behind,same,behind]
    exact congrArg (List.dropWhile · _) (funext fun c => taken_below known)
  · rw [same,magnitude]

theorem mark_stops {x : UInt8} (mark : (x = 120 || x = 88) = true) (known : base ≤ 10 ∨ base = 16) : taken base x = false := by
  rw [taken_below known,mark_value mark]
  exact decide_eq_false (by omega)

/-- In base 0 the mark of a hexadecimal number is not skipped. -/
theorem agrees_automatic (hex : hexadecimal (body s) = true) : Agrees s 0 wanted ↔ wanted = false ∧ magnitude 0 (body s) = 0 := by
  obtain ⟨x,d,rest,body_eq,mark,below⟩ := hexadecimal_eq hex
  have read := zero_digits (d :: rest) (show taken 16 48 = true by decide) (mark_stops mark (.inr rfl))
  have code_eq : code_form 0 (body s) = (16,body s) := by
    rw [code_form,if_pos rfl,body_eq,x_marked_cons mark]
    rfl
  have form_eq : form 0 (body s) = (16,d :: rest) := by
    rw [form,if_pos ⟨.inl rfl,hex⟩,body_eq]
    rfl
  have some_digit : digits 0 (body s) ≠ [] := by
    rw [digits,form_eq]
    simp [below]
  have other_end : code_behind 0 (body s) ≠ end_pointer s 0 := by
    rw [code_behind,code_eq,end_pointer,if_neg some_digit,behind,form_eq,body_eq,read.2]
    intro same
    have := congrArg List.length same
    have := (List.dropWhile_sublist (digit_value · < 16) (l := d :: rest)).length_le
    simp at *
    omega
  rw [Agrees,code_digits,code_eq]
  dsimp only
  rw [body_eq,read.1,← body_eq,show value 16 [48] 0 = 0 by decide,eq_comm (a := 0)]
  cases wanted with
  | false => simp
  | true => simp [other_end]

/-- A mark without a digit behind it is skipped in base 16. -/
theorem agrees_bare (mark : x_marked (body s) = true) (no_digit : hexadecimal (body s) = false) : Agrees s 16 wanted ↔ wanted = false := by
  obtain ⟨x,rest,body_eq,is_mark⟩ := x_marked_eq mark
  have code_eq : code_form 16 (body s) = (16,rest) := by
    rw [code_form,if_neg (by decide),if_pos rfl,body_eq,x_marked_cons is_mark]
    rfl
  have form_eq : form 16 (body s) = (16,body s) := by
    rw [form,if_neg (by simp [no_digit]),if_neg (by decide)]
  have stops : decide (digit_value x < 16) = false := by rw [mark_value is_mark]; rfl
  have read := @zero_digits x rest (digit_value · < 16) (by decide) stops
  have digits_eq : digits 16 (body s) = [48] := by
    rw [digits,form_eq]
    dsimp only
    rw [body_eq]
    exact read.1
  have behind_eq : behind 16 (body s) = x :: rest := by
    rw [behind,form_eq]
    dsimp only
    rw [body_eq]
    exact read.2
  have none_taken : rest.takeWhile (taken 16) = [] ∧ rest.dropWhile (taken 16) = rest := by
    cases rest with
    | nil => exact ⟨rfl,rfl⟩
    | cons d rest =>
      have no_hex : taken 16 d = false := by
        rw [taken_below (.inr rfl)]
        rw [hexadecimal,mark,body_eq] at no_digit
        exact no_digit
      simp [no_hex]
  rw [Agrees,code_digits,code_behind,magnitude,end_pointer,digits_eq,behind_eq,code_eq,form_eq]
  dsimp only
  rw [none_taken.1,none_taken.2,show value 16 [] 0 = value 16 [48] 0 by decide]
  cases wanted with
  | false => simp
  | true =>
    refine iff_of_false (fun both => ?_) (by decide)
    have := congrArg List.length (both.2 rfl)
    simp at this

theorem value_append (ds es : List UInt8) (v : Nat) : value base (ds ++ es) v = value base es (value base ds v) := List.foldl_append

theorem takeWhile_inner {p q : UInt8 → Bool} (weaker : ∀ c, p c = true → q c = true) (l : List UInt8) :
    (l.takeWhile q).takeWhile p = l.takeWhile p := by
  rw [List.takeWhile_takeWhile]
  refine congrArg (List.takeWhile · l) (funext fun c => ?_)
  rw [Bool.eq_iff_iff,decide_eq_true_iff]
  exact ⟨And.left,fun holds => ⟨holds,weaker c holds⟩⟩

/-- In a base with letters the loop stops in front of the first letter. -/
theorem agrees_letters (more : 10 < base) (other : base ≠ 16) :
    Agrees s base wanted ↔ (∀ c ∈ digits base (body s), isdigit c = true) ∧ (digits base (body s) = [] → wanted = true → body s = s) := by
  have code_eq : code_form base (body s) = (base,body s) := by
    rw [code_form,if_neg (by omega),if_neg other]
  have form_eq : form base (body s) = (base,body s) := by
    rw [form,if_neg (by omega),if_neg (by omega)]
  have takes : taken base = isdigit := funext fun c => taken_number more other
  have weaker : ∀ c, isdigit c = true → decide (digit_value c < base) = true := fun c number =>
    decide_eq_true ((isdigit_below.mp number).trans more)
  have taken_eq : code_digits base (body s) = (digits base (body s)).takeWhile isdigit := by
    rw [code_digits,code_eq,digits,form_eq]
    dsimp only
    rw [takes,takeWhile_inner weaker]
  by_cases all : ∀ c ∈ digits base (body s), isdigit c = true
  · have same : code_digits base (body s) = digits base (body s) := by
      rw [taken_eq]
      exact List.takeWhile_eq_self_iff.mpr all
    have same_behind : code_behind base (body s) = behind base (body s) := by
      have whole : code_digits base (body s) ++ code_behind base (body s) = digits base (body s) ++ behind base (body s) := by
        rw [code_digits,code_behind,code_eq,List.takeWhile_append_dropWhile,digits,behind,form_eq,List.takeWhile_append_dropWhile]
      rw [same] at whole
      exact List.append_cancel_left whole
    rw [agrees_same same same_behind (by rw [code_eq,magnitude,form_eq])]
    exact ⟨fun missing => ⟨all,missing⟩,fun both => both.2⟩
  · refine iff_of_false (fun agrees => ?_) fun both => all both.1
    have split := List.takeWhile_append_dropWhile (p := isdigit) (l := digits base (body s))
    cases letters : (digits base (body s)).dropWhile isdigit with
    | nil =>
      rw [letters,List.append_nil] at split
      exact all (List.takeWhile_eq_self_iff.mp split)
    | cons c later =>
      have letter : ¬isdigit c = true := by
        have stopped := List.head?_dropWhile_not isdigit (digits base (body s))
        rw [letters] at stopped
        simpa using stopped
      have large : 10 ≤ digit_value c := Nat.le_of_not_lt (mt isdigit_below.mpr letter)
      rw [letters] at split
      have value_eq := agrees.1
      rw [magnitude,form_eq,code_eq] at value_eq
      dsimp only at value_eq
      rw [taken_eq] at value_eq
      have longer : value base (digits base (body s)) 0 =
          value base later (value base ((digits base (body s)).takeWhile isdigit) 0 * base + digit_value c) := by
        conv_lhs => rw [← split,value_append]
        rfl
      have grows := value_grows later (value base ((digits base (body s)).takeWhile isdigit) 0 * base + digit_value c) (show 0 < base by omega)
      have enough := Nat.le_mul_of_pos_right (value base ((digits base (body s)).takeWhile isdigit) 0) (show 0 < base by omega)
      omega

/-- Nothing of a number is in front of a form that keeps the mark. -/
theorem agrees_octal (no_digit : ¬hexadecimal (body s) = true) :
    Agrees s 0 wanted ↔ (digits 0 (body s) = [] → wanted = true → body s = s) := by
  have form_eq : form 0 (body s) = (if (body s).head? = some 48 then 8 else 10,body s) := by
    rw [form,if_neg (by simp [no_digit]),if_pos rfl]
  by_cases mark : x_marked (body s) = true
  · obtain ⟨x,rest,body_eq,is_mark⟩ := x_marked_eq mark
    have octal : form 0 (body s) = (8,body s) := by
      rw [form_eq,body_eq]
      rfl
    have code_eq : code_form 0 (body s) = (16,body s) := by
      rw [code_form,if_pos rfl,body_eq,x_marked_cons is_mark]
      rfl
    have read := zero_digits rest (show taken 16 48 = true by decide) (mark_stops is_mark (.inr rfl))
    have stops : decide (digit_value x < 8) = false := by rw [mark_value is_mark]; rfl
    have standard := @zero_digits x rest (digit_value · < 8) (by decide) stops
    have digits_eq : digits 0 (body s) = [48] := by
      rw [digits,octal]
      dsimp only
      rw [body_eq]
      exact standard.1
    refine agrees_same ?_ ?_ ?_
    · rw [digits_eq,code_digits,code_eq]
      dsimp only
      rw [body_eq]
      exact read.1
    · rw [code_behind,code_eq,behind,octal]
      dsimp only
      rw [body_eq]
      exact read.2.trans standard.2.symm
    · rw [magnitude,digits_eq,code_eq,octal]
      rfl
  · refine agrees_form ?_ ?_
    · rw [form_eq,code_form,if_pos rfl,if_neg mark]
    · rw [form_eq]
      split_ifs <;> simp

theorem agrees_iff : Agrees s base wanted ↔ Matches s base wanted := by
  by_cases automatic : base = 0
  · subst automatic
    by_cases hex : hexadecimal (body s) = true
    · rw [agrees_automatic hex]
      refine ⟨fun both => ⟨nofun,fun _ _ => both,nofun,fun _ is_wanted => ?_⟩,fun matches_ => matches_.automatic rfl hex⟩
      rw [both.1] at is_wanted
      cases is_wanted
    · rw [agrees_octal hex]
      exact ⟨fun missing => ⟨nofun,fun _ is_hex => (hex is_hex).elim,nofun,missing⟩,Matches.missing⟩
  · by_cases hexadecimal_base : base = 16
    · subst hexadecimal_base
      by_cases bare : x_marked (body s) = true ∧ hexadecimal (body s) = false
      · rw [agrees_bare bare.1 bare.2]
        refine ⟨fun unwanted => ⟨fun _ other => (other rfl).elim,nofun,fun _ _ _ => unwanted,fun _ is_wanted => ?_⟩,
          fun matches_ => matches_.bare rfl bare.1 bare.2⟩
        rw [unwanted] at is_wanted
        cases is_wanted
      · have same : code_form 16 (body s) = form 16 (body s) := by
          rw [code_form,if_neg automatic,if_pos rfl,form]
          by_cases hex : hexadecimal (body s) = true
          · have mark : x_marked (body s) = true := (Bool.and_eq_true_iff.mp hex).1
            rw [if_pos mark,if_pos ⟨.inr rfl,hex⟩]
          · have no_mark : ¬x_marked (body s) = true := fun mark => bare ⟨mark,Bool.eq_false_of_not_eq_true hex⟩
            rw [if_neg no_mark,if_neg fun both => hex both.2,if_neg automatic]
        have known : (form 16 (body s)).1 = 16 := by
          rw [← same,code_form,if_neg automatic,if_pos rfl]
        rw [agrees_form same (.inr known)]
        exact ⟨fun missing => ⟨fun _ other => (other rfl).elim,nofun,fun _ mark no_digit => (bare ⟨mark,no_digit⟩).elim,missing⟩,
          Matches.missing⟩
    · by_cases more : 10 < base
      · rw [agrees_letters more hexadecimal_base]
        exact ⟨fun both => ⟨fun _ _ => both.1,fun zero => (automatic zero).elim,fun sixteen => (hexadecimal_base sixteen).elim,both.2⟩,
          fun matches_ => ⟨matches_.letters more hexadecimal_base,matches_.missing⟩⟩
      · have same : code_form base (body s) = form base (body s) := by
          rw [code_form,if_neg automatic,if_neg hexadecimal_base,form,if_neg (by omega),if_neg automatic]
        have known : (form base (body s)).1 ≤ 10 ∨ (form base (body s)).1 = 16 := by
          rw [← same,code_form,if_neg automatic,if_neg hexadecimal_base]
          exact .inl (Nat.le_of_not_lt more)
        rw [agrees_form same known]
        exact ⟨fun missing => ⟨fun large => (more large).elim,fun zero => (automatic zero).elim,
          fun sixteen => (hexadecimal_base sixteen).elim,missing⟩,
          Matches.missing⟩

theorem signed_zero (m : Nat) : signed s m = 0 ↔ m = 0 := by
  rw [signed]
  split_ifs <;> omega

theorem clear_iff : Clear s base wanted ↔ Matches s base wanted ∧ number s base ≠ -2147483648 := by
  have zero : number s base = 0 ↔ magnitude base (body s) = 0 := signed_zero _
  constructor
  · rintro ⟨letters,automatic,bare,missing,least⟩
    exact ⟨⟨letters,fun is_zero hex => ⟨(automatic is_zero hex).1,zero.mp (automatic is_zero hex).2⟩,bare,missing⟩,least⟩
  · rintro ⟨⟨letters,automatic,bare,missing⟩,least⟩
    exact ⟨letters,fun is_zero hex => ⟨(automatic is_zero hex).1,zero.mpr (automatic is_zero hex).2⟩,bare,missing,least⟩

end

theorem right_clear (s : Text) (base : Base) (wanted : Bool) :
    Right s base wanted ↔ (Fits (number s.1 base.1) → Clear s.1 base.1 wanted) := by
  refine forall_congr' fun fits => ?_
  rw [clear_iff,← agrees_iff,strtol_eq,int_nat,number,Agrees]
  rw [number] at fits
  generalize value (code_form base.1 (body s.1)).1 (code_digits base.1 (body s.1)) 0 = n
  have small : magnitude base.1 (body s.1) < 2147483648 ↔ signed s.1 (magnitude base.1 (body s.1)) ≠ -2147483648 := by
    rw [signed] at fits ⊢
    have := fits.1
    have := fits.2
    split_ifs at * <;> omega
  constructor
  · rintro ⟨p,ran,ends⟩
    split_ifs at ran with below
    · obtain ⟨same,rfl⟩ := Prod.mk.inj (Option.some.inj ran)
      have equal : n = magnitude base.1 (body s.1) := by
        rw [signed,signed] at same
        split_ifs at same <;> omega
      rw [equal] at below
      exact ⟨⟨equal,fun is_wanted => List.append_cancel_right (ends is_wanted)⟩,small.mp below⟩
    · cases ran
  · rintro ⟨⟨rfl,ends⟩,least⟩
    rw [if_pos (small.mpr least)]
    exact ⟨_,rfl,fun is_wanted => by rw [ends is_wanted]⟩

/-- A number that fits is read as the standard prescribes exactly where the routine knows its digits and skips its mark. -/
theorem numbers_read (s : Text) (base : Base) (wanted : Bool) :
    Right s base wanted ↔ (Fits (number s.1 base.1) → Clear s.1 base.1 wanted) := right_clear s base wanted

/-- `0x1f` -/
def marked_number : Text := ⟨[48,120,49,102],by decide⟩

/-- With base 0 a hexadecimal number is read as 0. -/
theorem marked_number_lost : ¬∀ (s : Text) (base : Base) (wanted : Bool), Right s base wanted := by
  intro always
  have clear := (right_clear marked_number ⟨0,.inl rfl⟩ false).mp (always _ _ _) (by decide)
  exact absurd (clear.automatic rfl (by decide)).2 (by decide)

end MicroOS.Strtol

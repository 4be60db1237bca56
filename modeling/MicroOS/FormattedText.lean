import MicroOS.Formatting

/-!
When the kernel's and libc's formatted output is the text the C standard
prescribes, and when the callers with a buffer of their own stay inside it.
-/
namespace MicroOS.FormattedText
open Memory Strings Formatting
open Option (bind_some map_eq_some_iff map_some)

variable {pieces : List Piece} {args : List Arg}

theorem plain_of_matches (typed : Matches pieces args) : Plain pieces := by
  induction typed with
  | done args => simp [Plain]
  | literal nonzero other rest plain =>
    intro c member
    rcases List.mem_cons.mp member with same | later
    · injection same with same
      subst same
      exact ⟨nonzero,other⟩
    · exact plain c later
  | percent rest plain => exact fun c member => plain c (by simpa using member)
  | string nonzero rest plain => exact fun c member => plain c (by simpa using member)
  | word not_text not_sign rest plain => exact fun c member => plain c (by simpa using member)

theorem text_word (signs : Signs) {k : Conv} (w : BitVec 32) (pieces : List Piece) (args : List Arg)
    (not_sign : k ≠ .percent) :
    text signs (.conv k :: pieces) (.word w :: args) = value_text signs k (.word w) ++ text signs pieces args := by
  cases k <;> simp_all [text]

theorem words_word (wanted : Conv) {k : Conv} (w : BitVec 32) (pieces : List Piece) (args : List Arg)
    (not_sign : k ≠ .percent) : words wanted (.conv k :: pieces) (.word w :: args)
      = if k = wanted then w :: words wanted pieces args else words wanted pieces args := by
  cases k <;> simp_all [words]

theorem kernel_value (k : Conv) (w : BitVec 32) (args : List Arg) (not_text : k ≠ .string) (not_sign : k ≠ .percent) :
    conversion kernel_printers k.letter (.word w :: args) = some (value_text kernel_signs k (.word w),args) := by
  have decimal := @kernel_print_num_text w 10 (by decide) (by decide)
  have hex := @kernel_print_num_text w 16 (by decide) (by decide)
  cases k <;>
    simp_all [conversion,Conv.letter,word_arg,value_text,kernel_printers,kernel_signs,number_text]

theorem kernel_rendered (typed : Matches pieces args) :
    rendered kernel_printers pieces args = some (text kernel_signs pieces args) := by
  induction typed with
  | done args => simp [rendered,text]
  | literal nonzero other rest step => simp [rendered,piece_text,text,step]
  | percent rest step => simp [rendered,piece_text,text,conversion,Conv.letter,step]
  | string nonzero rest step => simp [rendered,piece_text,text,conversion,Conv.letter,text_arg,value_text,step]
  | @word k w pieces args not_text not_sign rest step =>
    rw [text_word _ _ _ _ not_sign,rendered,piece_text,kernel_value k w args not_text not_sign]
    simp [step]

/-- libc's number printer has no result for the least word under `%d` or `%u`. -/
def Least (k : Conv) (w : BitVec 32) : Prop := (k = .decimal ∨ k = .unsigned) ∧ w = BitVec.intMin 32

theorem libc_value (k : Conv) (w : BitVec 32) (args : List Arg) (not_text : k ≠ .string) (not_sign : k ≠ .percent)
    (fine : ¬ Least k w) :
    conversion libc_printers k.letter (.word w :: args) = some (value_text libc_signs k (.word w),args) := by
  have decimal := print_num_text w
  have hex := @print_num_unsigned_text w 16 (by decide) (by decide)
  cases k <;>
    simp_all [conversion,Conv.letter,word_arg,value_text,libc_printers,libc_signs,number_text,Least]

theorem libc_least (k : Conv) (w : BitVec 32) (args : List Arg) (least : Least k w) :
    conversion libc_printers k.letter (.word w :: args) = none := by
  obtain ⟨kind,rfl⟩ := least
  have decimal := print_num_text (BitVec.intMin 32)
  rw [if_pos rfl] at decimal
  rcases kind with rfl | rfl
  · simp [conversion,Conv.letter,word_arg,libc_printers,decimal]
  · simp [conversion,Conv.letter,word_arg,libc_printers,decimal]

/-- No `%d` or `%u` gets the least word. -/
def NoLeast (pieces : List Piece) (args : List Arg) : Prop :=
  (∀ w ∈ words .decimal pieces args, w ≠ BitVec.intMin 32) ∧ (∀ w ∈ words .unsigned pieces args, w ≠ BitVec.intMin 32)

theorem no_least_word {k : Conv} {w : BitVec 32} {pieces : List Piece} {args : List Arg} (not_sign : k ≠ .percent) :
    NoLeast (.conv k :: pieces) (.word w :: args) ↔ ¬ Least k w ∧ NoLeast pieces args := by
  simp only [NoLeast,words_word _ _ _ _ not_sign]
  cases k <;> simp_all [Least,and_assoc,and_left_comm]

theorem libc_rendered (typed : Matches pieces args) :
    (NoLeast pieces args → rendered libc_printers pieces args = some (text libc_signs pieces args)) ∧
    (¬ NoLeast pieces args → rendered libc_printers pieces args = none) := by
  induction typed with
  | done args => simp [rendered,text,NoLeast,words]
  | literal nonzero other rest step =>
    constructor
    · intro fine
      simp [rendered,piece_text,text,step.1 (by simpa [NoLeast,words] using fine)]
    · intro least
      simp [rendered,piece_text,step.2 (by simpa [NoLeast,words] using least)]
  | percent rest step =>
    constructor
    · intro fine
      simp [rendered,piece_text,text,conversion,Conv.letter,step.1 (by simpa [NoLeast,words] using fine)]
    · intro least
      simp [rendered,piece_text,conversion,Conv.letter,step.2 (by simpa [NoLeast,words] using least)]
  | string nonzero rest step =>
    constructor
    · intro fine
      simp [rendered,piece_text,text,conversion,Conv.letter,text_arg,value_text,step.1 (by simpa [NoLeast,words] using fine)]
    · intro least
      simp [rendered,piece_text,conversion,Conv.letter,text_arg,step.2 (by simpa [NoLeast,words] using least)]
  | @word k w pieces args not_text not_sign rest step =>
    rw [no_least_word not_sign,rendered,piece_text]
    by_cases here : Least k w
    · rw [libc_least k w args here]
      simp [here]
    · rw [libc_value k w args not_text not_sign here,text_word _ _ _ _ not_sign]
      constructor
      · intro fine
        simp [step.1 fine.2]
      · intro least
        simp [step.2 (by simpa [here] using least)]

variable {n fuel a i : Nat} {printers : Printers}

theorem numeral_digits {base : Nat} (two : 1 < base) (small : base ≤ 16) : ∀ c ∈ numeral base n, c ∈ digits := by
  have known {d : Nat} (below : d < base) : UInt8.ofNat (Nat.digitChar d).toNat ∈ digits :=
    List.mem_of_getElem? (digit_of_char (lt_of_lt_of_le below small))
  induction n using Nat.strong_induction_on with
  | _ n step =>
    intro c member
    by_cases below : n < base
    · rw [numeral_below below,List.mem_singleton] at member
      rw [member]
      exact known below
    · rw [numeral_above two (by omega)] at member
      rcases List.mem_append.mp member with early | last
      · exact step (n / base) (Nat.div_lt_self (by omega) two) c early
      · rw [List.mem_singleton.mp last]
        exact known (Nat.mod_lt n (by omega))

theorem numeral_cons {base n : Nat} (two : 1 < base) (small : base ≤ 16) :
    ∃ d rest, numeral base n = d :: rest ∧ d ∈ digits := by
  cases shape : numeral base n with
  | nil => exact absurd (List.map_eq_nil_iff.mp shape) Nat.toDigits_ne_nil
  | cons d rest =>
    have member : d ∈ numeral base n := by
      rw [shape]
      exact List.mem_cons_self
    exact ⟨d,rest,rfl,numeral_digits two small d member⟩

theorem number_text_nonzero (signed : Bool) (w : BitVec 32) : ∀ c ∈ number_text signed w, c ≠ 0 := by
  have digit {n : Nat} {c : UInt8} (member : c ∈ numeral 10 n) : c ≠ 0 := by
    rintro rfl
    exact absurd (numeral_digits (by decide) (by decide) 0 member) (by decide)
  intro c member
  simp only [number_text,signed_text] at member
  split at member
  · split at member
    · rcases List.mem_cons.mp member with rfl | later
      · decide
      · exact digit later
    · exact digit member
  · exact digit member

theorem number_text_nonnegative {w : BitVec 32} (nonnegative : 0 ≤ w.toInt) (signed signed' : Bool) :
    number_text signed w = number_text signed' w := by
  have value : w.toInt.natAbs = w.toNat := by
    have size := w.isLt
    rw [BitVec.toInt_eq_toNat_cond] at nonnegative ⊢
    split at nonnegative
    · rw [if_pos ‹_›]
      omega
    · omega
  have same : signed_text w.toInt = numeral 10 w.toNat := by
    rw [signed_text,if_neg (by omega),value]
  cases signed <;> cases signed' <;> simp [number_text,same]

/-- The two texts differ at a place that both have. -/
def Parts (s t : List UInt8) : Prop := ∃ (i : Nat) (b b' : UInt8), s[i]? = some b ∧ t[i]? = some b' ∧ b ≠ b'

theorem Parts.append {s t : List UInt8} (parts : Parts s t) (head : List UInt8) : Parts (head ++ s) (head ++ t) := by
  obtain ⟨i,b,b',left,right,differ⟩ := parts
  refine ⟨head.length + i,b,b',?_,?_,differ⟩
  · rw [List.getElem?_append_right (by omega),Nat.add_sub_cancel_left]
    exact left
  · rw [List.getElem?_append_right (by omega),Nat.add_sub_cancel_left]
    exact right

/-- A negative word read with its sign starts with '-', and read without it with a digit. -/
theorem number_text_parts {w : BitVec 32} (negative : w.toInt < 0) {signed signed' : Bool} (differ : signed ≠ signed')
    (s t : List UInt8) : Parts (number_text signed w ++ s) (number_text signed' w ++ t) := by
  obtain ⟨d,rest,shape,digit⟩ := @numeral_cons 10 w.toNat (by decide) (by decide)
  have other : d ≠ 45 := by
    rintro rfl
    exact absurd digit (by decide)
  cases signed with
  | true =>
    have plain : signed' = false := by simpa using differ.symm
    exact ⟨0,45,d,by simp [number_text,signed_text,negative],by simp [number_text,plain,shape],other.symm⟩
  | false =>
    have minus : signed' = true := by simpa using differ.symm
    exact ⟨0,d,45,by simp [number_text,shape],by simp [number_text,signed_text,minus,negative],other⟩

/-- No word that the two readings read differently is negative. -/
def Alike (signs signs' : Signs) (pieces : List Piece) (args : List Arg) : Prop :=
  (signs.decimal ≠ signs'.decimal → ∀ w ∈ words .decimal pieces args, 0 ≤ w.toInt) ∧
  (signs.unsigned ≠ signs'.unsigned → ∀ w ∈ words .unsigned pieces args, 0 ≤ w.toInt)

theorem alike_word {signs signs' : Signs} {k : Conv} {w : BitVec 32} {pieces : List Piece} {args : List Arg}
    (not_sign : k ≠ .percent) : Alike signs signs' (.conv k :: pieces) (.word w :: args) ↔
      Alike signs signs' pieces args ∧ (k = .decimal → signs.decimal ≠ signs'.decimal → 0 ≤ w.toInt) ∧
      (k = .unsigned → signs.unsigned ≠ signs'.unsigned → 0 ≤ w.toInt) := by
  simp only [Alike,words_word _ _ _ _ not_sign]
  cases k <;> simp_all <;> tauto

theorem value_text_alike {signs signs' : Signs} {k : Conv} {w : BitVec 32}
    (decimal : k = .decimal → signs.decimal ≠ signs'.decimal → 0 ≤ w.toInt)
    (unsigned : k = .unsigned → signs.unsigned ≠ signs'.unsigned → 0 ≤ w.toInt) :
    value_text signs k (.word w) = value_text signs' k (.word w) := by
  cases k with
  | decimal =>
    by_cases same : signs.decimal = signs'.decimal
    · simp [value_text,same]
    · exact number_text_nonnegative (decimal rfl same) _ _
  | unsigned =>
    by_cases same : signs.unsigned = signs'.unsigned
    · simp [value_text,same]
    · exact number_text_nonnegative (unsigned rfl same) _ _
  | string => rfl
  | char => rfl
  | hex => rfl
  | pointer => rfl
  | percent => rfl

/-- Two readings of one format are equal exactly when no word they read
    differently is negative; otherwise they part. -/
theorem text_alike_or_parts (signs signs' : Signs) (typed : Matches pieces args) :
    (Alike signs signs' pieces args ∧ text signs pieces args = text signs' pieces args) ∨
    (¬ Alike signs signs' pieces args ∧ Parts (text signs pieces args) (text signs' pieces args)) := by
  induction typed with
  | done args => exact Or.inl (by simp [Alike,words,text])
  | @literal b pieces args nonzero other rest step =>
    have same : Alike signs signs' (.literal b :: pieces) args = Alike signs signs' pieces args := rfl
    rw [same]
    apply step.imp
    · rintro ⟨alike,equal⟩
      exact ⟨alike,congrArg (b :: ·) equal⟩
    · rintro ⟨unlike,parts⟩
      exact ⟨unlike,parts.append [b]⟩
  | @percent pieces args rest step =>
    have same : Alike signs signs' (.conv .percent :: pieces) args = Alike signs signs' pieces args := by
      simp [Alike,words]
    rw [same]
    apply step.imp
    · rintro ⟨alike,equal⟩
      exact ⟨alike,by simp [text,equal]⟩
    · rintro ⟨unlike,parts⟩
      exact ⟨unlike,by simpa [text] using parts.append [37]⟩
  | @string s pieces args nonzero rest step =>
    have same : Alike signs signs' (.conv .string :: pieces) (.text s :: args) = Alike signs signs' pieces args := by
      simp [Alike,words]
    rw [same]
    apply step.imp
    · rintro ⟨alike,equal⟩
      exact ⟨alike,by simp [text,value_text,equal]⟩
    · rintro ⟨unlike,parts⟩
      exact ⟨unlike,by simpa [text,value_text] using parts.append s⟩
  | @word k w pieces args not_text not_sign rest step =>
    rw [alike_word not_sign,text_word _ _ _ _ not_sign,text_word _ _ _ _ not_sign]
    by_cases decimal : k = .decimal → signs.decimal ≠ signs'.decimal → 0 ≤ w.toInt
    · by_cases unsigned : k = .unsigned → signs.unsigned ≠ signs'.unsigned → 0 ≤ w.toInt
      · rw [value_text_alike decimal unsigned]
        apply step.imp
        · rintro ⟨alike,equal⟩
          exact ⟨⟨alike,decimal,unsigned⟩,by rw [equal]⟩
        · rintro ⟨unlike,parts⟩
          exact ⟨fun all => unlike all.1,parts.append _⟩
      · refine Or.inr ⟨fun all => unsigned all.2.2,?_⟩
        push Not at unsigned
        obtain ⟨rfl,differ,negative⟩ := unsigned
        exact number_text_parts negative differ _ _
    · refine Or.inr ⟨fun all => decimal all.2.1,?_⟩
      push Not at decimal
      obtain ⟨rfl,differ,negative⟩ := decimal
      exact number_text_parts negative differ _ _

/-- The text holds a zero byte exactly when a `%c` puts one there. -/
theorem text_nonzero (signs : Signs) (typed : Matches pieces args) :
    (∀ c ∈ text signs pieces args, c ≠ 0) ↔ ∀ w ∈ words .char pieces args, UInt8.ofNat w.toNat ≠ 0 := by
  induction typed with
  | done args => simp [text,words]
  | literal nonzero other rest step => simpa [text,words,nonzero] using step
  | percent rest step => simpa [text,words] using step
  | string nonzero rest step =>
    simp only [text,words,value_text,List.mem_append,or_imp,forall_and,step]
    exact and_iff_right nonzero
  | @word k w pieces args not_text not_sign rest step =>
    rw [text_word _ _ _ _ not_sign,words_word _ _ _ _ not_sign]
    simp only [List.mem_append,or_imp,forall_and,step]
    have hex : ∀ c ∈ numeral 16 w.toNat, c ≠ 0 := by
      rintro c member rfl
      exact absurd (numeral_digits (by decide) (by decide) 0 member) (by decide)
    cases k with
    | string => exact absurd rfl not_text
    | percent => exact absurd rfl not_sign
    | char => simp [value_text]
    | decimal => exact and_iff_right (number_text_nonzero signs.decimal w)
    | unsigned => exact and_iff_right (number_text_nonzero signs.unsigned w)
    | hex => exact and_iff_right hex
    | pointer => exact and_iff_right hex

theorem strlen_counts {m : Bytes} (ran : strlen fuel m a = some n) : m (a + n) = 0 ∧ ∀ i < n, m (a + i) ≠ 0 := by
  induction fuel generalizing a n with
  | zero => simp [strlen] at ran
  | succ fuel step =>
    rw [strlen] at ran
    split at ran
    · next nonzero =>
      obtain ⟨n',rest,rfl⟩ := map_eq_some_iff.mp ran
      obtain ⟨ended,before⟩ := step rest
      refine ⟨by rwa [show a + (n' + 1) = a + 1 + n' by omega],?_⟩
      intro i inside
      cases i with
      | zero => exact nonzero
      | succ i =>
        rw [show a + (i + 1) = a + 1 + i by omega]
        exact before i (by omega)
    · next zero =>
      injection ran with same
      subst same
      exact ⟨by simpa using zero,by simp⟩

theorem strlen_finds {m : Bytes} (nonzero : ∀ i < n, m (a + i) ≠ 0) (ended : m (a + n) = 0) :
    strlen (n + 1) m a = some n := by
  induction n generalizing a with
  | zero => simpa [strlen] using ended
  | succ n step =>
    have rest := @step (a+1) (fun i inside => by
      rw [show a + 1 + i = a + (i + 1) by omega]
      exact nonzero (i+1) (by omega)) (by rwa [show a + 1 + n = a + (n + 1) by omega])
    have here : m a ≠ 0 := nonzero 0 (by omega)
    rw [strlen,if_pos here,rest]
    rfl

/-- Bytes that spell a text hold it place by place. -/
theorem spelled {m : Bytes} {s : List UInt8} {b : UInt8} (spells : slice m a s.length = s)
    (there : s[i]? = some b) : m (a + i) = b := by
  have inside : i < s.length := (List.getElem?_eq_some_iff.mp there).1
  rw [← spells,slice_getElem?,if_pos inside] at there
  injection there

section
variable (m : Bytes) (buf : Nat) (lone : Bool) (t : List UInt8)

theorem stored_slice : slice (stored_text m buf lone t).memory buf t.length = t := by
  cases lone with
  | true => exact slice_storeBytes m buf t
  | false =>
    have whole := slice_storeBytes m buf (t ++ [0])
    rw [List.length_append,slice_append] at whole
    exact (List.append_inj whole (by simp)).1

theorem stored_end : (stored_text m buf lone t).memory (buf + t.length) = if lone then m (buf + t.length) else 0 := by
  cases lone with
  | true => exact storeBytes_outside m buf t (by omega)
  | false =>
    have whole := slice_storeBytes m buf (t ++ [0])
    exact spelled whole (by simp)

theorem stored_beyond {x : Nat}
    (outside : x < buf ∨ buf + t.length < x) : (stored_text m buf lone t).memory x = m x := by
  cases lone with
  | true => exact storeBytes_outside m buf t (by omega)
  | false => exact storeBytes_outside m buf (t ++ [0]) (by simp only [List.length_append,List.length_singleton]; omega)

end

/-- The buffer holds the text and the terminator, nothing else has changed, and
    the value is the text's length. -/
structure Prescribed (m : Bytes) (buf : Nat) (t : List UInt8) (r : Formatted) : Prop where
  stored : slice r.memory buf t.length = t
  ended : r.memory (buf + t.length) = 0
  value : r.value = t.length
  beyond : ∀ x, x < buf ∨ buf + t.length < x → r.memory x = m x

/-- A call ends and leaves what the C standard prescribes. -/
def Writes (vsprintf : Nat → Bytes → Nat → List UInt8 → List Arg → Option Formatted) (m : Bytes) (buf : Nat)
    (pieces : List Piece) (lone : Bool) (args : List Arg) : Prop :=
  ∃ fuel r, vsprintf fuel m buf (format_bytes pieces lone) args = some r ∧
    Prescribed m buf (text standard_signs pieces args) r

/-- A loop that renders the format under some reading writes the prescribed
    text exactly when no word is misread, no `%c` stores a zero, and a format
    with a lone '%' finds its terminator in the buffer already. -/
theorem writes_iff {signs : Signs} (typed : Matches pieces args)
    (renders : rendered printers pieces args = some (text signs pieces args)) (lone : Bool) (m : Bytes) (buf : Nat) :
    Writes (vsprintf printers) m buf pieces lone args ↔
      Alike standard_signs signs pieces args ∧ (∀ w ∈ words .char pieces args, UInt8.ofNat w.toNat ≠ 0) ∧
      (lone = true → m (buf + (text standard_signs pieces args).length) = 0) := by
  have loop := vsprintf_loop_stores printers pieces (plain_of_matches typed) lone m buf args
  rw [renders,map_some] at loop
  rw [← text_nonzero standard_signs typed]
  rcases text_alike_or_parts standard_signs signs typed with ⟨alike,equal⟩ | ⟨unlike,i,b,b',wanted,put,differ⟩
  · rw [← equal] at loop
    have here := stored_slice m buf lone (text standard_signs pieces args)
    have ends := stored_end m buf lone (text standard_signs pieces args)
    constructor
    · rintro ⟨fuel,r,ran,right⟩
      rw [vsprintf,loop,bind_some] at ran
      obtain ⟨n,counted,rfl⟩ := map_eq_some_iff.mp ran
      have length : n = (text standard_signs pieces args).length := right.value
      refine ⟨alike,?_,?_⟩
      · intro c member
        obtain ⟨i,inside,rfl⟩ := List.mem_iff_getElem.mp member
        rw [← spelled here (List.getElem?_eq_getElem inside)]
        exact (strlen_counts counted).2 i (by omega)
      · intro ending
        rw [if_pos ending] at ends
        rw [← ends]
        exact right.ended
    · rintro ⟨-,nonzero,cleared⟩
      have ended : (stored_text m buf lone (text standard_signs pieces args)).memory
          (buf + (text standard_signs pieces args).length) = 0 := by
        rw [ends]
        split
        · next ending => exact cleared ending
        · rfl
      have before : ∀ i < (text standard_signs pieces args).length,
          (stored_text m buf lone (text standard_signs pieces args)).memory (buf + i) ≠ 0 := by
        intro i inside
        rw [spelled here (List.getElem?_eq_getElem inside)]
        exact nonzero _ (List.getElem_mem inside)
      have counted := strlen_finds before ended
      refine ⟨(text standard_signs pieces args).length + 1,⟨(stored_text m buf lone (text standard_signs pieces args)).memory,
        (stored_text m buf lone (text standard_signs pieces args)).last,(text standard_signs pieces args).length⟩,?_,?_⟩
      · rw [vsprintf,loop,bind_some,counted,map_some]
      · exact ⟨here,ended,rfl,fun x outside => stored_beyond m buf lone (text standard_signs pieces args) outside⟩
  · constructor
    · rintro ⟨fuel,r,ran,right⟩
      rw [vsprintf,loop,bind_some] at ran
      obtain ⟨n,counted,rfl⟩ := map_eq_some_iff.mp ran
      have first := spelled right.stored wanted
      have second := spelled (stored_slice m buf lone (text signs pieces args)) put
      exact absurd (first.symm.trans second) differ
    · exact fun fine => absurd fine.1 unlike

/-- A call stores no byte behind its 1024-byte buffer. -/
def Stays (fill : Bytes → Nat → List UInt8 → List Arg → Option Stored) (m : Bytes) (buf : Nat) (format : List UInt8)
    (args : List Arg) : Prop :=
  ∃ stored, fill m buf format args = some stored ∧ stored.last ≤ buf + 1024

/-- The bytes a format stores under a reading, with the terminator it may leave out. -/
def room (signs : Signs) (pieces : List Piece) (lone : Bool) (args : List Arg) : Nat :=
  (text signs pieces args).length + (if lone then 0 else 1)

theorem stored_last (m : Bytes) (buf : Nat) (lone : Bool) (t : List UInt8) :
    (stored_text m buf lone t).last = buf + (t.length + (if lone then 0 else 1)) := by
  cases lone <;> simp [stored_text,Nat.add_assoc]

theorem stays_iff {signs : Signs} (typed : Matches pieces args)
    (renders : rendered printers pieces args = some (text signs pieces args)) (lone : Bool) (m : Bytes) (buf : Nat) :
    Stays (fill_buffer printers) m buf (format_bytes pieces lone) args ↔ room signs pieces lone args ≤ 1024 := by
  simp only [Stays,fill_buffer,vsprintf_loop_stores printers pieces (plain_of_matches typed),renders,map_some]
  constructor
  · rintro ⟨stored,same,inside⟩
    injection same with same
    rw [← same,stored_last] at inside
    simp only [room]
    omega
  · intro fits
    refine ⟨_,rfl,?_⟩
    rw [stored_last]
    simp only [room] at fits
    omega

/-- How much of a text `strlen` sees. -/
def seen (t : List UInt8) : Nat := (t.takeWhile (· ≠ 0)).length

theorem seen_le (t : List UInt8) : seen t ≤ t.length := (List.takeWhile_prefix _).length_le

theorem seen_nonzero {t : List UInt8} (inside : i < seen t) : ∃ b, t[i]? = some b ∧ b ≠ 0 := by
  induction t generalizing i with
  | nil => simp [seen] at inside
  | cons c t step =>
    by_cases zero : c = 0
    · simp [seen,zero] at inside
    · cases i with
      | zero => exact ⟨c,rfl,zero⟩
      | succ i =>
        have deeper : i < seen t := by
          simpa [seen,zero] using inside
        simpa using step deeper

theorem seen_end {t : List UInt8} (short : seen t < t.length) : t[seen t]? = some 0 := by
  induction t with
  | nil => simp at short
  | cons c t step =>
    by_cases zero : c = 0
    · simp [seen,zero]
    · have next : seen (c :: t) = seen t + 1 := by simp [seen,zero]
      rw [next] at short ⊢
      simpa using step (by simpa using short)

def panic_pieces : List Piece :=
  [75,101,114,110,101,108,32,80,65,78,73,67,32,45,62,32].map Piece.literal ++ [.conv .string,.literal 10]

theorem panic_spelled : panic_format = format_bytes panic_pieces false := by decide

theorem panic_matches {s : List UInt8} (nonzero : ∀ c ∈ s, c ≠ 0) : Matches panic_pieces [.text s] := by
  have tail : Matches [.conv .string,.literal 10] [.text s] := .string nonzero (.literal (by decide) (by decide) (.done []))
  simp only [panic_pieces,List.map_cons,List.map_nil,List.cons_append,List.nil_append]
  repeat' apply Matches.literal (by decide) (by decide)
  exact tail

theorem panic_room (s : List UInt8) : room kernel_signs panic_pieces false [.text s] = s.length + 18 := by
  simp [room,panic_pieces,text,value_text]

/-- `abortf` stores no byte behind its own buffer nor behind the one `printf` uses for it. -/
def AbortStays (m : Bytes) (buf inner : Nat) (format : List UInt8) (args : List Arg) : Prop :=
  ∃ fuel r, abortf_buffers fuel m buf inner format args = some r ∧ r.1.last ≤ buf + 1024 ∧ r.2.last ≤ inner + 1024

/-- What the cleared buffer holds of a text. -/
def own_buffer (m : Bytes) (buf : Nat) (lone : Bool) (t : List UInt8) : Stored :=
  stored_text (storeBytes m buf (List.replicate 1024 0)) buf lone t

/-- In a cleared buffer with room behind it the text is what `strlen` sees of it. -/
theorem own_buffer_length {m : Bytes} {buf : Nat} {lone : Bool} {t : List UInt8} (short : seen t < 1024) :
    strlen (seen t + 1) (own_buffer m buf lone t).memory buf = some (seen t) := by
  have spells : slice (own_buffer m buf lone t).memory buf t.length = t := stored_slice _ buf lone t
  apply strlen_finds
  · intro i inside
    obtain ⟨b,there,nonzero⟩ := seen_nonzero inside
    rwa [spelled spells there]
  · by_cases cut : seen t < t.length
    · exact spelled spells (seen_end cut)
    · have whole : seen t = t.length := le_antisymm (seen_le t) (by omega)
      rw [whole,own_buffer,stored_end]
      split
      · have cleared := slice_storeBytes m buf (List.replicate 1024 0)
        apply spelled cleared
        rw [List.getElem?_replicate,if_pos (by omega)]
      · rfl

/-- `strlen` never stops inside what it can see. -/
theorem own_buffer_seen {m : Bytes} {buf : Nat} {lone : Bool} {t : List UInt8}
    (counted : strlen fuel (own_buffer m buf lone t).memory buf = some n) : seen t ≤ n := by
  have spells : slice (own_buffer m buf lone t).memory buf t.length = t := stored_slice _ buf lone t
  by_contra below
  obtain ⟨b,there,nonzero⟩ := seen_nonzero (not_le.mp below)
  exact nonzero ((spelled spells there).symm.trans (strlen_counts counted).1)

theorem panic_prints {m : Bytes} {buf : Nat} (inner : Nat) (counted : strlen fuel m buf = some n) :
    ∃ printed, kernel_printf_buffer m inner panic_format [.text (slice m buf n)] = some printed ∧
      printed.last = inner + (n + 18) := by
  have nonzero : ∀ c ∈ slice m buf n, c ≠ 0 := by
    intro c member
    obtain ⟨i,inside,rfl⟩ := List.mem_map.mp member
    exact (strlen_counts counted).2 i (List.mem_range.mp inside)
  have panic := panic_matches nonzero
  have size := panic_room (slice m buf n)
  rw [slice_length] at size
  rw [kernel_printf_buffer,fill_buffer,panic_spelled,
    vsprintf_loop_stores kernel_printers panic_pieces (plain_of_matches panic),kernel_rendered panic,map_some]
  refine ⟨_,rfl,?_⟩
  rw [stored_last,← size]
  rfl

theorem abort_stays_iff (typed : Matches pieces args) (lone : Bool) (m : Bytes)
    (buf inner : Nat) : AbortStays m buf inner (format_bytes pieces lone) args ↔
      room kernel_signs pieces lone args ≤ 1024 ∧ seen (text kernel_signs pieces args) + 18 ≤ 1024 := by
  have own : fill_buffer kernel_printers m buf (format_bytes pieces lone) args
      = some (own_buffer m buf lone (text kernel_signs pieces args)) := by
    rw [fill_buffer,vsprintf_loop_stores kernel_printers pieces (plain_of_matches typed),kernel_rendered typed]
    rfl
  have last : (own_buffer m buf lone (text kernel_signs pieces args)).last = buf + room kernel_signs pieces lone args :=
    stored_last _ buf lone _
  constructor
  · rintro ⟨fuel,r,ran,first,second⟩
    rw [abortf_buffers,own,bind_some] at ran
    obtain ⟨n,counted,ran⟩ := Option.bind_eq_some_iff.mp ran
    obtain ⟨printed,prints,reach⟩ := panic_prints inner counted
    rw [prints,map_some] at ran
    injection ran with same
    subst same
    dsimp only at first second
    have sees := own_buffer_seen counted
    omega
  · rintro ⟨first,second⟩
    have counted := @own_buffer_length m buf lone (text kernel_signs pieces args) (by omega)
    obtain ⟨printed,prints,reach⟩ := panic_prints inner counted
    refine ⟨seen (text kernel_signs pieces args) + 1,(own_buffer m buf lone (text kernel_signs pieces args),printed),?_,?_,?_⟩
    · rw [abortf_buffers,own,bind_some,counted,bind_some,prints,map_some]
    · dsimp only
      omega
    · dsimp only
      omega

theorem kernel_alike :
    Alike standard_signs kernel_signs pieces args ↔ ∀ w ∈ words .decimal pieces args, 0 ≤ w.toInt := by
  simp [Alike,standard_signs,kernel_signs]

theorem libc_alike : Alike standard_signs libc_signs pieces args ↔ ∀ w ∈ words .unsigned pieces args, 0 ≤ w.toInt := by
  simp [Alike,standard_signs,libc_signs]

theorem libc_writes_iff (typed : Matches pieces args) (lone : Bool) (m : Bytes) (buf : Nat) :
    Writes libc_vsprintf m buf pieces lone args ↔
      (∀ w ∈ words .decimal pieces args, w ≠ BitVec.intMin 32) ∧ (∀ w ∈ words .unsigned pieces args, 0 ≤ w.toInt) ∧
      (∀ w ∈ words .char pieces args, UInt8.ofNat w.toNat ≠ 0) ∧
      (lone = true → m (buf + (text standard_signs pieces args).length) = 0) := by
  by_cases fine : NoLeast pieces args
  · have iff := writes_iff typed ((libc_rendered typed).1 fine) lone m buf
    rw [libc_alike] at iff
    rw [libc_vsprintf,iff]
    exact ⟨fun all => ⟨fine.1,all⟩,fun all => all.2⟩
  · constructor
    · rintro ⟨fuel,r,ran,-⟩
      rw [libc_vsprintf,vsprintf,vsprintf_loop_stores libc_printers pieces (plain_of_matches typed),
        (libc_rendered typed).2 fine] at ran
      simp at ran
    · rintro ⟨decimal,unsigned,-⟩
      refine absurd ⟨decimal,?_⟩ fine
      rintro w member rfl
      exact absurd (unsigned _ member) (by decide)

theorem libc_stays_iff (typed : Matches pieces args) (lone : Bool) (m : Bytes) (buf : Nat) :
    Stays (fill_buffer libc_printers) m buf (format_bytes pieces lone) args ↔
      NoLeast pieces args ∧ room libc_signs pieces lone args ≤ 1024 := by
  by_cases fine : NoLeast pieces args
  · rw [stays_iff typed ((libc_rendered typed).1 fine) lone m buf]
    exact (and_iff_right fine).symm
  · constructor
    · rintro ⟨stored,ran,-⟩
      rw [fill_buffer,vsprintf_loop_stores libc_printers pieces (plain_of_matches typed),(libc_rendered typed).2 fine,
        Option.map_none] at ran
      exact nomatch ran
    · exact fun both => absurd both.1 fine

/-- The text is right in the kernel exactly when no `%d` prints a negative
    number, and in libc when no `%d` prints the least one and no `%u` one from
    2^31 on; in both no `%c` may store a zero, and behind a lone '%' the buffer
    must hold the terminator already. The callers stay inside their buffers
    exactly when the text and its terminator take at most 1024 bytes, and
    `abortf` when the line `printf` makes of it does too. -/
theorem formatted_output_right {pieces : List Piece} {args : List Arg} (typed : Matches pieces args) (lone : Bool)
    (m : Bytes) (buf inner : Nat) :
    (Writes kernel_vsprintf m buf pieces lone args ↔
      (∀ w ∈ words .decimal pieces args, 0 ≤ w.toInt) ∧ (∀ w ∈ words .char pieces args, UInt8.ofNat w.toNat ≠ 0) ∧
      (lone = true → m (buf + (text standard_signs pieces args).length) = 0)) ∧
    (Writes libc_vsprintf m buf pieces lone args ↔
      (∀ w ∈ words .decimal pieces args, w ≠ BitVec.intMin 32) ∧ (∀ w ∈ words .unsigned pieces args, 0 ≤ w.toInt) ∧
      (∀ w ∈ words .char pieces args, UInt8.ofNat w.toNat ≠ 0) ∧
      (lone = true → m (buf + (text standard_signs pieces args).length) = 0)) ∧
    (Stays kernel_printf_buffer m buf (format_bytes pieces lone) args ↔ room kernel_signs pieces lone args ≤ 1024) ∧
    (Stays debugf_intrnl_buffer m buf (format_bytes pieces lone) args ↔ room kernel_signs pieces lone args ≤ 1024) ∧
    (AbortStays m buf inner (format_bytes pieces lone) args ↔
      room kernel_signs pieces lone args ≤ 1024 ∧ seen (text kernel_signs pieces args) + 18 ≤ 1024) ∧
    (Stays libc_printf_buffer m buf (format_bytes pieces lone) args ↔
      NoLeast pieces args ∧ room libc_signs pieces lone args ≤ 1024) ∧
    (Stays fprintf_buffer m buf (format_bytes pieces lone) args ↔
      NoLeast pieces args ∧ room libc_signs pieces lone args ≤ 1024) := by
  have writes := writes_iff typed (kernel_rendered typed) lone m buf
  rw [kernel_alike] at writes
  have stays := stays_iff typed (kernel_rendered typed) lone m buf
  have libc := libc_stays_iff typed lone m buf
  exact ⟨writes,libc_writes_iff typed lone m buf,stays,stays,abort_stays_iff typed lone m buf inner,libc,libc⟩

/-- "%d%u%c%s%x%%" over 7, 8, 'A', "hi" and 255. -/
def sample : List Piece := [.conv .decimal,.conv .unsigned,.conv .char,.conv .string,.conv .hex,.conv .percent]

def sample_args : List Arg := [.word 7,.word 8,.word 65,.text [104,105],.word 255]

theorem sample_matches : Matches sample sample_args :=
  .word (by decide) (by decide) (.word (by decide) (by decide) (.word (by decide) (by decide)
    (.string (by simp) (.word (by decide) (by decide) (.percent (.done []))))))

theorem formatted_output_right_sample : Matches sample sample_args ∧
    (Stays fprintf_buffer (fun _ => 1) 0 (format_bytes sample true) sample_args ↔
      NoLeast sample sample_args ∧ room libc_signs sample true sample_args ≤ 1024) :=
  have all := formatted_output_right sample_matches true (fun _ => 1) 0 4096
  ⟨sample_matches,all.2.2.2.2.2.2⟩

/-- The kernel prints -1 under `%d` as 4294967295 and libc 2^31 under `%u` with
    a '-'; libc indexes before its digits for the least number; "%" leaves its
    buffer unterminated; and 1024 bytes of text overflow every buffer. -/
theorem formatted_output_wrong :
    ¬ Writes kernel_vsprintf (fun _ => 0) 0 [.conv .decimal] false [.word (-1)] ∧
    ¬ Writes libc_vsprintf (fun _ => 0) 0 [.conv .unsigned] false [.word (BitVec.intMin 32)] ∧
    ¬ Writes libc_vsprintf (fun _ => 0) 0 [.conv .decimal] false [.word (BitVec.intMin 32)] ∧
    ¬ Writes kernel_vsprintf (fun _ => 1) 0 [] true [] ∧
    ¬ Stays kernel_printf_buffer (fun _ => 0) 0 (format_bytes [.conv .string] false) [.text (List.replicate 1024 97)] ∧
    ¬ Stays fprintf_buffer (fun _ => 0) 0 (format_bytes [.conv .string] false) [.text (List.replicate 1024 97)] := by
  have one (k : Conv) (w : BitVec 32) (not_text : k ≠ .string) (not_sign : k ≠ .percent) : Matches [.conv k] [.word w] :=
    .word not_text not_sign (.done [])
  have long : Matches [.conv .string] [.text (List.replicate 1024 97)] :=
    .string (fun c member => by rw [List.eq_of_mem_replicate member]; decide) (.done [])
  have room_text (signs : Signs) (s : List UInt8) : room signs [.conv .string] false [.text s] = s.length + 1 := by
    simp [room,text,value_text]
  refine ⟨?_,?_,?_,?_,?_,?_⟩
  · intro writes
    have fine := (writes_iff (one .decimal (-1) (by decide) (by decide)) (kernel_rendered (one .decimal (-1) (by decide)
      (by decide))) false (fun _ => 0) 0).mp writes
    exact absurd (kernel_alike.mp fine.1 (-1) (by simp [words])) (by decide)
  · intro writes
    have fine := (libc_writes_iff (one .unsigned (BitVec.intMin 32) (by decide) (by decide)) false (fun _ => 0) 0).mp writes
    exact absurd (fine.2.1 (BitVec.intMin 32) (by simp [words])) (by decide)
  · intro writes
    have fine := (libc_writes_iff (one .decimal (BitVec.intMin 32) (by decide) (by decide)) false (fun _ => 0) 0).mp writes
    exact absurd rfl (fine.1 (BitVec.intMin 32) (by simp [words]))
  · intro writes
    have fine := (writes_iff (.done []) (kernel_rendered (.done [])) true (fun _ => 1) 0).mp writes
    exact absurd (fine.2.2 rfl) (by decide)
  · intro stays
    have fits := (stays_iff long (kernel_rendered long) false (fun _ => 0) 0).mp stays
    rw [room_text,List.length_replicate] at fits
    omega
  · intro stays
    have fits := ((libc_stays_iff long false (fun _ => 0) 0).mp stays).2
    rw [room_text,List.length_replicate] at fits
    omega

end MicroOS.FormattedText

import MicroOS.Memory

/-!
The string routines the kernel and libc each carry: what `strcpy` leaves at its
destination, which bytes of the source it looks at, and what `strcat` and
`strcmp` then find there.
-/
namespace MicroOS.Strings
open Memory

/-- The bytes from `a` spell `s` and the terminator. -/
def Str (m : Bytes) : Nat → List UInt8 → Prop
  | a,[] => m a = 0
  | a,c :: s => m a = c ∧ c ≠ 0 ∧ Str m (a+1) s

/-- `char` is signed on the target. -/
def char_value (b : UInt8) : Int := b.toInt8.toInt

/-- What a call of `strcpy` leaves: memory, the source bytes it read, and its value. -/
structure Copy where
  memory : Bytes
  reads : List Nat
  value : Nat

/-- `do { *dest++ = *src++; } while (*src != 0); return 0;` -/
def copy_loop : Nat → Bytes → Nat → Nat → Option Copy
  | 0,_,_,_ => none
  | fuel+1,m,dest,src =>
    let m' := storeByte m dest (m src)
    if m' (src+1) ≠ 0 then
      (copy_loop fuel m' (dest+1) (src+1)).map (fun rest => { rest with reads := src :: (src+1) :: rest.reads })
    else some ⟨m',[src,src+1],0⟩

/-- The kernel's copy of the routine. -/
def kernel_strcpy : Nat → Bytes → Nat → Nat → Option Copy := copy_loop

/-- libc's copy of the routine. -/
def libc_strcpy : Nat → Bytes → Nat → Nat → Option Copy := copy_loop

/-- `while (*d) d++;` -/
def strcat_end : Nat → Bytes → Nat → Option Nat
  | 0,_,_ => none
  | fuel+1,m,d => if m d ≠ 0 then strcat_end fuel m (d+1) else some d

/-- `while (*src) *d++ = *src++; *d = 0;` -/
def strcat_copy : Nat → Bytes → Nat → Nat → Option Bytes
  | 0,_,_,_ => none
  | fuel+1,m,d,src =>
    if m src ≠ 0 then strcat_copy fuel (storeByte m d (m src)) (d+1) (src+1) else some (storeByte m d 0)

def strcat (fuel : Nat) (m : Bytes) (dest src : Nat) : Option Bytes :=
  (strcat_end fuel m dest).bind (fun d => strcat_copy fuel m d src)

def strcmp : Nat → Bytes → Nat → Nat → Option Int
  | 0,_,_,_ => none
  | fuel+1,m,str1,str2 =>
    if m str1 ≠ 0 ∧ m str2 ≠ 0 then
      if m str1 ≠ m str2 then some (char_value (m str1) - char_value (m str2))
      else strcmp fuel m (str1+1) (str2+1)
    else some (char_value (m str1) - char_value (m str2))

/-- The first place where two strings part, as `strcmp` reports it. -/
def difference : List UInt8 → List UInt8 → Int
  | [],[] => 0
  | [],d :: _ => - char_value d
  | c :: _,[] => char_value c
  | c :: s,d :: t => if c = d then difference s t else char_value c - char_value d

theorem char_value_injective {c d : UInt8} (same : char_value c = char_value d) : c = d := by
  have word : c.toInt8 = d.toInt8 := Int8.toInt_inj.mp same
  have back := congrArg Int8.toUInt8 word
  simpa using back

theorem Str.nonzero {m : Bytes} {a : Nat} {s : List UInt8} (text : Str m a s) : ∀ c ∈ s, c ≠ 0 := by
  induction s generalizing a with
  | nil => simp
  | cons c s step =>
    obtain ⟨-,nonzero,rest⟩ := text
    intro d member
    rcases List.mem_cons.mp member with rfl | later
    · exact nonzero
    · exact step rest d later

/-- Only the bytes of the string and its terminator matter. -/
theorem Str.agree {m m' : Bytes} {a : Nat} {s : List UInt8} (text : Str m a s)
    (same : Agree m m' a (a + s.length + 1)) : Str m' a s := by
  induction s generalizing a with
  | nil => exact (same a (by omega) (by simp)).trans text
  | cons c s step =>
    obtain ⟨here,nonzero,rest⟩ := text
    simp only [List.length_cons] at same
    refine ⟨(same a (by omega) (by omega)).trans here,nonzero,?_⟩
    apply step rest
    exact agree_mono same (by omega) (by omega)

theorem slice_cons (m : Bytes) (a n : Nat) : slice m a (n+1) = m a :: slice m (a+1) n := by
  rw [Nat.add_comm,slice_append]
  simp [slice]

/-- Bytes that are not zero, and a string behind them, are one string. -/
theorem str_append {m : Bytes} {a : Nat} {s t : List UInt8} (nonzero : ∀ c ∈ s, c ≠ 0) (bytes : slice m a s.length = s)
    (behind : Str m (a + s.length) t) : Str m a (s ++ t) := by
  induction s generalizing a with
  | nil => simpa using behind
  | cons c s step =>
    rw [List.length_cons,slice_cons] at bytes
    obtain ⟨here,later⟩ := List.cons.inj bytes
    refine ⟨here,nonzero c (by simp),?_⟩
    apply step (fun d member => nonzero d (by simp [member])) later
    rw [show a + 1 + s.length = a + (c :: s).length by simp only [List.length_cons]; omega]
    exact behind

theorem Str.bytes {m : Bytes} {a : Nat} {s : List UInt8} (text : Str m a s) : slice m a s.length = s := by
  induction s generalizing a with
  | nil => simp [slice]
  | cons c s step =>
    obtain ⟨here,-,rest⟩ := text
    rw [List.length_cons,slice_cons,here,step rest]

theorem Str.ends {m : Bytes} {a : Nat} {s : List UInt8} (text : Str m a s) : m (a + s.length) = 0 := by
  induction s generalizing a with
  | nil => simpa [Str] using text
  | cons c s step =>
    have rest := step text.2.2
    rw [show a + (c :: s).length = a + 1 + s.length by simp only [List.length_cons]; omega]
    exact rest

theorem storeBytes_cons (m : Bytes) (a : Nat) (c : UInt8) (s : List UInt8) :
    storeBytes (storeByte m a c) (a+1) s = storeBytes m a (c :: s) := by
  funext x
  by_cases here : x = a
  · subst here
    simp [storeBytes,storeByte]
  · by_cases low : a + 1 ≤ x
    · have offset : x - a = (x - (a+1)) + 1 := by omega
      have reach : a ≤ x := by omega
      simp [storeBytes,storeByte,here,low,reach,offset]
    · have before : ¬ a ≤ x := by omega
      simp [storeBytes,storeByte,here,low,before]

theorem storeBytes_append (m : Bytes) (a : Nat) (s t : List UInt8) :
    storeBytes (storeBytes m a s) (a + s.length) t = storeBytes m a (s ++ t) := by
  induction s generalizing m a with
  | nil =>
    have none_stored : storeBytes m a [] = m := by
      funext x
      simp [storeBytes]
    simp [none_stored]
  | cons c s step =>
    rw [← storeBytes_cons m a c s,List.cons_append,← storeBytes_cons m a c (s ++ t),← step]
    congr 1
    simp only [List.length_cons]
    omega

/-- The source bytes the loop looks at: each one when it is copied and when it is tested. -/
def looked (src : Nat) : Nat → List Nat
  | 0 => []
  | n+1 => src :: (src+1) :: looked (src+1) n

theorem looked_bounds {src n x : Nat} (member : x ∈ looked src n) : src ≤ x ∧ x ≤ src + n := by
  induction n generalizing src with
  | zero => simp [looked] at member
  | succ n step =>
    simp only [looked,List.mem_cons] at member
    rcases member with here | next | later
    · omega
    · omega
    · have bounds := step later
      omega

/-- A source that is not empty is stored without its terminator. -/
theorem copy_loop_stores {m : Bytes} {dest src fuel : Nat} {s : List UInt8} (source : Str m src s) (some_text : s ≠ [])
    (apart : src + s.length < dest ∨ dest + s.length < src) :
    copy_loop fuel m dest src
      = if s.length ≤ fuel then some ⟨storeBytes m dest s,looked src s.length,0⟩ else none := by
  induction s generalizing m dest src fuel with
  | nil => exact absurd rfl some_text
  | cons c s step =>
    obtain ⟨here,nonzero,rest⟩ := source
    simp only [List.length_cons] at apart
    cases fuel with
    | zero => simp [copy_loop]
    | succ fuel =>
      have source' : Str (storeByte m dest c) (src+1) s := rest.agree (storeByte_agree m dest c (by omega))
      have head := storeBytes_cons m dest c s
      cases s with
      | nil =>
        have ended : storeByte m dest c (src+1) = 0 := source'
        have stored : storeByte m dest c = storeBytes m dest [c] := by
          rw [← head]
          funext x
          simp [storeBytes]
        simp [copy_loop,here,ended,looked,stored]
      | cons d s =>
        have more : storeByte m dest c (src+1) ≠ 0 := by
          rw [source'.1]
          exact source'.2.1
        have after := @step (storeByte m dest c) (dest+1) (src+1) fuel source' (by simp)
          (by simp only [List.length_cons] at apart ⊢; omega)
        rw [head] at after
        simp only [copy_loop,here]
        rw [if_pos more,after]
        by_cases enough : (d :: s).length ≤ fuel
        · have enough' : (c :: d :: s).length ≤ fuel + 1 := by simpa using enough
          rw [if_pos enough,if_pos enough']
          simp [looked]
        · have short : ¬ (c :: d :: s).length ≤ fuel + 1 := by simpa using enough
          rw [if_neg enough,if_neg short]
          rfl

/-- Of an empty source the byte after the terminator is read. -/
theorem copy_loop_empty {m : Bytes} {dest src fuel : Nat} {r : Copy} (ran : copy_loop fuel m dest src = some r) :
    src + 1 ∈ r.reads := by
  cases fuel with
  | zero => simp [copy_loop] at ran
  | succ fuel =>
    simp only [copy_loop] at ran
    split at ran
    · obtain ⟨rest,-,rfl⟩ := Option.map_eq_some_iff.mp ran
      simp
    · injection ran with same
      subst same
      simp

theorem strcat_end_finds {m : Bytes} {a fuel : Nat} {s : List UInt8} (text : Str m a s) (enough : s.length < fuel) :
    strcat_end fuel m a = some (a + s.length) := by
  induction s generalizing a fuel with
  | nil =>
    obtain ⟨fuel,rfl⟩ : ∃ k, fuel = k + 1 := ⟨fuel - 1,by simp at enough; omega⟩
    have zero : m a = 0 := text
    simp [strcat_end,zero]
  | cons c s step =>
    obtain ⟨fuel,rfl⟩ : ∃ k, fuel = k + 1 := ⟨fuel - 1,by simp at enough; omega⟩
    obtain ⟨here,nonzero,rest⟩ := text
    have after := @step (a+1) fuel rest (by simpa using enough)
    have reach : a + 1 + s.length = a + (c :: s).length := by simp only [List.length_cons]; omega
    simp only [strcat_end,here]
    rw [if_pos nonzero,after,reach]

theorem strcat_copy_stores {m : Bytes} {d src fuel : Nat} {t : List UInt8} (source : Str m src t)
    (apart : src + t.length < d ∨ d + t.length < src) (enough : t.length < fuel) :
    strcat_copy fuel m d src = some (storeBytes m d (t ++ [0])) := by
  induction t generalizing m d src fuel with
  | nil =>
    obtain ⟨fuel,rfl⟩ : ∃ k, fuel = k + 1 := ⟨fuel - 1,by simp at enough; omega⟩
    have zero : m src = 0 := source
    have stored : storeByte m d 0 = storeBytes m d [0] := by
      rw [← storeBytes_cons]
      funext x
      simp [storeBytes]
    simp [strcat_copy,zero,stored]
  | cons c t step =>
    obtain ⟨fuel,rfl⟩ : ∃ k, fuel = k + 1 := ⟨fuel - 1,by simp at enough; omega⟩
    obtain ⟨here,nonzero,rest⟩ := source
    simp only [List.length_cons] at apart enough
    have source' : Str (storeByte m d c) (src+1) t := rest.agree (storeByte_agree m d c (by omega))
    have after := @step (storeByte m d c) (d+1) (src+1) fuel source' (by omega) (by omega)
    rw [storeBytes_cons] at after
    simp only [strcat_copy,here]
    rw [if_pos nonzero,after]
    rfl

theorem strcmp_compares {m : Bytes} {a b fuel : Nat} {s t : List UInt8} (left : Str m a s) (right : Str m b t)
    (enough : s.length < fuel) : strcmp fuel m a b = some (difference s t) := by
  have zero : char_value 0 = 0 := by decide
  induction s generalizing a b t fuel with
  | nil =>
    obtain ⟨fuel,rfl⟩ : ∃ k, fuel = k + 1 := ⟨fuel - 1,by simp at enough; omega⟩
    have ended : m a = 0 := left
    cases t with
    | nil =>
      have ended' : m b = 0 := right
      simp [strcmp,ended,ended',difference]
    | cons d t => simp [strcmp,ended,right.1,difference,zero]
  | cons c s step =>
    obtain ⟨fuel,rfl⟩ : ∃ k, fuel = k + 1 := ⟨fuel - 1,by simp at enough; omega⟩
    obtain ⟨here,nonzero,rest⟩ := left
    cases t with
    | nil =>
      have ended : m b = 0 := right
      simp [strcmp,ended,here,difference,zero]
    | cons d t =>
      obtain ⟨here',nonzero',rest'⟩ := right
      have after := @step (a+1) (b+1) fuel t rest rest' (by simpa using enough)
      simp only [strcmp,here,here',difference]
      rw [if_pos ⟨nonzero,nonzero'⟩]
      by_cases same : c = d
      · rw [if_neg (by simpa using same),if_pos same,after]
      · rw [if_pos same,if_neg same]

/-- No byte of the first range is one of the second. -/
def Apart (a n b k : Nat) : Prop := a + n ≤ b ∨ b + k ≤ a

/-- The destination is the source with its terminator and nothing after it has
    changed; no byte past the source's terminator was read; appending to the
    copy concatenates, and comparing the copy compares the source. -/
structure Right (m : Bytes) (dest src : Nat) (s : List UInt8) (r : Copy) : Prop where
  text : Str r.memory dest s
  beyond : ∀ x, x < dest ∨ dest + s.length < x → r.memory x = m x
  reads : ∀ x ∈ r.reads, src ≤ x ∧ x ≤ src + s.length
  appends : ∀ b t, Str m b t → Apart b (t.length + 1) dest (s.length + t.length + 1) →
    ∃ fuel m', strcat fuel r.memory dest b = some m' ∧ Str m' dest (s ++ t)
  compares : ∀ b t, Str r.memory b t →
    ∃ fuel, strcmp fuel r.memory dest b = some (difference s t) ∧
      strcmp fuel r.memory b dest = some (difference t s)

/-- A copying routine ends and leaves what it should. -/
def Copies (strcpy : Nat → Bytes → Nat → Nat → Option Copy) (m : Bytes) (dest src : Nat) (s : List UInt8) : Prop :=
  ∃ fuel r, strcpy fuel m dest src = some r ∧ Right m dest src s r

theorem strcat_concatenates {m : Bytes} {dest b : Nat} {s t : List UInt8} (left : Str m dest s) (right : Str m b t)
    (apart : Apart b (t.length + 1) dest (s.length + t.length + 1)) :
    ∃ fuel m', strcat fuel m dest b = some m' ∧ Str m' dest (s ++ t) := by
  have ended : strcat_end (s.length + t.length + 1) m dest = some (dest + s.length) := strcat_end_finds left (by omega)
  have copied : strcat_copy (s.length + t.length + 1) m (dest + s.length) b
      = some (storeBytes m (dest + s.length) (t ++ [0])) :=
    strcat_copy_stores right (by simp only [Apart] at apart; omega) (by omega)
  refine ⟨s.length + t.length + 1,storeBytes m (dest + s.length) (t ++ [0]),by simp [strcat,ended,copied],?_⟩
  have head : slice (storeBytes m (dest + s.length) (t ++ [0])) dest s.length = s := by
    rw [slice_agree (storeBytes_agree m (dest + s.length) (t ++ [0]) (by omega))]
    exact left.bytes
  have tail := slice_storeBytes m (dest + s.length) (t ++ [0])
  rw [List.length_append,slice_append] at tail
  obtain ⟨appended,terminator⟩ := List.append_inj tail (by simp)
  have whole : Str (storeBytes m (dest + s.length) (t ++ [0])) (dest + s.length) (t ++ []) := by
    apply str_append right.nonzero appended
    simpa [slice,Str] using terminator
  rw [List.append_nil] at whole
  exact str_append left.nonzero head whole

section
variable {m : Bytes} {dest src : Nat} {s : List UInt8} (source : Str m src s)
  (apart : Apart src (s.length + 1) dest (s.length + 1))
include source apart

/-- The byte where the terminator belongs is one the loop never writes. -/
theorem copy_right (some_text : s ≠ []) (zeroed : m (dest + s.length) = 0) : Copies copy_loop m dest src s := by
  have far : src + s.length < dest ∨ dest + s.length < src := by simp only [Apart] at apart; omega
  have copied := @copy_loop_stores m dest src s.length s source some_text far
  rw [if_pos (le_refl s.length)] at copied
  have text : Str (storeBytes m dest s) dest s := by
    have ended : Str (storeBytes m dest s) (dest + s.length) [] := by
      show storeBytes m dest s (dest + s.length) = 0
      rw [storeBytes_outside m dest s (by omega)]
      exact zeroed
    have whole := str_append source.nonzero (slice_storeBytes m dest s) ended
    rwa [List.append_nil] at whole
  refine ⟨s.length,_,copied,⟨text,?_,?_,?_,?_⟩⟩
  · intro x outside
    exact storeBytes_outside m dest s (by omega)
  · intro x member
    exact looked_bounds member
  · intro b t right apart'
    apply strcat_concatenates text _ apart'
    exact right.agree (storeBytes_agree m dest s (by simp only [Apart] at apart'; omega))
  · intro b t right
    exact ⟨s.length + t.length + 1,strcmp_compares text right (by omega),strcmp_compares right text (by omega)⟩

theorem copied_text (copies : Copies copy_loop m dest src s) : s ≠ [] ∧ m (dest + s.length) = 0 := by
  obtain ⟨fuel,r,ran,right⟩ := copies
  have some_text : s ≠ [] := by
    rintro rfl
    have bounds := right.reads (src+1) (copy_loop_empty ran)
    simp at bounds
  refine ⟨some_text,?_⟩
  have far : src + s.length < dest ∨ dest + s.length < src := by simp only [Apart] at apart; omega
  rw [copy_loop_stores source some_text far] at ran
  split at ran
  · injection ran with same
    subst same
    have ended : storeBytes m dest s (dest + s.length) = 0 := right.text.ends
    rwa [storeBytes_outside m dest s (by omega)] at ended
  · simp at ran

end

/-- Both copies of the routine copy a string exactly when it is not empty and
    the destination already holds a zero where its terminator belongs. -/
theorem strcpy_right {m : Bytes} {dest src : Nat} {s : List UInt8} (source : Str m src s)
    (apart : Apart src (s.length + 1) dest (s.length + 1)) :
    (Copies kernel_strcpy m dest src s ↔ s ≠ [] ∧ m (dest + s.length) = 0) ∧
    (Copies libc_strcpy m dest src s ↔ s ≠ [] ∧ m (dest + s.length) = 0) := by
  have both : Copies copy_loop m dest src s ↔ s ≠ [] ∧ m (dest + s.length) = 0 := by
    constructor
    · exact copied_text source apart
    · rintro ⟨some_text,zeroed⟩
      exact copy_right source apart some_text zeroed
  exact ⟨both,both⟩

/-- "a" at 0, and a destination at 16 that held "bbb". -/
def used : Bytes := fun x => if x = 0 then 97 else if 16 ≤ x ∧ x < 19 then 98 else 0

theorem strcpy_right_used : Str used 0 [97] ∧ Apart 0 2 16 2 ∧
    (Copies kernel_strcpy used 16 0 [97] ↔ ([97] : List UInt8) ≠ [] ∧ used 17 = 0) ∧
    (Copies libc_strcpy used 16 0 [97] ↔ ([97] : List UInt8) ≠ [] ∧ used 17 = 0) :=
  have source : Str used 0 [97] := ⟨rfl,by decide,rfl⟩
  ⟨source,by simp [Apart],strcpy_right source (by simp [Apart])⟩

/-- The copy of "a" is then "abb", and an empty name is read past its terminator. -/
theorem terminator_missing : Str used 0 [97] ∧ Apart 0 2 16 2 ∧
    ¬ Copies kernel_strcpy used 16 0 [97] ∧ ¬ Copies libc_strcpy used 16 0 [97] ∧
    Str used 1 [] ∧ Apart 1 1 16 1 ∧ ¬ Copies kernel_strcpy used 16 1 [] ∧ ¬ Copies libc_strcpy used 16 1 [] := by
  have source : Str used 0 [97] := ⟨rfl,by decide,rfl⟩
  have blank : Str used 1 [] := rfl
  have kept : ¬ Copies copy_loop used 16 0 [97] := by
    intro copies
    have zeroed := (copied_text source (by simp [Apart]) copies).2
    exact absurd zeroed (by decide)
  have overrun : ¬ Copies copy_loop used 16 1 [] := by
    intro copies
    exact (copied_text blank (by simp [Apart]) copies).1 rfl
  exact ⟨source,by simp [Apart],kept,kept,blank,by simp [Apart],overrun,overrun⟩

end MicroOS.Strings

import MicroOS.Streams
import MicroOS.Terminals

/-! The buffers in which `ansi_process` collects the escapes of each terminal. -/

namespace MicroOS.Escapes
open Console ConsoleBounds Streams
open Terminals (Term)
open Function (update update_of_ne)

/-- Characters written to the terminals, in any order. -/
abbrev Stream := List (Term × UInt8)

def InBuffer (term : Nat) (at_ : Int) : Prop := ansi_esc_buffer term ≤ at_ ∧ at_ < ansi_esc_buffer term + 32

/-- A character of an escape is written to the buffer of its terminal, the NUL behind the letter too, and the parameters to
`args`, whether the sequence is a command or malformed. The arrays have no element for the last terminal. -/
structure Inside (s : Display) (term : Nat) (c : UInt8) : Prop where
  own : term < MAX_VTERM
  room : InBuffer term (place s.ansi term)
  close : isalpha c = true → InBuffer term (place (keep s.ansi term c) term)
  args : isalpha c = true → (parse_ansi (collected (finish (keep s.ansi term c) term) term)).stored ≤ 32

/-- The index is 0 while no escape is collected. -/
def Idle (s : Display) : Prop :=
  ∀ term, 1 ≤ term → term < MAX_VTERM → s.ansi (ansi_esc term) = 0 → place s.ansi term = ansi_esc_buffer term

/-- Behind every character of the stream. -/
def Right : Stream → Display → Prop
  | [],s => Idle s
  | (t,c) :: stream,s => Idle s ∧ (escaping s.ansi t c = true → Inside s t c) ∧ ∃ r, text_console_putc s t c = some r ∧
      (isalpha c = true → ∀ d, d ≠ 27 → ansi_process r.1 t d = some (r.1,[],d)) ∧ Right stream r.1

def adds (p : List UInt8) (c : UInt8) : List UInt8 :=
  if c = 27 ∨ p ≠ [] then (if isalpha c then [] else p ++ [c]) else []

/-- The sequence that no letter has ended yet. -/
def pending (bytes : List UInt8) : List UInt8 := bytes.foldl adds []

/-- A character that continues a sequence has room behind it, for a letter and a NUL or for itself, and its terminal has a buffer. -/
structure Fit (t : Nat) (p : List UInt8) (c : UInt8) : Prop where
  own : t < MAX_VTERM
  room : p.length < 32
  close : isalpha c = true → p.length < 31

/-- Every character of an escape has room. -/
def Short (stream : Stream) : Prop := ∀ (front : Stream) (x : Term × UInt8) (back : Stream), stream = front ++ x :: back →
  x.2 = 27 ∨ pending (own x.1 front) ≠ [] → Fit x.1 (pending (own x.1 front)) x.2

section
variable {ansi mem : Nat → UInt8} {t u : Nat}

theorem place_congr (same : ∀ i, ansi_esc_buffer_index t ≤ i → i < ansi_esc_buffer_index t + 4 → ansi i = mem i) :
    place ansi t = place mem t := by
  have bytes : ∀ k ∈ List.range 4, ∀ n,
      n * 2 ^ 8 + (ansi (ansi_esc_buffer_index t + k)).toNat = n * 2 ^ 8 + (mem (ansi_esc_buffer_index t + k)).toNat :=
    fun k mem_range n => by rw [same _ (Nat.le_add_right _ _) (Nat.add_lt_add_left (List.mem_range.mp mem_range) _)]
  rw [place,place,List.foldr_ext _ _ 0 bytes]

theorem setIndex_other {word : Word} {i : Nat} (other : ¬(ansi_esc_buffer_index t ≤ i ∧ i < ansi_esc_buffer_index t + 4)) :
    setIndex ansi t word i = ansi i := if_neg other

theorem place_setIndex {k : Nat} (small : k < 256) : place (setIndex ansi t (BitVec.ofNat 32 k)) t = ansi_esc_buffer t + k := by
  have word : (BitVec.ofNat 32 k).toNat = k := by
    rw [BitVec.toNat_ofNat]
    omega
  have byte : ∀ j < 4, setIndex ansi t (BitVec.ofNat 32 k) (ansi_esc_buffer_index t + j) = UInt8.ofNat (if j = 0 then k else 0) := by
    intro j below
    rw [setIndex,if_pos ⟨Nat.le_add_right _ _,Nat.add_lt_add_left below _⟩,Nat.add_sub_cancel_left,word]
    split_ifs with first
    · rw [first]
      simp
    · rw [Nat.div_eq_of_lt]
      exact small.trans_le (show 2 ^ 8 ≤ 2 ^ (8 * j) from Nat.pow_le_pow_right (by omega) (by omega))
  have bytes : (List.range 4).foldr (fun j n => n * 2 ^ 8 + (setIndex ansi t (BitVec.ofNat 32 k) (ansi_esc_buffer_index t + j)).toNat) 0 = k := by
    have each : ∀ j ∈ List.range 4, ∀ n, n * 2 ^ 8 + (setIndex ansi t (BitVec.ofNat 32 k) (ansi_esc_buffer_index t + j)).toNat =
        n * 2 ^ 8 + if j = 0 then k else 0 := by
      intro j inside n
      rw [byte j (List.mem_range.mp inside)]
      split_ifs
      · rw [UInt8.toNat_ofNat',Nat.mod_eq_of_lt small]
      · rfl
    rw [List.foldr_ext _ _ 0 each]
    simp [List.range_succ]
  rw [place,bytes]
  have int : (BitVec.ofNat 32 k).toInt = k := by
    rw [BitVec.toInt_eq_toNat_cond,word,if_pos (by omega)]
  rw [int]

/-- A place in the fields of a terminal. -/
def Mine (t i : Nat) : Prop :=
  i = ansi_esc t ∨ ansi_esc_buffer t ≤ i ∧ i < ansi_esc_buffer t + 32 ∨ ansi_esc_buffer_index t ≤ i ∧ i < ansi_esc_buffer_index t + 4 ∨
    i = ansi_bright t

/-- Everything else is unchanged. -/
def Framed (t : Nat) (ansi mem : Nat → UInt8) : Prop := ∀ i, ¬Mine t i → mem i = ansi i

/-- The fields show how long the sequence of a terminal is. -/
structure Shows (ansi : Nat → UInt8) (t : Nat) (p : List UInt8) : Prop where
  flag : ansi (ansi_esc t) = 0 ↔ p = []
  index : place ansi t = ansi_esc_buffer t + p.length
  fits : p.length ≤ 32

theorem not_mine {t u i : Nat} (low : 1 ≤ t) (high : t < 4) (low' : 1 ≤ u) (high' : u < 4) (other : u ≠ t) (mine : Mine u i) : ¬Mine t i := by
  simp only [Mine,ansi_esc,ansi_esc_buffer,ansi_esc_buffer_index,ansi_bright] at *
  omega

theorem Shows.frame {p : List UInt8} (shows : Shows ansi u p) (framed : Framed t ansi mem) (low : 1 ≤ t) (high : t < 4) (low' : 1 ≤ u)
    (high' : u < 4) (other : u ≠ t) : Shows mem u p := by
  have mine {i : Nat} (here : Mine u i) : mem i = ansi i := framed i (not_mine low high low' high' other here)
  refine ⟨?_,?_,shows.fits⟩
  · rw [mine (.inl rfl)]
    exact shows.flag
  · rw [place_congr fun i low high => mine (.inr (.inr (.inl ⟨low,high⟩)))]
    exact shows.index

end

section
variable {s : Display} {t : Nat} {c : UInt8} {p : List UInt8}

theorem escaping_iff (shows : Shows s.ansi t p) : escaping s.ansi t c = true ↔ c = 27 ∨ p ≠ [] := by
  simp [escaping,shows.flag]

theorem place_update {ansi : Nat → UInt8} {i : Nat} (b : UInt8) (other : ¬(ansi_esc_buffer_index t ≤ i ∧ i < ansi_esc_buffer_index t + 4)) :
    place (update ansi i b) t = place ansi t :=
  place_congr fun j low high => update_of_ne (by
    rintro rfl
    exact other ⟨low,high⟩) _ _

/-- The fields of a terminal do not overlap. -/
theorem fields_apart (low : 1 ≤ t) (high : t < 4) {n : Nat} (room : n < 32) :
    ¬(ansi_esc_buffer_index t ≤ ansi_esc_buffer t + n ∧ ansi_esc_buffer t + n < ansi_esc_buffer_index t + 4) ∧
      ¬(ansi_esc_buffer_index t ≤ ansi_esc t ∧ ansi_esc t < ansi_esc_buffer_index t + 4) ∧ ansi_esc t ≠ ansi_esc_buffer t + n := by
  simp only [ansi_esc,ansi_esc_buffer_index,ansi_esc_buffer]
  omega

/-- The fields while a character is kept. -/
theorem keep_shows (low : 1 ≤ t) (high : t < 4) (shows : Shows s.ansi t p) (escape : c = 27 ∨ p ≠ []) (room : p.length < 32) :
    Shows (keep s.ansi t c) t (p ++ [c]) ∧ Framed t s.ansi (keep s.ansi t c) := by
  have index := shows.index
  obtain ⟨ansi,ansi_eq⟩ : ∃ ansi, (if c = 27 then update s.ansi (ansi_esc t) 1 else s.ansi) = ansi := ⟨_,rfl⟩
  have flagged : ansi (ansi_esc t) ≠ 0 := by
    rw [← ansi_eq]
    split_ifs with start
    · simp
    · exact fun zero => (escape.resolve_left start) (shows.flag.mp zero)
  have others {i : Nat} (other : i ≠ ansi_esc t) : ansi i = s.ansi i := by
    rw [← ansi_eq]
    split_ifs
    · exact update_of_ne other _ _
    · rfl
  have same_place : place ansi t = place s.ansi t := place_congr fun i low high => others (by
    simp only [ansi_esc,ansi_esc_buffer_index] at *
    omega)
  have keep_eq : keep s.ansi t c = update (setIndex ansi t (BitVec.ofNat 32 (p.length + 1))) (ansi_esc_buffer t + p.length) c := by
    have next : place ansi t - ansi_esc_buffer t + 1 = ((p.length + 1 : Nat) : Int) := by
      rw [same_place,index]
      push_cast
      omega
    have here : (place ansi t).toNat = ansi_esc_buffer t + p.length := by
      rw [same_place,index]
      omega
    rw [keep,ansi_eq,next,here,BitVec.ofInt_natCast]
  obtain ⟨apart,esc_outside,esc_other⟩ := fields_apart low high room
  rw [keep_eq]
  refine ⟨⟨?_,?_,by simp; omega⟩,fun i other => ?_⟩
  · rw [update_of_ne esc_other,setIndex_other esc_outside]
    exact iff_of_false flagged (by simp)
  · rw [place_update c apart,place_setIndex (by omega)]
    simp
  · simp only [Mine,not_or] at other
    rw [update_of_ne (by omega),setIndex_other other.2.2.1,others other.1]

/-- The fields once an escape is complete. -/
theorem finish_shows {ansi : Nat → UInt8} (low : 1 ≤ t) (high : t < 4) (shows : Shows ansi t p) (room : p.length < 32) :
    Shows (finish ansi t) t [] ∧ Framed t ansi (finish ansi t) ∧ finish ansi t (ansi_esc_buffer t + p.length) = 0 := by
  have here : (place ansi t).toNat = ansi_esc_buffer t + p.length := by
    rw [shows.index]
    omega
  obtain ⟨apart,esc_outside,esc_other⟩ := fields_apart low high room
  refine ⟨⟨?_,?_,by simp⟩,fun i other => ?_,?_⟩
  · rw [finish,setIndex_other esc_outside]
    simp
  · exact place_setIndex (k := 0) (by omega)
  · simp only [Mine,not_or] at other
    rw [finish,setIndex_other other.2.2.1,update_of_ne other.1,here,update_of_ne (by omega)]
  · rw [finish,setIndex_other apart,update_of_ne esc_other.symm,here,Function.update_self]

/-- How many characters stand in front of the NUL. -/
def before_nul (input : List UInt8) : Nat := (input.takeWhile (· ≠ 0)).length

theorem before_nul_cons {rest : List UInt8} (c : UInt8) (nonzero : c ≠ 0) : before_nul (c :: rest) = before_nul rest + 1 := by
  simp [before_nul,nonzero]

theorem parse_digits_before (base : Word) (input : List UInt8) (number : Word) :
    before_nul (parse_digits base input number).2 ≤ before_nul input := by
  induction input generalizing number with
  | nil => simp [parse_digits]
  | cons c rest ih =>
    rw [parse_digits]
    split
    · rename_i d digit_
      have nonzero : c ≠ 0 := by
        rintro rfl
        have : digit 0 = none := by decide
        simp [this] at digit_
      rw [before_nul_cons c nonzero]
      exact (ih _).trans (Nat.le_succ _)
    · exact le_refl _

theorem parse_number_before (input : List UInt8) : before_nul (parse_number input).2 ≤ before_nul input := by
  rw [parse_number.eq_def]
  split
  · rw [before_nul_cons 48 (by decide),before_nul_cons 120 (by decide)]
    exact (parse_digits_before 16 _ 0).trans (by omega)
  · rw [before_nul_cons 48 (by decide),before_nul_cons 98 (by decide)]
    exact (parse_digits_before 2 _ 0).trans (by omega)
  · exact parse_digits_before 10 input 0

/-- A number that begins with a digit takes it. -/
theorem parse_number_below {rest : List UInt8} (first : isdigit c = true) : before_nul (parse_number (c :: rest)).2 ≤ before_nul rest := by
  rw [parse_number.eq_def]
  split
  · rename_i same
    obtain ⟨rfl,rfl⟩ := List.cons.inj same
    rw [before_nul_cons 120 (by decide)]
    exact (parse_digits_before 16 _ 0).trans (Nat.le_succ _)
  · rename_i same
    obtain ⟨rfl,rfl⟩ := List.cons.inj same
    rw [before_nul_cons 98 (by decide)]
    exact (parse_digits_before 2 _ 0).trans (Nat.le_succ _)
  · have some_ : digit c = some (c.toNat - 48) := by
      rw [isdigit] at first
      rw [digit,if_pos first]
    rw [parse_digits,some_]
    exact parse_digits_before 10 rest _

/-- Every parameter takes a character in front of the NUL. -/
theorem parameters_count (fuel : Nat) (input : List UInt8) (args : List Word) :
    (parameters fuel input args).stored ≤ args.length + before_nul input := by
  induction fuel generalizing input args with
  | zero => exact Nat.zero_le _
  | succ fuel ih =>
    cases input with
    | nil => exact Nat.zero_le _
    | cons c rest =>
      rw [parameters]
      split_ifs with separator letter zero other
      · have count := ih (parse_number rest).2 (args ++ [(parse_number rest).1])
        have below := parse_number_before rest
        rw [before_nul_cons c (by rw [separator]; decide)]
        simp at count
        omega
      · exact Nat.le_add_right _ _
      · exact Nat.le_add_right _ _
      · exact Nat.le_add_right _ _
      · have count := ih (parse_number (c :: rest)).2 (args ++ [(parse_number (c :: rest)).1])
        have is_digit : isdigit c = true := by simpa using other
        have below := @parse_number_below c rest is_digit
        rw [before_nul_cons c zero]
        simp at count
        omega

theorem before_nul_le {input : List UInt8} {k : Nat} (nul : input[k]? = some 0) : before_nul input ≤ k := by
  induction input generalizing k with
  | nil => cases nul
  | cons c rest ih =>
    by_cases zero : c = 0
    · simp [before_nul,zero]
    · rw [before_nul_cons c zero]
      cases k with
      | zero => exact (zero (Option.some.inj nul)).elim
      | succ k => exact Nat.succ_le_succ (ih nul)

/-- A sequence in the buffer has no more parameters than `args`. -/
theorem args_count {ansi : Nat → UInt8} {k : Nat} (nul : ansi (ansi_esc_buffer t + k) = 0) (room : k < 32) (high : t < 4) :
    (parse_ansi (collected ansi t)).stored ≤ 32 := by
  have short : before_nul (collected ansi t) ≤ k := before_nul_le (by
    have inside : k < ANSI_FIELDS - ansi_esc_buffer t := by
      simp only [ANSI_FIELDS,ansi_esc_buffer]
      omega
    rw [collected,List.getElem?_map,List.getElem?_range inside]
    exact congrArg some nul)
  rw [parse_ansi.eq_def]
  split
  · rename_i rest same
    rw [same,before_nul_cons 27 (by decide),before_nul_cons 91 (by decide)] at short
    have count := parameters_count (rest.length + 1) rest []
    simp at count
    omega
  · exact Nat.zero_le _

/-- A command keeps the fields, other than the brightness of its terminal. -/
def Settles (t : Nat) (s : Display) (r : Option Display) : Prop := ∃ d, r = some d ∧ ∀ i, i ≠ ansi_bright t → d.ansi i = s.ansi i

theorem setBright_settles (high : t < 4) (b : UInt8) : Settles t s (setBright s t b) := by
  have inside : ansi_bright t < ANSI_FIELDS := by
    simp only [ansi_bright,ANSI_FIELDS]
    omega
  exact ⟨_,by rw [setBright,if_pos inside],fun i other => update_of_ne other _ _⟩

theorem ansi_color_settles (high : t < 4) (a : Word) : Settles t s (ansi_color t s a) := by
  have inside : ansi_bright t < ANSI_FIELDS := by
    simp only [ansi_bright,ANSI_FIELDS]
    omega
  rw [ansi_color]
  split_ifs
  · exact setBright_settles high 0
  · exact setBright_settles high 1
  · rw [pallet,if_pos inside]
    exact ⟨_,rfl,fun i other => rfl⟩
  · rw [pallet,if_pos inside]
    exact ⟨_,rfl,fun i other => rfl⟩
  · exact ⟨s,rfl,fun i other => rfl⟩

theorem ansi_colors_settle (high : t < 4) (argv : List Word) : Settles t s (argv.foldlM (ansi_color t) s) := by
  induction argv generalizing s with
  | nil => exact ⟨s,rfl,fun i other => rfl⟩
  | cons a argv ih =>
    obtain ⟨d,first,same⟩ := @ansi_color_settles s t high a
    obtain ⟨e,rest,same'⟩ := @ih d
    exact ⟨e,by rw [List.foldlM_cons,first]; exact rest,fun i other => (same' i other).trans (same i other)⟩

theorem erase_ansi (s : Display) (t : Nat) (range : Option (Int × Int)) : (erase s t range).1.ansi = s.ansi := by
  rw [erase.eq_def]
  cases range with
  | none => rfl
  | some range => exact show_ansi s t _

theorem ansi_run_settles (high : t < 4) (f : UInt8) (argv : List Word) : Settles t s ((ansi_run s t f argv).map Prod.fst) := by
  rw [ansi_run.eq_def]
  split_ifs
  · cases argv with
    | nil =>
      obtain ⟨d,same,kept⟩ := @setBright_settles (text_console_set_color (text_console_set_color s t "black" true) t "white" false) t high 0
      exact ⟨d,by rw [plain_colors,same]; rfl,kept⟩
    | cons a argv =>
      obtain ⟨d,same,kept⟩ := @ansi_colors_settle s t high (a :: argv)
      exact ⟨d,by simp only [same]; rfl,kept⟩
  · split <;> exact ⟨_,rfl,fun i other => rfl⟩
  · exact ⟨_,rfl,fun i other => congrFun (erase_ansi ..) i⟩
  · exact ⟨_,rfl,fun i other => congrFun (erase_ansi ..) i⟩
  · exact ⟨s,rfl,fun i other => rfl⟩

theorem ansi_process_args_settles (high : t < 4) {k : Nat} (nul : s.ansi (ansi_esc_buffer t + k) = 0) (room : k < 32)
    (stays : parse_ansi (collected s.ansi t) ≠ .leaves) : Settles t s ((ansi_process_args s t).map Prod.fst) := by
  rw [ansi_process_args]
  cases parsed : parse_ansi (collected s.ansi t) with
  | leaves => exact (stays parsed).elim
  | nothing argv =>
    have count : argv.length ≤ 32 := by simpa [parsed,Parsed.stored] using args_count nul room high
    simp only [if_pos count]
    exact ⟨s,rfl,fun i other => rfl⟩
  | command f argv =>
    have count : argv.length ≤ 32 := by simpa [parsed,Parsed.stored] using args_count nul room high
    simp only [if_pos count]
    exact ansi_run_settles high f argv

/-- A character of an escape, when there is room for it. -/
theorem ansi_process_escape (low : 1 ≤ t) (shows : Shows s.ansi t p) (escape : c = 27 ∨ p ≠ []) (fit : Fit t p c) :
    Inside s t c ∧ ∃ d w, ansi_process s t c = some (d,w,0) ∧ Shows d.ansi t (adds p c) ∧ Framed t s.ansi d.ansi := by
  have high : t < 4 := fit.own
  have escaped := (escaping_iff shows).mpr escape
  have inside {i : Int} (here : InBuffer t i) : inFields i = true := by
    simp only [InBuffer,ansi_esc_buffer] at here
    rw [inFields,Bool.and_eq_true]
    exact ⟨decide_eq_true (by omega),decide_eq_true (by rw [ANSI_FIELDS]; omega)⟩
  have room : InBuffer t (place s.ansi t) := by
    rw [InBuffer,shows.index]
    have := fit.room
    omega
  obtain ⟨kept,framed⟩ := keep_shows low high shows escape fit.room
  have close (letter : isalpha c = true) : InBuffer t (place (keep s.ansi t c) t) := by
    have := fit.close letter
    rw [InBuffer,kept.index,List.length_append,List.length_singleton]
    omega
  rw [ansi_process,if_pos escaped,if_pos (inside room)]
  cases letter : isalpha c with
  | false =>
    refine ⟨⟨fit.own,room,close,fun is_letter => Bool.noConfusion (is_letter.symm.trans letter)⟩,_,_,rfl,?_,framed⟩
    rw [adds,if_pos escape,letter,if_neg Bool.false_ne_true]
    exact kept
  | true =>
    have more := fit.close letter
    have room' : (p ++ [c]).length < 32 := by simp; omega
    obtain ⟨finished,framed',nul⟩ := finish_shows low high kept room'
    refine ⟨⟨fit.own,room,close,fun _ => args_count nul room' high⟩,?_⟩
    obtain ⟨d,ran,same⟩ :=
      @ansi_process_args_settles {s with ansi := finish (keep s.ansi t c) t} t high _ nul room' (parse_ansi_stays low (by omega))
    obtain ⟨⟨e,w⟩,processed,rfl⟩ := Option.map_eq_some_iff.mp ran
    simp only [if_pos (inside (close letter)),if_true,processed]
    have fields {i : Nat} (other : i ≠ ansi_bright t) : e.ansi i = finish (keep s.ansi t c) t i := same i other
    refine ⟨e,w,rfl,?_,fun i other => ?_⟩
    · rw [adds,if_pos escape,letter,if_pos rfl]
      refine ⟨?_,?_,by simp⟩
      · rw [fields (by simp only [ansi_esc,ansi_bright]; omega)]
        exact finished.flag
      · rw [place_congr fun i low high => fields (by simp only [ansi_esc_buffer_index,ansi_bright] at *; omega)]
        exact finished.index
    · have not_bright : i ≠ ansi_bright t := fun bright => other (.inr (.inr (.inr bright)))
      rw [fields not_bright,framed' i other,framed i other]

/-- Any other character leaves the fields alone. -/
theorem ansi_process_plain (outside : escaping s.ansi t c = false) : ansi_process s t c = some (s,[],c) := by
  rw [ansi_process,if_neg (by simp [outside])]

theorem text_console_putc_ansi {d : Display} {w : Writes} {k : UInt8} (processed : ansi_process s t c = some (d,w,k)) :
    ∃ r, text_console_putc s t c = some r ∧ r.1.ansi = d.ansi := by
  rw [text_console_putc,processed]
  dsimp only
  split_ifs
  · exact ⟨_,rfl,rfl⟩
  · exact ⟨_,rfl,show_ansi ..⟩

end

/-- The fields after a stream: the last terminal has none, and the place where its flag is looked for stays 0. -/
structure Holds (ansi : Nat → UInt8) (front : Stream) : Prop where
  shows : ∀ t : Term, t.1 < MAX_VTERM → Shows ansi t (pending (own t front))
  last : ansi (ansi_esc MAX_VTERM) = 0
  unused : ∀ t : Term, ¬t.1 < MAX_VTERM → pending (own t front) = []

section
variable {s : Display} {front : Stream} {t : Term} {c : UInt8}

theorem holds_escaping (holds : Holds s.ansi front) : escaping s.ansi t c = true ↔ c = 27 ∨ pending (own t front) ≠ [] := by
  by_cases inside : t.1 < MAX_VTERM
  · exact escaping_iff (holds.shows t inside)
  · have is_last : t.1 = MAX_VTERM := by
      have := t.2.2
      omega
    simp [escaping,is_last,holds.last,holds.unused t inside]

theorem holds_idle (holds : Holds s.ansi front) : Idle s := by
  intro term low high quiet
  have shows := holds.shows ⟨term,low,high.le⟩ high
  rw [shows.index,shows.flag.mp quiet]
  simp

theorem pending_snoc (t : Term) (front : Stream) (c : UInt8) : pending (own t (front ++ [(t,c)])) = adds (pending (own t front)) c := by
  rw [own_snoc_self,pending,List.foldl_append]
  rfl

/-- A character whose escape, if it belongs to one, has room. -/
theorem step_holds (holds : Holds s.ansi front) (fit : c = 27 ∨ pending (own t front) ≠ [] → Fit t (pending (own t front)) c) :
    (escaping s.ansi t c = true → Inside s t c) ∧ ∃ r, text_console_putc s t c = some r ∧ Holds r.1.ansi (front ++ [(t,c)]) := by
  by_cases escape : c = 27 ∨ pending (own t front) ≠ []
  · have fits := fit escape
    obtain ⟨inside,d,w,processed,shows,framed⟩ := ansi_process_escape t.2.1 (holds.shows t fits.own) escape fits
    obtain ⟨r,put_,same⟩ := text_console_putc_ansi processed
    refine ⟨fun _ => inside,r,put_,?_⟩
    rw [same]
    refine ⟨fun u high => ?_,?_,fun u outside => ?_⟩
    · by_cases here : t = u
      · obtain rfl := here
        rw [pending_snoc]
        exact shows
      · rw [own_snoc_other here]
        exact (holds.shows u high).frame framed t.2.1 fits.own u.2.1 high (fun same => here (Subtype.ext same.symm))
    · have := fits.own
      rw [framed]
      · exact holds.last
      · have low := t.2.1
        simp only [Mine,ansi_esc,ansi_esc_buffer,ansi_esc_buffer_index,ansi_bright,MAX_VTERM] at *
        omega
    · have here : t ≠ u := fun same => outside (same ▸ fits.own)
      rw [own_snoc_other here]
      exact holds.unused u outside
  · have outside : escaping s.ansi t c = false := by
      rw [← Bool.not_eq_true,holds_escaping holds]
      exact escape
    obtain ⟨r,put_,same⟩ := text_console_putc_ansi (ansi_process_plain outside)
    refine ⟨fun escaped => Bool.noConfusion (escaped.symm.trans outside),r,put_,?_⟩
    have unchanged (u : Term) : pending (own u (front ++ [(t,c)])) = pending (own u front) := by
      by_cases here : t = u
      · obtain rfl := here
        simp only [not_or,not_not] at escape
        rw [pending_snoc,adds,if_neg (by simp [escape]),escape.2]
      · rw [own_snoc_other here]
    rw [same]
    exact ⟨fun u high => unchanged u ▸ holds.shows u high,holds.last,fun u high => unchanged u ▸ holds.unused u high⟩

/-- A character of an escape that is written inside of the buffer has room. -/
theorem inside_fit (holds : Holds s.ansi front) (escape : c = 27 ∨ pending (own t front) ≠ []) (inside : Inside s t c) :
    Fit t (pending (own t front)) c := by
  have shows := holds.shows t inside.own
  have room : (pending (own t front)).length < 32 := by
    have := inside.room.2
    rw [shows.index] at this
    omega
  refine ⟨inside.own,room,fun letter => ?_⟩
  have := (inside.close letter).2
  rw [(keep_shows t.2.1 inside.own shows escape room).1.index,List.length_append,List.length_singleton] at this
  push_cast at this
  omega

/-- No escape is collected behind a letter. -/
theorem letter_passes {r : Display × Writes} (holds : Holds r.1.ansi (front ++ [(t,c)])) (letter : isalpha c = true) (d : UInt8) (plain : d ≠ 27) :
    ansi_process r.1 t d = some (r.1,[],d) := by
  refine ansi_process_plain ?_
  rw [← Bool.not_eq_true,holds_escaping holds,pending_snoc,adds]
  simp [letter,plain]

/-- A stream is written in order when every character of an escape has room, behind what was written before. -/
theorem right_iff (holds : Holds s.ansi front) (stream : Stream) : Right stream s ↔
    ∀ (before : Stream) (x : Term × UInt8) (back : Stream), stream = before ++ x :: back →
      x.2 = 27 ∨ pending (own x.1 (front ++ before)) ≠ [] → Fit x.1 (pending (own x.1 (front ++ before))) x.2 := by
  induction stream generalizing s front with
  | nil => exact iff_of_true (holds_idle holds) fun before x back split => by simp at split
  | cons x stream ih =>
    obtain ⟨t,c⟩ := x
    rw [@forall_splits_cons _ _ _ fun before (x : Term × UInt8) _ =>
      x.2 = 27 ∨ pending (own x.1 (front ++ before)) ≠ [] → Fit x.1 (pending (own x.1 (front ++ before))) x.2]
    have later {d : Display} (holds' : Holds d.ansi (front ++ [(t,c)])) := @ih d _ holds'
    simp only [List.append_assoc,List.singleton_append] at later
    simp only [List.append_nil]
    constructor
    · rintro ⟨-,inside,r,put_,-,rest⟩
      have fit : c = 27 ∨ pending (own t front) ≠ [] → Fit t (pending (own t front)) c := fun escape =>
        inside_fit holds escape (inside ((holds_escaping holds).mpr escape))
      obtain ⟨-,r',put_',holds'⟩ := step_holds holds fit
      obtain rfl := Option.some.inj (put_.symm.trans put_')
      exact ⟨fit,(later holds').mp rest⟩
    · rintro ⟨fit,rest⟩
      obtain ⟨inside,r,put_,holds'⟩ := step_holds holds fit
      exact ⟨holds_idle holds,inside,r,put_,fun letter d plain => letter_passes holds' letter d plain,(later holds').mpr rest⟩

end

/-- The fields are cleared when the driver is registered. -/
def cleared (s : Display) : Display := {s with ansi := fun _ => 0}

theorem cleared_holds (s : Display) : Holds (cleared s).ansi [] := by
  refine ⟨fun t high => ⟨iff_of_true rfl rfl,?_,by simp [pending]⟩,rfl,fun t high => rfl⟩
  simp [place,cleared,pending,List.range_succ]

theorem right_short (s : Display) (stream : Stream) : Right stream (cleared s) ↔ Short stream := right_iff (cleared_holds s) stream

/-- The escapes of a stream are collected inside of their buffers, and each terminal is ready for plain characters behind a
letter, exactly when no sequence is longer than its buffer and the last terminal gets none. -/
theorem escapes_collected (s : Display) (stream : Stream) : Right stream (cleared s) ↔ Short stream := right_short s stream

/-- An escape and 32 digits behind it, on the first terminal. -/
def digits : Stream := (27 :: List.replicate 32 49).map fun c => (Terminals.first,c)

/-- The last digit is written behind the buffer. -/
theorem digits_outside : ¬∀ (s : Display) (stream : Stream), Right stream (cleared s) := by
  intro always
  have short := (right_short _ digits).mp (always (text_console_early (fun _ => 0) fun _ _ => 0) digits)
  have length : (pending (own ⟨1,by decide⟩ (digits.take 32))).length = 32 := by decide
  have collecting : pending (own ⟨1,by decide⟩ (digits.take 32)) ≠ [] := by
    intro empty
    rw [empty] at length
    cases length
  have room := (short (digits.take 32) (⟨1,by decide⟩,49) [] rfl (.inr collecting)).room
  exact absurd length room.ne

end MicroOS.Escapes

import MicroOS.Strings

/-!
libc's `FILE`: a descriptor and a 32-bit position. The calls on one stream as
`stdio/file.c` makes them, and the C model of a byte array with a position.
-/
namespace MicroOS.StdioStreams
open Strings

abbrev Word := BitVec 32

inductive Whence
  | set | cur | fromEnd
  deriving DecidableEq

/-- A call on the stream. `fwrite` finds its bytes at `ptr`, `fputs` those of its string. -/
inductive Op
  | fread (size nmemb : Word)
  | fwrite (size nmemb : Word) (ptr : Nat → UInt8)
  | fputc (c : UInt8)
  | fputs (s : List UInt8)
  | fseek (offset : Word) (whence : Whence)
  | ftell
  | getc
  | feof
  | ftruncate

/-- What a call gives its caller: nothing, a number, or a number with bytes. -/
inductive Value
  | nothing
  | number (n : Int)
  | bytes (count : Nat) (delivered : List UInt8)

/-- A range of the file that the kernel is asked to read. -/
structure Ask where
  offset : Nat
  count : Nat

def zeros (n : Nat) : List UInt8 := List.replicate n 0

/-- The bytes [offset, offset+count) as far as the file has them. -/
def read_at (content : List UInt8) (offset count : Nat) : List UInt8 := (content.drop offset).take count

/-- Bytes stored at [offset, ..); a gap before them reads as zeros. -/
def write_at (content : List UInt8) (offset : Nat) (bytes : List UInt8) : List UInt8 :=
  if bytes = [] then content else
  (content ++ zeros (offset - content.length)).take offset ++ bytes ++ content.drop (offset + bytes.length)

def truncate_to (content : List UInt8) (new_size : Nat) : List UInt8 :=
  content.take new_size ++ zeros (new_size - content.length)

/-- The first `n` bytes at `ptr`. -/
def memory_at (ptr : Nat → UInt8) (n : Nat) : List UInt8 := (List.range n).map ptr

def EOF : Int := 0xffff

/-- The file's bytes and the stream's position. -/
structure Stream where
  content : List UInt8
  pos : Word

/-- What a call leaves, gives, and asked of the kernel. -/
structure Outcome where
  stream : Stream
  value : Value
  asks : List Ask

def filesize (s : Stream) : Word := BitVec.ofNat 32 s.content.length

def fread (s : Stream) (size nmemb : Word) : Outcome :=
  let total := size * nmemb
  ⟨{ s with pos := s.pos + total },.bytes total.toNat (read_at s.content s.pos.toNat total.toNat),[⟨s.pos.toNat,total.toNat⟩]⟩

/-- `write(fd, bytes, count, pos); pos += count; return value` -/
def put (s : Stream) (bytes : List UInt8) (count : Word) (value : Int) : Outcome :=
  ⟨⟨write_at s.content s.pos.toNat bytes,s.pos + count⟩,.number value,[]⟩

def fwrite (s : Stream) (size nmemb : Word) (ptr : Nat → UInt8) : Outcome :=
  let total := size * nmemb
  put s (memory_at ptr total.toNat) total total.toNat

def fputs (s : Stream) (text : List UInt8) : Outcome :=
  let length := BitVec.ofNat 32 text.length
  put s (text.take length.toNat) length 0

def fputc (s : Stream) (c : UInt8) : Outcome := put s [c] 1 0

def fseek (s : Stream) (offset : Word) : Whence → Outcome
  | .set => ⟨{ s with pos := offset },.number 0,[]⟩
  | .cur => ⟨{ s with pos := s.pos + offset },.number 0,[]⟩
  | .fromEnd => ⟨{ s with pos := filesize s },.number 0,[]⟩

/-- `char c; fread(&c, 1, 1, stream); return c;` behind the test for the end. -/
def getc (s : Stream) : Outcome :=
  if filesize s ≤ s.pos then ⟨s,.number EOF,[]⟩
  else
    let out := fread s 1 1
    { out with value := .number (char_value ((read_at s.content s.pos.toNat 1).headD 0)) }

def feof (s : Stream) : Outcome := ⟨s,.number (if filesize s ≤ s.pos then 1 else 0),[]⟩

def step (s : Stream) : Op → Outcome
  | .fread size nmemb => fread s size nmemb
  | .fwrite size nmemb ptr => fwrite s size nmemb ptr
  | .fputc c => fputc s c
  | .fputs text => fputs s text
  | .fseek offset whence => fseek s offset whence
  | .ftell => ⟨s,.number s.pos.toNat,[]⟩
  | .getc => getc s
  | .feof => feof s
  | .ftruncate => ⟨{ s with content := truncate_to s.content s.pos.toNat },.nothing,[]⟩

/-- A byte array and a position in it. -/
structure Model where
  content : List UInt8
  pos : Nat

/-- The elements before the end of the file. -/
def Model.available (m : Model) (size nmemb : Nat) : Nat :=
  if size = 0 then 0 else min nmemb ((m.content.length - m.pos) / size)

def Model.base (m : Model) : Whence → Int
  | .set => 0
  | .cur => m.pos
  | .fromEnd => m.content.length

def Model.write (m : Model) (bytes : List UInt8) : Model := ⟨write_at m.content m.pos bytes,m.pos + bytes.length⟩

/-- A call of the model: the state after it and which values it may give. -/
def Model.step (m : Model) : Op → Model × (Value → Prop)
  | .fread size nmemb =>
    let elements := m.available size.toNat nmemb.toNat
    ({ m with pos := m.pos + elements * size.toNat },
      (· = .bytes elements (read_at m.content m.pos (elements * size.toNat))))
  | .fwrite size nmemb ptr =>
    (m.write (memory_at ptr (size.toNat * nmemb.toNat)),(· = .number (if size = 0 then 0 else nmemb.toNat)))
  -- success is any value but EOF
  | .fputc c => (m.write [c],fun v => v ≠ .number EOF)
  | .fputs text => (m.write text,fun v => v ≠ .number EOF)
  | .fseek offset whence =>
    let target := m.base whence + offset.toInt
    if 0 ≤ target then ({ m with pos := target.toNat },(· = .number 0)) else (m,(· ≠ .number 0))
  | .ftell => (m,(· = .number m.pos))
  | .getc =>
    match m.content[m.pos]? with
    | some c => ({ m with pos := m.pos + 1 },(· = .number c.toNat))
    | none => (m,(· = .number EOF))
  | .feof => (m,(· = .number (if m.content.length ≤ m.pos then 1 else 0)))
  | .ftruncate => ({ m with content := truncate_to m.content m.pos },(· = .nothing))

/-- The state the stream stands for. -/
def Stream.model (s : Stream) : Model := ⟨s.content,s.pos.toNat⟩

/-- Through a sequence of calls the stream is in the model's state, gives a
    value the model allows, and asks for no byte behind the file's end. -/
def Behaves : Stream → Model → List Op → Prop
  | s,m,[] => s.model = m
  | s,m,op :: ops =>
    s.model = m ∧ (m.step op).2 (step s op).value ∧ (∀ ask ∈ (step s op).asks, ask.offset + ask.count ≤ s.content.length) ∧
      Behaves (step s op).stream (m.step op).1 ops

/-- The state before a call and its arguments are such that the call does what
    the model does. -/
def Fine (s : Stream) : Op → Prop
  | .fread size nmemb =>
    s.pos.toNat + (size * nmemb).toNat ≤ s.content.length ∧
      (size = 1 ∨ size * nmemb = 0 ∧ (size = 0 ∨ nmemb = 0 ∨ s.content.length - s.pos.toNat < size.toNat))
  | .fwrite size nmemb _ => s.pos.toNat + size.toNat * nmemb.toNat < 2 ^ 32 ∧ (size = 0 ∨ size = 1 ∨ nmemb = 0)
  | .fputc _ => s.pos.toNat + 1 < 2 ^ 32
  | .fputs text => s.pos.toNat + text.length < 2 ^ 32
  | .fseek offset .set => 0 ≤ offset.toInt
  | .fseek offset .cur => 0 ≤ s.pos.toNat + offset.toInt ∧ s.pos.toNat + offset.toInt < 2 ^ 32
  | .fseek offset .fromEnd => offset = 0
  | .getc => ∀ c, s.content[s.pos.toNat]? = some c → c < 128
  | .ftell | .feof | .ftruncate => True

def AllFine : Stream → List Op → Prop
  | _,[] => True
  | s,op :: ops => Fine s op ∧ AllFine (step s op).stream ops

/-- A call does what the model does from the state the stream stands for. -/
structure Right (s : Stream) (op : Op) : Prop where
  state : (step s op).stream.model = (s.model.step op).1
  value : (s.model.step op).2 (step s op).value
  asks : ∀ ask ∈ (step s op).asks, ask.offset + ask.count ≤ s.content.length

/-- The file is one whose size fits the 32-bit result of `filesize`. -/
def Small (s : Stream) : Prop := s.content.length < 2 ^ 32

theorem filesize_toNat {s : Stream} (small : Small s) : (filesize s).toNat = s.content.length := by
  rw [filesize,BitVec.toNat_ofNat,Nat.mod_eq_of_lt small]

theorem past_end_iff {s : Stream} (small : Small s) : filesize s ≤ s.pos ↔ s.content.length ≤ s.pos.toNat := by
  rw [BitVec.le_def,filesize_toNat small]

theorem model_eq_iff {s : Stream} {content : List UInt8} {pos : Nat} :
    s.model = ⟨content,pos⟩ ↔ s.content = content ∧ s.pos.toNat = pos := by
  simp [Stream.model]

theorem write_at_length (content : List UInt8) (offset : Nat) (bytes : List UInt8) :
    (write_at content offset bytes).length ≤ max content.length (offset + bytes.length) := by
  unfold write_at
  split
  · omega
  · simp [zeros]
    omega

theorem truncate_to_length (content : List UInt8) (n : Nat) : (truncate_to content n).length = n := by
  simp [truncate_to,zeros]
  omega

@[simp] theorem memory_at_length (ptr : Nat → UInt8) (n : Nat) : (memory_at ptr n).length = n := by simp [memory_at]

/-- A store moves the position as the model does exactly when it does not wrap. -/
theorem put_moves {s : Stream} {count : Word} {n : Nat} (counted : n < 2 ^ 32 → count.toNat = n) :
    (s.pos + count).toNat = s.pos.toNat + n ↔ s.pos.toNat + n < 2 ^ 32 := by
  have size := (s.pos + count).isLt
  constructor
  · intro moved
    omega
  · intro fits
    rw [BitVec.toNat_add,counted (by omega),Nat.mod_eq_of_lt fits]

theorem fputc_right (s : Stream) (c : UInt8) : Right s (.fputc c) ↔ Fine s (.fputc c) := by
  have moves : (s.pos + 1).toNat = s.pos.toNat + 1 ↔ s.pos.toNat + 1 < 2 ^ 32 := put_moves (fun _ => rfl)
  constructor
  · intro right
    exact moves.mp (model_eq_iff.mp right.state).2
  · intro fits
    refine ⟨model_eq_iff.mpr ⟨rfl,moves.mpr fits⟩,?_,?_⟩
    · simp [Model.step,step,fputc,put,EOF]
    · simp [step,fputc,put]

theorem fputs_right (s : Stream) (text : List UInt8) : Right s (.fputs text) ↔ Fine s (.fputs text) := by
  have moves : (s.pos + BitVec.ofNat 32 text.length).toNat = s.pos.toNat + text.length ↔ s.pos.toNat + text.length < 2 ^ 32 :=
    put_moves (fun fits => by rw [BitVec.toNat_ofNat,Nat.mod_eq_of_lt fits])
  constructor
  · intro right
    exact moves.mp (model_eq_iff.mp right.state).2
  · intro fits
    have short : text.length < 2 ^ 32 := by
      simp only [Fine] at fits
      omega
    have whole : text.take (BitVec.ofNat 32 text.length).toNat = text := by
      rw [BitVec.toNat_ofNat,Nat.mod_eq_of_lt short,List.take_length]
    refine ⟨model_eq_iff.mpr ⟨?_,moves.mpr fits⟩,?_,?_⟩
    · simp only [step,fputs,put,whole]
      rfl
    · simp [Model.step,step,fputs,put,EOF]
    · simp [step,fputs,put]

/-- The product of two words is their product as numbers when that is a word. -/
theorem mul_toNat {a b : Word} (fits : a.toNat * b.toNat < 2 ^ 32) : (a * b).toNat = a.toNat * b.toNat := by
  rw [BitVec.toNat_mul,Nat.mod_eq_of_lt fits]

theorem word_zero {a : Word} : a = 0 ↔ a.toNat = 0 := by
  rw [← BitVec.toNat_inj]
  rfl

theorem word_one {a : Word} : a = 1 ↔ a.toNat = 1 := by
  rw [← BitVec.toNat_inj]
  rfl

theorem fwrite_right (s : Stream) (size nmemb : Word) (ptr : Nat → UInt8) :
    Right s (.fwrite size nmemb ptr) ↔ Fine s (.fwrite size nmemb ptr) := by
  have moves : (s.pos + size * nmemb).toNat = s.pos.toNat + size.toNat * nmemb.toNat ↔
      s.pos.toNat + size.toNat * nmemb.toNat < 2 ^ 32 := put_moves mul_toNat
  constructor
  · intro right
    have moved := (model_eq_iff.mp right.state).2
    rw [memory_at_length] at moved
    have fits := moves.mp moved
    refine ⟨fits,?_⟩
    have value : Value.number ((size * nmemb).toNat : Int) = .number (if size = 0 then 0 else (nmemb.toNat : Int)) :=
      right.value
    rw [mul_toNat (by omega)] at value
    injection value with value
    by_cases none_wide : size = 0
    · exact Or.inl none_wide
    · rw [if_neg none_wide] at value
      have same : size.toNat * nmemb.toNat = 1 * nmemb.toNat := by
        rw [Nat.one_mul]
        exact_mod_cast value
      rcases Nat.eq_zero_or_pos nmemb.toNat with empty | some_elements
      · exact Or.inr (Or.inr (word_zero.mpr empty))
      · exact Or.inr (Or.inl (word_one.mpr (Nat.eq_of_mul_eq_mul_right some_elements same)))
  · rintro ⟨fits,kind⟩
    have product := @mul_toNat size nmemb (by omega)
    refine ⟨model_eq_iff.mpr ⟨?_,?_⟩,?_,?_⟩
    · simp only [step,fwrite,put,product]
      rfl
    · rw [memory_at_length]
      exact moves.mpr fits
    · show Value.number ((size * nmemb).toNat : Int) = .number (if size = 0 then 0 else (nmemb.toNat : Int))
      rw [product]
      rcases kind with rfl | rfl | rfl
      · simp
      · simp
      · simp
    · simp [step,fwrite,put]

/-- No element is there, or none was asked for. -/
theorem available_zero {m : Model} {size nmemb : Nat} :
    m.available size nmemb = 0 ↔ size = 0 ∨ nmemb = 0 ∨ m.content.length - m.pos < size := by
  unfold Model.available
  split
  · next none_wide => simp [none_wide]
  · next wide =>
    rw [Nat.min_eq_zero_iff,Nat.div_eq_zero_iff]
    omega

theorem fread_right {s : Stream} (small : Small s) (size nmemb : Word) :
    Right s (.fread size nmemb) ↔ Fine s (.fread size nmemb) := by
  have zero_iff : s.model.available size.toNat nmemb.toNat = 0 ↔
      size.toNat = 0 ∨ nmemb.toNat = 0 ∨ s.content.length - s.pos.toNat < size.toNat := available_zero
  constructor
  · intro right
    have inside : s.pos.toNat + (size * nmemb).toNat ≤ s.content.length := right.asks ⟨_,_⟩ (List.mem_singleton_self _)
    have moved : (s.pos + size * nmemb).toNat = s.pos.toNat + s.model.available size.toNat nmemb.toNat * size.toNat :=
      (model_eq_iff.mp right.state).2
    have value : Value.bytes (size * nmemb).toNat _ = .bytes (s.model.available size.toNat nmemb.toNat) _ := right.value
    injection value with count
    unfold Small at small
    rw [BitVec.toNat_add,Nat.mod_eq_of_lt (by omega),count] at moved
    have same : s.model.available size.toNat nmemb.toNat * 1 = s.model.available size.toNat nmemb.toNat * size.toNat := by
      omega
    refine ⟨inside,?_⟩
    rcases Nat.eq_zero_or_pos (s.model.available size.toNat nmemb.toNat) with none_there | some_there
    · rw [none_there] at count
      exact Or.inr ⟨word_zero.mpr count,by simpa only [word_zero] using zero_iff.mp none_there⟩
    · exact Or.inl (word_one.mpr (Nat.eq_of_mul_eq_mul_left some_there same).symm)
  · rintro ⟨inside,kind⟩
    have both : s.model.available size.toNat nmemb.toNat = (size * nmemb).toNat ∧
        s.model.available size.toNat nmemb.toNat * size.toNat = (size * nmemb).toNat := by
      rcases kind with rfl | ⟨nothing,none_there⟩
      · have single : (1 : Word).toNat = 1 := rfl
        have product : ((1 : Word) * nmemb).toNat = nmemb.toNat := by simp
        rw [product] at inside ⊢
        have all : s.model.available (1 : Word).toNat nmemb.toNat = nmemb.toNat := by
          simp only [Model.available,single,Stream.model]
          rw [if_neg (by decide),Nat.div_one]
          omega
        rw [all,single]
        omega
      · have empty : s.model.available size.toNat nmemb.toNat = 0 := zero_iff.mpr (by simpa only [word_zero] using none_there)
        rw [empty,nothing]
        simp
    obtain ⟨count,moved⟩ := both
    unfold Small at small
    refine ⟨model_eq_iff.mpr ⟨rfl,?_⟩,?_,?_⟩
    · simp only [step,fread]
      rw [BitVec.toNat_add,Nat.mod_eq_of_lt (by omega),moved]
      rfl
    · show Value.bytes _ _ = .bytes _ _
      rw [moved,count]
      rfl
    · intro ask member
      rw [List.mem_singleton.mp member]
      exact inside

theorem fseek_right {s : Stream} (small : Small s) (offset : Word) (whence : Whence) :
    Right s (.fseek offset whence) ↔ Fine s (.fseek offset whence) := by
  have no_ask (x : Word) : ∀ ask ∈ (⟨{ s with pos := x },.number 0,[]⟩ : Outcome).asks,
      ask.offset + ask.count ≤ s.content.length := by simp
  have size := s.pos.isLt
  -- a target before the file's start fails in the model, and the code's value is always 0
  have before {w : Whence} (negative : ¬ 0 ≤ s.model.base w + offset.toInt) : ¬ Right s (.fseek offset w) := by
    intro right
    have value := right.value
    simp only [Model.step] at value
    rw [if_neg negative] at value
    exact value (by cases w <;> rfl)
  have within {w : Whence} {x : Word} (target : 0 ≤ s.model.base w + offset.toInt)
      (stored : (step s (.fseek offset w)) = ⟨{ s with pos := x },.number 0,[]⟩) :
      Right s (.fseek offset w) ↔ x.toNat = (s.model.base w + offset.toInt).toNat := by
    constructor
    · intro right
      have state := right.state
      simp only [stored,Model.step] at state
      rw [if_pos target] at state
      exact (model_eq_iff.mp state).2
    · intro same
      refine ⟨?_,?_,by rw [stored]; exact no_ask x⟩
      · simp only [stored,Model.step]
        rw [if_pos target]
        exact model_eq_iff.mpr ⟨rfl,same⟩
      · simp only [stored,Model.step]
        rw [if_pos target]
  cases whence with
  | set =>
    have base : s.model.base .set = 0 := rfl
    by_cases target : 0 ≤ s.model.base .set + offset.toInt
    · rw [within target rfl]
      have value : (offset.toNat : Int) = offset.toInt := by
        rw [BitVec.toInt_eq_toNat_cond]
        rw [BitVec.toInt_eq_toNat_cond] at target
        split at target
        · rw [if_pos ‹_›]
        · omega
      simp only [Fine]
      omega
    · exact ⟨fun right => absurd right (before target),fun fine => absurd (by simp only [Fine] at fine; omega) target⟩
  | cur =>
    have base : s.model.base .cur = s.pos.toNat := rfl
    by_cases target : 0 ≤ s.model.base .cur + offset.toInt
    · rw [within target rfl]
      have sum : (s.pos + offset).toNat = (s.pos.toNat + offset.toNat) % 2 ^ 32 := BitVec.toNat_add _ _
      have word := BitVec.toInt_eq_toNat_cond offset
      have high := offset.isLt
      simp only [Fine]
      split at word
      · omega
      · omega
    · exact ⟨fun right => absurd right (before target),fun fine => absurd (by simp only [Fine] at fine; omega) target⟩
  | fromEnd =>
    have base : s.model.base .fromEnd = s.content.length := rfl
    have zero : offset = 0 ↔ offset.toInt = 0 := by
      rw [← BitVec.toInt_inj]
      rfl
    by_cases target : 0 ≤ s.model.base .fromEnd + offset.toInt
    · rw [within target rfl,filesize_toNat small]
      simp only [Fine,zero]
      omega
    · exact ⟨fun right => absurd right (before target),fun fine => absurd (by simp only [Fine,zero] at fine; omega) target⟩

/-- A signed byte is the byte below 0x80. -/
theorem char_value_byte (c : UInt8) : char_value c = c.toNat ↔ c < 128 := by
  have word : char_value c = c.toBitVec.toInt := rfl
  have low : c < 128 ↔ c.toNat < 128 := UInt8.lt_iff_toNat_lt
  have same : c.toBitVec.toNat = c.toNat := rfl
  have size := c.toBitVec.isLt
  rw [word,low,BitVec.toInt_eq_toNat_cond]
  split
  · omega
  · omega

theorem getc_right {s : Stream} (small : Small s) : Right s .getc ↔ Fine s .getc := by
  by_cases past : s.content.length ≤ s.pos.toNat
  · have none_left : s.content[s.pos.toNat]? = none := List.getElem?_eq_none past
    have stays : step s .getc = ⟨s,.number EOF,[]⟩ := by
      simp only [step,getc]
      rw [if_pos ((past_end_iff small).mpr past)]
    have ends : s.model.step .getc = (s.model,(· = .number EOF)) := by
      simp only [Model.step,Stream.model,none_left]
    constructor
    · intro _ c there
      rw [none_left] at there
      exact absurd there (by simp)
    · intro _
      refine ⟨by rw [stays,ends],by rw [stays,ends],by rw [stays]; simp⟩
  · obtain ⟨c,there⟩ : ∃ c, s.content[s.pos.toNat]? = some c := ⟨_,List.getElem?_eq_getElem (by omega)⟩
    have first : (read_at s.content s.pos.toNat 1).headD 0 = c := by
      rw [read_at,List.headD_eq_head?_getD,List.head?_take,if_neg (by decide),List.head?_drop,there]
      rfl
    have reads : step s .getc = ⟨{ s with pos := s.pos + 1 },.number (char_value c),[⟨s.pos.toNat,1⟩]⟩ := by
      simp only [step,getc,first]
      rw [if_neg (fun ended => past ((past_end_iff small).mp ended))]
      rfl
    have gives : s.model.step .getc = ({ s.model with pos := s.pos.toNat + 1 },(· = .number c.toNat)) := by
      simp only [Model.step,Stream.model,there]
    unfold Small at small
    constructor
    · intro right d same
      have value := right.value
      rw [reads,gives] at value
      injection value with value
      injection there.symm.trans same with same
      subst same
      exact (char_value_byte c).mp value
    · intro fine
      refine ⟨?_,?_,?_⟩
      · rw [reads,gives]
        refine model_eq_iff.mpr ⟨rfl,?_⟩
        have moves : (s.pos + 1).toNat = s.pos.toNat + 1 ↔ s.pos.toNat + 1 < 2 ^ 32 := put_moves (fun _ => rfl)
        exact moves.mpr (by omega)
      · rw [reads,gives]
        exact congrArg Value.number ((char_value_byte c).mpr (fine c there))
      · rw [reads]
        intro ask member
        rw [List.mem_singleton.mp member]
        show s.pos.toNat + 1 ≤ s.content.length
        omega

theorem step_right {s : Stream} (small : Small s) (op : Op) : Right s op ↔ Fine s op := by
  cases op with
  | fread size nmemb => exact fread_right small size nmemb
  | fwrite size nmemb ptr => exact fwrite_right s size nmemb ptr
  | fputc c => exact fputc_right s c
  | fputs text => exact fputs_right s text
  | fseek offset whence => exact fseek_right small offset whence
  | getc => exact getc_right small
  | ftell => exact iff_of_true ⟨rfl,rfl,by simp [step]⟩ trivial
  | feof =>
    refine iff_of_true ⟨rfl,?_,by simp [step,feof]⟩ trivial
    show Value.number _ = .number _
    simp only [past_end_iff small]
    rfl
  | ftruncate => exact iff_of_true ⟨rfl,rfl,by simp [step]⟩ trivial

/-- A call that does what the model does leaves a file of a 32-bit size. -/
theorem step_small {s : Stream} (small : Small s) {op : Op} (fine : Fine s op) : Small (step s op).stream := by
  have stored {bytes : List UInt8} (fits : s.pos.toNat + bytes.length < 2 ^ 32) :
      (write_at s.content s.pos.toNat bytes).length < 2 ^ 32 := by
    have longest := write_at_length s.content s.pos.toNat bytes
    unfold Small at small
    omega
  cases op with
  | fread size nmemb => exact small
  | fwrite size nmemb ptr =>
    apply stored
    rw [memory_at_length,mul_toNat (by have := fine.1; omega)]
    exact fine.1
  | fputc c => exact @stored [c] fine
  | fputs text =>
    apply stored
    simp only [Fine] at fine
    rw [List.length_take]
    omega
  | fseek offset whence => cases whence <;> exact small
  | getc =>
    simp only [step,getc]
    split
    · exact small
    · exact small
  | ftell => exact small
  | feof => exact small
  | ftruncate =>
    show (truncate_to s.content s.pos.toNat).length < 2 ^ 32
    rw [truncate_to_length]
    exact s.pos.isLt

theorem behaves_model {s : Stream} {m : Model} {ops : List Op} (behaves : Behaves s m ops) : s.model = m := by
  cases ops with
  | nil => exact behaves
  | cons op ops => exact behaves.1

/-- Any sequence of calls on a stream behaves as the C model exactly when each
    call, in the state it finds, is one that does. -/
theorem stream_behaves {s : Stream} (small : Small s) (ops : List Op) : Behaves s s.model ops ↔ AllFine s ops := by
  induction ops generalizing s with
  | nil => exact iff_of_true rfl trivial
  | cons op ops run =>
    constructor
    · rintro ⟨-,value,asks,rest⟩
      have state := behaves_model rest
      have fine := (step_right small op).mp ⟨state,value,asks⟩
      rw [← state] at rest
      exact ⟨fine,(run (step_small small fine)).mp rest⟩
    · rintro ⟨fine,rest⟩
      obtain ⟨state,value,asks⟩ := (step_right small op).mpr fine
      refine ⟨rfl,value,asks,?_⟩
      rw [← state]
      exact (run (step_small small fine)).mpr rest

/-- A file "hi" that was just opened. -/
def opened : Stream := ⟨[104,105],0⟩

theorem stream_behaves_opened : Small opened ∧
    (Behaves opened opened.model [.getc,.fputc 33,.fseek 0 .set,.fread 1 2,.feof,.getc] ↔
      AllFine opened [.getc,.fputc 33,.fseek 0 .set,.fread 1 2,.feof,.getc]) :=
  have small : Small opened := by simp [Small,opened]
  ⟨small,stream_behaves small _⟩

/-- Reading three bytes of two, or one element of two bytes, seeking one byte
    before the end, writing one element of two bytes, and a byte from 0x80 on. -/
theorem stream_departs : ¬ Behaves opened opened.model [.fread 1 3] ∧ ¬ Behaves opened opened.model [.fread 2 1] ∧
    ¬ Behaves opened opened.model [.fseek (-1) .fromEnd] ∧ ¬ Behaves opened opened.model [.fwrite 2 1 (fun _ => 65)] ∧
    ¬ Behaves ⟨[0x80],0⟩ ⟨[0x80],0⟩ [.getc] := by
  have departs {s : Stream} (small : Small s) {op : Op} (wrong : ¬ Fine s op) : ¬ Behaves s s.model [op] :=
    fun behaves => wrong ((step_right small op).mp ⟨behaves.2.2.2,behaves.2.1,behaves.2.2.1⟩)
  have small : Small opened := by simp [Small,opened]
  refine ⟨departs small ?_,departs small ?_,departs small ?_,departs small ?_,?_⟩
  · simp [Fine,opened]
  · simp [Fine,opened]
  · simp [Fine]
  · simp [Fine,opened]
  · exact @departs ⟨[0x80],0⟩ (by simp [Small]) .getc (by simp [Fine])

end MicroOS.StdioStreams

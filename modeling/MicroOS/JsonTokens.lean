import MicroOS.JsonTexts

/-!
What `json_read` does at the beginning of a token of a well-formed text, and what
`json_discard_until` does with a whole value and with the rest of a container.
-/

namespace MicroOS.Json
open List (append_assoc cons_append length_append length_cons length_nil mem_append mem_cons mem_cons_self
  mem_singleton nil_append)

/-- What is left of the text. -/
structure Reads (r : Reader) (rest : List UInt8) : Prop where
  fine : r.error = none
  inside : r.current ≤ r.data.length
  left : r.data.drop r.current = rest

/-- The reader after some characters, a number of brackets deeper. -/
def Reader.go (r : Reader) (n : Nat) (d : Int) : Reader := { r with current := r.current + n, depth := r.depth + d }

@[simp] theorem go_current (r : Reader) (n : Nat) (d : Int) : (r.go n d).current = r.current + n := rfl
@[simp] theorem go_depth (r : Reader) (n : Nat) (d : Int) : (r.go n d).depth = r.depth + d := rfl
@[simp] theorem go_data (r : Reader) (n : Nat) (d : Int) : (r.go n d).data = r.data := rfl

theorem go_go (r : Reader) (n m : Nat) (d e : Int) : (r.go n d).go m e = r.go (n + m) (d + e) := by
  simp only [Reader.go,Nat.add_assoc,Int.add_assoc]

theorem go_same {r : Reader} {n m : Nat} {d e : Int} (length : n = m) (brackets : d = e) : r.go n d = r.go m e := by
  rw [length,brackets]

theorem go_zero (r : Reader) : r.go 0 0 = r := by
  simp only [Reader.go,Nat.add_zero,Int.add_zero]

/-- A number ends here. -/
def Stops (rest : List UInt8) : Prop := ∀ c, rest.head? = some c → json_is_number_cont c = false

def Separators (gap : List UInt8) : Prop := ∀ c ∈ gap, is_separator c

section
variable {r : Reader} {c : UInt8} {rest text : List UInt8}

theorem Reads.go (reads : Reads r (text ++ rest)) (d : Int) : Reads (r.go text.length d) rest where
  fine := reads.fine
  inside := by
    have long := congrArg List.length reads.left
    rw [List.length_drop,length_append] at long
    have inside := reads.inside
    simp only [go_current,go_data]
    omega
  left := by
    simp only [go_current,go_data]
    rw [← List.drop_drop,reads.left,List.drop_left]

theorem Reads.here (reads : Reads r (c :: rest)) : ∃ here : r.current < r.data.length, r.data[r.current] = c := by
  have here : r.current < r.data.length := by
    by_contra behind
    have nothing := reads.left
    rw [List.drop_eq_nil_of_le (Nat.not_lt.1 behind)] at nothing
    cases nothing
  refine ⟨here,?_⟩
  have left := reads.left
  rw [List.drop_eq_getElem_cons here] at left
  exact (List.cons.inj left).1

/-- One round of the loop, with the character it looks at. -/
theorem json_read_at (reads : Reads r (c :: rest)) :
    json_read r =
      if is_separator c then json_read (r.go 1 0)
      else if (0x30 ≤ c ∧ c ≤ 0x39) ∨ c = 0x2D then
        some (⟨.number,r.current,number_end r.data r.current,0⟩,{ r with current := number_end r.data r.current })
      else if c = 0x22 then
        match string_end r.data (r.current + 1) with
        | .closed stop => some (⟨.string,r.current + 1,stop,0⟩,{ r with current := stop + 1 })
        | .unclosed => some (failed { r with current := r.data.length } "unclosed string")
        | .outside => none
      else if c = 0x7B ∨ c = 0x5B then
        some (⟨if c = 0x7B then .object else .array,r.current,r.current + 1,r.depth + 1⟩,r.go 1 1)
      else if c = 0x7D ∨ c = 0x5D then some (⟨.end_,r.current,r.current + 1,0⟩,r.go 1 (-1))
      else if c = 0x6E ∨ c = 0x74 ∨ c = 0x66 then
        if json_is_string r.data r.current text_null then some (⟨.null,r.current,r.current + 4,0⟩,r.go 4 0)
        else if json_is_string r.data r.current text_true then some (⟨.bool,r.current,r.current + 4,0⟩,r.go 4 0)
        else if json_is_string r.data r.current text_false then some (⟨.bool,r.current,r.current + 5,0⟩,r.go 5 0)
        else some (failed r "unknown token")
      else some (failed r "unknown token") := by
  obtain ⟨here,rfl⟩ := reads.here
  have fine : ¬ r.error.isSome = true := by
    rw [reads.fine]
    exact Bool.false_ne_true
  rw [json_read,if_neg fine,if_neg (Nat.ne_of_lt here),dif_pos here]
  cases string_end r.data (r.current + 1) <;> simp only [Reader.go,Int.add_zero,Int.sub_eq_add_neg]

variable {gap data : List UInt8} {current : Nat}

/-- What separates tokens is skipped. -/
theorem json_read_gap (reads : Reads r (gap ++ rest)) (separators : Separators gap) :
    json_read r = json_read (r.go gap.length 0) := by
  induction gap generalizing r with
  | nil => rw [length_nil,go_zero]
  | cons c gap ih =>
    have next : Reads (r.go 1 0) (gap ++ rest) := @Reads.go r _ [c] reads 0
    rw [json_read_at reads,if_pos (separators c (mem_cons_self ..)),
      ih next (fun d among => separators d (List.mem_cons_of_mem _ among)),go_go,length_cons,Nat.add_comm]
    rfl

theorem getElem_left (left : data.drop current = c :: rest) :
    ∃ here : current < data.length, data[current] = c ∧ data.drop (current + 1) = rest := by
  have here : current < data.length := by
    by_contra behind
    rw [List.drop_eq_nil_of_le (Nat.not_lt.1 behind)] at left
    cases left
  rw [List.drop_eq_getElem_cons here] at left
  obtain ⟨head,tail⟩ := List.cons.inj left
  exact ⟨here,head,tail⟩

theorem number_end_text (left : data.drop current = text ++ rest)
    (number : ∀ c ∈ text, json_is_number_cont c) (stops : Stops rest) : number_end data current = current + text.length := by
  induction text generalizing current with
  | nil =>
    rw [number_end]
    by_cases here : current < data.length
    · rw [List.drop_eq_getElem_cons here] at left
      have stop := stops data[current] (congrArg List.head? left).symm
      rw [dif_pos here,if_neg (by rw [stop]; exact Bool.false_ne_true)]
      rfl
    · rw [dif_neg here]
      rfl
  | cons c text ih =>
    obtain ⟨here,head,tail⟩ := getElem_left left
    rw [number_end,dif_pos here,if_pos (by rw [head]; exact number c (mem_cons_self ..)),
      ih tail (fun d among => number d (List.mem_cons_of_mem _ among)),length_cons]
    omega

theorem is_string_text (left : data.drop current = text ++ rest) : json_is_string data current text = true := by
  induction text generalizing current with
  | nil => rfl
  | cons c text ih =>
    obtain ⟨here,head,tail⟩ := getElem_left left
    rw [json_is_string,List.getElem?_eq_getElem here,head,ih tail]
    simp

theorem is_string_other {d : UInt8} (left : data.drop current = c :: rest) (other : c ≠ d)
    (expect : List UInt8) : json_is_string data current (d :: expect) = false := by
  obtain ⟨here,head,_⟩ := getElem_left left
  rw [json_is_string,List.getElem?_eq_getElem here,head]
  simp [other]

theorem hex_plain {d : UInt8} (hex : is_hex d = true) : d ≠ 0x22 ∧ d ≠ 0x5C := by
  constructor
  · rintro rfl
    exact absurd hex (by decide)
  · rintro rfl
    exact absurd hex (by decide)

theorem chars_text_cons (ch : Character) (chars : List Character) : chars_text (ch :: chars) = ch.text ++ chars_text chars := rfl

theorem string_end_plain (left : data.drop current = c :: rest)
    (plain : c ≠ 0x22 ∧ c ≠ 0x5C) : string_end data current = string_end data (current + 1) := by
  obtain ⟨here,head,_⟩ := getElem_left left
  conv_lhs => rw [string_end,if_neg (Nat.ne_of_lt here),dif_pos here,if_neg (by rw [head]; exact plain.1),
    if_neg (by rw [head]; exact plain.2)]

theorem string_end_escape (left : data.drop current = 0x5C :: c :: rest) :
    string_end data current = string_end data (current + 2) := by
  obtain ⟨here,head,_⟩ := getElem_left left
  conv_lhs => rw [string_end,if_neg (Nat.ne_of_lt here),dif_pos here,if_neg (by rw [head]; decide),if_pos head]

theorem string_end_character (ch : Character) (left : data.drop current = ch.text ++ rest) :
    string_end data current = string_end data (current + ch.text.length) ∧ data.drop (current + ch.text.length) = rest := by
  have after : data.drop (current + ch.text.length) = rest := by rw [← List.drop_drop,left,List.drop_left]
  refine ⟨?_,after⟩
  cases ch with
  | plain c => exact string_end_plain left ⟨c.2.2.1,c.2.2.2⟩
  | escape c => exact string_end_escape left
  | unicode a b c d =>
    obtain ⟨_,_,second⟩ := getElem_left left
    obtain ⟨_,_,first⟩ := getElem_left second
    obtain ⟨_,_,next⟩ := getElem_left first
    obtain ⟨_,_,third⟩ := getElem_left next
    obtain ⟨_,_,last⟩ := getElem_left third
    rw [string_end_escape left,string_end_plain first (hex_plain a.2),string_end_plain next (hex_plain b.2),
      string_end_plain third (hex_plain c.2),string_end_plain last (hex_plain d.2)]
    rfl

theorem string_end_chars (chars : List Character) (left : data.drop current = chars_text chars ++ 0x22 :: rest) :
    string_end data current = .closed (current + (chars_text chars).length) := by
  induction chars generalizing current with
  | nil =>
    obtain ⟨here,head,_⟩ := getElem_left left
    rw [string_end,if_neg (Nat.ne_of_lt here),dif_pos here,if_pos head]
    rfl
  | cons ch chars ih =>
    rw [chars_text_cons,append_assoc] at left
    obtain ⟨same,after⟩ := string_end_character ch left
    rw [same,ih after,chars_text_cons,length_append,Nat.add_assoc]

theorem digit_cont : ∀ d : Fin 10, json_is_number_cont (digit d) = true := by decide

theorem digits_cont (ds : List (Fin 10)) : ∀ c ∈ ds.map digit, json_is_number_cont c = true := by
  intro c among
  obtain ⟨d,_,rfl⟩ := List.mem_map.1 among
  exact digit_cont d

theorem Digits.cont (ds : Digits) : ∀ c ∈ ds.text, json_is_number_cont c = true := by
  intro c among
  rcases mem_cons.1 among with rfl | among
  · exact digit_cont _
  · exact digits_cont _ c among

theorem Whole.cont (w : Whole) : ∀ c ∈ w.text, json_is_number_cont c = true := by
  intro c among
  cases w with
  | zero =>
    obtain rfl := mem_singleton.1 among
    exact digit_cont 0
  | digits first others =>
    rcases mem_cons.1 among with rfl | among
    · exact digit_cont _
    · exact digits_cont _ c among

theorem Exponent.cont (e : Exponent) : ∀ c ∈ e.text, json_is_number_cont c = true := by
  intro c among
  rcases mem_cons.1 among with rfl | among
  · split <;> decide
  · rcases mem_append.1 among with sign | digits
    · split at sign
      · cases sign
      · obtain rfl := mem_singleton.1 sign
        decide
      · obtain rfl := mem_singleton.1 sign
        decide
    · exact e.digits.cont c digits

theorem Number.cont (n : Number) : ∀ c ∈ n.text, json_is_number_cont c = true := by
  intro c among
  rcases mem_append.1 among with among | exponent
  · rcases mem_append.1 among with among | fraction
    · rcases mem_append.1 among with minus | whole
      · split at minus
        · obtain rfl := mem_singleton.1 minus
          decide
        · cases minus
      · exact n.whole.cont c whole
    · split at fraction
      · cases fraction
      · rcases mem_cons.1 fraction with rfl | digits
        · decide
        · exact Digits.cont _ c digits
  · split at exponent
    · cases exponent
    · exact Exponent.cont _ c exponent

/-- A number begins with a minus or a digit. -/
theorem Number.begins (n : Number) : ∃ c rest, n.text = c :: rest ∧ is_separator c = false ∧ ((0x30 ≤ c ∧ c ≤ 0x39) ∨ c = 0x2D) := by
  have digits : ∀ d : Fin 10, is_separator (digit d) = false ∧ ((0x30 ≤ digit d ∧ digit d ≤ 0x39) ∨ digit d = 0x2D) := by decide
  obtain ⟨minus,whole,fraction,exponent⟩ := n
  cases minus with
  | true => exact ⟨0x2D,_,rfl,by decide,.inr rfl⟩
  | false =>
    cases whole with
    | zero => exact ⟨digit 0,_,rfl,digits 0⟩
    | digits first others => exact ⟨digit first.succ,_,rfl,digits first.succ⟩

theorem json_read_number (n : Number) (reads : Reads r (n.text ++ rest)) (stops : Stops rest) :
    json_read r = some (⟨.number,r.current,r.current + n.text.length,0⟩,r.go n.text.length 0) := by
  have stop := number_end_text reads.left n.cont stops
  obtain ⟨c,others,text,token,begins⟩ := n.begins
  have here := reads
  rw [text] at here
  rw [json_read_at here,if_neg (by rw [token]; exact Bool.false_ne_true),if_pos begins,stop,Reader.go,Int.add_zero]

theorem json_read_literal (l : Literal) (reads : Reads r (l.text ++ rest)) :
    json_read r = some (Tree.value r.current r.depth (.literal l),r.go l.text.length 0) := by
  cases l with
  | null =>
    have word : json_is_string r.data r.current text_null = true := is_string_text reads.left
    rw [json_read_at reads,if_neg (by decide),if_neg (by decide),if_neg (by decide),if_neg (by decide),if_neg (by decide),
      if_pos (by decide),if_pos word]
    rfl
  | true =>
    have word : json_is_string r.data r.current text_true = true := is_string_text reads.left
    have other := is_string_other (d := 0x6E) reads.left (by decide) [0x75,0x6C,0x6C]
    rw [json_read_at reads,if_neg (by decide),if_neg (by decide),if_neg (by decide),if_neg (by decide),if_neg (by decide),
      if_pos (by decide),text_null,other,if_neg Bool.false_ne_true,if_pos word]
    rfl
  | false =>
    have word : json_is_string r.data r.current text_false = .true := is_string_text reads.left
    have null := is_string_other (d := 0x6E) reads.left (by decide) [0x75,0x6C,0x6C]
    have true := is_string_other (d := 0x74) reads.left (by decide) [0x72,0x75,0x65]
    rw [json_read_at reads,if_neg (by decide),if_neg (by decide),if_neg (by decide),if_neg (by decide),if_neg (by decide),
      if_pos (by decide),text_null,null,if_neg Bool.false_ne_true,text_true,true,if_neg Bool.false_ne_true,
      if_pos word]
    rfl

theorem json_read_string (chars : List Character) (reads : Reads r (0x22 :: (chars_text chars ++ 0x22 :: rest))) :
    json_read r = some (⟨.string,r.current + 1,r.current + 1 + (chars_text chars).length,0⟩,
      r.go ((chars_text chars).length + 2) 0) := by
  obtain ⟨_,_,left⟩ := getElem_left reads.left
  have step : r.current + 1 + (chars_text chars).length + 1 = r.current + ((chars_text chars).length + 2) := by omega
  rw [json_read_at reads,if_neg (by decide),if_neg (by decide),if_pos rfl,string_end_chars chars left]
  simp only
  rw [Reader.go,Int.add_zero,step]

theorem json_read_opening (kind : Kind) (reads : Reads r (kind.opening :: rest)) :
    json_read r = some (⟨kind.type,r.current,r.current + 1,r.depth + 1⟩,r.go 1 1) := by
  cases kind with
  | array =>
    rw [json_read_at reads,if_neg (by decide),if_neg (by decide),if_neg (by decide),if_pos (by decide),if_neg (by decide)]
    rfl
  | object =>
    rw [json_read_at reads,if_neg (by decide),if_neg (by decide),if_neg (by decide),if_pos (by decide),if_pos (by decide)]
    rfl

theorem json_read_closing (kind : Kind) (reads : Reads r (kind.closing :: rest)) :
    json_read r = some (⟨.end_,r.current,r.current + 1,0⟩,r.go 1 (-1)) := by
  cases kind with
  | array | object =>
    rw [json_read_at reads,if_neg (by decide),if_neg (by decide),if_neg (by decide),if_neg (by decide),if_pos (by decide)]

/-- Whatever the value, its token is read. -/
theorem json_read_token (v : Tree) (reads : Reads r (v.token ++ rest)) (stops : v.opens = 0 → Stops rest) :
    json_read r = some (v.value r.current r.depth,r.go v.token.length v.opens) := by
  cases v with
  | literal l => exact json_read_literal l reads
  | number n => exact json_read_number n reads (stops rfl)
  | string chars =>
    have text : Tree.token (.string chars) ++ rest = 0x22 :: (chars_text chars ++ 0x22 :: rest) := by
      simp only [Tree.token,Tree.text,cons_append,append_assoc,nil_append]
    rw [text] at reads
    rw [json_read_string chars reads]
    simp only [Tree.token,Tree.text,Tree.value,Tree.opens,length_cons,length_append,length_nil]
  | empty kind blank => exact json_read_opening kind reads
  | container kind items => exact json_read_opening kind reads

theorem blank_separators (b : Blank) : Separators b.1 := by
  intro c among
  rw [is_separator,decide_eq_true_iff]
  rcases b.2 c among with rfl | rfl | rfl | rfl <;> decide

theorem separators_append {more : List UInt8} (first : Separators gap) (second : Separators more) : Separators (gap ++ more) := by
  intro c among
  rcases mem_append.1 among with among | among
  · exact first c among
  · exact second c among

theorem separators_cons (first : is_separator c = true) (others : Separators gap) : Separators (c :: gap) := by
  intro d among
  rcases mem_cons.1 among with rfl | among
  · exact first
  · exact others d among

theorem separator_stops (separator : is_separator c = true) : json_is_number_cont c = false := by
  rw [is_separator,decide_eq_true_iff] at separator
  rcases separator with rfl | rfl | rfl | rfl | rfl | rfl <;> decide

theorem stops_cons (stop : json_is_number_cont c = false) (rest : List UInt8) : Stops (c :: rest) := by
  intro d head
  obtain rfl := Option.some.inj head
  exact stop

/-- A number ends at white space, and at what comes behind it. -/
theorem stops_gap (separators : Separators gap) (stops : Stops rest) : Stops (gap ++ rest) := by
  cases gap with
  | nil => exact stops
  | cons d gap => exact stops_cons (separator_stops (separators d (mem_cons_self ..))) _

theorem closing_stops (kind : Kind) (rest : List UInt8) : Stops (kind.closing :: rest) := by
  cases kind <;> exact stops_cons (by decide) rest

/-- A value behind white space. -/
theorem json_read_tree (v : Tree) (reads : Reads r (gap ++ (v.token ++ rest))) (separators : Separators gap)
    (stops : v.opens = 0 → Stops rest) :
    json_read r = some (v.value (r.current + gap.length) r.depth,r.go (gap.length + v.token.length) v.opens) := by
  rw [json_read_gap reads separators,json_read_token v (reads.go 0) stops,go_go,go_current,go_depth,Int.add_zero,Int.zero_add]

theorem json_read_end (kind : Kind) (reads : Reads r (gap ++ kind.closing :: rest)) (separators : Separators gap) :
    json_read r = some (⟨.end_,r.current + gap.length,r.current + gap.length + 1,0⟩,r.go (gap.length + 1) (-1)) := by
  rw [json_read_gap reads separators,json_read_closing kind (reads.go 0),go_go,go_current,Int.zero_add]

/-- The length up to the quote behind a key. -/
def Key.quoted (k : Key) : Nat := k.before.1.length + (chars_text k.chars).length + 2

theorem key_rest (k : Key) : Separators k.rest :=
  separators_append (blank_separators _) (separators_cons (by decide) (blank_separators _))

theorem key_length (k : Key) : k.text.length = k.quoted + k.rest.length := by
  simp only [Key.text,Key.quoted,length_append,length_cons]
  omega

theorem json_read_key (k : Key) (reads : Reads r (gap ++ (k.text ++ rest))) (separators : Separators gap) :
    json_read r = some (⟨.string,r.current + gap.length + k.before.1.length + 1,
        r.current + gap.length + k.before.1.length + 1 + (chars_text k.chars).length,0⟩,r.go (gap.length + k.quoted) 0) ∧
      Reads (r.go (gap.length + k.quoted) 0) (k.rest ++ rest) := by
  have split : gap ++ (k.text ++ rest) =
      (gap ++ k.before.1) ++ (0x22 :: (chars_text k.chars ++ 0x22 :: (k.rest ++ rest))) := by
    simp only [Key.text,append_assoc,cons_append]
  rw [split] at reads
  have before := separators_append separators (blank_separators k.before)
  have length : gap.length + k.before.1.length + ((chars_text k.chars).length + 2) = gap.length + k.quoted := by
    rw [Key.quoted]
    omega
  constructor
  · rw [json_read_gap reads before,json_read_string k.chars (reads.go 0),go_go,go_current,length_append,length,
      ← Nat.add_assoc r.current]
    rfl
  · have whole : (gap ++ k.before.1) ++ (0x22 :: (chars_text k.chars ++ 0x22 :: (k.rest ++ rest))) =
        ((gap ++ k.before.1) ++ (0x22 :: (chars_text k.chars ++ [0x22]))) ++ (k.rest ++ rest) := by
      simp only [append_assoc,cons_append,nil_append]
    rw [whole] at reads
    have after := reads.go 0
    rw [length_append,length_append,length_cons,length_append] at after
    exact length ▸ after

variable {depth : Int}

theorem discard_read {s : Reader} {value : Value} (deep : depth < r.depth) (read : json_read r = some (value,s))
    (good : value.type ≠ .error) : json_discard_until r depth = json_discard_until s depth := by
  have inside := (json_read_moves read good).2.1
  rw [json_discard_until,if_pos ⟨Nat.ne_of_lt inside,deep⟩]
  split
  · rename_i nothing
    rw [read] at nothing
    cases nothing
  · rename_i other t same
    rw [read] at same
    obtain ⟨rfl,rfl⟩ := Prod.mk.inj (Option.some.inj same)
    rw [dif_neg good]

theorem discard_done (shallow : r.depth ≤ depth) : json_discard_until r depth = some r := by
  rw [json_discard_until,if_neg (fun more => absurd shallow (Int.not_le.2 more.2))]

theorem value_good (v : Tree) (start : Nat) (depth : Int) : (v.value start depth).type ≠ .error := by
  cases v with
  | literal l => cases l <;> exact fun is => nomatch is
  | number n => exact fun is => nomatch is
  | string chars => exact fun is => nomatch is
  | empty kind _ => cases kind <;> exact fun is => nomatch is
  | container kind _ => cases kind <;> exact fun is => nomatch is

/-- Of a lead only white space is left. -/
theorem discard_lead {kind : Kind} (lead : Lead kind) (reads : Reads r (gap ++ (lead.text ++ rest)))
    (separators : Separators gap) (deep : depth < r.depth) :
    ∃ n left, Separators left ∧ n + left.length = gap.length + lead.text.length ∧
      json_discard_until r depth = json_discard_until (r.go n 0) depth ∧ Reads (r.go n 0) (left ++ rest) := by
  cases kind with
  | array =>
    refine ⟨0,gap ++ lead.text,separators_append separators (blank_separators lead),?_,?_,?_⟩
    · rw [length_append,Nat.zero_add]
    · rw [go_zero]
    · rw [go_zero,append_assoc]
      exact reads
  | object =>
    obtain ⟨read,after⟩ := json_read_key lead reads separators
    refine ⟨_,_,key_rest lead,?_,discard_read deep read (fun is => nomatch is),after⟩
    have length : lead.text.length = Key.quoted lead + (Key.rest lead).length := key_length lead
    omega

mutual

/-- A value is discarded whole. -/
theorem discard_tree (v : Tree) {gap rest : List UInt8} {r : Reader} {depth : Int} (reads : Reads r (gap ++ (v.text ++ rest)))
    (separators : Separators gap) (stops : Stops rest) (deep : depth < r.depth) :
    json_discard_until r depth = json_discard_until (r.go (gap.length + v.text.length) 0) depth := by
  cases v with
  | literal l => exact discard_read deep (json_read_tree (.literal l) reads separators fun _ => stops) (value_good _ _ _)
  | number n => exact discard_read deep (json_read_tree (.number n) reads separators fun _ => stops) (value_good _ _ _)
  | string chars => exact discard_read deep (json_read_tree (.string chars) reads separators fun _ => stops) (value_good _ _ _)
  | empty kind blank =>
    have split : Tree.text (.empty kind blank) ++ rest = [kind.opening] ++ (blank.1 ++ kind.closing :: rest) := by
      simp only [Tree.text,cons_append,append_assoc,nil_append]
    have length : gap.length + 1 + (blank.1.length + 1) = gap.length + (Tree.text (.empty kind blank)).length := by
      simp only [Tree.text,length_cons,length_append,length_nil]
      omega
    rw [split] at reads
    have opened := json_read_tree (.empty kind blank) reads separators (fun is => nomatch is)
    have closed := json_read_end kind ((reads.go 0).go 1) (blank_separators blank)
    rw [go_go] at closed
    rw [discard_read deep opened (value_good _ _ _),← length]
    rw [Int.zero_add] at closed
    exact (discard_read (Int.lt_trans deep (Int.lt_succ _)) closed (fun is => nomatch is)).trans (by rw [go_go]; rfl)
  | container kind items =>
    have split : Tree.text (.container kind items) ++ rest = [kind.opening] ++ ([] ++ (items.text ++ kind.closing :: rest)) := by
      simp only [Tree.text,cons_append,append_assoc,nil_append]
    have length : gap.length + 1 + (0 + items.text.length + 1) = gap.length + (Tree.text (.container kind items)).length := by
      simp only [Tree.text,length_cons,length_append,length_nil]
      omega
    rw [split] at reads
    have opened := json_read_tree (.container kind items) reads separators (fun is => nomatch is)
    have inside := (reads.go 0).go 1
    rw [go_go,Int.zero_add] at inside
    rw [discard_read deep opened (value_good _ _ _),← length]
    exact (discard_items items inside (fun c among => nomatch among) (Int.lt_trans deep (Int.lt_succ _))).trans (by rw [go_go]; rfl)

/-- What is left of a container is discarded with its bracket. -/
theorem discard_items {kind : Kind} (items : Items kind) {gap rest : List UInt8} {r : Reader} {depth : Int}
    (reads : Reads r (gap ++ (items.text ++ kind.closing :: rest))) (separators : Separators gap) (deep : depth < r.depth) :
    json_discard_until r depth = json_discard_until (r.go (gap.length + items.text.length + 1) (-1)) depth := by
  cases items with
  | one lead v after =>
    have length : (Items.one lead v after).text.length = lead.text.length + (v.text.length + after.1.length) := by
      simp only [Items.text,length_append]
    simp only [Items.text,append_assoc] at reads
    obtain ⟨n,left,white,whole,same,next⟩ := discard_lead lead reads separators deep
    have deeper : depth < (r.go n 0).depth := by rwa [go_depth,Int.add_zero]
    have behind := (next.go 0).go 0
    rw [go_go] at behind
    have closed := json_read_end kind behind (blank_separators after)
    have still : depth < ((r.go n 0).go (left.length + v.text.length) (0 + 0)).depth := by rwa [go_depth,Int.add_zero,Int.add_zero]
    rw [same,discard_tree v next white (stops_gap (blank_separators after) (closing_stops kind rest)) deeper]
    apply (discard_read still closed (fun is => nomatch is)).trans
    rw [go_go,go_go]
    exact congrArg (json_discard_until · depth) (go_same (by omega) rfl)
  | more lead v after others =>
    have length : (Items.more lead v after others).text.length =
        lead.text.length + (v.text.length + (after.1.length + 1 + others.text.length)) := by
      simp only [Items.text,length_append,length_cons]
      omega
    have comma : after.1 ++ 0x2C :: (others.text ++ kind.closing :: rest) =
        (after.1 ++ [0x2C]) ++ (others.text ++ kind.closing :: rest) := by
      simp only [append_assoc,cons_append,nil_append]
    simp only [Items.text,append_assoc,cons_append] at reads
    rw [comma] at reads
    have white_comma : Separators (after.1 ++ [0x2C]) :=
      separators_append (blank_separators after) (separators_cons (by decide) (fun c among => nomatch among))
    obtain ⟨n,left,white,whole,same,next⟩ := discard_lead lead reads separators deep
    have deeper : depth < (r.go n 0).depth := by rwa [go_depth,Int.add_zero]
    have behind := (next.go 0).go 0
    rw [go_go] at behind
    have still : depth < ((r.go n 0).go (left.length + v.text.length) (0 + 0)).depth := by rwa [go_depth,Int.add_zero,Int.add_zero]
    have stops : Stops ((after.1 ++ [0x2C]) ++ (others.text ++ kind.closing :: rest)) := by
      rw [← comma]
      exact stops_gap (blank_separators after) (stops_cons (by decide) _)
    rw [same,discard_tree v next white stops deeper]
    apply (discard_items others behind white_comma still).trans
    rw [go_go,go_go,length_append,List.length_singleton]
    exact congrArg (json_discard_until · depth) (go_same (by omega) rfl)

end

end

end MicroOS.Json

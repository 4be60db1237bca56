import MicroOS.JsonTokens

/-!
Whatever the text, the reader stays inside of it, with one exception: a text that is cut off behind the backslash of an escape. The
main theorem is `reader_bounded`.
-/
namespace MicroOS.Json
open Option (bind_eq_bind bind_some not_isSome_iff_eq_none)

/-- The rest of a string that is cut off behind the backslash of an escape. -/
inductive CutString : List UInt8 → Prop
  | backslash : CutString [0x5C]
  | escape {c : UInt8} {rest : List UInt8} (later : CutString rest) : CutString (0x5C :: c :: rest)
  | plain {c : UInt8} {rest : List UInt8} (no_quote : c ≠ 0x22) (no_escape : c ≠ 0x5C) (later : CutString rest) :
      CutString (c :: rest)

/-- The rest of a string up to its quote. -/
inductive ClosedString : List UInt8 → Prop
  | quote : ClosedString [0x22]
  | escape {c : UInt8} {chars : List UInt8} (later : ClosedString chars) : ClosedString (0x5C :: c :: chars)
  | plain {c : UInt8} {chars : List UInt8} (no_quote : c ≠ 0x22) (no_escape : c ≠ 0x5C) (later : ClosedString chars) :
      ClosedString (c :: chars)

/-- What the reader takes for a token or a separator, before the rest of the text. -/
inductive TokenText : List UInt8 → List UInt8 → Prop
  | separator {c : UInt8} {rest : List UInt8} (separates : is_separator c) : TokenText [c] rest
  | number {c : UInt8} {text rest : List UInt8} (begins : (0x30 ≤ c ∧ c ≤ 0x39) ∨ c = 0x2D)
      (number : ∀ d ∈ text, json_is_number_cont d) (stops : Stops rest) : TokenText (c :: text) rest
  | string {chars rest : List UInt8} (closed : ClosedString chars) : TokenText (0x22 :: chars) rest
  | bracket {c : UInt8} {rest : List UInt8} (bracket : c = 0x7B ∨ c = 0x5B ∨ c = 0x7D ∨ c = 0x5D) : TokenText [c] rest
  | literal {text rest : List UInt8} (literal : text = text_null ∨ text = text_true ∨ text = text_false) : TokenText text rest

/-- The text is cut off behind the backslash of an escape, in a string that follows a number of tokens. -/
inductive Cut : List UInt8 → Prop
  | string {rest : List UInt8} (cut : CutString rest) : Cut (0x22 :: rest)
  | token {token rest : List UInt8} (whole : TokenText token rest) (later : Cut rest) : Cut (token ++ rest)

inductive Call where
  | json_read
  | json_discard_until (depth : Int)
  | json_iter_array (array : Value)
  | json_iter_object (object : Value)

/-- The values that a call returns, and the reader afterwards; `none` when the end of the text was passed. -/
def perform (r : Reader) : Call → Option (List Value × Reader)
  | .json_read => (json_read r).map fun p => ([p.1],p.2)
  | .json_discard_until depth => (json_discard_until r depth).map fun s => ([],s)
  | .json_iter_array array => (json_iter_array r array).map fun p => ([p.2.1],p.2.2)
  | .json_iter_object object => (json_iter_object r object).map fun p => (p.2.1 :: p.2.2.1.toList,p.2.2.2)

/-- The reader is in the text. -/
def Inside (text : List UInt8) (r : Reader) : Prop := r.data = text ∧ r.current ≤ text.length

/-- The value is a slice of the text. -/
def Slice (text : List UInt8) (v : Value) : Prop := v.start ≤ v.end_ ∧ v.end_ ≤ text.length

/-- Every call returns, the reader stays in the text, and so do the values. -/
def Stays (text : List UInt8) : Reader → List Call → Prop
  | _,[] => True
  | r,call :: calls => ∃ values s, perform r call = some (values,s) ∧ Inside text s ∧ (∀ v ∈ values, Slice text v) ∧ Stays text s calls

theorem string_end_inside {data : List UInt8} {current stop : Nat} (closed : string_end data current = .closed stop) :
    stop < data.length := by
  fun_induction string_end data current with
  | case1 => cases closed
  | case2 current _ here _ =>
    cases closed
    exact here
  | case3 _ _ _ _ _ ih => exact ih closed
  | case4 _ _ _ _ _ ih => exact ih closed
  | case5 => cases closed

variable {rest text : List UInt8}

theorem cutString_backslash {c : UInt8} : CutString (0x5C :: c :: rest) ↔ CutString rest := by
  constructor
  · intro cut
    cases cut with
    | escape later => exact later
    | plain _ no_escape _ => exact absurd rfl no_escape
  · exact .escape

theorem cutString_plain {c : UInt8} (no_quote : c ≠ 0x22) (no_escape : c ≠ 0x5C) :
    CutString (c :: rest) ↔ CutString rest := by
  constructor
  · intro cut
    cases cut with
    | backslash => exact absurd rfl no_escape
    | escape _ => exact absurd rfl no_escape
    | plain _ _ later => exact later
  · exact .plain no_quote no_escape

/-- The end is passed just in a string that is cut off behind a backslash. -/
theorem string_end_outside {data : List UInt8} {current : Nat} (inside : current ≤ data.length) :
    string_end data current = .outside ↔ CutString (data.drop current) := by
  fun_induction string_end data current with
  | case1 =>
    rw [List.drop_length]
    exact iff_of_false (fun same => by cases same) fun cut => by cases cut
  | case2 current _ here quote =>
    rw [List.drop_eq_getElem_cons here,quote]
    refine iff_of_false (fun same => by cases same) fun cut => ?_
    cases cut with
    | plain no_quote _ _ => exact no_quote rfl
  | case3 current _ here _ escape ih =>
    rw [List.drop_eq_getElem_cons here,escape]
    by_cases more : current + 1 < data.length
    · rw [ih more,List.drop_eq_getElem_cons more,cutString_backslash]
    · rw [List.drop_eq_nil_of_le (Nat.not_lt.1 more),string_end,if_neg (by omega),dif_neg (by omega)]
      exact iff_of_true rfl .backslash
  | case4 current _ here no_quote no_escape ih =>
    rw [List.drop_eq_getElem_cons here,ih here,cutString_plain no_quote no_escape]
  | case5 current not_end behind => omega

theorem string_end_closed {data : List UInt8} {current stop : Nat} (closed : string_end data current = .closed stop) :
    ∃ chars, ClosedString chars ∧ data.drop current = chars ++ data.drop (stop + 1) := by
  fun_induction string_end data current with
  | case1 => cases closed
  | case2 current _ here quote =>
    cases closed
    exact ⟨[0x22],.quote,by rw [List.drop_eq_getElem_cons here,quote]; rfl⟩
  | case3 current _ here _ escape ih =>
    obtain ⟨chars,rest,parts⟩ := ih closed
    have more : current + 1 < data.length := Nat.lt_of_succ_le ((le_string_end closed).trans (string_end_inside closed).le)
    refine ⟨0x5C :: data[current + 1] :: chars,.escape rest,?_⟩
    rw [List.drop_eq_getElem_cons here,List.drop_eq_getElem_cons more,parts,escape]
    rfl
  | case4 current _ here no_quote no_escape ih =>
    obtain ⟨chars,rest,parts⟩ := ih closed
    refine ⟨_,.plain no_quote no_escape rest,?_⟩
    rw [List.drop_eq_getElem_cons here,parts]
    rfl
  | case5 => cases closed

theorem number_end_le {data : List UInt8} {current : Nat} (inside : current ≤ data.length) : number_end data current ≤ data.length := by
  fun_induction number_end data current with
  | case1 current here _ ih => exact ih here
  | case2 => exact inside
  | case3 => exact inside

theorem number_end_parts (data : List UInt8) (current : Nat) : ∃ text, (∀ d ∈ text, json_is_number_cont d) ∧
    Stops (data.drop (number_end data current)) ∧ data.drop current = text ++ data.drop (number_end data current) := by
  fun_induction number_end data current with
  | case1 current here cont ih =>
    obtain ⟨text,number,stops,parts⟩ := ih
    refine ⟨data[current] :: text,?_,stops,?_⟩
    · intro d member
      rcases List.mem_cons.1 member with here | later
      · rw [here]
        exact cont
      · exact number d later
    · rw [List.drop_eq_getElem_cons here,parts]
      rfl
  | case2 current here stop =>
    refine ⟨[],List.forall_mem_nil _,?_,rfl⟩
    intro c head
    rw [List.drop_eq_getElem_cons here] at head
    cases head
    exact Bool.eq_false_iff.2 stop
  | case3 current behind =>
    refine ⟨[],List.forall_mem_nil _,?_,rfl⟩
    intro c head
    rw [List.drop_eq_nil_of_le (Nat.not_lt.1 behind)] at head
    cases head

theorem is_string_parts {data expect : List UInt8} {current : Nat} (found : json_is_string data current expect = true) :
    data.drop current = expect ++ data.drop (current + expect.length) := by
  induction expect generalizing current with
  | nil => rfl
  | cons c expect ih =>
    rw [json_is_string,Bool.and_eq_true,decide_eq_true_iff] at found
    obtain ⟨here,same⟩ := List.getElem?_eq_some_iff.1 found.1
    rw [List.drop_eq_getElem_cons here,same,ih found.2,List.length_cons,Nat.add_right_comm]
    rfl

/-- The reader is in the text, and what is left of it is not cut off. -/
structure Safe (text : List UInt8) (r : Reader) : Prop where
  inside : Inside text r
  whole : r.error = none → ¬ Cut (text.drop r.current)

/-- What follows a token is not cut off either. -/
theorem whole_after {token : List UInt8} {n m : Nat} (whole : ¬ Cut (text.drop n)) (parts : text.drop n = token ++ rest)
    (reads : TokenText token rest) (next : text.drop m = rest) : ¬ Cut (text.drop m) := by
  intro later
  rw [next] at later
  exact whole (parts ▸ .token reads later)

theorem drop_here {n : Nat} (here : n < text.length) : text.drop n = [text[n]] ++ text.drop (n + 1) :=
  List.drop_eq_getElem_cons here

theorem literal_safe {r : Reader} (fine : ¬ r.error.isSome = true)
    (whole : r.error = none → ¬ Cut (r.data.drop r.current)) (found : json_is_string r.data r.current text = true)
    (literal : text = text_null ∨ text = text_true ∨ text = text_false) (type : ValueType) :
    ∃ v s, some ((⟨type,r.current,r.current + text.length,0⟩ : Value),{ r with current := r.current + text.length }) = some (v,s) ∧
      Safe r.data s ∧ Slice r.data v := by
  have whole' := whole (not_isSome_iff_eq_none.1 fine)
  have parts := is_string_parts found
  have long := congrArg List.length parts
  have some : 0 < text.length := by rcases literal with rfl | rfl | rfl <;> decide
  rw [List.length_append,List.length_drop,List.length_drop] at long
  have inside : r.current + text.length ≤ r.data.length := by omega
  exact ⟨_,_,rfl,⟨⟨rfl,inside⟩,fun _ => whole_after whole' parts (.literal literal) rfl⟩,Nat.le_add_right ..,inside⟩

/-- A reader that is safe reads a value and stays safe. -/
theorem json_read_safe {r : Reader} (safe : Safe text r) :
    ∃ v s, json_read r = some (v,s) ∧ Safe text s ∧ Slice text v := by
  obtain ⟨⟨same,inside⟩,whole⟩ := safe
  subst same
  fun_induction json_read r with
  | case1 r error => exact ⟨_,_,rfl,⟨⟨rfl,inside⟩,whole⟩,le_rfl,inside⟩
  | case2 r fine at_end =>
    exact ⟨_,_,rfl,⟨⟨rfl,inside⟩,fun is => by cases is⟩,le_rfl,inside⟩
  | case3 r fine _ here c separates ih =>
    have whole' := whole (not_isSome_iff_eq_none.1 fine)
    exact ih (fun _ => whole_after whole' (drop_here here) (.separator separates) rfl) here
  | case4 r fine _ here c _ begins stop =>
    have whole' := whole (not_isSome_iff_eq_none.1 fine)
    have moved : stop = number_end r.data (r.current + 1) := by
      rw [show stop = number_end r.data r.current from rfl,number_end,dif_pos here,if_pos (begins_cont begins)]
    have le : number_end r.data (r.current + 1) ≤ r.data.length := number_end_le here
    obtain ⟨text,number,stops,parts⟩ := number_end_parts r.data (r.current + 1)
    rw [← moved] at le stops parts
    refine ⟨_,_,rfl,⟨⟨rfl,le⟩,fun _ => whole_after whole' ?_ (.number begins number stops) rfl⟩,le_number_end _ _,le⟩
    rw [drop_here here,parts]
    rfl
  | case5 r fine _ here c _ _ quote stop closed =>
    have whole' := whole (not_isSome_iff_eq_none.1 fine)
    have inside' := string_end_inside closed
    obtain ⟨chars,chars_closed,parts⟩ := string_end_closed closed
    refine ⟨_,_,rfl,⟨⟨rfl,inside'⟩,fun _ => whole_after whole' ?_ (.string chars_closed) rfl⟩,le_string_end closed,inside'.le⟩
    rw [drop_here here,parts,show r.data[r.current] = 0x22 from quote]
    rfl
  | case6 r _ _ here => exact ⟨_,_,rfl,⟨⟨rfl,le_rfl⟩,fun is => by cases is⟩,le_rfl,le_rfl⟩
  | case7 r fine _ here c _ _ quote outside =>
    have whole' := whole (not_isSome_iff_eq_none.1 fine)
    rw [drop_here here,show r.data[r.current] = 0x22 from quote] at whole'
    exact absurd (.string ((string_end_outside here).1 outside)) whole'
  | case8 r fine _ here c _ _ _ bracket =>
    have whole' := whole (not_isSome_iff_eq_none.1 fine)
    exact ⟨_,_,rfl,⟨⟨rfl,here⟩,fun _ => whole_after whole' (drop_here here) (.bracket (by tauto)) rfl⟩,Nat.le_succ _,here⟩
  | case9 r fine _ here c _ _ _ _ bracket =>
    have whole' := whole (not_isSome_iff_eq_none.1 fine)
    exact ⟨_,_,rfl,⟨⟨rfl,here⟩,fun _ => whole_after whole' (drop_here here) (.bracket (by tauto)) rfl⟩,Nat.le_succ _,here⟩
  | case10 r fine _ here c _ _ _ _ _ _ found =>
    exact literal_safe fine whole found (.inl rfl) _
  | case11 r fine _ here c _ _ _ _ _ _ _ found =>
    exact literal_safe fine whole found (.inr (.inl rfl)) _
  | case12 r fine _ here c _ _ _ _ _ _ _ _ found =>
    exact literal_safe fine whole found (.inr (.inr rfl)) _
  | case13 r _ _ here => exact ⟨_,_,rfl,⟨⟨rfl,inside⟩,fun is => by cases is⟩,le_rfl,inside⟩
  | case14 r _ _ here => exact ⟨_,_,rfl,⟨⟨rfl,inside⟩,fun is => by cases is⟩,le_rfl,inside⟩
  | case15 r _ not_end behind => omega

section
variable {text : List UInt8} {r : Reader}

theorem discard_safe (safe : Safe text r) (depth : Int) : ∃ s, json_discard_until r depth = some s ∧ Safe text s := by
  fun_induction json_discard_until r depth with
  | case1 r _ nothing =>
    obtain ⟨v,s,read,_⟩ := json_read_safe safe
    rw [nothing] at read
    cases read
  | case2 r _ value s read error =>
    obtain ⟨v,s',read',after,_⟩ := json_read_safe safe
    rw [read] at read'
    cases read'
    exact ⟨s,rfl,after⟩
  | case3 r _ value s read good ih =>
    obtain ⟨v,s',read',after,_⟩ := json_read_safe safe
    rw [read] at read'
    cases read'
    exact ih after
  | case4 r => exact ⟨r,rfl,safe⟩

theorem safe_error (safe : Safe text r) (message : String) : Safe text { r with error := some message } :=
  ⟨safe.inside,fun is => by cases is⟩

theorem perform_safe (safe : Safe text r) (call : Call) :
    ∃ values s, perform r call = some (values,s) ∧ Safe text s ∧ ∀ v ∈ values, Slice text v := by
  cases call with
  | json_read =>
    obtain ⟨v,s,read,after,slice⟩ := json_read_safe safe
    exact ⟨_,s,by rw [perform,read]; rfl,after,by simpa using slice⟩
  | json_discard_until depth =>
    obtain ⟨s,discarded,after⟩ := discard_safe safe depth
    exact ⟨[],s,by rw [perform,discarded]; rfl,after,by simp⟩
  | json_iter_array array =>
    obtain ⟨s,discarded,after⟩ := discard_safe safe array.depth
    obtain ⟨v,t,read,last,slice⟩ := json_read_safe after
    exact ⟨_,t,by rw [perform,json_iter_array,discarded,bind_eq_bind,bind_some,read]; rfl,last,by simpa using slice⟩
  | json_iter_object object =>
    obtain ⟨s,discarded,after⟩ := discard_safe safe object.depth
    obtain ⟨key,t,read,last,slice⟩ := json_read_safe after
    obtain ⟨value,u,read',last',slice'⟩ := json_read_safe last
    rw [perform,json_iter_object,discarded,bind_eq_bind,bind_some,read]
    simp only [bind_eq_bind,bind_some,read']
    have both : ∀ v ∈ [key,value], Slice text v := by
      intro v member
      rcases List.mem_cons.1 member with rfl | member
      · exact slice
      · rwa [List.mem_singleton.1 member]
    split
    · exact ⟨_,t,rfl,last,by simpa using slice⟩
    · split
      · exact ⟨_,_,rfl,safe_error last' _,both⟩
      · split
        · exact ⟨_,u,rfl,last',both⟩
        · exact ⟨_,u,rfl,last',both⟩

theorem stays_safe (safe : Safe text r) (calls : List Call) : Stays text r calls := by
  induction calls generalizing r with
  | nil => trivial
  | cons call calls ih =>
    obtain ⟨values,s,done,after,slices⟩ := perform_safe safe call
    exact ⟨values,s,done,after.inside,slices,ih after⟩

end

section
variable {r : Reader} {rest : List UInt8}

theorem string_end_text {data chars : List UInt8} {current : Nat} (closed : ClosedString chars)
    (left : data.drop current = chars ++ rest) : string_end data current = .closed (current + (chars.length - 1)) := by
  induction closed generalizing current with
  | quote =>
    obtain ⟨here,head,_⟩ := getElem_left left
    rw [string_end,if_neg (Nat.ne_of_lt here),dif_pos here,if_pos head]
    rfl
  | @escape c chars later ih =>
    obtain ⟨_,_,second⟩ := getElem_left left
    obtain ⟨_,_,third⟩ := getElem_left second
    have some : 0 < chars.length := by cases later <;> simp
    rw [string_end_escape left,ih third,List.length_cons,List.length_cons]
    congr 1
    omega
  | @plain c chars no_quote no_escape later ih =>
    obtain ⟨_,_,second⟩ := getElem_left left
    have some : 0 < chars.length := by cases later <;> simp
    rw [string_end_plain left ⟨no_quote,no_escape⟩,ih second,List.length_cons]
    congr 1
    omega

/-- A token is read, or a separator is skipped. -/
theorem json_read_text {token : List UInt8} (whole : TokenText token rest) (reads : Reads r (token ++ rest)) :
    (∃ d, json_read r = json_read (r.go token.length d)) ∨ ∃ v d, json_read r = some (v,r.go token.length d) := by
  cases whole with
  | separator separates =>
    refine .inl ⟨0,?_⟩
    rw [json_read_at reads,if_pos separates]
    rfl
  | @number c text _ begins number stops =>
    have all : ∀ d ∈ c :: text, json_is_number_cont d := by
      intro d member
      rcases List.mem_cons.1 member with here | later
      · rw [here]
        exact begins_cont begins
      · exact number d later
    have no_separator : ¬ is_separator c = true := by
      intro separates
      rw [is_separator,decide_eq_true_iff] at separates
      rcases separates with rfl | rfl | rfl | rfl | rfl | rfl <;> revert begins <;> decide
    refine .inr ⟨⟨.number,r.current,r.current + (c :: text).length,0⟩,0,?_⟩
    rw [json_read_at reads,if_neg no_separator,if_pos begins,number_end_text reads.left all stops,Reader.go,Int.add_zero]
  | @string chars _ closed =>
    obtain ⟨_,_,left⟩ := getElem_left reads.left
    have some : 0 < chars.length := by cases closed <;> simp
    have step : r.current + 1 + (chars.length - 1) + 1 = r.current + (chars.length + 1) := by omega
    refine .inr ⟨⟨.string,r.current + 1,r.current + 1 + (chars.length - 1),0⟩,0,?_⟩
    rw [json_read_at reads,if_neg (by decide),if_neg (by decide),if_pos rfl,string_end_text closed left]
    simp only
    rw [Reader.go,Int.add_zero,List.length_cons,step]
  | bracket bracket =>
    rcases bracket with rfl | rfl | rfl | rfl
    · exact .inr ⟨_,1,json_read_at reads⟩
    · exact .inr ⟨_,1,json_read_at reads⟩
    · exact .inr ⟨_,-1,json_read_at reads⟩
    · exact .inr ⟨_,-1,json_read_at reads⟩
  | literal literal =>
    rcases literal with rfl | rfl | rfl
    · exact .inr ⟨_,0,json_read_literal .null reads⟩
    · exact .inr ⟨_,0,json_read_literal .true reads⟩
    · exact .inr ⟨_,0,json_read_literal .false reads⟩

/-- Reading on and on passes the end. -/
theorem cut_leaves (cut : Cut rest) (reads : Reads r rest) : ∃ n, ¬ Stays r.data r (List.replicate n .json_read) := by
  induction cut generalizing r with
  | string cut =>
    obtain ⟨here,_,left⟩ := getElem_left reads.left
    have passed : json_read r = none := by
      rw [json_read_at reads,if_neg (by decide),if_neg (by decide),if_pos rfl,(string_end_outside here).2 (left ▸ cut)]
    refine ⟨1,fun stays => ?_⟩
    obtain ⟨values,s,done,_⟩ := stays
    rw [perform,passed] at done
    cases done
  | token whole later ih =>
    rcases json_read_text whole reads with ⟨d,same⟩ | ⟨v,d,read⟩
    · obtain ⟨n,leaves⟩ := ih (reads.go d)
      refine ⟨n,fun stays => leaves ?_⟩
      cases n with
      | zero => trivial
      | succ n =>
        obtain ⟨values,s,done,others⟩ := stays
        rw [perform,same] at done
        exact ⟨values,s,done,others⟩
    · obtain ⟨n,leaves⟩ := ih (reads.go d)
      refine ⟨n + 1,fun stays => leaves ?_⟩
      obtain ⟨values,s,done,_,_,others⟩ := stays
      rw [perform,read] at done
      cases done
      exact others

end

/-- All sequences of calls stay in a text exactly when it is not cut off behind the backslash of an escape. -/
theorem reader_bounded (data : List UInt8) (length : Nat) :
    (∀ calls, Stays (data.take length) (json_new_reader data length) calls) ↔ ¬ Cut (data.take length) := by
  constructor
  · intro stays cut
    obtain ⟨n,leaves⟩ := @cut_leaves (json_new_reader data length) _ cut ⟨rfl,Nat.zero_le _,rfl⟩
    exact leaves (stays _)
  · intro whole calls
    have safe : Safe (data.take length) (json_new_reader data length) := ⟨⟨rfl,Nat.zero_le _⟩,fun _ => whole⟩
    exact stays_safe safe calls

/-- A quote and a backslash. -/
theorem backslash_passes : ¬ ∀ (data : List UInt8) (length : Nat) (calls : List Call),
    Stays (data.take length) (json_new_reader data length) calls := by
  intro stays
  obtain ⟨n,leaves⟩ := @cut_leaves (json_new_reader [0x22,0x5C] 2) _ (.string .backslash) ⟨rfl,Nat.zero_le _,rfl⟩
  exact leaves (stays _ _ _)

end MicroOS.Json

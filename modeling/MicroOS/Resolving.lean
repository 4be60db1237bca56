import MicroOS.DotDot

/-!
`resolve` and `resolve_check`: the 256-byte buffers a path passes through, and
for which paths every store stays inside them.
-/
namespace MicroOS.Resolving
open DotDot
open Option (bind_some some.inj some_ne_none)

def colon : UInt8 := 58

/-- A cleared buffer of 256 bytes. -/
def cleared : Text := List.replicate 256 0

/-- Bytes stored in a buffer from index `i` on; none when they do not fit. -/
def store (buffer : Text) (i : Nat) (bytes : Text) : Option Text :=
  if i + bytes.length ≤ buffer.length then some (buffer.take i ++ bytes ++ buffer.drop (i + bytes.length)) else none

/-- The string in a buffer; none when it has no terminator there. -/
def string (buffer : Text) : Option Text := if 0 ∈ buffer then some (buffer.takeWhile (· ≠ 0)) else none

/-- `strcpy` stores a string that is not empty without its terminator, and reads
    past the terminator of an empty one. -/
def strcpy (buffer : Text) (s : Text) : Option Text := if s = [] then none else store buffer 0 s

def strcat (buffer : Text) (s : Text) : Option Text :=
  (string buffer).bind (fun d => store buffer d.length (s ++ [0]))

/-- The string with the byte `c` at its end overwritten by a zero; none when the
    string is empty and the byte before the buffer would be looked at. -/
def cut_last (buffer : Text) (c : UInt8) : Option Text :=
  (string buffer).bind (fun s =>
    if s = [] then none else if s.getLast? = some c then store buffer (s.length - 1) [0] else some buffer)

/-- The first part of a string between colons, as `strtok(s, ":")`. -/
def first_token (s : Text) : Option Text :=
  let rest := s.dropWhile (· = colon)
  if rest = [] then none else some (rest.takeWhile (· ≠ colon))

/-- The path that `output` holds when `compute_dot_dot` is called; `memset(output,
    0, sizeof(output))` clears as many bytes as a pointer has. -/
def joined_output (cwd path output : Text) : Option Text :=
  (store cleared 0 cwd).bind (fun _ =>
  (store output 0 cwd).bind (fun output =>
  (strcpy cleared path).bind (fun tmp =>
  (string tmp).bind (fun path =>
    if colon ∈ path then
      (store output 0 path).bind (fun output =>
      (store output path.length [0]).bind (fun output =>
        if path.getLast? = some colon then strcat output [slash] else some output))
    else
      (cut_last output slash).bind (fun output =>
        if path.head? = some slash then
          (store output 0 [0,0,0,0]).bind (fun output =>
          (first_token cwd).bind (fun drive =>
          (strcpy output drive).bind (fun output =>
          (strcat output [colon]).bind (fun output => strcat output path))))
        else
          (cut_last tmp slash).bind (fun tmp =>
          (string tmp).bind (fun path =>
          (strcat output [slash]).bind (fun output => strcat output path))))))))

/-- What `resolve_check` goes on with: nothing when `compute_dot_dot` refuses, a
    file system's name to find, or a path to look up from its root. -/
inductive Resolved
  | refused
  | root (fs_name : Text)
  | lookup (check_exists : Text)

/-- The last segment is cut off when the child need not exist. -/
def cut_child (check_child : Bool) (path : Text) : Text :=
  if check_child ∨ slash ∉ path then path else (path.reverse.dropWhile (· ≠ slash)).tail.reverse

/-- A path "fs:" or "fs:/" names the file system's root. -/
def root_or_lookup (check_exists : Text) : Resolved :=
  if check_exists.getLast? = some colon then .root check_exists.dropLast
  else if [colon,slash].isSuffixOf check_exists then .root check_exists.dropLast.dropLast
  else .lookup check_exists

def resolve_check (cwd path output : Text) (check_child : Bool) : Option Resolved :=
  (joined_output cwd path output).bind (fun output =>
  (string output).bind (fun joined =>
  (strcpy cleared joined).bind (fun compute_dot_dot_path =>
  (string compute_dot_dot_path).bind (fun path =>
    match compute_dot_dot path with
    | .outside => none
    | .refused => some .refused
    | .resolved output =>
      (strcpy cleared output).bind (fun check_exists =>
      (string check_exists).map (fun path => root_or_lookup (cut_child check_child path)))))))

def resolve (cwd path output : Text) : Option Resolved := resolve_check cwd path output true

/-- `index_of_slash_in_string` of `exists_recursive`, with `left` slashes to pass
    and `n` bytes of the input still ahead. -/
def slash_index (input : Text) : Nat → Nat → Nat → Nat
  | 0,_,index => index
  | n+1,left,index =>
    if left = 0 then index
    else slash_index input n (if input[index+1]? = some slash then left - 1 else left) (index+1)

/-- What `exists_recursive` stores in `path_to_check` and `file_or_dir_to_check`. -/
def exists_buffers (input : Text) (current_slash : Nat) : Option (Text × Text) :=
  let index := slash_index input input.length (current_slash+1) 0
  (store cleared 0 ((input ++ [0]).take (index+1))).bind (fun path_to_check =>
    (store cleared 0 (input.drop (index+1))).map (fun file_or_dir_to_check => (path_to_check,file_or_dir_to_check)))

/-- A trailing '/' is dropped. -/
def trimmed (s : Text) : Text := if s.getLast? = some slash then s.dropLast else s

/-- The current directory goes into `output` without its terminator: the directory that a path
    is put behind ends where what `output` held has its next zero. -/
def directory (cwd output : Text) : Option Text := string (cwd ++ output.drop cwd.length)

/-- What stands for the drive before a path that starts with '/': the name up to
    the colon when it is shorter than a pointer, and else the directory behind it
    as well. -/
def rooted (dir drive : Text) : Text := if drive.length < 4 then drive else drive ++ (trimmed dir).drop drive.length

/-- The path that is worked out; none when the current directory has no drive. -/
def joined (cwd path output : Text) : Option Text :=
  if colon ∈ path then some (if path.getLast? = some colon then path ++ [slash] else path)
  else (directory cwd output).bind (fun dir =>
    if dir = [] then none
    else if path.head? = some slash then (first_token cwd).map (fun drive => rooted dir drive ++ colon :: path)
    else some (trimmed dir ++ slash :: trimmed path))

def NulFree (t : Text) : Prop := (0 : UInt8) ∉ t

/-- A buffer of 256 bytes that holds a string and its terminator. -/
structure Holds (buffer s : Text) : Prop where
  size : buffer.length = 256
  free : NulFree s
  spells : ∃ rest, buffer = s ++ 0 :: rest

variable {buffer s drive dir j : Text}

theorem Holds.short (holds : Holds buffer s) : s.length < 256 := by
  obtain ⟨rest,same⟩ := holds.spells
  have size := holds.size
  rw [same,List.length_append,List.length_cons] at size
  omega

theorem takeWhile_free (free : NulFree s) (rest : Text) : (s ++ 0 :: rest).takeWhile (· ≠ 0) = s := by
  induction s with
  | nil => simp
  | cons c s step =>
    obtain ⟨other,later⟩ := not_or.mp (fun member => free (List.mem_cons.mpr member))
    simpa [Ne.symm other] using step later

theorem Holds.string {buffer s : Text} (holds : Holds buffer s) : string buffer = some s := by
  obtain ⟨rest,rfl⟩ := holds.spells
  rw [Resolving.string,if_pos (by simp),takeWhile_free holds.free rest]

theorem store_length {bytes out : Text} {i : Nat} (stored : store buffer i bytes = some out) :
    out.length = buffer.length := by
  rw [store] at stored
  split at stored
  · next fits =>
    injection stored with same
    rw [← same]
    simp only [List.length_append,List.length_take,List.length_drop]
    omega
  · simp at stored

theorem cleared_length : cleared.length = 256 := List.length_replicate

theorem strcpy_holds (free : NulFree s) (some_text : s ≠ []) (fits : s.length < 256) :
    ∃ buffer, strcpy cleared s = some buffer ∧ Holds buffer s := by
  have room : 0 + s.length ≤ cleared.length := by
    rw [cleared_length]
    omega
  have stored : store cleared 0 s = some (s ++ cleared.drop s.length) := by
    rw [store,if_pos room]
    simp
  refine ⟨s ++ cleared.drop s.length,by rw [strcpy,if_neg some_text,stored],?_,free,?_⟩
  · rw [store_length stored,cleared_length]
  · refine ⟨List.replicate (256 - (s.length + 1)) 0,?_⟩
    rw [cleared,List.drop_replicate,show 256 - s.length = (256 - (s.length + 1)) + 1 by omega,List.replicate_succ]

/-- A string copied into a cleared buffer is found there when it is not empty
    and fits with a terminator; otherwise bytes outside are touched. -/
theorem strcpy_string (free : NulFree s) :
    (strcpy cleared s).bind string = if s ≠ [] ∧ s.length < 256 then some s else none := by
  by_cases fine : s ≠ [] ∧ s.length < 256
  · obtain ⟨buffer,copied,holds⟩ := strcpy_holds free fine.1 fine.2
    rw [if_pos fine,copied,bind_some,holds.string]
  · rw [if_neg fine]
    by_cases empty : s = []
    · simp [strcpy,empty]
    · have long : 256 ≤ s.length := by
        by_contra short
        exact fine ⟨empty,by omega⟩
      rw [strcpy,if_neg empty,store,cleared_length]
      by_cases full : 0 + s.length ≤ 256
      · have past : cleared.drop (0 + s.length) = [] := List.drop_eq_nil_of_le (by rw [cleared_length]; omega)
        rw [if_pos full,past,bind_some,Resolving.string,if_neg]
        simpa [NulFree] using free
      · rw [if_neg full]
        rfl

/-- The operations leave the text in a buffer when it fits with its terminator,
    and touch bytes outside when it does not. -/
structure Reaches (made : Option Text) (s : Text) : Prop where
  fits : s.length < 256 → ∃ buffer, made = some buffer ∧ Holds buffer s
  full : 256 ≤ s.length → made = none

theorem strcat_reaches {t : Text} (holds : Holds buffer s) (free : NulFree t) : Reaches (strcat buffer t) (s ++ t) := by
  have size := holds.size
  constructor
  · intro fits
    rw [List.length_append] at fits
    obtain ⟨rest,shape⟩ := holds.spells
    have stored : store buffer s.length (t ++ [0]) = some (s ++ t ++ 0 :: buffer.drop (s.length + (t.length + 1))) := by
      rw [store,if_pos (by simp; omega),shape]
      simp
    have length := store_length stored
    refine ⟨_,by rw [strcat,holds.string,bind_some,stored],by omega,?_,_,rfl⟩
    intro member
    exact (List.mem_append.mp member).elim holds.free free
  · intro full
    rw [List.length_append] at full
    rw [strcat,holds.string,bind_some,store,if_neg (by simp; omega)]

/-- A string appended to what the operations before left. -/
theorem Reaches.strcat {made : Option Text} {s t : Text} (reaches : Reaches made s) (free : NulFree t) :
    Reaches (made.bind (fun buffer => strcat buffer t)) (s ++ t) := by
  by_cases room : s.length < 256
  · obtain ⟨buffer,same,holds⟩ := reaches.fits room
    rw [same,bind_some]
    exact strcat_reaches holds free
  · have full := reaches.full (by omega)
    rw [full]
    exact ⟨fun fits => absurd fits (by rw [List.length_append]; omega),fun _ => rfl⟩

/-- The last character of the string in a buffer is overwritten with its end. -/
theorem store_last (holds : Holds buffer s) (some_text : s ≠ []) :
    store buffer (s.length - 1) [0] = some (s.dropLast ++ 0 :: buffer.drop s.length) := by
  have size := holds.size
  have short := holds.short
  have positive : 0 < s.length := List.length_pos_iff.mpr some_text
  obtain ⟨rest,shape⟩ := holds.spells
  rw [store,if_pos (by simp; omega),List.length_singleton,Nat.sub_add_cancel positive,shape,
    List.take_append_of_le_length (by omega),← List.dropLast_eq_take]
  simp

theorem cut_last_holds (holds : Holds buffer s) (some_text : s ≠ []) :
    ∃ buffer', cut_last buffer slash = some buffer' ∧ Holds buffer' (trimmed s) := by
  rw [cut_last,holds.string,bind_some,if_neg some_text,trimmed]
  split
  · next ends =>
    have size := holds.size
    have stored := store_last holds some_text
    have length := store_length stored
    refine ⟨_,stored,by omega,?_,_,rfl⟩
    intro member
    exact holds.free (List.mem_of_mem_dropLast member)
  · exact ⟨buffer,rfl,holds⟩

theorem first_token_facts (found : first_token s = some drive) (free : NulFree s) :
    drive ≠ [] ∧ NulFree drive ∧ drive.length ≤ s.length := by
  simp only [first_token] at found
  split at found
  · simp at found
  · next some_rest =>
    injection found with same
    subst same
    refine ⟨?_,?_,?_⟩
    · obtain ⟨c,rest,shape⟩ := List.exists_cons_of_ne_nil some_rest
      have other : c ≠ colon := by
        have head := List.head_dropWhile_not (· = colon) some_rest
        simpa [shape] using head
      rw [shape]
      simp [other]
    · intro member
      exact free ((List.dropWhile_sublist _).mem ((List.takeWhile_sublist _).mem member))
    · exact ((List.takeWhile_sublist _).trans (List.dropWhile_sublist _)).length_le

theorem trimmed_free (free : NulFree s) : NulFree (trimmed s) := by
  unfold trimmed
  split
  · exact fun member => free (List.mem_of_mem_dropLast member)
  · exact free

/-- Behind a part of the string that was in a buffer stands the rest of what is left of it. -/
theorem cut_last_drop {buffer' : Text} (holds : Holds buffer s) (cut_off : cut_last buffer slash = some buffer')
    (some_text : s ≠ []) {n : Nat} (early : n ≤ s.length) : ∃ rest, buffer'.drop n = (trimmed s).drop n ++ 0 :: rest := by
  obtain ⟨rest,shape⟩ := holds.spells
  rw [cut_last,holds.string,bind_some,if_neg some_text] at cut_off
  unfold trimmed
  split at cut_off
  · next ends =>
    rw [store_last holds some_text] at cut_off
    rw [if_pos ends,← some.inj cut_off,shape,List.drop_left]
    by_cases inner : n ≤ s.dropLast.length
    · exact ⟨_,List.drop_append_of_le_length inner⟩
    · rw [List.length_dropLast] at inner
      have last : n = s.dropLast.length + 1 := by
        rw [List.length_dropLast]
        omega
      refine ⟨rest,?_⟩
      rw [last,← List.drop_drop,List.drop_left,List.drop_eq_nil_of_le (Nat.le_succ s.dropLast.length)]
      rfl
  · next other =>
    rw [if_neg other,← some.inj cut_off,shape]
    exact ⟨_,List.drop_append_of_le_length early⟩

/-- The string in a buffer ends at its first zero. -/
theorem string_spells {l : Text} (zero : 0 ∈ l) : NulFree (l.takeWhile (· ≠ 0)) ∧ ∃ rest, l = l.takeWhile (· ≠ 0) ++ 0 :: rest := by
  induction l with
  | nil => cases zero
  | cons c l step =>
    by_cases ends : c = 0
    · subst ends
      exact ⟨by simp [NulFree],l,by simp⟩
    · obtain ⟨free,rest,shape⟩ := step ((List.mem_cons.mp zero).resolve_left (Ne.symm ends))
      have kept : (c :: l).takeWhile (· ≠ 0) = c :: l.takeWhile (· ≠ 0) := by simp [ends]
      rw [kept]
      refine ⟨fun member => ?_,rest,congrArg (c :: ·) shape⟩
      exact (List.mem_cons.mp member).elim (fun same => ends same.symm) free

/-- The directory in `output` begins with the current one. -/
theorem directory_holds {cwd output : Text} (free : NulFree cwd) (short : cwd.length < 256) (size : output.length = 256)
    (found : directory cwd output = some dir) : Holds (cwd ++ output.drop cwd.length) dir ∧ cwd.length ≤ dir.length := by
  rw [directory,string] at found
  split at found
  · next zero =>
    obtain rfl := some.inj found
    have length : (cwd ++ output.drop cwd.length).length = 256 := by
      rw [List.length_append,List.length_drop]
      omega
    have front : ∀ c ∈ cwd, decide (c ≠ 0) = true := by
      intro c member
      rw [decide_eq_true_iff]
      rintro rfl
      exact free member
    obtain ⟨plain,spells⟩ := string_spells zero
    refine ⟨⟨length,plain,spells⟩,?_⟩
    rw [List.takeWhile_append_of_pos front,List.length_append]
    omega
  · cases found

/-- The drive's name over the cleared first four bytes of the directory. -/
theorem rooted_holds (size : buffer.length = 256) (free : NulFree dir) (named : drive ≠ [])
    (free' : NulFree drive) (shorter : drive.length < 256)
    (behind : ∃ rest, buffer.drop drive.length = (trimmed dir).drop drive.length ++ 0 :: rest) :
    ∃ output, (store buffer 0 [0,0,0,0]).bind (fun output => strcpy output drive) = some output ∧
      Holds output (rooted dir drive) := by
  have first : store buffer 0 [0,0,0,0] = some ([0,0,0,0] ++ buffer.drop 4) := by
    rw [store,if_pos (by rw [size]; simp)]
    simp
  have second : store ([0,0,0,0] ++ buffer.drop 4) 0 drive = some (drive ++ ([0,0,0,0] ++ buffer.drop 4).drop drive.length) := by
    have length := store_length first
    rw [store,if_pos (by omega)]
    simp
  have length := (store_length second).trans (store_length first)
  refine ⟨_,by rw [first,bind_some,strcpy,if_neg named,second],by omega,?_,?_⟩
  · unfold rooted
    split
    · exact free'
    · intro member
      rcases List.mem_append.mp member with early | late
      · exact free' early
      · exact trimmed_free free (List.mem_of_mem_drop late)
  · unfold rooted
    by_cases few : drive.length < 4
    · rw [if_pos few]
      obtain ⟨rest,zeros⟩ : ∃ rest, ([0,0,0,0] : Text).drop drive.length = 0 :: rest := by
        generalize drive.length = n at few
        interval_cases n <;> exact ⟨_,rfl⟩
      refine ⟨rest ++ buffer.drop 4,?_⟩
      rw [List.drop_append_of_le_length (by simp; omega),zeros]
      rfl
    · rw [if_neg few]
      have same : ([0,0,0,0] ++ buffer.drop 4).drop drive.length = buffer.drop drive.length := by
        rw [List.drop_append,List.drop_eq_nil_of_le (by simp; omega),List.nil_append,List.drop_drop]
        congr 1
        simp
        omega
      obtain ⟨rest,left⟩ := behind
      refine ⟨rest,?_⟩
      rw [same,left,List.append_assoc]

theorem slash_free : NulFree [slash] := by simp [NulFree,slash]

theorem colon_free : NulFree [colon] := by simp [NulFree,colon]

/-- A path with a drive replaces what `output` held. -/
theorem drive_reaches {path : Text} (size : buffer.length = 256) (free : NulFree path) (short : path.length < 256) :
    Reaches ((store buffer 0 path).bind (fun output => (store output path.length [0]).bind (fun output =>
      if path.getLast? = some colon then strcat output [slash] else some output)))
      (if path.getLast? = some colon then path ++ [slash] else path) := by
  have first : store buffer 0 path = some (path ++ buffer.drop path.length) := by
    rw [store,if_pos (by omega)]
    simp
  have second : store (path ++ buffer.drop path.length) path.length [0]
      = some (path ++ 0 :: (buffer.drop path.length).drop 1) := by
    rw [store,if_pos (by simp; omega)]
    simp
  have length := (store_length second).trans (store_length first)
  have holds : Holds (path ++ 0 :: (buffer.drop path.length).drop 1) path := ⟨by omega,free,_,rfl⟩
  rw [first,bind_some,second,bind_some]
  split
  · exact strcat_reaches holds slash_free
  · exact ⟨fun _ => ⟨_,rfl,holds⟩,fun full => absurd full (by omega)⟩

/-- A path behind the directory. -/
theorem relative_reaches {output tmp path : Text} (held : Holds output dir) (copied : Holds tmp path)
    (some_text : path ≠ []) : Reaches ((cut_last tmp slash).bind (fun tmp => (string tmp).bind (fun path =>
      (strcat output [slash]).bind (fun output => strcat output path)))) (dir ++ slash :: trimmed path) := by
  obtain ⟨tmp',cut_off,trims⟩ := cut_last_holds copied some_text
  rw [cut_off,bind_some,trims.string,bind_some]
  have both := (strcat_reaches held slash_free).strcat trims.free
  rwa [List.append_assoc] at both

/-- A path from the root behind what stands for the drive. -/
theorem rooted_reaches {path : Text} (size : buffer.length = 256) (free : NulFree dir) (named : drive ≠ [])
    (free' : NulFree drive) (shorter : drive.length < 256)
    (behind : ∃ rest, buffer.drop drive.length = (trimmed dir).drop drive.length ++ 0 :: rest) (path_free : NulFree path) :
    Reaches ((store buffer 0 [0,0,0,0]).bind (fun output => (strcpy output drive).bind (fun output =>
      (strcat output [colon]).bind (fun output => strcat output path)))) (rooted dir drive ++ colon :: path) := by
  obtain ⟨output,made,holds⟩ := rooted_holds size free named free' shorter behind
  have both := (strcat_reaches holds colon_free).strcat path_free
  rw [List.append_assoc] at both
  rw [← Option.bind_assoc,made,bind_some]
  exact both

/-- The path handed in and the one worked out have to fit. -/
theorem joined_output_reaches {cwd path output : Text} (free : NulFree cwd) (short : cwd.length < 256) (free' : NulFree path)
    (size : output.length = 256) :
    (path = [] ∨ 256 ≤ path.length ∨ joined cwd path output = none → joined_output cwd path output = none) ∧
    (∀ j, path ≠ [] → path.length < 256 → joined cwd path output = some j → Reaches (joined_output cwd path output) j) := by
  have copies {buffer : Text} (size : buffer.length = 256) : store buffer 0 cwd = some (cwd ++ buffer.drop cwd.length) := by
    rw [store,if_pos (by omega),Nat.zero_add]
    rfl
  have length : (cwd ++ output.drop cwd.length).length = 256 := by
    rw [List.length_append,List.length_drop]
    omega
  rw [joined_output,copies cleared_length,bind_some,copies size,bind_some]
  by_cases fine : path ≠ [] ∧ path.length < 256
  · obtain ⟨tmp,copied,held⟩ := strcpy_holds free' fine.1 fine.2
    have trouble : path = [] ∨ 256 ≤ path.length ∨ joined cwd path output = none → joined cwd path output = none := by
      rintro (empty | long | missing)
      · exact absurd empty fine.1
      · exact absurd long (by omega)
      · exact missing
    rw [copied,bind_some,held.string,bind_some]
    unfold joined at trouble ⊢
    by_cases drive_given : colon ∈ path
    · simp only [if_pos drive_given] at trouble ⊢
      refine ⟨fun bad => absurd (trouble bad) (some_ne_none _),?_⟩
      rintro j - - same
      injection same with same
      subst same
      exact drive_reaches length free' fine.2
    · simp only [if_neg drive_given] at trouble ⊢
      cases found : directory cwd output with
      | none =>
        have nothing : cut_last (cwd ++ output.drop cwd.length) slash = none := by
          rw [directory] at found
          rw [cut_last,found]
          rfl
        rw [nothing]
        exact ⟨fun _ => rfl,fun j _ _ impossible => by cases impossible⟩
      | some dir =>
        rw [found] at trouble
        simp only [bind_some] at trouble ⊢
        obtain ⟨holds,longer⟩ := directory_holds free short size found
        by_cases here : dir = []
        · have nothing : cut_last (cwd ++ output.drop cwd.length) slash = none := by
            rw [cut_last,holds.string,bind_some,if_pos here]
          simp only [if_pos here,nothing]
          exact ⟨fun _ => rfl,fun j _ _ impossible => by cases impossible⟩
        · obtain ⟨buffer,cut_off,trims⟩ := cut_last_holds holds here
          simp only [if_neg here,cut_off,bind_some] at trouble ⊢
          by_cases from_root : path.head? = some slash
          · simp only [if_pos from_root] at trouble ⊢
            cases token : first_token cwd with
            | none =>
              refine ⟨fun _ => ?_,fun j _ _ impossible => by cases impossible⟩
              cases store buffer 0 [0,0,0,0] with
              | none => rfl
              | some output => rfl
            | some drive =>
              obtain ⟨named,drive_free,shorter⟩ := first_token_facts token free
              rw [token] at trouble
              refine ⟨fun bad => absurd (trouble bad) (some_ne_none _),?_⟩
              rintro j - - same
              injection same with same
              subst same
              exact rooted_reaches trims.size holds.free named drive_free (by omega)
                (cut_last_drop holds cut_off here (by omega)) free'
          · simp only [if_neg from_root] at trouble ⊢
            refine ⟨fun bad => absurd (trouble bad) (some_ne_none _),?_⟩
            rintro j - - same
            injection same with same
            subst same
            exact relative_reaches trims held fine.1
  · have stops : (strcpy cleared path).bind string = none := by rw [strcpy_string free',if_neg fine]
    refine ⟨fun _ => ?_,fun j some_text fits => absurd ⟨some_text,fits⟩ fine⟩
    cases copied : strcpy cleared path with
    | none => rfl
    | some tmp =>
      rw [copied,bind_some] at stops
      rw [bind_some,stops]
      rfl

theorem slash_index_le (input : Text) (n left index : Nat) : slash_index input n left index ≤ index + n := by
  induction n generalizing left index with
  | zero => simp [slash_index]
  | succ n step =>
    rw [slash_index]
    split
    · omega
    · have rest := step (if input[index+1]? = some slash then left - 1 else left) (index+1)
      omega

/-- `exists_recursive` cuts a path that fits into two parts that fit. -/
theorem exists_buffers_fit {input : Text} (short : input.length < 256) (current_slash : Nat) :
    (exists_buffers input current_slash).isSome := by
  have index := slash_index_le input input.length (current_slash+1) 0
  have size := cleared_length
  rw [exists_buffers,store,if_pos (by rw [size,List.length_take]; simp; omega),bind_some,store,
    if_pos (by rw [size,List.length_drop]; omega)]
  rfl

/-- A call stores nothing outside its buffers, nor does the look-up it goes on with. -/
def Stays (cwd path output : Text) (check_child : Bool) : Prop :=
  ∃ r, resolve_check cwd path output check_child = some r ∧
    ∀ check_exists, r = .lookup check_exists → ∀ current_slash, (exists_buffers check_exists current_slash).isSome

/-- The path that is worked out has at most 255 bytes, and `compute_dot_dot`
    stays inside its array: a first ".." is refused, and otherwise no ".."
    climbs above the root and there is a drive. -/
def Worked (cwd path output : Text) : Prop :=
  ∃ j, joined cwd path output = some j ∧ j.length < 256 ∧
    ((cut j).2.head? = some dot_dot ∨ (cut j).1 ≠ [] ∧ reduce [] (cut j).2 ≠ none)

theorem cut_child_length (check_child : Bool) (path : Text) : (cut_child check_child path).length ≤ path.length := by
  unfold cut_child
  split
  · exact le_refl _
  · have shorter := (List.dropWhile_sublist (l := path.reverse) (· ≠ slash)).length_le
    simp only [List.length_reverse,List.length_tail] at shorter ⊢
    omega

theorem lookup_length {check_exists : Text} (found : root_or_lookup s = .lookup check_exists) : check_exists = s := by
  unfold root_or_lookup at found
  split at found
  · simp at found
  · split at found
    · simp at found
    · injection found with same
      exact same.symm

/-- What is left of a path without a zero has none either. -/
theorem resolved_free {out : List Text} (free : NulFree j) (reduced : reduce [] (cut j).2 = some out) :
    NulFree ((cut j).1 ++ out.flatMap (fun s => slash :: s)) := by
  have whole := path_of_cut j
  intro member
  apply free
  rw [← whole,path_of]
  rcases List.mem_append.mp member with early | late
  · exact List.mem_append.mpr (Or.inl early)
  · obtain ⟨s,kept_s,inside⟩ := List.mem_flatMap.mp late
    have there : s ∈ (cut j).2 := by
      rcases reduce_mem reduced s kept_s with impossible | there
      · simp at impossible
      · exact there
    exact List.mem_append.mpr (Or.inr (List.mem_flatMap.mpr ⟨s,there,inside⟩))

theorem resolved_length {out : List Text} (reduced : reduce [] (cut j).2 = some out) :
    ((cut j).1 ++ out.flatMap (fun s => slash :: s)).length ≤ j.length := by
  have room := reduce_length reduced
  have whole := congrArg List.length (path_of_cut j)
  simp only [path_of,List.length_append,List.flatMap_nil,List.length_nil] at whole room ⊢
  omega

/-- What follows once `output` holds the path worked out. -/
theorem after_joined (holds : Holds buffer j) (some_text : j ≠ []) (cwd path output : Text)
    (check_child : Bool) (made : joined_output cwd path output = some buffer) :
    Stays cwd path output check_child ↔
      (cut j).2.head? = some dot_dot ∨ (cut j).1 ≠ [] ∧ reduce [] (cut j).2 ≠ none := by
  have copied : (strcpy cleared j).bind string = some j := by
    rw [strcpy_string holds.free,if_pos ⟨some_text,holds.short⟩]
  have runs : resolve_check cwd path output check_child =
      match compute_dot_dot j with
      | .outside => none
      | .refused => some .refused
      | .resolved output => (strcpy cleared output).bind (fun check_exists =>
          (string check_exists).map (fun path => root_or_lookup (cut_child check_child path))) := by
    rw [resolve_check,made,bind_some,holds.string,bind_some,← Option.bind_assoc,copied,bind_some]
  obtain ⟨refuses,climbs,stays⟩ := compute_dot_dot_ends holds.short
  by_cases up : (cut j).2.head? = some dot_dot
  · rw [refuses up] at runs
    refine iff_of_true ⟨_,runs,?_⟩ (Or.inl up)
    intro check_exists impossible
    exact nomatch impossible
  · cases reduced : reduce [] (cut j).2 with
    | none =>
      rw [climbs up reduced] at runs
      apply iff_of_false
      · rintro ⟨r,ran,-⟩
        rw [runs] at ran
        exact nomatch ran
      · simp [up]
    | some out =>
      rw [stays out reduced] at runs
      by_cases named : (cut j).1 = []
      · rw [if_pos named] at runs
        apply iff_of_false
        · rintro ⟨r,ran,-⟩
          rw [runs] at ran
          exact nomatch ran
        · simp [up,named]
      · rw [if_neg named] at runs
        dsimp only at runs
        have length := resolved_length reduced
        have short := holds.short
        obtain ⟨check,stored,held⟩ := strcpy_holds (resolved_free holds.free reduced)
          (fun empty => named (List.append_eq_nil_iff.mp empty).1) (by omega)
        rw [stored,bind_some,held.string,Option.map_some] at runs
        refine iff_of_true ⟨_,runs,?_⟩ (Or.inr ⟨named,by simp⟩)
        intro check_exists looked current_slash
        rw [lookup_length looked]
        apply exists_buffers_fit
        have cut_off := cut_child_length check_child ((cut j).1 ++ out.flatMap (fun s => slash :: s))
        omega

theorem stays_iff {cwd path output : Text} (free : NulFree cwd) (short : cwd.length < 256) (free' : NulFree path)
    (size : output.length = 256) (check_child : Bool) :
    Stays cwd path output check_child ↔ path ≠ [] ∧ path.length < 256 ∧ Worked cwd path output := by
  obtain ⟨stops,reaches⟩ := joined_output_reaches free short free' size
  have fails (nothing : joined_output cwd path output = none) : ¬ Stays cwd path output check_child := by
    rintro ⟨r,ran,-⟩
    rw [resolve_check,nothing] at ran
    exact nomatch ran
  by_cases fine : path ≠ [] ∧ path.length < 256
  · cases works : joined cwd path output with
    | none =>
      apply iff_of_false (fails (stops (Or.inr (Or.inr works))))
      rintro ⟨-,-,j,same,-⟩
      rw [works] at same
      exact nomatch same
    | some j =>
      have some_text : j ≠ [] := by
        rintro rfl
        unfold joined at works
        split at works
        · split at works <;> simp_all
        · obtain ⟨dir,-,found⟩ := Option.bind_eq_some_iff.1 works
          split at found
          · simp at found
          · split at found
            · cases first_token cwd <;> simp at found
            · simp at found
      have outcome := reaches j fine.1 fine.2 works
      by_cases room : j.length < 256
      · obtain ⟨buffer,made,holds⟩ := outcome.fits room
        rw [after_joined holds some_text cwd path output check_child made]
        constructor
        · exact fun ends => ⟨fine.1,fine.2,j,works,room,ends⟩
        · rintro ⟨-,-,k,same,-,ends⟩
          rw [works] at same
          injection same with same
          rwa [same]
      · apply iff_of_false (fails (outcome.full (by omega)))
        rintro ⟨-,-,k,same,fits,-⟩
        rw [works] at same
        injection same with same
        exact room (same ▸ fits)
  · apply iff_of_false
    · apply fails
      apply stops
      by_cases empty : path = []
      · exact Or.inl empty
      · exact Or.inr (Or.inl (by by_contra below; exact fine ⟨empty,by omega⟩))
    · exact fun all => fine ⟨all.1,all.2.1⟩

/-- `compute_dot_dot` is right exactly when the first segment is "..", or no ".."
    climbs above the root and a segment remains. A path is resolved inside the
    buffers exactly when it is not empty, it and the path worked out from it
    take at most 255 bytes, and `compute_dot_dot` stays inside its array, whatever
    the buffer for the output held. -/
theorem path_resolution_right {drive : Text} {segments : List Text} :
    (drive ≠ [] → Plain drive → (∀ s ∈ segments, Plain s) →
      (path_of drive segments).length < 256 →
      (Resolves drive segments (compute_dot_dot (path_of drive segments)) ↔
        segments.head? = some dot_dot ∨ ∃ kept, reduce [] segments = some kept ∧ kept ≠ [])) ∧
    (∀ {cwd path output : Text} (check_child : Bool), NulFree cwd → cwd.length < 256 → NulFree path → output.length = 256 →
      (Stays cwd path output check_child ↔ path ≠ [] ∧ path.length < 256 ∧ Worked cwd path output)) :=
  ⟨fun named plain all fits => resolves_iff named plain all fits,
    fun check_child free short free' size => stays_iff free short free' size check_child⟩

/-- A buffer that holds a string. -/
def holding (s : Text) : Text := s ++ List.replicate (256 - s.length) 0

theorem holding_length (short : s.length < 256) : (holding s).length = 256 := by
  rw [holding,List.length_append,List.length_replicate]
  omega

/-- "f:/a/../b", and the path "b" in "f:/a", where `output` holds "f:/a/c" from a call before. -/
theorem path_resolution_right_sample :
    (Resolves [102,58] [[97],[46,46],[98]] (compute_dot_dot (path_of [102,58] [[97],[46,46],[98]])) ↔
      [[97],[46,46],[98]].head? = some dot_dot ∨ ∃ kept, reduce [] [[97],[46,46],[98]] = some kept ∧ kept ≠ []) ∧
    (Stays [102,58,47,97] [98] (holding [102,58,47,97,47,99]) true ↔
      ([98] : Text) ≠ [] ∧ ([98] : Text).length < 256 ∧ Worked [102,58,47,97] [98] (holding [102,58,47,97,47,99])) :=
  have plain : ∀ s ∈ ([[97],[46,46],[98]] : List Text), Plain s := by simp [Plain,slash]
  ⟨path_resolution_right.1 (by simp) (by simp [Plain,slash]) plain (by simp [path_of]),
    (@path_resolution_right [102,58] []).2 true (by simp [NulFree]) (by simp) (by simp [NulFree]) (holding_length (by decide))⟩

/-- "f:/a/.." becomes "f:", "f:/a/../.." runs out of the array, and 256 bytes
    of path run out of the first buffer. -/
theorem cancelled_path_wrong :
    compute_dot_dot (path_of [102,58] [[97],[46,46]]) = .resolved [102,58] ∧
    ¬ Resolves [102,58] [[97],[46,46]] (compute_dot_dot (path_of [102,58] [[97],[46,46]])) ∧
    compute_dot_dot (path_of [102,58] [[97],[46,46],[46,46]]) = .outside ∧
    ¬ Resolves [102,58] [[97],[46,46],[46,46]] (compute_dot_dot (path_of [102,58] [[97],[46,46],[46,46]])) ∧
    ¬ Stays [102,58,47] (List.replicate 256 97) cleared true := by
  have bare : compute_dot_dot (path_of [102,58] [[97],[46,46]]) = .resolved [102,58] := by decide
  have climbed : compute_dot_dot (path_of [102,58] [[97],[46,46],[46,46]]) = .outside := by decide
  refine ⟨bare,?_,climbed,?_,?_⟩
  · rw [bare]
    simp [Resolves,reduce,dot_dot,List.intercalate]
  · rw [climbed]
    simp [Resolves,reduce,dot_dot]
  · intro stays
    have free : NulFree (List.replicate 256 97) := fun member => absurd (List.eq_of_mem_replicate member) (by decide)
    have fine := (stays_iff (by simp [NulFree]) (by simp) free cleared_length true).mp stays
    rw [List.length_replicate] at fine
    exact absurd fine.2.1 (by omega)

end MicroOS.Resolving

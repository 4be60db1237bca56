import Mathlib.Data.List.TakeWhile
import MicroOS.Environment

/-!
`read_env` puts the expanded text together in a buffer of 512 bytes, with one index for the characters and `strcat` for the
values, and each name in one of 256. The main theorem is `argv_env_process_iff`: for which arguments both are large enough.
-/

namespace MicroOS.Expansion
open Environment (Envp getenv)
open Option (bind_eq_some_iff bind_some)

/-- A byte stored in a buffer; nothing stands behind the buffer. -/
def store (buffer : List UInt8) (i : Nat) (c : UInt8) : Option (List UInt8) :=
  if i < buffer.length then some (buffer.set i c) else none

/-- The string at the start of a buffer, if it ends there. -/
def cstr (buffer : List UInt8) : Option (List UInt8) := if 0 ∈ buffer then some (buffer.takeWhile (· ≠ 0)) else none

/-- The bytes of a string stored one after the other, with the terminator. -/
def store_all (buffer : List UInt8) (i : Nat) : List UInt8 → Option (List UInt8)
  | [] => store buffer i 0
  | c :: rest => (store buffer i c).bind fun buffer => store_all buffer (i + 1) rest

def strcat (buffer value : List UInt8) : Option (List UInt8) :=
  (cstr buffer).bind fun text => store_all buffer text.length value

def dollar : UInt8 := 0x24

/-- The characters of a name: letters, digits, `_` and `?`. -/
def name_char (c : UInt8) : Bool :=
  (0x61 ≤ c && c ≤ 0x7A) || (0x41 ≤ c && c ≤ 0x5A) || (0x30 ≤ c && c ≤ 0x39) || c = 0x5F || c = 0x3F

/-- The loop that fills `env_var`, from the character behind the `$` on; it gives the rest of the string, too. -/
def name_loop : List UInt8 → List UInt8 → Nat → Option (List UInt8 × List UInt8)
  | [],env_var,_ => some (env_var,[])
  | c :: rest,env_var,env_var_idx =>
    if name_char c then (store env_var env_var_idx c).bind fun env_var => name_loop rest env_var (env_var_idx + 1)
    else some (env_var,c :: rest)

theorem length_name_loop {text env_var : List UInt8} {env_var_idx : Nat} {p : List UInt8 × List UInt8}
    (found : name_loop text env_var env_var_idx = some p) : p.2.length ≤ text.length := by
  induction text generalizing env_var env_var_idx with
  | nil =>
    cases found
    exact le_rfl
  | cons c rest ih =>
    rw [name_loop] at found
    split at found
    · obtain ⟨_,_,more⟩ := bind_eq_some_iff.1 found
      exact Nat.le_succ_of_le (ih more)
    · cases found
      exact le_rfl

/-- The rounds of `read_env`; `none` is an access outside one of the buffers. -/
def read_env_loop (envp : Envp) (text tmp : List UInt8) (tmp_idx : Nat) : Option (List UInt8) :=
  match text with
  | [] => some tmp
  | c :: rest =>
    if c = dollar then
      match found : name_loop rest (List.replicate 256 0) 0 with
      | none => none
      | some p =>
        have := length_name_loop found
        (cstr p.1).bind fun env_var =>
          match getenv env_var envp with
          | some value => (strcat tmp value).bind fun tmp => read_env_loop envp p.2 tmp (tmp_idx + value.length)
          | none => read_env_loop envp p.2 tmp tmp_idx
    else (store tmp tmp_idx c).bind fun tmp => read_env_loop envp rest tmp (tmp_idx + 1)
termination_by text.length
decreasing_by all_goals simp only [List.length_cons]; omega

def read_env (envp : Envp) (text : List UInt8) : Option (List UInt8) :=
  (read_env_loop envp text (List.replicate 512 0) 0).bind cstr

def argv_env_process (envp : Envp) (argv : List (List UInt8)) : Option (List (List UInt8)) := argv.mapM (read_env envp)

/-- The text with each `$` and the name behind it replaced by the variable's value or by nothing. -/
def expanded (envp : Envp) : List UInt8 → List UInt8
  | [] => []
  | c :: rest =>
    if c = dollar then (getenv (rest.takeWhile name_char) envp).getD [] ++ expanded envp (rest.dropWhile name_char)
    else c :: expanded envp rest
termination_by text => text.length
decreasing_by all_goals
  have := List.length_dropWhile_le name_char rest
  simp only [List.length_cons]
  omega

/-- Every name is shorter than its buffer. -/
def Named : List UInt8 → Prop
  | [] => True
  | c :: rest => (c = dollar → (rest.takeWhile name_char).length < 256) ∧ Named rest

/-- The names and the expanded text have room, with a terminator behind them. -/
def Fits (envp : Envp) (text : List UInt8) : Prop := Named text ∧ (expanded envp text).length < 512

/-- A text at the start of a buffer that was cleared. -/
def filled (size : Nat) (text : List UInt8) : List UInt8 := text ++ List.replicate (size - text.length) 0

section
variable {size : Nat} {text : List UInt8}

theorem length_filled (inside : text.length ≤ size) : (filled size text).length = size := by
  rw [filled,List.length_append,List.length_replicate]
  omega

theorem filled_set (inside : text.length < size) (c : UInt8) :
    (filled size text).set text.length c = text ++ c :: List.replicate (size - (text.length + 1)) 0 := by
  obtain ⟨n,left⟩ : ∃ n, size - text.length = n + 1 := ⟨size - text.length - 1,by omega⟩
  have next : size - (text.length + 1) = n := by omega
  rw [filled,left,next,List.set_append_right _ _ le_rfl,Nat.sub_self,List.replicate_succ,List.set_cons_zero]

section
variable (inside : text.length ≤ size)
include inside

theorem store_filled (c : UInt8) :
    store (filled size text) text.length c = if text.length < size then some (filled size (text ++ [c])) else none := by
  rw [store,length_filled inside]
  by_cases room : text.length < size
  · rw [if_pos room,if_pos room,filled_set room,filled]
    simp
  · rw [if_neg room,if_neg room]

theorem cstr_filled (terminated : 0 ∉ text) :
    cstr (filled size text) = if text.length < size then some text else none := by
  rw [cstr,filled]
  by_cases room : text.length < size
  · obtain ⟨n,left⟩ : ∃ n, size - text.length = n + 1 := ⟨size - text.length - 1,by omega⟩
    rw [if_pos room,left,if_pos (by simp [List.replicate_succ])]
    rw [List.takeWhile_append_of_pos (fun c listed => by
      have other : c ≠ 0 := fun zero => terminated (zero ▸ listed)
      simpa using other)]
    simp [List.replicate_succ]
  · have left : size - text.length = 0 := by omega
    rw [if_neg room,left,if_neg (by simpa using terminated)]

theorem store_all_filled (value : List UInt8) : store_all (filled size text) text.length value =
      if text.length + value.length < size then some (filled size (text ++ value)) else none := by
  induction value generalizing text with
  | nil =>
    rw [store_all,store,length_filled inside,List.length_nil,Nat.add_zero,List.append_nil]
    by_cases room : text.length < size
    · obtain ⟨n,left⟩ : ∃ n, size - text.length = n + 1 := ⟨size - text.length - 1,by omega⟩
      have next : size - (text.length + 1) = n := by omega
      rw [if_pos room,if_pos room,filled_set room,next,filled,left,List.replicate_succ]
    · rw [if_neg room,if_neg room]
  | cons c value ih =>
    rw [store_all,store_filled inside]
    by_cases room : text.length < size
    · have longer : (text ++ [c]).length = text.length + 1 := by simp
      have rest := @ih (text ++ [c]) (by omega)
      rw [longer] at rest
      rw [if_pos room,bind_some,rest,List.append_assoc,List.singleton_append,List.length_cons,Nat.add_right_comm,Nat.add_assoc]
    · rw [if_neg room,if_neg (by rw [List.length_cons]; omega)]
      rfl

theorem strcat_filled (terminated : 0 ∉ text) (value : List UInt8) :
    strcat (filled size text) value = if text.length + value.length < size then some (filled size (text ++ value)) else none := by
  rw [strcat,cstr_filled inside terminated]
  by_cases room : text.length < size
  · rw [if_pos room,bind_some,store_all_filled inside]
  · rw [if_neg room,if_neg (by omega)]
    rfl

theorem name_loop_filled (rest : List UInt8) : name_loop rest (filled size text) text.length =
      if text.length + (rest.takeWhile name_char).length ≤ size
      then some (filled size (text ++ rest.takeWhile name_char),rest.dropWhile name_char) else none := by
  induction rest generalizing text with
  | nil =>
    rw [List.takeWhile_nil,List.dropWhile_nil,List.append_nil,if_pos (by simpa using inside)]
    rfl
  | cons c rest ih =>
    rw [name_loop]
    by_cases inner : name_char c = true
    · rw [if_pos inner,store_filled inside,List.takeWhile_cons_of_pos inner,List.dropWhile_cons_of_pos inner,List.length_cons]
      by_cases room : text.length < size
      · have longer : (text ++ [c]).length = text.length + 1 := by simp
        have more := @ih (text ++ [c]) (by omega)
        rw [longer] at more
        rw [if_pos room,bind_some,more,List.append_assoc,List.singleton_append,Nat.add_right_comm,Nat.add_assoc]
      · rw [if_neg room,if_neg (by omega)]
        rfl
    · rw [if_neg inner,List.takeWhile_cons_of_neg inner,List.dropWhile_cons_of_neg inner,List.append_nil,
        if_pos (by simpa using inside)]

end

end

theorem filled_nil (size : Nat) : filled size [] = List.replicate size 0 := rfl

/-- The name behind a `$`, as `getenv` gets it. -/
theorem name_read (rest : List UInt8) (terminated : 0 ∉ rest) :
    (name_loop rest (List.replicate 256 0) 0).bind (fun p => (cstr p.1).map fun env_var => (env_var,p.2)) =
      if (rest.takeWhile name_char).length < 256 then some (rest.takeWhile name_char,rest.dropWhile name_char) else none := by
  have loop := @name_loop_filled 256 [] (Nat.zero_le _) rest
  rw [filled_nil,List.length_nil,Nat.zero_add,List.nil_append] at loop
  rw [loop]
  have kept : 0 ∉ rest.takeWhile name_char := fun listed => terminated ((List.takeWhile_sublist _).subset listed)
  by_cases inside : (rest.takeWhile name_char).length ≤ 256
  · rw [if_pos inside,bind_some,cstr_filled inside kept]
    by_cases room : (rest.takeWhile name_char).length < 256
    · rw [if_pos room,if_pos room]
      rfl
    · rw [if_neg room,if_neg room]
      rfl
  · rw [if_neg inside,if_neg (by omega)]
    rfl

section
variable {envp : Envp} {rest : List UInt8}

/-- One reference. -/
theorem read_env_loop_dollar (terminated : 0 ∉ rest) (tmp : List UInt8) (tmp_idx : Nat) :
    read_env_loop envp (dollar :: rest) tmp tmp_idx =
      if (rest.takeWhile name_char).length < 256 then
        match getenv (rest.takeWhile name_char) envp with
        | some value => (strcat tmp value).bind fun tmp => read_env_loop envp (rest.dropWhile name_char) tmp (tmp_idx + value.length)
        | none => read_env_loop envp (rest.dropWhile name_char) tmp tmp_idx
      else none := by
  have read := name_read rest terminated
  rw [read_env_loop,if_pos rfl]
  split
  case h_1 none_found =>
    rw [none_found] at read
    split at read
    · cases read
    · rw [if_neg ‹_›]
  case h_2 p found =>
    rw [found,bind_some] at read
    split at read
    · obtain ⟨env_var,here,parts⟩ := Option.map_eq_some_iff.1 read
      obtain ⟨rfl,behind⟩ := Prod.mk.inj parts
      rw [if_pos ‹_›,here,← behind]
      rfl
    · rw [if_neg ‹_›,Option.map_eq_none_iff.1 read]
      rfl

theorem read_env_loop_other {c : UInt8} (other : c ≠ dollar) (tmp : List UInt8) (tmp_idx : Nat) :
    read_env_loop envp (c :: rest) tmp tmp_idx =
      (store tmp tmp_idx c).bind fun tmp => read_env_loop envp rest tmp (tmp_idx + 1) := by
  rw [read_env_loop,if_neg other]

/-- No name holds a `$`. -/
theorem named_dropWhile (rest : List UInt8) : Named (rest.dropWhile name_char) ↔ Named rest := by
  induction rest with
  | nil => rfl
  | cons c rest ih =>
    by_cases inner : name_char c = true
    · have other : c ≠ dollar := by
        rintro rfl
        exact absurd inner (by decide)
      rw [List.dropWhile_cons_of_pos inner,ih,Named]
      exact ⟨fun named => ⟨fun here => absurd here other,named⟩,And.right⟩
    · rw [List.dropWhile_cons_of_neg inner]

theorem getenv_terminated {name value : List UInt8} (entries : ∀ e ∈ envp, 0 ∉ e) (found : getenv name envp = some value) : 0 ∉ value := by
  induction envp with
  | nil => cases found
  | cons entry envp ih =>
    rw [getenv] at found
    split at found
    · split at found
      · cases found
        exact fun listed => entries entry (List.mem_cons_self ..) ((List.drop_sublist _ _).subset listed)
      · cases found
    · exact ih (fun e listed => entries e (List.mem_cons_of_mem _ listed)) found

end

section
variable {envp : Envp} (entries : ∀ e ∈ envp, 0 ∉ e)
include entries

/-- The rounds from any place on: the text so far is in the buffer, and the index stands behind it. -/
theorem read_env_loop_filled (rest : List UInt8) {text : List UInt8} (terminated : 0 ∉ rest)
    (plain : 0 ∉ text) (inside : text.length ≤ 512) :
    (read_env_loop envp rest (filled 512 text) text.length).bind cstr = some (text ++ expanded envp rest) ↔
      Named rest ∧ (text ++ expanded envp rest).length < 512 := by
  induction rest using expanded.induct generalizing text with
  | case1 =>
    rw [read_env_loop,bind_some,cstr_filled inside plain,expanded,List.append_nil]
    by_cases room : text.length < 512
    · rw [if_pos room]
      exact iff_of_true rfl ⟨trivial,room⟩
    · rw [if_neg room]
      exact iff_of_false (by simp) (fun both => room both.2)
  | case2 rest ih =>
    have behind : 0 ∉ rest := fun listed => terminated (List.mem_cons_of_mem _ listed)
    have kept : 0 ∉ rest.dropWhile name_char := fun listed => behind ((List.dropWhile_sublist _).subset listed)
    rw [read_env_loop_dollar behind,expanded,if_pos rfl,Named]
    by_cases short : (rest.takeWhile name_char).length < 256
    · have named : (dollar = dollar → (rest.takeWhile name_char).length < 256) ∧ Named rest ↔ Named (rest.dropWhile name_char) :=
        ⟨fun both => (named_dropWhile rest).2 both.2,fun all => ⟨fun _ => short,(named_dropWhile rest).1 all⟩⟩
      rw [if_pos short,named]
      cases found : getenv (rest.takeWhile name_char) envp with
      | none => exact ih kept plain inside
      | some value =>
        have printed := getenv_terminated entries found
        dsimp only [Option.getD_some]
        rw [strcat_filled inside plain,← List.append_assoc]
        by_cases room : text.length + value.length < 512
        · have more := @ih (text ++ value) kept (by simp [plain,printed]) (by rw [List.length_append]; omega)
          rw [List.length_append] at more
          rw [if_pos room,bind_some,more]
        · rw [if_neg room]
          refine iff_of_false (by simp) (fun both => room ?_)
          have total := both.2
          rw [List.length_append,List.length_append] at total
          omega
    · rw [if_neg short]
      exact iff_of_false (by simp) (fun both => short (both.1.1 rfl))
  | case3 c rest other ih =>
    have behind : 0 ∉ rest := fun listed => terminated (List.mem_cons_of_mem _ listed)
    have nonzero : 0 ≠ c := fun zero => terminated (zero ▸ List.mem_cons_self ..)
    rw [read_env_loop_other other,store_filled inside,expanded,if_neg other,Named]
    by_cases room : text.length < 512
    · have more := @ih (text ++ [c]) behind (by simp [plain,nonzero]) (by simpa using room)
      rw [List.length_append,List.length_singleton,List.append_assoc,List.singleton_append] at more
      rw [if_pos room,bind_some,more]
      exact and_congr_left fun _ => ⟨fun named => ⟨fun here => absurd here other,named⟩,And.right⟩
    · rw [if_neg room]
      refine iff_of_false (by simp) (fun both => room ?_)
      have total := both.2
      rw [List.length_append] at total
      omega

theorem read_env_iff {text : List UInt8} (terminated : 0 ∉ text) :
    read_env envp text = some (expanded envp text) ↔ Fits envp text := by
  exact @read_env_loop_filled _ entries text [] terminated (by simp) (Nat.zero_le _)

/-- All arguments. -/
theorem argv_env_process_iff {argv : List (List UInt8)} (terminated : ∀ text ∈ argv, 0 ∉ text) :
    argv_env_process envp argv = some (argv.map (expanded envp)) ↔ ∀ text ∈ argv, Fits envp text := by
  induction argv with
  | nil => simp [argv_env_process]
  | cons text argv ih =>
    have first := read_env_iff entries (terminated text (List.mem_cons_self ..))
    have rest := ih (fun text listed => terminated text (List.mem_cons_of_mem _ listed))
    rw [argv_env_process] at rest ⊢
    rw [List.forall_mem_cons,← first,← rest,List.mapM_cons,List.map_cons]
    constructor
    · intro all
      obtain ⟨one,here,all⟩ := bind_eq_some_iff.1 all
      obtain ⟨others,there,all⟩ := bind_eq_some_iff.1 all
      obtain ⟨rfl,rfl⟩ := List.cons.inj (Option.some.inj all)
      exact ⟨here,there⟩
    · rintro ⟨here,there⟩
      rw [here,there]
      rfl

end

end MicroOS.Expansion

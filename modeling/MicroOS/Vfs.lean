import Mathlib.Tactic

/-!
What the file systems share: C strings, paths and directory entries. A string is its bytes
before the terminator. The lookups skip slashes and copy up to the next one; what they come
by on the way are the components of the path (`components_cons`).
-/
namespace MicroOS.Vfs

abbrev Word := BitVec 32
abbrev Name := List UInt8

inductive EntryType where
  | file | dir
  deriving DecidableEq

/-- `dir_t`. -/
structure Dir where
  name : Name
  idx : Word
  is_none : Bool
  type : EntryType
  deriving DecidableEq

/-- The other fields of an entry that is none are left zero. -/
def Dir.none : Dir := ⟨[],0,true,.file⟩

def slash : UInt8 := 47

/-- `tolower` of string.c; bytes from 128 on are negative characters. -/
def tolower (c : UInt8) : UInt8 := if 65 ≤ c ∧ c ≤ 90 then c + 32 else c

/-- Whether `strcasecmp` gives 0. -/
def same_name : Name → Name → Bool
  | [],[] => true
  | a :: as,b :: bs => tolower a == tolower b && same_name as bs
  | _,_ => false

/-- What is copied, and the string behind it. -/
def copy_until (stop : UInt8) : Name → Name × Name
  | [] => ([],[])
  | c :: src => if c = stop then ([],src) else (c :: (copy_until stop src).1,(copy_until stop src).2)

def skip_slashes (path : Name) : Name := path.dropWhile (· = slash)

/-- The first component, when it stands at the start, and the components behind it. -/
def split : Name → Name × List Name
  | [] => ([],[])
  | c :: path =>
    let names := if (split path).1 = [] then (split path).2 else (split path).1 :: (split path).2
    if c = slash then ([],names) else (c :: (split path).1,(split path).2)

/-- The names in a path: what stands between slashes, without empty ones. -/
def components (path : Name) : List Name :=
  if (split path).1 = [] then (split path).2 else (split path).1 :: (split path).2

theorem same_name_iff (a b : Name) : same_name a b = true ↔ a.map tolower = b.map tolower := by
  induction a generalizing b with
  | nil => cases b <;> simp [same_name]
  | cons x a ih => cases b <;> simp [same_name,ih]

theorem same_name_refl (a : Name) : same_name a a = true := (same_name_iff a a).2 rfl

@[simp] theorem components_nil : components [] = [] := rfl

theorem components_slash (path : Name) : components (slash :: path) = components path := by
  simp [components,split]

theorem components_skip (path : Name) : components (skip_slashes path) = components path := by
  induction path with
  | nil => rfl
  | cons c path ih =>
    unfold skip_slashes at *
    rw [List.dropWhile_cons]
    split_ifs with here
    · rw [ih,of_decide_eq_true here,components_slash]
    · rfl

theorem split_eq (path : Name) : split path = ((copy_until slash path).1,components (copy_until slash path).2) := by
  induction path with
  | nil => rfl
  | cons c path ih =>
    by_cases here : c = slash
    · subst here
      simp [split,copy_until,components]
    · simp [split,copy_until,here,ih]

/-- A path that starts with a component. -/
theorem components_cons {c : UInt8} {path : Name} (here : c ≠ slash) :
    components (c :: path) = (copy_until slash (c :: path)).1 :: components (copy_until slash (c :: path)).2 := by
  have nonempty : (copy_until slash (c :: path)).1 ≠ [] := by simp [copy_until,here]
  rw [components,split_eq,if_neg nonempty]

theorem copy_plain (stop : UInt8) (path : Name) : stop ∉ (copy_until stop path).1 := by
  induction path with
  | nil => simp [copy_until]
  | cons c path ih =>
    unfold copy_until
    split_ifs with here
    · simp
    · simp [Ne.symm here,ih]

theorem copy_shorter (stop : UInt8) (path : Name) : (copy_until stop path).2.length ≤ path.length - 1 := by
  induction path with
  | nil => simp [copy_until]
  | cons c path ih =>
    unfold copy_until
    split_ifs
    · simp
    · simp only [List.length_cons]
      omega

theorem skip_shorter (path : Name) : (skip_slashes path).length ≤ path.length :=
  (List.dropWhile_suffix _).length_le

theorem skip_head {path : Name} {c : UInt8} {rest : Name} (left : skip_slashes path = c :: rest) : c ≠ slash := by
  intro is
  have head := List.head?_dropWhile_not (· = slash) path
  unfold skip_slashes at left
  rw [left] at head
  simp [is] at head

/-- Components before and behind a slash. -/
theorem components_append (before behind : Name) :
    components (before ++ slash :: behind) = components before ++ components behind := by
  have parts : split (before ++ slash :: behind) = ((split before).1,(split before).2 ++ components behind) := by
    induction before with
    | nil => simp [split,components]
    | cons c before ih =>
      simp only [List.cons_append,split,ih]
      split_ifs <;> simp
  simp only [components,parts]
  split_ifs <;> simp

/-- A name without slashes. -/
theorem components_name {name : Name} (nonempty : name ≠ []) (plain : slash ∉ name) : components name = [name] := by
  have whole : ∀ name : Name, slash ∉ name → copy_until slash name = (name,[]) := by
    intro name plain
    induction name with
    | nil => rfl
    | cons c name ih =>
      obtain ⟨here,later⟩ := not_or.1 (mt List.mem_cons.2 plain)
      simp [copy_until,Ne.symm here,ih later]
  rw [components,split_eq,whole name plain]
  simp [nonempty]

end MicroOS.Vfs

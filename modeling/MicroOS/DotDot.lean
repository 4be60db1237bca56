import Mathlib.Tactic

/-!
`compute_dot_dot`: a path is cut at its slashes into an array of segments, each
".." clears itself and the nearest segment before it that is still there, and
what is left is put together again.
-/
namespace MicroOS.DotDot

/-- The bytes of a string without its terminator. -/
abbrev Text := List UInt8

def slash : UInt8 := 47

def dot_dot : Text := [46,46]

/-- The bytes before the first '/', and those behind each '/' up to the next. -/
def cut : Text → Text × List Text
  | [] => ([],[])
  | c :: path => if c = slash then ([],(cut path).1 :: (cut path).2) else (c :: (cut path).1,(cut path).2)

/-- `while (del_idx >= 0 && path_segments[del_idx] == NULL) del_idx--;` from
    `i - 1`; without a result `del_idx` is -1. -/
def del_idx (path_segments : List (Option Text)) : Nat → Option Nat
  | 0 => none
  | i+1 => if path_segments[i]? = some none then del_idx path_segments i else some i

/-- Why the loop does not finish: a first segment "..", or an access outside `path_segments`. -/
inductive Stop
  | unsupported
  | outside

/-- The loop over the segments from `i` on, `n` of them; a cleared entry is none. -/
def cancel_loop : Nat → Nat → List (Option Text) → Except Stop (List (Option Text))
  | 0,_,path_segments => .ok path_segments
  | n+1,i,path_segments =>
    match path_segments[i]? with
    | some (some s) =>
      if s = dot_dot then
        if i = 0 then .error .unsupported else
        match del_idx path_segments i with
        | none => .error .outside
        | some d => cancel_loop n (i+1) ((path_segments.set d none).set i none)
      else cancel_loop n (i+1) path_segments
    | _ => .error .outside

/-- How a call ends: with false and nothing written, with true and a string in
    `output`, or with an access outside an array or through NULL. -/
inductive Outcome
  | refused
  | resolved (output : Text)
  | outside
  deriving DecidableEq

/-- `strcpy(output, strtok(path, "/"))` and a `strcat` of "/" and each segment
    that is left; `output` has 256 bytes and was cleared. -/
def join (drive : Text) (path_segments : List (Option Text)) : Outcome :=
  let output := drive ++ (path_segments.filterMap id).flatMap (fun s => slash :: s)
  if drive = [] then .outside
  else if output.length < 256 then .resolved output else .outside

/-- `path_segments` has 256 entries. -/
def compute_dot_dot (path : Text) : Outcome :=
  let segments := (cut path).2
  if 256 < segments.length then .outside else
  match cancel_loop segments.length 0 (segments.map some) with
  | .error .unsupported => .refused
  | .error .outside => .outside
  | .ok path_segments => join (cut path).1 path_segments

/-- The segments that remain when each ".." takes the nearest one kept before
    it; none when one would climb above the root. -/
def reduce : List Text → List Text → Option (List Text)
  | kept,[] => some kept
  | kept,s :: segments =>
    if s = dot_dot then
      if kept = [] then none else reduce kept.dropLast segments
    else reduce (kept ++ [s]) segments

/-- "drive/s1/../sn" -/
def path_of (drive : Text) (segments : List Text) : Text := drive ++ segments.flatMap (fun s => slash :: s)

/-- False when a ".." climbs above the root, and else the drive, a '/' and what remains. -/
def Resolves (drive : Text) (segments : List Text) (out : Outcome) : Prop :=
  match reduce [] segments with
  | none => out = .refused
  | some kept => out = .resolved (drive ++ slash :: [slash].intercalate kept)

/-- No '/' in the text. -/
def Plain (t : Text) : Prop := slash ∉ t

theorem cut_plain {t : Text} (plain : Plain t) (rest : Text) :
    cut (t ++ slash :: rest) = (t,(cut rest).1 :: (cut rest).2) := by
  induction t with
  | nil => simp [cut]
  | cons c t step =>
    obtain ⟨other,later⟩ := not_or.mp (fun member => plain (List.mem_cons.mpr member))
    simp [cut,step later,Ne.symm other]

theorem cut_whole {t : Text} (plain : Plain t) : cut t = (t,[]) := by
  induction t with
  | nil => rfl
  | cons c t step =>
    obtain ⟨other,later⟩ := not_or.mp (fun member => plain (List.mem_cons.mpr member))
    simp [cut,step later,Ne.symm other]

theorem cut_path {drive : Text} {segments : List Text} (plain : Plain drive) (all : ∀ s ∈ segments, Plain s) :
    cut (path_of drive segments) = (drive,segments) := by
  induction segments generalizing drive with
  | nil => simpa [path_of] using cut_whole plain
  | cons s segments step =>
    have shape : path_of drive (s :: segments) = drive ++ slash :: path_of s segments := by simp [path_of]
    have rest := @step s (all s (by simp)) (fun t member => all t (by simp [member]))
    rw [shape,cut_plain plain,rest]

/-- The entries before `i` that are still there. -/
def kept (path_segments : List (Option Text)) (i : Nat) : List Text := (path_segments.take i).filterMap id

section
variable {path_segments : List (Option Text)}

theorem kept_succ {i : Nat} {entry : Option Text}
    (there : path_segments[i]? = some entry) : kept path_segments (i+1) = kept path_segments i ++ entry.toList := by
  rw [kept,List.take_add_one,there,List.filterMap_append]
  cases entry with
  | none => simp [kept]
  | some s => simp [kept]

theorem kept_set {i d : Nat} (later : i ≤ d) (entry : Option Text) :
    kept (path_segments.set d entry) i = kept path_segments i := by
  rw [kept,List.take_set_of_le later,kept]

theorem del_idx_none {i : Nat} (inside : i ≤ path_segments.length) :
    del_idx path_segments i = none ↔ kept path_segments i = [] := by
  induction i with
  | zero => simp [del_idx,kept]
  | succ i step =>
    obtain ⟨entry,there⟩ : ∃ entry, path_segments[i]? = some entry := ⟨_,List.getElem?_eq_getElem (by omega)⟩
    rw [del_idx,kept_succ there,there]
    cases entry with
    | none => simpa using step (by omega)
    | some s => simp

/-- The entry found is the last one kept, and clearing it drops that one. -/
theorem del_idx_some {i d : Nat} (inside : i ≤ path_segments.length) (found : del_idx path_segments i = some d) :
    d < i ∧ kept (path_segments.set d none) i = (kept path_segments i).dropLast := by
  induction i with
  | zero => simp [del_idx] at found
  | succ i step =>
    obtain ⟨entry,there⟩ : ∃ entry, path_segments[i]? = some entry := ⟨_,List.getElem?_eq_getElem (by omega)⟩
    rw [del_idx,there] at found
    cases entry with
    | none =>
      rw [if_pos rfl] at found
      obtain ⟨before,dropped⟩ := step (by omega) found
      have still : (path_segments.set d none)[i]? = some none := by
        rw [List.getElem?_set_ne (by omega)]
        exact there
      refine ⟨by omega,?_⟩
      rw [kept_succ still,kept_succ there]
      simpa using dropped
    | some s =>
      rw [if_neg (by simp)] at found
      injection found with same
      subst same
      have cleared : (path_segments.set i none)[i]? = some none := by
        rw [List.getElem?_set_self (by omega)]
      refine ⟨by omega,?_⟩
      rw [kept_succ cleared,kept_succ there,kept_set (le_refl i)]
      simp

end

/-- The entries from `i` on are the segments still to come. -/
def Coming (path_segments : List (Option Text)) (i : Nat) (segments : List Text) : Prop :=
  path_segments.drop i = segments.map some

section
variable {path_segments : List (Option Text)} {i : Nat} {s : Text} {segments : List Text}
  (coming : Coming path_segments i (s :: segments))
include coming

theorem Coming.head : path_segments[i]? = some (some s) := by
  have first := congrArg List.head? coming
  rwa [List.head?_drop] at first

theorem Coming.tail : Coming path_segments (i+1) segments := by
  have rest := congrArg List.tail coming
  rwa [List.tail_drop] at rest

end

theorem Coming.length {path_segments : List (Option Text)} {i : Nat} {segments : List Text}
    (coming : Coming path_segments i segments) (inside : i ≤ path_segments.length) :
    path_segments.length = i + segments.length := by
  have sizes := congrArg List.length coming
  simp only [List.length_drop,List.length_map] at sizes
  omega

theorem Coming.set {path_segments : List (Option Text)} {i d : Nat} {segments : List Text}
    (coming : Coming path_segments i segments) (before : d < i) (entry : Option Text) :
    Coming (path_segments.set d entry) i segments := by
  rw [Coming,List.drop_set_of_lt before]
  exact coming

/-- Past the first segment the loop keeps what `reduce` keeps, and runs out of
    the array exactly where a ".." would climb above the root. -/
theorem cancel_loop_reduces {segments : List Text} {i : Nat} {path_segments : List (Option Text)} (past_first : 0 < i)
    (inside : i ≤ path_segments.length) (coming : Coming path_segments i segments) :
    (reduce (kept path_segments i) segments = none → cancel_loop segments.length i path_segments = .error .outside) ∧
    (∀ out, reduce (kept path_segments i) segments = some out →
      ∃ rest, cancel_loop segments.length i path_segments = .ok rest ∧ rest.filterMap id = out) := by
  induction segments generalizing i path_segments with
  | nil =>
    have sizes := coming.length inside
    simp only [List.length_nil] at sizes
    have whole : path_segments.take i = path_segments := List.take_of_length_le (by omega)
    constructor
    · intro climbs
      simp [reduce] at climbs
    · intro out same
      injection same with same
      exact ⟨path_segments,rfl,by rw [← same,kept,whole]⟩
  | cons s segments step =>
    have here := coming.head
    have sizes := coming.length inside
    simp only [List.length_cons] at sizes
    rw [reduce,List.length_cons,cancel_loop,here]
    by_cases up : s = dot_dot
    · have later : ¬ i = 0 := by omega
      rw [if_pos up]
      simp only [if_pos up,if_neg later]
      by_cases root : kept path_segments i = []
      · rw [if_pos root,(del_idx_none inside).mpr root]
        exact ⟨fun _ => rfl,fun out impossible => nomatch impossible⟩
      · obtain ⟨d,found⟩ := Option.ne_none_iff_exists'.mp (fun missing => root ((del_idx_none inside).mp missing))
        obtain ⟨before,dropped⟩ := del_idx_some inside found
        rw [if_neg root,found]
        have cleared : kept ((path_segments.set d none).set i none) (i+1) = (kept path_segments i).dropLast := by
          have entry : ((path_segments.set d none).set i none)[i]? = some none := by
            rw [List.getElem?_set_self (by rw [List.length_set]; omega)]
          rw [kept_succ entry,kept_set (le_refl i),dropped]
          simp
        have rest := @step (i+1) ((path_segments.set d none).set i none) (by omega)
          (by rw [List.length_set,List.length_set]; omega) ((coming.tail.set (by omega) none).set (by omega) none)
        rw [cleared] at rest
        exact rest
    · rw [if_neg up]
      simp only [if_neg up]
      have rest := @step (i+1) path_segments (by omega) (by omega) coming.tail
      rw [kept_succ here] at rest
      exact rest

theorem path_of_cut (path : Text) : path_of (cut path).1 (cut path).2 = path := by
  induction path with
  | nil => rfl
  | cons c path step =>
    rw [cut]
    split
    · next same => simpa [path_of,same] using step
    · simpa [path_of] using step

theorem path_length (drive : Text) (segments : List Text) :
    drive.length + segments.length ≤ (path_of drive segments).length := by
  induction segments generalizing drive with
  | nil => simp [path_of]
  | cons s segments step =>
    have rest := step s
    simp only [path_of,List.length_append,List.flatMap_cons,List.length_cons] at rest ⊢
    omega

/-- What is kept was there. -/
theorem reduce_mem {segments base out : List Text} (reduced : reduce base segments = some out) :
    ∀ s ∈ out, s ∈ base ∨ s ∈ segments := by
  induction segments generalizing base with
  | nil =>
    injection reduced with same
    intro s member
    exact Or.inl (same ▸ member)
  | cons t segments step =>
    intro s member
    rw [reduce] at reduced
    split at reduced
    · split at reduced
      · simp at reduced
      · exact (step reduced s member).imp List.mem_of_mem_dropLast (List.mem_cons_of_mem t)
    · rcases step reduced s member with early | late
      · rcases List.mem_append.mp early with before | here
        · exact Or.inl before
        · exact Or.inr (List.mem_cons.mpr (Or.inl (List.mem_singleton.mp here)))
      · exact Or.inr (List.mem_cons_of_mem t late)

/-- What is kept is no longer than what was there. -/
theorem reduce_length {segments base out : List Text} (reduced : reduce base segments = some out) :
    (out.flatMap (fun s => slash :: s)).length ≤
      (base.flatMap (fun s => slash :: s)).length + (segments.flatMap (fun s => slash :: s)).length := by
  induction segments generalizing base with
  | nil =>
    injection reduced with same
    simp [same]
  | cons s segments step =>
    rw [reduce] at reduced
    split at reduced
    · split at reduced
      · simp at reduced
      · next some_kept =>
        have rest := step reduced
        have shorter : (base.dropLast.flatMap (fun s => slash :: s)).length ≤ (base.flatMap (fun s => slash :: s)).length := by
          conv_rhs => rw [← List.dropLast_append_getLast some_kept]
          simp
        simp only [List.flatMap_cons,List.length_append] at rest ⊢
        omega
    · have rest := step reduced
      simp only [List.flatMap_cons,List.flatMap_append,List.length_append,List.flatMap_nil,List.length_nil] at rest ⊢
      omega

/-- The loop over all segments ends as `reduce` does, except that a first ".." is refused. -/
theorem cancel_loop_start (segments : List Text) :
    (segments.head? = some dot_dot → cancel_loop segments.length 0 (segments.map some) = .error .unsupported) ∧
    (segments.head? ≠ some dot_dot → reduce [] segments = none →
      cancel_loop segments.length 0 (segments.map some) = .error .outside) ∧
    (∀ out, reduce [] segments = some out →
      ∃ rest, cancel_loop segments.length 0 (segments.map some) = .ok rest ∧ rest.filterMap id = out) := by
  cases segments with
  | nil => simp [reduce,cancel_loop]
  | cons s segments =>
    have coming : Coming ((s :: segments).map some) 1 segments := rfl
    have first : kept ((s :: segments).map some) 1 = [s] := rfl
    obtain ⟨climbs,stays⟩ := cancel_loop_reduces (by omega) (by simp) coming
    rw [first] at climbs stays
    have begins (other : s ≠ dot_dot) : cancel_loop (s :: segments).length 0 ((s :: segments).map some)
        = cancel_loop segments.length 1 ((s :: segments).map some) := by
      simp [cancel_loop,other]
    refine ⟨?_,?_,?_⟩
    · intro up
      have first_up : s = dot_dot := by simpa using up
      simp [cancel_loop,first_up]
    · intro up climbing
      have other : s ≠ dot_dot := by simpa using up
      rw [begins other]
      exact climbs (by simpa [reduce,other] using climbing)
    · intro out reduced
      have other : s ≠ dot_dot := by
        rintro rfl
        simp [reduce] at reduced
      rw [begins other]
      exact stays out (by simpa [reduce,other] using reduced)

/-- How a call ends on a path that fits its buffers. -/
theorem compute_dot_dot_ends {path : Text} (fits : path.length < 256) :
    ((cut path).2.head? = some dot_dot → compute_dot_dot path = .refused) ∧
    ((cut path).2.head? ≠ some dot_dot → reduce [] (cut path).2 = none → compute_dot_dot path = .outside) ∧
    (∀ out, reduce [] (cut path).2 = some out → compute_dot_dot path =
      if (cut path).1 = [] then .outside else .resolved ((cut path).1 ++ out.flatMap (fun s => slash :: s))) := by
  have size := path_length (cut path).1 (cut path).2
  rw [path_of_cut] at size
  have count : ¬ 256 < (cut path).2.length := by omega
  obtain ⟨refuses,climbs,stays⟩ := cancel_loop_start (cut path).2
  refine ⟨?_,?_,?_⟩
  · intro up
    rw [compute_dot_dot,if_neg count,refuses up]
  · intro other climbing
    rw [compute_dot_dot,if_neg count,climbs other climbing]
  · intro out reduced
    obtain ⟨rest,ran,remains⟩ := stays out reduced
    have room := reduce_length reduced
    have whole := congrArg List.length (path_of_cut path)
    simp only [path_of,List.length_append,List.flatMap_nil,List.length_nil] at whole room
    rw [compute_dot_dot,if_neg count,ran]
    dsimp only
    rw [join,remains]
    split
    · rfl
    · rw [if_pos (by rw [List.length_append]; omega)]

theorem intercalate_slash (s : Text) (segments : List Text) :
    slash :: [slash].intercalate (s :: segments) = (s :: segments).flatMap (fun t => slash :: t) := by
  induction segments generalizing s with
  | nil => simp [List.intercalate]
  | cons t segments step =>
    have rest := step t
    simp only [List.flatMap_cons] at rest ⊢
    rw [← rest]
    simp [List.intercalate]

/-- An absolute path is resolved rightly exactly when its first segment is a
    "..", or no ".." climbs above the root and at least one segment remains. -/
theorem resolves_iff {drive : Text} {segments : List Text} (named : drive ≠ []) (plain : Plain drive)
    (all : ∀ s ∈ segments, Plain s) (fits : (path_of drive segments).length < 256) :
    Resolves drive segments (compute_dot_dot (path_of drive segments)) ↔
      segments.head? = some dot_dot ∨ ∃ kept, reduce [] segments = some kept ∧ kept ≠ [] := by
  obtain ⟨refuses,climbs,stays⟩ := compute_dot_dot_ends fits
  rw [cut_path plain all] at refuses climbs stays
  by_cases up : segments.head? = some dot_dot
  · rw [refuses up]
    obtain ⟨rest,rfl⟩ := List.head?_eq_some_iff.mp up
    exact iff_of_true (by simp [Resolves,reduce]) (Or.inl up)
  · cases reduced : reduce [] segments with
    | none =>
      rw [climbs up reduced]
      apply iff_of_false
      · simp [Resolves,reduced]
      · simp [up]
    | some out =>
      rw [stays out reduced,if_neg named,Resolves,reduced]
      dsimp only
      cases out with
      | nil =>
        apply iff_of_false
        · simp [List.intercalate]
        · simp [up]
      | cons t out =>
        rw [intercalate_slash]
        exact iff_of_true rfl (Or.inr ⟨t :: out,rfl,by simp⟩)

end MicroOS.DotDot

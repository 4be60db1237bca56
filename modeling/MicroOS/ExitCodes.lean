import MicroOS.Runs
import MicroOS.Rings

/-!
The codes of the last exits are kept in a ring of pids and codes, which starts as zeros.
The main theorem is `exit_code_found`: when `get_exit_code` tells an exit from no exit.
-/

namespace MicroOS.ExitCodes
open Runs Rings

def MAX_TASKS : Nat := 32

/-- `exit_code_t`. -/
structure ExitCode where
  pid : Int
  exit_code : Int

/-- The counter of `init_task`, the ring, and what happened so far: the tasks that have not exited, and the
    exits, the last one first. -/
structure State where
  current_pid : Int
  exit_codes : Nat → ExitCode
  exit_codes_idx : Nat
  live : List Int
  exits : List ExitCode

/-- `init_task` gives a task its pid; the counter is an `int` and must not overflow. -/
def create (s : State) : Option State :=
  if s.current_pid < 2 ^ 31 - 1 then some { s with current_pid := s.current_pid + 1, live := s.current_pid :: s.live } else none

def add_exit_code (s : State) (pid exit_code : Int) : State :=
  { s with
    exit_codes := Function.update s.exit_codes s.exit_codes_idx ⟨pid,exit_code⟩
    exit_codes_idx := (s.exit_codes_idx + 1) % MAX_TASKS }

/-- `exit_task` for a task that has not exited. -/
def exit (s : State) (pid code : Int) : Option State :=
  if pid ∈ s.live then
    let s := add_exit_code s pid code
    some { s with live := s.live.erase pid, exits := ⟨pid,code⟩ :: s.exits }
  else none

def get_exit_code (s : State) (pid : Int) : Int :=
  match (List.range MAX_TASKS).find? fun i => (s.exit_codes i).pid == pid with
  | some i => (s.exit_codes i).exit_code
  | none => -1

inductive Action
  | create
  | exit (pid code : Int)

def next (s : State) : Action → Option State
  | .create => create s
  | .exit pid code => exit s pid code

def start : State := ⟨0,fun _ => ⟨0,0⟩,0,[],[]⟩

def exit_system : System State Action where
  start s := s = start
  step s a t := next s a = some t

/-- What is asked of the kernel: the code of a pid among the last exits, and -1 for any other one. -/
def Answers (s : State) (pid : Int) (answer : Int) : Prop :=
  (∀ e ∈ s.exits.take MAX_TASKS, e.pid = pid → answer = e.exit_code) ∧
    ((∀ e ∈ s.exits.take MAX_TASKS, e.pid ≠ pid) → answer = -1)

/-- Every task exits once, and the ring holds the last exits. -/
structure Once (s : State) : Prop where
  fresh : ∀ pid ∈ s.live, pid < s.current_pid
  past : ∀ e ∈ s.exits, e.pid < s.current_pid
  unique : s.live.Nodup
  once : (s.exits.map ExitCode.pid).Nodup
  apart : ∀ e ∈ s.exits, e.pid ∉ s.live
  index : s.exit_codes_idx = s.exits.length % MAX_TASKS
  keeps : Keeps MAX_TASKS ⟨0,0⟩ s.exit_codes s.exits

theorem once_start : Once start where
  fresh := by simp [start]
  past := by simp [start]
  unique := List.nodup_nil
  once := List.nodup_nil
  apart := by simp [start]
  index := rfl
  keeps := keeps_nil _ _

section
variable {s t : State}

theorem once_create (once : Once s) (here : create s = some t) : Once t := by
  rw [create] at here
  split at here
  · obtain rfl := Option.some.inj here
    refine ⟨?_,?_,?_,once.once,?_,once.index,once.keeps⟩
    · intro pid member
      rcases List.mem_cons.1 member with rfl | old
      · exact Int.lt_succ _
      · exact Int.lt_trans (once.fresh pid old) (Int.lt_succ _)
    · intro e member
      exact Int.lt_trans (once.past e member) (Int.lt_succ _)
    · refine List.nodup_cons.2 ⟨fun member => ?_,once.unique⟩
      exact absurd (once.fresh _ member) (Int.lt_irrefl _)
    · intro e member among
      rcases List.mem_cons.1 among with same | old
      · have before := once.past e member
        omega
      · exact once.apart e member old
  · cases here

theorem once_exit {pid code : Int} (once : Once s) (here : exit s pid code = some t) : Once t := by
  rw [exit] at here
  split at here
  · rename_i live
    obtain rfl := Option.some.inj here
    have index := once.index
    refine ⟨?_,?_,once.unique.erase pid,?_,?_,?_,?_⟩
    · intro other member
      exact once.fresh other (List.mem_of_mem_erase member)
    · intro e member
      rcases List.mem_cons.1 member with rfl | old
      · exact once.fresh pid live
      · exact once.past e old
    · refine List.nodup_cons.2 ⟨fun again => ?_,once.once⟩
      obtain ⟨e,member,rfl⟩ := List.mem_map.1 again
      exact once.apart e member live
    · intro e member among
      rcases List.mem_cons.1 member with rfl | old
      · exact (List.Nodup.not_mem_erase once.unique) among
      · exact once.apart e old (List.mem_of_mem_erase among)
    · simp only [add_exit_code,List.length_cons,MAX_TASKS] at index ⊢
      omega
    · have pushed := keeps_push once.keeps ⟨pid,code⟩
      rw [← index] at pushed
      exact pushed
  · cases here

theorem once_reached (reached : Reached exit_system s) : Once s := by
  refine reached_invariant ?_ ?_ reached
  · rintro s rfl
    exact once_start
  · rintro s a t once here
    cases a with
    | create => exact once_create once here
    | exit pid code => exact once_exit once here

/-- A pid among the exits has one code. -/
theorem one_code (once : Once s) {d e : ExitCode} (first : d ∈ s.exits) (second : e ∈ s.exits) (same : d.pid = e.pid) : d = e :=
  List.inj_on_of_nodup_map once.once first second same

theorem get_exit_code_eq (s : State) (pid : Int) : get_exit_code s pid =
    ((((List.range MAX_TASKS).find? fun j => (s.exit_codes j).pid == pid).map s.exit_codes).map ExitCode.exit_code).getD (-1) := by
  rw [get_exit_code]
  cases (List.range MAX_TASKS).find? fun j => (s.exit_codes j).pid == pid with
  | none => rfl
  | some j => rfl

/-- The answer is the code of the exit among the last ones, and without one a zero stands for pid 0. -/
theorem get_cases (once : Once s) (pid : Int) :
    (∃ e ∈ s.exits.take MAX_TASKS, e.pid = pid ∧ get_exit_code s pid = e.exit_code) ∨
      ((∀ e ∈ s.exits.take MAX_TASKS, e.pid ≠ pid) ∧
        get_exit_code s pid = if pid = 0 ∧ s.exits.length < MAX_TASKS then 0 else -1) := by
  rw [get_exit_code_eq]
  rcases find_slot once.keeps (fun e => e.pid == pid) with ⟨e,member,matching,found⟩ | ⟨absent,found⟩
  · left
    rw [found]
    exact ⟨e,member,beq_iff_eq.1 matching,rfl⟩
  · right
    rw [found]
    refine ⟨fun e member => beq_eq_false_iff_ne.1 (absent e member),?_⟩
    by_cases zero : pid = 0 ∧ s.exits.length < MAX_TASKS
    · rw [if_pos zero,if_pos ⟨beq_iff_eq.2 zero.1.symm,zero.2⟩]
      rfl
    · rw [if_neg zero,if_neg]
      · rfl
      · rintro ⟨matching,short⟩
        exact zero ⟨(beq_iff_eq.1 matching).symm,short⟩

end

/-- In every state reached: the answer for a pid is the right one unless the pid is 0, has not exited, and the ring has
    not been filled. -/
theorem exit_code_found {s : State} (reached : Reached exit_system s) (pid : Int) :
    Answers s pid (get_exit_code s pid) ↔ pid ≠ 0 ∨ MAX_TASKS ≤ s.exits.length ∨ ∃ e ∈ s.exits, e.pid = pid := by
  have once := once_reached reached
  rcases get_cases once pid with ⟨e,member,rfl,answer⟩ | ⟨absent,answer⟩
  · have exited := List.mem_of_mem_take member
    refine iff_of_true ⟨fun d listed same => ?_,fun none_listed => absurd rfl (none_listed e member)⟩ (.inr (.inr ⟨e,exited,rfl⟩))
    rw [answer,one_code once (List.mem_of_mem_take listed) exited same]
  · constructor
    · rintro ⟨_,none_found⟩
      by_contra neither
      have zero : pid = 0 ∧ s.exits.length < MAX_TASKS := by
        constructor
        · by_contra other
          exact neither (.inl other)
        · by_contra full
          exact neither (.inr (.inl (Nat.le_of_not_lt full)))
      rw [if_pos zero,none_found absent] at answer
      cases answer
    · intro either
      refine ⟨fun e member same => absurd same (absent e member),fun _ => ?_⟩
      rw [answer,if_neg]
      rintro ⟨null,short⟩
      rcases either with other | full | ⟨e,exited,same⟩
      · exact other null
      · omega
      · rw [List.take_of_length_le (Nat.le_of_lt short)] at absent
        exact absent e exited same

/-- The second task exited with 7. -/
theorem exit_code_found_one : ∃ s, Run exit_system [.create,.create,.exit 1 7] start s ∧ get_exit_code s 1 = 7 ∧
    Answers s 1 (get_exit_code s 1) := by
  have run : Run exit_system [.create,.create,.exit 1 7] start _ := .step rfl (.step rfl (.step rfl (.done _)))
  exact ⟨_,run,rfl,(exit_code_found ⟨start,_,rfl,run⟩ 1).2 (.inl (by decide))⟩

/-- The first task runs, and its exit code is 0. -/
theorem zero_entry : ¬ ∀ s pid, Reached exit_system s → Answers s pid (get_exit_code s pid) := by
  intro claim
  have run : Run exit_system [.create] start _ := .step rfl (.done _)
  have answers := claim _ 0 ⟨start,_,rfl,run⟩
  have answer := answers.2 (by simp [start])
  exact absurd answer (by decide)

end MicroOS.ExitCodes

import MicroOS.Runs

/-!
`schedule` looks for the next active task behind the current one, and from the first slot on if
there is none. The main theorem is `round_robin`: each call selects the next active task in the
cyclic order of the slots, and a task that stays active has its turn once in every round.
-/

namespace MicroOS.Scheduler
open Runs

def MAX_TASKS : Nat := 32

/-- What the scheduler looks at in a task slot. -/
structure Task where
  active : Bool
  taken : Bool
  wait_time : Int
  pin : Bool
  term : Int

/-- The slots and the variables of the scheduler, the terminal that is shown, and the slots selected so far. -/
structure State where
  tasks : Nat → Task
  current_task : Nat
  last_time_ms : Int
  is_scheduler_running : Bool
  current_term : Int
  selected : List Nat

/-- The loop of `switch_to_next_task` over some slots from one on. -/
def switch_loop (diff_ms : Int) (ignore_wait_time : Bool) : Nat → Nat → (Nat → Task) → (Nat → Task) × Option Nat
  | 0,_,tasks => (tasks,none)
  | n + 1,i,tasks =>
    if !ignore_wait_time && (tasks i).active && (tasks i).wait_time > 0 then
      let tasks := Function.update tasks i { tasks i with wait_time := (tasks i).wait_time - diff_ms }
      if (tasks i).wait_time > 0 then switch_loop diff_ms ignore_wait_time n (i + 1) tasks
      else (tasks,some i)
    else if (tasks i).active then (tasks,some i)
    else switch_loop diff_ms ignore_wait_time n (i + 1) tasks

def switch_to_next_task (starting_from : Nat) (diff_ms : Int) (ignore_wait_time : Bool) (tasks : Nat → Task) :
    (Nat → Task) × Option Nat :=
  switch_loop diff_ms ignore_wait_time (MAX_TASKS - starting_from) starting_from tasks

def select (s : State) (tasks : Nat → Task) (i : Nat) : State :=
  { s with tasks := tasks, current_task := i, selected := s.selected ++ [i] }

/-- `schedule` on the processor that started the machine; without an active task it aborts. -/
def schedule (s : State) (time_ms : Int) : Option State :=
  if !s.is_scheduler_running then some s
  else if (s.tasks s.current_task).pin && (s.tasks s.current_task).term = s.current_term then
    some (select s s.tasks s.current_task)
  else
    let diff_ms := time_ms - s.last_time_ms
    let s := { s with last_time_ms := time_ms }
    match switch_to_next_task (s.current_task + 1) diff_ms false s.tasks with
    | (tasks,some i) => some (select s tasks i)
    | (tasks,none) =>
      match switch_to_next_task 0 diff_ms false tasks with
      | (tasks,some i) => some (select s tasks i)
      | (tasks,none) =>
        match switch_to_next_task 0 diff_ms true tasks with
        | (tasks,some i) => some (select s tasks i)
        | (_,none) => none

def find_empty_task_slot (tasks : Nat → Task) : Option Nat := (List.range MAX_TASKS).find? fun i => !(tasks i).taken

/-- `init_task`: the slot is cleared and taken. -/
def init_task (s : State) (term : Int) : Option State :=
  (find_empty_task_slot s.tasks).map fun i => { s with tasks := Function.update s.tasks i ⟨false,true,0,false,term⟩ }

/-- A task that was created begins to run. -/
def activate (s : State) (i : Nat) : State := { s with tasks := Function.update s.tasks i { s.tasks i with active := true } }

def exit_task (s : State) (i : Nat) : State :=
  { s with tasks := Function.update s.tasks i { s.tasks i with active := false, pin := false, taken := false } }

inductive Action
  | schedule (time_ms : Int)
  | create (term : Int)
  | activate (i : Nat)
  | exit (i : Nat)

def next (s : State) : Action → Option State
  | .schedule time_ms => schedule s time_ms
  | .create term => init_task s term
  | .activate i => if i < MAX_TASKS ∧ (s.tasks i).taken then some (activate s i) else none
  | .exit i => if i < MAX_TASKS ∧ (s.tasks i).taken then some (exit_task s i) else none

/-- No task waits and none is pinned. -/
structure Quiet (s : State) : Prop where
  running : s.is_scheduler_running = true
  current : s.current_task < MAX_TASKS
  wait : ∀ i, (s.tasks i).wait_time = 0
  pin : ∀ i, (s.tasks i).pin = false

/-- Any table of tasks of which none waits and none is pinned. -/
def scheduler : System State Action where
  start s := Quiet s ∧ s.selected = []
  step s a t := next s a = some t

/-- How far a slot is ahead of another one; a slot is a whole round ahead of itself. -/
def ahead (current i : Nat) : Nat := if current < i then i - current else i + MAX_TASKS - current

/-- The first active slot strictly after the current one in the cyclic order. -/
structure Next (tasks : Nat → Task) (current i : Nat) : Prop where
  inside : i < MAX_TASKS
  active : (tasks i).active = true
  first : ∀ j < MAX_TASKS, (tasks j).active = true → ahead current i ≤ ahead current j

/-- Two tasks stay active. -/
def Stay (i j : Nat) (s : State) (_ : Action) : Prop := (s.tasks i).active = true ∧ (s.tasks j).active = true

variable {tasks : Nat → Task} {s t : State}

/-- What a scan finds if no task waits. -/
theorem switch_loop_quiet (diff_ms : Int) (ignore : Bool) (wait : ∀ i, (tasks i).wait_time = 0) (n i : Nat) :
    switch_loop diff_ms ignore n i tasks = (tasks,(List.range' i n).find? fun j => (tasks j).active) := by
  induction n generalizing i with
  | zero => rfl
  | succ n ih =>
    have no_wait : ¬ (!ignore && (tasks i).active && decide ((tasks i).wait_time > 0)) = true := by
      rw [wait i]
      simp
    rw [switch_loop,if_neg no_wait,List.range'_succ,List.find?_cons]
    by_cases active : (tasks i).active = true
    · rw [if_pos active,active]
    · rw [if_neg active,Bool.eq_false_of_not_eq_true active,ih]

theorem schedule_quiet (quiet : Quiet s) (time_ms : Int) : schedule s time_ms =
      (((List.range' (s.current_task + 1) (MAX_TASKS - (s.current_task + 1))).find? fun j => (s.tasks j).active).or
        ((List.range' 0 MAX_TASKS).find? fun j => (s.tasks j).active)).map (select { s with last_time_ms := time_ms } s.tasks) := by
  have no_pin : ¬ ((s.tasks s.current_task).pin && decide ((s.tasks s.current_task).term = s.current_term)) = true := by
    rw [quiet.pin]
    simp
  rw [schedule,if_neg (by rw [quiet.running]; simp),if_neg no_pin]
  simp only [switch_to_next_task,switch_loop_quiet _ _ quiet.wait]
  cases (List.range' (s.current_task + 1) (MAX_TASKS - (s.current_task + 1))).find? fun j => (s.tasks j).active with
  | some i => rfl
  | none =>
    simp only [Nat.sub_zero,Option.none_or,switch_loop_quiet _ _ quiet.wait]
    cases found : (List.range' 0 MAX_TASKS).find? fun j => (s.tasks j).active with
    | some i => rfl
    | none =>
      dsimp only
      rw [switch_loop_quiet _ _ quiet.wait,found]
      rfl

theorem find_active {start n i : Nat} (found : ((List.range' start n).find? fun j => (tasks j).active) = some i) :
    start ≤ i ∧ i < start + n ∧ (tasks i).active = true ∧ ∀ j, start ≤ j → j < i → ¬ (tasks j).active = true := by
  induction n generalizing start with
  | zero => cases found
  | succ n ih =>
    rw [List.range'_succ,List.find?_cons] at found
    by_cases active : (tasks start).active = true
    · rw [active] at found
      obtain rfl := Option.some.inj found
      exact ⟨Nat.le_refl _,by omega,active,fun j low high => by omega⟩
    · rw [Bool.eq_false_of_not_eq_true active] at found
      obtain ⟨low,high,active_i,first⟩ := ih found
      refine ⟨by omega,by omega,active_i,?_⟩
      intro j from_start before
      rcases Nat.lt_or_eq_of_le from_start with later | rfl
      · exact first j later before
      · exact active

theorem find_none {start n : Nat} (found : ((List.range' start n).find? fun j => (tasks j).active) = none) :
    ∀ j, start ≤ j → j < start + n → ¬ (tasks j).active = true := by
  intro j low high
  exact List.find?_eq_none.1 found j (List.mem_range'_1.2 ⟨low,high⟩)

/-- The slot that is selected. -/
theorem schedule_next (quiet : Quiet s) {time_ms : Int} (here : schedule s time_ms = some t) :
    Next s.tasks s.current_task t.current_task ∧ t = select { s with last_time_ms := time_ms } s.tasks t.current_task := by
  have current := quiet.current
  rw [schedule_quiet quiet,Option.map_eq_some_iff] at here
  obtain ⟨i,found,rfl⟩ := here
  refine ⟨?_,rfl⟩
  change Next s.tasks s.current_task i
  cases behind : (List.range' (s.current_task + 1) (MAX_TASKS - (s.current_task + 1))).find? fun j => (s.tasks j).active with
  | some j =>
    rw [behind,Option.some_or] at found
    obtain rfl := Option.some.inj found
    obtain ⟨low,high,active,first⟩ := find_active behind
    refine ⟨by omega,active,?_⟩
    intro k inside active_k
    have no := first k
    by_cases between : s.current_task < k ∧ k < j
    · exact absurd active_k (no between.1 between.2)
    · unfold ahead
      split <;> split <;> omega
  | none =>
    rw [behind,Option.none_or] at found
    obtain ⟨low,high,active,first⟩ := find_active found
    have none_behind := find_none behind
    have not_behind : i ≤ s.current_task := by
      by_contra above
      exact none_behind i (by omega) (by omega) active
    refine ⟨by omega,active,?_⟩
    intro k inside active_k
    have k_not_behind : k ≤ s.current_task := by
      by_contra above
      exact none_behind k (by omega) (by omega) active_k
    have no_before : i ≤ k := by
      by_contra before
      exact first k (Nat.zero_le k) (by omega) active_k
    unfold ahead
    split <;> split <;> omega

/-- With an active task a call selects one. -/
theorem schedule_some (quiet : Quiet s) (time_ms : Int) {i : Nat} (inside : i < MAX_TASKS) (active : (s.tasks i).active = true) :
    ∃ t, schedule s time_ms = some t := by
  rw [schedule_quiet quiet]
  cases found : (List.range' 0 MAX_TASKS).find? fun j => (s.tasks j).active with
  | none => exact absurd active (find_none found i (Nat.zero_le i) (by omega))
  | some j =>
    cases (List.range' (s.current_task + 1) (MAX_TASKS - (s.current_task + 1))).find? fun j => (s.tasks j).active with
    | none => exact ⟨_,rfl⟩
    | some k => exact ⟨_,rfl⟩

/-- Nothing makes a task wait or pins it. -/
theorem quiet_step {a : Action} (quiet : Quiet s) (here : next s a = some t) : Quiet t := by
  cases a with
  | schedule time_ms =>
    obtain ⟨chosen,whole⟩ := schedule_next quiet here
    rw [whole]
    exact ⟨quiet.running,chosen.inside,quiet.wait,quiet.pin⟩
  | create term =>
    obtain ⟨i,_,rfl⟩ := Option.map_eq_some_iff.1 here
    refine ⟨quiet.running,quiet.current,?_,?_⟩
    · intro j
      by_cases same : j = i
      · simp [same]
      · simp [same,quiet.wait j]
    · intro j
      by_cases same : j = i
      · simp [same]
      · simp [same,quiet.pin j]
  | activate i =>
    rw [next] at here
    split at here
    · obtain rfl := Option.some.inj here
      refine ⟨quiet.running,quiet.current,?_,?_⟩
      · intro j
        by_cases same : j = i
        · simp [activate,same,quiet.wait i]
        · simp [activate,same,quiet.wait j]
      · intro j
        by_cases same : j = i
        · simp [activate,same,quiet.pin i]
        · simp [activate,same,quiet.pin j]
    · cases here
  | exit i =>
    rw [next] at here
    split at here
    · obtain rfl := Option.some.inj here
      refine ⟨quiet.running,quiet.current,?_,?_⟩
      · intro j
        by_cases same : j = i
        · simp [exit_task,same,quiet.wait i]
        · simp [exit_task,same,quiet.wait j]
      · intro j
        by_cases same : j = i
        · simp [exit_task,same]
        · simp [exit_task,same,quiet.pin j]
    · cases here

/-- Only a call of the scheduler selects a slot. -/
theorem other_step {a : Action} (here : next s a = some t) :
    (∃ time_ms, a = .schedule time_ms) ∨ (t.current_task = s.current_task ∧ t.selected = s.selected) := by
  cases a with
  | schedule time_ms => exact .inl ⟨time_ms,rfl⟩
  | create term =>
    obtain ⟨i,_,rfl⟩ := Option.map_eq_some_iff.1 here
    exact .inr ⟨rfl,rfl⟩
  | activate i =>
    rw [next] at here
    split at here
    · obtain rfl := Option.some.inj here
      exact .inr ⟨rfl,rfl⟩
    · cases here
  | exit i =>
    rw [next] at here
    split at here
    · obtain rfl := Option.some.inj here
      exact .inr ⟨rfl,rfl⟩
    · cases here

/-- Between two turns of a slot: another task had its turn if the current one is not in front of it. -/
structure Round (slot task : Nat) (begin : List Nat) (s : State) : Prop where
  quiet : Quiet s
  turns : ∃ chosen, s.selected = begin ++ chosen ∧ (slot ∉ chosen →
    (s.current_task = slot ∧ chosen = []) ∨
      (s.current_task ≠ slot ∧ chosen.count task = if ahead slot task ≤ ahead slot s.current_task then 1 else 0))

theorem ahead_bounds {current i : Nat} (low : current < MAX_TASKS) (inside : i < MAX_TASKS) :
    0 < ahead current i ∧ ahead current i ≤ MAX_TASKS := by
  unfold ahead
  split <;> omega

/-- The next slot before a slot has its turn again: it is farther ahead, and nothing active is left out. -/
theorem ahead_next {slot current i task : Nat} (low : slot < MAX_TASKS) (here : current < MAX_TASKS) (inside : i < MAX_TASKS)
    (low_task : task < MAX_TASKS) (apart : current ≠ slot) (before_slot : ahead current i ≤ ahead current slot)
    (before_task : ahead current i ≤ ahead current task) :
    ahead slot current < ahead slot i ∧ (ahead slot current < ahead slot task → ahead slot i ≤ ahead slot task) := by
  have max : MAX_TASKS = 32 := rfl
  unfold ahead at *
  grind

theorem ahead_same {slot i j : Nat} (low : i < MAX_TASKS) (inside : j < MAX_TASKS) (here : slot < MAX_TASKS)
    (same : ahead slot i = ahead slot j) : i = j := by
  have max : MAX_TASKS = 32 := rfl
  unfold ahead at same
  grind

section
variable {slot task : Nat} {begin : List Nat} {s t : State}

section
variable (low : slot < MAX_TASKS) (low_task : task < MAX_TASKS)
include low low_task

/-- A turn of another slot. -/
theorem round_turn (round : Round slot task begin s)
    (active : (s.tasks slot).active = true) (active_task : (s.tasks task).active = true) {time_ms : Int}
    (here : schedule s time_ms = some t) : Round slot task begin t := by
  obtain ⟨chosen,whole⟩ := schedule_next round.quiet here
  obtain ⟨turns,split,counted⟩ := round.turns
  have selected : t.selected = begin ++ (turns ++ [t.current_task]) := by
    rw [whole,← List.append_assoc,← split]
    rfl
  have quiet : Quiet t := quiet_step (a := .schedule time_ms) round.quiet here
  refine ⟨quiet,_,selected,?_⟩
  intro no_turn
  have other : t.current_task ≠ slot := fun same => no_turn (List.mem_append_right _ (same ▸ List.mem_singleton_self _))
  have to_task := chosen.first task low_task active_task
  have to_slot := chosen.first slot low active
  refine .inr ⟨other,?_⟩
  rw [List.count_append,List.count_singleton]
  rcases counted fun before => no_turn (List.mem_append_left _ before) with ⟨first,rfl⟩ | ⟨later,count⟩
  · rw [first] at to_task
    rw [List.count_nil,Nat.zero_add]
    by_cases its_turn : t.current_task = task
    · rw [its_turn]
      simp
    · have behind : ¬ ahead slot task ≤ ahead slot t.current_task := by
        intro before
        exact its_turn (ahead_same chosen.inside low_task low (Nat.le_antisymm to_task before))
      rw [if_neg behind]
      simp [its_turn]
  · obtain ⟨forward,none_left⟩ := ahead_next low round.quiet.current chosen.inside low_task later to_slot to_task
    rw [count]
    by_cases had : ahead slot task ≤ ahead slot s.current_task
    · have not_again : t.current_task ≠ task := by
        intro same
        rw [same] at forward
        omega
      have has : ahead slot task ≤ ahead slot t.current_task := Nat.le_trans had (Nat.le_of_lt forward)
      rw [if_pos had,if_pos has]
      simp [not_again]
    · have reach := none_left (by omega)
      rw [if_neg had]
      by_cases its_turn : t.current_task = task
      · rw [its_turn]
        simp
      · have behind : ¬ ahead slot task ≤ ahead slot t.current_task := by
          intro before
          exact its_turn (ahead_same chosen.inside low_task low (Nat.le_antisymm reach before))
        rw [if_neg behind]
        simp [its_turn]

theorem round_step {a : Action}
    (round : Round slot task begin s) (step : (guarded scheduler (Stay slot task)).step s a t) : Round slot task begin t := by
  obtain ⟨here,active,active_task⟩ := step
  have here : next s a = some t := here
  rcases other_step here with ⟨time_ms,rfl⟩ | ⟨current,selected⟩
  · exact round_turn low low_task round active active_task here
  · obtain ⟨turns,split,counted⟩ := round.turns
    refine ⟨quiet_step round.quiet here,turns,selected.trans split,?_⟩
    rw [current]
    exact counted

/-- When a slot has its turn again, the other task had its own. -/
theorem round_again (apart : task ≠ slot) (round : Round slot task begin s)
    (active_task : (s.tasks task).active = true) {time_ms : Int} (here : schedule s time_ms = some t) (again : t.current_task = slot)
    {turns : List Nat} (split : s.selected = begin ++ turns) (no_turn : slot ∉ turns) : turns.count task = 1 := by
  obtain ⟨chosen,_⟩ := schedule_next round.quiet here
  have to_task := chosen.first task low_task active_task
  have current := round.quiet.current
  obtain ⟨others,same,counted⟩ := round.turns
  obtain rfl := List.append_cancel_left (split.symm.trans same)
  have max : MAX_TASKS = 32 := rfl
  rw [again] at to_task
  rcases counted no_turn with ⟨first,_⟩ | ⟨later,count⟩
  · rw [first] at to_task
    unfold ahead at to_task
    split at to_task <;> split at to_task <;> omega
  · have had : ahead slot task ≤ ahead slot s.current_task := by
      unfold ahead at *
      grind
    rw [count,if_pos had]

end

end

theorem quiet_run {a b : State} {as : List Action} (start : scheduler.start a) (run : Run scheduler as a b) : Quiet b := by
  have preserved : ∀ s a t, Quiet s → scheduler.step s a t → Quiet t := fun _ _ _ quiet here => quiet_step quiet here
  exact run_invariant preserved run start.1

/-- Each call selects the first active task strictly after the current one, if there is an active task; and between two
    turns of a slot that stays active every other task that stays active has exactly one turn. -/
theorem round_robin {a b : State} {as : List Action} (start : scheduler.start a) (run : Run scheduler as a b) :
    (∀ time_ms c, scheduler.step b (.schedule time_ms) c →
      Next b.tasks b.current_task c.current_task ∧ c.selected = b.selected ++ [c.current_task]) ∧
    (∀ time_ms i, i < MAX_TASKS → (b.tasks i).active = true → ∃ c, scheduler.step b (.schedule time_ms) c) ∧
    ∀ slot task, b.current_task = slot → task < MAX_TASKS → task ≠ slot → ∀ bs c d turns time_ms,
      Run (guarded scheduler (Stay slot task)) bs b c → c.selected = b.selected ++ turns → slot ∉ turns →
      (guarded scheduler (Stay slot task)).step c (.schedule time_ms) d → d.current_task = slot → turns.count task = 1 := by
  have quiet := quiet_run start run
  refine ⟨?_,fun time_ms i inside active => schedule_some quiet time_ms inside active,?_⟩
  · intro time_ms c here
    obtain ⟨chosen,whole⟩ := schedule_next quiet here
    refine ⟨chosen,?_⟩
    rw [whole]
    rfl
  · rintro slot task rfl low_task apart bs c d turns time_ms rest split no_turn ⟨last,_,active_task⟩ again
    have begins : Round b.current_task task b.selected b := ⟨quiet,[],(List.append_nil _).symm,fun _ => .inl ⟨rfl,rfl⟩⟩
    have preserved : ∀ s a t, Round b.current_task task b.selected s → (guarded scheduler (Stay b.current_task task)).step s a t →
        Round b.current_task task b.selected t := fun _ _ _ round step => round_step quiet.current low_task round step
    have round := run_invariant preserved rest begins
    exact round_again quiet.current low_task apart round active_task last again split no_turn

/-- Two active tasks, of which the second one runs. -/
def two_tasks : State := ⟨fun i => ⟨decide (i < 2),decide (i < 2),0,false,0⟩,1,0,true,0,[]⟩

theorem two_tasks_start : scheduler.start two_tasks := ⟨⟨rfl,by decide,fun _ => rfl,fun _ => rfl⟩,rfl⟩

theorem two_tasks_turn : Run scheduler [.schedule 0] two_tasks (select two_tasks two_tasks.tasks 0) := by
  have here : scheduler.step two_tasks (.schedule 0) (select two_tasks two_tasks.tasks 0) := rfl
  exact .step here (.done _)

/-- The first slot has its turn again after one of the second. -/
theorem round_robin_two :
    (∀ time_ms c, scheduler.step (select two_tasks two_tasks.tasks 0) (.schedule time_ms) c →
      Next (select two_tasks two_tasks.tasks 0).tasks 0 c.current_task ∧ c.selected = [0] ++ [c.current_task]) ∧
    [1].count 1 = 1 := by
  obtain ⟨each,_,fair⟩ := round_robin two_tasks_start two_tasks_turn
  have one : Run (guarded scheduler (Stay 0 1)) [.schedule 0] (select two_tasks two_tasks.tasks 0)
      (select (select two_tasks two_tasks.tasks 0) two_tasks.tasks 1) := .step ⟨rfl,rfl,rfl⟩ (.done _)
  exact ⟨each,fair 0 1 rfl (by decide) (by decide) _ _ _ [1] 0 one rfl (by decide) ⟨rfl,rfl,rfl⟩ rfl⟩

/-- The task of a slot exits, and the other task has two turns before a new task has the slot. -/
theorem slot_reused : ¬ ∀ a b c d as bs slot task turns time_ms, scheduler.start a → Run scheduler as a b →
    b.current_task = slot → task < MAX_TASKS → task ≠ slot →
    Run (guarded scheduler fun s _ => (s.tasks task).active = true) bs b c → c.selected = b.selected ++ turns → slot ∉ turns →
    (guarded scheduler fun s _ => (s.tasks task).active = true).step c (.schedule time_ms) d → d.current_task = slot →
    turns.count task = 1 := by
  intro claim
  have twice := claim two_tasks _ _ _ _ [.exit 0,.schedule 0,.schedule 0,.create 0,.activate 0] 0 1 [1,1] 0
    two_tasks_start two_tasks_turn rfl (by decide) (by decide)
    (.step ⟨rfl,rfl⟩ (.step ⟨rfl,rfl⟩ (.step ⟨rfl,rfl⟩ (.step ⟨rfl,rfl⟩ (.step ⟨rfl,rfl⟩ (.done _))))))
    rfl (by decide) ⟨rfl,rfl⟩ rfl
  exact absurd twice (by decide)

end MicroOS.Scheduler

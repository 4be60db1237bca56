import MicroOS.Scheduler

/-!
A call of `schedule` takes the time since the last one off the waits of the slots that it scans, and it may scan a slot
once, twice or not at all. The main theorem is `timed_waits`: along which calls each waiting task loses exactly that
time, and no task is selected too early.
-/

namespace MicroOS.TimedWaits
open Scheduler
open Function (update update_self)

/-- A wait after some time; one that is over stays as it is. -/
def due (diff_ms wait_time : Int) : Int := if 0 < wait_time then wait_time - diff_ms else wait_time

/-- The task can run once the time is taken off its wait. -/
def Ready (diff_ms : Int) (task : Task) : Prop := task.active = true ∧ due diff_ms task.wait_time ≤ 0

instance (diff_ms : Int) (task : Task) : Decidable (Ready diff_ms task) := inferInstanceAs (Decidable (_ ∧ _))

/-- The current task is pinned, and its terminal is shown. -/
def Pinned (s : State) : Prop := (s.tasks s.current_task).pin = true ∧ (s.tasks s.current_task).term = s.current_term

instance (s : State) : Decidable (Pinned s) := inferInstanceAs (Decidable (_ ∧ _))

/-- The time difference of a call; one that returns before it looks at the clock leaves the time to a later call. -/
def difference (s : State) (time_ms : Int) : Int :=
  if s.is_scheduler_running = true ∧ ¬ Pinned s then time_ms - s.last_time_ms else 0

/-- What is asked of a call: the time goes off every wait of an active task; a task whose wait is not over is selected only
    when all others wait; and a search selects the first task, behind the current one, whose wait is over. -/
structure Timed (s : State) (time_ms : Int) (t : State) : Prop where
  elapsed : ∀ i < MAX_TASKS, (s.tasks i).active = true → (t.tasks i).wait_time = due (difference s time_ms) (s.tasks i).wait_time
  patient : s.is_scheduler_running = true → (∃ j < MAX_TASKS, Ready (difference s time_ms) (s.tasks j)) →
    due (difference s time_ms) (s.tasks t.current_task).wait_time ≤ 0
  eligible : s.is_scheduler_running = true → ¬ Pinned s → ∀ j < MAX_TASKS, Ready (difference s time_ms) (s.tasks j) →
    ahead s.current_task t.current_task ≤ ahead s.current_task j

/-- The first slot behind the current one whose task can run. -/
structure First (s : State) (diff_ms : Int) (i : Nat) : Prop where
  inside : i < MAX_TASKS
  ready : Ready diff_ms (s.tasks i)
  first : ∀ j < MAX_TASKS, Ready diff_ms (s.tasks j) → ahead s.current_task i ≤ ahead s.current_task j

/-- When a call does: a pinned task does not wait while another can run, and if time has passed, no task waits in a slot
    behind the first one that can run; without such a slot, no task is active from the current slot on. -/
structure OnTime (s : State) (time_ms : Int) : Prop where
  pinned : s.is_scheduler_running = true → Pinned s →
    (s.tasks s.current_task).wait_time ≤ 0 ∨ ∀ j < MAX_TASKS, (s.tasks j).active = true → 0 < (s.tasks j).wait_time
  search : difference s time_ms = 0 ∨
    ((∀ i, First s (difference s time_ms) i → ∀ j < MAX_TASKS, (s.tasks j).active = true → 0 < (s.tasks j).wait_time →
        ahead s.current_task j ≤ ahead s.current_task i) ∧
      ((∀ j < MAX_TASKS, ¬ Ready (difference s time_ms) (s.tasks j)) →
        ∀ j, s.current_task < j → j < MAX_TASKS → (s.tasks j).active = false))

/-- A property of every call of a sequence. -/
def Along (p : State → Int → State → Prop) : State → List Int → Prop
  | _,[] => True
  | s,time_ms :: rest => ∀ t, schedule s time_ms = some t → p s time_ms t ∧ Along p t rest

/-- A task that was scanned. -/
def aged (diff_ms : Int) (task : Task) : Task :=
  if task.active = true then { task with wait_time := due diff_ms task.wait_time } else task

/-- The slots from `low` up to `high` were scanned. -/
def age (diff_ms : Int) (low high : Nat) (tasks : Nat → Task) : Nat → Task :=
  fun j => if low ≤ j ∧ j < high then aged diff_ms (tasks j) else tasks j

section
variable {diff_ms : Int} {tasks : Nat → Task} {low high i j n : Nat}

theorem due_zero (wait_time : Int) : due 0 wait_time = wait_time := by simp [due]

theorem due_same {wait_time : Int} : due diff_ms wait_time = wait_time ↔ diff_ms = 0 ∨ wait_time ≤ 0 := by
  rw [due]
  split <;> omega

theorem due_twice {wait_time : Int} (waits : 0 < due diff_ms wait_time) :
    due diff_ms (due diff_ms wait_time) = due diff_ms wait_time ↔ diff_ms = 0 := by
  rw [due_same]
  omega

theorem aged_active (task : Task) : (aged diff_ms task).active = task.active := by
  rw [aged]
  split <;> rfl

theorem aged_wait {task : Task} (active : task.active = true) : (aged diff_ms task).wait_time = due diff_ms task.wait_time := by
  rw [aged,if_pos active]

theorem age_active (j : Nat) : (age diff_ms low high tasks j).active = (tasks j).active := by
  rw [age]
  split
  · exact aged_active _
  · rfl

theorem age_in (from_low : low ≤ j) (below : j < high) : age diff_ms low high tasks j = aged diff_ms (tasks j) := if_pos ⟨from_low,below⟩

theorem age_out (outside : j < low ∨ high ≤ j) : age diff_ms low high tasks j = tasks j := by
  rw [age,if_neg]
  omega

theorem age_first (inside : i < high) :
    age diff_ms (i + 1) high (update tasks i (aged diff_ms (tasks i))) = age diff_ms i high tasks := by
  funext j
  by_cases here : j = i
  · subst here
    rw [age_out (.inl (Nat.lt_succ_self j)),update_self,age_in (Nat.le_refl j) inside]
  · rw [age,age,Function.update_of_ne here]
    by_cases scanned : i ≤ j ∧ j < high
    · rw [if_pos scanned,if_pos (by omega)]
    · rw [if_neg scanned,if_neg (by omega)]

/-- One slot of a scan. -/
theorem loop_succ (diff_ms : Int) (n i : Nat) (tasks : Nat → Task) :
    switch_loop diff_ms false (n + 1) i tasks =
      if Ready diff_ms (tasks i) then (update tasks i (aged diff_ms (tasks i)),some i)
      else switch_loop diff_ms false n (i + 1) (update tasks i (aged diff_ms (tasks i))) := by
  rw [switch_loop]
  by_cases active : (tasks i).active = true
  · by_cases waits : (tasks i).wait_time > 0
    · have scanned : aged diff_ms (tasks i) = { tasks i with wait_time := (tasks i).wait_time - diff_ms } := by
        rw [aged,if_pos active,due,if_pos waits]
      have past : Ready diff_ms (tasks i) ↔ ¬ (tasks i).wait_time - diff_ms > 0 := by
        rw [Ready,due,if_pos waits]
        simp [active]
      rw [if_pos (by simp [active,waits]),← scanned]
      by_cases ready : Ready diff_ms (tasks i)
      · have no_wait := past.1 ready
        rw [if_pos ready,if_neg]
        rw [update_self,scanned]
        exact no_wait
      · have still : (tasks i).wait_time - diff_ms > 0 := by
          by_contra no_wait
          exact ready (past.2 no_wait)
        rw [if_neg ready,if_pos]
        rw [update_self,scanned]
        exact still
    · have scanned : aged diff_ms (tasks i) = tasks i := by
        rw [aged,if_pos active,due,if_neg waits]
      have ready : Ready diff_ms (tasks i) := by
        refine ⟨active,?_⟩
        rw [due,if_neg waits]
        omega
      rw [if_neg (by simp [waits]),if_pos active,if_pos ready,scanned,Function.update_eq_self]
  · have scanned : aged diff_ms (tasks i) = tasks i := if_neg active
    rw [if_neg (by simp [active]),if_neg active,if_neg fun ready => active ready.1,scanned,Function.update_eq_self]

/-- A scan stops at the first task that can run; the slots up to it were scanned. -/
theorem loop_spec (diff_ms : Int) (n i : Nat) (tasks : Nat → Task) :
    (∃ m, switch_loop diff_ms false n i tasks = (age diff_ms i (m + 1) tasks,some m) ∧ i ≤ m ∧ m < i + n ∧
        Ready diff_ms (tasks m) ∧ ∀ k, i ≤ k → k < m → ¬ Ready diff_ms (tasks k)) ∨
      (switch_loop diff_ms false n i tasks = (age diff_ms i (i + n) tasks,none) ∧
        ∀ k, i ≤ k → k < i + n → ¬ Ready diff_ms (tasks k)) := by
  induction n generalizing i tasks with
  | zero =>
    right
    refine ⟨?_,fun k from_start below => by omega⟩
    have same : age diff_ms i (i + 0) tasks = tasks := by
      funext j
      exact age_out (by omega)
    rw [same]
    rfl
  | succ n ih =>
    rw [loop_succ]
    by_cases ready : Ready diff_ms (tasks i)
    · left
      have scanned : update tasks i (aged diff_ms (tasks i)) = age diff_ms i (i + 1) tasks := by
        rw [← age_first (Nat.lt_succ_self i)]
        funext j
        exact (age_out (by omega)).symm
      rw [if_pos ready,scanned]
      exact ⟨i,rfl,Nat.le_refl i,by omega,ready,fun k from_start below => by omega⟩
    · rw [if_neg ready]
      have others : ∀ k, i + 1 ≤ k → update tasks i (aged diff_ms (tasks i)) k = tasks k := by
        intro k behind
        exact Function.update_of_ne (by omega) _ _
      rcases ih (i + 1) (update tasks i (aged diff_ms (tasks i))) with ⟨m,found,low,high,ready_m,first⟩ | ⟨none_found,no_ready⟩
      · left
        rw [age_first (by omega)] at found
        rw [others m low] at ready_m
        refine ⟨m,found,by omega,by omega,ready_m,?_⟩
        intro k from_start below
        rcases Nat.lt_or_eq_of_le from_start with later | rfl
        · rw [← others k later]
          exact first k later below
        · exact ready
      · right
        rw [age_first (by omega),show i + 1 + n = i + (n + 1) by omega] at none_found
        refine ⟨none_found,?_⟩
        intro k from_start below
        rcases Nat.lt_or_eq_of_le from_start with later | rfl
        · rw [← others k later]
          exact no_ready k later (by omega)
        · exact ready

/-- The last scan looks at no wait. -/
theorem loop_ignoring (diff_ms : Int) (n i : Nat) (tasks : Nat → Task) :
    switch_loop diff_ms true n i tasks = (tasks,(List.range' i n).find? fun j => (tasks j).active) := by
  induction n generalizing i with
  | zero => rfl
  | succ n ih =>
    rw [switch_loop,if_neg (by simp),List.range'_succ,List.find?_cons]
    by_cases active : (tasks i).active = true
    · rw [if_pos active,active]
    · rw [if_neg active,Bool.eq_false_of_not_eq_true active,ih]

end

section
variable {s t : State} {time_ms : Int}

/-- How the three scans of a search end: behind the current slot, up to it, or with every task waiting. -/
inductive Search (s t : State) (d : Int) : Prop where
  | behind (after : s.current_task < t.current_task) (inside : t.current_task < MAX_TASKS) (ready : Ready d (s.tasks t.current_task))
      (first : ∀ k, s.current_task < k → k < t.current_task → ¬ Ready d (s.tasks k))
      (scanned : t.tasks = age d (s.current_task + 1) (t.current_task + 1) s.tasks)
  | around (before : t.current_task ≤ s.current_task) (ready : Ready d (s.tasks t.current_task))
      (none_behind : ∀ k, s.current_task < k → k < MAX_TASKS → ¬ Ready d (s.tasks k))
      (first : ∀ k < t.current_task, ¬ Ready d (s.tasks k))
      (scanned : t.tasks = age d 0 (t.current_task + 1) (age d (s.current_task + 1) MAX_TASKS s.tasks))
  | waiting (inside : t.current_task < MAX_TASKS) (none_ready : ∀ k < MAX_TASKS, ¬ Ready d (s.tasks k))
      (high : Nat) (above : s.current_task < high) (below : high ≤ MAX_TASKS)
      (again : ∀ k, s.current_task < k → k < MAX_TASKS → (s.tasks k).active = true →
        ∃ j, s.current_task < j ∧ j < high ∧ (s.tasks j).active = true)
      (scanned : t.tasks = age d 0 high (age d (s.current_task + 1) MAX_TASKS s.tasks))

theorem search_of_schedule (current : s.current_task < MAX_TASKS) (running : s.is_scheduler_running = true) (free : ¬ Pinned s)
    (here : schedule s time_ms = some t) : Search s t (time_ms - s.last_time_ms) := by
  have no_pin : ¬ ((s.tasks s.current_task).pin && decide ((s.tasks s.current_task).term = s.current_term)) = true := by
    simpa [Pinned] using free
  have slots : s.current_task + 1 + (MAX_TASKS - (s.current_task + 1)) = MAX_TASKS := by omega
  rw [schedule,if_neg (by simp [running]),if_neg no_pin] at here
  simp only [switch_to_next_task] at here
  rcases loop_spec (time_ms - s.last_time_ms) (MAX_TASKS - (s.current_task + 1)) (s.current_task + 1) s.tasks with
    ⟨m,found,low,high,ready,first⟩ | ⟨none_found,no_ready⟩
  · rw [found] at here
    obtain rfl := Option.some.inj here
    exact .behind low (by dsimp only [select]; omega) ready first rfl
  · rw [slots] at none_found no_ready
    rw [none_found] at here
    dsimp only at here
    have kept : ∀ k ≤ s.current_task, age (time_ms - s.last_time_ms) (s.current_task + 1) MAX_TASKS s.tasks k = s.tasks k := by
      intro k before
      exact age_out (.inl (by omega))
    rcases loop_spec (time_ms - s.last_time_ms) (MAX_TASKS - 0) 0 (age (time_ms - s.last_time_ms) (s.current_task + 1) MAX_TASKS s.tasks) with
      ⟨m,found,_,high,ready,first⟩ | ⟨none_again,no_ready_again⟩
    · rw [found] at here
      obtain rfl := Option.some.inj here
      by_cases before : m ≤ s.current_task
      · rw [kept m before] at ready
        refine .around before ready no_ready ?_ rfl
        intro k below
        have no := first k (Nat.zero_le k) below
        rwa [kept k (by dsimp only [select] at below; omega)] at no
      · have active := ready.1
        rw [age_active] at active
        refine .waiting (by dsimp only [select]; omega) ?_ (m + 1) (by omega) (by omega) ?_ rfl
        · intro k inside
          by_cases up : k ≤ s.current_task
          · have no := first k (Nat.zero_le k) (by omega)
            rwa [kept k up] at no
          · exact no_ready k (by omega) inside
        · intro k _ _ _
          exact ⟨m,by omega,by omega,active⟩
    · rw [none_again] at here
      dsimp only at here
      rw [loop_ignoring] at here
      have chosen : t.current_task < MAX_TASKS ∧
          t.tasks = age (time_ms - s.last_time_ms) 0 (0 + (MAX_TASKS - 0))
            (age (time_ms - s.last_time_ms) (s.current_task + 1) MAX_TASKS s.tasks) := by
        split at here
        · rename_i tasks i found
          obtain rfl := Option.some.inj here
          rw [Prod.mk.injEq] at found
          obtain ⟨_,below,_⟩ := find_active found.2
          exact ⟨by dsimp only [select]; omega,found.1.symm⟩
        · cases here
      refine .waiting chosen.1 ?_ MAX_TASKS current (Nat.le_refl _) ?_ chosen.2
      · intro k inside
        by_cases up : k ≤ s.current_task
        · have no := no_ready_again k (Nat.zero_le k) (by omega)
          rwa [kept k up] at no
        · exact no_ready k (by omega) inside
      · intro k behind inside active
        exact ⟨k,behind,inside,active⟩

/-- The first slot that can run is the one that a search selects. -/
theorem search_selects {d : Int} (current : s.current_task < MAX_TASKS) (search : Search s t d) {j : Nat} (inside : j < MAX_TASKS)
    (ready : Ready d (s.tasks j)) : First s d t.current_task := by
  cases search with
  | behind after below chosen first scanned =>
    refine ⟨below,chosen,?_⟩
    intro k low ready_k
    have no := first k
    by_cases between : s.current_task < k ∧ k < t.current_task
    · exact absurd ready_k (no between.1 between.2)
    · unfold ahead
      split_ifs <;> omega
  | around before chosen none_behind first scanned =>
    refine ⟨by omega,chosen,?_⟩
    intro k low ready_k
    have not_behind : k ≤ s.current_task := by
      by_contra above
      exact none_behind k (by omega) low ready_k
    have not_before : t.current_task ≤ k := by
      by_contra earlier
      exact first k (by omega) ready_k
    unfold ahead
    split_ifs <;> omega
  | waiting _ none_ready high above below again scanned => exact absurd ready (none_ready j inside)

theorem first_unique {d : Int} {i j : Nat} (current : s.current_task < MAX_TASKS) (one : First s d i) (other : First s d j) : i = j :=
  ahead_same one.inside other.inside current (Nat.le_antisymm (one.first j other.inside other.ready) (other.first i one.inside one.ready))

/-- The time goes off every wait exactly when no wait is left out and none is scanned twice. -/
theorem search_elapsed {d : Int} (current : s.current_task < MAX_TASKS) (search : Search s t d) :
    (∀ i < MAX_TASKS, (s.tasks i).active = true → (t.tasks i).wait_time = due d (s.tasks i).wait_time) ↔
      d = 0 ∨ ((∀ i, First s d i → ∀ j < MAX_TASKS, (s.tasks j).active = true → 0 < (s.tasks j).wait_time →
          ahead s.current_task j ≤ ahead s.current_task i) ∧
        ((∀ j < MAX_TASKS, ¬ Ready d (s.tasks j)) → ∀ j, s.current_task < j → j < MAX_TASKS → (s.tasks j).active = false)) := by
  by_cases no_time : d = 0
  · subst no_time
    refine iff_of_true ?_ (.inl rfl)
    have same : ∀ low high tasks, age 0 low high tasks = tasks := by
      intro low high tasks
      funext j
      simp [age,aged,due_zero]
    intro i inside active
    rw [due_zero]
    cases search with
    | behind after below chosen first scanned => rw [scanned,same]
    | around before chosen none_behind first scanned => rw [scanned,same,same]
    | waiting _ none_ready high above below again scanned => rw [scanned,same,same]
  · rw [or_iff_right no_time]
    cases id search with
    | behind after below chosen first scanned =>
      have selected := search_selects current search below chosen
      constructor
      · intro elapsed
        refine ⟨?_,fun none_ready => absurd chosen (none_ready _ below)⟩
        intro i first_i j inside active waits
        obtain rfl := first_unique current first_i selected
        by_cases between : s.current_task + 1 ≤ j ∧ j < t.current_task + 1
        · unfold ahead
          split_ifs <;> omega
        · have left := elapsed j inside active
          rw [scanned,age_out (by omega)] at left
          rcases due_same.1 left.symm with zero | past
          · exact absurd zero no_time
          · omega
      · rintro ⟨before_first,_⟩ j inside active
        by_cases between : s.current_task + 1 ≤ j ∧ j < t.current_task + 1
        · rw [scanned,age_in between.1 between.2,aged_wait active]
        · rw [scanned,age_out (by omega)]
          refine (due_same.2 (.inr ?_)).symm
          by_contra waits
          have before := before_first _ selected j inside active (by omega)
          unfold ahead at before
          split_ifs at before <;> omega
    | around before chosen none_behind first scanned =>
      have selected := search_selects current search (j := t.current_task) (by omega) chosen
      have wait : ∀ j < MAX_TASKS, (s.tasks j).active = true → (t.tasks j).wait_time =
          if t.current_task < j ∧ j ≤ s.current_task then (s.tasks j).wait_time else due d (s.tasks j).wait_time := by
        intro j inside active
        rw [scanned]
        by_cases between : t.current_task < j ∧ j ≤ s.current_task
        · rw [age_out (.inr (by omega)),age_out (.inl (by omega)),if_pos between]
        · rw [if_neg between]
          by_cases up : j ≤ t.current_task
          · rw [age_in (Nat.zero_le j) (by omega),aged_wait (by rw [age_active]; exact active),age_out (.inl (by omega))]
          · rw [age_out (.inr (by omega)),age_in (by omega) inside,aged_wait active]
      constructor
      · intro elapsed
        refine ⟨?_,fun none_ready => absurd chosen (none_ready _ (by omega))⟩
        intro i first_i j inside active waits
        obtain rfl := first_unique current first_i selected
        by_cases between : t.current_task < j ∧ j ≤ s.current_task
        · have left := elapsed j inside active
          rw [wait j inside active,if_pos between] at left
          rcases due_same.1 left.symm with zero | past
          · exact absurd zero no_time
          · omega
        · unfold ahead
          split_ifs <;> omega
      · rintro ⟨before_first,_⟩ j inside active
        rw [wait j inside active]
        by_cases between : t.current_task < j ∧ j ≤ s.current_task
        · rw [if_pos between]
          refine (due_same.2 (.inr ?_)).symm
          by_contra waits
          have up := before_first _ selected j inside active (by omega)
          unfold ahead at up
          split_ifs at up <;> omega
        · rw [if_neg between]
    | waiting _ none_ready high above below again scanned =>
      have nothing_first : ∀ i, ¬ First s d i := fun i first_i => none_ready i first_i.inside first_i.ready
      have wait : ∀ j < MAX_TASKS, (s.tasks j).active = true → (t.tasks j).wait_time =
          if s.current_task < j ∧ j < high then due d (due d (s.tasks j).wait_time) else due d (s.tasks j).wait_time := by
        intro j inside active
        rw [scanned]
        by_cases twice : s.current_task < j ∧ j < high
        · rw [if_pos twice,age_in (Nat.zero_le j) twice.2,aged_wait (by rw [age_active]; exact active),age_in twice.1 inside,
            aged_wait active]
        · rw [if_neg twice]
          by_cases up : j < high
          · rw [age_in (Nat.zero_le j) up,aged_wait (by rw [age_active]; exact active),age_out (.inl (by omega))]
          · rw [age_out (.inr (by omega)),age_in (by omega) inside,aged_wait active]
      constructor
      · intro elapsed
        refine ⟨fun i first_i => absurd first_i (nothing_first i),?_⟩
        intro _ k behind inside
        apply Bool.eq_false_of_not_eq_true
        intro active
        obtain ⟨j,after,up,active_j⟩ := again k behind inside active
        have late : 0 < due d (s.tasks j).wait_time := by
          by_contra past
          exact none_ready j (by omega) ⟨active_j,by omega⟩
        have left := elapsed j (by omega) active_j
        rw [wait j (by omega) active_j,if_pos ⟨after,up⟩] at left
        exact no_time ((due_twice late).1 left)
      · rintro ⟨_,none_behind⟩ j inside active
        have none_behind := none_behind none_ready
        rw [wait j inside active,if_neg]
        rintro ⟨after,_⟩
        rw [none_behind j after inside] at active
        cases active

/-- One call. -/
theorem timed_call (current : s.current_task < MAX_TASKS) (here : schedule s time_ms = some t) :
    t.current_task < MAX_TASKS ∧ (Timed s time_ms t ↔ OnTime s time_ms) := by
  by_cases running : s.is_scheduler_running = true
  · by_cases pinned : Pinned s
    · have no_time : difference s time_ms = 0 := if_neg fun both => both.2 pinned
      have stays : t = select s s.tasks s.current_task := by
        rw [schedule,if_neg (by simp [running]),if_pos (by simpa [Pinned] using pinned)] at here
        exact (Option.some.inj here).symm
      subst stays
      refine ⟨current,?_⟩
      constructor
      · intro timed
        refine ⟨fun _ _ => ?_,.inl no_time⟩
        by_contra neither
        push Not at neither
        obtain ⟨waits,j,inside,active,past⟩ := neither
        have early := timed.patient running ⟨j,inside,active,by rw [no_time,due_zero]; exact past⟩
        rw [no_time,due_zero] at early
        exact absurd early (Int.not_le.2 waits)
      · intro on_time
        refine ⟨?_,?_,fun _ free => absurd pinned free⟩
        · intro i inside active
          rw [no_time,due_zero]
          rfl
        · rintro _ ⟨j,inside,active,past⟩
          rw [no_time,due_zero] at past ⊢
          rcases on_time.pinned running pinned with here | all_wait
          · exact here
          · exact absurd past (Int.not_le.2 (all_wait j inside active))
    · have time : difference s time_ms = time_ms - s.last_time_ms := if_pos ⟨running,pinned⟩
      have search := search_of_schedule current running pinned here
      rw [← time] at search
      have inside : t.current_task < MAX_TASKS := by
        cases search with
        | behind after inside => exact inside
        | around before => exact Nat.lt_of_le_of_lt before current
        | waiting inside => exact inside
      refine ⟨inside,?_⟩
      constructor
      · intro timed
        exact ⟨fun _ is_pinned => absurd is_pinned pinned,(search_elapsed current search).1 timed.elapsed⟩
      · intro on_time
        refine ⟨(search_elapsed current search).2 on_time.search,?_,?_⟩
        · rintro _ ⟨j,low,ready⟩
          exact (search_selects current search low ready).ready.2
        · intro _ _ j low ready
          exact (search_selects current search low ready).first j low ready
  · have stays : s = t := by
      rw [schedule,if_pos (by simpa using running)] at here
      exact Option.some.inj here
    subst stays
    have no_time : difference s time_ms = 0 := if_neg fun both => running both.1
    refine ⟨current,iff_of_true ⟨?_,fun on => absurd on running,fun on => absurd on running⟩ ⟨fun on => absurd on running,.inl no_time⟩⟩
    intro i inside active
    rw [no_time,due_zero]

end

/-- Along any sequence of calls: every call is in time exactly when the table and the clock meet the condition before
    every call. -/
theorem timed_waits {s : State} (current : s.current_task < MAX_TASKS) (times : List Int) :
    Along Timed s times ↔ Along (fun s time_ms _ => OnTime s time_ms) s times := by
  induction times generalizing s with
  | nil => rfl
  | cons time_ms rest ih =>
    refine forall_congr' fun t => ?_
    refine forall_congr' fun here => ?_
    obtain ⟨inside,timed⟩ := timed_call current here
    exact and_congr timed (ih inside)

/-- The current task, which does not wait, and tasks with these waits behind it. -/
def table (waits : List Int) : State where
  tasks i := ⟨decide (i ≤ waits.length),decide (i ≤ waits.length),(0 :: waits).getD i 0,false,0⟩
  current_task := 0
  last_time_ms := 0
  is_scheduler_running := true
  current_term := 0
  selected := []

/-- The current task goes on, and the other one waits 10 ms less. -/
theorem timed_waits_ten : Along Timed (table [30]) [10] := by
  apply (timed_waits (by decide) [10]).2
  intro t _
  have free : ¬ Pinned (table [30]) := fun pinned => by cases pinned.1
  refine ⟨⟨fun _ pinned => absurd pinned free,.inr ⟨?_,?_⟩⟩,trivial⟩
  · rintro i ⟨below,ready,_⟩ j inside _ _
    have zero : i = 0 := by
      rcases i with - | - | i
      · rfl
      · exact absurd ready (by decide)
      · have inactive : ¬ ((table [30]).tasks (i + 2)).active = true := by simp [table]
        exact absurd ready.1 inactive
    subst zero
    exact (ahead_bounds (by decide) inside).2
  · intro none_ready
    exact absurd (by decide) (none_ready 0 (by decide))

/-- Of two other tasks the first is selected, and the wait of the second stays as it was. -/
theorem wait_left_out : ¬ ∀ s times, s.current_task < MAX_TASKS → (∀ i, 0 ≤ (s.tasks i).wait_time) → Along Timed s times := by
  intro claim
  have nonnegative : ∀ i, 0 ≤ ((table [0,100]).tasks i).wait_time := by
    intro i
    rcases i with - | - | - | i
    · decide
    · decide
    · decide
    · simp [table]
  have timed := (claim (table [0,100]) [10] (by decide) nonnegative _ rfl).1
  have elapsed := timed.elapsed 2 (by decide) (by decide)
  exact absurd elapsed (by decide)

end MicroOS.TimedWaits

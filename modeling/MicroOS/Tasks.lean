import Mathlib.Tactic

/-!
Task slots and the exit of a task. `exit_task` kills the threads that the task
created, and those kill theirs, before the task's own memory is released. When the
calling task itself is among them the processor waits with interrupts on and may be
taken away for good before the outer calls are done. What releasing does to the
memory is a parameter here.
-/
namespace MicroOS.Tasks
open Function (update_of_ne update_self)
universe u

def MAX_TASKS : Nat := 32

/-- A task slot. Of the resources only threads matter here, by their pid; 0 is NULL. -/
structure Task where
  active : Bool
  taken : Bool
  context : Nat
  stack : Nat
  pid : Int
  parent : Int
  resources : List Int

structure Kernel (M : Type u) where
  tasks : Nat → Task
  current_pid : Int
  memory : M

section
variable {M : Type u}

def setTask (k : Kernel M) (t : Nat) (task : Task) : Kernel M := { k with tasks := Function.update k.tasks t task }

def find_empty_task_slot (k : Kernel M) : Option Nat :=
  (List.range MAX_TASKS).find? (fun i => !(k.tasks i).taken)

def get_task_by_pid (k : Kernel M) (pid : Int) : Option Nat :=
  (List.range MAX_TASKS).find? (fun i => (k.tasks i).active && (k.tasks i).pid == pid)

/-- `current_pid++` of an `int`. -/
def next_pid (pid : Int) : Int := if pid = 2 ^ 31 - 1 then -(2 ^ 31) else pid + 1

/-- Stores a pid into the first NULL slot, or a new one. -/
def register (pid : Int) : List Int → List Int
  | [] => [pid]
  | r :: rest => if r = 0 then pid :: rest else r :: register pid rest

/-- The slot is cleared and filled by `init_task`, not yet `active`. -/
def init_slot (k : Kernel M) (t stack context : Nat) (parent : Int) : Kernel M :=
  { setTask k t ⟨false,true,context,stack,k.current_pid,parent,[]⟩ with current_pid := next_pid k.current_pid }

def resource_register_self (k : Kernel M) (self : Nat) (pid : Int) : Kernel M :=
  setTask k self { k.tasks self with resources := register pid (k.tasks self).resources }

def activate (k : Kernel M) (t : Nat) : Kernel M := setTask k t { k.tasks t with active := true }

/-- The first lines of `exit_task`, and the last ones up to `taken = false`. -/
def deactivate (k : Kernel M) (t : Nat) : Kernel M := setTask k t { k.tasks t with active := false }
def teardown (release : M → Task → M) (k : Kernel M) (t : Nat) : Kernel M :=
  setTask { k with memory := release k.memory (k.tasks t) } t { k.tasks t with taken := false, resources := [] }

/-- The kernel in the middle of an exit: once interrupts are on, how many steps are
    left before the timer takes the processor away. -/
structure Machine (M : Type u) where
  kernel : Kernel M
  ticks : Option Nat

def tick (m : Machine M) : Option (Machine M) :=
  match m.ticks with
  | none => some m
  | some 0 => none
  | some (n+1) => some { m with ticks := some n }

/-- The loop of `resource_dealloc`; `true` when the processor was taken away. -/
def resource_dealloc (dealloc : Machine M → Int → Machine M × Bool) : List Int → Machine M → Machine M × Bool
  | [], m => (m,false)
  | r :: rest, m =>
    if r = 0 then resource_dealloc dealloc rest m
    else match dealloc m r with
      | (m,true) => (m,true)
      | (m,false) => resource_dealloc dealloc rest m

def sys_thread_kill (exit : Machine M → Nat → Machine M × Bool) (m : Machine M) (pid : Int) : Machine M × Bool :=
  match get_task_by_pid m.kernel pid with
  | none => (m,false)
  | some thread => exit m thread

/-- `sti` and `hlt` at the end of a task's own exit: any interrupt but the timer's
    lets the call return. -/
def hlt (self patience : Nat) (m : Machine M) (t : Nat) : Machine M :=
  if t = self then { m with ticks := some patience } else m

/-- Each nested exit finds one active task less, so `MAX_TASKS + 1` of them are enough
    (`exit_finishes`). -/
def exit_task (release : M → Task → M) (self patience : Nat) : Nat → Machine M → Nat → Machine M × Bool
  | 0, m, _ => (m,true)
  | fuel+1, m, t =>
    match tick m with
    | none => (m,true)
    | some m =>
      match resource_dealloc (sys_thread_kill (exit_task release self patience fuel)) (m.kernel.tasks t).resources
          { m with kernel := deactivate m.kernel t } with
      | (m,true) => (m,true)
      | (m,false) =>
        match tick m with
        | none => (m,true)
        | some m => (hlt self patience { m with kernel := teardown release m.kernel t } t,false)

/-- The kernel after the task `self` called `exit_task` for `t`. -/
def exits (release : M → Task → M) (k : Kernel M) (self t patience : Nat) : Kernel M :=
  (exit_task release self patience (MAX_TASKS + 1) ⟨k,none⟩ t).1.kernel

/-- An active task that is registered as a thread. -/
def Owns (k : Kernel M) (o u : Nat) : Prop :=
  u < MAX_TASKS ∧ (k.tasks u).active = true ∧ (k.tasks u).pid ∈ (k.tasks o).resources ∧ (k.tasks u).pid ≠ 0

/-- The threads that a task created, that these created, and so on. -/
def Below (k : Kernel M) : Nat → Nat → Prop := Relation.TransGen (Owns k)

/-- What the exits rely on: an active pid names one task, and threads have a parent and
    a greater pid than the one that registered them. -/
structure Sane (k : Kernel M) : Prop where
  unique : ∀ t u, (k.tasks t).active = true → (k.tasks u).active = true → (k.tasks t).pid = (k.tasks u).pid → t = u
  later : ∀ o, ∀ r ∈ (k.tasks o).resources, r ≠ 0 → (k.tasks o).pid < r
  threads : ∀ o u, Owns k o u → (k.tasks u).parent ≠ -1

/-- The steps of an exit, each for one of the given tasks: it stops being active, or
    it is torn down as a thread. -/
inductive Torn (release : M → Task → M) (some_ : Nat → Prop) (k : Kernel M) : Kernel M → Prop
  | start : Torn release some_ k k
  | deactivate {k' : Kernel M} {u : Nat} (before : Torn release some_ k k') (one : some_ u)
      (active : (k'.tasks u).active = true) : Torn release some_ k (deactivate k' u)
  | teardown {k' : Kernel M} {u : Nat} (before : Torn release some_ k k') (one : some_ u)
      (inactive : (k'.tasks u).active = false) (thread : (k'.tasks u).parent ≠ -1) : Torn release some_ k (teardown release k' u)

/-- The fields that an exit leaves alone, and a task that is active afterwards is as before. -/
structure Fewer (k k' : Kernel M) : Prop where
  kept : ∀ u, (k'.tasks u).active = true → k'.tasks u = k.tasks u
  pid : ∀ u, (k'.tasks u).pid = (k.tasks u).pid
  parent : ∀ u, (k'.tasks u).parent = (k.tasks u).parent
  context : ∀ u, (k'.tasks u).context = (k.tasks u).context
  stack : ∀ u, (k'.tasks u).stack = (k.tasks u).stack
  resources : ∀ u, (k'.tasks u).resources = (k.tasks u).resources ∨ (k'.tasks u).resources = []

theorem fewer_refl (k : Kernel M) : Fewer k k :=
  ⟨fun _ _ => rfl,fun _ => rfl,fun _ => rfl,fun _ => rfl,fun _ => rfl,fun _ => .inl rfl⟩

theorem fewer_trans {k k' k'' : Kernel M} (first : Fewer k k') (second : Fewer k' k'') : Fewer k k'' where
  kept u active := by
    have same := second.kept u active
    rw [same] at active
    exact same.trans (first.kept u active)
  pid u := (second.pid u).trans (first.pid u)
  parent u := (second.parent u).trans (first.parent u)
  context u := (second.context u).trans (first.context u)
  stack u := (second.stack u).trans (first.stack u)
  resources u := by
    rcases second.resources u with same | none
    · rw [same]
      exact first.resources u
    · exact .inr none

theorem fewer_deactivate (k : Kernel M) (t : Nat) : Fewer k (deactivate k t) := by
  have at_other (u : Nat) (other : u ≠ t) : (deactivate k t).tasks u = k.tasks u := update_of_ne other ..
  have at_t : (deactivate k t).tasks t = { k.tasks t with active := false } := update_self ..
  constructor <;> intro u <;> by_cases here : u = t
  all_goals first
    | (subst here; simp [at_t])
    | simp [at_other u here]

theorem fewer_teardown (release : M → Task → M) {k : Kernel M} {t : Nat} (inactive : (k.tasks t).active = false) :
    Fewer k (teardown release k t) := by
  have at_other (u : Nat) (other : u ≠ t) : (teardown release k t).tasks u = k.tasks u := update_of_ne other ..
  have at_t : (teardown release k t).tasks t = { k.tasks t with taken := false, resources := [] } := update_self ..
  constructor <;> intro u <;> by_cases here : u = t
  all_goals first
    | (subst here; simp [at_t,inactive])
    | simp [at_other u here]

theorem torn_fewer {release : M → Task → M} {some_ : Nat → Prop} {k k' : Kernel M} (torn : Torn release some_ k k') :
    Fewer k k' := by
  induction torn with
  | start => exact fewer_refl k
  | deactivate _ _ _ ih => exact fewer_trans ih (fewer_deactivate ..)
  | teardown _ _ inactive _ ih => exact fewer_trans ih (fewer_teardown release inactive)

theorem torn_trans {release : M → Task → M} {some_ : Nat → Prop} {k k' k'' : Kernel M}
    (first : Torn release some_ k k') (second : Torn release some_ k' k'') : Torn release some_ k k'' := by
  induction second with
  | start => exact first
  | deactivate _ one active ih => exact .deactivate ih one active
  | teardown _ one inactive thread ih => exact .teardown ih one inactive thread

theorem torn_mono {release : M → Task → M} {some_ more : Nat → Prop} {k k' : Kernel M}
    (sub : ∀ u, some_ u → more u) (torn : Torn release some_ k k') : Torn release more k k' := by
  induction torn with
  | start => exact .start
  | deactivate _ one active ih => exact .deactivate ih (sub _ one) active
  | teardown _ one inactive thread ih => exact .teardown ih (sub _ one) inactive thread

section
variable {k k' : Kernel M}

theorem owns_fewer (fewer : Fewer k k') {o u : Nat} (owns : Owns k' o u) : Owns k o u := by
  obtain ⟨slot,active,listed,used⟩ := owns
  have same := fewer.kept u active
  rw [same] at active listed used
  refine ⟨slot,active,?_,used⟩
  rcases fewer.resources o with kept | none
  · rwa [kept] at listed
  · rw [none] at listed
    cases listed

theorem below_fewer (fewer : Fewer k k') {o u : Nat} (below : Below k' o u) : Below k o u := by
  induction below with
  | single owns => exact .single (owns_fewer fewer owns)
  | tail _ owns ih => exact ih.tail (owns_fewer fewer owns)

theorem sane_fewer (sane : Sane k) (fewer : Fewer k k') : Sane k' where
  unique t u active active' same := by
    refine sane.unique t u ?_ ?_ ?_
    · rw [← fewer.kept t active]
      exact active
    · rw [← fewer.kept u active']
      exact active'
    · rw [← fewer.pid t,← fewer.pid u]
      exact same
  later o r member used := by
    rw [fewer.pid o]
    rcases fewer.resources o with kept | none
    · rw [kept] at member
      exact sane.later o r member used
    · rw [none] at member
      cases member
  threads o u owns := by
    rw [fewer.parent u]
    exact sane.threads o u (owns_fewer fewer owns)

theorem below_later (sane : Sane k) {o u : Nat} (below : Below k o u) : (k.tasks o).pid < (k.tasks u).pid := by
  induction below with
  | single owns => exact sane.later _ _ owns.2.2.1 owns.2.2.2
  | tail _ owns ih => exact ih.trans (sane.later _ _ owns.2.2.1 owns.2.2.2)

theorem below_thread (sane : Sane k) {o u : Nat} (below : Below k o u) : (k.tasks u).parent ≠ -1 := by
  cases below with
  | single owns => exact sane.threads _ _ owns
  | tail _ owns => exact sane.threads _ _ owns

/-- A thread that stays active keeps the chain of tasks above it, when whole subtrees exit. -/
theorem below_survives (fewer : Fewer k k') {gone : Nat → Prop}
    (only : ∀ u, (k.tasks u).active = true → (k'.tasks u).active = false → gone u)
    (whole : ∀ u v, gone u → Below k u v → (k'.tasks v).active = false) {o u : Nat}
    (top : k'.tasks o = k.tasks o) (below : Below k o u) (active : (k'.tasks u).active = true) : Below k' o u := by
  induction below with
  | single owns =>
    obtain ⟨slot,-,listed,used⟩ := owns
    have same := fewer.kept _ active
    exact .single ⟨slot,active,by rw [same,top]; exact listed,by rw [same]; exact used⟩
  | @tail v w below owns ih =>
    have ⟨slot,_,listed,used⟩ := owns
    have alive : (k'.tasks v).active = true := by
      cases here : (k'.tasks v).active with
      | true => rfl
      | false =>
        have before : (k.tasks v).active = true := by
          cases below with
          | single owns => exact owns.2.1
          | tail _ owns => exact owns.2.1
        have exited := whole v w (only v before here) (.single owns)
        rw [active] at exited
        cases exited
    have same := fewer.kept _ active
    exact .tail (ih alive) ⟨slot,active,by rw [same,fewer.kept v alive]; exact listed,by rw [same]; exact used⟩

end

/-- As long as `current_pid` has not overflowed. -/
structure Ordered (k : Kernel M) : Prop where
  started : 0 ≤ k.current_pid
  slots : ∀ t, (k.tasks t).active = true → t < MAX_TASKS
  taken : ∀ t, (k.tasks t).active = true → (k.tasks t).taken = true
  pids : ∀ t, (k.tasks t).taken = true → 0 ≤ (k.tasks t).pid ∧ (k.tasks t).pid < k.current_pid
  unique : ∀ t u, (k.tasks t).taken = true → (k.tasks u).taken = true → (k.tasks t).pid = (k.tasks u).pid → t = u
  later : ∀ o, ∀ r ∈ (k.tasks o).resources, r ≠ 0 → (k.tasks o).pid < r ∧ r < k.current_pid
  threads : ∀ o u, (k.tasks u).taken = true → (k.tasks u).pid ∈ (k.tasks o).resources → (k.tasks u).pid ≠ 0 →
    (k.tasks u).parent ≠ -1

theorem ordered_sane {k : Kernel M} (ordered : Ordered k) : Sane k where
  unique t u active active' := ordered.unique t u (ordered.taken t active) (ordered.taken u active')
  later o r member used := (ordered.later o r member used).1
  threads o u owns := ordered.threads o u (ordered.taken u owns.2.1) owns.2.2.1 owns.2.2.2

theorem find_empty_task_slot_some {k : Kernel M} {t : Nat} (found : find_empty_task_slot k = some t) :
    t < MAX_TASKS ∧ (k.tasks t).taken = false := by
  unfold find_empty_task_slot at found
  have free := List.find?_some found
  simp only [Bool.not_eq_eq_eq_not,Bool.not_true] at free
  exact ⟨List.mem_range.mp (List.mem_of_find?_eq_some found),free⟩

theorem register_member {pid r : Int} {l : List Int} (member : r ∈ register pid l) : r = pid ∨ r ∈ l := by
  induction l with
  | nil => exact .inl (List.mem_singleton.mp member)
  | cons head rest ih =>
    unfold register at member
    split at member
    · cases member with
      | head => exact .inl rfl
      | tail _ more => exact .inr (List.mem_cons_of_mem _ more)
    · cases member with
      | head => exact .inr List.mem_cons_self
      | tail _ more => exact (ih more).imp id (List.mem_cons_of_mem _)

theorem register_registers (pid : Int) (l : List Int) : pid ∈ register pid l := by
  induction l with
  | nil => exact List.mem_singleton_self pid
  | cons head rest ih =>
    unfold register
    split
    · exact List.mem_cons_self
    · exact List.mem_cons_of_mem _ ih

theorem register_keeps {pid r : Int} {l : List Int} (member : r ∈ l) (used : r ≠ 0) : r ∈ register pid l := by
  induction l with
  | nil => cases member
  | cons head rest ih =>
    unfold register
    split
    · next null =>
      cases member with
      | head => exact absurd null used
      | tail _ more => exact List.mem_cons_of_mem _ more
    · cases member with
      | head => exact List.mem_cons_self
      | tail _ more => exact List.mem_cons_of_mem _ (ih more)

theorem init_slot_at (k : Kernel M) (t stack context : Nat) (parent : Int) :
    (init_slot k t stack context parent).tasks t = ⟨false,true,context,stack,k.current_pid,parent,[]⟩ :=
  update_self ..

theorem init_slot_other (k : Kernel M) {t u : Nat} (other : u ≠ t) (stack context : Nat) (parent : Int) :
    (init_slot k t stack context parent).tasks u = k.tasks u :=
  update_of_ne other ..

theorem activate_at (k : Kernel M) (t : Nat) : (activate k t).tasks t = { k.tasks t with active := true } :=
  update_self ..

theorem activate_other (k : Kernel M) {t u : Nat} (other : u ≠ t) : (activate k t).tasks u = k.tasks u :=
  update_of_ne other ..

theorem register_at (k : Kernel M) (self : Nat) (pid : Int) : (resource_register_self k self pid).tasks self =
    { k.tasks self with resources := register pid (k.tasks self).resources } :=
  update_self ..

theorem register_other (k : Kernel M) {self u : Nat} (other : u ≠ self) (pid : Int) :
    (resource_register_self k self pid).tasks u = k.tasks u :=
  update_of_ne other ..

section
variable {k : Kernel M} (ordered : Ordered k)
include ordered

/-- A new task gets a pid that no slot and no list of resources has. -/
theorem ordered_init_slot {t : Nat} (room : k.current_pid < 2 ^ 31 - 1) (stack context : Nat) (parent : Int) :
    Ordered (init_slot k t stack context parent) := by
  have next : (init_slot k t stack context parent).current_pid = k.current_pid + 1 := by
    show next_pid k.current_pid = k.current_pid + 1
    unfold next_pid
    rw [if_neg (by omega)]
  have at_t := init_slot_at k t stack context parent
  have at_other (u : Nat) (other : u ≠ t) := init_slot_other k other stack context parent
  have started := ordered.started
  constructor
  · rw [next]
    omega
  · intro u active
    by_cases here : u = t
    · rw [here,at_t] at active
      cases active
    · rw [at_other u here] at active
      exact ordered.slots u active
  · intro u active
    by_cases here : u = t
    · rw [here,at_t]
    · rw [at_other u here] at active ⊢
      exact ordered.taken u active
  · intro u taken
    rw [next]
    by_cases here : u = t
    · rw [here,at_t]
      exact ⟨started,by dsimp only; omega⟩
    · rw [at_other u here] at taken ⊢
      have := ordered.pids u taken
      omega
  · intro u v taken taken' same
    by_cases here : u = t <;> by_cases there : v = t
    · rw [here,there]
    · rw [here,at_t,at_other v there] at same
      rw [at_other v there] at taken'
      have := ordered.pids v taken'
      dsimp only at same
      omega
    · rw [there,at_t,at_other u here] at same
      rw [at_other u here] at taken
      have := ordered.pids u taken
      dsimp only at same
      omega
    · rw [at_other u here] at taken same
      rw [at_other v there] at taken' same
      exact ordered.unique u v taken taken' same
  · intro o r member used
    rw [next]
    by_cases here : o = t
    · rw [here,at_t] at member
      cases member
    · rw [at_other o here] at member ⊢
      have := ordered.later o r member used
      omega
  · intro o u taken member used
    have listed : (init_slot k t stack context parent |>.tasks u).pid ∈ (k.tasks o).resources := by
      by_cases here : o = t
      · rw [here,at_t] at member
        cases member
      · rwa [at_other o here] at member
    by_cases here : u = t
    · rw [here,at_t] at listed used
      have := (ordered.later o _ listed used).2
      dsimp only at this
      omega
    · rw [at_other u here] at taken listed used ⊢
      exact ordered.threads o u taken listed used

theorem ordered_register {self t : Nat} (taken : (k.tasks t).taken = true)
    (after : (k.tasks self).pid < (k.tasks t).pid) (thread : (k.tasks t).parent ≠ -1) :
    Ordered (resource_register_self k self (k.tasks t).pid) := by
  have at_self := register_at k self (k.tasks t).pid
  have at_other (u : Nat) (other : u ≠ self) := register_other k other (k.tasks t).pid
  have same (u : Nat) : ((resource_register_self k self (k.tasks t).pid).tasks u).active = (k.tasks u).active ∧
      ((resource_register_self k self (k.tasks t).pid).tasks u).taken = (k.tasks u).taken ∧
      ((resource_register_self k self (k.tasks t).pid).tasks u).pid = (k.tasks u).pid ∧
      ((resource_register_self k self (k.tasks t).pid).tasks u).parent = (k.tasks u).parent := by
    by_cases here : u = self
    · rw [here,at_self]
      exact ⟨rfl,rfl,rfl,rfl⟩
    · rw [at_other u here]
      exact ⟨rfl,rfl,rfl,rfl⟩
  have listed (o : Nat) (r : Int) (member : r ∈ ((resource_register_self k self (k.tasks t).pid).tasks o).resources) :
      (o = self ∧ r = (k.tasks t).pid) ∨ r ∈ (k.tasks o).resources := by
    by_cases here : o = self
    · rw [here,at_self] at member
      cases register_member member with
      | inl new => exact .inl ⟨here,new⟩
      | inr old =>
        rw [here]
        exact .inr old
    · rw [at_other o here] at member
      exact .inr member
  constructor
  · exact ordered.started
  · intro u active
    rw [(same u).1] at active
    exact ordered.slots u active
  · intro u active
    rw [(same u).1] at active
    rw [(same u).2.1]
    exact ordered.taken u active
  · intro u is_taken
    rw [(same u).2.1] at is_taken
    rw [(same u).2.2.1]
    exact ordered.pids u is_taken
  · intro u v taken_u taken_v pid
    rw [(same u).2.1] at taken_u
    rw [(same v).2.1] at taken_v
    rw [(same u).2.2.1,(same v).2.2.1] at pid
    exact ordered.unique u v taken_u taken_v pid
  · intro o r member used
    rw [(same o).2.2.1]
    cases listed o r member with
    | inl new =>
      rw [new.1,new.2]
      exact ⟨after,(ordered.pids t taken).2⟩
    | inr old => exact ordered.later o r old used
  · intro o u taken_u member used
    rw [(same u).2.1] at taken_u
    rw [(same u).2.2.1] at member used
    rw [(same u).2.2.2]
    cases listed o _ member with
    | inl new =>
      rw [ordered.unique u t taken_u taken new.2]
      exact thread
    | inr old => exact ordered.threads o u taken_u old used

/-- Changes of `active` and `taken` that keep the order, and freed lists. -/
theorem ordered_set {t : Nat} {task : Task}
    (slot : task.active = true → t < MAX_TASKS ∧ task.taken = true) (taken : task.taken = true → (k.tasks t).taken = true)
    (pid : task.pid = (k.tasks t).pid) (parent : task.parent = (k.tasks t).parent)
    (resources : ∀ r ∈ task.resources, r ∈ (k.tasks t).resources) : Ordered (setTask k t task) := by
  have at_t : (setTask k t task).tasks t = task := update_self ..
  have at_other (u : Nat) (other : u ≠ t) : (setTask k t task).tasks u = k.tasks u := update_of_ne other ..
  have was_taken (u : Nat) (is : ((setTask k t task).tasks u).taken = true) : (k.tasks u).taken = true := by
    by_cases here : u = t
    · rw [here,at_t] at is
      rw [here]
      exact taken is
    · rwa [at_other u here] at is
  have same_pid (u : Nat) : ((setTask k t task).tasks u).pid = (k.tasks u).pid := by
    by_cases here : u = t
    · rw [here,at_t]
      exact pid
    · rw [at_other u here]
  have same_parent (u : Nat) : ((setTask k t task).tasks u).parent = (k.tasks u).parent := by
    by_cases here : u = t
    · rw [here,at_t]
      exact parent
    · rw [at_other u here]
  have listed (o : Nat) (r : Int) (member : r ∈ ((setTask k t task).tasks o).resources) : r ∈ (k.tasks o).resources := by
    by_cases here : o = t
    · rw [here,at_t] at member
      rw [here]
      exact resources r member
    · rwa [at_other o here] at member
  constructor
  · exact ordered.started
  · intro u active
    by_cases here : u = t
    · rw [here,at_t] at active
      rw [here]
      exact (slot active).1
    · rw [at_other u here] at active
      exact ordered.slots u active
  · intro u active
    by_cases here : u = t
    · rw [here,at_t] at active ⊢
      exact (slot active).2
    · rw [at_other u here] at active ⊢
      exact ordered.taken u active
  · intro u is
    rw [same_pid]
    exact ordered.pids u (was_taken u is)
  · intro u v is is' same
    rw [same_pid,same_pid] at same
    exact ordered.unique u v (was_taken u is) (was_taken v is') same
  · intro o r member used
    rw [same_pid]
    exact ordered.later o r (listed o r member) used
  · intro o u is member used
    rw [same_pid] at member used
    rw [same_parent]
    exact ordered.threads o u (was_taken u is) (listed o _ member) used

theorem ordered_activate {t : Nat} (slot : t < MAX_TASKS) (taken : (k.tasks t).taken = true) : Ordered (activate k t) :=
  ordered_set ordered (fun _ => ⟨slot,taken⟩) (fun _ => taken) rfl rfl (fun _ member => member)

theorem ordered_deactivate (t : Nat) : Ordered (deactivate k t) := by
  refine ordered_set ordered ?_ (fun is => is) rfl rfl (fun _ member => member)
  intro active
  cases active

/-- The memory does not matter for the order. -/
theorem ordered_memory (memory : M) : Ordered { k with memory := memory } :=
  ⟨ordered.started,ordered.slots,ordered.taken,ordered.pids,ordered.unique,ordered.later,ordered.threads⟩

theorem ordered_teardown (release : M → Task → M) {t : Nat}
    (inactive : (k.tasks t).active = false) : Ordered (teardown release k t) := by
  refine ordered_set (ordered_memory ordered _) ?_ ?_ rfl rfl ?_
  · intro active
    rw [show (k.tasks t).active = true from active] at inactive
    cases inactive
  · intro taken
    cases taken
  · intro r member
    cases member

end

theorem ordered_torn {release : M → Task → M} {some_ : Nat → Prop} {k k' : Kernel M} (ordered : Ordered k)
    (torn : Torn release some_ k k') : Ordered k' := by
  induction torn with
  | start => exact ordered
  | deactivate _ _ _ ih => exact ordered_deactivate ih _
  | teardown _ _ inactive _ ih => exact ordered_teardown ih release inactive

end
end MicroOS.Tasks

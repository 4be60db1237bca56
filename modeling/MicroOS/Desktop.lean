import MicroOS.Runs
import MicroOS.Tasks

/-!
The windows of the desktop. A window of another process owns a slot of shared memory and an
`external_state_t` with the process that was spawned for it. Nothing else opens windows
today, but the table also takes windows without a process.
-/
namespace MicroOS.Desktop
open Runs
open Tasks (next_pid)

def WM_MAX_SLOTS : Nat := 16
def MAX_WINDOWS : Nat := 16

/-- The counter of pids, how many tasks were ever started, and which of them a pid names. -/
structure Processes where
  current_pid : Int
  started : Nat
  live : Int → Option Nat

/-- What other processes do. -/
inductive Event
  | spawn
  | exit (pid : Int)

def Processes.spawn (p : Processes) : Processes where
  current_pid := next_pid p.current_pid
  started := p.started + 1
  live := fun pid => if pid = p.current_pid then some p.started else p.live pid

def Processes.exit (p : Processes) (pid : Int) : Processes :=
  { p with live := fun other => if other = pid then none else p.live other }

def Processes.event (p : Processes) : Event → Processes
  | .spawn => p.spawn
  | .exit pid => p.exit pid

def get_proc_info (p : Processes) (pid : Int) : Bool := (p.live pid).isSome

/-- An `external_state_t`, and the task that was spawned. -/
structure External where
  slot : Nat
  pid : Int
  control : Bool
  spawned : Option Nat

/-- A `window_instance_t`; without a state it is cleared by nobody. -/
structure Window where
  state : Option External
  is_external : Bool
  child_pid : Int
  shm_slot : Nat

/-- The tables of the desktop, and how many `external_state_t` are allocated. -/
structure State where
  slot_used : Nat → Bool
  windows : List Window
  focused_window : Int
  states : Nat
  processes : Processes

/-- What `search_executable` and `spawn` come to. -/
inductive Launch
  | not_found
  | not_spawned
  | spawned
deriving DecidableEq

def external_window_alloc_slot (s : State) : Option Nat := (List.range WM_MAX_SLOTS).find? fun i => !s.slot_used i

def external_window_free_slot (s : State) (slot : Nat) : State :=
  if slot < WM_MAX_SLOTS then { s with slot_used := fun i => if i = slot then false else s.slot_used i } else s

/-- The window and the processes afterwards. A pid below 0 counts as a failure. -/
def external_window_init (p : Processes) (est : External) : Launch → Window × Processes
  | .not_found | .not_spawned => (⟨some est,false,0,0⟩,p)
  | .spawned =>
    if p.current_pid < 0 then (⟨some est,false,0,0⟩,p.spawn)
    else (⟨some { est with pid := p.current_pid, control := true, spawned := some p.started },true,p.current_pid,est.slot⟩,p.spawn)

def window_add_with_state (s : State) (init : Processes → Window × Processes) : State :=
  if MAX_WINDOWS ≤ s.windows.length then s
  else { s with
    windows := s.windows ++ [(init s.processes).1], focused_window := s.windows.length, processes := (init s.processes).2 }

def window_add_external (s : State) (launch : Launch) : State :=
  match external_window_alloc_slot s with
  | none => s
  | some slot =>
    let est : External := ⟨slot,0,false,none⟩
    window_add_with_state { s with slot_used := fun i => if i = slot then true else s.slot_used i, states := s.states + 1 }
      fun p => external_window_init p est launch

def window_get (s : State) (idx : Int) : Option Window :=
  if 0 ≤ idx ∧ idx < s.windows.length then s.windows[idx.toNat]? else none

/-- The process that is killed after the client had its time to close. -/
def killed (p : Processes) (w : Window) : Option Int :=
  match w.state with
  | none => none
  | some est => if get_proc_info p est.pid then some est.pid else none

/-- `during` happens while the client is waited for. -/
def external_window_cleanup (s : State) (w : Window) (during : List Event) : State :=
  match w.state with
  | none => s
  | some est =>
    let waited := during.foldl Processes.event s.processes
    let processes := (killed waited w).elim waited waited.exit
    { external_window_free_slot s est.slot with processes := processes, states := s.states - 1 }

/-- The focus after window `idx` is gone, where `window_count` are left. -/
def refocus (focused_window idx : Int) (window_count : Nat) : Int :=
  if focused_window = idx then if 0 < window_count then window_count - 1 else -1
  else if idx < focused_window then focused_window - 1 else focused_window

def window_close (s : State) (idx : Int) (during : List Event) : State :=
  match window_get s idx with
  | none => s
  | some w =>
    { external_window_cleanup s w during with
      windows := s.windows.eraseIdx idx.toNat
      focused_window := refocus s.focused_window idx (s.windows.eraseIdx idx.toNat).length }

def window_set_focused (s : State) (idx : Int) : State :=
  if -1 ≤ idx ∧ idx < s.windows.length then { s with focused_window := idx } else s

/-- A window without a process. -/
def plain : Window := ⟨none,false,0,0⟩

inductive Action
  | add_external (launch : Launch)
  | add
  | close (idx : Int) (during : List Event)
  | focus (idx : Int)
  | event (e : Event)

def next (s : State) : Action → State
  | .add_external launch => window_add_external s launch
  | .add => window_add_with_state s fun p => (plain,p)
  | .close idx during => window_close s idx during
  | .focus idx => window_set_focused s idx
  | .event e => { s with processes := s.processes.event e }

/-- The desktop is not the first task, and its pids count the tasks. -/
structure Counted (p : Processes) : Prop where
  current : p.current_pid = p.started
  positive : 0 < p.started
  names : ∀ pid task, p.live pid = some task → pid = task

def desktop_system : System State Action where
  start s := s.slot_used = (fun _ => false) ∧ s.windows = [] ∧ s.focused_window = -1 ∧ s.states = 0 ∧ Counted s.processes
  step s a t := t = next s a

/-- An open external window has the slot. -/
def owns (i : Nat) (w : Window) : Bool := w.is_external && w.shm_slot == i

/-- The three tables agree. -/
structure Owned (s : State) : Prop where
  slots : ∀ i, s.slot_used i = true ↔ s.windows.countP (owns i) = 1
  states : s.states = s.windows.countP Window.is_external
  focus : s.focused_window = -1 ∨ 0 ≤ s.focused_window ∧ s.focused_window < s.windows.length

/-- What a step must not do: kill another task than the one that was spawned for the window,
    or leave anything of a window that is not created. -/
structure Fair (s : State) (a : Action) (t : State) : Prop where
  kills : ∀ idx during w pid, a = .close idx during → window_get s idx = some w →
    killed (during.foldl Processes.event s.processes) w = some pid → pid ≠ 0 ∧ ∃ est task, w.state = some est ∧
      est.spawned = some task ∧ (during.foldl Processes.event s.processes).live pid = some task
  releases : ∀ launch, a = .add_external launch → (∃ w, t.windows = s.windows ++ [w] ∧ w.is_external = true) ∨
    t.windows = s.windows ∧ t.slot_used = s.slot_used ∧ t.states = s.states

/-- The tasks that a step can start. -/
def spawns : Action → Nat
  | .add_external _ => 1
  | .add | .focus _ => 0
  | .close _ during => during.length
  | .event _ => 1

/-- Without a free slot or with one, a place in the table and a client that is spawned; and
    the counter of pids does not overflow. -/
def Careful (s : State) (a : Action) : Prop :=
  s.processes.started + spawns a < 2 ^ 31 ∧ ∀ launch, a = .add_external launch →
    external_window_alloc_slot s = none ∨ launch = .spawned ∧ s.windows.length < MAX_WINDOWS

end MicroOS.Desktop

import MicroOS.Runs

/-!
Asynchronous tasks: the table that `add_async_task` fills and `process_async_tasks`
scans, with the packets that `send_packet` puts into it. A pass is taken apart into one
step for each slot, a task that runs is left by a step of its own, and tasks may be added
between any two steps: by interrupts, by other code, or by the task that is running.
-/
namespace MicroOS.AsyncTasks
open Runs

def MAX_ASYNC_TASKS : Nat := 16

inductive AsyncState where
  | STATE_INIT | STATE_WAIT | STATE_DONE
  deriving DecidableEq, Repr

/-- A `send_data_t`, told apart by the number of its `send_packet`. -/
structure SendData where
  serial : Nat
  driver : Nat
  data : List UInt8
  deriving DecidableEq

/-- A slot; `run` is a packet for `send_async_send_packet` and `none` for other tasks. -/
structure AsyncTask where
  taken : Bool
  blocking : Bool
  state : AsyncState
  run : Option SendData

/-- Where a pass stands, with its `blocking_task_run`: before a slot, or in the task of a
    slot. -/
inductive Scan where
  | idle
  | before (i : Nat) (blocking_task_run : Bool)
  | inside (i : Nat) (blocking_task_run : Bool)

structure Kernel where
  async_tasks : Nat → AsyncTask
  scan : Scan
  /-- The packets of the `send_packet` calls, and those that a driver began to send. -/
  sent : List SendData
  started : List SendData
  /-- The copies of packets on the heap. -/
  allocated : Nat → Bool
  /-- The oldest packet of the pass, until the pass polls its driver. -/
  due : Option Nat

def setTask (k : Kernel) (i : Nat) (task : AsyncTask) : Kernel :=
  { k with async_tasks := fun j => if j = i then task else k.async_tasks j }

/-- The loop of `add_async_task`, from the last slot down. -/
def free_slot (k : Kernel) : Nat → Option Nat
  | 0 => none
  | i + 1 => if (k.async_tasks i).taken then free_slot k i else some i

/-- Without a free slot nothing happens. -/
def add_async_task (k : Kernel) (run : Option SendData) (blocking : Bool) : Kernel :=
  match free_slot k MAX_ASYNC_TASKS with
  | some i => setTask k i { taken := true, blocking := blocking, state := .STATE_INIT, run := run }
  | none => k

def send_packet (k : Kernel) (driver : Nat) (data : List UInt8) : Kernel :=
  let packet : SendData := { serial := k.sent.length, driver := driver, data := data }
  add_async_task { k with
    sent := k.sent ++ [packet]
    allocated := fun n => if n = packet.serial then true else k.allocated n } (some packet) true

/-- The packet of a slot that was not sent completely. -/
def pending (k : Kernel) (i : Nat) : Option SendData :=
  if (k.async_tasks i).taken && (k.async_tasks i).state != .STATE_DONE then (k.async_tasks i).run else none

def oldest (k : Kernel) : Option Nat :=
  ((List.range MAX_ASYNC_TASKS).filterMap fun i => (pending k i).map SendData.serial).min?

/-- `run` of a slot: a driver starts a packet when its state is `STATE_INIT`; the copy is
    freed when the driver is done. -/
def run_task (k : Kernel) (i : Nat) (resolved : Bool) : Kernel :=
  let task := k.async_tasks i
  let k := setTask k i { task with state := if resolved then .STATE_DONE else .STATE_WAIT }
  match task.run with
  | none => k
  | some packet => { k with
    started := if task.state = .STATE_INIT then k.started ++ [packet] else k.started
    allocated := if resolved then fun n => if n = packet.serial then false else k.allocated n else k.allocated
    due := if k.due = some packet.serial then none else k.due }

/-- The slot at which a pass stands. -/
def visit (k : Kernel) (i : Nat) (blocking_task_run resolved : Bool) : Kernel :=
  if MAX_ASYNC_TASKS ≤ i then { k with scan := .idle }
  else if (k.async_tasks i).taken && (k.async_tasks i).state != .STATE_DONE then
    if (k.async_tasks i).blocking && blocking_task_run then { k with scan := .before (i + 1) blocking_task_run }
    else { run_task k i resolved with scan := .inside i blocking_task_run }
  else { k with scan := .before (i + 1) blocking_task_run }

/-- After `run`. -/
def leave (k : Kernel) (i : Nat) (blocking_task_run : Bool) : Kernel :=
  let task := k.async_tasks i
  let k := if task.state = .STATE_DONE then setTask k i { task with taken := false } else k
  { k with scan := .before (i + 1) (blocking_task_run || task.blocking) }

inductive Action where
  | send (driver : Nat) (data : List UInt8)
  /-- Any other `add_async_task`; none of them is blocking. -/
  | add
  | process
  | visit (resolved : Bool)
  | leave

def asyncs : System Kernel Action where
  start k := (∀ i, (k.async_tasks i).taken = false) ∧ k.scan = .idle ∧ k.sent = [] ∧ k.started = [] ∧
    (∀ n, k.allocated n = false) ∧ k.due = none
  step k
    | .send driver data, k' => k' = send_packet k driver data
    | .add, k' => k' = add_async_task k none false
    | .process, k' => k.scan = .idle ∧ k' = { k with scan := .before 0 false, due := oldest k }
    | .visit resolved, k' => ∃ i blocking_task_run, k.scan = .before i blocking_task_run ∧
      k' = visit k i blocking_task_run resolved
    | .leave, k' => ∃ i blocking_task_run, k.scan = .inside i blocking_task_run ∧ k' = leave k i blocking_task_run

end MicroOS.AsyncTasks

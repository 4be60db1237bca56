import MicroOS.Configuration
import MicroOS.Runs

/-!
The service scheduler: its configuration, the messages it handles and its poll loop, one
system call at a time. Between two of its calls any task may exit or be started, and any
message may arrive. Timed jobs run when they are due. Requests for the list of services are
left out: their handler changes no job, but it copies a command, which may have 255
characters, into the 64 of its answer.
-/
namespace MicroOS.Services
open Runs
open Configuration (JobType MAX_JOBS Room Significant job_of lines trimmed)

abbrev Pid := BitVec 32

def MAX_RETRIES : Nat := 10
def SERVICE_NAME_LEN : Nat := 64

structure Job where
  type : JobType
  command : List UInt8
  pid : Pid
  retry : Nat
  stopped : Bool

/-- A `job_t` of zeros. -/
def Job.zero : Job := ⟨.JOB_EVERY_MINUTES,[],0,0,false⟩

/-- What the supervision reads of a job of the configuration. -/
def Job.of (j : Configuration.Job) : Job := ⟨j.type,Configuration.text j.command,0,0,false⟩

/-- Every line that is not blank and no comment is read into `jobs[job_count]` first; behind the
    array there is no result. -/
def parse_lines : List (List UInt8) → List Job → Option (List Job)
  | [], jobs => some jobs
  | line :: rest, jobs =>
    if trimmed line = [] ∨ (trimmed line).head? = some 35 then parse_lines rest jobs
    else if jobs.length < MAX_JOBS then parse_lines rest (jobs ++ ((job_of line).map Job.of).toList)
    else none

/-- The jobs of the configuration; its shortcuts are not for the scheduler's jobs. -/
def parse_config (file : List UInt8) : Option (List Job) := parse_lines (lines file) []

theorem significant_iff (line : List UInt8) : Significant line ↔ ¬ (trimmed line = [] ∨ (trimmed line).head? = some 35) := by
  rw [Significant]
  cases trimmed line with
  | nil => simp
  | cons c rest => simp

theorem insignificant_job {line : List UInt8} (plain : ¬ Significant line) : job_of line = none :=
  (@Configuration.insignificant_adds line [] plain).1

theorem parse_lines_room {ls : List (List UInt8)} {jobs : List Job} (room : Room jobs.length ls) :
    parse_lines ls jobs = some (jobs ++ (ls.filterMap job_of).map Job.of) := by
  induction ls generalizing jobs with
  | nil => simp [parse_lines]
  | cons line rest ih =>
    obtain ⟨here,later⟩ := Configuration.room_cons.mp room
    rw [parse_lines]
    by_cases significant : Significant line
    · have count : ((job_of line).map Job.of).toList.length = (job_of line).toList.length := by cases job_of line <;> rfl
      rw [if_neg ((significant_iff line).mp significant),if_pos (here significant),
        ih (by rw [List.length_append,count]; exact later)]
      cases found : job_of line <;> simp [found]
    · rw [if_pos (by rwa [significant_iff,not_not] at significant)]
      have none_added := insignificant_job significant
      rw [none_added] at later
      rw [ih later,List.filterMap_cons_none none_added]

/-- The jobs that are read here are those of the whole reader, whenever that one stays inside its memory. -/
theorem parse_config_scanned {file : List UInt8} {parsed : Configuration.Parsed} (scanned : Configuration.parse_config file = some parsed) :
    parse_config file = some (parsed.jobs.map Job.of) := by
  obtain ⟨room,jobs⟩ := Configuration.parse_config_jobs scanned
  rw [parse_config,@parse_lines_room _ [] room,List.nil_append,jobs]

/-- A task that is active; `job` is the job that the scheduler started it for, which no function
    reads. -/
structure Task where
  pid : Pid
  job : Option Nat

structure Kernel where
  tasks : List Task
  current_pid : Pid

def get_proc_info (k : Kernel) (pid : Pid) : Bool := k.tasks.any fun task => task.pid = pid

/-- Without a task the caller is aborted. -/
def kill (k : Kernel) (pid : Pid) : Option Kernel :=
  if get_proc_info k pid then some { k with tasks := k.tasks.eraseP fun task => task.pid = pid } else none

def init_task (k : Kernel) (job : Option Nat) : Kernel :=
  ⟨k.tasks ++ [⟨k.current_pid,job⟩],k.current_pid + 1⟩

/-- `works` is whether the command is found and loaded. -/
def run_command (k : Kernel) (job : Nat) (works : Bool) : Kernel × Pid :=
  if works then (init_task k (some job),k.current_pid) else (k,-1)

inductive Op where
  | start | stop | restart
  deriving DecidableEq

/-- What was done for a service, which no function reads: a message for it was handled, or its
    command was run, on its own or not. -/
inductive Event where
  | message (op : Op) (service : Nat)
  | run (service : Nat) (auto : Bool)
  deriving DecidableEq

/-- The next system call of the scheduler. -/
inductive Call where
  | load
  /-- The jobs that run at its start. -/
  | boot (i : Nat)
  | message_recv (op : Op)
  /-- The calls of a handler: `get_proc_info`, `kill` and those of `run_command`. -/
  | check (op : Op) (i : Nat)
  | kill (op : Op) (i : Nat)
  | run (op : Op) (i : Nat)
  | poll (i : Nat)
  | poll_run (i : Nat)
  | dead
  deriving DecidableEq

/-- `jobs` is zeros behind `job_count`. -/
structure State where
  kernel : Kernel
  jobs : Nat → Job
  job_count : Nat
  next : Call
  log : List Event

/-- What a call finds: a message with the name of a service, a command that works, a job that is
    due. -/
structure Input where
  message : Option (List UInt8)
  works : Bool
  due : Bool

def get_service_name (command : List UInt8) : List UInt8 :=
  let path := command.takeWhile fun c => c ≠ 32
  (path.reverse.takeWhile fun c => c ≠ 47).reverse.take (SERVICE_NAME_LEN - 1)

/-- The first service of the name. -/
def find_service (s : State) (name : List UInt8) : Option Nat :=
  (List.range s.job_count).find? fun i =>
    (s.jobs i).type = .JOB_SERVICE ∧ get_service_name (s.jobs i).command = name

def setJob (s : State) (i : Nat) (job : Job) : State := { s with jobs := Function.update s.jobs i job }

/-- Where the main loop goes on behind a handler. -/
def behind : Op → Call
  | .start => .message_recv .stop
  | .stop => .message_recv .restart
  | .restart => .poll 0

def finish (s : State) (op : Op) : State := { s with next := behind op }

/-- `run_command` for a job, which keeps the pid. -/
def run (s : State) (i : Nat) (works : Bool) (auto : Bool) : State :=
  let (kernel,pid) := run_command s.kernel i works
  { setJob s i { s.jobs i with pid := pid } with kernel := kernel, log := s.log ++ [.run i auto] }

/-- A handler before it runs the command. -/
def reset (s : State) (op : Op) (i : Nat) : State :=
  { setJob s i { s.jobs i with stopped := false, retry := 0 } with next := .run op i }

def positive (pid : Pid) : Bool := decide (0 < pid.toInt)

def handle_service_op_start_message (s : State) (i : Nat) : State :=
  if !(s.jobs i).stopped && positive (s.jobs i).pid then { s with next := .check .start i }
  else reset s .start i

def handle_service_op_stop_message (s : State) (i : Nat) : State :=
  if (s.jobs i).stopped then finish s .stop
  else if positive (s.jobs i).pid then { setJob s i { s.jobs i with stopped := true } with next := .check .stop i }
  else finish (setJob s i { s.jobs i with stopped := true, pid := -1 }) .stop

def handle_service_op_restart_message (s : State) (i : Nat) : State :=
  if positive (s.jobs i).pid then { s with next := .check .restart i } else reset s .restart i

def handle (s : State) (op : Op) (i : Nat) : State :=
  match op with
  | .start => handle_service_op_start_message s i
  | .stop => handle_service_op_stop_message s i
  | .restart => handle_service_op_restart_message s i

/-- The handler after `get_proc_info`. -/
def checked (s : State) (op : Op) (i : Nat) : State :=
  match op with
  | .start => if get_proc_info s.kernel (s.jobs i).pid then finish s .start else reset s .start i
  | .stop =>
    if get_proc_info s.kernel (s.jobs i).pid then { s with next := .kill .stop i }
    else finish (setJob s i { s.jobs i with pid := -1 }) .stop
  | .restart => if get_proc_info s.kernel (s.jobs i).pid then { s with next := .kill .restart i } else reset s .restart i

/-- The handler after `kill`; the start handler makes no such call. -/
def killed (s : State) (op : Op) (i : Nat) : State :=
  match op with
  | .start => finish s .start
  | .stop => finish (setJob s i { s.jobs i with pid := -1 }) .stop
  | .restart => reset s .restart i

/-- The loop over the jobs. -/
def poll (s : State) (i : Nat) (works due : Bool) : State :=
  if s.job_count ≤ i then { s with next := .message_recv .start }
  else
    match (s.jobs i).type with
    | .JOB_EVERY_MINUTES | .JOB_EVERY_HOURS =>
      if due then { run s i works false with next := .poll (i + 1) } else { s with next := .poll (i + 1) }
    | .JOB_SERVICE =>
      if !(s.jobs i).stopped && ((s.jobs i).pid == -1 || !get_proc_info s.kernel (s.jobs i).pid) then
        if (s.jobs i).retry < MAX_RETRIES then { s with next := .poll_run i } else { s with next := .poll (i + 1) }
      else { s with next := .poll (i + 1) }
    | .JOB_REBOOT => { s with next := .poll (i + 1) }

/-- One call, and what the scheduler does until the next one. -/
def call (s : State) (file : List UInt8) (input : Input) : Option State :=
  match s.next with
  | .load =>
    (parse_config file).map fun jobs =>
      { s with jobs := fun i => jobs.getD i Job.zero, job_count := jobs.length, next := .boot 0 }
  | .boot i =>
    if s.job_count ≤ i then some { s with next := .message_recv .start }
    else
      match (s.jobs i).type with
      | .JOB_REBOOT | .JOB_SERVICE => some { run s i input.works false with next := .boot (i + 1) }
      | _ => some { s with next := .boot (i + 1) }
  | .message_recv op =>
    match input.message.bind (find_service s) with
    | none => some (finish s op)
    | some i => some (handle { s with log := s.log ++ [.message op i] } op i)
  | .check op i => some (checked s op i)
  | .kill op i =>
    match kill s.kernel (s.jobs i).pid with
    | none => some { s with next := .dead }
    | some kernel => some (killed { s with kernel := kernel } op i)
  | .run op i => some (finish (run s i input.works false) op)
  | .poll i => some (poll s i input.works input.due)
  | .poll_run i =>
    let s := run s i input.works true
    some { setJob s i { s.jobs i with retry := (s.jobs i).retry + 1 } with next := .poll (i + 1) }
  | .dead => some s

inductive Action where
  /-- The scheduler goes on, with the file of its configuration at first. -/
  | call (file : List UInt8) (input : Input)
  | exit_task (place : Nat)
  /-- Other tasks start one. -/
  | init_task
  /-- The scheduler exits or is killed. -/
  | exit_scheduler

def act (s : State) : Action → Option State
  | .call file input => call s file input
  | .exit_task place => some { s with kernel := { s.kernel with tasks := s.kernel.tasks.eraseIdx place } }
  | .init_task => some { s with kernel := Services.init_task s.kernel none }
  | .exit_scheduler => some { s with next := .dead }

/-- The scheduler has just been started: pids were given out in order, and none for its jobs. -/
structure Started (s : State) : Prop where
  next : s.next = .load
  jobs : ∀ i, s.jobs i = Job.zero
  log : s.log = []
  begun : 0 < s.kernel.current_pid.toNat
  pids : ∀ task ∈ s.kernel.tasks, task.pid.toNat < s.kernel.current_pid.toNat ∧ task.job = none
  distinct : (s.kernel.tasks.map Task.pid).Nodup

/-- Nothing is known after a write behind an array. -/
def services : System (Option State) Action where
  start x := ∃ s, x = some s ∧ Started s
  step x a y := ∃ s, x = some s ∧ y = act s a

end MicroOS.Services

import MicroOS.Services

/-!
Supervision of services. An instance that lives is the one whose pid its job has, and between
two system calls the scheduler is where its job allows it to be (`Sound`). Over the log of
messages and runs, a stopped service stays stopped and retries are counted (`Supervised`).
-/
namespace MicroOS.Services
open Runs
open Function (update update_of_ne update_self)

/-! ### Logs -/

def retried (i : Nat) (n : Nat) : Event → Nat
  | .run j auto => if j = i ∧ auto = true then n + 1 else n
  | .message _ j => if j = i then 0 else n

def told (i : Nat) (b : Bool) : Event → Bool
  | .run _ _ => b
  | .message op j => if j = i then op = .stop else b

/-- The retries of a service since its last message. -/
def autos (i : Nat) (log : List Event) : Nat := log.foldl (retried i) 0

/-- Whether the last message for a service stopped it. -/
def halted (i : Nat) (log : List Event) : Bool := log.foldl (told i) false

/-- After a stop there is no run of the service up to a start or restart. -/
def Stays (i : Nat) (log : List Event) : Prop :=
  ∀ before after auto, log = before ++ .message .stop i :: after → .message .start i ∉ after → .message .restart i ∉ after →
    .run i auto ∉ after

/-- Between messages there are few retries of the service. -/
def Limited (i : Nat) (log : List Event) : Prop :=
  ∀ before part after, log = before ++ part ++ after → (∀ op, .message op i ∉ part) → part.count (.run i true) ≤ MAX_RETRIES

section
variable {i : Nat} {log : List Event} {e : Event}

@[simp] theorem autos_snoc : autos i (log ++ [e]) = retried i (autos i log) e := by simp [autos]

@[simp] theorem halted_snoc : halted i (log ++ [e]) = told i (halted i log) e := by simp [halted]

theorem count_le_autos (before part : List Event) (quiet : ∀ op, .message op i ∉ part) :
    part.count (.run i true) ≤ autos i (before ++ part) := by
  induction part using List.reverseRecOn with
  | nil => simp
  | append_singleton part e ih =>
    have earlier := ih fun op member => quiet op (List.mem_append_left _ member)
    rw [List.count_append,← List.append_assoc,autos_snoc]
    cases e with
    | run j auto =>
      by_cases this : j = i ∧ auto = true
      · obtain ⟨rfl,rfl⟩ := this
        simpa [retried] using earlier
      · have other : Event.run j auto ≠ .run i true := by simpa using this
        simpa [retried,this,other] using earlier
    | message op j =>
      have other : j ≠ i := by
        rintro rfl
        exact quiet op (by simp)
      simpa [retried,other] using earlier

theorem stop_halts (before after : List Event) (start : .message .start i ∉ after) (restart : .message .restart i ∉ after) :
    halted i (before ++ .message .stop i :: after) = true := by
  induction after using List.reverseRecOn with
  | nil => simp [told]
  | append_singleton after e ih =>
    rw [List.mem_append,not_or] at start restart
    rw [← List.cons_append,← List.append_assoc,halted_snoc,ih start.1 restart.1]
    cases e with
    | run j auto => rfl
    | message op j =>
      by_cases this : j = i
      · rw [this] at start restart ⊢
        cases op with
        | stop => simp [told]
        | start => simp at start
        | restart => simp at restart
      · simp [told,this]

theorem stays_nil : Stays i [] := by
  intro before after auto split
  simp at split

theorem limited_nil : Limited i [] := by
  intro before part after split quiet
  simp only [List.nil_eq,List.append_eq_nil_iff] at split
  simp [split.1.2]

/-- A run that follows no stop keeps it so. -/
theorem stays_snoc (stays : Stays i log) (allowed : ∀ auto, e = .run i auto → halted i log = false) : Stays i (log ++ [e]) := by
  intro before after auto split start restart
  rcases List.eq_nil_or_concat after with rfl | ⟨after,last,rfl⟩
  · simp
  · rw [List.concat_eq_append] at split start restart ⊢
    rw [List.mem_append,not_or] at start restart
    have parts : log ++ [e] = (before ++ .message .stop i :: after) ++ [last] := by simpa using split
    obtain ⟨rfl,same⟩ := List.append_inj' parts rfl
    obtain rfl : e = last := by simpa using same
    rw [List.mem_append,not_or]
    refine ⟨stays before after auto rfl start.1 restart.1,fun member => ?_⟩
    have runs : e = .run i auto := (List.mem_singleton.1 member).symm
    rw [stop_halts before after start.1 restart.1] at allowed
    exact absurd (allowed auto runs) (by simp)

theorem limited_snoc (limited : Limited i log) (few : autos i (log ++ [e]) ≤ MAX_RETRIES) : Limited i (log ++ [e]) := by
  intro before part after split quiet
  rcases List.eq_nil_or_concat after with rfl | ⟨after,last,rfl⟩
  · rw [List.append_nil] at split
    rw [split] at few
    exact (count_le_autos before part quiet).trans few
  · rw [List.concat_eq_append] at split
    have parts : log ++ [e] = (before ++ part ++ after) ++ [last] := by simpa using split
    obtain ⟨rfl,-⟩ := List.append_inj' parts rfl
    exact limited before part after rfl quiet

end

/-! ### The invariant -/

/-- No task that lives was started for the job. -/
def Idle (k : Kernel) (i : Nat) : Prop := ∀ task ∈ k.tasks, task.job ≠ some i

/-- Pids were given out in order. -/
structure Pids (k : Kernel) : Prop where
  begun : 0 < k.current_pid.toNat
  below : ∀ task ∈ k.tasks, task.pid.toNat < k.current_pid.toNat
  distinct : (k.tasks.map Task.pid).Nodup

/-- A task that lives and was started for a service is the one whose pid the service has. -/
def Instances (k : Kernel) (jobs : Nat → Job) : Prop :=
  ∀ task ∈ k.tasks, ∀ i, task.job = some i → (jobs i).type = .JOB_SERVICE → (jobs i).pid = task.pid ∧ 0 < task.pid.toInt

/-- What a job knows of its log. -/
structure Ledger (jobs : Nat → Job) (log : List Event) : Prop where
  retry : ∀ i, autos i log ≤ (jobs i).retry ∧ (jobs i).retry ≤ MAX_RETRIES
  halted : ∀ i, halted i log = true → (jobs i).stopped = true
  service : ∀ i, (jobs i).stopped = true → (jobs i).type = .JOB_SERVICE
  stays : ∀ i, Stays i log
  limited : ∀ i, Limited i log

/-- A stopped job has no pid, but while it is being stopped. -/
def Stopped (jobs : Nat → Job) (next : Call) : Prop :=
  next ≠ .dead → ∀ i, (jobs i).stopped = true → (jobs i).pid = -1 ∨ next = .check .stop i ∨ next = .kill .stop i

/-- What the scheduler knows where it is. -/
def Control (s : State) : Prop :=
  match s.next with
  | .load => (∀ i, s.jobs i = Job.zero) ∧ s.log = [] ∧ ∀ i, Idle s.kernel i
  | .boot i => (∀ j, (s.jobs j).stopped = false) ∧ ∀ j, i ≤ j → Idle s.kernel j
  | .check op i | .kill op i =>
    (s.jobs i).type = .JOB_SERVICE ∧ autos i s.log = 0 ∧ (op ≠ .stop → halted i s.log = false)
  | .run _ i => (s.jobs i).type = .JOB_SERVICE ∧ Idle s.kernel i ∧ (s.jobs i).stopped = false
  | .poll_run i =>
    (s.jobs i).type = .JOB_SERVICE ∧ Idle s.kernel i ∧ (s.jobs i).stopped = false ∧ (s.jobs i).retry < MAX_RETRIES
  | _ => True

structure Sound (s : State) : Prop where
  pids : Pids s.kernel
  instances : Instances s.kernel s.jobs
  ledger : Ledger s.jobs s.log
  stopped : Stopped s.jobs s.next
  control : Control s

section
variable {s : State} {k k' : Kernel} {jobs : Nat → Job} {log : List Event} {i : Nat} {job : Job} {next : Call}

/-! ### Tasks come and go -/

theorem pids_fewer (pids : Pids k) (fewer : k'.tasks.Sublist k.tasks) (same : k'.current_pid = k.current_pid) : Pids k' := by
  refine ⟨by rw [same]; exact pids.begun,?_,(fewer.map Task.pid).nodup pids.distinct⟩
  intro task member
  rw [same]
  exact pids.below task (fewer.subset member)

theorem instances_fewer (instances : Instances k jobs) (fewer : k'.tasks.Sublist k.tasks) : Instances k' jobs :=
  fun task member => instances task (fewer.subset member)

theorem idle_fewer (idle : Idle k i) (fewer : k'.tasks.Sublist k.tasks) : Idle k' i :=
  fun task member => idle task (fewer.subset member)

theorem next_pid (small : k.current_pid.toNat + 1 < 2 ^ 31) : (k.current_pid + 1).toNat = k.current_pid.toNat + 1 := by
  rw [BitVec.toNat_add]
  exact Nat.mod_eq_of_lt (by simp; omega)

theorem pids_init (pids : Pids k) (small : k.current_pid.toNat + 1 < 2 ^ 31) (label : Option Nat) : Pids (init_task k label) := by
  have up := next_pid small
  refine ⟨?_,?_,?_⟩
  · rw [init_task,up]
    exact Nat.succ_pos _
  · intro task member
    rw [init_task,up]
    rcases List.mem_append.1 member with old | new
    · exact (pids.below task old).trans (Nat.lt_succ_self _)
    · rw [List.mem_singleton.1 new]
      exact Nat.lt_succ_self _
  · rw [init_task,List.map_append,List.nodup_append]
    refine ⟨pids.distinct,List.nodup_singleton _,?_⟩
    rintro pid old pid' new rfl
    obtain ⟨task,member,rfl⟩ := List.mem_map.1 old
    have below := pids.below task member
    have same : task.pid = k.current_pid := by simpa using new
    rw [same] at below
    exact Nat.lt_irrefl _ below

theorem idle_init (idle : Idle k i) {label : Option Nat} (other : label ≠ some i) : Idle (init_task k label) i := by
  intro task member
  rcases List.mem_append.1 member with old | new
  · exact idle task old
  · rw [List.mem_singleton.1 new]
    exact other

/-- Without an instance any pid will do. -/
theorem instances_set (instances : Instances k jobs) (job : Job)
    (idle : (jobs i).type = .JOB_SERVICE → Idle k i ∨ job.pid = (jobs i).pid) (type : job.type = (jobs i).type) :
    Instances k (update jobs i job) := by
  intro task member j label service
  by_cases this : j = i
  · subst this
    rw [update_self] at service ⊢
    rw [type] at service
    rcases idle service with idle | same
    · exact absurd label (idle task member)
    · rw [same]
      exact instances task member j label service
  · rw [update_of_ne this] at service ⊢
    exact instances task member j label service

theorem instances_init (instances : Instances k jobs) : Instances (init_task k none) jobs := by
  intro task member j label
  rcases List.mem_append.1 member with old | new
  · exact instances task old j label
  · rw [List.mem_singleton.1 new] at label
    cases label

theorem instances_run (pids : Pids k) (instances : Instances k jobs) (idle : (jobs i).type = .JOB_SERVICE → Idle k i)
    (small : k.current_pid.toNat + 1 < 2 ^ 31) (works : Bool) (type : job.type = (jobs i).type)
    (pid : job.pid = (run_command k i works).2) : Instances (run_command k i works).1 (update jobs i job) := by
  have before : Instances k (update jobs i job) := instances_set instances job (fun service => .inl (idle service)) type
  cases works with
  | false => exact before
  | true =>
    intro task member j label service
    rcases List.mem_append.1 member with old | new
    · exact before task old j label service
    · obtain rfl := List.mem_singleton.1 new
      obtain rfl := Option.some.inj label
      rw [update_self]
      refine ⟨pid,?_⟩
      change 0 < k.current_pid.toInt
      rw [BitVec.toInt_eq_toNat_of_lt (by omega)]
      exact_mod_cast pids.begun

theorem pids_run (pids : Pids k) (small : k.current_pid.toNat + 1 < 2 ^ 31) (i : Nat) (works : Bool) :
    Pids (run_command k i works).1 := by
  cases works with
  | false => exact pids
  | true => exact pids_init pids small (some i)

theorem idle_run {j : Nat} (idle : Idle k j) (other : j ≠ i) (works : Bool) : Idle (run_command k i works).1 j := by
  cases works with
  | false => exact idle
  | true => exact idle_init idle (by simpa using other.symm)

/-- A service without a positive pid, or whose pid no task has, has no instance. -/
theorem idle_unless (instances : Instances k jobs) (service : (jobs i).type = .JOB_SERVICE)
    (gone : 0 < (jobs i).pid.toInt → get_proc_info k (jobs i).pid = false) : Idle k i := by
  intro task member label
  obtain ⟨same,above⟩ := instances task member i label service
  rw [same] at gone
  have here : get_proc_info k task.pid = true := List.any_eq_true.2 ⟨task,member,by simp⟩
  rw [gone above] at here
  cases here

theorem kill_spec (pids : Pids k) (instances : Instances k jobs) (service : (jobs i).type = .JOB_SERVICE)
    (killed : kill k (jobs i).pid = some k') : k'.tasks.Sublist k.tasks ∧ k'.current_pid = k.current_pid ∧ Idle k' i := by
  rw [kill] at killed
  split at killed
  · rename_i here
    obtain rfl := Option.some.inj killed
    refine ⟨List.eraseP_sublist,rfl,?_⟩
    intro task member label
    obtain ⟨same,-⟩ := instances task (List.eraseP_subset member) i label service
    obtain ⟨victim,there,hit⟩ := List.any_eq_true.1 here
    have hit' : victim.pid = (jobs i).pid := by simpa using hit
    obtain ⟨found,front,back,-,match_,split,erased⟩ :=
      @List.exists_of_eraseP _ (fun task : Task => decide (task.pid = (jobs i).pid)) k.tasks victim there (by simpa using hit')
    have distinct := pids.distinct
    rw [split,List.map_append,List.map_cons] at distinct
    have unlisted : found.pid ∉ (front ++ back).map Task.pid := by
      rw [List.map_append]
      exact (List.nodup_middle.1 distinct).notMem
    rw [erased] at member
    refine unlisted (List.mem_map.2 ⟨task,member,?_⟩)
    rw [← same]
    exact (of_decide_eq_true match_).symm
  · cases killed

/-! ### The books of the jobs -/

theorem ledger_set (ledger : Ledger jobs log) (retry : autos i log ≤ job.retry ∧ job.retry ≤ MAX_RETRIES)
    (halted_ : halted i log = true → job.stopped = true) (service : job.stopped = true → job.type = .JOB_SERVICE) :
    Ledger (update jobs i job) log := by
  refine ⟨fun j => ?_,fun j => ?_,fun j => ?_,ledger.stays,ledger.limited⟩
  · by_cases this : j = i
    · rw [this,update_self]
      exact retry
    · rw [update_of_ne this]
      exact ledger.retry j
  · by_cases this : j = i
    · rw [this,update_self]
      exact halted_
    · rw [update_of_ne this]
      exact ledger.halted j
  · by_cases this : j = i
    · rw [this,update_self]
      exact service
    · rw [update_of_ne this]
      exact ledger.service j

/-- A message, and the job afterwards. -/
theorem ledger_message (ledger : Ledger jobs log) {op : Op} (service : (jobs i).type = .JOB_SERVICE)
    (type : job.type = (jobs i).type) (retry : job.retry ≤ MAX_RETRIES) (stop : op = .stop → job.stopped = true) :
    Ledger (update jobs i job) (log ++ [.message op i]) := by
  have counted (j : Nat) : autos j (log ++ [.message op i]) = if i = j then 0 else autos j log := by
    rw [autos_snoc]
    rfl
  refine ⟨fun j => ?_,fun j => ?_,fun j => ?_,fun j => ?_,fun j => ?_⟩
  · rw [counted]
    by_cases this : j = i
    · rw [this,update_self,if_pos rfl]
      exact ⟨Nat.zero_le _,retry⟩
    · rw [update_of_ne this,if_neg (Ne.symm this)]
      exact ledger.retry j
  · rw [halted_snoc,told]
    by_cases this : j = i
    · rw [this,update_self,if_pos rfl]
      exact fun stops => stop (by simpa using stops)
    · rw [update_of_ne this,if_neg (Ne.symm this)]
      exact ledger.halted j
  · by_cases this : j = i
    · rw [this,update_self,type]
      exact fun _ => service
    · rw [update_of_ne this]
      exact ledger.service j
  · exact stays_snoc (ledger.stays j) (by simp)
  · refine limited_snoc (ledger.limited j) ?_
    rw [counted]
    split
    · exact Nat.zero_le _
    · exact (ledger.retry j).1.trans (ledger.retry j).2

/-- A run of a job that is not stopped. -/
theorem ledger_run (ledger : Ledger jobs log) {auto : Bool} (running : (jobs i).stopped = false)
    (stopped : job.stopped = (jobs i).stopped)
    (retry : job.retry = (jobs i).retry + if auto then 1 else 0) (few : job.retry ≤ MAX_RETRIES) :
    Ledger (update jobs i job) (log ++ [.run i auto]) := by
  have unhalted : halted i log = false := by
    rw [Bool.eq_false_iff]
    intro halts
    rw [ledger.halted i halts] at running
    cases running
  have counted (j : Nat) : autos j (log ++ [.run i auto]) = autos j log + if i = j ∧ auto = true then 1 else 0 := by
    rw [autos_snoc,retried]
    split <;> rfl
  refine ⟨fun j => ?_,fun j => ?_,fun j => ?_,fun j => ?_,fun j => ?_⟩
  · rw [counted]
    by_cases this : j = i
    · rw [this,update_self,retry]
      refine ⟨?_,by rw [← retry]; exact few⟩
      have := (ledger.retry i).1
      simp only [true_and]
      omega
    · rw [update_of_ne this,if_neg (fun same => this same.1.symm)]
      exact ledger.retry j
  · rw [halted_snoc,told]
    by_cases this : j = i
    · rw [this,update_self,stopped]
      exact ledger.halted i
    · rw [update_of_ne this]
      exact ledger.halted j
  · by_cases this : j = i
    · rw [this,update_self,stopped,running]
      simp
    · rw [update_of_ne this]
      exact ledger.service j
  · refine stays_snoc (ledger.stays j) fun auto' same => ?_
    obtain ⟨rfl,-⟩ := Event.run.inj same
    exact unhalted
  · refine limited_snoc (ledger.limited j) ?_
    rw [counted]
    by_cases this : i = j ∧ auto = true
    · rw [if_pos this,← this.1]
      rw [this.2,if_pos rfl] at retry
      have := (ledger.retry i).1
      omega
    · rw [if_neg this]
      exact (ledger.retry j).1.trans (ledger.retry j).2

theorem stopped_set (stopped : Stopped jobs next) (job : Job) {next' : Call} (alive : next ≠ .dead)
    (elsewhere : ∀ j, j ≠ i → next ≠ .check .stop j ∧ next ≠ .kill .stop j)
    (here : job.stopped = true → job.pid = -1 ∨ next' = .check .stop i ∨ next' = .kill .stop i) :
    Stopped (update jobs i job) next' := by
  intro _ j stop
  by_cases this : j = i
  · subst this
    rw [update_self] at stop ⊢
    exact here stop
  · rw [update_of_ne this] at stop ⊢
    rcases stopped alive j stop with absent | checks | kills
    · exact .inl absent
    · exact absurd checks (elsewhere j this).1
    · exact absurd kills (elsewhere j this).2

/-! ### Handlers -/

theorem not_behind (op op' : Op) (j : Nat) : behind op ≠ .dead ∧ behind op ≠ .check op' j ∧ behind op ≠ .kill op' j := by
  cases op <;> simp [behind]

theorem control_behind (s : State) (op : Op) : Control (finish s op) := by
  cases op <;> trivial

section
variable (sound : Sound s) (alive : s.next ≠ .dead) (elsewhere : ∀ j, s.next ≠ .check .stop j ∧ s.next ≠ .kill .stop j)
include sound alive elsewhere

theorem stopped_absent {j : Nat} (stop : (s.jobs j).stopped = true) : (s.jobs j).pid = -1 := by
  rcases sound.stopped alive j stop with absent | checks | kills
  · exact absent
  · exact absurd checks (elsewhere j).1
  · exact absurd kills (elsewhere j).2

theorem sound_goes (next : Call) (control : Control { s with next := next }) : Sound { s with next := next } :=
  ⟨sound.pids,sound.instances,sound.ledger,fun _ _ stop => .inl (stopped_absent sound alive elsewhere stop),control⟩

/-- The scheduler is done with a service, and nothing else has changed. -/
theorem sound_finish (op : Op) : Sound (finish s op) :=
  sound_goes sound alive elsewhere (behind op) (control_behind s op)

end

section
variable (pids : Pids s.kernel) (instances : Instances s.kernel s.jobs) (stopped : Stopped s.jobs s.next)
  (alive : s.next ≠ .dead) (elsewhere : ∀ j, j ≠ i → s.next ≠ .check .stop j ∧ s.next ≠ .kill .stop j)
include pids instances stopped alive elsewhere

/-- A service changes, without an instance or without a new pid. -/
theorem sound_set (type : job.type = (s.jobs i).type) (idle : Idle s.kernel i ∨ job.pid = (s.jobs i).pid)
    (ledger : Ledger (update s.jobs i job) s.log)
    (here : job.stopped = true → job.pid = -1 ∨ next = .check .stop i ∨ next = .kill .stop i)
    (control : Control { setJob s i job with next := next }) : Sound { setJob s i job with next := next } :=
  ⟨pids,instances_set instances job (fun _ => idle) type,ledger,stopped_set stopped job alive elsewhere here,control⟩

theorem sound_reset (service : (s.jobs i).type = .JOB_SERVICE) (idle : Idle s.kernel i) (op : Op)
    (ledger : Ledger (update s.jobs i { s.jobs i with stopped := false, retry := 0 }) s.log) :
    Sound (reset s op i) := by
  refine sound_set pids instances stopped alive elsewhere rfl (.inl idle) ledger (by simp) ?_
  simp only [Control,setJob,update_self]
  exact ⟨service,idle,trivial⟩

/-- A service is stopped and has no pid any more. -/
theorem sound_halt (type : job.type = (s.jobs i).type) (idle : Idle s.kernel i) (pid : job.pid = -1)
    (ledger : Ledger (update s.jobs i job) s.log) : Sound (finish (setJob s i job) .stop) :=
  sound_set pids instances stopped alive elsewhere type (.inl idle) ledger (fun _ => .inl pid) trivial

end

theorem positive_iff {pid : Pid} : positive pid = true ↔ 0 < pid.toInt := by simp [positive]

theorem find_service_spec {name : List UInt8} (found : find_service s name = some i) : (s.jobs i).type = .JOB_SERVICE := by
  have := List.find?_some found
  simp only [decide_eq_true_eq] at this
  exact this.1

/-- A handler finds its service. -/
theorem handle_sound (sound : Sound s) {op : Op} (here : s.next = .message_recv op) (service : (s.jobs i).type = .JOB_SERVICE) :
    Sound (handle { s with log := s.log ++ [.message op i] } op i) := by
  have alive : s.next ≠ .dead := by simp [here]
  have elsewhere (j : Nat) : s.next ≠ .check .stop j ∧ s.next ≠ .kill .stop j := by simp [here]
  have few := (sound.ledger.retry i).2
  have gone {j : Nat} : (s.jobs j).stopped = true → (s.jobs j).pid = -1 := stopped_absent sound alive elsewhere
  have same (stop : op = .stop → (s.jobs i).stopped = true) : Ledger s.jobs (s.log ++ [.message op i]) := by
    have ledger := ledger_message sound.ledger service rfl few stop
    rwa [Function.update_eq_self] at ledger
  have ready (op : Op) (other : op ≠ .stop) :
      Ledger (update s.jobs i { s.jobs i with stopped := false, retry := 0 }) (s.log ++ [.message op i]) :=
    ledger_message sound.ledger service rfl (Nat.zero_le _) fun stop => absurd stop other
  have counted : autos i (s.log ++ [.message op i]) = 0 := by simp [retried]
  have told_ : halted i (s.log ++ [.message op i]) = decide (op = .stop) := by simp [told]
  have without (negative : ¬ positive (s.jobs i).pid = true) : Idle s.kernel i :=
    idle_unless sound.instances service fun above => absurd (positive_iff.2 above) negative
  have unpositive (stop : (s.jobs i).stopped = true) : ¬ positive (s.jobs i).pid = true := by
    rw [gone stop]
    decide
  cases op with
  | start =>
    change Sound (handle_service_op_start_message _ i)
    rw [handle_service_op_start_message]
    split
    · exact ⟨sound.pids,sound.instances,same (by simp),fun _ j stop => .inl (gone stop),service,counted,fun _ => by rw [told_]; rfl⟩
    · rename_i skipped
      have negative : ¬ positive (s.jobs i).pid = true := by
        by_cases stop : (s.jobs i).stopped = true
        · exact unpositive stop
        · intro above
          exact skipped (by simp [stop,above])
      exact sound_reset (s := { s with log := s.log ++ [.message .start i] }) sound.pids sound.instances sound.stopped alive
        (fun j _ => elsewhere j) service (without negative) .start (ready .start (by simp))
  | stop =>
    change Sound (handle_service_op_stop_message _ i)
    rw [handle_service_op_stop_message]
    split
    · rename_i stop
      exact ⟨sound.pids,sound.instances,same fun _ => stop,fun _ j stop => .inl (gone stop),trivial⟩
    · split
      · refine sound_set (s := { s with log := s.log ++ [.message .stop i] }) sound.pids sound.instances sound.stopped alive
          (fun j _ => elsewhere j) rfl (.inr rfl) (ledger_message sound.ledger service rfl few fun _ => rfl) (fun _ => .inr (.inl rfl)) ?_
        simp only [Control,setJob,update_self]
        exact ⟨service,counted,fun other => absurd rfl other⟩
      · rename_i negative
        exact sound_halt (s := { s with log := s.log ++ [.message .stop i] }) sound.pids sound.instances sound.stopped alive
          (fun j _ => elsewhere j) rfl (without negative) rfl (ledger_message sound.ledger service rfl few fun _ => rfl)
  | restart =>
    change Sound (handle_service_op_restart_message _ i)
    rw [handle_service_op_restart_message]
    split
    · exact ⟨sound.pids,sound.instances,same (by simp),fun _ j stop => .inl (gone stop),service,counted,fun _ => by rw [told_]; rfl⟩
    · rename_i negative
      exact sound_reset (s := { s with log := s.log ++ [.message .restart i] }) sound.pids sound.instances sound.stopped alive
        (fun j _ => elsewhere j) service (without negative) .restart (ready .restart (by simp))

/-- Where a handler goes on with its service, the others are as they were. -/
theorem reset_ledger (ledger : Ledger jobs log) (counted : autos i log = 0) (unhalted : halted i log = false) :
    Ledger (update jobs i { jobs i with stopped := false, retry := 0 }) log :=
  ledger_set ledger ⟨counted.le,Nat.zero_le _⟩ (by simp [unhalted]) (by simp)

/-- What is known of the service that a call is about. -/
theorem handled (sound : Sound s) {op : Op} (here : s.next = .check op i ∨ s.next = .kill op i) : s.next ≠ .dead ∧
    (∀ j, j ≠ i → s.next ≠ .check .stop j ∧ s.next ≠ .kill .stop j) ∧
      (s.jobs i).type = .JOB_SERVICE ∧ autos i s.log = 0 ∧ (op ≠ .stop → halted i s.log = false) := by
  have control := sound.control
  rw [Control] at control
  rcases here with here | here
  · rw [here] at control
    exact ⟨by simp [here],fun j other => by simp [here,Ne.symm other],control⟩
  · rw [here] at control
    exact ⟨by simp [here],fun j other => by simp [here,Ne.symm other],control⟩

theorem checked_sound (sound : Sound s) {op : Op} (here : s.next = .check op i) : Sound (checked s op i) := by
  obtain ⟨alive,elsewhere,service,counted,unhalted⟩ := handled sound (.inl here)
  have without (gone : ¬ get_proc_info s.kernel (s.jobs i).pid = true) : Idle s.kernel i :=
    idle_unless sound.instances service fun _ => by simpa using gone
  cases op with
  | start =>
    rw [checked]
    split
    · exact sound_finish sound alive (fun j => by simp [here]) .start
    · rename_i gone
      exact sound_reset sound.pids sound.instances sound.stopped alive elsewhere service (without gone) .start
        (reset_ledger sound.ledger counted (unhalted (by simp)))
  | stop =>
    rw [checked]
    split
    · refine ⟨sound.pids,sound.instances,sound.ledger,fun _ j stop => ?_,service,counted,unhalted⟩
      exact (sound.stopped alive j stop).imp_right fun either => .inr (by simpa [here] using either)
    · rename_i gone
      exact sound_halt sound.pids sound.instances sound.stopped alive elsewhere rfl (without gone) rfl
        (ledger_set sound.ledger (sound.ledger.retry i) (sound.ledger.halted i) (sound.ledger.service i))
  | restart =>
    rw [checked]
    split
    · exact sound_goes sound alive (fun j => by simp [here]) _ ⟨service,counted,unhalted⟩
    · rename_i gone
      exact sound_reset sound.pids sound.instances sound.stopped alive elsewhere service (without gone) .restart
        (reset_ledger sound.ledger counted (unhalted (by simp)))

theorem killed_sound (sound : Sound s) {op : Op} (here : s.next = .kill op i)
    (done : kill s.kernel (s.jobs i).pid = some k') : Sound (killed { s with kernel := k' } op i) := by
  obtain ⟨alive,elsewhere,service,counted,unhalted⟩ := handled sound (.inr here)
  obtain ⟨fewer,same,idle⟩ := kill_spec sound.pids sound.instances service done
  have pids := pids_fewer sound.pids fewer same
  have instances := instances_fewer sound.instances fewer
  cases op with
  | start =>
    exact ⟨pids,instances,sound.ledger,fun _ j stop => .inl (stopped_absent sound alive (fun j => by simp [here]) stop),trivial⟩
  | stop =>
    exact sound_halt (s := { s with kernel := k' }) pids instances sound.stopped alive elsewhere rfl idle rfl
      (ledger_set sound.ledger (sound.ledger.retry i) (sound.ledger.halted i) (sound.ledger.service i))
  | restart =>
    exact sound_reset (s := { s with kernel := k' }) pids instances sound.stopped alive elsewhere service idle .restart
      (reset_ledger sound.ledger counted (unhalted (by simp)))

/-! ### Runs of commands -/

section
variable (sound : Sound s) (small : s.kernel.current_pid.toNat + 1 < 2 ^ 31) (alive : s.next ≠ .dead)
  (elsewhere : ∀ j, s.next ≠ .check .stop j ∧ s.next ≠ .kill .stop j) (running : (s.jobs i).stopped = false)
  (idle : (s.jobs i).type = .JOB_SERVICE → Idle s.kernel i)
include sound small alive elsewhere running idle

/-- A command is run for a job that has no instance, or for another kind of job. -/
theorem run_sound (works auto : Bool) (type : job.type = (s.jobs i).type)
    (pid : job.pid = (run_command s.kernel i works).2) (stopped : job.stopped = (s.jobs i).stopped)
    (retry : job.retry = (s.jobs i).retry + if auto then 1 else 0) (few : job.retry ≤ MAX_RETRIES) (next : Call)
    (control : Control { setJob s i job with
      kernel := (run_command s.kernel i works).1, log := s.log ++ [.run i auto], next := next }) :
    Sound { setJob s i job with
      kernel := (run_command s.kernel i works).1, log := s.log ++ [.run i auto], next := next } := by
  refine ⟨pids_run sound.pids small i works,instances_run sound.pids sound.instances idle small works type pid,
    ledger_run sound.ledger running stopped retry few,?_,control⟩
  refine stopped_set sound.stopped job alive (fun j _ => elsewhere j) fun stop => ?_
  rw [stopped,running] at stop
  cases stop

theorem run_plain (works : Bool) (next : Call)
    (control : Control { run s i works false with next := next }) : Sound { run s i works false with next := next } :=
  @run_sound s i { s.jobs i with pid := (run_command s.kernel i works).2 } sound small alive elsewhere running idle works false
    rfl rfl rfl rfl (sound.ledger.retry i).2 next control

end

theorem poll_sound (sound : Sound s) (small : s.kernel.current_pid.toNat + 1 < 2 ^ 31) (here : s.next = .poll i)
    (works due : Bool) : Sound (poll s i works due) := by
  have alive : s.next ≠ .dead := by simp [here]
  have elsewhere (j : Nat) : s.next ≠ .check .stop j ∧ s.next ≠ .kill .stop j := by simp [here]
  have goes := sound_goes sound alive elsewhere
  have timed (other : (s.jobs i).type ≠ .JOB_SERVICE) : Sound { run s i works false with next := .poll (i + 1) } := by
    have running : (s.jobs i).stopped = false := by
      rw [Bool.eq_false_iff]
      exact fun stop => other (sound.ledger.service i stop)
    exact run_plain sound small alive elsewhere running (fun service => absurd service other) works (.poll (i + 1)) trivial
  rw [poll]
  split
  · exact goes _ trivial
  · split
    · rename_i type
      split
      · exact timed (by simp [type])
      · exact goes _ trivial
    · rename_i type
      split
      · exact timed (by simp [type])
      · exact goes _ trivial
    · rename_i service
      split
      · rename_i down
        obtain ⟨running,down⟩ := Bool.and_eq_true_iff.1 down
        have idle : Idle s.kernel i := by
          refine idle_unless sound.instances service fun above => ?_
          rcases Bool.or_eq_true_iff.1 down with absent | gone
          · rw [beq_iff_eq.1 absent] at above
            exact absurd above (by decide)
          · simpa using gone
        split
        · rename_i left
          exact goes _ ⟨service,idle,by simpa using running,left⟩
        · exact goes _ trivial
      · exact goes _ trivial
    · exact goes _ trivial

theorem boot_sound (sound : Sound s) (small : s.kernel.current_pid.toNat + 1 < 2 ^ 31) (here : s.next = .boot i) (works : Bool) :
    Sound { run s i works false with next := .boot (i + 1) } := by
  have alive : s.next ≠ .dead := by simp [here]
  obtain ⟨running,idle⟩ : (∀ j, (s.jobs j).stopped = false) ∧ ∀ j, i ≤ j → Idle s.kernel j := by
    have control := sound.control
    rwa [Control,here] at control
  refine run_plain sound small alive (fun j => by simp [here]) (running i) (fun _ => idle i (Nat.le_refl i)) works
    (.boot (i + 1)) ⟨fun j => ?_,fun j above => ?_⟩
  · by_cases this : j = i
    · simp [run,setJob,this,running i]
    · simp [run,setJob,this,running j]
  · exact idle_run (idle j (by omega)) (by omega) works

theorem parse_lines_new {lines : List (List UInt8)} {before after : List Job} (parsed : parse_lines lines before = some after)
    (new : ∀ job ∈ before, job.retry = 0 ∧ job.stopped = false) : ∀ job ∈ after, job.retry = 0 ∧ job.stopped = false := by
  induction lines generalizing before with
  | nil =>
    obtain rfl := Option.some.inj parsed
    exact new
  | cons line rest ih =>
    rw [parse_lines] at parsed
    split at parsed
    · exact ih parsed new
    · split at parsed
      · refine ih parsed fun job member => ?_
        rcases List.mem_append.1 member with old | added
        · exact new job old
        · obtain ⟨j,-,rfl⟩ := Option.map_eq_some_iff.mp (Option.mem_toList.1 added)
          exact ⟨rfl,rfl⟩
      · cases parsed

theorem load_sound (sound : Sound s) (here : s.next = .load) {text : List UInt8} {loaded : List Job}
    (parsed : parse_config text = some loaded) :
    Sound { s with jobs := fun i => loaded.getD i Job.zero, job_count := loaded.length, next := .boot 0 } := by
  obtain ⟨zero,empty,idle⟩ : (∀ i, s.jobs i = Job.zero) ∧ s.log = [] ∧ ∀ i, Idle s.kernel i := by
    have control := sound.control
    rwa [Control,here] at control
  have new (j : Nat) : (loaded.getD j Job.zero).retry = 0 ∧ (loaded.getD j Job.zero).stopped = false := by
    rw [List.getD_eq_getElem?_getD]
    cases found : loaded[j]? with
    | none => exact ⟨rfl,rfl⟩
    | some job => exact parse_lines_new parsed (by simp) job (List.mem_of_getElem? found)
  refine ⟨sound.pids,fun task member j label => absurd label (idle j task member),?_,?_,?_⟩
  · refine ⟨fun j => ?_,fun j => ?_,fun j => ?_,?_,?_⟩
    · rw [empty,(new j).1]
      exact ⟨Nat.le_refl 0,Nat.zero_le _⟩
    · rw [empty]
      exact fun halts => by simp [halted] at halts
    · rw [(new j).2]
      simp
    · rw [empty]
      exact fun i => stays_nil
    · rw [empty]
      exact fun i => limited_nil
  · intro _ j stop
    rw [(new j).2] at stop
    cases stop
  · exact ⟨fun j => (new j).2,fun j _ => idle j⟩

/-! ### Steps -/

/-- Few tasks were started, and the configuration has no line behind its last possible job. -/
structure Small (s : State) (a : Action) : Prop where
  pids : s.kernel.current_pid.toNat + 1 < 2 ^ 31
  config : ∀ text input, s.next = .load → a = .call text input → parse_config text ≠ none

theorem call_sound (sound : Sound s) {text : List UInt8} {input : Input} (small : Small s (.call text input)) :
    ∃ s', call s text input = some s' ∧ Sound s' := by
  rw [call]
  cases here : s.next with
  | load =>
    obtain ⟨loaded,parsed⟩ := Option.ne_none_iff_exists'.1 (small.config text input here rfl)
    exact ⟨_,by rw [parsed]; rfl,load_sound sound here parsed⟩
  | boot i =>
    dsimp only
    have goes := sound_goes sound (by simp [here]) (fun j => by simp [here])
    have control := sound.control
    rw [Control,here] at control
    have skips : Sound { s with next := .boot (i + 1) } :=
      goes (.boot (i + 1)) ⟨control.1,fun j above => control.2 j (by omega)⟩
    split
    · exact ⟨_,rfl,goes _ trivial⟩
    · split
      · exact ⟨_,rfl,boot_sound sound small.pids here input.works⟩
      · exact ⟨_,rfl,boot_sound sound small.pids here input.works⟩
      · exact ⟨_,rfl,skips⟩
  | message_recv op =>
    dsimp only
    split
    · exact ⟨_,rfl,sound_finish sound (by simp [here]) (fun j => by simp [here]) op⟩
    · rename_i i found
      obtain ⟨name,-,found⟩ := Option.bind_eq_some_iff.1 found
      exact ⟨_,rfl,handle_sound sound here (find_service_spec found)⟩
  | check op i => exact ⟨_,rfl,checked_sound sound here⟩
  | kill op i =>
    dsimp only
    split
    · exact ⟨_,rfl,sound.pids,sound.instances,sound.ledger,fun dead => absurd rfl dead,trivial⟩
    · rename_i k' done
      exact ⟨_,rfl,killed_sound sound here done⟩
  | run op i =>
    dsimp only
    have control := sound.control
    rw [Control,here] at control
    obtain ⟨service,idle,running⟩ := control
    exact ⟨_,rfl,run_plain sound small.pids (by simp [here]) (fun j => by simp [here]) running (fun _ => idle) input.works
      (behind op) (control_behind (run s i input.works false) op)⟩
  | poll i => exact ⟨_,rfl,poll_sound sound small.pids here input.works input.due⟩
  | poll_run i =>
    dsimp only
    have control := sound.control
    rw [Control,here] at control
    obtain ⟨service,idle,running,left⟩ := control
    have polled := @run_sound s i { s.jobs i with
      pid := (run_command s.kernel i input.works).2, retry := (s.jobs i).retry + 1 } sound small.pids (by simp [here])
      (fun j => by simp [here]) running (fun _ => idle) input.works true rfl rfl rfl rfl left (.poll (i + 1)) trivial
    refine ⟨_,rfl,?_⟩
    have same : setJob (run s i input.works true) i
        { (run s i input.works true).jobs i with retry := ((run s i input.works true).jobs i).retry + 1 } =
        { setJob s i { s.jobs i with pid := (run_command s.kernel i input.works).2, retry := (s.jobs i).retry + 1 } with
          kernel := (run_command s.kernel i input.works).1, log := s.log ++ [.run i true] } := by
      simp [run,setJob]
    rw [same]
    exact polled
  | dead => exact ⟨_,rfl,sound⟩

/-- Other tasks come and go. -/
theorem kernel_sound (sound : Sound s) (pids : Pids k') (instances : Instances k' s.jobs)
    (idle : ∀ i, Idle s.kernel i → Idle k' i) : Sound { s with kernel := k' } := by
  refine ⟨pids,instances,sound.ledger,sound.stopped,?_⟩
  have control := sound.control
  rw [Control] at control ⊢
  dsimp only
  cases here : s.next with
  | load =>
    rw [here] at control
    exact ⟨control.1,control.2.1,fun i => idle i (control.2.2 i)⟩
  | boot i =>
    rw [here] at control
    exact ⟨control.1,fun j above => idle j (control.2 j above)⟩
  | message_recv op => trivial
  | check op i => rwa [here] at control
  | kill op i => rwa [here] at control
  | run op i =>
    rw [here] at control
    exact ⟨control.1,idle i control.2.1,control.2.2⟩
  | poll i => trivial
  | poll_run i =>
    rw [here] at control
    exact ⟨control.1,idle i control.2.1,control.2.2⟩
  | dead => trivial

theorem act_sound (sound : Sound s) {a : Action} (small : Small s a) : ∃ s', act s a = some s' ∧ Sound s' := by
  cases a with
  | call text input => exact call_sound sound small
  | exit_task place =>
    have fewer : (s.kernel.tasks.eraseIdx place).Sublist s.kernel.tasks := List.eraseIdx_sublist ..
    exact ⟨_,rfl,kernel_sound sound (pids_fewer sound.pids fewer rfl) (instances_fewer sound.instances fewer)
      fun i idle => idle_fewer idle fewer⟩
  | init_task =>
    exact ⟨_,rfl,kernel_sound sound (pids_init sound.pids small.pids none) (instances_init sound.instances)
      fun i idle => idle_init idle (by simp)⟩
  | exit_scheduler => exact ⟨_,rfl,sound.pids,sound.instances,sound.ledger,fun dead => absurd rfl dead,trivial⟩

theorem started_sound (started : Started s) : Sound s := by
  have idle (i : Nat) : Idle s.kernel i := by
    intro task member
    rw [(started.pids task member).2]
    simp
  refine ⟨⟨started.begun,fun task member => (started.pids task member).1,started.distinct⟩,
    fun task member i label => absurd label (idle i task member),⟨fun i => ?_,fun i => ?_,fun i => ?_,fun i => ?_,fun i => ?_⟩,
    fun _ i stop => ?_,?_⟩
  · rw [started.log,started.jobs]
    exact ⟨Nat.le_refl 0,Nat.zero_le _⟩
  · rw [started.log]
    exact fun halts => by simp [halted] at halts
  · rw [started.jobs]
    simp [Job.zero]
  · rw [started.log]
    exact stays_nil
  · rw [started.log]
    exact limited_nil
  · rw [started.jobs] at stop
    cases stop
  · rw [Control,started.next]
    exact ⟨started.jobs,started.log,idle⟩

/-- One instance of each service at most, none is started after a stop before the next start or
    restart of it, and few are restarted between messages. -/
structure Supervised (s : State) : Prop where
  single : ∀ i, (s.jobs i).type = .JOB_SERVICE → (s.kernel.tasks.countP fun task => task.job = some i) ≤ 1
  stays : ∀ i, Stays i s.log
  limited : ∀ i, Limited i s.log

theorem sound_supervised (sound : Sound s) : Supervised s := by
  refine ⟨fun i service => ?_,sound.ledger.stays,sound.ledger.limited⟩
  have same : ∀ task ∈ s.kernel.tasks, task.job = some i → task.pid = (s.jobs i).pid :=
    fun task member label => (sound.instances task member i label service).1.symm
  have more : (s.kernel.tasks.countP fun task => task.job = some i) ≤ (s.kernel.tasks.map Task.pid).count (s.jobs i).pid := by
    rw [List.count,List.countP_map]
    refine List.countP_mono_left fun task member label => ?_
    simpa using same task member (by simpa using label)
  exact more.trans (List.nodup_iff_count_le_one.1 sound.pids.distinct _)

end

/-- In every run with few tasks and a configuration that fits, the services are supervised. -/
theorem services_supervised {x : Option State} (reached : Reached (guarded services fun x a => ∀ s, x = some s → Small s a) x) :
    ∃ s, x = some s ∧ Supervised s := by
  have sound : ∃ s, x = some s ∧ Sound s := by
    refine @guarded_invariant _ _ _ _ (fun x => ∃ s, x = some s ∧ Sound s) ?_ ?_ x reached
    · rintro x ⟨s,rfl,started⟩
      exact ⟨s,rfl,started_sound started⟩
    · rintro x a y ⟨s,rfl,sound⟩ ⟨s',same,rfl⟩ small
      obtain rfl := Option.some.inj same
      exact act_sound sound (small s rfl)
  obtain ⟨s,rfl,sound⟩ := sound
  exact ⟨s,rfl,sound_supervised sound⟩

/-! ### One service -/

/-- `@service a` -/
def config : List UInt8 := Configuration.service ++ [32,97]

/-- Before the scheduler reads its configuration; the next task gets the pid. -/
def started (pid : Pid) : State := ⟨⟨[],pid⟩,fun _ => Job.zero,0,.load,[]⟩

def quiet : Input := ⟨none,true,false⟩

/-- A message for the service. -/
def asked : Input := ⟨some [97],true,false⟩

def after (s : State) (input : Input) : State := (call s config input).getD s

/-- The service runs. -/
def running (pid : Pid) : State := after (after (started pid) quiet) quiet

theorem started_started {pid : Pid} (begun : 0 < pid.toNat) : Started (started pid) :=
  ⟨rfl,fun _ => rfl,rfl,begun,by simp [started],by simp [started]⟩

def Action.file : Action → Option (List UInt8)
  | .call file _ => some file
  | _ => none

/-- A step that meets the condition, of a scheduler with the configuration `config`. -/
def small_act (x : Option State) (a : Action) : Option (Option State) :=
  match x with
  | none => none
  | some s => if s.kernel.current_pid.toNat + 1 < 2 ^ 31 ∧ a.file.all (· = config) then some (act s a) else none

theorem small_act_step (x : Option State) (a : Action) (y : Option State) (done : small_act x a = some y) :
    (guarded services fun x a => ∀ s, x = some s → Small s a).step x a y := by
  cases x with
  | none => cases done
  | some s =>
    obtain ⟨⟨few,read⟩,same⟩ := Option.ite_none_right_eq_some.mp done
    obtain rfl := Option.some.inj same
    refine ⟨⟨s,rfl,rfl⟩,fun s' same => ?_⟩
    obtain rfl := Option.some.inj same
    refine ⟨few,fun file input _ this => ?_⟩
    subst this
    obtain rfl : file = config := by simpa [Action.file] using read
    decide +kernel

/-- The service is started twice and exits, the scheduler runs it again, and it is stopped. -/
def run_and_stopped : List Action := [.call config quiet,.call config quiet,.call config quiet,.call config asked,.call config quiet,
  .exit_task 0,.call config quiet,.call config quiet,.call config quiet,.init_task,.call config quiet,.call config quiet,
  .call config quiet,.call config asked,.call config quiet,.call config quiet]

theorem run_and_stopped_supervised : ∃ s, Supervised s ∧
    s.log = [.run 0 false,.message .start 0,.run 0 true,.message .stop 0] ∧ (s.jobs 0).retry = 1 ∧ (s.jobs 0).stopped = true ∧
      s.kernel.tasks.map Task.pid = [8] := by
  obtain ⟨x,reached,facts⟩ := follows_reached small_act_step ⟨_,rfl,@started_started 7 (by decide)⟩ run_and_stopped
    (Option.map fun s => (s.log,(s.jobs 0).retry,(s.jobs 0).stopped,s.kernel.tasks.map Task.pid))
    (some ([.run 0 false,.message .start 0,.run 0 true,.message .stop 0],1,true,[8])) (by decide +kernel)
  obtain ⟨s,rfl,supervised⟩ := services_supervised reached
  exact ⟨s,supervised,by simpa only [Option.map_some,Option.some.injEq,Prod.mk.injEq] using facts⟩

/-- A configuration of one job too many, and the start of a service whose pid is negative. -/
theorem services_unsupervised : (¬ ∀ x, Reached services x → ∃ s, x = some s) ∧
    ¬ ∀ s, Reached services (some s) → Supervised s := by
  constructor
  · intro claimed
    let text : List UInt8 := (List.replicate (Configuration.MAX_JOBS + 1) (config ++ [10])).flatten
    have full : (parse_config text).isNone = true := by decide +kernel
    have lost : act (started 7) (.call text quiet) = none := by
      rw [act,call]
      simp only [started]
      rw [Option.isNone_iff_eq_none.1 full]
      rfl
    have reached : Reached services none :=
      ⟨some (started 7),[.call text quiet],⟨_,rfl,started_started (by decide)⟩,.step ⟨_,rfl,lost.symm⟩ (.done none)⟩
    obtain ⟨s,impossible⟩ := claimed none reached
    cases impossible
  · intro claimed
    let negative : Pid := 0x80000000
    let twice := after (after (after (running negative) quiet) asked) quiet
    have reached : Reached services (some twice) := by
      refine ⟨some (started negative),List.replicate 2 (.call config quiet) ++ [.call config quiet,.call config asked,.call config quiet],
        ⟨_,rfl,started_started (by decide)⟩,?_⟩
      exact .step ⟨_,rfl,rfl⟩ (.step ⟨_,rfl,rfl⟩ (.step ⟨_,rfl,rfl⟩ (.step ⟨_,rfl,rfl⟩ (.step ⟨_,rfl,rfl⟩ (.done _)))))
    have two : (twice.kernel.tasks.countP fun task => task.job = some 0) = 2 := by decide
    have one := (claimed twice reached).single 0 rfl
    rw [two] at one
    exact absurd one (by decide)

end MicroOS.Services

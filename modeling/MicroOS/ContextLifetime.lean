import MicroOS.Runs
import MicroOS.TaskExits

/-!
Which contexts the tasks point to while tasks are created and exit. A process owns
its context, its threads and theirs share it. Contexts are told apart by the order of
their creation, so a destroyed one is not confused with a later one in the same frames.
-/
namespace MicroOS.ContextLifetime
open Runs Tasks

/-- The contexts created so far, and those that `vmm_destroy_context` was called for. -/
structure Contexts where
  next : Nat
  destroyed : List Nat

def vmm_create_context (c : Contexts) : Nat × Contexts := (c.next,{ c with next := c.next + 1 })

def vmm_destroy_context (c : Contexts) (context : Nat) : Contexts := { c with destroyed := context :: c.destroyed }

/-- What `exit_task` releases of the memory modelled here. -/
def release (c : Contexts) (task : Task) : Contexts :=
  if task.parent = -1 then vmm_destroy_context c task.context else c

/-- The slot of the new task; `parent` is given for a thread. -/
def init_task (k : Kernel Contexts) (stack : Nat) (parent : Option Nat) : Option (Nat × Kernel Contexts) :=
  match find_empty_task_slot k, parent with
  | none, _ => none
  | some t, none =>
    let created := vmm_create_context k.memory
    some (t,init_slot { k with memory := created.2 } t stack created.1 (-1))
  | some t, some p => some (t,init_slot k t stack (k.tasks p).context (k.tasks p).pid)

def init_elf (k : Kernel Contexts) (stack : Nat) : Option (Kernel Contexts) :=
  match init_task k stack none with
  | none => none
  | some (t,k) => some (activate k t)

def sys_thread (k : Kernel Contexts) (self stack : Nat) : Option (Kernel Contexts) :=
  match init_task k stack (some self) with
  | none => none
  | some (t,k) => some (activate (resource_register_self k self (k.tasks t).pid) t)

/-- `self` is the slot of the calling task. -/
inductive Action
  | init_elf (stack : Nat)
  | sys_thread (self stack : Nat)
  | exit_task (self t patience : Nat)

def perform (k : Kernel Contexts) : Action → Option (Kernel Contexts)
  | .init_elf stack => init_elf k stack
  | .sys_thread self stack => if (k.tasks self).active then sys_thread k self stack else none
  | .exit_task self t patience =>
    if (k.tasks self).active ∧ (k.tasks t).active then some (exits release k self t patience) else none

def empty_slot : Task := ⟨false,false,0,0,0,0,[]⟩

def boot : Kernel Contexts := ⟨fun _ => empty_slot,0,⟨0,[]⟩⟩

def system : System (Kernel Contexts) Action where
  start k := k = boot
  step k a k' := perform k a = some k'

/-- No active task has a destroyed context, and none was destroyed twice. -/
def Lifetime (k : Kernel Contexts) : Prop :=
  (∀ t, (k.tasks t).active = true → (k.tasks t).context ∉ k.memory.destroyed) ∧ k.memory.destroyed.Nodup

/-- Every active task with the context of the task is the task or below it. -/
def Covered (k : Kernel Contexts) (t : Nat) : Prop :=
  ∀ u, (k.tasks u).active = true → (k.tasks u).context = (k.tasks t).context → Within k t u

/-- A process exits only while it covers its context, and `current_pid` does not overflow. -/
def Covers (k : Kernel Contexts) : Action → Prop
  | .init_elf _ => k.current_pid < 2 ^ 31 - 1
  | .sys_thread _ _ => k.current_pid < 2 ^ 31 - 1
  | .exit_task _ t _ => (k.tasks t).parent = -1 → Covered k t

structure Sound (k : Kernel Contexts) : Prop where
  ordered : Ordered k
  created : ∀ t, (k.tasks t).active = true → (k.tasks t).context < k.memory.next
  known : ∀ context ∈ k.memory.destroyed, context < k.memory.next
  lifetime : Lifetime k

/-- What a creation does: the new slot, the new task in it, and the caller's resources. -/
structure Created (k k' : Kernel Contexts) (t : Nat) : Prop where
  free : (k.tasks t).taken = false
  active : (k'.tasks t).active = true
  pid : (k'.tasks t).pid = k.current_pid
  active_iff : ∀ u, u ≠ t → (k'.tasks u).active = (k.tasks u).active
  context : ∀ u, u ≠ t → (k'.tasks u).context = (k.tasks u).context
  parent : ∀ u, u ≠ t → (k'.tasks u).parent = (k.tasks u).parent
  pids : ∀ u, u ≠ t → (k'.tasks u).pid = (k.tasks u).pid
  resources : ∀ u, u ≠ t → ∀ r ∈ (k.tasks u).resources, r ≠ 0 → r ∈ (k'.tasks u).resources
  destroyed : k'.memory.destroyed = k.memory.destroyed

variable {k k' : Kernel Contexts} {stack : Nat} {some_ : Nat → Prop}

theorem init_elf_spec (ordered : Ordered k) (room : k.current_pid < 2 ^ 31 - 1)
    (created : init_elf k stack = some k') : Ordered k' ∧ ∃ t, Created k k' t ∧ (k'.tasks t).parent = -1 ∧
      (k'.tasks t).context = k.memory.next ∧ k'.memory.next = k.memory.next + 1 := by
  unfold init_elf init_task at created
  cases found : find_empty_task_slot k with
  | none =>
    rw [found] at created
    cases created
  | some t =>
    obtain ⟨slot,free⟩ := find_empty_task_slot_some found
    rw [found] at created
    cases created
    let filled := init_slot { k with memory := (vmm_create_context k.memory).2 } t stack k.memory.next (-1)
    have ordered₁ : Ordered filled := ordered_init_slot (ordered_memory ordered (vmm_create_context k.memory).2) room ..
    have at_t : filled.tasks t = ⟨false,true,k.memory.next,stack,k.current_pid,-1,[]⟩ := init_slot_at ..
    have at_t' : (activate filled t).tasks t = ⟨true,true,k.memory.next,stack,k.current_pid,-1,[]⟩ := by
      rw [activate_at,at_t]
    have at_other (u : Nat) (other : u ≠ t) : (activate filled t).tasks u = k.tasks u :=
      (activate_other filled other).trans (init_slot_other _ other ..)
    refine ⟨ordered_activate ordered₁ slot (by rw [at_t]),t,⟨free,?_,?_,?_,?_,?_,?_,?_,rfl⟩,?_,?_,rfl⟩
    · exact congrArg Task.active at_t'
    · exact congrArg Task.pid at_t'
    · exact fun u other => congrArg Task.active (at_other u other)
    · exact fun u other => congrArg Task.context (at_other u other)
    · exact fun u other => congrArg Task.parent (at_other u other)
    · exact fun u other => congrArg Task.pid (at_other u other)
    · intro u other r member _
      show r ∈ ((activate filled t).tasks u).resources
      rw [at_other u other]
      exact member
    · exact congrArg Task.parent at_t'
    · exact congrArg Task.context at_t'

theorem sys_thread_spec {self : Nat} (ordered : Ordered k)
    (room : k.current_pid < 2 ^ 31 - 1) (caller : (k.tasks self).active = true)
    (created : sys_thread k self stack = some k') : Ordered k' ∧ ∃ t, Created k k' t ∧
      (k'.tasks t).parent = (k.tasks self).pid ∧ (k'.tasks t).context = (k.tasks self).context ∧
      (k'.tasks t).pid ∈ (k'.tasks self).resources ∧ k'.memory.next = k.memory.next := by
  unfold sys_thread init_task at created
  cases found : find_empty_task_slot k with
  | none =>
    rw [found] at created
    cases created
  | some t =>
    obtain ⟨slot,free⟩ := find_empty_task_slot_some found
    rw [found] at created
    cases created
    have pids := ordered.pids self (ordered.taken self caller)
    have other_self : self ≠ t := by
      intro same
      rw [same] at caller
      rw [ordered.taken t caller] at free
      cases free
    let filled := init_slot k t stack (k.tasks self).context (k.tasks self).pid
    have at_t : filled.tasks t = ⟨false,true,(k.tasks self).context,stack,k.current_pid,(k.tasks self).pid,[]⟩ :=
      init_slot_at ..
    have at_other (u : Nat) (other : u ≠ t) : filled.tasks u = k.tasks u := init_slot_other k other ..
    have ordered₁ : Ordered filled := ordered_init_slot ordered room ..
    have ordered₂ : Ordered (resource_register_self filled self (filled.tasks t).pid) := by
      refine ordered_register ordered₁ (by rw [at_t]) ?_ ?_
      · rw [at_t,at_other self other_self]
        exact pids.2
      · rw [at_t]
        dsimp only
        omega
    have at_t₂ : (resource_register_self filled self (filled.tasks t).pid).tasks t = filled.tasks t :=
      register_other filled other_self.symm _
    have at_t₃ : (activate (resource_register_self filled self (filled.tasks t).pid) t).tasks t =
        ⟨true,true,(k.tasks self).context,stack,k.current_pid,(k.tasks self).pid,[]⟩ := by
      rw [activate_at,at_t₂,at_t]
    have others (u : Nat) (other : u ≠ t) (elsewhere : u ≠ self) :
        (activate (resource_register_self filled self (filled.tasks t).pid) t).tasks u = k.tasks u :=
      ((activate_other _ other).trans (register_other filled elsewhere _)).trans (at_other u other)
    have at_self : (activate (resource_register_self filled self (filled.tasks t).pid) t).tasks self =
        { k.tasks self with resources := register (filled.tasks t).pid (k.tasks self).resources } := by
      rw [activate_other _ other_self,register_at,at_other self other_self]
    have field {β : Type} (f : Task → β) (same : ∀ task resources, f { task with resources := resources } = f task)
        (u : Nat) (other : u ≠ t) :
        f ((activate (resource_register_self filled self (filled.tasks t).pid) t).tasks u) = f (k.tasks u) := by
      by_cases here : u = self
      · rw [here,at_self]
        exact same ..
      · rw [others u other here]
    refine ⟨ordered_activate ordered₂ slot (by rw [at_t₂,at_t]),t,⟨free,?_,?_,?_,?_,?_,?_,?_,rfl⟩,?_,?_,?_,rfl⟩
    · exact congrArg Task.active at_t₃
    · exact congrArg Task.pid at_t₃
    · exact field Task.active (fun _ _ => rfl)
    · exact field Task.context (fun _ _ => rfl)
    · exact field Task.parent (fun _ _ => rfl)
    · exact field Task.pid (fun _ _ => rfl)
    · intro u other r member used
      by_cases here : u = self
      · show r ∈ ((activate (resource_register_self filled self (filled.tasks t).pid) t).tasks u).resources
        rw [here] at member ⊢
        rw [at_self]
        exact register_keeps member used
      · show r ∈ ((activate (resource_register_self filled self (filled.tasks t).pid) t).tasks u).resources
        rw [others u other here]
        exact member
    · exact congrArg Task.parent at_t₃
    · have context := congrArg Task.context at_t₃
      exact context
    · show ((activate (resource_register_self filled self (filled.tasks t).pid) t).tasks t).pid ∈
        ((activate (resource_register_self filled self (filled.tasks t).pid) t).tasks self).resources
      rw [at_self,at_t₃]
      show k.current_pid ∈ register (filled.tasks t).pid (k.tasks self).resources
      rw [at_t]
      exact register_registers ..

theorem sound_created {t : Nat} (sound : Sound k) (ordered : Ordered k') (created : Created k k' t)
    (next : k.memory.next ≤ k'.memory.next) (context : (k'.tasks t).context < k'.memory.next)
    (live : (k'.tasks t).context ∉ k.memory.destroyed) : Sound k' where
  ordered := ordered
  created u active := by
    by_cases here : u = t
    · rw [here]
      exact context
    · rw [created.active_iff u here] at active
      rw [created.context u here]
      exact (sound.created u active).trans_le next
  known c member := by
    rw [created.destroyed] at member
    exact (sound.known c member).trans_le next
  lifetime := by
    constructor
    · intro u active
      rw [created.destroyed]
      by_cases here : u = t
      · rw [here]
        exact live
      · rw [created.active_iff u here] at active
        rw [created.context u here]
        exact sound.lifetime.1 u active
    · rw [created.destroyed]
      exact sound.lifetime.2

/-- The threads that an exit tears down on the way release no context. -/
theorem torn_memory (torn : Torn release some_ k k') : k'.memory = k.memory := by
  induction torn with
  | start => rfl
  | deactivate _ _ _ ih => exact ih
  | @teardown k' u _ _ _ thread ih =>
    show release k'.memory (k'.tasks u) = k.memory
    unfold release
    rw [if_neg thread,ih]

theorem teardown_memory {last : Kernel Contexts} (torn : Torn release some_ k last) (t : Nat) :
    (teardown release last t).memory = release k.memory (k.tasks t) := by
  have fewer := torn_fewer torn
  show release last.memory (last.tasks t) = release k.memory (k.tasks t)
  unfold release
  rw [fewer.parent,fewer.context,torn_memory torn]

theorem sound_torn (sound : Sound k) (torn : Torn release some_ k k') : Sound k' where
  ordered := ordered_torn sound.ordered torn
  created t active := by
    have kept := (torn_fewer torn).kept t active
    rw [kept] at active ⊢
    rw [torn_memory torn]
    exact sound.created t active
  known := by
    rw [torn_memory torn]
    exact sound.known
  lifetime := by
    refine ⟨?_,?_⟩
    · intro t active
      have kept := (torn_fewer torn).kept t active
      rw [kept] at active ⊢
      rw [torn_memory torn]
      exact sound.lifetime.1 t active
    · rw [torn_memory torn]
      exact sound.lifetime.2

/-- The last step of an exit, that of the task itself. -/
theorem sound_teardown {last : Kernel Contexts} {t : Nat} (sound : Sound k) (active : (k.tasks t).active = true)
    (torn : Torn release (Within k t) k last) (gone : ∀ u, Within k t u → (last.tasks u).active = false)
    (covered : (k.tasks t).parent = -1 → Covered k t) : Sound (teardown release last t) := by
  have sound_last := sound_torn sound torn
  have fewer := torn_fewer torn
  have inactive := gone t (.inl rfl)
  have all : Fewer k (teardown release last t) := fewer_trans fewer (fewer_teardown release inactive)
  have released := teardown_memory torn t
  have ordered := ordered_teardown sound_last.ordered release inactive
  by_cases process : (k.tasks t).parent = -1
  · rw [show release k.memory (k.tasks t) = vmm_destroy_context k.memory (k.tasks t).context from if_pos process] at released
    have next : (teardown release last t).memory.next = k.memory.next := by rw [released]; rfl
    have destroyed : (teardown release last t).memory.destroyed = (k.tasks t).context :: k.memory.destroyed := by
      rw [released]
      rfl
    refine ⟨ordered,?_,?_,?_,?_⟩
    · intro u alive
      have kept := all.kept u alive
      rw [kept] at alive ⊢
      rw [next]
      exact sound.created u alive
    · intro c member
      rw [destroyed] at member
      rw [next]
      cases member with
      | head => exact sound.created t active
      | tail _ old => exact sound.known c old
    · intro u alive
      have kept := all.kept u alive
      have before := alive
      rw [kept] at before ⊢
      rw [destroyed]
      intro member
      cases List.mem_cons.mp member with
      | inl same =>
        have exited := inactive_fewer (fewer_teardown release inactive) (gone u (covered process u before same))
        rw [alive] at exited
        cases exited
      | inr old => exact sound.lifetime.1 u before old
    · rw [destroyed]
      exact List.nodup_cons.mpr ⟨sound.lifetime.1 t active,sound.lifetime.2⟩
  · rw [show release k.memory (k.tasks t) = k.memory from if_neg process] at released
    refine ⟨ordered,?_,?_,?_,?_⟩
    · intro u alive
      have kept := all.kept u alive
      rw [kept] at alive ⊢
      rw [released]
      exact sound.created u alive
    · rw [released]
      exact sound.known
    · intro u alive
      have kept := all.kept u alive
      rw [kept] at alive ⊢
      rw [released]
      exact sound.lifetime.1 u alive
    · rw [released]
      exact sound.lifetime.2

theorem sound_exits (sound : Sound k) {t : Nat} (active : (k.tasks t).active = true)
    (covered : (k.tasks t).parent = -1 → Covered k t) (self patience : Nat) : Sound (exits release k self t patience) := by
  rcases exits_spec release (ordered_sane sound.ordered) active self patience with torn | ⟨last,torn,gone,after⟩
  · exact sound_torn sound torn
  · rw [after]
    exact sound_teardown sound active torn gone covered

/-- A process that exits with a task of its context elsewhere leaves that task behind. -/
theorem covered_of_lifetime (sound : Sound k) {t : Nat} (active : (k.tasks t).active = true)
    (process : (k.tasks t).parent = -1) {self patience : Nat} (patient : Below k t self → 2 * MAX_TASKS ≤ patience)
    (lifetime : Lifetime (exits release k self t patience)) : Covered k t := by
  obtain ⟨last,torn,gone,after⟩ :=
    exit_finishes release (ordered_sane sound.ordered) (sound.ordered.slots t active) active patient
  rw [after] at lifetime
  have fewer := torn_fewer torn
  have destroyed : (teardown release last t).memory.destroyed = (k.tasks t).context :: k.memory.destroyed := by
    rw [teardown_memory torn]
    unfold release
    rw [if_pos process]
    rfl
  intro u alive same
  by_contra outside
  have still : (last.tasks u).active = true := by
    cases now : (last.tasks u).active with
    | true => rfl
    | false => exact absurd (torn_only torn alive now) outside
  have other : u ≠ t := fun here => outside (.inl here)
  have unchanged : (teardown release last t).tasks u = last.tasks u := Function.update_of_ne other ..
  refine lifetime.1 u ?_ ?_
  · rw [unchanged]
    exact still
  · rw [unchanged,fewer.context,same,destroyed]
    exact List.mem_cons_self

theorem sound_boot : Sound boot := by
  refine ⟨⟨le_refl _,?_,?_,?_,?_,?_,?_⟩,?_,?_,?_,List.nodup_nil⟩
  · intro t active
    cases active
  · intro t active
    cases active
  · intro t taken
    cases taken
  · intro t u taken
    cases taken
  · intro o r member
    cases member
  · intro o u taken
    cases taken
  · intro t active
    cases active
  · intro c member
    cases member
  · intro t active
    cases active

theorem perform_thread {self : Nat} (step : perform k (.sys_thread self stack) = some k') :
    (k.tasks self).active = true ∧ sys_thread k self stack = some k' := by
  by_cases caller : (k.tasks self).active = true
  · refine ⟨caller,?_⟩
    rwa [perform,if_pos caller] at step
  · rw [perform,if_neg caller] at step
    cases step

theorem perform_exit {self t patience : Nat} (step : perform k (.exit_task self t patience) = some k') :
    (k.tasks t).active = true ∧ exits release k self t patience = k' := by
  by_cases callers : (k.tasks self).active = true ∧ (k.tasks t).active = true
  · rw [perform,if_pos callers] at step
    exact ⟨callers.2,Option.some.inj step⟩
  · rw [perform,if_neg callers] at step
    cases step

theorem sound_perform {a : Action} (sound : Sound k) (step : perform k a = some k') (ok : Covers k a) : Sound k' := by
  cases a with
  | init_elf stack =>
    obtain ⟨ordered,t,created,-,context,next⟩ := init_elf_spec sound.ordered ok step
    refine sound_created sound ordered created (by omega) (by omega) ?_
    intro member
    have old := sound.known _ member
    omega
  | sys_thread self stack =>
    obtain ⟨caller,step⟩ := perform_thread step
    obtain ⟨ordered,t,created,-,context,-,next⟩ := sys_thread_spec sound.ordered ok caller step
    refine sound_created sound ordered created next.ge ?_ ?_
    · rw [context,next]
      exact sound.created self caller
    · rw [context]
      exact sound.lifetime.1 self caller
  | exit_task self t patience =>
    obtain ⟨active,after⟩ := perform_exit step
    rw [← after]
    exact sound_exits sound active ok self patience

theorem sound_reached (reached : Reached (guarded system Covers) k) : Sound k := by
  refine guarded_invariant ?_ ?_ reached
  · intro s begins
    rw [show s = boot from begins]
    exact sound_boot
  · exact fun s a t sound step ok => sound_perform sound step ok

/-- The actions one after the other. -/
def performs : List Action → Kernel Contexts → Option (Kernel Contexts)
  | [], k => some k
  | a :: rest, k =>
    match perform k a with
    | none => none
    | some k' => performs rest k'

theorem performs_run (as : List Action) (performed : performs as k = some k') : Run system as k k' := by
  induction as generalizing k with
  | nil =>
    rw [← Option.some.inj performed]
    exact .done _
  | cons a rest ih =>
    unfold performs at performed
    cases step : perform k a with
    | none =>
      rw [step] at performed
      cases performed
    | some mid =>
      rw [step] at performed
      exact .step step (ih performed)

/-- In runs where every process that exits covers its context, no active task ever has
    a destroyed context; and where it does not, exiting is what breaks this. -/
theorem lifetime_guarded {k : Kernel Contexts} (reached : Reached (guarded system Covers) k) :
    Lifetime k ∧ ∀ self t, (k.tasks self).active = true → (k.tasks t).active = true →
      ((∀ patience, Lifetime (exits release k self t patience)) ↔ ((k.tasks t).parent = -1 → Covered k t)) := by
  have sound := sound_reached reached
  refine ⟨sound.lifetime,?_⟩
  intro self t _ active
  constructor
  · intro always process
    exact covered_of_lifetime sound active process (fun _ => le_refl _) (always (2 * MAX_TASKS))
  · intro covered patience
    exact (sound_exits sound active covered self patience).lifetime

/-- A process with a thread exits, and another one is started in its slot. -/
theorem lifetime_next_process : ∃ k, performs [.init_elf 0,.sys_thread 0 0,.exit_task 0 0 0,.init_elf 0] boot = some k ∧
    Lifetime k ∧ k.memory.destroyed = [0] ∧ (k.tasks 0).active = true ∧ (k.tasks 0).context = 1 ∧ (k.tasks 1).active = false := by
  refine ⟨_,rfl,(lifetime_guarded ⟨boot,[.init_elf 0,.sys_thread 0 0,.exit_task 0 0 0,.init_elf 0],rfl,
    .step ⟨rfl,?_⟩ (.step ⟨rfl,?_⟩ (.step ⟨rfl,fun _ u active _ => ?_⟩ (.step ⟨rfl,?_⟩ (.done _))))⟩).1,?_,?_,?_,?_⟩
  · show boot.current_pid < 2 ^ 31 - 1
    decide +kernel
  · show next_pid boot.current_pid < 2 ^ 31 - 1
    decide +kernel
  · obtain rfl | rfl | ⟨v,rfl⟩ : u = 0 ∨ u = 1 ∨ ∃ v, u = v + 2 := by
      cases u with
      | zero => exact .inl rfl
      | succ u =>
        cases u with
        | zero => exact .inr (.inl rfl)
        | succ v => exact .inr (.inr ⟨v,rfl⟩)
    · exact .inl rfl
    · exact .inr (.single ⟨by decide,by decide +kernel,by decide +kernel,by decide +kernel⟩)
    · cases active
  · show next_pid (next_pid boot.current_pid) < 2 ^ 31 - 1
    decide +kernel
  · decide +kernel
  · decide +kernel
  · decide +kernel
  · decide +kernel

/-- A process with a thread that has two threads itself. -/
def nested : List Action := [.init_elf 0,.sys_thread 0 0,.sys_thread 1 0,.sys_thread 1 0]

/-- The first of the two ends the thread that created it. It goes with that thread, and as
    the timer takes the processor away the second one is left. Then the process exits. -/
theorem thread_left_behind : ∃ k, Reached system k ∧ (k.tasks 3).active = true ∧
    (k.tasks 3).context ∈ k.memory.destroyed := by
  have left : ∃ k, performs (nested ++ [.exit_task 2 1 0,.exit_task 0 0 0]) boot = some k ∧
      (k.tasks 3).active = true ∧ (k.tasks 3).context ∈ k.memory.destroyed := by
    refine ⟨_,rfl,?_,?_⟩
    · decide +kernel
    · decide +kernel
  obtain ⟨k,performed,active,destroyed⟩ := left
  exact ⟨k,⟨boot,_,rfl,performs_run _ performed⟩,active,destroyed⟩

/-- Where a task ends one that it is below, the timer leaves it enough time. -/
def Undisturbed (k : Kernel Contexts) : Action → Prop
  | .init_elf _ => k.current_pid < 2 ^ 31 - 1
  | .sys_thread _ _ => k.current_pid < 2 ^ 31 - 1
  | .exit_task self t patience => Below k t self → 2 * MAX_TASKS ≤ patience

/-- Every active task is a process or below an active one, which alone owns its context. -/
structure Chained (k : Kernel Contexts) : Prop where
  owner : ∀ u, (k.tasks u).active = true → ∃ p, (k.tasks p).active = true ∧ (k.tasks p).parent = -1 ∧
    (k.tasks p).context = (k.tasks u).context ∧ Within k p u
  alone : ∀ p q, (k.tasks p).active = true → (k.tasks q).active = true → (k.tasks p).parent = -1 →
    (k.tasks q).parent = -1 → (k.tasks p).context = (k.tasks q).context → p = q

theorem covered_of_chained (chained : Chained k) {t : Nat} (active : (k.tasks t).active = true)
    (process : (k.tasks t).parent = -1) : Covered k t := by
  intro u alive same
  obtain ⟨p,active_p,process_p,context,within⟩ := chained.owner u alive
  rw [chained.alone t p active active_p process process_p (same.symm.trans context.symm)]
  exact within

theorem below_created {t : Nat} (ordered : Ordered k) (created : Created k k' t) {p u : Nat}
    (active : (k.tasks p).active = true) (below : Below k p u) : Below k' p u := by
  have other (v : Nat) (alive : (k.tasks v).active = true) : v ≠ t := by
    intro here
    have free := created.free
    rw [← here,ordered.taken v alive] at free
    cases free
  have step (o v : Nat) (above : (k.tasks o).active = true) (owns : Owns k o v) : Owns k' o v := by
    obtain ⟨slot,alive,listed,used⟩ := owns
    have pid := created.pids v (other v alive)
    refine ⟨slot,?_,?_,?_⟩
    · rw [created.active_iff v (other v alive)]
      exact alive
    · rw [pid]
      exact created.resources o (other o above) _ listed used
    · rw [pid]
      exact used
  induction below with
  | single owns => exact .single (step _ _ active owns)
  | @tail v w chain owns ih =>
    have above : (k.tasks v).active = true := by
      cases chain with
      | single owns => exact owns.2.1
      | tail _ owns => exact owns.2.1
    exact ih.tail (step _ _ above owns)

/-- The other tasks keep their owners when a task is created. -/
theorem owner_created {t u : Nat} (ordered : Ordered k) (chained : Chained k)
    (created : Created k k' t) (active : (k.tasks u).active = true) : ∃ p, p ≠ t ∧ (k'.tasks p).active = true ∧
      (k'.tasks p).parent = -1 ∧ (k'.tasks p).context = (k.tasks u).context ∧ Within k' p u := by
  obtain ⟨p,alive,process,context,within⟩ := chained.owner u active
  have other : p ≠ t := by
    intro here
    have free := created.free
    rw [← here,ordered.taken p alive] at free
    cases free
  refine ⟨p,other,?_,?_,?_,?_⟩
  · rw [created.active_iff p other]
    exact alive
  · rw [created.parent p other]
    exact process
  · rw [created.context p other]
    exact context
  · cases within with
    | inl same => exact .inl same
    | inr below => exact .inr (below_created ordered created alive below)

section
variable {t : Nat} (chained : Chained k) (created : Created k k' t)
include chained created

theorem owner_still (ordered : Ordered k) {u : Nat} (other : u ≠ t) (active : (k'.tasks u).active = true) : ∃ p, (k'.tasks p).active = true ∧
    (k'.tasks p).parent = -1 ∧ (k'.tasks p).context = (k'.tasks u).context ∧ Within k' p u := by
  rw [created.active_iff u other] at active
  obtain ⟨p,-,alive,process,context,within⟩ := owner_created ordered chained created active
  exact ⟨p,alive,process,context.trans (created.context u other).symm,within⟩

theorem alone_still {p q : Nat} (here : p ≠ t) (there : q ≠ t) (active_p : (k'.tasks p).active = true)
    (active_q : (k'.tasks q).active = true) (process_p : (k'.tasks p).parent = -1) (process_q : (k'.tasks q).parent = -1)
    (same : (k'.tasks p).context = (k'.tasks q).context) : p = q := by
  rw [created.active_iff p here] at active_p
  rw [created.active_iff q there] at active_q
  rw [created.parent p here] at process_p
  rw [created.parent q there] at process_q
  rw [created.context p here,created.context q there] at same
  exact chained.alone p q active_p active_q process_p process_q same

end

theorem chained_process {t : Nat} (sound : Sound k) (chained : Chained k)
    (created : Created k k' t) (process : (k'.tasks t).parent = -1) (context : (k'.tasks t).context = k.memory.next) :
    Chained k' := by
  have old (u : Nat) (other : u ≠ t) (active : (k'.tasks u).active = true) : (k.tasks u).active = true := by
    rwa [created.active_iff u other] at active
  have fresh (u : Nat) (other : u ≠ t) (active : (k'.tasks u).active = true) :
      (k'.tasks u).context ≠ (k'.tasks t).context := by
    rw [created.context u other,context]
    exact (sound.created u (old u other active)).ne
  constructor
  · intro u active
    by_cases here : u = t
    · rw [here]
      exact ⟨t,created.active,process,rfl,.inl rfl⟩
    · exact owner_still chained created sound.ordered here active
  · intro p q active_p active_q process_p process_q same
    by_cases here : p = t <;> by_cases there : q = t
    · rw [here,there]
    · rw [here] at same
      exact absurd same.symm (fresh q there active_q)
    · rw [there] at same
      exact absurd same (fresh p here active_p)
    · exact alone_still chained created here there active_p active_q process_p process_q same

theorem chained_thread {self t : Nat} (ordered : Ordered k) (ordered' : Ordered k') (chained : Chained k)
    (created : Created k k' t) (caller : (k.tasks self).active = true) (parent : (k'.tasks t).parent = (k.tasks self).pid)
    (context : (k'.tasks t).context = (k.tasks self).context) (listed : (k'.tasks t).pid ∈ (k'.tasks self).resources) :
    Chained k' := by
  have pids := ordered.pids self (ordered.taken self caller)
  have thread : (k'.tasks t).parent ≠ -1 := by
    rw [parent]
    omega
  constructor
  · intro u active
    by_cases here : u = t
    · obtain ⟨p,-,alive,process,context_p,within⟩ := owner_created ordered chained created caller
      refine ⟨p,alive,process,?_,.inr ?_⟩
      · rw [here,context]
        exact context_p
      · have owns : Owns k' self t := by
          refine ⟨ordered'.slots t created.active,created.active,listed,?_⟩
          rw [created.pid]
          omega
        rw [here]
        cases within with
        | inl same =>
          rw [← same]
          exact .single owns
        | inr below => exact below.tail owns
    · exact owner_still chained created ordered here active
  · intro p q active_p active_q process_p process_q same
    have here : p ≠ t := by
      intro here
      rw [here] at process_p
      exact thread process_p
    have there : q ≠ t := by
      intro there
      rw [there] at process_q
      exact thread process_q
    exact alone_still chained created here there active_p active_q process_p process_q same

theorem chained_exits (ordered : Ordered k) (chained : Chained k) {t : Nat}
    (active : (k.tasks t).active = true) {self patience : Nat} (patient : Below k t self → 2 * MAX_TASKS ≤ patience) :
    Chained (exits release k self t patience) := by
  have sane := ordered_sane ordered
  obtain ⟨last,torn,gone,after⟩ := exit_finishes release sane (ordered.slots t active) active patient
  have inactive := gone t (.inl rfl)
  have last_fewer := fewer_teardown release inactive
  have fewer : Fewer k (teardown release last t) := fewer_trans (torn_fewer torn) last_fewer
  have cleared (u : Nat) (within : Within k t u) : ((teardown release last t).tasks u).active = false :=
    inactive_fewer last_fewer (gone u within)
  have only (u : Nat) (was : (k.tasks u).active = true) (is : ((teardown release last t).tasks u).active = false) :
      Within k t u := by
    by_cases here : u = t
    · exact .inl here
    · have unchanged : (teardown release last t).tasks u = last.tasks u := Function.update_of_ne here ..
      rw [unchanged] at is
      exact torn_only torn was is
  have whole (u v : Nat) (within : Within k t u) (below : Below k u v) :
      ((teardown release last t).tasks v).active = false := by
    refine cleared v (.inr ?_)
    cases within with
    | inl here => rwa [← here]
    | inr top => exact top.trans below
  rw [after]
  constructor
  · intro u alive
    have kept := fewer.kept u alive
    have before := alive
    rw [kept] at before
    obtain ⟨p,alive_p,process,context,within⟩ := chained.owner u before
    have still : ((teardown release last t).tasks p).active = true := by
      cases now : ((teardown release last t).tasks p).active with
      | true => rfl
      | false =>
        -- Only the exiting task itself can be a process that is gone, and it takes `u` along.
        have exited : ((teardown release last t).tasks u).active = false := by
          cases only p alive_p now with
          | inl here =>
            rw [here] at within
            exact cleared u within
          | inr below => exact absurd process (below_thread sane below)
        rw [alive] at exited
        cases exited
    have kept_p := fewer.kept p still
    refine ⟨p,still,?_,?_,?_⟩
    · rw [kept_p]
      exact process
    · rw [kept_p,kept]
      exact context
    · cases within with
      | inl same => exact .inl same
      | inr below => exact .inr (below_survives fewer only whole kept_p below alive)
  · intro p q active_p active_q process_p process_q same
    have kept_p := fewer.kept p active_p
    have kept_q := fewer.kept q active_q
    rw [kept_p] at active_p process_p same
    rw [kept_q] at active_q process_q same
    exact chained.alone p q active_p active_q process_p process_q same

theorem chained_reached (reached : Reached (guarded system Undisturbed) k) : Sound k ∧ Chained k := by
  refine @guarded_invariant _ _ _ _ (fun k => Sound k ∧ Chained k) ?_ ?_ _ reached
  · intro s begins
    rw [show s = boot from begins]
    refine ⟨sound_boot,?_,?_⟩
    · intro u active
      cases active
    · intro p q active
      cases active
  · intro k a k' holds step ok
    obtain ⟨sound,chained⟩ := holds
    cases a with
    | init_elf stack =>
      obtain ⟨-,t,created,process,context,-⟩ := init_elf_spec sound.ordered ok step
      exact ⟨sound_perform sound step ok,chained_process sound chained created process context⟩
    | sys_thread self stack =>
      obtain ⟨caller,made⟩ := perform_thread step
      obtain ⟨ordered',t,created,parent,context,listed,-⟩ := sys_thread_spec sound.ordered ok caller made
      exact ⟨sound_perform sound step ok,
        chained_thread sound.ordered ordered' chained created caller parent context listed⟩
    | exit_task self t patience =>
      obtain ⟨active,after⟩ := perform_exit step
      have covers : Covers k (.exit_task self t patience) := fun process => covered_of_chained chained active process
      refine ⟨sound_perform sound step covers,?_⟩
      rw [← after]
      exact chained_exits sound.ordered chained active ok

/-- When no exit is cut short, every process covers its context at any time. -/
theorem covered_undisturbed {k : Kernel Contexts} (reached : Reached (guarded system Undisturbed) k) :
    Lifetime k ∧ ∀ t, (k.tasks t).active = true → (k.tasks t).parent = -1 → Covered k t := by
  obtain ⟨sound,chained⟩ := chained_reached reached
  exact ⟨sound.lifetime,fun t active process => covered_of_chained chained active process⟩

/-- A thread ends the other one, and the process still covers its context. -/
theorem covered_thread_ended : ∃ k, performs [.init_elf 0,.sys_thread 0 0,.sys_thread 0 0,.exit_task 2 1 (2 * MAX_TASKS)] boot = some k ∧
    Covered k 0 ∧ (k.tasks 1).active = false ∧ (k.tasks 2).active = true ∧ (k.tasks 2).context = (k.tasks 0).context := by
  refine ⟨_,rfl,(covered_undisturbed ⟨boot,[.init_elf 0,.sys_thread 0 0,.sys_thread 0 0,.exit_task 2 1 (2 * MAX_TASKS)],rfl,
    .step ⟨rfl,?_⟩ (.step ⟨rfl,?_⟩ (.step ⟨rfl,?_⟩ (.step ⟨rfl,fun _ => Nat.le_refl _⟩ (.done _))))⟩).2 0 ?_ ?_,?_,?_,?_⟩
  · show boot.current_pid < 2 ^ 31 - 1
    decide +kernel
  · show next_pid boot.current_pid < 2 ^ 31 - 1
    decide +kernel
  · show next_pid (next_pid boot.current_pid) < 2 ^ 31 - 1
    decide +kernel
  · decide +kernel
  · decide +kernel
  · decide +kernel
  · decide +kernel
  · decide +kernel

end MicroOS.ContextLifetime

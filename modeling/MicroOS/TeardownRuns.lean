import MicroOS.Teardown

/-!
Sockets are torn down once. Each socket is in the table of the socket manager and has one
holder, a task or an asynchronous task (`Owners`); the polls that freed something are those
that reported it, one for each socket that is gone (`Books`). TCP sockets keep it so, when
tasks end only their own and find room for those they leave behind (`torn_down_once`).
-/
namespace MicroOS.Teardown
open Buffers OpenFiles TcpDemux BindTables Runs Holders
open Sockets (Socket Layer Blocks AsyncState STATE_INIT STATE_WAIT STATE_DONE Account Wired Owner buffer)
open Function (update update_of_ne update_self)
open Option (ite_none_left_eq_some map_eq_some_iff some.inj)

/-! ### The sockets by their ids -/

/-- What is known of a socket beside its data. -/
def named (net : Sockets.Kernel) (p : Nat) : Option (Layer × Nat) :=
  (net.socket_at p).map fun socket => (socket.layer,socket.socket_id)

/-- The polls that reported the end of a socket. -/
def dones (polls : List Poll) (socket_id : Nat) : Nat := polls.countP fun poll => poll.socket_id == socket_id && poll.done

/-- The table has the sockets, each with its id; a poll reports done when it freed the socket
    below, which happens once for each socket that is gone. -/
structure Books (names : Nat → Option (Layer × Nat)) (sockets : List Nat) (curr_socket : Nat) (polls : List Poll) : Prop where
  begun : SOCK_OFFSET ≤ curr_socket
  listed : ∀ p, p ∈ occupied sockets ↔ ∃ e, names p = some e
  distinct : (occupied sockets).Nodup
  ids : ∀ p layer id, names p = some (layer,id) → SOCK_OFFSET < id ∧ id ≤ curr_socket
  apart : ∀ p q layer layer' id, names p = some (layer,id) → names q = some (layer',id) → p = q
  agree : ∀ poll ∈ polls, poll.layer_freed = poll.done
  past : ∀ poll ∈ polls, poll.socket_id ≤ curr_socket
  undone : ∀ p layer id, names p = some (layer,id) → dones polls id = 0
  gone : ∀ id, SOCK_OFFSET < id → id ≤ curr_socket → (∃ p layer, names p = some (layer,id)) ∨ dones polls id = 1

inductive Holder where
  | task (t : Nat)
  | slot (i : Nat)
  deriving DecidableEq

def holds (tasks : Nat → OpenFiles.Task) (async_tasks : Nat → AsyncTask) : Holder → Nat → Prop
  | .task t, p => p ∈ occupied (tasks t).resources
  | .slot i, p => (async_tasks i).taken = true ∧ (async_tasks i).resource = some p

/-- Each socket has its holder; asynchronous tasks hold TCP sockets. -/
structure Owners (names : Nat → Option (Layer × Nat)) (tasks : Nat → OpenFiles.Task) (async_tasks : Nat → AsyncTask) : Prop where
  held : Held (holds tasks async_tasks) (fun p => ∃ e, names p = some e)
  single : ∀ t, (occupied (tasks t).resources).Nodup
  idle : ∀ t, (tasks t).active = false → (tasks t).resources = []
  slots : ∀ i p, holds tasks async_tasks (.slot i) p →
    (async_tasks i).state ≠ STATE_DONE ∧ ∃ t id, names p = some (.tcp t,id)

structure Kept (k : Kernel) : Prop where
  streams : ∃ a, Sockets.Kept (k.net,a)
  books : Books (named k.net) k.net.sockets k.net.curr_socket k.polls
  owners : Owners (named k.net) k.tasks k.async_tasks

section
variable {k : Kernel} {net net' : Sockets.Kernel} {names : Nat → Option (Layer × Nat)} {sockets : List Nat}
  {curr_socket : Nat} {polls : List Poll} {tasks : Nat → OpenFiles.Task} {async_tasks : Nat → AsyncTask}

theorem mem_occupied {p : Nat} {table : List Nat} : p ∈ occupied table ↔ p ∈ table ∧ p ≠ 0 := by
  rw [occupied,List.mem_filter]
  simp

theorem named_some {p : Nat} {e : Layer × Nat} :
    named net p = some e ↔ ∃ socket, net.socket_at p = some socket ∧ (socket.layer,socket.socket_id) = e :=
  map_eq_some_iff

variable {socket : Socket} {t q self socket_id : Nat} {place : Place} {state' : AsyncState}

theorem named_here {p : Nat} (here : net.socket_at p = some socket) :
    named net p = some (socket.layer,socket.socket_id) := named_some.2 ⟨socket,here,rfl⟩

theorem books_nonnull (books : Books names sockets curr_socket polls) {p : Nat} {e : Layer × Nat}
    (here : names p = some e) : p ≠ 0 := (mem_occupied.1 ((books.listed p).2 ⟨e,here⟩)).2

/-! ### The walk of the socket manager -/

/-- Over sockets that are all there the walk reads no freed block. -/
theorem walk_spec {socket_id : Nat} {table : List Nat}
    (there : ∀ p ∈ table, p ≠ 0 → ∃ socket, net.socket_at p = some socket) :
    (∃ p socket, socket_manager_walk net socket_id table = some (some p) ∧ net.socket_at p = some socket ∧
      socket.socket_id = socket_id) ∨
      socket_manager_walk net socket_id table = some none ∧
        ∀ p ∈ table, p ≠ 0 → ∀ socket, net.socket_at p = some socket → socket.socket_id ≠ socket_id := by
  induction table with
  | nil => exact .inr ⟨rfl,by simp⟩
  | cons q rest ih =>
    have later := ih fun p member => there p (List.mem_cons_of_mem _ member)
    rw [socket_manager_walk]
    by_cases null : q = 0
    · rw [if_pos null]
      refine later.imp id fun ⟨nothing,none_⟩ => ⟨nothing,fun p member nonnull => ?_⟩
      rcases List.mem_cons.mp member with same | member
      · exact absurd (same.trans null) nonnull
      · exact none_ p member nonnull
    · rw [if_neg null]
      obtain ⟨socket,here⟩ := there q List.mem_cons_self null
      rw [here]
      dsimp only
      by_cases same : socket.socket_id = socket_id
      · rw [if_pos same]
        exact .inl ⟨q,socket,rfl,here,same⟩
      · rw [if_neg same]
        refine later.imp id fun ⟨nothing,none_⟩ => ⟨nothing,fun p member nonnull socket' here' => ?_⟩
        rcases List.mem_cons.mp member with rfl | member
        · rw [here] at here'
          rw [← some.inj here']
          exact same
        · exact none_ p member nonnull socket' here'

theorem books_there (books : Books (named net) net.sockets curr_socket polls) :
    ∀ p ∈ net.sockets, p ≠ 0 → ∃ socket, net.socket_at p = some socket := by
  intro p member nonnull
  obtain ⟨e,here⟩ := (books.listed p).1 (mem_occupied.2 ⟨member,nonnull⟩)
  obtain ⟨socket,there,-⟩ := named_some.1 here
  exact ⟨socket,there⟩

/-- A socket is found under its id. -/
theorem find_socket (books : Books (named net) net.sockets curr_socket polls) {p : Nat}
    (here : net.socket_at p = some socket) :
    socket_manager_walk net socket.socket_id net.sockets = some (some p) := by
  rcases @walk_spec net socket.socket_id _ (books_there books) with ⟨q,socket',found,there,same⟩ | ⟨-,nothing⟩
  · have first := named_here there
    rw [same] at first
    rw [found,books.apart q p _ _ _ first (named_here here)]
  · obtain ⟨member,nonnull⟩ := mem_occupied.1 ((books.listed p).2 ⟨_,named_here here⟩)
    exact absurd rfl (nothing p member nonnull socket here)

/-! ### A TCP socket goes -/

/-- The streams of the others go on when a socket and its TCP socket are freed. -/
theorem streams_gone {a : Account} (kept : Sockets.Kept (net,a)) {p : Nat}
    (here : net.socket_at p = some socket) (layer : socket.layer = .tcp t) (table : List Nat) :
    ∃ h, kfree net.heap socket.received.data = some h ∧ ∃ a', Sockets.Kept ({ net with
      heap := h
      tcp_socket_at := fun q => if q = t then none else net.tcp_socket_at q
      socket_at := fun q => if q = p then none else net.socket_at q
      sockets := table },a') := by
  obtain ⟨wired,content,owned,accounted⟩ := kept
  have holds : Holds net.heap socket.received (content (.received p)) := by
    have := owned.holds (.received p)
    simpa [buffer,here] using this
  obtain ⟨h,freed,replaced⟩ : ∃ h, kfree net.heap socket.received.data = some h ∧ Replaced net.heap socket.received.data h 0 := by
    unfold kfree
    by_cases null : socket.received.data = 0
    · rw [if_pos null]
      exact ⟨_,rfl,fun _ _ _ => rfl,fun nonnull => absurd rfl nonnull⟩
    · rw [if_neg null]
      obtain ⟨block,there,-⟩ := holds_block holds null
      rw [there]
      exact ⟨_,rfl,fun _ other _ => setBlock_other _ other _,fun nonnull => absurd rfl nonnull⟩
  have backed := wired.socket p socket here
  rw [layer] at backed
  have above {q : Nat} {s : Socket} (found : net.socket_at q = some s) (other : s.layer ≠ .tcp t) : q ≠ p := by
    rintro rfl
    rw [here] at found
    exact other (some.inj found ▸ layer)
  refine ⟨h,freed,⟨update a.delivered (.tcp t) [],update a.returned p []⟩,?_,
    update content (.received p) [],?_,?_⟩
  · refine ⟨wired.binds,?_,?_,?_,wired.queue,wired.apart⟩
    · intro u s found
      refine (wired.udp u s found).imp id ?_
      rintro ⟨recv,over_,there,udp⟩
      exact ⟨recv,over_,(if_neg (above there (by rw [udp]; simp))).trans there,udp⟩
    · intro t' q found
      obtain ⟨other,found⟩ := ite_none_left_eq_some.1 found
      obtain ⟨s,there,tcp⟩ := wired.tcp t' q found
      exact ⟨s,(if_neg (above there (by rw [tcp]; simpa using other))).trans there,tcp⟩
    · intro q s found
      obtain ⟨other,there⟩ := ite_none_left_eq_some.1 found
      have backed' := wired.socket q s there
      cases layer' : s.layer with
      | udp u =>
        rw [layer'] at backed'
        exact backed'
      | tcp t' =>
        rw [layer'] at backed'
        refine (if_neg ?_).trans backed'
        rintro rfl
        exact other (Sockets.layer_unique wired there here (layer'.trans layer.symm))
  · have same : (buffer net (.received p)).data = socket.received.data := by simp [buffer,here]
    have buffer' : buffer { net with
        heap := h
        tcp_socket_at := fun q => if q = t then none else net.tcp_socket_at q
        socket_at := fun q => if q = p then none else net.socket_at q
        sockets := table } = update (buffer net) (.received p) ⟨0,0⟩ := by
      funext o
      cases o with
      | pending u => rfl
      | received q =>
        by_cases this : q = p
        · rw [this,update_self]
          simp [buffer]
        · rw [update_of_ne (by simpa using this)]
          simp [buffer,this]
    rw [buffer']
    exact owned_replaced owned (holds_null h) (by rw [same]; exact replaced)
  · refine ⟨?_,?_,?_,?_,?_⟩
    · intro q s found
      obtain ⟨other,there⟩ := ite_none_left_eq_some.1 found
      have layer' : s.layer ≠ .tcp t := fun same =>
        other (Sockets.layer_unique wired there here (same.trans layer.symm))
      have owner : Owner.received q ≠ .received p := by simpa using other
      simp only [update_of_ne layer',update_of_ne other,update_of_ne owner]
      exact accounted.socket q s there
    · intro u s found pending
      dsimp only
      rw [update_of_ne (by simp),update_of_ne (by simp)]
      exact accounted.child u s found pending
    · intro u none_
      dsimp only
      rw [update_of_ne (by simp)]
      exact accounted.no_udp u none_
    · intro t' none_
      dsimp only
      by_cases this : t' = t
      · rw [this,update_self]
      · rw [update_of_ne (by simpa using this)]
        exact accounted.no_tcp t' ((if_neg this).symm.trans none_)
    · intro q none_
      dsimp only
      by_cases this : q = p
      · rw [this,update_self]
      · rw [update_of_ne this]
        exact accounted.no_socket q ((if_neg this).symm.trans none_)

/-! ### The books -/

theorem dones_snoc (polls : List Poll) (poll : Poll) (id : Nat) :
    dones (polls ++ [poll]) id = dones polls id + if poll.socket_id = id ∧ poll.done = true then 1 else 0 := by
  rw [dones,dones,List.countP_append,List.countP_singleton]
  simp

/-- A poll that frees nothing and says so. -/
theorem books_polled (books : Books names sockets curr_socket polls) {id : Nat} (known : id ≤ curr_socket) :
    Books names sockets curr_socket (polls ++ [⟨id,false,false⟩]) := by
  have same (other : Nat) : dones (polls ++ [⟨id,false,false⟩]) other = dones polls other := by
    rw [dones_snoc]
    simp
  refine ⟨books.begun,books.listed,books.distinct,books.ids,books.apart,?_,?_,?_,?_⟩
  · exact List.forall_mem_append.2 ⟨books.agree,List.forall_mem_singleton.2 rfl⟩
  · exact List.forall_mem_append.2 ⟨books.past,List.forall_mem_singleton.2 known⟩
  · intro p layer other here
    rw [same]
    exact books.undone p layer other here
  · intro other low high
    rw [same]
    exact books.gone other low high

/-- The poll that frees a socket. -/
theorem books_gone (books : Books names sockets curr_socket polls) {p id : Nat} {layer : Layer}
    (here : names p = some (layer,id)) :
    Books (update names p none) (clear_first p sockets) curr_socket (polls ++ [⟨id,true,true⟩]) := by
  have nonnull : p ≠ 0 := books_nonnull books here
  have known : id ≤ curr_socket := (books.ids p layer id here).2
  have others {q : Nat} {e : Layer × Nat} (there : update names p none q = some e) : q ≠ p ∧ names q = some e := by
    rw [Function.update_apply] at there
    exact ite_none_left_eq_some.1 there
  have elsewhere {q : Nat} {layer' : Layer} {other : Nat} (there : names q = some (layer',other)) (apart : q ≠ p) :
      dones (polls ++ [⟨id,true,true⟩]) other = 0 := by
    have different : id ≠ other := by
      rintro rfl
      exact apart (books.apart q p layer' layer id there here)
    rw [dones_snoc,books.undone q layer' other there]
    simp [different]
  refine ⟨books.begun,?_,?_,?_,?_,?_,?_,?_,?_⟩
  · intro q
    rw [occupied_clear_first nonnull,books.distinct.mem_erase_iff,books.listed]
    constructor
    · rintro ⟨other,e,there⟩
      exact ⟨e,by rw [update_of_ne other,there]⟩
    · rintro ⟨e,there⟩
      obtain ⟨other,there⟩ := others there
      exact ⟨other,e,there⟩
  · rw [occupied_clear_first nonnull]
    exact books.distinct.erase p
  · intro q layer' other there
    exact books.ids q layer' other (others there).2
  · intro q r layer' layer'' other first second
    exact books.apart q r layer' layer'' other (others first).2 (others second).2
  · exact List.forall_mem_append.2 ⟨books.agree,List.forall_mem_singleton.2 rfl⟩
  · exact List.forall_mem_append.2 ⟨books.past,List.forall_mem_singleton.2 known⟩
  · intro q layer' other there
    obtain ⟨apart,there⟩ := others there
    exact elsewhere there apart
  · intro other low high
    by_cases this : other = id
    · rw [this,dones_snoc,books.undone p layer id here]
      exact .inr (by simp)
    · rcases books.gone other low high with ⟨q,layer',there⟩ | ended
      · have apart : q ≠ p := by
          rintro rfl
          rw [here] at there
          exact this (congrArg Prod.snd (some.inj there)).symm
        exact .inl ⟨q,layer',by rw [update_of_ne apart,there]⟩
      · rw [dones_snoc,ended]
        exact .inr (by simp [Ne.symm this])

/-- A new socket gets the next id. -/
theorem books_new (books : Books names sockets curr_socket polls) {p : Nat} (nonnull : p ≠ 0) (free : names p = none)
    (layer : Layer) :
    Books (update names p (some (layer,curr_socket + 1))) (store_first p sockets).1 (curr_socket + 1) polls := by
  have stored := occupied_store_first nonnull sockets
  have there {q : Nat} {layer' : Layer} {id : Nat}
      (found : update names p (some (layer,curr_socket + 1)) q = some (layer',id)) :
      q = p ∧ id = curr_socket + 1 ∨ q ≠ p ∧ names q = some (layer',id) := by
    by_cases this : q = p
    · rw [this,update_self] at found
      exact .inl ⟨this,(congrArg Prod.snd (some.inj found)).symm⟩
    · rw [update_of_ne this] at found
      exact .inr ⟨this,found⟩
  have next (poll : Poll) (member : poll ∈ polls) : poll.socket_id ≠ curr_socket + 1 := by
    have := books.past poll member
    omega
  refine ⟨books.begun.trans (Nat.le_succ _),?_,?_,?_,?_,books.agree,fun poll member => (books.past poll member).trans (Nat.le_succ _),?_,?_⟩
  · intro q
    rw [stored.mem_iff,List.mem_cons,books.listed]
    by_cases this : q = p
    · rw [this,update_self]
      exact ⟨fun _ => ⟨_,rfl⟩,fun _ => .inl rfl⟩
    · rw [update_of_ne this]
      exact ⟨fun either => either.resolve_left this,.inr⟩
  · refine stored.nodup_iff.2 (List.nodup_cons.2 ⟨fun member => ?_,books.distinct⟩)
    obtain ⟨e,found⟩ := (books.listed p).1 member
    rw [free] at found
    cases found
  · intro q layer' id found
    rcases there found with ⟨-,rfl⟩ | ⟨-,found⟩
    · exact ⟨Nat.lt_succ_of_le books.begun,Nat.le_refl _⟩
    · have := books.ids q layer' id found
      omega
  · intro q r layer' layer'' id first second
    rcases there first with ⟨is,here⟩ | ⟨-,here⟩
    · rcases there second with ⟨same,-⟩ | ⟨-,known⟩
      · exact is.trans same.symm
      · have := (books.ids r layer'' id known).2
        omega
    · rcases there second with ⟨-,last⟩ | ⟨-,known⟩
      · have := (books.ids q layer' id here).2
        omega
      · exact books.apart q r layer' layer'' id here known
  · intro q layer' id found
    rcases there found with ⟨-,rfl⟩ | ⟨-,found⟩
    · rw [dones,List.countP_eq_zero]
      intro poll member
      simp [next poll member]
    · exact books.undone q layer' id found
  · intro id low high
    by_cases this : id = curr_socket + 1
    · exact .inl ⟨p,layer,by rw [update_self,this]⟩
    · rcases books.gone id low (by omega) with ⟨q,layer',found⟩ | ended
      · have other : q ≠ p := by
          rintro rfl
          rw [free] at found
          cases found
        exact .inl ⟨q,layer',by rw [update_of_ne other,found]⟩
      · exact .inr ended

/-! ### The holders -/

theorem named_update {p : Nat} {e : Option (Layer × Nat)} :
    (∃ x, update names p e q = some x) ↔ q ≠ p ∧ (∃ x, names q = some x) ∨ q = p ∧ ∃ x, e = some x := by
  by_cases this : q = p
  · rw [this,update_self]
    simp
  · rw [update_of_ne this]
    simp [this]

theorem holds_task_update {task : OpenFiles.Task} {h : Holder} : holds (update tasks self task) async_tasks h q ↔
      if h = .task self then q ∈ occupied task.resources else holds tasks async_tasks h q := by
  cases h with
  | slot i => simp [holds]
  | task t =>
    by_cases this : t = self
    · rw [if_pos (by rw [this]),holds,this,update_self]
    · rw [if_neg (by simpa using this),holds,update_of_ne this,holds]

theorem holds_slot_update {i : Nat} {task : AsyncTask} {h : Holder} : holds tasks (update async_tasks i task) h q ↔
      if h = .slot i then task.taken = true ∧ task.resource = some q else holds tasks async_tasks h q := by
  cases h with
  | task t => simp [holds]
  | slot j =>
    by_cases this : j = i
    · rw [if_pos (by rw [this]),holds,this,update_self]
    · rw [if_neg (by simpa using this),holds,update_of_ne this,holds]

/-- Tasks that hold what they held. -/
theorem owners_tasks (owners : Owners names tasks async_tasks) {tasks' : Nat → OpenFiles.Task}
    (same : ∀ t, occupied (tasks' t).resources = occupied (tasks t).resources)
    (idle : ∀ t, (tasks' t).active = false → (tasks' t).resources = []) : Owners names tasks' async_tasks := by
  have still (h : Holder) (q : Nat) : holds tasks' async_tasks h q ↔ holds tasks async_tasks h q := by
    cases h with
    | task t => rw [holds,holds,same]
    | slot i => rfl
  refine ⟨held_same owners.held still fun _ => Iff.rfl,?_,idle,?_⟩
  · intro t
    rw [same]
    exact owners.single t
  · intro i q holder
    exact owners.slots i q ((still _ q).1 holder)

/-- A slot holds what it held, in another state or for other code. -/
theorem owners_slot (owners : Owners names tasks async_tasks) {i : Nat} {task : AsyncTask}
    (same : ∀ q, task.taken = true ∧ task.resource = some q ↔ holds tasks async_tasks (.slot i) q)
    (polls : task.taken = true → task.resource ≠ none → task.state ≠ STATE_DONE) :
    Owners names tasks (update async_tasks i task) := by
  have still (h : Holder) (q : Nat) : holds tasks (update async_tasks i task) h q ↔ holds tasks async_tasks h q := by
    rw [holds_slot_update]
    by_cases this : h = .slot i
    · rw [if_pos this,this]
      exact same q
    · rw [if_neg this]
  refine ⟨held_same owners.held still fun _ => Iff.rfl,owners.single,owners.idle,?_⟩
  intro j q holder
  refine ⟨?_,(owners.slots j q ((still _ q).1 holder)).2⟩
  by_cases this : j = i
  · rw [this,holds,update_self] at holder
    rw [this,update_self]
    exact polls holder.1 (by rw [holder.2]; simp)
  · rw [update_of_ne this]
    exact (owners.slots j q ((still _ q).1 holder)).1

/-- A new socket is the calling task's. -/
theorem owners_new (owners : Owners names tasks async_tasks) {p : Nat} (nonnull : p ≠ 0) (free : names p = none)
    (active : (tasks self).active = true) (e : Layer × Nat) :
    Owners (update names p (some e))
      (update tasks self { tasks self with resources := (store_first p (tasks self).resources).1 }) async_tasks := by
  have stored := occupied_store_first nonnull (tasks self).resources
  have dead : ¬ ∃ e, names p = some e := by
    rintro ⟨e,here⟩
    rw [free] at here
    cases here
  have unheld (h : Holder) : ¬ holds tasks async_tasks h p := fun holder => dead ((owners.held.live p).2 ⟨h,holder⟩)
  refine ⟨?_,?_,?_,?_⟩
  · refine @held_new _ _ _ _ _ _ p (.task self) owners.held dead ?_ ?_
    · intro h q
      rw [holds_task_update]
      by_cases this : h = .task self
      · rw [if_pos this,this]
        simp only [stored.mem_iff,List.mem_cons,holds,true_and]
        exact or_comm
      · simp [this]
    · intro q
      rw [named_update]
      by_cases this : q = p
      · simp [this]
      · simp [this]
  · intro t
    by_cases this : t = self
    · rw [this,update_self]
      exact stored.nodup_iff.2 (List.nodup_cons.2 ⟨unheld (.task self),owners.single self⟩)
    · rw [update_of_ne this]
      exact owners.single t
  · intro t inactive
    by_cases this : t = self
    · rw [this,update_self] at inactive
      exact absurd (active.symm.trans inactive) (by simp)
    · rw [update_of_ne this] at inactive ⊢
      exact owners.idle t inactive
  · intro i q holder
    obtain ⟨state,t,id,here⟩ := owners.slots i q holder
    have other : q ≠ p := by
      rintro rfl
      have slot : holds tasks async_tasks (.slot i) q := holder
      exact unheld _ slot
    exact ⟨state,t,id,by rw [update_of_ne other,here]⟩

/-- The sockets of a table without one of them. -/
theorem occupied_unregister (p : Nat) (table : List Nat) :
    occupied (table.map fun r => if r = p then 0 else r) = (occupied table).filter (· ≠ p) := by
  induction table with
  | nil => rfl
  | cons r rest ih =>
    rw [List.map_cons]
    by_cases null : r = 0
    · have skipped : (if r = p then 0 else r) = 0 := by rw [null,ite_self]
      rw [skipped,null]
      exact ih
    · have used : occupied (r :: rest) = r :: occupied rest := by simp [occupied,null]
      rw [used]
      by_cases this : r = p
      · rw [if_pos this,List.filter_cons_of_neg (by simpa using this)]
        exact ih
      · have still : occupied (r :: rest.map fun r => if r = p then 0 else r) =
            r :: occupied (rest.map fun r => if r = p then 0 else r) := by simp [occupied,null]
        rw [if_neg this,List.filter_cons_of_pos (by simpa using this),still,ih]

/-- A task ends its own socket. -/
theorem owners_gone_task (owners : Owners names tasks async_tasks) {p : Nat} (own : p ∈ occupied (tasks self).resources) :
    Owners (update names p none)
      (update tasks self { tasks self with
        resources := (tasks self).resources.map fun r => if r = p then 0 else r }) async_tasks := by
  have alone {h : Holder} (holder : holds tasks async_tasks h p) : h = .task self := owners.held.alone h _ p holder own
  refine ⟨?_,?_,?_,?_⟩
  · refine @held_gone _ _ _ _ _ _ p owners.held ?_ ?_
    · intro h q
      rw [holds_task_update]
      by_cases this : h = .task self
      · rw [if_pos this,occupied_unregister,List.mem_filter,this]
        simp [holds]
      · rw [if_neg this]
        refine ⟨fun holder => ⟨holder,?_⟩,And.left⟩
        rintro rfl
        exact this (alone holder)
    · intro q
      rw [named_update]
      simp [and_comm]
  · intro t
    by_cases this : t = self
    · rw [this,update_self,occupied_unregister]
      exact (owners.single self).filter _
    · rw [update_of_ne this]
      exact owners.single t
  · intro t inactive
    by_cases this : t = self
    · rw [this,update_self] at inactive ⊢
      rw [owners.idle self inactive]
      rfl
    · rw [update_of_ne this] at inactive ⊢
      exact owners.idle t inactive
  · intro i q holder
    obtain ⟨state,t,id,here⟩ := owners.slots i q holder
    have other : q ≠ p := by
      rintro rfl
      have slot : holds tasks async_tasks (.slot i) q := holder
      cases alone slot
    exact ⟨state,t,id,by rw [update_of_ne other,here]⟩

/-- An asynchronous task ends its socket and leaves the slot. -/
theorem owners_gone_slot (owners : Owners names tasks async_tasks) {p i : Nat} (own : holds tasks async_tasks (.slot i) p)
    {task : AsyncTask} (left : task.taken = false) :
    Owners (update names p none) tasks (update async_tasks i task) := by
  have alone {h : Holder} (holder : holds tasks async_tasks h p) : h = .slot i := owners.held.alone h _ p holder own
  have still (h : Holder) (q : Nat) : holds tasks (update async_tasks i task) h q ↔
      holds tasks async_tasks h q ∧ q ≠ p := by
    rw [holds_slot_update]
    by_cases this : h = .slot i
    · rw [if_pos this,left,this]
      refine ⟨fun none_ => by simp at none_,fun ⟨holder,other⟩ => absurd ?_ other⟩
      exact some.inj (holder.2.symm.trans own.2)
    · rw [if_neg this]
      refine ⟨fun holder => ⟨holder,?_⟩,And.left⟩
      rintro rfl
      exact this (alone holder)
  refine ⟨held_gone owners.held still ?_,owners.single,owners.idle,?_⟩
  · intro q
    rw [named_update]
    simp [and_comm]
  · intro j q holder
    obtain ⟨before,other⟩ := (still _ q).1 holder
    have slot : j ≠ i := by
      rintro rfl
      exact other (some.inj (before.2.symm.trans own.2))
    obtain ⟨state,t,id,here⟩ := owners.slots j q before
    exact ⟨by rw [update_of_ne slot]; exact state,t,id,by rw [update_of_ne other,here]⟩

/-! ### Exits -/

/-- The slots that are not taken. -/
def free_slots (async_tasks : Nat → AsyncTask) : Finset Nat :=
  (Finset.range MAX_ASYNC_TASKS).filter fun i => (async_tasks i).taken = false

theorem free_slot_spec (n : Nat) :
    (∃ i, free_slot async_tasks n = some i ∧ i < n ∧ (async_tasks i).taken = false) ∨
      free_slot async_tasks n = none ∧ ∀ i < n, (async_tasks i).taken = true := by
  induction n with
  | zero => exact .inr ⟨rfl,by simp⟩
  | succ n ih =>
    rw [free_slot]
    cases taken : (async_tasks n).taken with
    | false =>
      rw [if_neg (by simp)]
      exact .inl ⟨n,rfl,Nat.lt_succ_self n,taken⟩
    | true =>
      rw [if_pos rfl]
      rcases ih with ⟨i,found,below,free⟩ | ⟨none_,all⟩
      · exact .inl ⟨i,found,Nat.lt_succ_of_lt below,free⟩
      · refine .inr ⟨none_,fun i below => ?_⟩
        rcases Nat.lt_succ_iff_lt_or_eq.1 below with before | same
        · exact all i before
        · rw [same,taken]

theorem free_slots_taken {i : Nat} (below : i < MAX_ASYNC_TASKS) (free : (async_tasks i).taken = false) {task : AsyncTask}
    (taken : task.taken = true) : (free_slots (update async_tasks i task)).card + 1 = (free_slots async_tasks).card := by
  have member : i ∈ free_slots async_tasks := Finset.mem_filter.2 ⟨Finset.mem_range.2 below,free⟩
  have erased : free_slots (update async_tasks i task) = (free_slots async_tasks).erase i := by
    ext j
    simp only [free_slots,Finset.mem_filter,Finset.mem_range,Finset.mem_erase]
    by_cases this : j = i
    · simp [this,taken]
    · simp [this]
  rw [erased,Finset.card_erase_add_one member]

/-- One socket of a task that exits goes to a free slot. -/
theorem owners_moved (owners : Owners names tasks async_tasks) {r i : Nat} {rest : List Nat} {layer id : Nat}
    (listed : (tasks t).resources = r :: rest) (tcp : names r = some (.tcp layer,id)) (nonnull : r ≠ 0)
    (free : (async_tasks i).taken = false) :
    Owners names (update tasks t ⟨true,rest⟩) (update async_tasks i ⟨true,some r,STATE_INIT⟩) := by
  have used : occupied (tasks t).resources = r :: occupied rest := by
    rw [listed]
    simp [occupied,nonnull]
  have own : holds tasks async_tasks (.task t) r := by
    rw [holds,used]
    exact List.mem_cons_self
  have alone {h : Holder} (holder : holds tasks async_tasks h r) : h = .task t := owners.held.alone h _ r holder own
  have once := owners.single t
  rw [used,List.nodup_cons] at once
  have moved (g : Holder) (q : Nat) :
      holds (update tasks t ⟨true,rest⟩) (update async_tasks i ⟨true,some r,STATE_INIT⟩) g q ↔
        holds tasks async_tasks g q ∧ q ≠ r ∨ g = .slot i ∧ q = r := by
    rw [holds_slot_update]
    by_cases slot : g = .slot i
    · have empty : ¬ holds tasks async_tasks (.slot i) q := fun holder => by simp [holds,free] at holder
      rw [if_pos slot,slot]
      simp [empty,eq_comm]
    · rw [if_neg slot,holds_task_update]
      by_cases this : g = .task t
      · rw [if_pos this,this,holds,used,List.mem_cons]
        constructor
        · refine fun member => .inl ⟨.inr member,?_⟩
          rintro rfl
          exact once.1 member
        · rintro (⟨either,other⟩ | ⟨impossible,-⟩)
          · exact either.resolve_left other
          · cases impossible
      · rw [if_neg this]
        refine ⟨fun holder => .inl ⟨holder,?_⟩,fun either => ?_⟩
        · rintro rfl
          exact this (alone holder)
        · rcases either with ⟨holder,-⟩ | ⟨impossible,-⟩
          · exact holder
          · exact absurd impossible slot
  refine ⟨held_moved owners.held own moved,?_,?_,?_⟩
  · intro u
    by_cases this : u = t
    · rw [this,update_self]
      exact once.2
    · rw [update_of_ne this]
      exact owners.single u
  · intro u inactive
    by_cases this : u = t
    · rw [this,update_self] at inactive
      cases inactive
    · rw [update_of_ne this] at inactive ⊢
      exact owners.idle u inactive
  · intro j q holder
    rcases (moved _ q).1 holder with ⟨before,-⟩ | ⟨slot,rfl⟩
    · have other : j ≠ i := by
        rintro rfl
        exact absurd (before.1.symm.trans free) (by simp)
      rw [update_of_ne other]
      exact owners.slots j q before
    · obtain rfl := Holder.slot.inj slot
      rw [update_self]
      exact ⟨show STATE_INIT ≠ STATE_DONE by decide,layer,id,tcp⟩

theorem dealloc_frame (k : Kernel) (rs : List Nat) : ∃ async_tasks, resource_dealloc k rs = { k with async_tasks := async_tasks } := by
  induction rs generalizing k with
  | nil => exact ⟨k.async_tasks,rfl⟩
  | cons r rest ih =>
    rw [resource_dealloc]
    by_cases null : r = 0
    · rw [if_pos null]
      exact ih k
    · rw [if_neg null,sys_connect_dealloc]
      split
      · obtain ⟨async_tasks,same⟩ := ih (setAsync k _ ⟨true,some r,STATE_INIT⟩)
        exact ⟨async_tasks,by rw [same]; rfl⟩
      · exact ih k

/-- The sockets of a task are TCP sockets, and there is a slot for each. -/
def Leaves (k : Kernel) (t : Nat) : Prop :=
  (∀ p ∈ occupied (k.tasks t).resources, ∃ layer id, named k.net p = some (.tcp layer,id)) ∧
    (occupied (k.tasks t).resources).length ≤ (free_slots k.async_tasks).card

theorem dealloc_owners (rs : List Nat) (k : Kernel) (owners : Owners names (update tasks t ⟨true,rs⟩) k.async_tasks)
    (tcp : ∀ p ∈ occupied rs, ∃ layer id, names p = some (.tcp layer,id))
    (room : (occupied rs).length ≤ (free_slots k.async_tasks).card) :
    Owners names (update tasks t ⟨true,[]⟩) (resource_dealloc k rs).async_tasks := by
  induction rs generalizing k with
  | nil => exact owners
  | cons r rest ih =>
    rw [resource_dealloc]
    by_cases null : r = 0
    · rw [if_pos null]
      have same : occupied (r :: rest) = occupied rest := by simp [occupied,null]
      rw [same] at tcp room
      refine ih k ?_ tcp room
      refine owners_tasks owners ?_ ?_
      · intro u
        by_cases this : u = t
        · rw [this,update_self,update_self,same]
        · rw [update_of_ne this,update_of_ne this]
      · intro u inactive
        have before := owners.idle u
        by_cases this : u = t
        · rw [this,update_self] at inactive
          cases inactive
        · rw [update_of_ne this] at before inactive ⊢
          exact before inactive
    · have used : occupied (r :: rest) = r :: occupied rest := by simp [occupied,null]
      rw [used,List.length_cons] at room
      rw [used] at tcp
      obtain ⟨layer,id,here⟩ := tcp r List.mem_cons_self
      rw [if_neg null,sys_connect_dealloc]
      rcases @free_slot_spec k.async_tasks MAX_ASYNC_TASKS with ⟨i,found,below,free⟩ | ⟨-,all⟩
      · rw [found]
        dsimp only
        refine ih _ ?_ (fun p member => tcp p (List.mem_cons_of_mem _ member)) ?_
        · have listed : (update tasks t ⟨true,r :: rest⟩ t).resources = r :: rest := by rw [update_self]
          have moved := owners_moved owners listed here null free
          rw [Function.update_idem] at moved
          exact moved
        · have fewer := @free_slots_taken k.async_tasks i below free ⟨true,some r,STATE_INIT⟩ rfl
          change _ ≤ (free_slots (update k.async_tasks i ⟨true,some r,STATE_INIT⟩)).card
          omega
      · have none_ : free_slots k.async_tasks = ∅ := by
          ext i
          simp only [free_slots,Finset.mem_filter,Finset.mem_range,Finset.notMem_empty,iff_false,not_and]
          intro below
          rw [all i below]
          simp
        rw [none_] at room
        simp at room

/-- A task that leaves its sockets to asynchronous tasks. -/
theorem exit_kept (kept : Kept k) (active : (k.tasks t).active = true) (leaves : Leaves k t) :
    Kept (exit_task k t) := by
  obtain ⟨async_tasks,frame⟩ := dealloc_frame k (k.tasks t).resources
  have full : update k.tasks t ⟨true,(k.tasks t).resources⟩ = k.tasks := by
    rw [Function.update_eq_self_iff,← active]
  have owners := dealloc_owners (k.tasks t).resources k (by rw [full]; exact kept.owners) leaves.1 leaves.2
  rw [frame] at owners
  have ended : Owners (named k.net) (update k.tasks t ⟨false,[]⟩) async_tasks := by
    refine owners_tasks owners ?_ ?_
    · intro u
      by_cases this : u = t
      · rw [this,update_self,update_self]
      · rw [update_of_ne this,update_of_ne this]
    · intro u inactive
      have before := owners.idle u
      by_cases this : u = t
      · rw [this,update_self]
      · rw [update_of_ne this] at before inactive ⊢
        exact before inactive
  rw [exit_task,frame]
  exact ⟨kept.streams,kept.books,ended⟩

/-! ### What the other functions do to the table -/

/-- The same sockets with the same ids. -/
structure Same (net net' : Sockets.Kernel) : Prop where
  names : named net' = named net
  sockets : net'.sockets = net.sockets
  curr_socket : net'.curr_socket = net.curr_socket

/-- One socket more. -/
structure Added (net net' : Sockets.Kernel) (p : Nat) (layer : Layer) : Prop where
  names : named net' = update (named net) p (some (layer,net.curr_socket + 1))
  sockets : net'.sockets = (store_first p net.sockets).1
  curr_socket : net'.curr_socket = net.curr_socket + 1

theorem same_rfl (net : Sockets.Kernel) : Same net net := ⟨rfl,rfl,rfl⟩

theorem same_trans {net'' : Sockets.Kernel} (first : Same net net') (second : Same net' net'') : Same net net'' :=
  ⟨second.names.trans first.names,second.sockets.trans first.sockets,second.curr_socket.trans first.curr_socket⟩

theorem named_setSocket (p : Nat) (s : Socket) :
    named (Sockets.setSocket net p s) = update (named net) p (some (s.layer,s.socket_id)) := by
  funext q
  rw [named,Sockets.setSocket_socket]
  by_cases this : q = p
  · rw [if_pos this,this,update_self]
    rfl
  · rw [if_neg this,update_of_ne this]
    rfl

theorem same_received {p : Nat} {s : Socket} (here : net.socket_at p = some s) (received : Buffer) (h : Heap) :
    Same net { Sockets.setSocket net p { s with received := received } with heap := h } := by
  refine ⟨?_,rfl,rfl⟩
  have names := @named_setSocket net p { s with received := received }
  dsimp only at names
  rw [← named_here here,Function.update_eq_self] at names
  exact names

theorem socket_receive_same {p : Nat} {data : List UInt8}
    (received : Sockets.socket_receive net place p data = some net') : Same net net' := by
  unfold Sockets.socket_receive at received
  cases here : net.socket_at p with
  | none =>
    rw [here] at received
    cases received
  | some socket =>
    rw [here] at received
    dsimp only at received
    split at received
    · cases received
    · obtain rfl := some.inj received
      exact same_received here _ _

theorem socket_tcp_recv_same {data : List UInt8}
    (received : Sockets.socket_tcp_recv net place t data = some net') : Same net net' := by
  unfold Sockets.socket_tcp_recv at received
  split at received
  · cases received
  · exact socket_receive_same received

theorem call_recv_same {u : Nat} {data : List UInt8}
    (received : Sockets.call_recv net place u data = some net') : Same net net' := by
  unfold Sockets.call_recv at received
  split at received
  · cases received
  · split at received
    · obtain rfl := some.inj received
      exact same_rfl net
    · exact socket_receive_same received
    · unfold Sockets.udp_pending_recv at received
      split at received
      · cases received
      · obtain rfl := some.inj received
        exact ⟨rfl,rfl,rfl⟩

theorem make_child_same {u listener : Nat} {to_ : Addresses} (made : Sockets.make_child net u listener to_ = some net') :
    Same net net' := by
  unfold Sockets.make_child at made
  split at made
  · cases made
  · obtain rfl := some.inj made
    exact ⟨rfl,rfl,rfl⟩

theorem datagram_same {blocks : Blocks} {srcIP dstIP : Word} {payload : List UInt8} {event : Sockets.Event}
    (received : Sockets.udp_ipv4_recv net blocks srcIP dstIP payload = some (net',event)) : Same net net' := by
  unfold Sockets.udp_ipv4_recv at received
  split at received
  · obtain ⟨rfl,-⟩ := Prod.mk.inj (some.inj received)
    exact same_rfl net
  split at received
  · cases received
  split at received
  · split at received
    · cases received
    · rename_i child made
      obtain ⟨last,called,same⟩ := map_eq_some_iff.1 received
      obtain ⟨rfl,-⟩ := Prod.mk.inj same
      exact same_trans (make_child_same made) (call_recv_same called)
  split at received
  · obtain ⟨rfl,-⟩ := Prod.mk.inj (some.inj received)
    exact same_rfl net
  · obtain ⟨last,called,same⟩ := map_eq_some_iff.1 received
    obtain ⟨rfl,-⟩ := Prod.mk.inj same
    exact call_recv_same called

theorem socket_recv_same {p : Nat} (here : net.socket_at p = some socket) {state : AsyncState}
    {size : Word} {data : List UInt8} (received : Sockets.socket_recv net p socket state size = some (net',data,state')) :
    Same net net' := by
  unfold Sockets.socket_recv at received
  split at received
  · split at received
    · dsimp only at received
      split at received
      · cases received
      · split at received
        · cases received
        · obtain ⟨rfl,-⟩ := Prod.mk.inj (some.inj received)
          exact same_received here _ _
    · obtain ⟨rfl,-⟩ := Prod.mk.inj (some.inj received)
      exact same_rfl net
  · split at received
    · obtain ⟨rfl,-⟩ := Prod.mk.inj (some.inj received)
      exact same_rfl net
    · obtain ⟨rfl,-⟩ := Prod.mk.inj (some.inj received)
      exact same_rfl net

theorem udp_accept_same {l child : Nat} {state : AsyncState}
    (polled : Sockets.udp_accept net l state = some (net',child,state')) : Same net net' := by
  unfold Sockets.udp_accept at polled
  split at polled
  · cases polled
  · split at polled
    · split at polled
      · obtain ⟨rfl,-⟩ := Prod.mk.inj (some.inj polled)
        exact ⟨rfl,rfl,rfl⟩
      · obtain ⟨rfl,-⟩ := Prod.mk.inj (some.inj polled)
        exact same_rfl net
    · obtain ⟨rfl,-⟩ := Prod.mk.inj (some.inj polled)
      exact same_rfl net

theorem adopt_child_added {p child : Nat} (adopted : Sockets.adopt_child net p child = some net') :
    Added net net' p (.udp child) := by
  unfold Sockets.adopt_child at adopted
  split at adopted
  · cases adopted
  · dsimp only at adopted
    have created : Added net (Sockets.socket_create net p (.udp child)) p (.udp child) := ⟨named_setSocket p _,rfl,rfl⟩
    split at adopted
    · obtain rfl := some.inj adopted
      refine ⟨?_,rfl,rfl⟩
      rw [named_setSocket]
      change update (named (Sockets.socket_create net p (.udp child))) p _ = _
      rw [created.names,Function.update_idem]
      rfl
    · obtain rfl := some.inj adopted
      exact ⟨created.names,rfl,rfl⟩

theorem connect_udp_added (blocks : Blocks) (config_ip ip : Word) (port : BitVec 16) :
    Added net (Sockets.socket_connect_udp net blocks config_ip ip port) blocks.socket (.udp blocks.udp_socket) :=
  ⟨named_setSocket blocks.socket _,rfl,rfl⟩

theorem connect_tcp_added (blocks : Blocks) :
    Added net (Sockets.socket_connect_tcp net blocks) blocks.socket (.tcp blocks.tcp_socket) :=
  ⟨named_setSocket blocks.socket _,rfl,rfl⟩

theorem listen_added (blocks : Blocks) (config_ip : Word) (port : BitVec 16) :
    Added net (Sockets.socket_listen net blocks config_ip port) blocks.socket (.udp blocks.udp_socket) :=
  ⟨named_setSocket blocks.socket _,rfl,rfl⟩

/-! ### Calls -/

theorem kept_same (kept : Kept k) (same : Same k.net net) (streams : ∃ a, Sockets.Kept (net,a)) (tcp_at : Nat → Tcp.Socket)
    (tcp_binds : List Nat) : Kept { k with net := net, tcp_at := tcp_at, tcp_binds := tcp_binds } := by
  refine ⟨streams,?_,?_⟩
  · have books := kept.books
    rw [← same.names,← same.sockets,← same.curr_socket] at books
    exact books
  · have owners := kept.owners
    rw [← same.names] at owners
    exact owners

section
variable (kept : Kept k) {p self : Nat} {layer : Layer} (nonnull : p ≠ 0) (free : k.net.socket_at p = none)
  (added : Added k.net net p layer) (streams : ∃ a, Sockets.Kept (net,a)) (active : (k.tasks self).active = true)
  (tcp_at : Nat → Tcp.Socket)
include kept nonnull free added streams active tcp_at

/-- A call that makes a socket for its task. -/
theorem kept_added : Kept (resource_register_self { k with net := net, tcp_at := tcp_at } self p) := by
  have unnamed : named k.net p = none := by rw [named,free,Option.map_none]
  refine ⟨streams,?_,?_⟩
  · have books := books_new kept.books nonnull unnamed layer
    rw [← added.names,← added.sockets,← added.curr_socket] at books
    exact books
  · have owners := owners_new kept.owners nonnull unnamed active (layer,k.net.curr_socket + 1)
    rw [← added.names] at owners
    exact owners

/-- Where `sys_sock_connect` looks, it finds the new socket. -/
theorem kept_connected : ∃ k', register_connected { k with net := net, tcp_at := tcp_at } self = some k' ∧ Kept k' := by
  have registered := kept_added kept nonnull free added streams active tcp_at
  have here : named net p = some (layer,k.net.curr_socket + 1) := by rw [added.names,update_self]
  obtain ⟨socket,there,same⟩ := named_some.1 here
  have books : Books (named net) net.sockets net.curr_socket k.polls := registered.books
  have id : socket.socket_id = net.curr_socket := (congrArg Prod.snd same).trans added.curr_socket.symm
  have found := find_socket books there
  rw [id] at found
  refine ⟨_,?_,registered⟩
  rw [register_connected,socket_manager_find]
  dsimp only
  rw [found]
  rfl

end

/-- A call with an id reads no freed block and either aborts or is about a socket. -/
theorem with_socket_spec (kept : Kept k) (active : (k.tasks self).active = true)
    {call : Nat → Socket → Option Kernel} (leaves : socket_manager_find k.net socket_id = some none → Leaves k self)
    (called : ∀ p socket, socket_manager_find k.net socket_id = some (some p) → k.net.socket_at p = some socket →
      ∃ k', call p socket = some k' ∧ Kept k') :
    ∃ k', with_socket k self socket_id call = some k' ∧ Kept k' := by
  rw [with_socket]
  rcases @walk_spec k.net socket_id _ (books_there kept.books) with ⟨p,socket,found,here,-⟩ | ⟨nothing,-⟩
  · have found' : socket_manager_find k.net socket_id = some (some p) := found
    rw [found']
    dsimp only
    rw [here]
    exact called p socket found' here
  · have nothing' : socket_manager_find k.net socket_id = some none := nothing
    rw [nothing']
    exact ⟨_,rfl,exit_kept kept active (leaves nothing')⟩

/-! ### Polls -/

/-- A poll that is not resolved yet, and does not begin to disconnect a UDP socket. -/
def Mild (layer : Layer) (state : AsyncState) : Prop :=
  state ≠ STATE_DONE ∧ ∀ u, layer = .udp u → state ≠ STATE_INIT

/-- What a poll leaves: the socket, and no report; or a report, and neither the socket nor its
    TCP socket. -/
def Polled (k : Kernel) (p : Nat) (r : Kernel × AsyncState) : Prop :=
  r.1.tasks = k.tasks ∧ r.1.async_tasks = k.async_tasks ∧ (∃ a, Sockets.Kept (r.1.net,a)) ∧
    (r.2 ≠ STATE_DONE ∧ named r.1.net = named k.net ∧
        Books (named r.1.net) r.1.net.sockets r.1.net.curr_socket r.1.polls ∨
      r.2 = STATE_DONE ∧ named r.1.net = update (named k.net) p none ∧
        Books (named r.1.net) r.1.net.sockets r.1.net.curr_socket r.1.polls)

/-- A poll that frees nothing. -/
theorem polled_open {env : Tcp.Env} (kept : Kept k) {p : Nat} (here : k.net.socket_at p = some socket)
    {state : AsyncState} {tcp_at : Nat → Tcp.Socket}
    (left : layer_disconnect env k socket.layer state = some ({ k with tcp_at := tcp_at },state',false))
    (open_ : state' ≠ STATE_DONE) : ∃ r, socket_disconnect env k p state = some r ∧ Polled k p r ∧ r.2 ≠ STATE_DONE := by
  have known := (kept.books.ids p _ _ (named_here here)).2
  have books := books_polled kept.books known
  refine ⟨({ k with tcp_at := tcp_at, polls := k.polls ++ [⟨socket.socket_id,false,state' = STATE_DONE⟩] },state'),?_,
    ⟨rfl,rfl,kept.streams,.inl ⟨open_,rfl,?_⟩⟩,open_⟩
  · rw [socket_disconnect,here]
    dsimp only
    rw [left]
    exact if_neg open_
  · dsimp only
    rw [decide_eq_false open_]
    exact books

/-- The poll that frees a TCP socket with its socket. -/
theorem polled_closed (env : Tcp.Env) (kept : Kept k) {p : Nat} (here : k.net.socket_at p = some socket)
    (layer : socket.layer = .tcp t) (closed : (k.tcp_at t).state = .CLOSED) :
    ∃ r, socket_disconnect env k p STATE_WAIT = some r ∧ Polled k p r ∧ r.2 = STATE_DONE := by
  obtain ⟨a,streams⟩ := kept.streams
  have backed := streams.wired.socket p socket here
  rw [layer] at backed
  obtain ⟨h,freed,streams'⟩ := streams_gone streams here layer (clear_first p k.net.sockets)
  have books := books_gone kept.books (named_here here)
  have found := find_socket kept.books here
  let torn : Sockets.Kernel := { k.net with
    heap := h
    tcp_socket_at := fun q => if q = t then none else k.net.tcp_socket_at q
    socket_at := fun q => if q = p then none else k.net.socket_at q
    sockets := clear_first p k.net.sockets }
  let unbound : Kernel := setTcp { k with tcp_binds := clear_first t k.tcp_binds } t (Tcp.tcp_tx_clear_unacked (k.tcp_at t))
  let below : Sockets.Kernel := { k.net with
    tcp_socket_at := fun a => if a = t then none else k.net.tcp_socket_at a }
  have left : layer_disconnect env k socket.layer STATE_WAIT = some ({ unbound with net := below },STATE_DONE,true) := by
    rw [layer,layer_disconnect,tcp_socket_disconnect,if_neg (by decide),if_pos rfl,show k.net.tcp_socket_at t = some p from backed]
    exact if_neg (not_not.2 closed)
  have released : socket_free below p socket = some torn := by
    have found' : socket_manager_walk below socket.socket_id below.sockets = some (some p) := by
      exact find_socket (show Books (named below) below.sockets k.net.curr_socket k.polls from kept.books) here
    rw [socket_free,socket_manager_free,found']
    dsimp only
    rw [show kfree below.heap socket.received.data = some h from freed]
  have names : named torn = update (named k.net) p none := by
    funext q
    by_cases this : q = p
    · rw [this,update_self,named]
      simp [torn]
    · rw [update_of_ne this,named,named]
      simp [torn,this]
  refine ⟨({ unbound with net := torn, polls := k.polls ++ [⟨socket.socket_id,true,true⟩] },STATE_DONE),?_,
    ⟨rfl,rfl,streams',.inr ⟨rfl,names,?_⟩⟩,rfl⟩
  · rw [socket_disconnect,here]
    dsimp only
    rw [left]
    dsimp only
    rw [if_pos rfl,released]
    rfl
  · rw [show named torn = _ from names]
    exact books

theorem disconnect_spec (env : Tcp.Env) (kept : Kept k) {p : Nat} (here : k.net.socket_at p = some socket)
    {state : AsyncState} (mild : Mild socket.layer state) :
    ∃ r, socket_disconnect env k p state = some r ∧ Polled k p r ∧
      (r.2 = STATE_DONE → ∃ t, socket.layer = .tcp t ∧ state = STATE_WAIT ∧ (k.tcp_at t).state = .CLOSED) := by
  obtain ⟨a,streams⟩ := kept.streams
  have backed := streams.wired.socket p socket here
  cases layer : socket.layer with
  | udp u =>
    have idle : layer_disconnect env k socket.layer state = some (k,state,false) := by
      rw [layer,layer_disconnect,udp_socket_disconnect,if_neg (mild.2 u layer)]
    obtain ⟨r,done,polled,open_⟩ := polled_open kept here idle mild.1
    exact ⟨r,done,polled,fun resolved => absurd resolved open_⟩
  | tcp t =>
    rw [layer] at backed
    have backed' : k.net.tcp_socket_at t = some p := backed
    by_cases begins : state = STATE_INIT
    · have sent : layer_disconnect env k socket.layer state =
          some (setTcp k t (Tcp.tcp_socket_disconnect env (k.tcp_at t)).1,STATE_WAIT,false) := by
        rw [layer,layer_disconnect,tcp_socket_disconnect,if_pos begins,backed']
      obtain ⟨r,done,polled,open_⟩ := polled_open kept here sent (by decide)
      exact ⟨r,done,polled,fun resolved => absurd resolved open_⟩
    by_cases waits : state = STATE_WAIT
    · by_cases closed : (k.tcp_at t).state = .CLOSED
      · rw [waits]
        obtain ⟨r,done,polled,-⟩ := polled_closed env kept here layer closed
        exact ⟨r,done,polled,fun _ => ⟨t,rfl,rfl,closed⟩⟩
      · have idle : layer_disconnect env k socket.layer state = some (k,state,false) := by
          rw [layer,layer_disconnect,tcp_socket_disconnect,if_neg begins,if_pos waits,backed']
          exact if_pos closed
        obtain ⟨r,done,polled,open_⟩ := polled_open kept here idle mild.1
        exact ⟨r,done,polled,fun resolved => absurd resolved open_⟩
    · have idle : layer_disconnect env k socket.layer state = some (k,state,false) := by
        rw [layer,layer_disconnect,tcp_socket_disconnect,if_neg begins,if_neg waits]
      obtain ⟨r,done,polled,open_⟩ := polled_open kept here idle mild.1
      exact ⟨r,done,polled,fun resolved => absurd resolved open_⟩

/-! ### Steps -/

/-- The actions that end with the exit of their task. -/
def Exits (k : Kernel) : Action → Prop
  | .accept _ socket_id _ => socket_manager_find k.net socket_id = some none ∨
      ∃ p socket t, socket_manager_find k.net socket_id = some (some p) ∧ k.net.socket_at p = some socket ∧
        socket.layer = .tcp t
  | .recv _ socket_id _ data _ => socket_manager_find k.net socket_id = some none ∨ data = false
  | .send _ socket_id data _ => socket_manager_find k.net socket_id = some none ∨ data = none
  | .set_local_port _ socket_id _ => socket_manager_find k.net socket_id = some none
  | .disconnect _ socket_id _ => socket_manager_find k.net socket_id = some none
  | .exit _ => True
  | _ => False

/-- The actions that may make a socket. -/
def Creates : Action → Prop
  | .connect_udp .. | .connect_tcp .. | .listen .. | .accept .. => True
  | _ => False

/-- The end of UDP sockets goes wrong, so do polls with a resolved `async_t`, and a task that
    frees the socket of another or leaves more sockets than there are slots. The ids are `int`. -/
structure Careful (k : Kernel) (a : Action) : Prop where
  exits : ∀ self, caller a = some self → Exits k a → Leaves k self
  polls : ∀ self socket_id state p socket, a = .disconnect self socket_id state →
    socket_manager_find k.net socket_id = some (some p) → k.net.socket_at p = some socket →
      Mild socket.layer state ∧ ∀ t, socket.layer = .tcp t → state = STATE_WAIT → (k.tcp_at t).state = .CLOSED →
        p ∈ (k.tasks self).resources
  few : Creates a → k.net.curr_socket + 1 < 2 ^ 31

theorem accept_kept (kept : Kept k) {blocks : Blocks} (unused : Sockets.Unused k.net blocks)
    (active : (k.tasks self).active = true) (state : AsyncState)
    (leaves : Exits k (.accept self socket_id state) → Leaves k self) :
    ∃ k', sys_sock_accept k blocks self socket_id state = some k' ∧ Kept k' := by
  refine with_socket_spec kept active (fun nothing => leaves (.inl nothing)) ?_
  intro p listener found here
  obtain ⟨a,streams⟩ := kept.streams
  cases layer : listener.layer with
  | tcp t => exact ⟨_,rfl,exit_kept kept active (leaves (.inr ⟨p,listener,t,found,here,layer⟩))⟩
  | udp l =>
    have backed := streams.wired.socket p listener here
    rw [layer] at backed
    obtain ⟨s,listens,-⟩ := backed
    obtain ⟨net,child,state',polled,streams',same_at,queued⟩ := Sockets.udp_accept_spec streams listens state
    have same := udp_accept_same polled
    simp only [polled]
    by_cases done : state' = STATE_DONE ∧ child ≠ 0
    · rw [if_pos done]
      obtain ⟨c,there,pending,unqueued⟩ := queued done.2
      have free : net.socket_at blocks.socket = none := by
        rw [same_at]
        exact unused.socket.2
      obtain ⟨net',adopted,streams''⟩ := Sockets.adopt_child_spec streams' free there pending unqueued
      rw [adopted]
      have before := kept_same kept same ⟨a,streams'⟩ k.tcp_at k.tcp_binds
      exact ⟨_,rfl,kept_added before unused.socket.1 free (adopt_child_added adopted) ⟨a,streams''⟩ active k.tcp_at⟩
    · rw [if_neg done]
      exact ⟨_,rfl,kept_same kept same ⟨a,streams'⟩ k.tcp_at k.tcp_binds⟩

theorem recv_kept (kept : Kept k) (active : (k.tasks self).active = true) (state : AsyncState)
    (data : Bool) (size : Word) (leaves : Exits k (.recv self socket_id state data size) → Leaves k self) :
    ∃ k', sys_sock_recv k self socket_id state data size = some k' ∧ Kept k' := by
  refine with_socket_spec kept active (fun nothing => leaves (.inl nothing)) ?_
  intro p socket found here
  by_cases null : data = false
  · rw [if_pos null]
    exact ⟨_,rfl,exit_kept kept active (leaves (.inr null))⟩
  · rw [if_neg null]
    obtain ⟨a,streams⟩ := kept.streams
    obtain ⟨net,bytes,state',received,streams'⟩ := Sockets.socket_recv_spec streams here state size
    rw [received]
    exact ⟨_,rfl,kept_same kept (socket_recv_same here received) ⟨_,streams'⟩ k.tcp_at k.tcp_binds⟩

theorem layer_there (kept : Kept k) {p : Nat} (here : k.net.socket_at p = some socket) :
    Sockets.Backed k.net p socket.layer := by
  obtain ⟨a,streams⟩ := kept.streams
  exact streams.wired.socket p socket here

theorem send_kept (env : Tcp.Env) (kept : Kept k) (active : (k.tasks self).active = true)
    (data : Option (List UInt8)) (size : Word) (leaves : Exits k (.send self socket_id data size) → Leaves k self) :
    ∃ k', sys_sock_send env k self socket_id data size = some k' ∧ Kept k' := by
  refine with_socket_spec kept active (fun nothing => leaves (.inl nothing)) ?_
  intro p socket found here
  have backed := layer_there kept here
  cases data with
  | none => exact ⟨_,rfl,exit_kept kept active (leaves (.inr rfl))⟩
  | some data =>
    dsimp only
    cases layer : socket.layer with
    | udp u =>
      rw [layer] at backed
      obtain ⟨s,there,-⟩ := backed
      refine ⟨k,?_,kept⟩
      dsimp only
      rw [there]
      rfl
    | tcp t =>
      rw [layer] at backed
      refine ⟨setTcp k t (Tcp.tcp_socket_send env (k.tcp_at t) data size.toInt).1,?_,
        kept_same kept (same_rfl _) kept.streams _ k.tcp_binds⟩
      dsimp only
      rw [show k.net.tcp_socket_at t = some p from backed]
      rfl

theorem set_local_port_kept (kept : Kept k) (active : (k.tasks self).active = true)
    (port : BitVec 16) (leaves : Exits k (.set_local_port self socket_id port) → Leaves k self) :
    ∃ k', sys_sock_set_local_port k self socket_id port = some k' ∧ Kept k' := by
  refine with_socket_spec kept active leaves ?_
  intro p socket found here
  have backed := layer_there kept here
  cases layer : socket.layer with
  | udp u =>
    rw [layer] at backed
    obtain ⟨s,there,-⟩ := backed
    obtain ⟨a,wired,content,owned,accounted⟩ := kept.streams
    let changed : Sockets.UdpSocket := { s with local_port := Sockets.swap16 port }
    have same : buffer (Sockets.setUdp k.net u changed) = buffer k.net := Sockets.buffer_setUdp_same there rfl
    have owned' := owned
    rw [← same] at owned'
    have streams : Sockets.Kept (Sockets.setUdp k.net u changed,a) :=
      ⟨Sockets.wired_setUdp_same wired there rfl rfl rfl,content,owned',Sockets.accounted_setUdp accounted there rfl⟩
    have unchanged : Same k.net (Sockets.setUdp k.net u changed) := ⟨rfl,rfl,rfl⟩
    refine ⟨{ k with net := Sockets.setUdp k.net u changed },?_,kept_same kept unchanged ⟨a,streams⟩ k.tcp_at k.tcp_binds⟩
    dsimp only
    rw [Sockets.udp_set_local_port,there]
    rfl
  | tcp t =>
    rw [layer] at backed
    refine ⟨setTcp k t { k.tcp_at t with local_port := Sockets.swap16 port },?_,
      kept_same kept (same_rfl _) kept.streams _ k.tcp_binds⟩
    dsimp only
    rw [show k.net.tcp_socket_at t = some p from backed]
    rfl

/-- A poll of a task, which gives up the socket when it ends it. -/
theorem disconnect_kept (env : Tcp.Env) (kept : Kept k) {state : AsyncState}
    (active : (k.tasks self).active = true) (careful : Careful k (.disconnect self socket_id state)) :
    ∃ k', sys_sock_disconnect env k self socket_id state = some k' ∧ Kept k' := by
  refine with_socket_spec kept active (careful.exits self rfl) ?_
  intro p socket found here
  obtain ⟨mild,own⟩ := careful.polls self socket_id state p socket rfl found here
  obtain ⟨⟨k',state'⟩,polled,⟨tasks,async_tasks,streams,left⟩,why⟩ := disconnect_spec env kept here mild
  dsimp only at tasks async_tasks streams left why ⊢
  rw [polled]
  dsimp only
  rcases left with ⟨open_,names,books⟩ | ⟨done,names,books⟩
  · rw [if_neg open_]
    refine ⟨k',rfl,streams,books,?_⟩
    rw [names,tasks,async_tasks]
    exact kept.owners
  · rw [if_pos done]
    obtain ⟨t,layer,waits,closed⟩ := why done
    have listed : p ∈ occupied (k.tasks self).resources :=
      mem_occupied.2 ⟨own t layer waits closed,books_nonnull kept.books (named_here here)⟩
    have owners := owners_gone_task kept.owners listed
    rw [← names,← tasks,← async_tasks] at owners
    exact ⟨_,rfl,streams,books,owners⟩

/-- A poll of an asynchronous task. -/
theorem process_kept (env : Tcp.Env) (kept : Kept k) (i : Nat) : ∃ k', process env k i = some k' ∧ Kept k' := by
  rw [process]
  cases resource : (k.async_tasks i).resource with
  | none => exact ⟨k,rfl,kept⟩
  | some p =>
    dsimp only
    by_cases runs : ((k.async_tasks i).taken && (k.async_tasks i).state != STATE_DONE) = true
    swap
    · rw [if_neg runs]
      exact ⟨k,rfl,kept⟩
    rw [if_pos runs]
    obtain ⟨taken,unresolved⟩ := Bool.and_eq_true_iff.1 runs
    have slot : holds k.tasks k.async_tasks (.slot i) p := ⟨taken,resource⟩
    obtain ⟨-,t,id,known⟩ := kept.owners.slots i p slot
    obtain ⟨socket,here,same⟩ := named_some.1 known
    have layer : socket.layer = .tcp t := congrArg Prod.fst same
    have mild : Mild socket.layer (k.async_tasks i).state := by
      refine ⟨by simpa using unresolved,fun u udp => ?_⟩
      rw [layer] at udp
      cases udp
    obtain ⟨⟨k',state'⟩,polled,⟨tasks,async_tasks,streams,left⟩,-⟩ := disconnect_spec env kept here mild
    dsimp only at tasks async_tasks streams left
    rw [polled]
    dsimp only
    rcases left with ⟨open_,names,books⟩ | ⟨done,names,books⟩
    · refine ⟨_,rfl,streams,books,?_⟩
      have owners : Owners (named k.net) k.tasks (update k.async_tasks i ⟨!(state' == STATE_DONE),some p,state'⟩) := by
        refine owners_slot kept.owners (fun q => ?_) (fun _ _ => open_)
        simp [holds,taken,resource,open_]
      rw [← names,← tasks,← async_tasks] at owners
      exact owners
    · refine ⟨_,rfl,streams,books,?_⟩
      have owners := @owners_gone_slot _ _ _ kept.owners p i slot ⟨!(state' == STATE_DONE),some p,state'⟩ (by simp [done])
      rw [← names,← tasks,← async_tasks] at owners
      exact owners

/-- Every step of a run in which tasks are careful. -/
theorem act_kept (env : Tcp.Env) (kept : Kept k) {blocks : Blocks} (unused : Sockets.Unused k.net blocks) {a : Action}
    (possible : Possible k a) (careful : Careful k a) : ∃ k', act env k blocks a = some k' ∧ Kept k' := by
  obtain ⟨account,streams⟩ := kept.streams
  cases a with
  | datagram srcIP dstIP payload =>
    obtain ⟨net,event,received,streams'⟩ := Sockets.udp_ipv4_recv_spec streams unused srcIP dstIP payload
    refine ⟨{ k with net := net },?_,kept_same kept (datagram_same received) ⟨_,streams'⟩ k.tcp_at k.tcp_binds⟩
    rw [act,received]
    rfl
  | segment t data =>
    obtain ⟨net,event,received,streams'⟩ :=
      @Sockets.act_spec _ _ streams _ unused (.segment t data) (possible.segment t data rfl)
    obtain ⟨net,delivered,same⟩ := map_eq_some_iff.1 received
    obtain ⟨rfl,-⟩ := Prod.mk.inj same
    refine ⟨{ k with net := net },?_,kept_same kept (socket_tcp_recv_same delivered) ⟨_,streams'⟩ k.tcp_at k.tcp_binds⟩
    rw [act,delivered]
    rfl
  | tcp tcp_at tcp_binds => exact ⟨_,rfl,kept_same kept (same_rfl _) kept.streams tcp_at tcp_binds⟩
  | start t =>
    have owners : Owners (named k.net) (update k.tasks t ⟨true,[]⟩) k.async_tasks := by
      refine owners_tasks kept.owners (fun u => ?_) (fun u inactive => ?_)
      · by_cases this : u = t
        · rw [this,update_self,kept.owners.idle t (possible.start t rfl)]
        · rw [update_of_ne this]
      · by_cases this : u = t
        · rw [this,update_self]
        · rw [update_of_ne this] at inactive ⊢
          exact kept.owners.idle u inactive
    exact ⟨_,rfl,kept.streams,kept.books,owners⟩
  | connect_udp self config_ip ip port =>
    exact kept_connected kept unused.socket.1 unused.socket.2 (connect_udp_added blocks config_ip ip port)
      ⟨_,Sockets.socket_connect_udp_spec streams unused config_ip ip port⟩ (possible.active self rfl) k.tcp_at
  | connect_tcp self connection =>
    exact kept_connected kept unused.socket.1 unused.socket.2 (connect_tcp_added blocks)
      ⟨_,Sockets.socket_connect_tcp_spec streams unused⟩ (possible.active self rfl)
      (update k.tcp_at blocks.tcp_socket connection)
  | listen self config_ip port =>
    exact ⟨_,rfl,kept_added kept unused.socket.1 unused.socket.2 (listen_added blocks config_ip port)
      ⟨_,Sockets.socket_listen_spec streams unused config_ip port⟩ (possible.active self rfl) k.tcp_at⟩
  | accept self socket_id state => exact accept_kept kept unused (possible.active self rfl) state (careful.exits self rfl)
  | recv self socket_id state data size => exact recv_kept kept (possible.active self rfl) state data size (careful.exits self rfl)
  | send self socket_id data size => exact send_kept env kept (possible.active self rfl) data size (careful.exits self rfl)
  | set_local_port self socket_id port =>
    exact set_local_port_kept kept (possible.active self rfl) port (careful.exits self rfl)
  | disconnect self socket_id state => exact disconnect_kept env kept (possible.active self rfl) careful
  | exit t => exact ⟨_,rfl,exit_kept kept (possible.active t rfl) (careful.exits t rfl trivial)⟩
  | process i => exact process_kept env kept i
  | other_task i =>
    refine ⟨_,rfl,kept.streams,kept.books,owners_slot kept.owners (fun q => ?_) (fun _ absent => absurd rfl absent)⟩
    constructor
    · rintro ⟨-,impossible⟩
      cases impossible
    · rintro ⟨taken,resource⟩
      rw [possible.other i rfl taken] at resource
      cases resource

/-! ### Runs -/

theorem booted_kept (booted : Booted k) : Kept k := by
  have unnamed (p : Nat) : named k.net p = none := by rw [named,booted.socket,Option.map_none]
  have streams : Sockets.Kept (k.net,⟨fun _ => [],fun _ => []⟩) :=
    Sockets.reached_kept ⟨_,[],⟨booted.binds,booted.sockets,booted.udp,booted.tcp,booted.socket,rfl⟩,.done _⟩
  refine ⟨⟨_,streams⟩,⟨?_,?_,?_,?_,?_,?_,?_,?_,?_⟩,⟨⟨?_,?_⟩,?_,?_,?_⟩⟩
  · exact booted.ids.ge
  · intro p
    rw [booted.sockets,unnamed]
    simp [occupied]
  · rw [booted.sockets]
    exact List.nodup_nil
  · intro p layer id here
    rw [unnamed] at here
    cases here
  · intro p q layer layer' id here
    rw [unnamed] at here
    cases here
  · simp [booted.polls]
  · simp [booted.polls]
  · intro p layer id here
    rw [unnamed] at here
    cases here
  · intro id low high
    have := booted.ids
    omega
  · intro p
    rw [unnamed]
    constructor
    · rintro ⟨e,impossible⟩
      cases impossible
    · rintro ⟨h,holder⟩
      cases h with
      | task t => simp [holds,booted.tasks,occupied] at holder
      | slot i => simp [holds,booted.async_tasks] at holder
  · intro h h' p holder
    cases h with
    | task t => simp [holds,booted.tasks,occupied] at holder
    | slot i => simp [holds,booted.async_tasks] at holder
  · intro t
    rw [booted.tasks]
    exact List.nodup_nil
  · intro t inactive
    exact booted.tasks t
  · intro i p holder
    simp [holds,booted.async_tasks] at holder

/-- What is known of the ends of all sockets so far. -/
structure Once (k : Kernel) : Prop where
  /-- A poll is resolved when it freed the UDP or TCP socket, and only then. -/
  reported : ∀ poll ∈ k.polls, poll.layer_freed = poll.done
  /-- No poll ended a socket that is there, -/
  there : ∀ p socket, k.net.socket_at p = some socket → Sockets.Backed k.net p socket.layer ∧
    dones k.polls socket.socket_id = 0 ∧ ∃ h, holds k.tasks k.async_tasks h p
  /-- and one poll ended each socket that is gone. -/
  gone : ∀ id, SOCK_OFFSET < id → id ≤ k.net.curr_socket →
    (∃ p socket, k.net.socket_at p = some socket ∧ socket.socket_id = id) ∨ dones k.polls id = 1

theorem kept_once (kept : Kept k) : Once k := by
  refine ⟨kept.books.agree,fun p socket here => ⟨layer_there kept here,?_,?_⟩,fun id low high => ?_⟩
  · exact kept.books.undone p socket.layer socket.socket_id (named_here here)
  · exact (kept.owners.held.live p).1 ⟨_,named_here here⟩
  · refine (kept.books.gone id low high).imp_left ?_
    rintro ⟨p,layer,known⟩
    obtain ⟨socket,here,same⟩ := named_some.1 known
    exact ⟨p,socket,here,congrArg Prod.snd same⟩

/-- The end of a socket, when its task or its slot finds the TCP socket closed. -/
theorem closed_ended (env : Tcp.Env) (kept : Kept k) {p : Nat} (here : k.net.socket_at p = some socket)
    (layer : socket.layer = .tcp t) (closed : (k.tcp_at t).state = .CLOSED) :
    ∃ k', socket_disconnect env k p STATE_WAIT = some (k',STATE_DONE) ∧ k'.net.socket_at p = none ∧
      k'.net.tcp_socket_at t = none := by
  obtain ⟨⟨k',state⟩,polled,⟨-,-,⟨a,streams⟩,left⟩,done⟩ := polled_closed env kept here layer closed
  dsimp only at streams left done
  obtain rfl := done
  rcases left with ⟨open_,-⟩ | ⟨-,names,-⟩
  · exact absurd rfl open_
  refine ⟨k',polled,?_,?_⟩
  · have absent : named k'.net p = none := by rw [names,update_self]
    rwa [named,Option.map_eq_none_iff] at absent
  · rw [Option.eq_none_iff_forall_ne_some]
    intro q found
    obtain ⟨socket',there,layer'⟩ := streams.wired.tcp t q found
    have known := named_here there
    rw [names,Function.update_apply] at known
    obtain ⟨other,known⟩ := ite_none_left_eq_some.1 known
    obtain ⟨before,here',same⟩ := named_some.1 known
    obtain ⟨a',streams'⟩ := kept.streams
    have same_layer : before.layer = socket.layer := (congrArg Prod.fst same).trans (layer'.trans layer.symm)
    exact other (Sockets.layer_unique streams'.wired here' here same_layer)

/-- In every run whose calls are careful nothing that was freed is read, the end of each
    socket is one poll that frees both parts and reports it, and a poll that waits for a
    closed TCP socket is such a poll. -/
theorem torn_down_once {x : Option Kernel}
    (reached : Reached (guarded teardown fun x a => ∀ k, x = some k → Careful k a) x) :
    ∃ k, x = some k ∧ Once k ∧ ∀ env p socket t, k.net.socket_at p = some socket → socket.layer = .tcp t →
      (k.tcp_at t).state = .CLOSED → ∃ k', socket_disconnect env k p STATE_WAIT = some (k',STATE_DONE) ∧
        k'.net.socket_at p = none ∧ k'.net.tcp_socket_at t = none := by
  have kept : ∃ k, x = some k ∧ Kept k := by
    refine @guarded_invariant _ _ _ _ (fun x => ∃ k, x = some k ∧ Kept k) ?_ ?_ x reached
    · rintro x ⟨k,rfl,booted⟩
      exact ⟨k,rfl,booted_kept booted⟩
    · rintro x a y ⟨k,rfl,kept⟩ ⟨k',blocks,env,same,possible,unused,rfl⟩ careful
      obtain rfl := some.inj same
      exact act_kept env kept unused possible (careful k rfl)
  obtain ⟨k,rfl,kept⟩ := kept
  refine ⟨k,rfl,kept_once kept,?_⟩
  intro env p socket t here layer closed
  exact closed_ended env kept here layer closed

end

/-! ### A task with one socket -/

def nobody : OpenFiles.Task := ⟨false,[]⟩

/-- A kernel after its start. -/
def booted : Kernel where
  net := ⟨fun _ => none,[],1024,fun _ => none,fun _ => none,fun _ => none,[],SOCK_OFFSET⟩
  tcp_at _ := ⟨0,0,0,0,0,0,0,.CLOSED,none,0,0,{},0,0,0⟩
  tcp_binds := []
  tasks _ := nobody
  async_tasks _ := ⟨false,none,STATE_INIT⟩
  polls := []

theorem booted_booted : Booted booted :=
  ⟨rfl,rfl,fun _ => rfl,fun _ => rfl,fun _ => rfl,rfl,fun _ => rfl,fun _ => rfl,rfl⟩

def env : Tcp.Env := ⟨0,fun _ => 0⟩
def blocks : Blocks := ⟨1,1,1,⟨1,fun _ => 0⟩⟩
def later_blocks : Blocks := ⟨2,2,2,⟨1,fun _ => 0⟩⟩
def started : Kernel := setTask booted 0 ⟨true,[]⟩

/-- The first task connects a TCP socket, which closes again. -/
def tcp_connected : Kernel := ((act env started blocks (.connect_tcp 0 (booted.tcp_at 0))).getD started)

theorem tcp_connected_reached : Reached (guarded teardown fun x a => ∀ k, x = some k → Careful k a) (some tcp_connected) := by
  refine ⟨some booted,[.start 0,.connect_tcp 0 (booted.tcp_at 0)],⟨_,rfl,booted_booted⟩,?_⟩
  refine .step (t := some started) ⟨⟨booted,blocks,env,rfl,?_,?_,rfl⟩,?_⟩ (.step ⟨⟨started,blocks,env,rfl,?_,?_,rfl⟩,?_⟩ (.done _))
  · exact ⟨by simp [caller],by simp,fun _ _ => rfl,by simp⟩
  · exact ⟨⟨by decide,rfl⟩,⟨by decide,rfl⟩,⟨by decide,rfl⟩,⟨by decide,rfl⟩⟩
  · rintro k -
    exact ⟨by simp [caller],by simp,False.elim⟩
  · exact ⟨by simp [caller,started,setTask],by simp,by simp,by simp⟩
  · exact ⟨⟨by decide,rfl⟩,⟨by decide,rfl⟩,⟨by decide,rfl⟩,⟨by decide,rfl⟩⟩
  · rintro k same
    obtain rfl := some.inj same
    exact ⟨fun _ _ => False.elim,by simp,fun _ => by decide⟩

/-- A poll of its task frees both parts and is resolved. -/
theorem torn_down_once_tcp : ∃ k, socket_disconnect env tcp_connected 1 STATE_WAIT = some (k,STATE_DONE) ∧
    k.net.socket_at 1 = none ∧ k.net.tcp_socket_at 1 = none := by
  obtain ⟨k,same,-,ends⟩ := torn_down_once tcp_connected_reached
  obtain rfl := some.inj same
  exact ends env 1 ⟨.tcp 1,6,⟨0,0⟩⟩ 1 rfl rfl rfl

/-- The first task connects a UDP socket and polls its end once and then again. -/
def udp_connected : Kernel := ((act env started blocks (.connect_udp 0 0 0 0)).getD started)
def udp_polled : Kernel := ((act env udp_connected later_blocks (.disconnect 0 6 STATE_INIT)).getD started)

/-- The first poll frees the UDP socket without a report, and the second one reads it. -/
theorem udp_end_read : ¬ ∀ x, Reached teardown x → ∃ k, x = some k ∧ Once k := by
  intro claimed
  have reached : Reached teardown none := by
    refine ⟨some booted,[.start 0,.connect_udp 0 0 0 0,.disconnect 0 6 STATE_INIT,.disconnect 0 6 STATE_INIT],
      ⟨_,rfl,booted_booted⟩,?_⟩
    refine .step (t := some started) ⟨booted,blocks,env,rfl,?_,?_,rfl⟩ ?_
    · exact ⟨by simp [caller],by simp,fun _ _ => rfl,by simp⟩
    · exact ⟨⟨by decide,rfl⟩,⟨by decide,rfl⟩,⟨by decide,rfl⟩,⟨by decide,rfl⟩⟩
    refine .step (t := some udp_connected) ⟨started,blocks,env,rfl,?_,?_,rfl⟩ ?_
    · exact ⟨by simp [caller,started,setTask],by simp,by simp,by simp⟩
    · exact ⟨⟨by decide,rfl⟩,⟨by decide,rfl⟩,⟨by decide,rfl⟩,⟨by decide,rfl⟩⟩
    have active : (udp_connected.tasks 0).active = true := rfl
    have active' : (udp_polled.tasks 0).active = true := rfl
    refine .step (t := some udp_polled) ⟨udp_connected,later_blocks,env,rfl,?_,?_,rfl⟩ ?_
    · exact ⟨by simpa [caller] using active,by simp,by simp,by simp⟩
    · exact ⟨⟨by decide,rfl⟩,⟨by decide,rfl⟩,⟨by decide,rfl⟩,⟨by decide,rfl⟩⟩
    refine .step (t := none) ⟨udp_polled,later_blocks,env,rfl,?_,?_,rfl⟩ (.done _)
    · exact ⟨by simpa [caller] using active',by simp,by simp,by simp⟩
    · exact ⟨⟨by decide,rfl⟩,⟨by decide,rfl⟩,⟨by decide,rfl⟩,⟨by decide,rfl⟩⟩
  obtain ⟨k,impossible,-⟩ := claimed none reached
  cases impossible

end MicroOS.Teardown

import MicroOS.Holders
import MicroOS.SocketStreams

/-!
The end of sockets. A task polls `sys_sock_disconnect` until its `async_t` is resolved; a
task that exits leaves its sockets to asynchronous tasks, which poll the same
`socket_disconnect` from the timer. Reading a block that was freed has no result here.
-/
namespace MicroOS.Teardown
open Buffers OpenFiles TcpDemux Runs
open Sockets (Socket Layer Blocks AsyncState STATE_INIT STATE_WAIT STATE_DONE)

abbrev Word := BitVec 32

def SOCK_OFFSET : Nat := 5
def MAX_ASYNC_TASKS : Nat := 16

/-- A slot of `async_tasks`; `resource` is the socket of a `sys_connect_dealloc_async`, and
    `none` for what other code runs. -/
structure AsyncTask where
  taken : Bool
  resource : Option Nat
  state : AsyncState

/-- A poll of `socket_disconnect`: whether it freed the UDP or TCP socket, and whether it
    left its `async_t` resolved, which is when it frees the `socket_t`. -/
structure Poll where
  socket_id : Nat
  layer_freed : Bool
  done : Bool
  deriving DecidableEq

/-- `net` has the sockets that are allocated, by their addresses; no function reads `polls`. -/
structure Kernel where
  net : Sockets.Kernel
  tcp_at : Nat → Tcp.Socket
  tcp_binds : List Nat
  tasks : Nat → OpenFiles.Task
  async_tasks : Nat → AsyncTask
  polls : List Poll

def setTcp (k : Kernel) (t : Nat) (s : Tcp.Socket) : Kernel := { k with tcp_at := Function.update k.tcp_at t s }
def setTask (k : Kernel) (t : Nat) (task : OpenFiles.Task) : Kernel := { k with tasks := Function.update k.tasks t task }
def setAsync (k : Kernel) (i : Nat) (task : AsyncTask) : Kernel :=
  { k with async_tasks := Function.update k.async_tasks i task }

/-- A poll that finds the socket in the binds frees it and returns without a new state. -/
def udp_socket_disconnect (k : Kernel) (u : Nat) (state : AsyncState) : Option (Kernel × AsyncState × Bool) :=
  if state = STATE_INIT then
    match k.net.udp_socket_at u with
    | none => none
    | some _ =>
      if u ∈ k.net.binds then
        let net := { k.net with
          binds := clear_first u k.net.binds
          udp_socket_at := fun a => if a = u then none else k.net.udp_socket_at a }
        some ({ k with net := net },state,true)
      else some (k,STATE_DONE,false)
  else some (k,state,false)

def tcp_socket_disconnect (env : Tcp.Env) (k : Kernel) (t : Nat) (state : AsyncState) :
    Option (Kernel × AsyncState × Bool) :=
  if state = STATE_INIT then
    match k.net.tcp_socket_at t with
    | none => none
    | some _ => some (setTcp k t (Tcp.tcp_socket_disconnect env (k.tcp_at t)).1,STATE_WAIT,false)
  else if state = STATE_WAIT then
    match k.net.tcp_socket_at t with
    | none => none
    | some _ =>
      if (k.tcp_at t).state ≠ .CLOSED then some (k,state,false)
      else
        let k := setTcp { k with tcp_binds := clear_first t k.tcp_binds } t (Tcp.tcp_tx_clear_unacked (k.tcp_at t))
        let net := { k.net with tcp_socket_at := fun a => if a = t then none else k.net.tcp_socket_at a }
        some ({ k with net := net },STATE_DONE,true)
  else some (k,state,false)

/-- The walk of the socket manager, which reads every socket before the one it looks for. -/
def socket_manager_walk (net : Sockets.Kernel) (socket_id : Nat) : List Nat → Option (Option Nat)
  | [] => some none
  | p :: rest =>
    if p = 0 then socket_manager_walk net socket_id rest
    else
      match net.socket_at p with
      | none => none
      | some socket => if socket.socket_id = socket_id then some (some p) else socket_manager_walk net socket_id rest

def socket_manager_find (net : Sockets.Kernel) (socket_id : Nat) : Option (Option Nat) :=
  socket_manager_walk net socket_id net.sockets

def socket_manager_free (net : Sockets.Kernel) (socket_id : Nat) : Option Sockets.Kernel :=
  match socket_manager_walk net socket_id net.sockets with
  | none => none
  | some none => some net
  | some (some p) => some { net with sockets := clear_first p net.sockets }

/-- What `socket_disconnect` does once its `async_t` is resolved. -/
def socket_free (net : Sockets.Kernel) (p : Nat) (socket : Socket) : Option Sockets.Kernel :=
  match socket_manager_free net socket.socket_id with
  | none => none
  | some net =>
    match kfree net.heap socket.received.data with
    | none => none
    | some h => some { net with heap := h, socket_at := fun a => if a = p then none else net.socket_at a }

def layer_disconnect (env : Tcp.Env) (k : Kernel) (layer : Layer) (state : AsyncState) :
    Option (Kernel × AsyncState × Bool) :=
  match layer with
  | .udp u => udp_socket_disconnect k u state
  | .tcp t => tcp_socket_disconnect env k t state

def socket_disconnect (env : Tcp.Env) (k : Kernel) (p : Nat) (state : AsyncState) : Option (Kernel × AsyncState) :=
  match k.net.socket_at p with
  | none => none
  | some socket =>
    match layer_disconnect env k socket.layer state with
    | none => none
    | some (k,state,layer_freed) =>
      let k := { k with polls := k.polls ++ [⟨socket.socket_id,layer_freed,state = STATE_DONE⟩] }
      if state = STATE_DONE then (socket_free k.net p socket).map fun net => ({ k with net := net },state)
      else some (k,state)

/-- The loop of `add_async_task`, from the last slot down. -/
def free_slot (async_tasks : Nat → AsyncTask) : Nat → Option Nat
  | 0 => none
  | i + 1 => if (async_tasks i).taken then free_slot async_tasks i else some i

/-- `add_async_task` for a socket; without a free slot nothing happens. -/
def sys_connect_dealloc (k : Kernel) (resource : Nat) : Kernel :=
  match free_slot k.async_tasks MAX_ASYNC_TASKS with
  | some i => setAsync k i ⟨true,some resource,STATE_INIT⟩
  | none => k

def resource_register_self (k : Kernel) (self : Nat) (resource : Nat) : Kernel :=
  setTask k self { k.tasks self with resources := (store_first resource (k.tasks self).resources).1 }

def resource_unregister_self (k : Kernel) (self : Nat) (resource : Nat) : Kernel :=
  setTask k self { k.tasks self with resources := (k.tasks self).resources.map fun r => if r = resource then 0 else r }

def resource_dealloc (k : Kernel) : List Nat → Kernel
  | [] => k
  | r :: rest => resource_dealloc (if r = 0 then k else sys_connect_dealloc k r) rest

def exit_task (k : Kernel) (t : Nat) : Kernel :=
  setTask (resource_dealloc k (k.tasks t).resources) t ⟨false,[]⟩

/-- `abortf(true, ..)` in a system call. -/
def abort (k : Kernel) (self : Nat) : Kernel := exit_task k self

/-- A slot in a pass of `process_async_tasks`. -/
def process (env : Tcp.Env) (k : Kernel) (i : Nat) : Option Kernel :=
  match (k.async_tasks i).resource with
  | none => some k
  | some p =>
    if (k.async_tasks i).taken && (k.async_tasks i).state != STATE_DONE then
      match socket_disconnect env k p (k.async_tasks i).state with
      | none => none
      | some (k,state) => some (setAsync k i ⟨!(state == STATE_DONE),some p,state⟩)
    else some k

/-- What the calls with an id begin with: a walk, which aborts when it finds nothing. -/
def with_socket (k : Kernel) (self socket_id : Nat) (call : Nat → Socket → Option Kernel) : Option Kernel :=
  match socket_manager_find k.net socket_id with
  | none => none
  | some none => some (abort k self)
  | some (some p) =>
    match k.net.socket_at p with
    | none => none
    | some socket => call p socket

/-- The end of `sys_sock_connect`, which looks for the new socket. -/
def register_connected (k : Kernel) (self : Nat) : Option Kernel :=
  match socket_manager_find k.net k.net.curr_socket with
  | none => none
  | some found => some (resource_register_self k self (found.getD 0))

def sys_sock_connect_udp (k : Kernel) (blocks : Blocks) (self : Nat) (config_ip ip : Word) (port : BitVec 16) :
    Option Kernel :=
  register_connected { k with net := Sockets.socket_connect_udp k.net blocks config_ip ip port } self

/-- The connection is the one that `tcp_connect` made. -/
def sys_sock_connect_tcp (k : Kernel) (blocks : Blocks) (self : Nat) (connection : Tcp.Socket) : Option Kernel :=
  register_connected (setTcp { k with net := Sockets.socket_connect_tcp k.net blocks } blocks.tcp_socket connection) self

def sys_sock_listen (k : Kernel) (blocks : Blocks) (self : Nat) (config_ip : Word) (port : BitVec 16) : Kernel :=
  resource_register_self { k with net := Sockets.socket_listen k.net blocks config_ip port } self blocks.socket

/-- Only UDP sockets accept; `invalid` aborts for others. -/
def sys_sock_accept (k : Kernel) (blocks : Blocks) (self socket_id : Nat) (state : AsyncState) : Option Kernel :=
  with_socket k self socket_id fun _ listener =>
    match listener.layer with
    | .tcp _ => some (abort k self)
    | .udp l =>
      match Sockets.udp_accept k.net l state with
      | none => none
      | some (net,child,state) =>
        if state = STATE_DONE ∧ child ≠ 0 then
          (Sockets.adopt_child net blocks.socket child).map fun net =>
            resource_register_self { k with net := net } self blocks.socket
        else some { k with net := net }

/-- `data` is NULL or the memory of the task. -/
def sys_sock_recv (k : Kernel) (self socket_id : Nat) (state : AsyncState) (data : Bool) (size : Word) : Option Kernel :=
  with_socket k self socket_id fun p socket =>
    if data = false then some (abort k self)
    else (Sockets.socket_recv k.net p socket state size).map fun r => { k with net := r.1 }

def sys_sock_send (env : Tcp.Env) (k : Kernel) (self socket_id : Nat) (data : Option (List UInt8)) (size : Word) :
    Option Kernel :=
  with_socket k self socket_id fun _ socket =>
    match data with
    | none => some (abort k self)
    | some data =>
      match socket.layer with
      | .udp u => (k.net.udp_socket_at u).map fun _ => k
      | .tcp t =>
        (k.net.tcp_socket_at t).map fun _ => setTcp k t (Tcp.tcp_socket_send env (k.tcp_at t) data size.toInt).1

def sys_sock_set_local_port (k : Kernel) (self socket_id : Nat) (port : BitVec 16) : Option Kernel :=
  with_socket k self socket_id fun _ socket =>
    match socket.layer with
    | .udp u => (Sockets.udp_set_local_port k.net u port).map fun net => { k with net := net }
    | .tcp t =>
      (k.net.tcp_socket_at t).map fun _ => setTcp k t { k.tcp_at t with local_port := Sockets.swap16 port }

/-- The state of the `async_t` is in the memory of the task. -/
def sys_sock_disconnect (env : Tcp.Env) (k : Kernel) (self socket_id : Nat) (state : AsyncState) : Option Kernel :=
  with_socket k self socket_id fun p _ =>
    match socket_disconnect env k p state with
    | none => none
    | some (k,state) => some (if state = STATE_DONE then resource_unregister_self k self p else k)

inductive Action where
  | datagram (srcIP dstIP : Word) (payload : List UInt8)
  /-- A connected TCP socket calls its `recv`. -/
  | segment (tcp_socket : Nat) (data : List UInt8)
  /-- Segments, timers and connects change TCP sockets and their table. -/
  | tcp (tcp_at : Nat → Tcp.Socket) (tcp_binds : List Nat)
  | start (t : Nat)
  | connect_udp (self : Nat) (config_ip ip : Word) (port : BitVec 16)
  | connect_tcp (self : Nat) (connection : Tcp.Socket)
  | listen (self : Nat) (config_ip : Word) (port : BitVec 16)
  | accept (self socket_id : Nat) (state : AsyncState)
  | recv (self socket_id : Nat) (state : AsyncState) (data : Bool) (size : Word)
  | send (self socket_id : Nat) (data : Option (List UInt8)) (size : Word)
  | set_local_port (self socket_id : Nat) (port : BitVec 16)
  | disconnect (self socket_id : Nat) (state : AsyncState)
  /-- `sys_exit`, or `sys_kill` from any task. -/
  | exit (t : Nat)
  | process (i : Nat)
  /-- Other code takes a free slot, or is done with its own. -/
  | other_task (i : Nat)

def act (env : Tcp.Env) (k : Kernel) (blocks : Blocks) : Action → Option Kernel
  | .datagram srcIP dstIP payload =>
    (Sockets.udp_ipv4_recv k.net blocks srcIP dstIP payload).map fun r => { k with net := r.1 }
  | .segment tcp_socket data =>
    (Sockets.socket_tcp_recv k.net blocks.data tcp_socket data).map fun net => { k with net := net }
  | .tcp tcp_at tcp_binds => some { k with tcp_at := tcp_at, tcp_binds := tcp_binds }
  | .start t => some (setTask k t ⟨true,[]⟩)
  | .connect_udp self config_ip ip port => sys_sock_connect_udp k blocks self config_ip ip port
  | .connect_tcp self connection => sys_sock_connect_tcp k blocks self connection
  | .listen self config_ip port => some (sys_sock_listen k blocks self config_ip port)
  | .accept self socket_id state => sys_sock_accept k blocks self socket_id state
  | .recv self socket_id state data size => sys_sock_recv k self socket_id state data size
  | .send self socket_id data size => sys_sock_send env k self socket_id data size
  | .set_local_port self socket_id port => sys_sock_set_local_port k self socket_id port
  | .disconnect self socket_id state => sys_sock_disconnect env k self socket_id state
  | .exit t => some (exit_task k t)
  | .process i => process env k i
  | .other_task i =>
    some (setAsync k i ⟨!(k.async_tasks i).taken,none,STATE_INIT⟩)

/-- The task that makes a call. -/
def caller : Action → Option Nat
  | .connect_udp self .. | .connect_tcp self .. | .listen self .. | .accept self .. | .recv self .. | .send self ..
  | .set_local_port self .. | .disconnect self .. | .exit self => some self
  | _ => none

/-- Only active tasks make calls and exit, and only connected TCP sockets call their `recv`. -/
structure Possible (k : Kernel) (a : Action) : Prop where
  active : ∀ self, caller a = some self → (k.tasks self).active = true
  segment : ∀ t data, a = .segment t data → ∃ p, k.net.tcp_socket_at t = some p
  start : ∀ t, a = .start t → (k.tasks t).active = false
  other : ∀ i, a = .other_task i → (k.async_tasks i).taken = true → (k.async_tasks i).resource = none

/-- Before there are sockets. -/
structure Booted (k : Kernel) : Prop where
  binds : k.net.binds = []
  sockets : k.net.sockets = []
  udp : ∀ p, k.net.udp_socket_at p = none
  tcp : ∀ p, k.net.tcp_socket_at p = none
  socket : ∀ p, k.net.socket_at p = none
  ids : k.net.curr_socket = SOCK_OFFSET
  tasks : ∀ t, (k.tasks t).resources = []
  async_tasks : ∀ i, (k.async_tasks i).resource = none
  polls : k.polls = []

/-- Any sequence of calls, polls, exits and packets; after a read of freed memory nothing is
    known. -/
def teardown : System (Option Kernel) Action where
  start x := ∃ k, x = some k ∧ Booted k
  step x a y := ∃ k blocks env, x = some k ∧ Possible k a ∧ Sockets.Unused k.net blocks ∧ y = act env k blocks a

end MicroOS.Teardown

import MicroOS.BindTables
import MicroOS.Buffers

/-!
The sockets of tasks over the UDP sockets of a network stack, and over connected TCP
sockets. A datagram for a listening socket makes a child that keeps its data as pending
until `socket_accept` hands it to a new socket. Blocks are kept by type, as allocations do
not overlap; `kmalloc` stops the kernel when its 32 MB are used up, so no count overflows.
-/
namespace MicroOS.Sockets
open Buffers Tcp OpenFiles TcpDemux BindTables Runs

inductive Recv where
  | NULL | socket_udp_recv | udp_pending_recv
  deriving DecidableEq

/-- A `udp_socket_t`; `data` is the address of its `socket_t`, and `pending` has `pending_data`
    and `pending_data_len`. -/
structure UdpSocket where
  remote_port : BitVec 16
  local_port : BitVec 16
  remote_ip : Word
  local_ip : Word
  listening : Bool
  data : Nat
  recv : Recv
  accept_queue : List Nat
  pending : Buffer

/-- The union of a `socket_t`, which `socket_type` tells apart. -/
inductive Layer where
  | udp (socket : Nat)
  | tcp (socket : Nat)
  deriving DecidableEq

/-- A `socket_t`; `received` has `received_data` and `num_bytes_received`. -/
structure Socket where
  layer : Layer
  socket_id : Nat
  received : Buffer

/-- The UDP side of a stack with its sockets by address, the `data` of the TCP sockets whose
    `recv` is `socket_tcp_recv`, and the socket manager. -/
structure Kernel where
  heap : Heap
  binds : List Nat
  free_port : Nat
  udp_socket_at : Nat → Option UdpSocket
  tcp_socket_at : Nat → Option Nat
  socket_at : Nat → Option Socket
  sockets : List Nat
  curr_socket : Nat

/-- What `kmalloc` returns in a call, for the sockets and for data. -/
structure Blocks where
  udp_socket : Nat
  tcp_socket : Nat
  socket : Nat
  data : Place

def setUdp (k : Kernel) (p : Nat) (socket : UdpSocket) : Kernel :=
  { k with udp_socket_at := fun a => if a = p then some socket else k.udp_socket_at a }

def setSocket (k : Kernel) (p : Nat) (socket : Socket) : Kernel :=
  { k with socket_at := fun a => if a = p then some socket else k.socket_at a }

/-- The body of `socket_udp_recv` and of `socket_tcp_recv`. -/
def receive (h : Heap) (place : Place) (b : Buffer) (data : List UInt8) : Option (Heap × Buffer) := do
  let size := data.length
  if b.data = 0 then
    let (h,received_data) := kmalloc h place size
    let h ← memcpy_in h received_data b.len data
    some (h,⟨received_data,b.len + size⟩)
  else
    let (h,new_data) := kmalloc h place (size + b.len)
    let h ← memcpy h new_data 0 b.data 0 b.len
    let h ← kfree h b.data
    let h ← memcpy_in h new_data b.len data
    some (h,⟨new_data,b.len + size⟩)

/-- `receive` into the socket that `data` points to. -/
def socket_receive (k : Kernel) (place : Place) (p : Nat) (data : List UInt8) : Option Kernel :=
  match k.socket_at p with
  | none => none
  | some socket =>
    match receive k.heap place socket.received data with
    | none => none
    | some (h,received) => some { setSocket k p { socket with received := received } with heap := h }

def socket_udp_recv (k : Kernel) (place : Place) (socket : UdpSocket) (data : List UInt8) : Option Kernel :=
  socket_receive k place socket.data data

def socket_tcp_recv (k : Kernel) (place : Place) (tcp_socket : Nat) (data : List UInt8) : Option Kernel :=
  match k.tcp_socket_at tcp_socket with
  | none => none
  | some p => socket_receive k place p data

def udp_pending (h : Heap) (place : Place) (b : Buffer) (data : List UInt8) : Option (Heap × Buffer) := do
  let size := data.length
  let (h,new_buf) := kmalloc h place (b.len + size)
  if b.data ≠ 0 then
    let h ← memcpy h new_buf 0 b.data 0 b.len
    let h ← kfree h b.data
    let h ← memcpy_in h new_buf b.len data
    some (h,⟨new_buf,b.len + size⟩)
  else
    let h ← memcpy_in h new_buf b.len data
    some (h,⟨new_buf,b.len + size⟩)

def udp_pending_recv (k : Kernel) (place : Place) (p : Nat) (socket : UdpSocket) (data : List UInt8) : Option Kernel :=
  match udp_pending k.heap place socket.pending data with
  | none => none
  | some (h,pending) => some { setUdp k p { socket with pending := pending } with heap := h }

/-- The test for a connected socket. -/
def connected (b : UdpSocket) (a : Addresses) : Bool :=
  !b.listening && b.local_port == a.dst_port && b.remote_port == a.src_port &&
    (b.remote_ip == a.srcIP || a.dstIP == 0xFFFFFFFF || a.srcIP == 0xFFFFFFFF || b.remote_ip == 0xFFFFFFFF)

/-- The test for a listening socket. -/
def listens (b : UdpSocket) (a : Addresses) : Bool :=
  b.listening && b.local_port == a.dst_port && (b.local_ip == a.dstIP || a.dstIP == 0xFFFFFFFF)

/-- The walk over the bound sockets: the first connected one, and the last listening one before it. -/
def route (socket_at : Nat → Option UdpSocket) (a : Addresses) : List Nat → Nat → Option (Nat × Nat)
  | [], listener => some (0,listener)
  | p :: rest, listener =>
    if p = 0 then route socket_at a rest listener
    else
      match socket_at p with
      | none => none
      | some b => if connected b a then some (p,listener) else route socket_at a rest (if listens b a then p else listener)

/-- The child of a listening socket, in the binds and in the queue. -/
def make_child (k : Kernel) (p : Nat) (listener : Nat) (a : Addresses) : Option Kernel :=
  match k.udp_socket_at listener with
  | none => none
  | some l =>
    let child : UdpSocket := {
      remote_port := a.src_port, local_port := l.local_port, remote_ip := a.srcIP, local_ip := l.local_ip,
      listening := false, data := 0, recv := .udp_pending_recv, accept_queue := [], pending := ⟨0,0⟩ }
    let k := { setUdp k p child with binds := udp_bind k.binds p }
    some (setUdp k listener { l with accept_queue := l.accept_queue ++ [p] })

/-- The call of `socket->recv`. -/
def call_recv (k : Kernel) (place : Place) (p : Nat) (data : List UInt8) : Option Kernel :=
  match k.udp_socket_at p with
  | none => none
  | some socket =>
    match socket.recv with
    | .NULL => some k
    | .socket_udp_recv => socket_udp_recv k place socket data
    | .udp_pending_recv => udp_pending_recv k place p socket data

/-- Bytes that a layer got for a socket, or that a task got from a socket. -/
inductive Event where
  | nothing
  | delivered (layer : Layer) (data : List UInt8)
  | returned (socket : Nat) (data : List UInt8)

def udp_ipv4_recv (k : Kernel) (blocks : Blocks) (srcIP dstIP : Word) (payload : List UInt8) : Option (Kernel × Event) :=
  if payload.length < 8 then some (k,.nothing)
  else
    match route k.udp_socket_at (addresses srcIP dstIP payload) k.binds 0 with
    | none => none
    | some (socket,listener) =>
      if socket = 0 ∧ listener ≠ 0 then
        match make_child k blocks.udp_socket listener (addresses srcIP dstIP payload) with
        | none => none
        | some k =>
          (call_recv k blocks.data blocks.udp_socket (payload.drop 8)).map fun k =>
            (k,.delivered (.udp blocks.udp_socket) (payload.drop 8))
      else if socket = 0 then some (k,.nothing)
      else (call_recv k blocks.data socket (payload.drop 8)).map fun k => (k,.delivered (.udp socket) (payload.drop 8))

abbrev AsyncState := UInt8

def STATE_INIT : AsyncState := 0
def STATE_WAIT : AsyncState := 2
def STATE_DONE : AsyncState := 255

/-- `BSWAP16`. -/
def swap16 (port : BitVec 16) : BitVec 16 := port.extractLsb' 0 8 ++ port.extractLsb' 8 8

/-- A zeroed `socket_t` with the next id, registered. -/
def socket_create (k : Kernel) (p : Nat) (layer : Layer) : Kernel :=
  { setSocket k p ⟨layer,k.curr_socket + 1,⟨0,0⟩⟩ with
    curr_socket := k.curr_socket + 1
    sockets := (store_first p k.sockets).1 }

/-- The poll of `socket_connect` in which `udp_connect` has the route. -/
def socket_connect_udp (k : Kernel) (blocks : Blocks) (config_ip ip : Word) (port : BitVec 16) : Kernel :=
  let udp_socket : UdpSocket := {
    remote_port := swap16 port, local_port := swap16 (BitVec.ofNat 16 k.free_port), remote_ip := ip, local_ip := config_ip,
    listening := false, data := blocks.socket, recv := .socket_udp_recv, accept_queue := [], pending := ⟨0,0⟩ }
  let k := { k with free_port := k.free_port + 1, binds := udp_bind k.binds blocks.udp_socket }
  setUdp (socket_create k blocks.socket (.udp blocks.udp_socket)) blocks.udp_socket udp_socket

/-- The poll of `socket_connect` in which `tcp_connect` finds the connection established. -/
def socket_connect_tcp (k : Kernel) (blocks : Blocks) : Kernel :=
  let k := socket_create k blocks.socket (.tcp blocks.tcp_socket)
  { k with tcp_socket_at := fun a => if a = blocks.tcp_socket then some blocks.socket else k.tcp_socket_at a }

def socket_listen (k : Kernel) (blocks : Blocks) (config_ip : Word) (port : BitVec 16) : Kernel :=
  let udp_socket : UdpSocket := {
    remote_port := 0, local_port := swap16 port, remote_ip := 0, local_ip := config_ip, listening := true,
    data := blocks.socket, recv := .socket_udp_recv, accept_queue := [], pending := ⟨0,0⟩ }
  let k := { k with binds := udp_bind k.binds blocks.udp_socket }
  setUdp (socket_create k blocks.socket (.udp blocks.udp_socket)) blocks.udp_socket udp_socket

/-- A poll for the first child in the queue; 0 when there is none. -/
def udp_accept (k : Kernel) (listener : Nat) (state : AsyncState) : Option (Kernel × Nat × AsyncState) :=
  match k.udp_socket_at listener with
  | none => none
  | some l =>
    if state = STATE_INIT ∨ state = STATE_WAIT then
      match l.accept_queue with
      | child :: rest => some (setUdp k listener { l with accept_queue := rest },child,STATE_DONE)
      | [] => some (k,0,STATE_WAIT)
    else some (k,0,state)

/-- A new socket for a child, which hands its pending data over. -/
def adopt_child (k : Kernel) (p child : Nat) : Option Kernel :=
  match k.udp_socket_at child with
  | none => none
  | some c =>
    let k := socket_create k p (.udp child)
    if c.pending.data ≠ 0 then
      some (setSocket (setUdp k child { c with data := p, recv := .socket_udp_recv, pending := ⟨0,0⟩ }) p
        ⟨.udp child,k.curr_socket,c.pending⟩)
    else some (setUdp k child { c with data := p, recv := .socket_udp_recv })

/-- Only UDP sockets accept; `invalid` stops the kernel for others. -/
def socket_accept (k : Kernel) (blocks : Blocks) (listener : Socket) (state : AsyncState) : Option Kernel :=
  match listener.layer with
  | .tcp _ => none
  | .udp l =>
    match udp_accept k l state with
    | none => none
    | some (k,child,state) => if state = STATE_DONE ∧ child ≠ 0 then adopt_child k blocks.socket child else some k

/-- The bytes for the task and the state of the poll afterwards. -/
def socket_recv (k : Kernel) (p : Nat) (socket : Socket) (state : AsyncState) (size : Word) :
    Option (Kernel × List UInt8 × AsyncState) :=
  if state = STATE_WAIT then
    if socket.received.len ≠ 0 then
      let num_bytes_to_copy := if socket.received.len > size.toNat then size.toNat else socket.received.len
      let rest := socket.received.len - num_bytes_to_copy
      match memcpy_out k.heap socket.received.data num_bytes_to_copy with
      | none => none
      | some data =>
        match memcpy k.heap socket.received.data 0 socket.received.data num_bytes_to_copy rest with
        | none => none
        | some h =>
          some ({ setSocket k p { socket with received := ⟨socket.received.data,rest⟩ } with heap := h },data,STATE_DONE)
    else some (k,[],state)
  else if state = STATE_DONE then some (k,[],state)
  else some (k,[],STATE_WAIT)

/-- The walk over the table of the socket manager. -/
def socket_manager_find (k : Kernel) (socket_id : Nat) : Option Nat :=
  k.sockets.find? fun p => p ≠ 0 && (k.socket_at p).any fun socket => socket.socket_id = socket_id

def udp_set_local_port (k : Kernel) (udp_socket : Nat) (port : BitVec 16) : Option Kernel :=
  (k.udp_socket_at udp_socket).map fun socket => setUdp k udp_socket { socket with local_port := swap16 port }

inductive Action where
  | datagram (srcIP dstIP : Word) (payload : List UInt8)
  /-- A connected TCP socket calls its `recv`. -/
  | segment (tcp_socket : Nat) (data : List UInt8)
  | connect_udp (config_ip ip : Word) (port : BitVec 16)
  | connect_tcp
  | listen (config_ip : Word) (port : BitVec 16)
  /-- The state of a poll is in the memory of the task. -/
  | sys_sock_accept (socket_id : Nat) (state : AsyncState)
  | sys_sock_recv (socket_id : Nat) (state : AsyncState) (size : Word)
  | set_local_port (udp_socket : Nat) (port : BitVec 16)

def act (k : Kernel) (blocks : Blocks) : Action → Option (Kernel × Event)
  | .datagram srcIP dstIP payload => udp_ipv4_recv k blocks srcIP dstIP payload
  | .segment tcp_socket data =>
    (socket_tcp_recv k blocks.data tcp_socket data).map fun k => (k,.delivered (.tcp tcp_socket) data)
  | .connect_udp config_ip ip port => some (socket_connect_udp k blocks config_ip ip port,.nothing)
  | .connect_tcp => some (socket_connect_tcp k blocks,.nothing)
  | .listen config_ip port => some (socket_listen k blocks config_ip port,.nothing)
  | .sys_sock_accept socket_id state =>
    match (socket_manager_find k socket_id).bind k.socket_at with
    | none => none
    | some listener => (socket_accept k blocks listener state).map fun k => (k,.nothing)
  | .sys_sock_recv socket_id state size =>
    match socket_manager_find k socket_id with
    | none => none
    | some p =>
      match k.socket_at p with
      | none => none
      | some socket => (socket_recv k p socket state size).map fun r => (r.1,.returned p r.2.1)
  | .set_local_port udp_socket port => (udp_set_local_port k udp_socket port).map fun k => (k,.nothing)

/-- `kmalloc` returns no NULL and no block in use. -/
structure Unused (k : Kernel) (blocks : Blocks) : Prop where
  udp_socket : blocks.udp_socket ≠ 0 ∧ k.udp_socket_at blocks.udp_socket = none
  tcp_socket : blocks.tcp_socket ≠ 0 ∧ k.tcp_socket_at blocks.tcp_socket = none
  socket : blocks.socket ≠ 0 ∧ k.socket_at blocks.socket = none
  data : Fresh k.heap blocks.data

/-- What was delivered to each layer's socket, and what tasks got from each socket. -/
structure Account where
  delivered : Layer → List UInt8
  returned : Nat → List UInt8

def Account.record (a : Account) : Event → Account
  | .nothing => a
  | .delivered layer data => { a with delivered := Function.update a.delivered layer (a.delivered layer ++ data) }
  | .returned socket data => { a with returned := Function.update a.returned socket (a.returned socket ++ data) }

/-- Any sequence of datagrams, segments and calls, from the start of the stack. -/
def socket_system : System (Kernel × Account) Action where
  start x := x.1.binds = [] ∧ x.1.sockets = [] ∧ (∀ p, x.1.udp_socket_at p = none) ∧ (∀ p, x.1.tcp_socket_at p = none) ∧
    (∀ p, x.1.socket_at p = none) ∧ x.2 = ⟨fun _ => [],fun _ => []⟩
  step x action y := ∃ blocks event, Unused x.1 blocks ∧ act x.1 blocks action = some (y.1,event) ∧ y.2 = x.2.record event

end MicroOS.Sockets

import Mathlib.Tactic

/-!
A TCP socket of the kernel: sending, retransmission, the receiving state machine
and the timers of `tcp.c`. Each function returns the socket afterwards and what it
did on the way: packets handed to `ipv4_send`, payloads handed to `socket->recv`,
and copies that leave the packet they were made for.
-/
namespace MicroOS.Tcp

abbrev Word := BitVec 32

def TCP_CTL_TIMEOUT_MS : Nat := 300
def TCP_CTL_MAX_RETRIES : Nat := 8
def TCP_RETRANSMIT_TIMEOUT_MS : Nat := 100
def TCP_RETRANSMIT_MAX_RETRIES : Nat := 8

/-- `sizeof(tcp_header_t)` and `sizeof(tcp_pseudo_header_t)`. -/
def tcp_header_size : Nat := 24
def tcp_pseudo_header_size : Nat := 12

inductive State where
  | CLOSED | LISTEN | SYN_SENT | SYN_RECEIVED | ESTABLISHED | FIN_WAIT1 | FIN_WAIT2 | CLOSING | TIME_WAIT | CLOSE_WAIT
  deriving DecidableEq, Repr

/-- The flag byte, bit by bit. -/
structure Flags where
  fin : Bool := false
  syn : Bool := false
  rst : Bool := false
  psh : Bool := false
  ack : Bool := false
  urg : Bool := false
  ece : Bool := false
  cwr : Bool := false
  deriving DecidableEq, Repr

def SYN : Flags := { syn := true }
def RST : Flags := { rst := true }
def ACK : Flags := { ack := true }
def FIN_ACK : Flags := { fin := true, ack := true }
def PSH_ACK : Flags := { psh := true, ack := true }

def Flags.ofByte (b : UInt8) : Flags where
  fin := b.toNat.testBit 0
  syn := b.toNat.testBit 1
  rst := b.toNat.testBit 2
  psh := b.toNat.testBit 3
  ack := b.toNat.testBit 4
  urg := b.toNat.testBit 5
  ece := b.toNat.testBit 6
  cwr := b.toNat.testBit 7

structure Socket where
  remote_port : BitVec 16
  local_port : BitVec 16
  remote_ip : Word
  local_ip : Word
  route_mac : BitVec 48
  sequence_number : Word
  ack_number : Word
  state : State
  tx_unacked_data : Option (List UInt8)
  tx_unacked_len : Word
  tx_unacked_seq : Word
  tx_unacked_flags : Flags
  tx_last_send_ms : Word
  tx_retries : BitVec 8
  tx_max_retries : BitVec 8

/-- A segment as its receiver reads it. -/
structure Packet where
  src_port : BitVec 16
  dst_port : BitVec 16
  sequence_number : Word
  ack_number : Word
  flags : Flags
  window_size : BitVec 16
  options : Word
  payload : List UInt8

inductive Event where
  | ipv4_send (dest : Word) (route : BitVec 48) (packet : Packet)
  | recv (data : List UInt8)
  | overflow

/-- What a call finds around it: the clock, and the bytes that `kmalloc` leaves in
    a new packet. -/
structure Env where
  now : Word
  fresh : Nat → UInt8

def tcp_seq_after_eq (a b : Word) : Bool := decide (0 ≤ (a - b).toInt)

def tcp_tx_clear_unacked (s : Socket) : Socket :=
  { s with
    tx_unacked_data := none
    tx_unacked_len := 0
    tx_unacked_seq := 0
    tx_unacked_flags := {}
    tx_last_send_ms := 0
    tx_retries := 0 }

def tcp_tx_track_unacked (env : Env) (s : Socket) (data : List UInt8) (flags : Flags) (seq_at_send : Word) : Socket :=
  if data.length = 0 ∨ flags.psh = false then s
  else
    { s with
      tx_unacked_data := some data
      tx_unacked_len := BitVec.ofNat 32 data.length
      tx_unacked_seq := seq_at_send
      tx_unacked_flags := flags
      tx_last_send_ms := env.now
      tx_retries := 0
      tx_max_retries := if s.tx_max_retries = 0 then BitVec.ofNat 8 TCP_RETRANSMIT_MAX_RETRIES else s.tx_max_retries }

/-- The length of a segment and of its packet, both cut to 16 bits. -/
def total_length (size : Int) : Nat := ((size + tcp_header_size) % 2 ^ 16).toNat
def length_phdr (size : Int) : Nat := (total_length size + tcp_pseudo_header_size) % 2 ^ 16

/-- What goes out behind the header: the bytes copied there, and what the packet
    held before. -/
def body (env : Env) (bytes : List UInt8) (size : Int) : List UInt8 :=
  (List.range (total_length size - tcp_header_size)).map (fun i => bytes.getD i (env.fresh i))

/-- Hands a segment to `ipv4_send`; its packet has `length_phdr size` bytes. -/
def transmit (env : Env) (s : Socket) (seq : Word) (flags : Flags) (options : Word) (bytes : List UInt8) (size : Int) :
    List Event :=
  (if length_phdr size < tcp_pseudo_header_size + tcp_header_size + bytes.length then [.overflow] else []) ++
  [.ipv4_send s.remote_ip s.route_mac {
    src_port := s.local_port
    dst_port := s.remote_port
    sequence_number := seq
    ack_number := s.ack_number
    flags := flags
    window_size := 0xFFFF
    options := options
    payload := body env bytes size }]

def tcp_socket_resend_unacked (env : Env) (s : Socket) : Socket × List Event :=
  match s.tx_unacked_data with
  | none => (s,[])
  | some data =>
    if s.tx_unacked_len = 0 then (s,[])
    else
      ({ s with tx_last_send_ms := env.now, tx_retries := s.tx_retries + 1 },
        transmit env s s.tx_unacked_seq s.tx_unacked_flags 0 data s.tx_unacked_len.toNat)

/-- `data` is `none` for NULL; `size` is the `int` of the caller, also when negative. -/
def tcp_socket_send_internal (env : Env) (s : Socket) (data : Option (List UInt8)) (size : Int) (flags : Flags) :
    Socket × List Event :=
  let seq_consume : Word := if flags.syn || flags.fin then 1 else 0
  let bytes := (data.getD []).take size.toNat
  let t := tcp_tx_track_unacked env s bytes flags s.sequence_number
  ({ t with sequence_number := s.sequence_number + BitVec.ofNat 32 bytes.length + seq_consume },
    transmit env s s.sequence_number flags (if flags.syn then 0xB4050402 else 0) bytes size)

/-- A segment without data. -/
def send_control (env : Env) (s : Socket) (flags : Flags) : Socket × List Event := tcp_socket_send_internal env s none 0 flags

def tcp_socket_send (env : Env) (s : Socket) (data : List UInt8) (size : Int) : Socket × List Event :=
  tcp_socket_send_internal env s (some data) size PSH_ACK

/-- The socket that `tcp_connect` makes once the route is resolved, and its SYN. -/
def tcp_connect (env : Env) (remote_ip local_ip : Word) (remote_port local_port : BitVec 16) (route : BitVec 48) :
    Socket × List Event :=
  send_control env {
    remote_port := remote_port
    local_port := local_port
    remote_ip := remote_ip
    local_ip := local_ip
    route_mac := route
    sequence_number := env.now
    ack_number := 0
    state := .SYN_SENT
    tx_unacked_data := none
    tx_unacked_len := 0
    tx_unacked_seq := 0
    tx_unacked_flags := {}
    tx_last_send_ms := 0
    tx_retries := 0
    tx_max_retries := 0 } SYN

/-- A segment after its header was checked. -/
structure Segment where
  sequence_number : Word
  ack_number : Word
  flags : Flags
  payload : List UInt8

def byteAt (bytes : List UInt8) (i : Nat) : UInt8 := bytes.getD i 0

/-- The big-endian word at an offset. -/
def be32 (bytes : List UInt8) (i : Nat) : Word :=
  BitVec.ofNat 32 (2 ^ 24 * (byteAt bytes i).toNat + 2 ^ 16 * (byteAt bytes (i+1)).toNat +
    2 ^ 8 * (byteAt bytes (i+2)).toNat + (byteAt bytes (i+3)).toNat)

/-- The header fields, unless the header's own size is too small or leaves the segment. -/
def read_header (bytes : List UInt8) : Option Segment :=
  let header_bytes := (byteAt bytes 12).toNat / 16 * 4
  if header_bytes < 20 ∨ header_bytes > bytes.length then none
  else some {
    sequence_number := be32 bytes 4
    ack_number := be32 bytes 8
    flags := .ofByte (byteAt bytes 13)
    payload := bytes.drop header_bytes }

/-- An acceptable acknowledgement of all unacknowledged data clears it. -/
def recv_ack (s : Socket) (tcp : Segment) : Socket :=
  if tcp.flags.ack && s.tx_unacked_len != 0 then
    let end_seq := s.tx_unacked_seq + s.tx_unacked_len
    if !tcp_seq_after_eq tcp.ack_number s.tx_unacked_seq || tcp_seq_after_eq tcp.ack_number (s.sequence_number + 1) then s
    else if tcp_seq_after_eq tcp.ack_number end_seq then tcp_tx_clear_unacked s
    else s
  else s

/-- The cases `FIN` and `FIN | ACK`; the last component asks for a reset. -/
def recv_fin (env : Env) (s : Socket) (tcp : Segment) : Socket × List Event × Bool :=
  if tcp.sequence_number ≠ s.ack_number then
    let (s,sent) := send_control env s ACK
    (s,sent,false)
  else
    let s := { s with ack_number := tcp.sequence_number + BitVec.ofNat 32 tcp.payload.length + 1 }
    match s.state with
    | .ESTABLISHED =>
      let (s,sent) := send_control env { s with state := .CLOSE_WAIT } ACK
      let (s,sent') := send_control env s FIN_ACK
      (s,sent ++ sent',false)
    | .CLOSE_WAIT => ({ s with state := .CLOSED },[],false)
    | .FIN_WAIT1 | .FIN_WAIT2 =>
      let (s,sent) := send_control env { s with state := .CLOSED } ACK
      (s,sent,false)
    | _ => (s,[],true)

/-- The case `SYN | ACK`. -/
def recv_syn_ack (env : Env) (s : Socket) (tcp : Segment) : Socket × List Event × Bool :=
  if s.state = .SYN_SENT then
    let (s,sent) := send_control env { s with state := .ESTABLISHED, ack_number := tcp.sequence_number + 1 } ACK
    (s,sent,false)
  else (s,[],true)

/-- The default case: data in sequence is delivered, and every segment with data is answered. -/
def recv_data (env : Env) (s : Socket) (tcp : Segment) : Socket × List Event × Bool :=
  if tcp.payload.length = 0 then (s,[],false)
  else if tcp.sequence_number = s.ack_number then
    let (s,sent) := send_control env { s with ack_number := s.ack_number + BitVec.ofNat 32 tcp.payload.length } ACK
    (s,.recv tcp.payload :: sent,false)
  else
    let (s,sent) := send_control env s ACK
    (s,sent,false)

/-- The case `ACK`, which falls through to the data except in `CLOSE_WAIT`. -/
def recv_pure_ack (env : Env) (s : Socket) (tcp : Segment) : Socket × List Event × Bool :=
  match s.state with
  | .SYN_RECEIVED => recv_data env { s with state := .ESTABLISHED } tcp
  | .FIN_WAIT1 =>
    recv_data env (if tcp.ack_number = s.sequence_number then { s with state := .FIN_WAIT2 } else s) tcp
  | .CLOSE_WAIT => ({ s with state := .CLOSED },[],false)
  | _ => recv_data env s tcp

/-- The switch over `SYN`, `ACK` and `FIN`. -/
def recv_switch (env : Env) (s : Socket) (tcp : Segment) : Socket × List Event × Bool :=
  match tcp.flags.syn, tcp.flags.ack, tcp.flags.fin with
  | true, false, false => (s,[],true)
  | true, true, false => recv_syn_ack env s tcp
  | true, _, true => (s,[],true)
  | false, _, true => recv_fin env s tcp
  | false, true, false => recv_pure_ack env s tcp
  | false, false, false => recv_data env s tcp

/-- `tcp_ipv4_recv` for the socket that the segment was routed to. A socket that is
    `CLOSED` afterwards is taken out of the bound ones. -/
def tcp_ipv4_recv (env : Env) (s : Socket) (tcp : Segment) : Socket × List Event :=
  let s := recv_ack s tcp
  let s := if tcp.flags.rst then { s with state := .CLOSED } else s
  let (s,events,reset) := if s.state = .CLOSED then (s,[],false) else recv_switch env s tcp
  let (s,sent) := if reset then
      let (s,sent) := send_control env s RST
      ({ s with state := .CLOSED },sent)
    else (s,[])
  (if s.state = .CLOSED then tcp_tx_clear_unacked s else s,events ++ sent)

/-- One socket's turn in `tcp_poll`. -/
def tcp_poll (env : Env) (s : Socket) : Socket × List Event :=
  if s.state = .CLOSED then (s,[])
  else if s.state = .SYN_SENT then
    let last := if s.tx_last_send_ms = 0 then env.now else s.tx_last_send_ms
    if TCP_CTL_TIMEOUT_MS ≤ (env.now - last).toNat then
      if TCP_CTL_MAX_RETRIES ≤ s.tx_retries.toNat then (tcp_tx_clear_unacked { s with state := .CLOSED },[])
      else send_control env { s with tx_last_send_ms := env.now, tx_retries := s.tx_retries + 1 } SYN
    else ({ s with tx_last_send_ms := last },[])
  else if s.tx_unacked_len = 0 ∨ s.tx_unacked_data = none then (s,[])
  else if s.tx_last_send_ms = 0 then ({ s with tx_last_send_ms := env.now },[])
  else
    let timeout := TCP_RETRANSMIT_TIMEOUT_MS * 2 ^ min 4 s.tx_retries.toNat
    if timeout ≤ (env.now - s.tx_last_send_ms).toNat then
      let maxr := if s.tx_max_retries = 0 then TCP_RETRANSMIT_MAX_RETRIES else s.tx_max_retries.toNat
      if maxr ≤ s.tx_retries.toNat then (tcp_tx_clear_unacked { s with state := .CLOSED },[])
      else tcp_socket_resend_unacked env s
    else (s,[])

/-- `STATE_INIT` of `tcp_socket_disconnect`. -/
def tcp_socket_disconnect (env : Env) (s : Socket) : Socket × List Event :=
  if s.state = .ESTABLISHED then
    let (s,sent) := send_control env { s with state := .FIN_WAIT1 } FIN_ACK
    ({ s with sequence_number := s.sequence_number + 1 },sent)
  else (s,[])

end MicroOS.Tcp

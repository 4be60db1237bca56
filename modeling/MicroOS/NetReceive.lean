import MicroOS.Tcp

/-!
The way of a received frame: `etherframe_nic_recv`, then ARP or IPv4, then ICMP, UDP
or TCP. Next to the network stack each function returns what it touched of the frame:
the header fields it read or wrote and the (payload,size) pairs it handed on. Places
in the frame are 32-bit offsets from its first byte, as the pointers of the code are;
the memory reaches beyond the frame.
-/
namespace MicroOS.NetReceive
open Tcp (Word Socket Segment Flags Env State)

/-- The byte at an offset from the start of the frame. -/
abbrev Memory := Word → UInt8

/-- Loads of the little-endian machine. -/
def load8 (m : Memory) (o : Word) : Nat := (m o).toNat
def load16 (m : Memory) (o : Word) : BitVec 16 := BitVec.ofNat 16 (load8 m o + 2 ^ 8 * load8 m (o + 1))
def load32 (m : Memory) (o : Word) : Word :=
  BitVec.ofNat 32 (load8 m o + 2 ^ 8 * load8 m (o + 1) + 2 ^ 16 * load8 m (o + 2) + 2 ^ 24 * load8 m (o + 3))
def load48 (m : Memory) (o : Word) : BitVec 48 :=
  BitVec.ofNat 48 ((load32 m o).toNat + 2 ^ 32 * (load16 m (o + 4)).toNat)

def BSWAP16 (n : BitVec 16) : BitVec 16 := BitVec.ofNat 16 (n.toNat % 2 ^ 8 * 2 ^ 8 + n.toNat / 2 ^ 8)
def BSWAP32 (n : Word) : Word :=
  BitVec.ofNat 32 (n.toNat / 2 ^ 24 + 2 ^ 8 * (n.toNat / 2 ^ 16 % 2 ^ 8) + 2 ^ 16 * (n.toNat / 2 ^ 8 % 2 ^ 8) +
    2 ^ 24 * (n.toNat % 2 ^ 8))

/-- The sizes of the headers. -/
def sizeof_ether_frame_header : Word := 14
def sizeof_ipv4_message : Word := 20
def sizeof_udp_header : Word := 8
def sizeof_icmp_message : Word := 8
def sizeof_arp_message : Word := 28

inductive Access where
  | read (offset : Word) (size : Nat)
  | write (offset : Word) (size : Nat)
  | hand (offset size : Word)
  deriving DecidableEq

/-- What a chain of checks joined by `&&` reads, up to the first that fails. -/
def checks : List (Access × Bool) → Bool × List Access
  | [] => (true,[])
  | (a,ok) :: rest => if ok then ((checks rest).1,a :: (checks rest).2) else (false,[a])

structure UdpSocket where
  remote_port : BitVec 16
  local_port : BitVec 16
  remote_ip : Word
  local_ip : Word
  listening : Bool
  /-- `recv` is not NULL. -/
  wired : Bool
  route_mac : BitVec 48

/-- What the receive path reads and changes of a network stack and its card. -/
structure Stack where
  mac : BitVec 48
  ip : Word
  subnet_mask : Word
  gateway_ip : Word
  ip_cache : Nat → Word
  mac_cache : Nat → BitVec 48
  num_cache_entry : Nat
  last_echo_reply_ip : Word
  udp_binds : List (Option UdpSocket)
  tcp_binds : List (Option Socket)

def CACHE_SIZE : Nat := 128
def NOMAC : BitVec 48 := 0xFFFFFFFFFFFF

def arp_add_to_cache (st : Stack) (mac : BitVec 48) (ip : Word) : Stack :=
  if (List.range CACHE_SIZE).any (fun i => st.ip_cache i = ip) then st
  else
    let n := if st.num_cache_entry < 128 then st.num_cache_entry else 0
    { st with
      ip_cache := Function.update st.ip_cache n ip
      mac_cache := Function.update st.mac_cache n mac
      num_cache_entry := n + 1 }

def arp_get_mac_from_cache (st : Stack) (ip : Word) : BitVec 48 :=
  match (List.range CACHE_SIZE).find? (fun i => st.ip_cache i = ip) with
  | some i => st.mac_cache i
  | none => NOMAC

/-- Answering a request overwrites it; nothing reads the frame after that. -/
def arp_etherframe_recv (st : Stack) (m : Memory) (payload size : Word) : Stack × List Access :=
  if size < sizeof_arp_message then (st,[])
  else
    let (for_me,log) := checks [
      (.read payload 2,load16 m payload == 0x0100),
      (.read (payload + 2) 2,load16 m (payload + 2) == 0x0008),
      (.read (payload + 4) 1,load8 m (payload + 4) == 6),
      (.read (payload + 5) 1,load8 m (payload + 5) == 4),
      (.read (payload + 24) 4,load32 m (payload + 24) == st.ip)]
    if for_me then
      let command := load16 m (payload + 6)
      if command = 0x0100 then
        (st,log ++ [.read (payload + 6) 2,.write (payload + 6) 2,.read (payload + 14) 4,.write (payload + 24) 4,
          .read (payload + 8) 6,.write (payload + 18) 6,.write (payload + 14) 4,.write (payload + 8) 6,.read payload 28])
      else if command = 0x0200 then
        (arp_add_to_cache st (load48 m (payload + 8)) (load32 m (payload + 14)),
          log ++ [.read (payload + 6) 2,.read (payload + 8) 6,.read (payload + 14) 4])
      else (st,log ++ [.read (payload + 6) 2])
    else (st,log)

/-- The answer to an echo request is made later, from a copy of the message. -/
def icmp_ipv4_recv (st : Stack) (m : Memory) (srcIP : Word) (payload size : Word) : Stack × List Access :=
  if size < sizeof_icmp_message then (st,[])
  else
    match load8 m payload with
    | 0 => ({ st with last_echo_reply_ip := srcIP },[.read payload 1])
    | 8 => (st,[.read payload 1,.read payload 8])
    | 3 => (st,[.read payload 1,.read (payload + 1) 1])
    | _ => (st,[.read payload 1])

/-- The first connected socket of a datagram, the last listening one before it, and
    the ports that were read on the way. -/
def udp_find (srcIP dstIP : Word) (src_port dst_port : BitVec 16) (payload : Word) :
    List (Option UdpSocket) → Option UdpSocket → Option UdpSocket × Option UdpSocket × List Access
  | [], listener => (none,listener,[])
  | none :: binds, listener => udp_find srcIP dstIP src_port dst_port payload binds listener
  | some socket :: binds, listener =>
    let ports := .read (payload + 2) 2 ::
      if !socket.listening && socket.local_port == dst_port then [Access.read payload 2] else []
    if !socket.listening && socket.local_port == dst_port && socket.remote_port == src_port &&
        (socket.remote_ip == srcIP || dstIP == 0xFFFFFFFF || srcIP == 0xFFFFFFFF || socket.remote_ip == 0xFFFFFFFF) then
      (some socket,listener,ports)
    else
      let listener := if socket.listening && socket.local_port == dst_port &&
        (socket.local_ip == dstIP || dstIP == 0xFFFFFFFF) then some socket else listener
      let (found,listener,more) := udp_find srcIP dstIP src_port dst_port payload binds listener
      (found,listener,ports ++ more)

/-- Puts a socket into the first free bind or behind the last. -/
def bind {Sock : Type} (socket : Sock) : List (Option Sock) → List (Option Sock)
  | [] => [some socket]
  | none :: binds => some socket :: binds
  | some other :: binds => some other :: bind socket binds

def udp_ipv4_recv (st : Stack) (m : Memory) (srcIP dstIP : Word) (payload size : Word) : Stack × List Access :=
  if size < sizeof_udp_header then (st,[])
  else
    let src_port := load16 m payload
    let (found,listener,ports) := udp_find srcIP dstIP src_port (load16 m (payload + 2)) payload st.udp_binds none
    let given : List Access := [.hand (payload + sizeof_udp_header) (size - sizeof_udp_header)]
    match found, listener with
    | some socket, _ => (st,ports ++ if socket.wired then given else [])
    | none, some listener =>
      let route_ip := if srcIP &&& st.subnet_mask ≠ st.ip &&& st.subnet_mask ∧ srcIP ≠ 0xFFFFFFFF then st.gateway_ip
        else srcIP
      let child : UdpSocket := {
        remote_port := src_port
        local_port := listener.local_port
        remote_ip := srcIP
        local_ip := listener.local_ip
        listening := false
        wired := true
        route_mac := arp_get_mac_from_cache st route_ip }
      ({ st with udp_binds := bind child st.udp_binds },ports ++ .read payload 2 :: given)
    | none, none => (st,ports)

/-- Whether a TCP socket takes the segments from a port. No TCP socket listens. -/
def tcp_takes (srcIP : Word) (src_port : BitVec 16) (socket : Socket) : Bool :=
  socket.remote_port == src_port && socket.remote_ip == srcIP

/-- The segment behind a header of a checked size. -/
def tcp_segment (m : Memory) (payload size header_bytes : Word) : Segment where
  sequence_number := BSWAP32 (load32 m (payload + 4))
  ack_number := BSWAP32 (load32 m (payload + 8))
  flags := .ofByte (m (payload + 13))
  payload := (List.range (size - header_bytes).toNat).map (fun i => m (payload + header_bytes + BitVec.ofNat 32 i))

/-- Payloads for `socket->recv` all start behind the header. -/
def tcp_given (payload size header_bytes : Word) (events : List Tcp.Event) : List Access :=
  events.filterMap fun
    | .recv _ => some (.hand (payload + header_bytes) (size - header_bytes))
    | _ => none

/-- The binds after a segment for the first socket that takes it, and what came of it. -/
def tcp_find (env : Env) (srcIP : Word) (src_port : BitVec 16) (tcp : Segment) :
    List (Option Socket) → Option (List (Option Socket) × List Tcp.Event)
  | [] => none
  | none :: binds => (tcp_find env srcIP src_port tcp binds).map (fun (binds,events) => (none :: binds,events))
  | some socket :: binds =>
    if tcp_takes srcIP src_port socket then
      let (socket,events) := Tcp.tcp_ipv4_recv env socket tcp
      some ((if socket.state = .CLOSED then none else some socket) :: binds,events)
    else (tcp_find env srcIP src_port tcp binds).map (fun (binds,events) => (some socket :: binds,events))

/-- The size of the header is read before anything is known about the size of the segment. -/
def tcp_ipv4_recv (env : Env) (st : Stack) (m : Memory) (srcIP : Word) (payload size : Word) : Stack × List Access :=
  let header_bytes := BitVec.ofNat 32 (load8 m (payload + 12) / 2 ^ 4 * 4)
  if header_bytes < 20 ∨ size < header_bytes then (st,[.read (payload + 12) 1])
  else
    let ports : List Access :=
      if st.tcp_binds.any Option.isSome then [.read (payload + 2) 2,.read payload 2] else []
    match tcp_find env srcIP (load16 m payload) (tcp_segment m payload size header_bytes) st.tcp_binds with
    | none => (st,.read (payload + 12) 1 :: ports)
    | some (binds,events) =>
      ({ st with tcp_binds := binds },.read (payload + 12) 1 :: ports ++
        [.read (payload + 4) 4,.read (payload + 8) 4,.read (payload + 13) 1] ++
        tcp_given payload size header_bytes events)

/-- The protocols in the order they are registered. -/
inductive Protocol where
  | icmp | udp | tcp
  deriving DecidableEq, Repr

def Protocol.number : Protocol → Nat
  | .icmp => 0x01
  | .udp => 0x11
  | .tcp => 0x06

def protocol_recv (env : Env) (p : Protocol) (st : Stack) (m : Memory) (srcIP dstIP payload size : Word) :
    Stack × List Access :=
  match p with
  | .icmp => icmp_ipv4_recv st m srcIP payload size
  | .udp => udp_ipv4_recv st m srcIP dstIP payload size
  | .tcp => tcp_ipv4_recv env st m srcIP payload size

/-- The loop over the registered handlers. -/
def ipv4_dispatch (env : Env) (m : Memory) (payload given rest : Word) : List Protocol → Stack → Stack × List Access
  | [], st => (st,[])
  | p :: handlers, st =>
    if p.number = load8 m (payload + 9) then
      let (st,log) := protocol_recv env p st m (load32 m (payload + 12)) (load32 m (payload + 16)) given rest
      let (st,more) := ipv4_dispatch env m payload given rest handlers st
      (st,.read (payload + 9) 1 :: .read (payload + 12) 4 :: .read (payload + 16) 4 :: .hand given rest :: log ++ more)
    else
      let (st,more) := ipv4_dispatch env m payload given rest handlers st
      (st,.read (payload + 9) 1 :: more)

def ipv4_header_bytes (m : Memory) (payload : Word) : Word := BitVec.ofNat 32 (load8 m payload % 2 ^ 4 * 4)

/-- The length the header tells, unless it is 0 or more than arrived. -/
def ipv4_length (m : Memory) (payload size : Word) : Word :=
  let total_length := (BSWAP16 (load16 m (payload + 2))).setWidth 32
  if total_length = 0 ∨ size < total_length then size else total_length

def ipv4_etherframe_recv (env : Env) (st : Stack) (m : Memory) (payload size : Word) : Stack × List Access :=
  if size < sizeof_ipv4_message then (st,[])
  else if load8 m payload / 2 ^ 4 ≠ 4 then (st,[.read payload 1])
  else
    let header_bytes := ipv4_header_bytes m payload
    if load32 m (payload + 16) = st.ip ∨ load32 m (payload + 16) = 0xFFFFFFFF ∨ st.ip = 0 then
      let (st,log) := ipv4_dispatch env m payload (payload + header_bytes) (ipv4_length m payload size - header_bytes)
        [.icmp,.udp,.tcp] st
      (st,[.read payload 1,.read (payload + 16) 4,.read (payload + 2) 2] ++ log)
    else (st,[.read payload 1,.read (payload + 16) 4])

/-- The ether types in the order they are registered, as they stand in the frame. -/
inductive EtherType where
  | arp | ipv4
  deriving DecidableEq, Repr

def EtherType.ether_type_be : EtherType → BitVec 16
  | .arp => BSWAP16 0x806
  | .ipv4 => BSWAP16 0x0800

def ether_recv (env : Env) (t : EtherType) (st : Stack) (m : Memory) (payload size : Word) : Stack × List Access :=
  match t with
  | .arp => arp_etherframe_recv st m payload size
  | .ipv4 => ipv4_etherframe_recv env st m payload size

def ether_dispatch (env : Env) (m : Memory) (len : Word) : List EtherType → Stack → Stack × List Access
  | [], st => (st,[])
  | t :: handlers, st =>
    if t.ether_type_be = load16 m 12 then
      let (st,log) := ether_recv env t st m sizeof_ether_frame_header (len - sizeof_ether_frame_header)
      let (st,more) := ether_dispatch env m len handlers st
      (st,.read 12 2 :: .hand sizeof_ether_frame_header (len - sizeof_ether_frame_header) :: log ++ more)
    else
      let (st,more) := ether_dispatch env m len handlers st
      (st,.read 12 2 :: more)

/-- Whether a frame is for this card. -/
def accepted (st : Stack) (m : Memory) : Bool := load48 m 0 == 0xFFFFFFFFFFFF || load48 m 0 == st.mac

def etherframe_nic_recv (env : Env) (st : Stack) (m : Memory) (len : Word) : Stack × List Access :=
  if accepted st m then
    let (st,log) := ether_dispatch env m len [.arp,.ipv4] st
    (st,[.read 6 6,.read 0 6] ++ log)
  else (st,[.read 6 6,.read 0 6])

end MicroOS.NetReceive

import MicroOS.Memory
import MicroOS.Runs

/-!
A tunnel between two processes: a shared page with a state, a number of bytes and a
message. One process polls `ipc_init_host` and the other runs `ipc_init`; then one of them
sends messages to the other. Every step is one access to the tunnel, so the processes
may change places between any two of them.
-/
namespace MicroOS.Ipc
open Memory Runs

/-- `ipc_communication_tunnel_state` -/
inductive TunnelState
  | handshake_start
  | handshake_ack
  | connection_ok
  | wait_for_answer
deriving DecidableEq

/-- An `ipc_communication_tunnel_t` and the bytes behind it. -/
structure Tunnel where
  state : TunnelState
  sended_bytes : Nat
  bytes : Bytes

/-- What is left of the page for a message. -/
def room : Nat := 4096 - 8

/-- The size of a message is an `int`. -/
structure Message where
  bytes : List UInt8
  small : bytes.length < 2 ^ 31

/-- The polls of `ipc_init_host`: before its test, before one of its writes, and after `true`. -/
inductive Host
  | checking
  | restarting
  | accepting
  | connected
deriving DecidableEq

/-- `ipc_init`: in its first loop, before its write, in its second loop, and after it. -/
inductive Client
  | waiting_start
  | acknowledging
  | waiting_ok
  | connected
deriving DecidableEq

/-- `ipc_message_send`: before the size is written, before byte `k` or the state is, and in its loop. -/
inductive Sender
  | idle
  | sizing (m : Message)
  | copying (m : Message) (k : Nat)
  | waiting (m : Message)
  | aborted

/-- `ipc_message_ready` and, once it was successful, `ipc_ok`. -/
inductive Receiver
  | polling
  | copying (size : Nat) (out : List UInt8)
  | answering
  | releasing
  | aborted

/-- Both processes, and what was sent and received. -/
structure State where
  tunnel : Tunnel
  host : Host
  client : Client
  host_sends : Bool
  sender : Sender
  receiver : Receiver
  /-- What the receiver has behind its page. -/
  behind : Bytes
  /-- The messages whose `ipc_message_send` has returned. -/
  returned : List Message
  /-- What every successful `ipc_message_ready` has copied. -/
  delivered : List (List UInt8)

inductive Action
  | host
  | client
  | send (m : Message)
  | sender
  | receiver

def ipc_init_host (s : State) : Option State :=
  match s.host with
  | .checking => some { s with host := if s.tunnel.state ≠ .handshake_ack then .restarting else .accepting }
  | .restarting => some { s with tunnel.state := .handshake_start, host := .checking }
  | .accepting => some { s with tunnel.state := .connection_ok, host := .connected }
  | .connected => none

def ipc_init (s : State) : Option State :=
  match s.client with
  | .waiting_start => some { s with client := if s.tunnel.state ≠ .handshake_start then .waiting_start else .acknowledging }
  | .acknowledging => some { s with tunnel.state := .handshake_ack, client := .waiting_ok }
  | .waiting_ok => some { s with client := if s.tunnel.state ≠ .connection_ok then .waiting_ok else .connected }
  | .connected => none

/-- The process that sends, or the other one, is through its handshake. -/
def connected (s : State) (sends : Bool) : Prop := if s.host_sends = sends then s.host = .connected else s.client = .connected

instance (s : State) (sends : Bool) : Decidable (connected s sends) := by
  unfold connected
  infer_instance

/-- A call of `ipc_message_send` begins with its assertion. -/
def begin_send (s : State) (m : Message) : Option State :=
  match s.sender with
  | .idle => some { s with sender := if s.tunnel.state = .connection_ok then .sizing m else .aborted }
  | _ => none

/-- Byte `k` of a message is written; what does not fit into the page goes to memory of the sender. -/
def Tunnel.write (t : Tunnel) (k : Nat) (b : UInt8) : Tunnel := if k < room then { t with bytes := storeByte t.bytes k b } else t

def ipc_message_send (s : State) : Option State :=
  match s.sender with
  | .sizing m => some { s with tunnel.sended_bytes := m.bytes.length, sender := .copying m 0 }
  | .copying m k =>
    match m.bytes[k]? with
    | some b => some { s with tunnel := s.tunnel.write k b, sender := .copying m (k + 1) }
    | none => some { s with tunnel.state := .wait_for_answer, sender := .waiting m }
  | .waiting m =>
    if s.tunnel.state = .wait_for_answer then some s else some { s with sender := .idle, returned := s.returned ++ [m] }
  | .idle | .aborted => none

def ipc_message_receive (s : State) : Option State :=
  match s.receiver with
  | .polling => some { s with
      receiver := if s.tunnel.state = .wait_for_answer then .copying s.tunnel.sended_bytes [] else .polling }
  | .copying size out =>
    if out.length < size then
      let byte := if out.length < room then s.tunnel.bytes out.length else s.behind out.length
      some { s with receiver := .copying size (out ++ [byte]) }
    else some { s with receiver := .answering, delivered := s.delivered ++ [out] }
  | .answering => some { s with receiver := if s.tunnel.state = .wait_for_answer then .releasing else .aborted }
  | .releasing => some { s with tunnel.state := .connection_ok, receiver := .polling }
  | .aborted => none

def next (s : State) : Action → Option State
  | .host => ipc_init_host s
  | .client => ipc_init s
  | .send m => if connected s true then begin_send s m else none
  | .sender => ipc_message_send s
  | .receiver => if connected s false then ipc_message_receive s else none

/-- A zeroed tunnel says `IPC_HANDSHAKE_START`. -/
def ipc_system : System State Action where
  start s := s.tunnel = ⟨.handshake_start,0,fun _ => 0⟩ ∧ s.host = .checking ∧ s.client = .waiting_start ∧ s.sender = .idle ∧
    s.receiver = .polling ∧ s.returned = [] ∧ s.delivered = []
  step s a t := next s a = some t

/-- The host does not replace `IPC_HANDSHAKE_ACK` by `IPC_HANDSHAKE_START`. -/
def Kept (s : State) : Prop :=
  ∀ t, next s .host = some t → s.tunnel.state = .handshake_ack → t.tunnel.state ≠ .handshake_start

/-- While the client waits for its answer, the answer is there, or the host is about to
    give it, or can still see the acknowledgement. -/
def Heard (s : State) : Prop :=
  s.client = .waiting_ok → s.tunnel.state = .connection_ok ∨ s.host = .accepting ∨
    ∃ as t, Run ipc_system as s t ∧ t.host = .checking ∧ t.tunnel.state = .handshake_ack

/-- The messages that were sent, with the one that is being sent. -/
def sent (s : State) : List Message :=
  match s.sender with
  | .sizing m | .copying m _ | .waiting m => s.returned ++ [m]
  | .idle | .aborted => s.returned

/-- Every message is received once, in order and as it is, before its call returns, and the
    call can return. -/
structure Delivers (s : State) : Prop where
  once : s.delivered = s.returned.map Message.bytes ∨
    ∃ m, s.sender = .waiting m ∧ s.delivered = s.returned.map Message.bytes ++ [m.bytes]
  not_aborted : s.sender ≠ .aborted ∧ s.receiver ≠ .aborted
  delivered : ∃ as t, Run ipc_system as s t ∧ t.returned = sent s ∧ t.delivered = (sent s).map Message.bytes

structure Sound (s : State) : Prop where
  kept : Kept s
  heard : Heard s
  delivers : Delivers s

/-- The client does not acknowledge between the host's test and its write, and a message fits
    into the page and is not sent before the client has seen its answer. -/
def Careful (s : State) : Action → Prop
  | .client => ¬ (s.client = .acknowledging ∧ s.host = .restarting)
  | .send m => m.bytes.length ≤ room ∧ s.client = .connected
  | .host | .sender | .receiver => True

instance (s : State) : (a : Action) → Decidable (Careful s a)
  | .client => inferInstanceAs (Decidable (¬ (s.client = .acknowledging ∧ s.host = .restarting)))
  | .send m => inferInstanceAs (Decidable (m.bytes.length ≤ room ∧ s.client = .connected))
  | .host | .sender | .receiver => .isTrue trivial

end MicroOS.Ipc

import MicroOS.Runs
import MicroOS.Tcp

/-!
One TCP socket from `tcp_connect` on: segments that arrive for it, sends, timer
polls and the polls of its disconnect, in any order. The system is observed: next
to the connection runs an account of what happened that no step reads.
-/
namespace MicroOS.TcpRuns
open Tcp Runs
universe u

/-- The `async` state of the socket's disconnect; after `STATE_DONE` the socket is freed. -/
inductive Closing where
  | STATE_INIT | STATE_WAIT | STATE_DONE
  deriving DecidableEq, Repr

/-- The socket, whether it is among the bound ones, and how far its disconnect is. -/
structure Connection where
  socket : Socket
  bound : Bool
  closing : Closing

inductive Call where
  | segment (env : Env) (bytes : List UInt8)
  | send (env : Env) (data : List UInt8) (size : Int)
  | poll (env : Env)
  | disconnect (env : Env)

def perform (c : Connection) : Call → Connection × List Event
  | .segment env bytes =>
    match c.bound, read_header bytes with
    | true, some tcp =>
      let (s,events) := tcp_ipv4_recv env c.socket tcp
      ({ c with socket := s, bound := s.state ≠ .CLOSED },events)
    | _, _ => (c,[])
  | .send env data size =>
    let (s,events) := tcp_socket_send env c.socket data size
    ({ c with socket := s },events)
  | .poll env =>
    if c.bound then
      let (s,events) := tcp_poll env c.socket
      ({ c with socket := s },events)
    else (c,[])
  | .disconnect env =>
    match c.closing with
    | .STATE_INIT =>
      let (s,events) := tcp_socket_disconnect env c.socket
      ({ c with socket := s, closing := .STATE_WAIT },events)
    | .STATE_WAIT =>
      if c.socket.state = .CLOSED then
        ({ socket := tcp_tx_clear_unacked c.socket, bound := false, closing := .STATE_DONE },[])
      else (c,[])
    | .STATE_DONE => (c,[])

/-- Segments are shorter than 4 GB, the data of a send is as long as its size says,
    and a freed socket is not used. -/
def Possible (c : Connection) : Call → Prop
  | .segment _ bytes => c.closing ≠ .STATE_DONE ∧ bytes.length < 2 ^ 32
  | .send _ data size => c.closing ≠ .STATE_DONE ∧ data.length = size.toNat ∧ size < 2 ^ 31
  | .poll _ => c.closing ≠ .STATE_DONE
  | .disconnect _ => c.closing ≠ .STATE_DONE

/-- A connection right after `tcp_connect`, with the SYN it sent. -/
def Connected (c : Connection) (events : List Event) : Prop :=
  ∃ env remote_ip local_ip remote_port local_port route,
    tcp_connect env remote_ip local_ip remote_port local_port route = (c.socket,events) ∧
      c.bound = true ∧ c.closing = .STATE_INIT

/-- An environment to run examples in, and a connection made in it. -/
def idle : Env := ⟨0,fun _ => 0⟩
def fresh_connection : Connection := ⟨(tcp_connect idle 1 2 3 4 5).1,true,.STATE_INIT⟩

theorem fresh_connected : Connected fresh_connection (tcp_connect idle 1 2 3 4 5).2 :=
  ⟨idle,1,2,3,4,5,rfl,rfl,rfl⟩

/-- The connection's system with an account kept by `watch`. -/
def observed {O : Type u} (begin_ : Socket → List Event → O) (watch : Connection → Call → List Event → O → O) :
    System (Connection × O) Call where
  start x := ∃ events, Connected x.1 events ∧ x.2 = begin_ x.1.socket events
  step x call y := Possible x.1 call ∧ y = ((perform x.1 call).1,watch x.1 call (perform x.1 call).2 x.2)

/-- The payloads handed to `socket->recv`. -/
def deliveries (events : List Event) : List (List UInt8) :=
  events.filterMap fun | .recv data => some data | _ => none

@[simp] theorem deliveries_nil : deliveries [] = [] := rfl
@[simp] theorem deliveries_append (xs ys : List Event) : deliveries (xs ++ ys) = deliveries xs ++ deliveries ys := by
  simp [deliveries]
@[simp] theorem deliveries_recv (data : List UInt8) (rest : List Event) :
    deliveries (.recv data :: rest) = data :: deliveries rest := rfl

section
variable (env : Env) (s : Socket)

@[simp] theorem deliveries_transmit (seq : Word) (flags : Flags) (options : Word)
    (bytes : List UInt8) (size : Int) : deliveries (transmit env s seq flags options bytes size) = [] := by
  rw [transmit]
  split <;> rfl

theorem send_control_fst (flags : Flags) : (send_control env s flags).1 =
    { s with sequence_number := s.sequence_number + if flags.syn || flags.fin then 1 else 0 } := by
  simp [send_control,tcp_socket_send_internal,tcp_tx_track_unacked]

@[simp] theorem send_control_state (flags : Flags) : (send_control env s flags).1.state = s.state := by
  rw [send_control_fst]
@[simp] theorem send_control_ack_number (flags : Flags) : (send_control env s flags).1.ack_number = s.ack_number := by
  rw [send_control_fst]
@[simp] theorem deliveries_send_control (flags : Flags) :
    deliveries (send_control env s flags).2 = [] := deliveries_transmit ..

end

@[simp] theorem clear_state (s : Socket) : (tcp_tx_clear_unacked s).state = s.state := rfl
@[simp] theorem clear_ack_number (s : Socket) : (tcp_tx_clear_unacked s).ack_number = s.ack_number := rfl
@[simp] theorem clear_sequence_number (s : Socket) : (tcp_tx_clear_unacked s).sequence_number = s.sequence_number := rfl

@[simp] theorem recv_ack_state (s : Socket) (tcp : Segment) : (recv_ack s tcp).state = s.state := by
  simp only [recv_ack]
  split_ifs <;> rfl
@[simp] theorem recv_ack_ack_number (s : Socket) (tcp : Segment) : (recv_ack s tcp).ack_number = s.ack_number := by
  simp only [recv_ack]
  split_ifs <;> rfl
@[simp] theorem recv_ack_sequence_number (s : Socket) (tcp : Segment) :
    (recv_ack s tcp).sequence_number = s.sequence_number := by
  simp only [recv_ack]
  split_ifs <;> rfl

/-- A reset, or a segment for a closed socket, only closes and clears. -/
theorem tcp_ipv4_recv_silent {s : Socket} {tcp : Segment} (env : Env) (silent : tcp.flags.rst = true ∨ s.state = .CLOSED) :
    tcp_ipv4_recv env s tcp = (tcp_tx_clear_unacked { recv_ack s tcp with state := .CLOSED },[]) := by
  cases rst : tcp.flags.rst with
  | true => simp [tcp_ipv4_recv,rst]
  | false =>
    have shut : (recv_ack s tcp).state = .CLOSED := by
      rw [recv_ack_state]
      exact silent.resolve_left (by simp [rst])
    have same : { recv_ack s tcp with state := .CLOSED } = recv_ack s tcp := by rw [← shut]
    rw [same]
    simp only [tcp_ipv4_recv,rst,shut,Bool.false_eq_true,↓reduceIte,List.append_nil]

/-- Any other segment goes through the switch, and a reset is sent when that asks for one. -/
theorem tcp_ipv4_recv_live {s : Socket} {tcp : Segment} (env : Env) (live : ¬ (tcp.flags.rst = true ∨ s.state = .CLOSED)) :
    tcp_ipv4_recv env s tcp =
      if (recv_switch env (recv_ack s tcp) tcp).2.2 then
        (tcp_tx_clear_unacked { (send_control env (recv_switch env (recv_ack s tcp) tcp).1 RST).1 with state := .CLOSED },
          (recv_switch env (recv_ack s tcp) tcp).2.1 ++ (send_control env (recv_switch env (recv_ack s tcp) tcp).1 RST).2)
      else
        (if (recv_switch env (recv_ack s tcp) tcp).1.state = .CLOSED then
            tcp_tx_clear_unacked (recv_switch env (recv_ack s tcp) tcp).1
          else (recv_switch env (recv_ack s tcp) tcp).1,(recv_switch env (recv_ack s tcp) tcp).2.1) := by
  have rst : tcp.flags.rst = false := by simpa using fun h => live (.inl h)
  have alive : (recv_ack s tcp).state ≠ .CLOSED := by simpa using fun h => live (.inr h)
  simp only [tcp_ipv4_recv,rst,Bool.false_eq_true,↓reduceIte,alive]
  cases reset : (recv_switch env (recv_ack s tcp) tcp).2.2 <;> simp

inductive Polls (env : Env) (s : Socket) : Socket × List Event → Prop
  | wait (last : Word) : Polls env s ({ s with tx_last_send_ms := last },[])
  | giveUp : Polls env s (tcp_tx_clear_unacked { s with state := .CLOSED },[])
  | resendSyn (asking : s.state = .SYN_SENT)
      (late : TCP_CTL_TIMEOUT_MS ≤ (env.now - if s.tx_last_send_ms = 0 then env.now else s.tx_last_send_ms).toNat)
      (left : s.tx_retries.toNat < TCP_CTL_MAX_RETRIES) :
      Polls env s (send_control env { s with tx_last_send_ms := env.now, tx_retries := s.tx_retries + 1 } SYN)
  | resend (asked : s.state ≠ .SYN_SENT) : Polls env s (tcp_socket_resend_unacked env s)

theorem tcp_poll_polls (env : Env) (s : Socket) : Polls env s (tcp_poll env s) := by
  rw [tcp_poll]
  by_cases shut : s.state = .CLOSED
  · rw [if_pos shut]
    exact .wait s.tx_last_send_ms
  rw [if_neg shut]
  by_cases asking : s.state = .SYN_SENT
  · rw [if_pos asking]
    dsimp only
    by_cases late : TCP_CTL_TIMEOUT_MS ≤ (env.now - if s.tx_last_send_ms = 0 then env.now else s.tx_last_send_ms).toNat
    · rw [if_pos late]
      by_cases spent : TCP_CTL_MAX_RETRIES ≤ s.tx_retries.toNat
      · rw [if_pos spent]
        exact .giveUp
      · rw [if_neg spent]
        exact .resendSyn asking late (by omega)
    · rw [if_neg late]
      exact .wait _
  · rw [if_neg asking]
    dsimp only
    split_ifs
    · exact .wait s.tx_last_send_ms
    · exact .wait env.now
    all_goals first
      | exact .giveUp
      | exact .resend asking
      | exact .wait s.tx_last_send_ms

end MicroOS.TcpRuns

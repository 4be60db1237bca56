import MicroOS.TcpRuns

/-!
What a TCP socket delivers and acknowledges. The payloads handed to `recv` follow
one another from the peer's initial sequence number on, and `ack_number` counts
them, as long as no segment brings data together with a FIN in sequence, data
before the handshake, or anything in sequence after the FIN.
-/
namespace MicroOS.TcpReceive
open Tcp TcpRuns Runs

/-- What a segment does to the receiving side of a socket. -/
inductive Verdict where
  | other | handshake | fin | data
  deriving DecidableEq

def verdict (s : Socket) (tcp : Segment) : Verdict :=
  if tcp.flags.rst = true ∨ s.state = .CLOSED then .other
  else if tcp.flags.syn then
    if tcp.flags.ack = true ∧ tcp.flags.fin = false ∧ s.state = .SYN_SENT then .handshake else .other
  else if tcp.flags.fin then
    if tcp.sequence_number = s.ack_number then .fin else .other
  else if tcp.payload = [] ∨ tcp.sequence_number ≠ s.ack_number ∨ (tcp.flags.ack = true ∧ s.state = .CLOSE_WAIT) then
    .other
  else .data

/-- `ack_number` afterwards. -/
def acknowledged (s : Socket) (tcp : Segment) : Word :=
  match verdict s tcp with
  | .other => s.ack_number
  | .handshake => tcp.sequence_number + 1
  | .fin => tcp.sequence_number + BitVec.ofNat 32 tcp.payload.length + 1
  | .data => s.ack_number + BitVec.ofNat 32 tcp.payload.length

/-- The payload that reaches `recv`. -/
def delivered (s : Socket) (tcp : Segment) : List (List UInt8) :=
  match verdict s tcp with
  | .data => [tcp.payload]
  | _ => []

/-- The moves of the state that need no segment in sequence. -/
inductive Drifts : State → State → Prop
  | stay (st : State) : Drifts st st
  | close (st : State) : Drifts st .CLOSED
  | opened : Drifts .SYN_RECEIVED .ESTABLISHED
  | finish : Drifts .ESTABLISHED .FIN_WAIT1
  | finished : Drifts .FIN_WAIT1 .FIN_WAIT2

def Moves (s : Socket) (tcp : Segment) (after : State) : Prop :=
  match verdict s tcp with
  | .handshake => s.state = .SYN_SENT ∧ after = .ESTABLISHED
  | .fin => after = if s.state = .ESTABLISHED then .CLOSE_WAIT else .CLOSED
  | _ => Drifts s.state after

section
variable {env : Env} {s : Socket} {tcp : Segment}

theorem recv_data_spec (syn : tcp.flags.syn = false) (fin : tcp.flags.fin = false) (rst : tcp.flags.rst = false)
    (alive : s.state ≠ .CLOSED) (waits : ¬ (tcp.flags.ack = true ∧ s.state = .CLOSE_WAIT)) :
    (recv_data env s tcp).1.ack_number = acknowledged s tcp ∧
      deliveries (recv_data env s tcp).2.1 = delivered s tcp ∧
      (recv_data env s tcp).1.state = s.state ∧ (recv_data env s tcp).2.2 = false ∧
      (verdict s tcp = .other ∨ verdict s tcp = .data) := by
  by_cases empty : tcp.payload = []
  · have none : verdict s tcp = .other := by simp [verdict,syn,fin,empty]
    simp [recv_data,acknowledged,delivered,none,empty]
  · have length : tcp.payload.length ≠ 0 := by simpa using empty
    by_cases here : tcp.sequence_number = s.ack_number
    · have data : verdict s tcp = .data := by
        rw [verdict,if_neg (by simp [rst,alive]),if_neg (by simp [syn]),if_neg (by simp [fin]),
          if_neg (by simp only [empty,here,waits]; simp)]
      simp [recv_data,acknowledged,delivered,data,here,length]
    · have none : verdict s tcp = .other := by simp [verdict,syn,fin,here]
      simp [recv_data,acknowledged,delivered,none,here,length]

/-- Without SYN a verdict looks at the state only for `CLOSED` and `CLOSE_WAIT`. -/
theorem verdict_restate {st : State} (syn : tcp.flags.syn = false) (alive : s.state ≠ .CLOSED) (alive' : st ≠ .CLOSED)
    (waits : s.state ≠ .CLOSE_WAIT) (waits' : st ≠ .CLOSE_WAIT) :
    verdict { s with state := st } tcp = verdict s tcp := by
  simp [verdict,syn,alive,alive',waits,waits']

theorem recv_pure_ack_spec (syn : tcp.flags.syn = false) (fin : tcp.flags.fin = false) (rst : tcp.flags.rst = false)
    (ack : tcp.flags.ack = true) (alive : s.state ≠ .CLOSED) :
    (recv_pure_ack env s tcp).1.ack_number = acknowledged s tcp ∧
      deliveries (recv_pure_ack env s tcp).2.1 = delivered s tcp ∧
      Drifts s.state (recv_pure_ack env s tcp).1.state ∧ (recv_pure_ack env s tcp).2.2 = false ∧
      (verdict s tcp = .other ∨ verdict s tcp = .data) := by
  by_cases waits : s.state = .CLOSE_WAIT
  · have closes : recv_pure_ack env s tcp = ({ s with state := .CLOSED },[],false) := by simp [recv_pure_ack,waits]
    have none : verdict s tcp = .other := by simp [verdict,syn,fin,ack,waits]
    rw [closes]
    exact ⟨by rw [acknowledged,none],by rw [delivered,none]; rfl,.close _,rfl,.inl none⟩
  · obtain ⟨st,reads,drifts,alive',waits'⟩ : ∃ st, recv_pure_ack env s tcp = recv_data env { s with state := st } tcp ∧
        Drifts s.state st ∧ st ≠ .CLOSED ∧ st ≠ .CLOSE_WAIT := by
      cases state : s.state with
      | SYN_RECEIVED => exact ⟨.ESTABLISHED,by simp [recv_pure_ack,state],.opened,by simp,by simp⟩
      | FIN_WAIT1 =>
        by_cases done : tcp.ack_number = s.sequence_number
        · exact ⟨.FIN_WAIT2,by simp [recv_pure_ack,state,done],.finished,by simp,by simp⟩
        · have reads : recv_pure_ack env s tcp = recv_data env s tcp := by simp [recv_pure_ack,state,done]
          exact ⟨s.state,reads,by rw [state]; exact .stay _,alive,waits⟩
      | CLOSED => exact absurd state alive
      | CLOSE_WAIT => exact absurd state waits
      | _ =>
        have reads : recv_pure_ack env s tcp = recv_data env s tcp := by simp [recv_pure_ack,state]
        exact ⟨s.state,reads,by rw [state]; exact .stay _,alive,waits⟩
    have same := @verdict_restate _ tcp _ syn alive alive' waits waits'
    obtain ⟨number,given,kept,calm,either⟩ := @recv_data_spec env { s with state := st } _ syn fin rst
      alive' (fun both => waits' both.2)
    rw [reads]
    rw [acknowledged,same] at number
    rw [delivered,same] at given
    rw [same] at either
    exact ⟨number,given,by rw [kept]; exact drifts,calm,either⟩

theorem recv_fin_spec (syn : tcp.flags.syn = false) (fin : tcp.flags.fin = true) (rst : tcp.flags.rst = false)
    (alive : s.state ≠ .CLOSED) :
    (recv_fin env s tcp).1.ack_number = acknowledged s tcp ∧ deliveries (recv_fin env s tcp).2.1 = delivered s tcp ∧
      Moves s tcp (if (recv_fin env s tcp).2.2 then .CLOSED else (recv_fin env s tcp).1.state) := by
  by_cases here : tcp.sequence_number = s.ack_number
  · have accepted : verdict s tcp = .fin := by simp [verdict,syn,fin,rst,alive,here]
    cases state : s.state <;> simp [recv_fin,acknowledged,delivered,Moves,accepted,here,state]
  · have none : verdict s tcp = .other := by simp [verdict,syn,fin,here]
    simp only [recv_fin,acknowledged,delivered,Moves,none,ne_eq,here,not_false_eq_true,↓reduceIte,
      send_control_ack_number,deliveries_send_control,send_control_state,Bool.false_eq_true]
    exact ⟨trivial,trivial,.stay _⟩

theorem recv_switch_spec (rst : tcp.flags.rst = false) (alive : s.state ≠ .CLOSED) :
    (recv_switch env s tcp).1.ack_number = acknowledged s tcp ∧
      deliveries (recv_switch env s tcp).2.1 = delivered s tcp ∧
      Moves s tcp (if (recv_switch env s tcp).2.2 then .CLOSED else (recv_switch env s tcp).1.state) := by
  cases syn : tcp.flags.syn with
  | true =>
    cases fin : tcp.flags.fin with
    | true =>
      have none : verdict s tcp = .other := by simp [verdict,syn,fin]
      have reset : recv_switch env s tcp = (s,[],true) := by
        cases ack : tcp.flags.ack <;> simp [recv_switch,syn,fin,ack]
      simp only [reset,acknowledged,delivered,Moves,none,deliveries_nil,↓reduceIte]
      exact ⟨trivial,trivial,.close _⟩
    | false =>
      cases ack : tcp.flags.ack with
      | false =>
        have none : verdict s tcp = .other := by simp [verdict,syn,ack]
        have reset : recv_switch env s tcp = (s,[],true) := by simp [recv_switch,syn,fin,ack]
        simp only [reset,acknowledged,delivered,Moves,none,deliveries_nil,↓reduceIte]
        exact ⟨trivial,trivial,.close _⟩
      | true =>
        by_cases asked : s.state = .SYN_SENT
        · have shakes : verdict s tcp = .handshake := by simp [verdict,syn,fin,ack,rst,asked]
          simp [recv_switch,recv_syn_ack,acknowledged,delivered,Moves,shakes,syn,fin,ack,asked]
        · have none : verdict s tcp = .other := by simp [verdict,syn,asked]
          have reset : recv_switch env s tcp = (s,[],true) := by simp [recv_switch,recv_syn_ack,syn,fin,ack,asked]
          simp only [reset,acknowledged,delivered,Moves,none,deliveries_nil,↓reduceIte]
          exact ⟨trivial,trivial,.close _⟩
  | false =>
    cases fin : tcp.flags.fin with
    | true =>
      have switch : recv_switch env s tcp = recv_fin env s tcp := by
        cases ack : tcp.flags.ack <;> simp [recv_switch,syn,fin,ack]
      rw [switch]
      exact recv_fin_spec syn fin rst alive
    | false =>
      cases ack : tcp.flags.ack with
      | true =>
        have switch : recv_switch env s tcp = recv_pure_ack env s tcp := by simp [recv_switch,syn,fin,ack]
        obtain ⟨number,given,drifts,calm,either⟩ := @recv_pure_ack_spec env _ _ syn fin rst ack alive
        rw [switch,calm]
        refine ⟨number,given,?_⟩
        rcases either with h | h <;> simpa only [Moves,h,Bool.false_eq_true,↓reduceIte] using drifts
      | false =>
        have switch : recv_switch env s tcp = recv_data env s tcp := by simp [recv_switch,syn,fin,ack]
        obtain ⟨number,given,kept,calm,either⟩ := @recv_data_spec env s _ syn fin rst alive (by simp [ack])
        rw [switch,calm]
        refine ⟨number,given,?_⟩
        rcases either with h | h <;> simp only [Moves,h,Bool.false_eq_true,↓reduceIte,kept] <;> exact .stay _

/-- The acknowledgement number does not matter for the verdict. -/
theorem verdict_recv_ack (s : Socket) (tcp : Segment) : verdict (recv_ack s tcp) tcp = verdict s tcp := by
  simp [verdict]

/-- The receiving side of a whole call. -/
theorem tcp_ipv4_recv_spec (env : Env) (s : Socket) (tcp : Segment) :
    (tcp_ipv4_recv env s tcp).1.ack_number = acknowledged s tcp ∧
      deliveries (tcp_ipv4_recv env s tcp).2 = delivered s tcp ∧ Moves s tcp (tcp_ipv4_recv env s tcp).1.state := by
  by_cases silent : tcp.flags.rst = true ∨ s.state = .CLOSED
  · have none : verdict s tcp = .other := by rw [verdict,if_pos silent]
    rw [tcp_ipv4_recv_silent env silent]
    simp only [acknowledged,delivered,Moves,none,clear_ack_number,recv_ack_ack_number,clear_state]
    exact ⟨trivial,rfl,.close _⟩
  · have rst : tcp.flags.rst = false := by simpa using fun h => silent (.inl h)
    have alive : (recv_ack s tcp).state ≠ .CLOSED := by simpa using fun h => silent (.inr h)
    obtain ⟨number,given,moves⟩ := @recv_switch_spec env _ _ rst alive
    have same := verdict_recv_ack s tcp
    simp only [acknowledged,delivered,Moves,same,recv_ack_ack_number,recv_ack_state] at number given moves
    rw [tcp_ipv4_recv_live env silent]
    cases reset : (recv_switch env (recv_ack s tcp) tcp).2.2 with
    | true =>
      simp only [reset,↓reduceIte,clear_ack_number,send_control_ack_number,clear_state,deliveries_append,
        deliveries_send_control,List.append_nil] at moves ⊢
      exact ⟨number,given,moves⟩
    | false =>
      simp only [reset,Bool.false_eq_true,↓reduceIte] at moves ⊢
      refine ⟨?_,given,?_⟩
      · split
        · exact number
        · exact number
      · split
        · exact moves
        · exact moves

/-- What came in: the peer's initial sequence number, the payloads handed to `recv`
    with the sequence numbers of their segments, and whether a FIN was accepted. -/
structure Incoming where
  isn : Option Word
  chunks : List (Word × List UInt8)
  finished : Bool

/-- Chunks that follow one another from a sequence number on. -/
def Consecutive : Word → List (Word × List UInt8) → Prop
  | _, [] => True
  | q, (q',data) :: rest => q' = q ∧ Consecutive (q + BitVec.ofNat 32 data.length) rest

/-- All the bytes handed to `recv`. -/
def Incoming.bytes (o : Incoming) : List UInt8 := o.chunks.flatMap Prod.snd

/-- The segment of a call that reaches the socket. -/
def arriving (c : Connection) : Call → Option Segment
  | .segment _ bytes => if c.bound then read_header bytes else none
  | _ => none

/-- Chunks come from the events; a SYN | ACK in `SYN_SENT` tells the peer's number;
    a FIN in sequence is accepted once the handshake is done. -/
def watch (c : Connection) (call : Call) (events : List Event) (o : Incoming) : Incoming :=
  match arriving c call with
  | none => o
  | some tcp => {
    isn := if verdict c.socket tcp = .handshake then some tcp.sequence_number else o.isn
    chunks := o.chunks ++ (deliveries events).map (fun data => (tcp.sequence_number,data))
    finished := o.finished || decide (verdict c.socket tcp = .fin ∧ c.socket.state ≠ .SYN_SENT) }

def receive_system : System (Connection × Incoming) Call := observed (fun _ _ => ⟨none,[],false⟩) watch

/-- Nothing is delivered before the handshake; then `ack_number` counts the bytes
    delivered and the accepted FIN, and every payload was delivered at its place in
    the peer's stream. -/
structure Faithful (x : Connection × Incoming) : Prop where
  quiet : x.2.isn = none → x.2.chunks = []
  counted : ∀ isn, x.2.isn = some isn → x.1.socket.ack_number =
    isn + 1 + BitVec.ofNat 32 x.2.bytes.length + if x.2.finished then 1 else 0
  placed : ∀ isn, x.2.isn = some isn → Consecutive (isn + 1) x.2.chunks

/-- The segments that keep this: a FIN in sequence carries no data and is the first;
    data in sequence comes after the handshake and before the FIN. -/
def Orderly (x : Connection × Incoming) (call : Call) : Prop :=
  ∀ tcp, arriving x.1 call = some tcp →
    (verdict x.1.socket tcp = .fin →
      x.1.socket.state = .SYN_SENT ∨ (tcp.payload = [] ∧ x.1.socket.state ≠ .CLOSE_WAIT)) ∧
    (verdict x.1.socket tcp = .data → x.1.socket.state ≠ .SYN_SENT ∧ x.1.socket.state ≠ .CLOSE_WAIT)

/-- What the state says about what came in. -/
structure Stage (st : State) (o : Incoming) : Prop where
  asking : st = .SYN_SENT → o.isn = none ∧ o.finished = false
  shaken : st ≠ .SYN_SENT → st ≠ .CLOSED → o.isn ≠ none
  ended : o.finished = true → st = .CLOSE_WAIT ∨ st = .CLOSED
  waiting : st = .CLOSE_WAIT → o.finished = true

structure Tracked (x : Connection × Incoming) : Prop extends Faithful x where
  stage : Stage x.1.socket.state x.2

theorem stage_drifts {st st' : State} {o : Incoming} (stage : Stage st o) (drifts : Drifts st st') : Stage st' o := by
  obtain ⟨asking,shaken,ended,waiting⟩ := stage
  cases drifts with
  | stay => exact ⟨asking,shaken,ended,waiting⟩
  | close => exact ⟨by simp,by simp,by simp,by simp⟩
  | opened => exact ⟨by simp,fun _ _ => shaken (by simp) (by simp),fun done => by simpa using ended done,by simp⟩
  | finish => exact ⟨by simp,fun _ _ => shaken (by simp) (by simp),fun done => by simpa using ended done,by simp⟩
  | finished => exact ⟨by simp,fun _ _ => shaken (by simp) (by simp),fun done => by simpa using ended done,by simp⟩

/-- Before its end a socket past the handshake has seen no FIN. -/
theorem stage_open {st : State} {o : Incoming} (stage : Stage st o) (alive : st ≠ .CLOSED) (waits : st ≠ .CLOSE_WAIT) :
    o.finished = false := by
  cases done : o.finished with
  | false => rfl
  | true => rcases stage.ended done with h | h <;> contradiction

theorem tcp_poll_drifts (env : Env) (s : Socket) :
    (tcp_poll env s).1.ack_number = s.ack_number ∧ Drifts s.state (tcp_poll env s).1.state := by
  have resent : (tcp_socket_resend_unacked env s).1.ack_number = s.ack_number ∧
      (tcp_socket_resend_unacked env s).1.state = s.state := by
    rw [tcp_socket_resend_unacked]
    split
    · exact ⟨rfl,rfl⟩
    · split_ifs <;> exact ⟨rfl,rfl⟩
  have polls := tcp_poll_polls env s
  generalize tcp_poll env s = r at polls
  cases polls with
  | wait last => exact ⟨rfl,.stay _⟩
  | giveUp => exact ⟨rfl,.close _⟩
  | resendSyn asking _ _ =>
    simp only [send_control_ack_number,send_control_state]
    exact ⟨trivial,.stay _⟩
  | resend _ =>
    rw [resent.1,resent.2]
    exact ⟨rfl,.stay _⟩

theorem tcp_socket_disconnect_drifts (env : Env) (s : Socket) : (tcp_socket_disconnect env s).1.ack_number = s.ack_number ∧
    Drifts s.state (tcp_socket_disconnect env s).1.state := by
  rw [tcp_socket_disconnect]
  split
  · rename_i here
    simp only [send_control_ack_number,send_control_state,here]
    exact ⟨trivial,.finish⟩
  · exact ⟨rfl,.stay _⟩

theorem tcp_socket_send_drifts (env : Env) (s : Socket) (data : List UInt8) (size : Int) :
    (tcp_socket_send env s data size).1.ack_number = s.ack_number ∧
      (tcp_socket_send env s data size).1.state = s.state := by
  simp only [tcp_socket_send,tcp_socket_send_internal,tcp_tx_track_unacked]
  split_ifs <;> exact ⟨rfl,rfl⟩

variable {c : Connection} {call : Call} {x : Connection × Incoming}

theorem other_calls (silent : arriving c call = none) : (perform c call).1.socket.ack_number = c.socket.ack_number ∧
      Drifts c.socket.state (perform c call).1.socket.state := by
  cases call with
  | segment env bytes =>
    have kept : perform c (.segment env bytes) = (c,[]) := by
      cases bound : c.bound with
      | false => simp [perform,bound]
      | true =>
        have none : read_header bytes = none := by simpa [arriving,bound] using silent
        simp [perform,bound,none]
    rw [kept]
    exact ⟨rfl,.stay _⟩
  | send env data size =>
    have drifts := tcp_socket_send_drifts env c.socket data size
    simp only [perform]
    rw [drifts.2]
    exact ⟨drifts.1,.stay _⟩
  | poll env =>
    rw [perform]
    split
    · exact tcp_poll_drifts env c.socket
    · exact ⟨rfl,.stay _⟩
  | disconnect env =>
    cases closing : c.closing with
    | STATE_INIT =>
      simp only [perform,closing]
      exact tcp_socket_disconnect_drifts env c.socket
    | STATE_WAIT =>
      by_cases shut : c.socket.state = .CLOSED
      · simp only [perform,closing,shut,↓reduceIte]
        exact ⟨rfl,by rw [clear_state,shut]; exact .stay _⟩
      · simp only [perform,closing,shut,↓reduceIte]
        exact ⟨trivial,.stay _⟩
    | STATE_DONE =>
      simp only [perform,closing]
      exact ⟨trivial,.stay _⟩

theorem arriving_perform {tcp : Segment} (here : arriving c call = some tcp) :
    ∃ env, (perform c call).1.socket = (tcp_ipv4_recv env c.socket tcp).1 ∧
      (perform c call).2 = (tcp_ipv4_recv env c.socket tcp).2 := by
  cases call with
  | segment env bytes =>
    cases bound : c.bound with
    | false => simp [arriving,bound] at here
    | true =>
      have read : read_header bytes = some tcp := by simpa [arriving,bound] using here
      exact ⟨env,by simp [perform,bound,read],by simp [perform,bound,read]⟩
  | send env data size => simp [arriving] at here
  | poll env => simp [arriving] at here
  | disconnect env => simp [arriving] at here

/-- A step that delivers and acknowledges nothing. -/
theorem tracked_drifts (tracked : Tracked x)
    (number : c.socket.ack_number = x.1.socket.ack_number) (drifts : Drifts x.1.socket.state c.socket.state) :
    Tracked (c,x.2) := by
  refine ⟨⟨tracked.quiet,?_,tracked.placed⟩,stage_drifts tracked.stage drifts⟩
  intro isn known
  dsimp only
  rw [number]
  exact tracked.counted isn known

/-- A step with no segment for the socket. -/
theorem tracked_other (tracked : Tracked x) (silent : arriving x.1 call = none) :
    Tracked ((perform x.1 call).1,watch x.1 call (perform x.1 call).2 x.2) := by
  obtain ⟨number,drifts⟩ := other_calls silent
  have same : watch x.1 call (perform x.1 call).2 x.2 = x.2 := by simp [watch,silent]
  rw [same]
  exact tracked_drifts tracked number drifts

theorem consecutive_snoc (chunks : List (Word × List UInt8)) (q q' : Word) (data : List UInt8) :
    Consecutive q (chunks ++ [(q',data)]) ↔
      Consecutive q chunks ∧ q' = q + BitVec.ofNat 32 (chunks.flatMap Prod.snd).length := by
  induction chunks generalizing q with
  | nil => simp [Consecutive]
  | cons c rest ih =>
    obtain ⟨q₁,data₁⟩ := c
    simp only [List.cons_append,Consecutive,ih,List.flatMap_cons,List.length_append,BitVec.ofNat_add,and_assoc,
      BitVec.add_assoc]

/-- Consecutive chunks that each carry a piece of the peer's stream are a prefix of it. -/
theorem consecutive_prefix {stream : List UInt8} {isn : Word} (short : stream.length < 2 ^ 32)
    {chunks : List (Word × List UInt8)} {n : Nat} (past : n ≤ stream.length)
    (placed : Consecutive (isn + 1 + BitVec.ofNat 32 n) chunks)
    (carried : ∀ c ∈ chunks, ∃ k ≤ stream.length, c.1 = isn + 1 + BitVec.ofNat 32 k ∧ c.2 <+: stream.drop k) :
    chunks.flatMap Prod.snd <+: stream.drop n := by
  induction chunks generalizing n with
  | nil => simp
  | cons c rest ih =>
    obtain ⟨q,data⟩ := c
    obtain ⟨rfl,further⟩ := placed
    obtain ⟨k,inside,number,tail,piece⟩ := carried _ (List.mem_cons_self ..)
    have same : k = n := by
      have numbers := congrArg BitVec.toNat ((BitVec.add_right_inj _).mp number)
      rw [BitVec.toNat_ofNat,BitVec.toNat_ofNat,Nat.mod_eq_of_lt (by omega),Nat.mod_eq_of_lt (by omega)] at numbers
      exact numbers.symm
    subst same
    dsimp only at piece
    have length := congrArg List.length piece
    simp only [List.length_append,List.length_drop] at length
    have next := ih (n := k + data.length) (by omega)
      (by rw [BitVec.ofNat_add,← BitVec.add_assoc]; exact further) (fun c member => carried c (List.mem_cons_of_mem _ member))
    rw [← List.drop_drop,← piece,List.drop_left] at next
    obtain ⟨more,shape⟩ := next
    exact ⟨more,by rw [List.flatMap_cons,List.append_assoc,shape,piece]⟩

theorem verdict_alive (accepted : verdict s tcp ≠ .other) : s.state ≠ .CLOSED := by
  intro shut
  exact accepted (by rw [verdict,if_pos (.inr shut)])

theorem verdict_in_sequence (accepted : verdict s tcp = .fin ∨ verdict s tcp = .data) :
    tcp.sequence_number = s.ack_number := by
  by_contra other
  have none : verdict s tcp = .other ∨ verdict s tcp = .handshake := by
    simp only [verdict,other,ne_eq,not_false_eq_true,true_or,or_true,↓reduceIte]
    split_ifs <;> simp
  rcases none with h | h <;> simp [h] at accepted

/-- A step with a segment for the socket. -/
theorem tracked_arriving (tracked : Tracked x) (here : arriving x.1 call = some tcp) (orderly : Orderly x call) :
    Tracked ((perform x.1 call).1,watch x.1 call (perform x.1 call).2 x.2) := by
  obtain ⟨env,socket,events⟩ := arriving_perform here
  obtain ⟨number,given,moves⟩ := tcp_ipv4_recv_spec env x.1.socket tcp
  rw [← socket] at number moves
  rw [← events] at given
  obtain ⟨fins,datas⟩ := orderly tcp here
  simp only [watch,here,given]
  generalize (perform x.1 call).1 = c at number moves
  simp only [acknowledged,delivered,Moves] at number moves ⊢
  cases kind : verdict x.1.socket tcp with
  | other =>
    simp only [kind,reduceCtorEq,↓reduceIte,List.map_nil,List.append_nil,false_and,decide_false,Bool.or_false] at *
    exact tracked_drifts tracked number moves
  | handshake =>
    simp only [kind,reduceCtorEq,↓reduceIte,List.map_nil,List.append_nil,false_and,decide_false,Bool.or_false] at *
    obtain ⟨asking,shaken⟩ := moves
    obtain ⟨unknown,open_⟩ := tracked.stage.asking asking
    have silent := tracked.quiet unknown
    refine ⟨⟨by simp,?_,?_⟩,⟨by simp [shaken],by simp,by simp [open_],by simp [shaken]⟩⟩
    · rintro isn ⟨⟩
      simp [number,Incoming.bytes,silent,open_]
    · rintro isn ⟨⟩
      simp [silent,Consecutive]
  | fin =>
    have inSequence := verdict_in_sequence (.inl kind)
    have alive : x.1.socket.state ≠ .CLOSED := verdict_alive (by rw [kind]; simp)
    simp only [kind,reduceCtorEq,↓reduceIte,List.map_nil,List.append_nil,true_and] at *
    by_cases asking : x.1.socket.state = .SYN_SENT
    · obtain ⟨unknown,open_⟩ := tracked.stage.asking asking
      simp only [asking,reduceCtorEq,↓reduceIte] at moves
      refine ⟨⟨tracked.quiet,?_,tracked.placed⟩,⟨?_,?_,?_,?_⟩⟩
      · simp [unknown]
      all_goals simp [moves,open_,asking]
    · obtain ⟨empty,first⟩ := (fins trivial).resolve_left asking
      have open_ := stage_open tracked.stage alive first
      refine ⟨⟨tracked.quiet,?_,tracked.placed⟩,⟨?_,fun _ _ => tracked.stage.shaken asking alive,?_,?_⟩⟩
      · intro isn known
        have counted := tracked.counted isn known
        simp only [open_,Bool.false_eq_true,↓reduceIte] at counted
        simp [number,inSequence,counted,empty,asking,Incoming.bytes]
      · intro again
        simp only [moves] at again
        split at again <;> cases again
      · intro _
        simp only [moves]
        split <;> simp
      · simp [asking]
  | data =>
    have inSequence := verdict_in_sequence (.inr kind)
    have alive : x.1.socket.state ≠ .CLOSED := verdict_alive (by rw [kind]; simp)
    simp only [kind,reduceCtorEq,↓reduceIte,List.map_cons,List.map_nil,false_and,decide_false,Bool.or_false] at *
    obtain ⟨asked,first⟩ := datas trivial
    have open_ := stage_open tracked.stage alive first
    have known := tracked.stage.shaken asked alive
    have counted : ∀ isn, x.2.isn = some isn →
        x.1.socket.ack_number = isn + 1 + BitVec.ofNat 32 (x.2.chunks.flatMap Prod.snd).length := by
      intro isn here
      simpa [open_,Incoming.bytes] using tracked.counted isn here
    have stage := stage_drifts tracked.stage moves
    refine ⟨⟨fun unknown => absurd unknown known,?_,?_⟩,⟨stage.asking,stage.shaken,stage.ended,stage.waiting⟩⟩
    · intro isn here
      simp [number,counted isn here,open_,Incoming.bytes,BitVec.ofNat_add,BitVec.add_assoc]
    · intro isn here
      exact (consecutive_snoc _ _ _ _).mpr ⟨tracked.placed isn here,by rw [inSequence,counted isn here]⟩

theorem payload_length (possible : Possible c call)
    (here : arriving c call = some tcp) : tcp.payload.length + 20 < 2 ^ 32 := by
  cases call with
  | segment env bytes =>
    have short := possible.2
    have read : read_header bytes = some tcp := by
      cases bound : c.bound <;> simp_all [arriving]
    simp only [read_header] at read
    split_ifs at read with bad
    cases read
    simp only [List.length_drop]
    omega
  | send env data size => simp [arriving] at here
  | poll env => simp [arriving] at here
  | disconnect env => simp [arriving] at here

theorem length_zero {n : Nat} (short : n < 2 ^ 32) (zero : BitVec.ofNat 32 n = 0) : n = 0 := by
  have value := congrArg BitVec.toNat zero
  rwa [BitVec.toNat_ofNat,Nat.mod_eq_of_lt short] at value

/-- A step that is not orderly breaks the account. -/
theorem disorderly_breaks (tracked : Tracked x) (possible : Possible x.1 call)
    (faithful : Faithful ((perform x.1 call).1,watch x.1 call (perform x.1 call).2 x.2)) : Orderly x call := by
  intro tcp here
  obtain ⟨env,socket,events⟩ := arriving_perform here
  obtain ⟨number,given,-⟩ := tcp_ipv4_recv_spec env x.1.socket tcp
  have short := payload_length possible here
  rw [← socket] at number
  rw [← events] at given
  simp only [watch,here,given] at faithful
  generalize (perform x.1 call).1 = c at number faithful
  simp only [acknowledged,delivered] at number faithful
  refine ⟨fun kind => ?_,fun kind => ?_⟩
  · have inSequence := verdict_in_sequence (.inl kind)
    have alive : x.1.socket.state ≠ .CLOSED := verdict_alive (by rw [kind]; simp)
    by_cases asking : x.1.socket.state = .SYN_SENT
    · exact .inl asking
    right
    obtain ⟨isn,known⟩ := Option.ne_none_iff_exists'.mp (tracked.stage.shaken asking alive)
    have before := tracked.counted isn known
    have after := faithful.counted isn (by simp [kind,known])
    simp only [kind,↓reduceIte,List.map_nil,List.append_nil,ne_eq,asking,not_false_eq_true,and_self,decide_true,
      Bool.or_true,Incoming.bytes,number,inSequence] at before after
    rw [before] at after
    by_cases waits : x.1.socket.state = .CLOSE_WAIT
    · simp only [tracked.stage.waiting waits,↓reduceIte] at after
      have wrapped : BitVec.ofNat 32 (tcp.payload.length + 1) = 0 := by
        rw [BitVec.ofNat_add]
        bv_omega
      have zero := length_zero (by omega) wrapped
      omega
    · simp only [stage_open tracked.stage alive waits,Bool.false_eq_true,↓reduceIte] at after
      have zero : BitVec.ofNat 32 tcp.payload.length = 0 := by bv_omega
      exact ⟨List.length_eq_zero_iff.mp (length_zero (by omega) zero),waits⟩
  · have inSequence := verdict_in_sequence (.inr kind)
    have alive : x.1.socket.state ≠ .CLOSED := verdict_alive (by rw [kind]; simp)
    simp only [kind,reduceCtorEq,↓reduceIte,List.map_cons,List.map_nil,false_and,decide_false,Bool.or_false] at faithful
    have asked : x.1.socket.state ≠ .SYN_SENT := by
      intro asking
      have silent := faithful.quiet (tracked.stage.asking asking).1
      simp at silent
    refine ⟨asked,?_⟩
    intro waits
    obtain ⟨isn,known⟩ := Option.ne_none_iff_exists'.mp (tracked.stage.shaken asked alive)
    have before := tracked.counted isn known
    have placed := ((consecutive_snoc _ _ _ _).mp (faithful.placed isn known)).2
    rw [inSequence,before] at placed
    simp only [tracked.stage.waiting waits,↓reduceIte,Incoming.bytes] at placed
    bv_omega

end

variable {x : Connection × Incoming}

theorem orderly_keeps {call : Call} (tracked : Tracked x) (orderly : Orderly x call) :
    Tracked ((perform x.1 call).1,watch x.1 call (perform x.1 call).2 x.2) := by
  cases here : arriving x.1 call with
  | none => exact tracked_other tracked here
  | some tcp => exact tracked_arriving tracked here orderly

theorem reached_tracked (reached : Reached (guarded receive_system Orderly) x) : Tracked x := by
  refine guarded_invariant ?_ ?_ reached
  · rintro ⟨c,o⟩ ⟨events,⟨env,remote_ip,local_ip,remote_port,local_port,route,made,-,-⟩,begun⟩
    have fresh : o = ⟨none,[],false⟩ := begun
    subst fresh
    have state : c.socket.state = .SYN_SENT := by
      have same := congrArg (fun r => r.1.state) made
      simpa [tcp_connect] using same.symm
    exact ⟨⟨by simp,by simp,by simp⟩,⟨by simp,by simp [state],by simp,by simp [state]⟩⟩
  · rintro x call y tracked ⟨-,rfl⟩ orderly
    exact orderly_keeps tracked orderly

/-- When orderly segments carry pieces of one stream, what was delivered is a prefix of it. -/
theorem delivered_prefix {x : Connection × Incoming} {stream : List UInt8} {isn : Word}
    (reached : Reached (guarded receive_system Orderly) x) (known : x.2.isn = some isn) (short : stream.length < 2 ^ 32)
    (carried : ∀ c ∈ x.2.chunks, ∃ k ≤ stream.length, c.1 = isn + 1 + BitVec.ofNat 32 k ∧ c.2 <+: stream.drop k) :
    x.2.bytes <+: stream := by
  have faithful := (reached_tracked reached).toFaithful
  have placed := consecutive_prefix short (Nat.zero_le _) (by simpa using faithful.placed isn known) carried
  simpa [Incoming.bytes] using placed

/-- In every state reached by orderly segments, and any sends, polls and closing, the
    account is faithful, and a further step keeps it so only if it is orderly. -/
theorem receive_stream {x : Connection × Incoming} (reached : Reached (guarded receive_system Orderly) x) :
    Faithful x ∧ ∀ call, Possible x.1 call →
      (Faithful ((perform x.1 call).1,watch x.1 call (perform x.1 call).2 x.2) ↔ Orderly x call) := by
  have tracked := reached_tracked reached
  exact ⟨tracked.toFaithful,fun call possible =>
    ⟨disorderly_breaks tracked possible,fun orderly => (orderly_keeps tracked orderly).toFaithful⟩⟩

/-- A SYN | ACK with sequence number 0, and a FIN with one byte of data after it. -/
def syn_ack : List UInt8 := [0,0,0,0,0,0,0,0,0,0,0,1,0x50,0x12,0,0,0,0,0,0]
def fin_with_data : List UInt8 := [0,0,0,0,0,0,0,1,0,0,0,1,0x50,0x11,0,0,0,0,0,0,0x41]

/-- The connection after the handshake, with its account. -/
def shaken_connection : Connection × Incoming :=
  ((perform fresh_connection (.segment idle syn_ack)).1,
    watch fresh_connection (.segment idle syn_ack) (perform fresh_connection (.segment idle syn_ack)).2 ⟨none,[],false⟩)

theorem shaken_reached : Reached (guarded receive_system Orderly) shaken_connection := by
  refine ⟨(fresh_connection,⟨none,[],false⟩),[.segment idle syn_ack],⟨_,fresh_connected,rfl⟩,
    .step ⟨⟨⟨by decide,by decide⟩,rfl⟩,?_⟩ (.done _)⟩
  intro tcp here
  cases here
  exact ⟨by decide,by decide⟩

def one_byte : List UInt8 := [0,0,0,0,0,0,0,1,0,0,0,1,0x50,0x10,0,0,0,0,0,0,0x41]

/-- The connection and the account after one more segment. -/
def received (x : Connection × Incoming) (segment : List UInt8) : Connection × Incoming :=
  ((perform x.1 (.segment idle segment)).1,watch x.1 (.segment idle segment) (perform x.1 (.segment idle segment)).2 x.2)

theorem received_reached (reached : Reached (guarded receive_system Orderly) x) {segment : List UInt8}
    (possible : Possible x.1 (.segment idle segment)) (orderly : Orderly x (.segment idle segment)) :
    Reached (guarded receive_system Orderly) (received x segment) := by
  obtain ⟨start,calls,begins,run⟩ := reached
  exact ⟨start,calls ++ [.segment idle segment],begins,run_snoc run ⟨⟨possible,rfl⟩,orderly⟩⟩

theorem byte_reached : Reached (guarded receive_system Orderly) (received shaken_connection one_byte) := by
  refine received_reached shaken_reached ⟨by decide,by decide⟩ ?_
  intro tcp here
  cases here
  exact ⟨by decide,by decide⟩

/-- The byte comes a second time and is not delivered again. -/
theorem receive_stream_byte_twice : Faithful (received (received shaken_connection one_byte) one_byte) ∧
    (received (received shaken_connection one_byte) one_byte).2.chunks = [(1,[0x41])] := by
  refine ⟨(receive_stream (received_reached byte_reached ⟨by decide,by decide⟩ ?_)).1,by decide⟩
  intro tcp here
  cases here
  exact ⟨by decide,by decide⟩

theorem delivered_prefix_byte : ∃ x, Reached (guarded receive_system Orderly) x ∧ x.2.bytes = [0x41] ∧ x.2.bytes <+: [0x41,0x42] := by
  refine ⟨_,byte_reached,by decide, delivered_prefix byte_reached rfl (by decide) ?_⟩
  intro c member
  obtain rfl := List.mem_singleton.mp (show c ∈ [((1 : Word),[0x41])] from member)
  exact ⟨0,by decide,by decide,by decide⟩

/-- A FIN that carries data is acknowledged whole, though its data is not delivered. -/
theorem fin_data_lost : ¬ ∀ x, Reached receive_system x → Faithful x := by
  intro always
  have possible : Possible shaken_connection.1 (.segment idle fin_with_data) := ⟨by decide,by decide⟩
  obtain ⟨start,calls,begins,run⟩ := shaken_reached
  have faithful := always _ ⟨start,calls ++ [.segment idle fin_with_data],begins,
    run_snoc (guarded_run run) ⟨possible,rfl⟩⟩
  have orderly := disorderly_breaks (reached_tracked shaken_reached) possible faithful _ rfl
  revert orderly
  decide

end MicroOS.TcpReceive

import MicroOS.TcpReceive

/-!
The sequence numbers of what a TCP socket sends. The SYN takes the initial number,
the bytes of the stream the numbers after it, and the FIN the one after the last
byte, as long as no SYN is repeated, the socket is not disconnected while
established, nothing is sent after the FIN, and every send fits its packet.
-/
namespace MicroOS.TcpSequence
open Tcp TcpRuns TcpReceive Runs

/-- The packets among the events. -/
def packets (events : List Event) : List Packet :=
  events.filterMap fun | .ipv4_send _ _ packet => some packet | _ => none

@[simp] theorem packets_nil : packets [] = [] := rfl
@[simp] theorem packets_append (xs ys : List Event) : packets (xs ++ ys) = packets xs ++ packets ys := by simp [packets]
@[simp] theorem packets_recv (data : List UInt8) (rest : List Event) : packets (.recv data :: rest) = packets rest := rfl

/-- The packet that `transmit` hands gone. -/
def packetOf (env : Env) (s : Socket) (seq : Word) (flags : Flags) (options : Word) (bytes : List UInt8) (size : Int) :
    Packet where
  src_port := s.local_port
  dst_port := s.remote_port
  sequence_number := seq
  ack_number := s.ack_number
  flags := flags
  window_size := 0xFFFF
  options := options
  payload := body env bytes size

theorem packets_transmit (env : Env) (s : Socket) (seq : Word) (flags : Flags) (options : Word) (bytes : List UInt8)
    (size : Int) : packets (transmit env s seq flags options bytes size) = [packetOf env s seq flags options bytes size] := by
  rw [transmit]
  split <;> rfl

/-- The largest send that fits its packet. -/
def MAX_SEND : Nat := 2 ^ 16 - 1 - tcp_header_size - tcp_pseudo_header_size

/-- A send that fits goes out as it is. -/
theorem body_eq (env : Env) {bytes : List UInt8} (fits : bytes.length ≤ MAX_SEND) :
    body env bytes bytes.length = bytes := by
  have length : total_length bytes.length - tcp_header_size = bytes.length := by
    simp only [MAX_SEND,total_length,tcp_header_size,tcp_pseudo_header_size] at *
    omega
  apply List.ext_getElem?
  intro i
  rw [body,length,List.getElem?_map]
  by_cases inside : i < bytes.length
  · simp [List.getElem?_range inside,List.getElem?_eq_getElem inside]
  · rw [List.getElem?_eq_none (by simpa using inside),List.getElem?_eq_none (by omega)]
    rfl

/-- The fields of a socket that sending depends on. -/
structure Side where
  sequence_number : Word
  data : Option (List UInt8)
  len : Word
  seq : Word
  flags : Flags

def side (s : Socket) : Side :=
  ⟨s.sequence_number,s.tx_unacked_data,s.tx_unacked_len,s.tx_unacked_seq,s.tx_unacked_flags⟩

/-- A packet without SYN, FIN and data. -/
def Plain (p : Packet) : Prop := p.flags.syn = false ∧ p.flags.fin = false ∧ p.payload = []

section
variable {env : Env} {s : Socket} {tcp : Segment}

/-- A step of the receiving side that sends at most plain packets. -/
def Quiet (s : Socket) (r : Socket × List Event) : Prop := side r.1 = side s ∧ ∀ p ∈ packets r.2, Plain p

theorem packets_send_control (env : Env) (s : Socket) (flags : Flags) : packets (send_control env s flags).2 =
    [packetOf env s s.sequence_number flags (if flags.syn then 0xB4050402 else 0) [] 0] := by
  rw [send_control,tcp_socket_send_internal]
  exact packets_transmit ..

theorem quiet_send_control (env : Env) (s : Socket) {flags : Flags} (syn : flags.syn = false) (fin : flags.fin = false) :
    Quiet s (send_control env s flags) := by
  refine ⟨by simp [send_control_fst,side,syn,fin],?_⟩
  rw [packets_send_control]
  simp only [List.mem_singleton,forall_eq]
  exact ⟨syn,fin,@body_eq env [] (by simp)⟩

theorem recv_data_quiet : Quiet s ((recv_data env s tcp).1,(recv_data env s tcp).2.1) := by
  rw [recv_data]
  split_ifs
  · exact ⟨rfl,by simp⟩
  · obtain ⟨kept,plain⟩ := @quiet_send_control env
      { s with ack_number := s.ack_number + BitVec.ofNat 32 tcp.payload.length } ACK rfl rfl
    exact ⟨kept,by simpa using plain⟩
  · exact quiet_send_control env s rfl rfl

theorem recv_pure_ack_quiet : Quiet s ((recv_pure_ack env s tcp).1,(recv_pure_ack env s tcp).2.1) := by
  rw [recv_pure_ack]
  split
  · exact recv_data_quiet (s := { s with state := .ESTABLISHED })
  · split
    · exact recv_data_quiet (s := { s with state := .FIN_WAIT2 })
    · exact recv_data_quiet
  · exact ⟨rfl,by simp⟩
  · exact recv_data_quiet

theorem recv_syn_ack_quiet : Quiet s ((recv_syn_ack env s tcp).1,(recv_syn_ack env s tcp).2.1) := by
  rw [recv_syn_ack]
  split
  · exact quiet_send_control env { s with state := .ESTABLISHED, ack_number := tcp.sequence_number + 1 } rfl rfl
  · exact ⟨rfl,by simp⟩

/-- The answer to a FIN in `ESTABLISHED`: an ACK and the socket's own FIN. -/
def Finishes (s : Socket) (r : Socket × List Event) : Prop :=
  s.state = .ESTABLISHED ∧ r.1.state = .CLOSE_WAIT ∧
    side r.1 = { side s with sequence_number := s.sequence_number + 1 } ∧
    ∃ a f, packets r.2 = [a,f] ∧ Plain a ∧ f.flags = FIN_ACK ∧ f.sequence_number = s.sequence_number ∧ f.payload = []

theorem recv_fin_sends : Quiet s ((recv_fin env s tcp).1,(recv_fin env s tcp).2.1) ∨
    (Finishes s ((recv_fin env s tcp).1,(recv_fin env s tcp).2.1) ∧ (recv_fin env s tcp).2.2 = false) := by
  rw [recv_fin]
  split
  · exact .inl (quiet_send_control env s rfl rfl)
  dsimp only
  split
  · rename_i here
    right
    refine ⟨⟨here,by simp,by simp [send_control_fst,side,ACK,FIN_ACK],?_⟩,rfl⟩
    rw [packets_append,packets_send_control,packets_send_control]
    refine ⟨_,_,rfl,⟨rfl,rfl,@body_eq env [] (by simp)⟩,rfl,?_,@body_eq env [] (by simp)⟩
    simp [packetOf,send_control_fst,ACK]
  · exact .inl ⟨rfl,by simp⟩
  · exact .inl (quiet_send_control env { s with
      ack_number := tcp.sequence_number + BitVec.ofNat 32 tcp.payload.length + 1, state := .CLOSED } rfl rfl)
  · exact .inl (quiet_send_control env { s with
      ack_number := tcp.sequence_number + BitVec.ofNat 32 tcp.payload.length + 1, state := .CLOSED } rfl rfl)
  · exact .inl ⟨rfl,by simp⟩

theorem recv_switch_sends : Quiet s ((recv_switch env s tcp).1,(recv_switch env s tcp).2.1) ∨
    (Finishes s ((recv_switch env s tcp).1,(recv_switch env s tcp).2.1) ∧ (recv_switch env s tcp).2.2 = false) := by
  rw [recv_switch]
  split
  · exact .inl ⟨rfl,by simp⟩
  · exact .inl recv_syn_ack_quiet
  · exact .inl ⟨rfl,by simp⟩
  · exact recv_fin_sends
  · exact .inl recv_pure_ack_quiet
  · exact .inl recv_data_quiet

end

/-- The buffer is kept or cleared. -/
def Settles (a b : Side) : Prop := b = a ∨ b = { a with data := none, len := 0, seq := 0, flags := {} }

theorem settles_trans {a b c : Side} (first : Settles a b) (second : Settles b c) : Settles a c := by
  rcases first with rfl | rfl <;> rcases second with rfl | rfl <;> simp [Settles]

theorem settles_clear (s : Socket) : Settles (side s) (side (tcp_tx_clear_unacked s)) := .inr rfl

theorem settles_clear_if (s : Socket) (c : Prop) [Decidable c] :
    Settles (side s) (side (if c then tcp_tx_clear_unacked s else s)) := by
  split
  · exact settles_clear s
  · exact .inl rfl

theorem settles_recv_ack (s : Socket) (tcp : Segment) : Settles (side s) (side (recv_ack s tcp)) := by
  simp only [recv_ack]
  split_ifs
  all_goals first | exact .inl rfl | exact settles_clear s

/-- A step that sends plain packets only, and one that answers with the socket's FIN. -/
def Calm (s : Socket) (r : Socket × List Event) : Prop := Settles (side s) (side r.1) ∧ ∀ p ∈ packets r.2, Plain p
def Ends (s : Socket) (r : Socket × List Event) : Prop :=
  s.state = .ESTABLISHED ∧ r.1.state = .CLOSE_WAIT ∧
    Settles { side s with sequence_number := s.sequence_number + 1 } (side r.1) ∧
    ∃ a f, packets r.2 = [a,f] ∧ Plain a ∧ f.flags = FIN_ACK ∧ f.sequence_number = s.sequence_number ∧ f.payload = []

theorem tcp_ipv4_recv_sends (env : Env) (s : Socket) (tcp : Segment) :
    Calm s (tcp_ipv4_recv env s tcp) ∨ Ends s (tcp_ipv4_recv env s tcp) := by
  have acked := settles_recv_ack s tcp
  by_cases silent : tcp.flags.rst = true ∨ s.state = .CLOSED
  · left
    rw [tcp_ipv4_recv_silent env silent]
    exact ⟨settles_trans acked (settles_clear { recv_ack s tcp with state := .CLOSED }),by simp⟩
  · rw [tcp_ipv4_recv_live env silent]
    rcases @recv_switch_sends env (recv_ack s tcp) tcp with
      ⟨kept,plain⟩ | ⟨⟨here,waits,moved,a,f,sent,shape⟩,calm⟩
    · left
      simp only at kept plain
      cases reset : (recv_switch env (recv_ack s tcp) tcp).2.2 with
      | true =>
        obtain ⟨kept',plain'⟩ := @quiet_send_control env (recv_switch env (recv_ack s tcp) tcp).1 RST rfl rfl
        simp only [↓reduceIte]
        constructor
        · refine settles_trans acked ?_
          rw [← kept,← kept']
          exact settles_clear _
        · intro p sent
          rw [packets_append,List.mem_append] at sent
          exact sent.elim (plain p) (plain' p)
      | false =>
        simp only [Bool.false_eq_true,↓reduceIte]
        refine ⟨settles_trans acked ?_,plain⟩
        rw [← kept]
        exact settles_clear_if ..
    · right
      simp only at waits moved sent calm
      simp only [calm,Bool.false_eq_true,↓reduceIte,waits,reduceCtorEq]
      rw [recv_ack_sequence_number] at shape moved
      refine ⟨by simpa using here,waits,?_,a,f,sent,shape⟩
      dsimp only
      rw [moved]
      rcases acked with same | cleared
      · rw [same]
        exact .inl rfl
      · rw [cleared]
        exact .inr rfl

/-- What went out: the number of the first SYN, the bytes that were accepted to be
    sent, and every packet. -/
structure Outgoing where
  isn : Word
  accepted : List UInt8
  packets : List Packet

/-- Whether a FIN was sent. -/
def Outgoing.finished (o : Outgoing) : Bool := o.packets.any (·.flags.fin)

/-- The bytes a call takes on. -/
def taken : Call → List UInt8
  | .send _ data size => data.take size.toNat
  | _ => []

def watch (_ : Connection) (call : Call) (events : List Event) (o : Outgoing) : Outgoing :=
  { o with accepted := o.accepted ++ taken call, packets := o.packets ++ packets events }

def first_number (events : List Event) : Word :=
  match packets events with
  | p :: _ => p.sequence_number
  | [] => 0

def send_system : System (Connection × Outgoing) Call :=
  observed (fun _ events => ⟨first_number events,[],packets events⟩) watch

/-- The payload of a packet is at its place in the stream. -/
def Carries (o : Outgoing) (seq : Word) (payload : List UInt8) : Prop :=
  ∃ k, seq = o.isn + 1 + BitVec.ofNat 32 k ∧ payload <+: o.accepted.drop k

structure InPlace (o : Outgoing) (p : Packet) : Prop where
  syn : p.flags.syn = true → p.sequence_number = o.isn
  fin : p.flags.fin = true → p.sequence_number = o.isn + 1 + BitVec.ofNat 32 o.accepted.length
  data : p.payload ≠ [] → Carries o p.sequence_number p.payload

/-- Every packet has the number of what it carries, every accepted byte was sent,
    and `sequence_number` counts the SYN, the bytes and the FIN. -/
structure Disciplined (x : Connection × Outgoing) : Prop where
  placed : ∀ p ∈ x.2.packets, InPlace x.2 p
  sent : ∀ k < x.2.accepted.length, ∃ p ∈ x.2.packets, ∃ j ≤ k, k < j + p.payload.length ∧
    p.sequence_number = x.2.isn + 1 + BitVec.ofNat 32 j ∧ p.payload <+: x.2.accepted.drop j
  counted : x.1.socket.sequence_number =
    x.2.isn + 1 + BitVec.ofNat 32 x.2.accepted.length + if x.2.finished then 1 else 0

/-- A SYN is due to be sent again. -/
def repeats_syn (env : Env) (s : Socket) : Prop :=
  s.state = .SYN_SENT ∧ s.tx_retries.toNat < TCP_CTL_MAX_RETRIES ∧
    TCP_CTL_TIMEOUT_MS ≤ (env.now - if s.tx_last_send_ms = 0 then env.now else s.tx_last_send_ms).toNat

/-- Sends fit their packet and come before the FIN, no SYN is repeated, and the
    disconnect does not begin while established. -/
def Steady (x : Connection × Outgoing) : Call → Prop
  | .segment _ _ => True
  | .send _ _ size => 0 ≤ size ∧ size ≤ MAX_SEND ∧ (0 < size → x.2.finished = false)
  | .poll env => ¬ (x.1.bound = true ∧ repeats_syn env x.1.socket)
  | .disconnect _ => ¬ (x.1.closing = .STATE_INIT ∧ x.1.socket.state = .ESTABLISHED)

/-- The buffer holds bytes of the stream that fit a packet. -/
def Held (o : Outgoing) (a : Side) : Prop :=
  ∀ data, a.data = some data → a.len = BitVec.ofNat 32 data.length ∧ data.length ≤ MAX_SEND ∧ a.flags = PSH_ACK ∧
    Carries o a.seq data

structure Steered (x : Connection × Outgoing) : Prop extends Disciplined x where
  held : Held x.2 (side x.1.socket)
  ended : x.2.finished = true → x.1.socket.state = .CLOSE_WAIT ∨ x.1.socket.state = .CLOSED

theorem plain_in_place {o : Outgoing} {p : Packet} (plain : Plain p) : InPlace o p where
  syn syn := absurd syn (by simp [plain.1])
  fin fin := absurd fin (by simp [plain.2.1])
  data some := absurd plain.2.2 some

/-- A longer stream has its first bytes at the same places. -/
theorem carries_grow {o : Outgoing} {seq : Word} {payload more : List UInt8} {ps : List Packet}
    (carries : Carries o seq payload) : Carries ⟨o.isn,o.accepted ++ more,ps⟩ seq payload := by
  obtain ⟨k,number,piece⟩ := carries
  refine ⟨k,number,piece.trans ?_⟩
  rw [List.drop_append]
  exact List.prefix_append _ _

theorem in_place_grow {o : Outgoing} {p : Packet} {more : List UInt8} {ps : List Packet} (placed : InPlace o p)
    (before : p.flags.fin = true → more = []) : InPlace ⟨o.isn,o.accepted ++ more,ps⟩ p where
  syn := placed.syn
  fin fin := by simpa [before fin] using placed.fin fin
  data some := carries_grow (placed.data some)

theorem held_settles {o : Outgoing} {a b : Side} (held : Held o a) (settles : Settles a b) : Held o b := by
  rcases settles with rfl | rfl
  · exact held
  · intro data stored
    simp at stored

theorem settles_number {a b : Side} (settles : Settles a b) : b.sequence_number = a.sequence_number := by
  rcases settles with rfl | rfl <;> rfl

theorem finished_append (o : Outgoing) (more : List UInt8) (ps : List Packet) :
    (Outgoing.mk o.isn (o.accepted ++ more) (o.packets ++ ps)).finished = (o.finished || ps.any (·.flags.fin)) := by
  simp [Outgoing.finished]

variable {x : Connection × Outgoing}

/-- A step that takes nothing on and sends nothing new. -/
theorem steered_calm {c : Connection} {ps : List Packet} (steered : Steered x)
    (settles : Settles (side x.1.socket) (side c.socket)) (placed : ∀ p ∈ ps, InPlace x.2 p ∧ p.flags.fin = false)
    (stays : x.1.socket.state = .CLOSE_WAIT ∨ x.1.socket.state = .CLOSED →
      c.socket.state = .CLOSE_WAIT ∨ c.socket.state = .CLOSED) :
    Steered (c,⟨x.2.isn,x.2.accepted ++ [],x.2.packets ++ ps⟩) := by
  have finished : (Outgoing.mk x.2.isn (x.2.accepted ++ []) (x.2.packets ++ ps)).finished = x.2.finished := by
    rw [finished_append]
    have none : ps.any (·.flags.fin) = false := by
      rw [List.any_eq_false]
      intro p member
      simp [(placed p member).2]
    rw [none,Bool.or_false]
  have number : c.socket.sequence_number = x.1.socket.sequence_number := settles_number settles
  constructor
  · constructor
    · intro p member
      rcases List.mem_append.mp member with old | new
      · exact in_place_grow (steered.placed p old) (fun _ => rfl)
      · exact in_place_grow (placed p new).1 (fun _ => rfl)
    · simp only [List.append_nil]
      intro k inside
      obtain ⟨p,member,rest⟩ := steered.sent k inside
      exact ⟨p,List.mem_append_left _ member,rest⟩
    · dsimp only
      rw [finished,number,steered.counted,List.append_nil]
  · simpa [Held,Carries] using held_settles steered.held settles
  · intro gone
    rw [finished] at gone
    exact stays (steered.ended gone)

/-- The socket's FIN takes the number after the last byte. -/
theorem steered_ends {r : Socket × List Event} {c : Connection} (steered : Steered x)
    (ends : Ends x.1.socket r) (same : c.socket = r.1) :
    Steered (c,⟨x.2.isn,x.2.accepted ++ [],x.2.packets ++ packets r.2⟩) := by
  obtain ⟨here,waits,settles,a,f,sent,plain,flags,number,empty⟩ := ends
  have before : x.2.finished = false := by
    cases gone : x.2.finished with
    | false => rfl
    | true => rcases steered.ended gone with h | h <;> simp [h] at here
  have counted := steered.counted
  rw [before] at counted
  simp only [Bool.false_eq_true,↓reduceIte] at counted
  have finished : (Outgoing.mk x.2.isn (x.2.accepted ++ []) (x.2.packets ++ packets r.2)).finished = true := by
    rw [finished_append,sent]
    simp [flags,FIN_ACK]
  constructor
  · constructor
    · intro p member
      rcases List.mem_append.mp member with old | new
      · exact in_place_grow (steered.placed p old) (fun _ => rfl)
      · rw [sent,List.mem_cons,List.mem_singleton] at new
        rcases new with rfl | rfl
        · exact plain_in_place plain
        · refine ⟨by simp [flags,FIN_ACK],?_,fun some => absurd empty some⟩
          intro _
          rw [number,List.append_nil]
          simpa using counted
    · simp only [List.append_nil]
      intro k inside
      obtain ⟨p,member,rest⟩ := steered.sent k inside
      exact ⟨p,List.mem_append_left _ member,rest⟩
    · dsimp only
      rw [finished,same,List.append_nil]
      have moved := settles_number settles
      simp only [side] at moved
      rw [moved,counted]
      simp
  · rw [same]
    have held := held_settles (o := x.2) (a := { side x.1.socket with sequence_number := x.1.socket.sequence_number + 1 })
      steered.held settles
    simpa [Held,Carries] using held
  · intro _
    rw [same]
    exact .inl waits

/-- A send takes its bytes on at the end of the stream. -/
theorem steered_send {env : Env} {data : List UInt8} {c : Connection} (steered : Steered x)
    (fits : data.length ≤ MAX_SEND) (before : data ≠ [] → x.2.finished = false)
    (same : c.socket = (tcp_socket_send env x.1.socket data data.length).1) :
    Steered (c,⟨x.2.isn,x.2.accepted ++ data,
      x.2.packets ++ packets (tcp_socket_send env x.1.socket data data.length).2⟩) := by
  have sent : packets (tcp_socket_send env x.1.socket data data.length).2 =
      [packetOf env x.1.socket x.1.socket.sequence_number PSH_ACK 0 data data.length] := by
    rw [tcp_socket_send,tcp_socket_send_internal]
    simp only [packets_transmit]
    simp [PSH_ACK]
  have goes : (packetOf env x.1.socket x.1.socket.sequence_number PSH_ACK 0 data data.length).payload = data :=
    body_eq env fits
  have number : c.socket.sequence_number = x.1.socket.sequence_number + BitVec.ofNat 32 data.length := by
    rw [same,tcp_socket_send,tcp_socket_send_internal]
    simp [PSH_ACK]
  have state : c.socket.state = x.1.socket.state := by
    rw [same]
    exact (tcp_socket_send_drifts ..).2
  have finished : (Outgoing.mk x.2.isn (x.2.accepted ++ data)
      (x.2.packets ++ packets (tcp_socket_send env x.1.socket data data.length).2)).finished = x.2.finished := by
    rw [finished_append,sent]
    simp [packetOf,PSH_ACK]
  by_cases empty : data = []
  · subst empty
    have kept : side c.socket = side x.1.socket := by
      rw [same,tcp_socket_send,tcp_socket_send_internal]
      simp [side,PSH_ACK,tcp_tx_track_unacked]
    refine steered_calm steered (.inl kept) ?_ (by rw [state]; exact id)
    rw [sent]
    simp only [List.mem_singleton,forall_eq]
    exact ⟨plain_in_place ⟨rfl,rfl,goes⟩,rfl⟩
  · have counted := steered.counted
    rw [before empty] at counted
    simp only [Bool.false_eq_true,↓reduceIte] at counted
    have here : x.1.socket.sequence_number = x.2.isn + 1 + BitVec.ofNat 32 x.2.accepted.length := by simpa using counted
    have carries (ps : List Packet) : Carries ⟨x.2.isn,x.2.accepted ++ data,ps⟩ x.1.socket.sequence_number data :=
      ⟨x.2.accepted.length,here,by simp⟩
    have nofin : ∀ p ∈ x.2.packets, p.flags.fin = true → data = [] := by
      intro p member fin
      have gone := before empty
      rw [Outgoing.finished,List.any_eq_false] at gone
      exact absurd fin (gone p member)
    constructor
    · constructor
      · intro p member
        rcases List.mem_append.mp member with old | new
        · exact in_place_grow (steered.placed p old) (nofin p old)
        · rw [sent,List.mem_singleton] at new
          subst new
          exact ⟨by simp [packetOf,PSH_ACK],by simp [packetOf,PSH_ACK],fun _ => by rw [goes]; exact carries _⟩
      · intro k inside
        by_cases old : k < x.2.accepted.length
        · obtain ⟨p,member,j,below,within,number,piece⟩ := steered.sent k old
          refine ⟨p,List.mem_append_left _ member,j,below,within,number,piece.trans ?_⟩
          rw [List.drop_append]
          exact List.prefix_append _ _
        · refine ⟨_,List.mem_append_right _ (by rw [sent]; exact List.mem_singleton_self _),x.2.accepted.length,
            by omega,?_,here,?_⟩
          · rw [goes]
            simpa using inside
          · rw [goes]
            simp
      · dsimp only
        rw [finished,number,here,before empty,List.length_append,BitVec.ofNat_add]
        simp [BitVec.add_assoc]
    · intro stored tracked
      have tracks : side c.socket = ⟨c.socket.sequence_number,some data,BitVec.ofNat 32 data.length,
          x.1.socket.sequence_number,PSH_ACK⟩ := by
        rw [number,same,tcp_socket_send,tcp_socket_send_internal]
        simp [side,PSH_ACK,tcp_tx_track_unacked,empty]
      rw [tracks] at tracked ⊢
      obtain rfl : data = stored := by simpa using tracked
      exact ⟨rfl,fits,rfl,carries _⟩
    · intro gone
      rw [finished,before empty] at gone
      simp at gone

/-- A retransmission sends the buffer as it was sent first. -/
theorem resend_in_place {o : Outgoing} {env : Env} {s : Socket} (held : Held o (side s)) :
    side (tcp_socket_resend_unacked env s).1 = side s ∧
      ∀ p ∈ packets (tcp_socket_resend_unacked env s).2, InPlace o p ∧ p.flags.fin = false := by
  rw [tcp_socket_resend_unacked]
  split
  · exact ⟨rfl,by simp⟩
  · rename_i data stored
    obtain ⟨len,fits,flags,carries⟩ := held data stored
    simp only [side] at len flags carries
    split
    · exact ⟨rfl,by simp⟩
    · refine ⟨rfl,?_⟩
      have size : s.tx_unacked_len.toNat = data.length := by
        rw [len,BitVec.toNat_ofNat]
        apply Nat.mod_eq_of_lt
        simp only [MAX_SEND,tcp_header_size,tcp_pseudo_header_size] at fits
        omega
      rw [packets_transmit,flags,size]
      simp only [List.mem_singleton,forall_eq]
      refine ⟨⟨by simp [packetOf,PSH_ACK],by simp [packetOf,PSH_ACK],fun _ => ?_⟩,rfl⟩
      rw [show (packetOf env s s.tx_unacked_seq PSH_ACK 0 data data.length).payload = data from body_eq env fits]
      exact carries

/-- Once in `CLOSE_WAIT` or `CLOSED`, a socket stays there. -/
theorem drifts_ended {a b : State} (drifts : Drifts a b) (ended : a = .CLOSE_WAIT ∨ a = .CLOSED) :
    b = .CLOSE_WAIT ∨ b = .CLOSED := by
  cases drifts <;> simp_all

theorem moves_ended {s : Socket} {tcp : Segment} {after : State} (moves : Moves s tcp after)
    (ended : s.state = .CLOSE_WAIT ∨ s.state = .CLOSED) : after = .CLOSE_WAIT ∨ after = .CLOSED := by
  rw [Moves] at moves
  split at moves
  · rcases ended with h | h <;> simp [h] at moves
  · rw [moves]
    split <;> simp
  · exact drifts_ended moves ended

theorem steady_keeps {call : Call} (steered : Steered x) (possible : Possible x.1 call) (steady : Steady x call) :
    Steered ((perform x.1 call).1,watch x.1 call (perform x.1 call).2 x.2) := by
  have still : Steered (x.1,⟨x.2.isn,x.2.accepted ++ [],x.2.packets ++ packets []⟩) :=
    steered_calm steered (.inl rfl) (by simp) id
  cases call with
  | segment env bytes =>
    simp only [watch,taken,perform]
    split
    · rename_i tcp _ read
      rcases tcp_ipv4_recv_sends env x.1.socket tcp with ⟨settles,plain⟩ | ends
      · exact steered_calm steered settles (fun p member => ⟨plain_in_place (plain p member),(plain p member).2.1⟩)
          (moves_ended (tcp_ipv4_recv_spec env x.1.socket tcp).2.2)
      · exact steered_ends steered ends rfl
    · exact still
  | send env data size =>
    obtain ⟨positive,fits,before⟩ := steady
    have length : size = data.length := by
      have exactly := possible.2.1
      omega
    subst length
    have whole : data.take (data.length : Int).toNat = data := by simp
    simp only [watch,taken,perform,whole]
    refine steered_send steered (by exact_mod_cast fits) (fun some => before ?_) rfl
    have := List.length_pos_of_ne_nil some
    omega
  | poll env =>
    simp only [watch,taken,perform]
    split
    · rename_i bound
      have polls := tcp_poll_polls env x.1.socket
      have drifts := (tcp_poll_drifts env x.1.socket).2
      revert polls drifts
      generalize tcp_poll env x.1.socket = r
      intro polls drifts
      cases polls with
      | wait last => exact steered_calm steered (.inl rfl) (by simp) (drifts_ended drifts)
      | giveUp => exact steered_calm steered (settles_clear _) (by simp) (drifts_ended drifts)
      | resendSyn asking late left => exact absurd ⟨bound,asking,left,late⟩ steady
      | resend asked =>
        obtain ⟨same,placed⟩ := @resend_in_place _ env _ steered.held
        exact steered_calm steered (.inl same) placed (drifts_ended drifts)
    · exact still
  | disconnect env =>
    cases closing : x.1.closing with
    | STATE_INIT =>
      have waits : x.1.socket.state ≠ .ESTABLISHED := fun open_ => steady ⟨closing,open_⟩
      simp only [watch,taken,perform,closing,tcp_socket_disconnect,if_neg waits]
      exact steered_calm steered (.inl rfl) (by simp) id
    | STATE_WAIT =>
      simp only [watch,taken,perform,closing]
      split
      · exact steered_calm steered (settles_clear _) (by simp) (fun ended => ended)
      · exact still
    | STATE_DONE =>
      simp only [watch,taken,perform,closing]
      exact still

theorem steered_start (start : send_system.start x) : Steered x := by
  obtain ⟨events,⟨env,remote_ip,local_ip,remote_port,local_port,route,connects,-,-⟩,account⟩ := start
  obtain ⟨c,o⟩ := x
  dsimp only at connects account
  have socket : c.socket = (tcp_connect env remote_ip local_ip remote_port local_port route).1 := by rw [connects]
  have sent : packets events = packets (tcp_connect env remote_ip local_ip remote_port local_port route).2 := by
    rw [connects]
  rw [tcp_connect,send_control_fst] at socket
  rw [tcp_connect,packets_send_control] at sent
  subst account
  simp only [first_number,sent]
  refine ⟨⟨?_,by simp,?_⟩,?_,?_⟩
  · simp only [List.mem_singleton,forall_eq]
    exact ⟨fun _ => rfl,by simp [packetOf,SYN],fun some => absurd (@body_eq env [] (by simp)) some⟩
  · simp [socket,Outgoing.finished,packetOf,SYN]
  · intro data stored
    simp [side,socket] at stored
  · simp [Outgoing.finished,packetOf,SYN]

theorem steady_steered (reached : Reached (guarded send_system Steady) x) : Steered x :=
  guarded_invariant (fun _ => steered_start)
    (fun _ _ _ steered step steady => by rw [step.2]; exact steady_keeps steered step.1 steady) reached

/-- In the runs of steady steps every packet carries the number of its SYN, of its
    bytes or of its FIN, and `sequence_number` counts what was sent. -/
theorem send_discipline {x : Connection × Outgoing} (reached : Reached (guarded send_system Steady) x) : Disciplined x :=
  (steady_steered reached).toDisciplined

/-- The fresh connection with its account, and the run of a handshake and a send. -/
def fresh_outgoing : Connection × Outgoing :=
  (fresh_connection,⟨0,[],packets (tcp_connect idle 1 2 3 4 5).2⟩)

def after (x : Connection × Outgoing) (call : Call) : Connection × Outgoing :=
  ((perform x.1 call).1,watch x.1 call (perform x.1 call).2 x.2)

theorem fresh_start : send_system.start fresh_outgoing := ⟨_,fresh_connected,rfl⟩

def shaken_outgoing : Connection × Outgoing := after fresh_outgoing (.segment idle syn_ack)

theorem send_discipline_shaken : Disciplined (after shaken_outgoing (.send idle [0x41] 1)) :=
  send_discipline ⟨fresh_outgoing,[.segment idle syn_ack,.send idle [0x41] 1],fresh_start,
    .step (t := shaken_outgoing) ⟨⟨⟨by decide,by decide⟩,rfl⟩,trivial⟩
      (.step ⟨⟨⟨by decide,by decide,by decide⟩,rfl⟩,by decide,by decide,fun _ => by decide⟩ (.done _))⟩

/-- A SYN that nobody answers is sent again with the next number. -/
theorem syn_repeated_wrong : ¬ ∀ x, Reached send_system x → Disciplined x := by
  intro always
  let waiting := after fresh_outgoing (.poll { idle with now := 1 })
  have disciplined := always (after waiting (.poll { idle with now := 301 }))
    ⟨fresh_outgoing,[.poll { idle with now := 1 },.poll { idle with now := 301 }],fresh_start,
      .step (t := waiting) ⟨(by decide : fresh_connection.closing ≠ .STATE_DONE),rfl⟩
        (.step ⟨(by decide : waiting.1.closing ≠ .STATE_DONE),rfl⟩ (.done _))⟩
  have repeated := (disciplined.placed _ (List.getLast_mem (by decide))).syn
  revert repeated
  decide

end MicroOS.TcpSequence

import MicroOS.TcpReliability

/-!
Which socket a TCP segment goes to: the walk of `tcp_ipv4_recv` over the bound
sockets. It compares the remote address and port of a socket that does not listen,
and not its local port, so a segment may reach a socket of another connection.
-/
namespace MicroOS.TcpDemux
open Tcp TcpRuns TcpReceive TcpReliability

/-- A `tcp_socket_t` with its `listening` flag. -/
structure Bound where
  socket : Socket
  listening : Bool

/-- `stack->tcp->binds`, by the addresses of the sockets (0 is NULL), and the sockets. -/
structure Table where
  binds : List Nat
  socket_at : Nat → Bound

/-- The addresses and ports of a segment, the ports as they stand in its header. -/
structure Addresses where
  srcIP : Word
  dstIP : Word
  src_port : BitVec 16
  dst_port : BitVec 16

/-- The 16-bit field at an offset, in the byte order of the machine. -/
def field16 (bytes : List UInt8) (i : Nat) : BitVec 16 :=
  BitVec.ofNat 16 ((byteAt bytes i).toNat + 2 ^ 8 * (byteAt bytes (i+1)).toNat)

def addresses (srcIP dstIP : Word) (bytes : List UInt8) : Addresses := ⟨srcIP,dstIP,field16 bytes 0,field16 bytes 2⟩

/-- The test for a listening socket. -/
def listens (b : Bound) (a : Addresses) : Bool :=
  b.socket.local_port == a.dst_port && b.socket.local_ip == a.dstIP && b.listening

/-- The test for a connected socket. -/
def connects (b : Bound) (a : Addresses) : Bool :=
  b.socket.remote_port == a.src_port && b.socket.remote_ip == a.srcIP

/-- The first bound socket that passes one of the tests. -/
def lookup (socket_at : Nat → Bound) (a : Addresses) : List Nat → Option Nat
  | [] => none
  | p :: rest =>
    if p ≠ 0 ∧ (listens (socket_at p) a ∨ connects (socket_at p) a) then some p else lookup socket_at a rest

/-- A listening socket takes the sender as its remote side. -/
def adopt (b : Bound) (a : Addresses) : Bound :=
  if listens b a then
    { b with listening := false, socket := { b.socket with remote_port := a.src_port, remote_ip := a.srcIP } }
  else b

/-- Sets the first slot with a socket to NULL. -/
def clear_first (p : Nat) : List Nat → List Nat
  | [] => []
  | q :: rest => if q = p then 0 :: rest else q :: clear_first p rest

/-- The table afterwards, and what the sockets did. -/
def tcp_ipv4_recv (env : Env) (t : Table) (srcIP dstIP : Word) (bytes : List UInt8) : Table × List (Nat × Event) :=
  match read_header bytes, lookup t.socket_at (addresses srcIP dstIP bytes) t.binds with
  | some tcp, some p =>
    let b := adopt (t.socket_at p) (addresses srcIP dstIP bytes)
    let (s,events) := Tcp.tcp_ipv4_recv env b.socket tcp
    ({ binds := if s.state = .CLOSED then clear_first p t.binds else t.binds
       socket_at := Function.update t.socket_at p { b with socket := s } },
      events.map (fun e => (p,e)))
  | _, _ => (t,[])

/-- A socket of the connection that the segment belongs to. -/
def Matches (b : Bound) (a : Addresses) : Prop :=
  b.socket.remote_ip = a.srcIP ∧ b.socket.remote_port = a.src_port ∧ b.socket.local_port = a.dst_port

/-- A socket that keeps its state and its slots, and receives nothing. -/
def Untouched (t : Table) (r : Table × List (Nat × Event)) (p : Nat) : Prop :=
  r.1.socket_at p = t.socket_at p ∧ r.1.binds.count p = t.binds.count p ∧ ∀ data, (p,Event.recv data) ∉ r.2

/-- A segment touches no bound socket that does not match it. -/
def Routed (env : Env) (t : Table) (srcIP dstIP : Word) (bytes : List UInt8) : Prop :=
  ∀ p ∈ t.binds, p ≠ 0 → ¬ Matches (t.socket_at p) (addresses srcIP dstIP bytes) →
    Untouched t (tcp_ipv4_recv env t srcIP dstIP bytes) p

/-- A bound socket that passes one of the tests, with none in an earlier slot. -/
def First (t : Table) (a : Addresses) (p : Nat) : Prop :=
  ∃ before after, t.binds = before ++ p :: after ∧ p ≠ 0 ∧ (listens (t.socket_at p) a ∨ connects (t.socket_at p) a) ∧
    ∀ q ∈ before, q ≠ 0 → listens (t.socket_at q) a = false ∧ connects (t.socket_at q) a = false

/-- The acknowledgement that `recv_ack` accepts. -/
def clears (s : Socket) (tcp : Segment) : Prop :=
  tcp.flags.ack = true ∧ s.tx_unacked_len ≠ 0 ∧ tcp_seq_after_eq tcp.ack_number s.tx_unacked_seq = true ∧
    tcp_seq_after_eq tcp.ack_number (s.sequence_number + 1) = false ∧
    tcp_seq_after_eq tcp.ack_number (s.tx_unacked_seq + s.tx_unacked_len) = true

/-- The segments that change nothing in a socket: nothing new is acknowledged, no
    flag moves the state, and data or a FIN is out of sequence. -/
structure Harmless (s : Socket) (tcp : Segment) : Prop where
  rst : tcp.flags.rst = false
  alive : s.state ≠ .CLOSED
  acked : ¬ clears s tcp
  syn : tcp.flags.syn = false
  fin : tcp.flags.fin = true → tcp.sequence_number ≠ s.ack_number
  data : tcp.flags.fin = false → verdict s tcp ≠ .data
  ack : tcp.flags.fin = false → tcp.flags.ack = true → s.state ≠ .SYN_RECEIVED ∧ s.state ≠ .CLOSE_WAIT ∧
    ¬ (s.state = .FIN_WAIT1 ∧ tcp.ack_number = s.sequence_number)

section
variable {s : Socket} {tcp : Segment}

theorem recv_ack_kept (acked : ¬ clears s tcp) : recv_ack s tcp = s := by
  rw [recv_ack]
  split
  · rename_i here
    dsimp only
    split
    · rfl
    · rename_i inside
      split
      · rename_i past
        refine absurd ?_ acked
        simp only [Bool.and_eq_true,bne_iff_ne,ne_eq] at here
        simp only [Bool.or_eq_true,Bool.not_eq_true',not_or,Bool.not_eq_false,Bool.not_eq_true] at inside
        exact ⟨here.1,here.2,inside.1,inside.2,past⟩
      · rfl
  · rfl

theorem recv_ack_cleared (acked : clears s tcp) : (recv_ack s tcp).tx_unacked_len = 0 := by
  obtain ⟨ack,some_,after,before,past⟩ := acked
  rw [recv_ack,if_pos (by simpa [ack] using some_)]
  dsimp only
  rw [if_neg (by rw [after,before]; decide),if_pos past]
  rfl

theorem send_control_ack (env : Env) (s : Socket) : (send_control env s ACK).1 = s := by
  rw [send_control_fst]
  simp [ACK]

theorem recv_data_harmless (env : Env) (still : tcp.payload = [] ∨ tcp.sequence_number ≠ s.ack_number) :
    (recv_data env s tcp).1 = s ∧ (recv_data env s tcp).2.2 = false := by
  rw [recv_data]
  by_cases empty : tcp.payload = []
  · simp [empty]
  · have other := still.resolve_left empty
    simp [empty,other,send_control_ack]

/-- A harmless segment passes through the switch without a trace. -/
theorem recv_switch_harmless (env : Env) (harmless : Harmless s tcp) :
    (recv_switch env s tcp).1 = s ∧ (recv_switch env s tcp).2.2 = false := by
  obtain ⟨rst,alive,-,syn,fins,datas,acks⟩ := harmless
  cases fin : tcp.flags.fin with
  | true =>
    have switch : recv_switch env s tcp = recv_fin env s tcp := by
      cases ack : tcp.flags.ack <;> simp [recv_switch,syn,fin,ack]
    rw [switch]
    simp [recv_fin,fins fin,send_control_ack]
  | false =>
    have still (waits : ¬ (tcp.flags.ack = true ∧ s.state = .CLOSE_WAIT)) :
        tcp.payload = [] ∨ tcp.sequence_number ≠ s.ack_number := by
      by_contra moved
      refine datas fin ?_
      rw [verdict,if_neg (by simp [rst,alive]),if_neg (by simp [syn]),if_neg (by simp [fin]),
        if_neg (by rw [← or_assoc]; exact not_or.mpr ⟨moved,waits⟩)]
    cases ack : tcp.flags.ack with
    | false =>
      have switch : recv_switch env s tcp = recv_data env s tcp := by simp [recv_switch,syn,fin,ack]
      rw [switch]
      exact recv_data_harmless env (still (by simp [ack]))
    | true =>
      obtain ⟨received,waits,finishes⟩ := acks fin ack
      have pure_ack : recv_pure_ack env s tcp = recv_data env s tcp := by
        cases state : s.state with
        | SYN_RECEIVED => exact absurd state received
        | CLOSE_WAIT => exact absurd state waits
        | FIN_WAIT1 =>
          have other : tcp.ack_number ≠ s.sequence_number := fun same => finishes ⟨state,same⟩
          simp [recv_pure_ack,state,other]
        | _ => simp [recv_pure_ack,state]
      have switch : recv_switch env s tcp = recv_pure_ack env s tcp := by simp [recv_switch,syn,fin,ack]
      rw [switch,pure_ack]
      exact recv_data_harmless env (still (fun both => waits both.2))

theorem harmless_verdict (harmless : Harmless s tcp) : verdict s tcp = .other := by
  cases fin : tcp.flags.fin with
  | true => simp [verdict,harmless.syn,fin,harmless.fin fin]
  | false =>
    have none := harmless.data fin
    simp only [verdict,harmless.syn,fin,Bool.false_eq_true,↓reduceIte,ne_eq] at none ⊢
    split_ifs at none ⊢ <;> simp_all

/-- A call that asks for a reset ends the socket. -/
theorem reset_closes {env : Env} (reset : (recv_switch env (recv_ack s tcp) tcp).2.2 = true) :
    (Tcp.tcp_ipv4_recv env s tcp).1.state = .CLOSED := by
  by_cases silent : tcp.flags.rst = true ∨ s.state = .CLOSED
  · rw [tcp_ipv4_recv_silent env silent]
    rfl
  · rw [tcp_ipv4_recv_live env silent,if_pos reset]
    rfl

/-- The state after a call without a reset. -/
theorem calm_state {env : Env} (live : ¬ (tcp.flags.rst = true ∨ s.state = .CLOSED))
    (calm : (recv_switch env (recv_ack s tcp) tcp).2.2 = false) :
    (Tcp.tcp_ipv4_recv env s tcp).1.state = (recv_switch env (recv_ack s tcp) tcp).1.state := by
  rw [tcp_ipv4_recv_live env live,if_neg (by simp [calm])]
  dsimp only
  split <;> rfl

/-- What a socket that comes out unchanged says about the SYN and the ACK of the segment. -/
theorem kept_harmless (env : Env) (same : (Tcp.tcp_ipv4_recv env s tcp).1 = s)
    (open_ : (Tcp.tcp_ipv4_recv env s tcp).1.state ≠ .CLOSED)
    (quiet : deliveries (Tcp.tcp_ipv4_recv env s tcp).2 = []) : Harmless s tcp := by
  obtain ⟨-,given,moves⟩ := tcp_ipv4_recv_spec env s tcp
  have alive : s.state ≠ .CLOSED := by rwa [same] at open_
  have live : ¬ (tcp.flags.rst = true ∨ s.state = .CLOSED) := by
    intro silent
    rw [tcp_ipv4_recv_silent env silent] at open_
    exact open_ rfl
  have rst : tcp.flags.rst = false := by simpa using fun h => live (.inl h)
  have acked : ¬ clears s tcp := by
    intro acked
    have buffered := congrArg (fun b => b.2.1) (tcp_ipv4_recv_buffer open_)
    rw [same] at buffered
    exact acked.2.1 (buffered.trans (recv_ack_cleared acked))
  have unread : recv_ack s tcp = s := recv_ack_kept acked
  have calm : (recv_switch env s tcp).2.2 = false := by
    cases reset : (recv_switch env s tcp).2.2 with
    | false => rfl
    | true => exact absurd (@reset_closes _ _ env (by rw [unread,reset])) open_
  have state : (recv_switch env s tcp).1.state = s.state := by
    have reached := @calm_state _ _ env live (by rw [unread,calm])
    rw [unread] at reached
    rw [← reached,same]
  rw [same] at moves
  have data : verdict s tcp ≠ .data := by
    intro kind
    rw [quiet,delivered,kind] at given
    cases given
  have syn : tcp.flags.syn = false := by
    cases syn : tcp.flags.syn with
    | false => rfl
    | true =>
      cases fin : tcp.flags.fin with
      | true => cases ack : tcp.flags.ack <;> simp [recv_switch,syn,fin,ack] at calm
      | false =>
        cases ack : tcp.flags.ack with
        | false => simp [recv_switch,syn,fin,ack] at calm
        | true =>
          by_cases asked : s.state = .SYN_SENT
          · simp [recv_switch,recv_syn_ack,syn,fin,ack,asked] at state
          · simp [recv_switch,recv_syn_ack,syn,fin,ack,asked] at calm
  refine ⟨rst,alive,acked,syn,?_,fun _ => data,?_⟩
  · intro fin here
    have kind : verdict s tcp = .fin := by simp [verdict,rst,alive,syn,fin,here]
    simp only [Moves,kind] at moves
    by_cases established : s.state = .ESTABLISHED
    · simp [established] at moves
    · rw [if_neg established] at moves
      exact alive moves
  · intro fin ack
    have switch : recv_switch env s tcp = recv_pure_ack env s tcp := by simp [recv_switch,syn,fin,ack]
    rw [switch] at state
    have kept (t : Socket) : (recv_data env t tcp).1.state = t.state := by
      rw [recv_data]
      split_ifs <;> simp
    refine ⟨?_,?_,?_⟩
    · intro here
      simp [recv_pure_ack,here,kept] at state
    · intro here
      simp [recv_pure_ack,here] at state
    · rintro ⟨here,number⟩
      simp [recv_pure_ack,here,number,kept] at state

/-- A call leaves a socket open, unchanged and without data exactly for a harmless segment. -/
theorem kept_iff (env : Env) :
    ((Tcp.tcp_ipv4_recv env s tcp).1 = s ∧ (Tcp.tcp_ipv4_recv env s tcp).1.state ≠ .CLOSED ∧
      deliveries (Tcp.tcp_ipv4_recv env s tcp).2 = []) ↔ Harmless s tcp := by
  constructor
  · rintro ⟨same,open_,quiet⟩
    exact kept_harmless env same open_ quiet
  · intro harmless
    have live : ¬ (tcp.flags.rst = true ∨ s.state = .CLOSED) := by simp [harmless.rst,harmless.alive]
    obtain ⟨kept,calm⟩ := recv_switch_harmless env harmless
    have same : (Tcp.tcp_ipv4_recv env s tcp).1 = s := by
      rw [tcp_ipv4_recv_live env live,recv_ack_kept harmless.acked,if_neg (by simp [calm]),kept,
        if_neg harmless.alive]
    refine ⟨same,by rw [same]; exact harmless.alive,?_⟩
    rw [(tcp_ipv4_recv_spec env s tcp).2.1,delivered,harmless_verdict harmless]

end

theorem lookup_bound {socket_at : Nat → Bound} {a : Addresses} {binds : List Nat} {p : Nat}
    (found : lookup socket_at a binds = some p) : p ∈ binds ∧ p ≠ 0 := by
  induction binds with
  | nil => cases found
  | cons q rest ih =>
    rw [lookup] at found
    split at found
    · rename_i here
      cases found
      exact ⟨List.mem_cons_self,here.1⟩
    · exact ⟨List.mem_cons_of_mem _ (ih found).1,(ih found).2⟩

theorem lookup_first {t : Table} {a : Addresses} {p : Nat} : lookup t.socket_at a t.binds = some p ↔ First t a p := by
  rw [First]
  generalize t.binds = binds
  induction binds with
  | nil => simp [lookup]
  | cons r rest ih =>
    rw [lookup]
    split
    · rename_i here
      constructor
      · intro found
        cases found
        exact ⟨[],rest,rfl,here.1,here.2,by simp⟩
      · rintro ⟨before,after,shape,-,-,earlier⟩
        cases before with
        | nil => rw [(List.cons.inj shape).1]
        | cons q before =>
          obtain ⟨refused,refused'⟩ := earlier q List.mem_cons_self (by rw [← (List.cons.inj shape).1]; exact here.1)
          rw [← (List.cons.inj shape).1] at refused refused'
          simp [refused,refused'] at here
    · rename_i refused
      rw [ih]
      constructor
      · rintro ⟨before,after,shape,used,accepted,earlier⟩
        refine ⟨r :: before,after,by rw [shape]; rfl,used,accepted,?_⟩
        intro q member used'
        rcases List.mem_cons.mp member with rfl | member
        · simpa [used'] using refused
        · exact earlier q member used'
      · rintro ⟨before,after,shape,used,accepted,earlier⟩
        cases before with
        | nil =>
          rw [(List.cons.inj shape).1] at refused
          exact absurd ⟨used,accepted⟩ refused
        | cons q before =>
          exact ⟨before,after,(List.cons.inj shape).2,used,accepted,
            fun q' member => earlier q' (List.mem_cons_of_mem _ member)⟩

theorem clear_first_other {p q : Nat} (other : q ≠ p) (used : q ≠ 0) (binds : List Nat) :
    (clear_first p binds).count q = binds.count q := by
  induction binds with
  | nil => rfl
  | cons r rest ih =>
    rw [clear_first]
    split
    · rename_i here
      rw [List.count_cons_of_ne (Ne.symm used),List.count_cons_of_ne (by rw [here]; exact Ne.symm other)]
    · rw [List.count_cons,List.count_cons,ih]

theorem clear_first_self {p : Nat} {binds : List Nat} (used : p ≠ 0) (bound : p ∈ binds) :
    (clear_first p binds).count p ≠ binds.count p := by
  induction binds with
  | nil => cases bound
  | cons r rest ih =>
    rw [clear_first]
    split
    · rename_i here
      rw [here,List.count_cons_of_ne (Ne.symm used),List.count_cons_self]
      omega
    · rename_i other
      have later : p ∈ rest := (List.mem_cons.mp bound).resolve_left (Ne.symm other)
      rw [List.count_cons_of_ne other,List.count_cons_of_ne other]
      exact ih later

section
variable {env : Env} {t : Table} {srcIP dstIP : Word} {bytes : List UInt8} {tcp : Segment} {p : Nat}

section
variable (read : read_header bytes = some tcp)
  (found : lookup t.socket_at (addresses srcIP dstIP bytes) t.binds = some p)
include read found

theorem tcp_ipv4_recv_found : tcp_ipv4_recv env t srcIP dstIP bytes =
      (⟨if (Tcp.tcp_ipv4_recv env (adopt (t.socket_at p) (addresses srcIP dstIP bytes)).socket tcp).1.state = .CLOSED
          then clear_first p t.binds else t.binds,
        Function.update t.socket_at p { adopt (t.socket_at p) (addresses srcIP dstIP bytes) with
          socket := (Tcp.tcp_ipv4_recv env (adopt (t.socket_at p) (addresses srcIP dstIP bytes)).socket tcp).1 }⟩,
        (Tcp.tcp_ipv4_recv env (adopt (t.socket_at p) (addresses srcIP dstIP bytes)).socket tcp).2.map (fun e => (p,e))) := by
  simp only [tcp_ipv4_recv,read,found]

theorem untouched_other {q : Nat} (other : q ≠ p) (used : q ≠ 0) :
    Untouched t (tcp_ipv4_recv env t srcIP dstIP bytes) q := by
  rw [tcp_ipv4_recv_found read found]
  refine ⟨Function.update_of_ne other _ _,?_,?_⟩
  · dsimp only
    split
    · exact clear_first_other other used t.binds
    · rfl
  · intro data member
    obtain ⟨e,-,same⟩ := List.mem_map.mp member
    exact other (congrArg Prod.fst same).symm

end

theorem recv_silent {events : List Event} : (∀ data, (p,Event.recv data) ∉ events.map (fun e => (p,e))) ↔
    deliveries events = [] := by
  constructor
  · intro none
    rw [deliveries,List.filterMap_eq_nil_iff]
    intro e member
    cases e with
    | recv data => exact absurd (List.mem_map_of_mem member) (none data)
    | ipv4_send dest route packet => rfl
    | overflow => rfl
  · intro none data member
    obtain ⟨e,here,same⟩ := List.mem_map.mp member
    cases same
    have given : data ∈ deliveries events := List.mem_filterMap.mpr ⟨_,here,rfl⟩
    rw [none] at given
    cases given

/-- The socket that the walk stops at is left alone only by a harmless segment. -/
theorem untouched_found (read : read_header bytes = some tcp)
    (found : lookup t.socket_at (addresses srcIP dstIP bytes) t.binds = some p) :
    Untouched t (tcp_ipv4_recv env t srcIP dstIP bytes) p ↔
      listens (t.socket_at p) (addresses srcIP dstIP bytes) = false ∧ Harmless (t.socket_at p).socket tcp := by
  obtain ⟨bound,used⟩ := lookup_bound found
  rw [tcp_ipv4_recv_found read found,Untouched,recv_silent]
  simp only [Function.update_self]
  cases listening : listens (t.socket_at p) (addresses srcIP dstIP bytes) with
  | true =>
    have flag : (t.socket_at p).listening = true := by
      simp only [listens,Bool.and_eq_true] at listening
      exact listening.2
    simp only [Bool.true_eq_false,false_and,iff_false]
    rintro ⟨same,-,-⟩
    have turned := congrArg Bound.listening same
    simp [adopt,listening,flag] at turned
  | false =>
    have kept : adopt (t.socket_at p) (addresses srcIP dstIP bytes) = t.socket_at p := by simp [adopt,listening]
    rw [kept,← kept_iff env]
    generalize Tcp.tcp_ipv4_recv env (t.socket_at p).socket tcp = r
    have socket : ({ t.socket_at p with socket := r.1 } = t.socket_at p) ↔ r.1 = (t.socket_at p).socket := by
      constructor
      · intro same
        exact congrArg Bound.socket same
      · intro same
        rw [same]
    rw [socket]
    simp only [true_and]
    refine and_congr_right (fun _ => and_congr_left (fun _ => ?_))
    by_cases shut : r.1.state = .CLOSED
    · rw [if_pos shut]
      exact iff_of_false (clear_first_self used bound) (fun open_ => open_ shut)
    · rw [if_neg shut]
      exact iff_of_true rfl shut

end

/-- A segment touches only sockets that match it exactly when it has no header, or no
    socket passes the tests, or the first that does matches the segment, or does not
    listen for it and the segment is harmless to it. -/
theorem routed_iff (env : Env) (t : Table) (srcIP dstIP : Word) (bytes : List UInt8) :
    Routed env t srcIP dstIP bytes ↔
      ∀ tcp p, read_header bytes = some tcp → First t (addresses srcIP dstIP bytes) p →
        Matches (t.socket_at p) (addresses srcIP dstIP bytes) ∨
          listens (t.socket_at p) (addresses srcIP dstIP bytes) = false ∧ Harmless (t.socket_at p).socket tcp := by
  simp only [← lookup_first]
  constructor
  · intro routed tcp p read found
    obtain ⟨bound,used⟩ := lookup_bound found
    by_cases right : Matches (t.socket_at p) (addresses srcIP dstIP bytes)
    · exact .inl right
    · exact .inr ((untouched_found read found).mp (routed p bound used right))
  · intro condition q bound used wrong
    cases read : read_header bytes with
    | none =>
      have dropped : tcp_ipv4_recv env t srcIP dstIP bytes = (t,[]) := by simp [tcp_ipv4_recv,read]
      rw [dropped]
      exact ⟨rfl,rfl,by simp⟩
    | some tcp =>
      cases found : lookup t.socket_at (addresses srcIP dstIP bytes) t.binds with
      | none =>
        have dropped : tcp_ipv4_recv env t srcIP dstIP bytes = (t,[]) := by simp [tcp_ipv4_recv,read,found]
        rw [dropped]
        exact ⟨rfl,rfl,by simp⟩
      | some p =>
        by_cases here : q = p
        · rw [here] at wrong ⊢
          exact (untouched_found read found).mpr ((condition tcp p read found).resolve_left wrong)
        · exact untouched_other read found here used

/-- A socket to 10.0.2.2 port 80 from local port 1025, and a reset from there to port 1024. -/
def second_socket : Bound := ⟨(tcp_connect idle 0x0202000A 0x0F02000A 0x5000 0x0104 0).1,false⟩
def reset_first : List UInt8 := [0x00,0x50,0x04,0x00,0,0,0,0,0,0,0,0,0x50,0x04,0,0,0,0,0,0]

/-- A late reset of an earlier connection to the same server closes the new one. -/
theorem reset_misrouted : ¬ ∀ env t srcIP dstIP bytes, Routed env t srcIP dstIP bytes := by
  intro always
  have routed := always idle ⟨[1],fun _ => second_socket⟩ 0x0202000A 0x0F02000A reset_first
  have untouched := routed 1 (by decide) (by decide) (by unfold Matches; decide)
  exact absurd untouched.2.1 (by decide)

end MicroOS.TcpDemux

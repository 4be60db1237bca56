import MicroOS.TcpSequence

/-!
What becomes of the bytes a TCP socket accepted to send. Each is acknowledged by the
peer, or waits in the retransmission buffer at its sequence number, or the socket is
closed, as long as every send fits its packet and no send comes while the buffer is
taken: there is one buffer, and a send replaces what it held.
-/
namespace MicroOS.TcpReliability
open Tcp TcpRuns TcpReceive TcpSequence Runs

/-- The fields of the retransmission buffer. -/
def buffer (s : Socket) : Option (List UInt8) × Word × Word := (s.tx_unacked_data,s.tx_unacked_len,s.tx_unacked_seq)

variable {s : Socket} {x : Connection × List Chunk} {tcp : Segment}

variable {t : Socket} {data : List UInt8} {chunks : List Chunk} {c : Connection}

theorem buffer_side {q : Word} (same : side s = { side t with sequence_number := q }) : buffer s = buffer t := by
  simp only [side,Side.mk.injEq] at same
  simp [buffer,same]

section
variable {env : Env} {s : Socket} {tcp : Segment}

theorem recv_switch_buffer : buffer (recv_switch env s tcp).1 = buffer s := by
  rcases @recv_switch_sends env s tcp with ⟨kept,-⟩ | ⟨⟨-,-,moved,-⟩,-⟩
  · exact buffer_side (q := s.sequence_number) kept
  · exact buffer_side moved

/-- A segment that leaves the socket open touches the buffer as an acknowledgement only. -/
theorem tcp_ipv4_recv_buffer (open_ : (tcp_ipv4_recv env s tcp).1.state ≠ .CLOSED) :
    buffer (tcp_ipv4_recv env s tcp).1 = buffer (recv_ack s tcp) := by
  by_cases silent : tcp.flags.rst = true ∨ s.state = .CLOSED
  · rw [tcp_ipv4_recv_silent env silent] at open_
    exact absurd rfl open_
  · rw [tcp_ipv4_recv_live env silent] at open_ ⊢
    split at open_
    · exact absurd rfl open_
    · rename_i calm
      rw [if_neg calm]
      dsimp only at open_ ⊢
      split at open_
      · rename_i shut
        exact absurd shut open_
      · rename_i live
        rw [if_neg live]
        exact recv_switch_buffer

end

/-- The bytes of one send, the sequence number they went out with, and how many of
    them the peer has acknowledged. -/
structure Chunk where
  seq : Word
  data : List UInt8
  acked : Nat

/-- How many of `n` bytes from `seq` on a segment acknowledges; acknowledgements of
    what was not sent yet do not count. -/
def acknowledges (s : Socket) (tcp : Segment) (seq : Word) (n : Nat) : Nat :=
  if tcp.flags.ack && tcp_seq_after_eq tcp.ack_number seq && !tcp_seq_after_eq tcp.ack_number (s.sequence_number + 1) then
    min n (tcp.ack_number - seq).toNat
  else 0

def advance (s : Socket) (tcp : Segment) (chunk : Chunk) : Chunk :=
  { chunk with acked := max chunk.acked (acknowledges s tcp chunk.seq chunk.data.length) }

def watch (c : Connection) (call : Call) (_ : List Event) (chunks : List Chunk) : List Chunk :=
  match arriving c call with
  | some tcp => chunks.map (advance c.socket tcp)
  | none => if taken call = [] then chunks else chunks ++ [⟨c.socket.sequence_number,taken call,0⟩]

def reliable_system : System (Connection × List Chunk) Call := observed (fun _ _ => []) watch

/-- The buffer holds a byte for a sequence number. -/
def Buffered (s : Socket) (seq : Word) (byte : UInt8) : Prop :=
  ∃ data i, s.tx_unacked_data = some data ∧ i < s.tx_unacked_len.toNat ∧ data[i]? = some byte ∧
    s.tx_unacked_seq + BitVec.ofNat 32 i = seq

/-- Every byte accepted is acknowledged or can be sent again, unless the socket is closed. -/
def Reliable (x : Connection × List Chunk) : Prop :=
  x.1.socket.state ≠ .CLOSED → ∀ chunk ∈ x.2, ∀ j byte, chunk.data[j]? = some byte →
    j < chunk.acked ∨ Buffered x.1.socket (chunk.seq + BitVec.ofNat 32 j) byte

/-- A send fits its packet and finds the buffer empty. -/
def Patient (x : Connection × List Chunk) : Call → Prop
  | .send _ _ size => 0 ≤ size ∧ size ≤ MAX_SEND ∧
      (0 < size → x.1.socket.tx_unacked_len = 0 ∨ x.1.socket.state = .CLOSED)
  | _ => True

/-- A chunk the peer has whole. -/
def Settled (chunk : Chunk) : Prop := chunk.data.length ≤ chunk.acked

/-- The buffer holds exactly the last chunk, or nothing when that is settled too. -/
def Holding (s : Socket) (chunks : List Chunk) : Prop :=
  (s.tx_unacked_len = 0 ∧ ∀ chunk ∈ chunks, Settled chunk) ∨
  ∃ before last, chunks = before ++ [last] ∧ (∀ chunk ∈ before, Settled chunk) ∧
    buffer s = (some last.data,BitVec.ofNat 32 last.data.length,last.seq) ∧ 0 < last.data.length ∧
    last.data.length ≤ MAX_SEND

def Kept (x : Connection × List Chunk) : Prop := x.1.socket.state ≠ .CLOSED → Holding x.1.socket x.2

theorem length_small (fits : data.length ≤ MAX_SEND) : (BitVec.ofNat 32 data.length).toNat = data.length := by
  rw [BitVec.toNat_ofNat]
  apply Nat.mod_eq_of_lt
  simp only [MAX_SEND,tcp_header_size,tcp_pseudo_header_size] at fits
  omega

theorem kept_reliable (kept : Kept x) : Reliable x := by
  intro open_ chunk member j byte here
  have inside : j < chunk.data.length := (List.getElem?_eq_some_iff.mp here).1
  rcases kept open_ with ⟨-,settled⟩ | ⟨before,last,whole,settled,held,-,fits⟩
  · exact .inl (Nat.lt_of_lt_of_le inside (settled chunk member))
  · rw [whole,List.mem_append,List.mem_singleton] at member
    rcases member with old | rfl
    · exact .inl (Nat.lt_of_lt_of_le inside (settled chunk old))
    · right
      simp only [buffer,Prod.mk.injEq] at held
      obtain ⟨data,len,seq⟩ := held
      exact ⟨chunk.data,j,data,by rw [len,length_small fits]; exact inside,here,by rw [seq]⟩

theorem settled_advance {chunk : Chunk} (settled : Settled chunk) : Settled (advance s tcp chunk) :=
  settled.trans (Nat.le_max_left _ _)

theorem tcp_seq_after_eq_iff (a b : Word) : tcp_seq_after_eq a b = true ↔ (a - b).toNat < 2 ^ 31 := by
  rw [tcp_seq_after_eq,decide_eq_true_eq,BitVec.toInt_pos_iff]
  omega

/-- An acknowledgement that clears the buffer acknowledges all of its bytes. -/
theorem acknowledges_whole {seq : Word} {n : Nat} (small : n ≤ MAX_SEND)
    (ack : tcp.flags.ack = true) (after_ : tcp_seq_after_eq tcp.ack_number seq = true)
    (sent : tcp_seq_after_eq tcp.ack_number (s.sequence_number + 1) = false)
    (whole : tcp_seq_after_eq tcp.ack_number (seq + BitVec.ofNat 32 n) = true) : acknowledges s tcp seq n = n := by
  rw [acknowledges,ack,after_,sent]
  apply Nat.min_eq_left
  -- from `seq` the acknowledgement lies less than half the numbers ahead, and not short of `n`
  rw [tcp_seq_after_eq_iff] at after_ whole
  simp only [MAX_SEND,tcp_header_size,tcp_pseudo_header_size] at small
  have split : tcp.ack_number - (seq + BitVec.ofNat 32 n) = (tcp.ack_number - seq) - BitVec.ofNat 32 n := by
    bv_omega
  rw [split] at whole
  generalize tcp.ack_number - seq = d at *
  bv_omega

theorem recv_ack_holding (holding : Holding s chunks) : Holding (recv_ack s tcp) (chunks.map (advance s tcp)) := by
  rcases holding with ⟨empty,settled⟩ | ⟨before,last,rfl,settled,held,some_,fits⟩
  · left
    refine ⟨?_,?_⟩
    · rw [recv_ack,if_neg (by simp [empty])]
      exact empty
    · simp only [List.mem_map,forall_exists_index,and_imp,forall_apply_eq_imp_iff₂]
      exact fun chunk member => settled_advance (settled chunk member)
  · have settled' : ∀ chunk ∈ before.map (advance s tcp), Settled chunk := by
      simp only [List.mem_map,forall_exists_index,and_imp,forall_apply_eq_imp_iff₂]
      exact fun chunk member => settled_advance (settled chunk member)
    by_cases same : buffer (recv_ack s tcp) = buffer s
    · right
      exact ⟨before.map (advance s tcp),advance s tcp last,by simp,settled',same.trans held,some_,fits⟩
    · left
      simp only [buffer,Prod.mk.injEq] at held
      obtain ⟨data,len,seq⟩ := held
      simp only [recv_ack] at same ⊢
      split_ifs at same ⊢ with acks refused whole
      all_goals first | exact absurd rfl same | skip
      refine ⟨rfl,?_⟩
      simp only [Bool.and_eq_true,Bool.or_eq_true,Bool.not_eq_true',not_or,Bool.not_eq_false,Bool.not_eq_true] at acks refused
      rw [seq,len] at whole
      rw [seq] at refused
      have all := acknowledges_whole fits acks.1 refused.1 refused.2 whole
      simp only [List.map_append,List.map_cons,List.map_nil,List.mem_append,List.mem_singleton]
      rintro chunk (member | rfl)
      · exact settled' chunk member
      · simp [Settled,advance,all]

theorem holding_buffer (holding : Holding s chunks) (same : buffer t = buffer s) : Holding t chunks := by
  rcases holding with ⟨empty,settled⟩ | ⟨before,last,whole,settled,held,rest⟩
  · have len : t.tx_unacked_len = s.tx_unacked_len := congrArg (fun b => b.2.1) same
    exact .inl ⟨len.trans empty,settled⟩
  · exact .inr ⟨before,last,whole,settled,same.trans held,rest⟩

/-- A closed socket stays closed. -/
theorem drifts_closed {a b : State} (drifts : Drifts a b) (open_ : b ≠ .CLOSED) : a ≠ .CLOSED := by
  cases drifts <;> simp_all

theorem moves_closed {after : State} (moves : Moves s tcp after) (open_ : after ≠ .CLOSED) : s.state ≠ .CLOSED := by
  intro shut
  have none : verdict s tcp = .other := by rw [verdict,if_pos (.inr shut)]
  rw [Moves,none,shut] at moves
  exact drifts_closed moves open_ rfl

/-- A step that leaves the buffer alone. -/
theorem kept_still (kept : Kept x)
    (drifts : Drifts x.1.socket.state c.socket.state) (same : c.socket.state ≠ .CLOSED → buffer c.socket = buffer x.1.socket) :
    Kept (c,x.2) :=
  fun open_ => holding_buffer (kept (drifts_closed drifts open_)) (same open_)

theorem kept_send {env : Env} (kept : Kept x) (some_ : data ≠ []) (fits : data.length ≤ MAX_SEND)
    (empty : x.1.socket.tx_unacked_len = 0 ∨ x.1.socket.state = .CLOSED)
    (same : c.socket = (tcp_socket_send env x.1.socket data data.length).1) :
    Kept (c,x.2 ++ [⟨x.1.socket.sequence_number,data,0⟩]) := by
  intro open_
  have state : c.socket.state = x.1.socket.state := by
    rw [same]
    exact (tcp_socket_send_drifts ..).2
  rw [state] at open_
  have empty := empty.resolve_right open_
  have positive := List.length_pos_of_ne_nil some_
  right
  refine ⟨x.2,_,rfl,?_,?_,positive,fits⟩
  · rcases kept open_ with ⟨-,settled⟩ | ⟨before,last,-,-,held,positive',fits'⟩
    · exact settled
    · -- the buffer would hold the last chunk
      simp only [buffer,Prod.mk.injEq] at held
      have len := length_small fits'
      rw [← held.2.1,empty] at len
      simp at len
      omega
  · rw [same,tcp_socket_send,tcp_socket_send_internal]
    simp [buffer,PSH_ACK,tcp_tx_track_unacked,some_]

theorem patient_keeps {call : Call} (kept : Kept x) (possible : Possible x.1 call)
    (patient : Patient x call) : Kept ((perform x.1 call).1,watch x.1 call (perform x.1 call).2 x.2) := by
  have still : Kept (x.1,x.2) := kept
  cases call with
  | segment env bytes =>
    cases bound : x.1.bound with
    | false =>
      simp only [watch,arriving,taken,perform,bound,Bool.false_eq_true,↓reduceIte]
      exact still
    | true =>
      cases read : read_header bytes with
      | none =>
        simp only [watch,arriving,taken,perform,bound,read,↓reduceIte]
        exact still
      | some tcp =>
        simp only [watch,arriving,perform,bound,read,↓reduceIte]
        intro open_
        have before := moves_closed (tcp_ipv4_recv_spec env x.1.socket tcp).2.2 open_
        exact holding_buffer (recv_ack_holding (kept before)) (tcp_ipv4_recv_buffer open_)
  | send env data size =>
    obtain ⟨positive,fits,empty⟩ := patient
    have length : size = data.length := by
      have exactly := possible.2.1
      omega
    subst length
    have whole : data.take (data.length : Int).toNat = data := by simp
    simp only [watch,arriving,taken,perform,whole]
    split
    · rename_i none
      refine kept_still kept (by rw [(tcp_socket_send_drifts ..).2]; exact .stay _) (fun _ => ?_)
      rw [tcp_socket_send,tcp_socket_send_internal]
      simp [buffer,tcp_tx_track_unacked,none]
    · rename_i some_
      refine kept_send kept some_ (by exact_mod_cast fits) (empty ?_) rfl
      have := List.length_pos_of_ne_nil some_
      omega
  | poll env =>
    simp only [watch,arriving,taken,perform,↓reduceIte]
    split
    · have polls := tcp_poll_polls env x.1.socket
      have drifts := (tcp_poll_drifts env x.1.socket).2
      revert polls drifts
      generalize tcp_poll env x.1.socket = r
      intro polls drifts
      cases polls with
      | wait last => exact kept_still kept drifts (fun _ => rfl)
      | giveUp => exact fun open_ => absurd rfl open_
      | resendSyn =>
        refine kept_still kept drifts (fun _ => ?_)
        rw [send_control_fst]
        rfl
      | resend asked =>
        refine kept_still kept drifts (fun _ => ?_)
        rw [tcp_socket_resend_unacked]
        split
        · rfl
        · split <;> rfl
    · exact still
  | disconnect env =>
    cases closing : x.1.closing with
    | STATE_INIT =>
      simp only [watch,arriving,taken,perform,closing,↓reduceIte]
      refine kept_still kept (tcp_socket_disconnect_drifts env x.1.socket).2 (fun _ => ?_)
      rw [tcp_socket_disconnect]
      split
      · simp only [send_control_fst]
        rfl
      · rfl
    | STATE_WAIT =>
      simp only [watch,arriving,taken,perform,closing,↓reduceIte]
      split
      · rename_i shut
        exact fun open_ => absurd shut open_
      · exact still
    | STATE_DONE =>
      simp only [watch,arriving,taken,perform,closing,↓reduceIte]
      exact still

theorem patient_kept (reached : Reached (guarded reliable_system Patient) x) : Kept x := by
  refine guarded_invariant ?_ ?_ reached
  · rintro ⟨c,chunks⟩ ⟨events,⟨env,remote_ip,local_ip,remote_port,local_port,route,made,-,-⟩,none⟩ -
    have fresh : chunks = [] := none
    subst fresh
    left
    have len := congrArg (fun r => r.1.tx_unacked_len) made
    rw [tcp_connect,send_control_fst] at len
    exact ⟨len.symm,by simp⟩
  · rintro x call y kept ⟨possible,rfl⟩ patient
    exact patient_keeps kept possible patient

/-- Along the runs of patient sends, with any segments, losses, polls and closing, no
    accepted byte is lost. -/
theorem bytes_kept {x : Connection × List Chunk} (reached : Reached (guarded reliable_system Patient) x) : Reliable x :=
  kept_reliable (patient_kept reached)

/-- The connection after the handshake and one send. -/
def after (x : Connection × List Chunk) (call : Call) : Connection × List Chunk :=
  ((perform x.1 call).1,watch x.1 call (perform x.1 call).2 x.2)

def sent_once : Connection × List Chunk := after (after (fresh_connection,[]) (.segment idle syn_ack)) (.send idle [0x41] 1)

theorem sent_once_reached : Reached (guarded reliable_system Patient) sent_once :=
  ⟨(fresh_connection,[]),[.segment idle syn_ack,.send idle [0x41] 1],⟨_,fresh_connected,rfl⟩,
    .step ⟨⟨⟨by decide,by decide⟩,rfl⟩,trivial⟩
      (.step ⟨⟨⟨by decide,by decide,by decide⟩,rfl⟩,by decide,by decide,fun _ => .inl (by decide)⟩ (.done _))⟩

theorem bytes_kept_sent : Reliable sent_once := bytes_kept sent_once_reached

/-- A second send before the first is acknowledged takes the buffer away from it. -/
theorem second_send_forgets : ¬ ∀ x, Reached reliable_system x → Reliable x := by
  intro always
  have possible : Possible sent_once.1 (.send idle [0x42] 1) := ⟨by decide,by decide,by decide⟩
  obtain ⟨start,calls,begins,run⟩ := sent_once_reached
  have reliable := always (after sent_once (.send idle [0x42] 1))
    ⟨start,calls ++ [.send idle [0x42] 1],begins,
      run_snoc (guarded_run run) ⟨possible,rfl⟩⟩
  have first := reliable (by decide) ⟨1,[0x41],0⟩ (List.mem_cons_self) 0 0x41 rfl
  rcases first with acked | ⟨data,i,stored,-,byte,-⟩
  · exact absurd acked (by decide)
  · cases stored
    rcases i with _ | i <;> simp at byte

end MicroOS.TcpReliability

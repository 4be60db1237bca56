import MicroOS.Checksum
import MicroOS.VlanCards

/-!
`tcp_socket_send`, `tcp_socket_resend_unacked` and `udp_socket_send` add the sizes of their headers to the size of the
caller in 16 bits, allocate a packet of that size and copy the data behind the headers. The main theorem is
`sending_correct`: for which sizes they stay inside the packet and write the right lengths.
-/

namespace MicroOS.Sending
open Memory (Bytes slice storeBytes storeBytes_outside)
open Tcp (Word Env Flags Socket tcp_header_size tcp_pseudo_header_size tcp_tx_track_unacked PSH_ACK)
open NetReceive (BSWAP16 BSWAP32 UdpSocket)
open VlanCards (le16)

/-- Bytes written at an offset of the packet. -/
structure Write where
  offset : Nat
  bytes : List UInt8

/-- What a call does with its packet: the size it asks `kmalloc` for, its writes in order, how many bytes of data are
    among them, and where the part begins that it hands to `ipv4_send`, with its size. -/
structure Packet where
  allocated : Nat
  writes : List Write
  copied : Nat
  offset : Nat
  size : Nat

/-- The packet after some writes, from what `kmalloc` left in it. -/
def put (m : Bytes) (writes : List Write) : Bytes := writes.foldl (fun m w => storeBytes m w.offset w.bytes) m

def le32 (v : Word) : List UInt8 := le16 (v.setWidth 16) ++ le16 ((v >>> 16).setWidth 16)

/-- `memcpy` takes its size as an `unsigned int`. -/
def data_bytes (data : Nat → UInt8) (size : Word) : List UInt8 := (List.range size.toNat).map data

def flag_byte (f : Flags) : UInt8 :=
  UInt8.ofNat (f.fin.toNat + 2 * f.syn.toNat + 4 * f.rst.toNat + 8 * f.psh.toNat + 16 * f.ack.toNat + 32 * f.urg.toNat +
    64 * f.ece.toNat + 128 * f.cwr.toNat)

/-- The length of the segment and of the packet, both `uint16_t`. -/
def total_length (size : Word) : BitVec 16 := (size + BitVec.ofNat 32 tcp_header_size).setWidth 16
def length_phdr (size : Word) : BitVec 16 := total_length size + BitVec.ofNat 16 tcp_pseudo_header_size

/-- The stores of both senders, the checksum as 0; the byte at 24 has `header_size_32` and `reserved`. -/
def stores (s : Socket) (sequence_number : Word) (flags : Flags) (options : Word) (bytes : List UInt8) (size : Word) : List Write :=
  [⟨24,[0x60]⟩,⟨12,le16 s.local_port⟩,⟨14,le16 s.remote_port⟩,⟨20,le32 (BSWAP32 s.ack_number)⟩,
    ⟨16,le32 (BSWAP32 sequence_number)⟩,⟨25,[flag_byte flags]⟩,⟨26,le16 0xFFFF⟩,⟨30,le16 0⟩,⟨32,le32 options⟩,⟨36,bytes⟩,
    ⟨0,le32 s.local_ip⟩,⟨4,le32 s.remote_ip⟩,⟨8,le16 0x0600⟩,⟨10,le16 (BSWAP16 (total_length size))⟩,⟨28,le16 0⟩]

/-- The packet of both senders; the pseudo header in front of the segment is not sent. -/
def segment (env : Env) (s : Socket) (sequence_number : Word) (flags : Flags) (options : Word) (bytes : List UInt8) (size : Word) :
    Packet :=
  let writes := stores s sequence_number flags options bytes size
  let checksum := Checksum.ipv4_checksum (slice (put env.fresh writes) 0 (length_phdr size).toNat)
  ⟨(length_phdr size).toNat,writes ++ [⟨28,le16 (BitVec.ofNat 16 checksum)⟩],bytes.length,12,(total_length size).toNat⟩

/-- `data` is `none` for NULL, and `size` an `int`; only the sizes in the header are computed from a negative one. -/
def tcp_socket_send_internal (env : Env) (s : Socket) (data : Option (Nat → UInt8)) (size : Word) (flags : Flags) : Socket × Packet :=
  let seq_consume : Word := if flags.syn || flags.fin then 1 else 0
  let bytes := if 0 < size.toInt then (data.map fun d => data_bytes d size).getD [] else []
  let t := tcp_tx_track_unacked env s bytes flags s.sequence_number
  ({ t with sequence_number := s.sequence_number + BitVec.ofNat 32 bytes.length + seq_consume },
    segment env s s.sequence_number flags (if flags.syn then 0xB4050402 else 0) bytes size)

def tcp_socket_send (env : Env) (s : Socket) (data : Nat → UInt8) (size : Word) : Socket × Packet :=
  tcp_socket_send_internal env s (some data) size PSH_ACK

def tcp_socket_resend_unacked (env : Env) (s : Socket) : Socket × Option Packet :=
  match s.tx_unacked_data with
  | none => (s,none)
  | some data =>
    if s.tx_unacked_len = 0 then (s,none)
    else
      ({ s with tx_last_send_ms := env.now, tx_retries := s.tx_retries + 1 },
        some (segment env s s.tx_unacked_seq s.tx_unacked_flags 0 (data_bytes (fun i => data.getD i 0) s.tx_unacked_len) s.tx_unacked_len))

def sizeof_udp_header : Nat := 8

def total_size (size : Word) : BitVec 16 := (size + BitVec.ofNat 32 sizeof_udp_header).setWidth 16

def udp_socket_send (s : UdpSocket) (data : Nat → UInt8) (size : Word) : Packet :=
  let bytes := data_bytes data size
  ⟨(total_size size).toNat,
    [⟨0,le16 s.local_port⟩,⟨2,le16 s.remote_port⟩,⟨4,le16 (BSWAP16 (total_size size))⟩,⟨8,bytes⟩,⟨6,le16 0⟩],
    bytes.length,0,(total_size size).toNat⟩

/-- What a `socket_t` stands for. -/
inductive Layer where
  | udp (socket : UdpSocket)
  | tcp (socket : Socket)

def socket_send (env : Env) : Layer → (Nat → UInt8) → Word → Layer × Packet
  | .udp socket, data, size => (.udp socket,udp_socket_send socket data size)
  | .tcp socket, data, size =>
    let (socket,packet) := tcp_socket_send env socket data size
    (.tcp socket,packet)

/-- `socket` is what `socket_manager_find` returns for `ebx`; both checks call `abortf`, which does not return. -/
def sys_sock_send (env : Env) (socket : Option Layer) (memory : Nat → UInt8) (ecx edx : Word) : Option (Layer × Packet) :=
  match socket with
  | none => none
  | some socket => if ecx = 0 then none else some (socket_send env socket (fun i => memory (ecx.toNat + i)) edx)

/-- A length in network order. -/
def length_field (m : Bytes) (field : Nat) : Nat := 256 * (m field).toNat + (m (field + 1)).toNat

/-- A call for `size` bytes behind a header of `header` bytes, which has its length in two bytes of the packet at `field`:
    it writes only inside its packet, the lengths are those of the data, and it does nothing if they do not fit. -/
structure Correct (fresh : Bytes) (header field : Nat) (size : Word) (call : Option Packet) : Prop where
  inside : ∀ p ∈ call, ∀ w ∈ p.writes, w.offset + w.bytes.length ≤ p.allocated
  whole : ∀ p ∈ call, p.copied = size.toNat
  lengths : ∀ p ∈ call, p.size = header + p.copied ∧ length_field (put fresh p.writes) field = header + p.copied
  rejected : 2 ^ 16 ≤ header + size.toNat → call = none

/-- The size of the header, where its length is, and the largest size that is sent well. -/
def header_size : Layer → Nat
  | .udp _ => sizeof_udp_header
  | .tcp _ => tcp_header_size

def length_at : Layer → Nat
  | .udp _ => 4
  | .tcp _ => 10

def max_size : Layer → Nat
  | .udp _ => 2 ^ 16 - 1 - sizeof_udp_header
  | .tcp _ => 2 ^ 16 - 1 - tcp_header_size - tcp_pseudo_header_size

section
variable {env : Env} {s : Socket} {size : Word} {bytes : List UInt8} {m : Bytes} {writes : List Write}

theorem length_le32 (v : Word) : (le32 v).length = 4 := rfl

theorem length_data (data : Nat → UInt8) (size : Word) : (data_bytes data size).length = size.toNat := by
  simp [data_bytes]

/-- A byte that none of the writes covers. -/
theorem put_outside {x : Nat} (outside : ∀ w ∈ writes, x < w.offset ∨ w.offset + w.bytes.length ≤ x) : put m writes x = m x := by
  induction writes generalizing m with
  | nil => rfl
  | cons w rest ih =>
    rw [put,List.foldl_cons,← put,ih fun v member => outside v (List.mem_cons_of_mem _ member)]
    exact storeBytes_outside _ _ _ (outside w List.mem_cons_self)

theorem put_append (m : Bytes) (first second : List Write) : put m (first ++ second) = put (put m first) second :=
  List.foldl_append

theorem swapped_parts (n : BitVec 16) : (BSWAP16 n).toNat % 2 ^ 8 = n.toNat / 2 ^ 8 ∧ (BSWAP16 n).toNat / 2 ^ 8 = n.toNat % 2 ^ 8 := by
  have bound := n.isLt
  have small : n.toNat % 2 ^ 8 * 2 ^ 8 + n.toNat / 2 ^ 8 < 2 ^ 16 := by omega
  rw [BSWAP16,BitVec.toNat_ofNat,Nat.mod_eq_of_lt small]
  omega

/-- A length that is written in network order, and not written over. -/
theorem length_written {before after : List Write} {field : Nat} (n : BitVec 16)
    (apart : ∀ w ∈ after, field + 2 ≤ w.offset ∨ w.offset + w.bytes.length ≤ field) :
    length_field (put m (before ++ ⟨field,le16 (BSWAP16 n)⟩ :: after)) field = n.toNat := by
  have bound := n.isLt
  rw [put_append,put,List.foldl_cons,← put]
  have first := put_outside (m := storeBytes (put m before) field (le16 (BSWAP16 n))) (x := field)
    fun w member => (apart w member).imp_left fun less => by omega
  have second := put_outside (m := storeBytes (put m before) field (le16 (BSWAP16 n))) (x := field + 1)
    fun w member => (apart w member).imp (fun less => by omega) fun less => by omega
  have high : (storeBytes (put m before) field (le16 (BSWAP16 n)) field).toNat = n.toNat / 2 ^ 8 := by
    rw [← (swapped_parts n).1]
    simp [storeBytes,le16]
  have low : (storeBytes (put m before) field (le16 (BSWAP16 n)) (field + 1)).toNat = n.toNat % 2 ^ 8 := by
    rw [← (swapped_parts n).2]
    have byte : (BSWAP16 n).toNat / 2 ^ 8 < 2 ^ 8 := by
      have swapped := (BSWAP16 n).isLt
      omega
    have kept := Nat.mod_eq_of_lt byte
    simpa [storeBytes,le16] using kept
  rw [length_field,first,second,high,low]
  omega

theorem total_length_eq (size : Word) : (total_length size).toNat = (size.toNat + 24) % 2 ^ 16 := by
  have bound := size.isLt
  rw [total_length,BitVec.toNat_setWidth,BitVec.toNat_add,tcp_header_size,BitVec.toNat_ofNat]
  omega

theorem length_phdr_eq (size : Word) : (length_phdr size).toNat = (size.toNat + 36) % 2 ^ 16 := by
  rw [length_phdr,BitVec.toNat_add,total_length_eq,tcp_pseudo_header_size,BitVec.toNat_ofNat]
  omega

theorem total_size_eq (size : Word) : (total_size size).toNat = (size.toNat + 8) % 2 ^ 16 := by
  have bound := size.isLt
  rw [total_size,BitVec.toNat_setWidth,BitVec.toNat_add,sizeof_udp_header,BitVec.toNat_ofNat]
  omega

theorem segment_length (sequence_number : Word) (flags : Flags) (options : Word) :
    length_field (put m (segment env s sequence_number flags options bytes size).writes) 10 = (total_length size).toNat := by
  have split : (segment env s sequence_number flags options bytes size).writes =
      (stores s sequence_number flags options bytes size).take 13 ++ ⟨10,le16 (BSWAP16 (total_length size))⟩ ::
        [⟨28,le16 0⟩,⟨28,le16 (BitVec.ofNat 16 (Checksum.ipv4_checksum
          (slice (put env.fresh (stores s sequence_number flags options bytes size)) 0 (length_phdr size).toNat)))⟩] := rfl
  rw [split]
  apply length_written
  simp only [List.forall_mem_cons]
  exact ⟨.inl (by decide),.inl (by decide),by simp⟩

/-- The writes of a segment with its data reach up to 36 bytes behind the data. -/
theorem segment_inside (sequence_number : Word) (flags : Flags) (options : Word) :
    (∀ w ∈ (segment env s sequence_number flags options bytes size).writes, w.offset + w.bytes.length ≤ (length_phdr size).toNat) ↔
      36 + bytes.length ≤ (length_phdr size).toNat := by
  constructor
  · intro inside
    exact inside ⟨36,bytes⟩ (by simp [segment,stores])
  · intro fits
    simp only [segment,stores,List.cons_append,List.nil_append,List.forall_mem_cons,VlanCards.length_le16,length_le32,List.length_singleton]
    refine ⟨?_,?_,?_,?_,?_,?_,?_,?_,?_,fits,?_,?_,?_,?_,?_,?_,by simp⟩ <;> omega

theorem segment_correct (sequence_number : Word) (flags : Flags) (options : Word) (data : 0 ≤ size.toInt → bytes.length = size.toNat) :
    Correct env.fresh tcp_header_size 10 size (some (segment env s sequence_number flags options bytes size)) ↔ size.toNat ≤ 65499 := by
  have phdr := length_phdr_eq size
  have total := total_length_eq size
  have int := BitVec.toInt_eq_toNat_cond size
  have header : tcp_header_size = 24 := rfl
  constructor
  · intro correct
    by_contra large
    have few : tcp_header_size + size.toNat < 2 ^ 16 := by
      by_contra many
      cases correct.rejected (Nat.le_of_not_lt many)
    have inside := (segment_inside sequence_number flags options).1 (correct.inside _ rfl)
    have whole := data (by rw [int,if_pos (by omega)]; omega)
    omega
  · intro small
    have whole := data (by rw [int,if_pos (by omega)]; omega)
    constructor
    · rintro p ⟨⟩
      exact (segment_inside sequence_number flags options).2 (by omega)
    · rintro p ⟨⟩
      exact whole
    · rintro p ⟨⟩
      rw [segment_length]
      simp only [segment]
      omega
    · intro many
      omega

theorem tcp_send_correct (env : Env) (s : Socket) (data : Nat → UInt8) (size : Word) :
    Correct env.fresh tcp_header_size 10 size (some (tcp_socket_send env s data size).2) ↔ size.toNat ≤ 65499 := by
  apply segment_correct
  intro positive
  split
  · exact length_data data size
  · have int := BitVec.toInt_eq_toNat_cond size
    rename_i zero
    have none_left : size.toNat = 0 := by
      rw [int] at zero positive
      split at zero <;> omega
    exact none_left.symm

theorem resend_correct (env : Env) (s : Socket) :
    Correct env.fresh tcp_header_size 10 s.tx_unacked_len (tcp_socket_resend_unacked env s).2 ↔
      s.tx_unacked_data = none ∨ s.tx_unacked_len.toNat ≤ 65499 := by
  rw [tcp_socket_resend_unacked]
  cases unacked : s.tx_unacked_data with
  | none => simpa using ⟨by simp,by simp,by simp,by simp⟩
  | some data =>
    by_cases empty : s.tx_unacked_len = 0
    · simp only [empty,if_true]
      exact iff_of_true ⟨by simp,by simp,by simp,by simp⟩ (.inr (by decide))
    · simp only [empty,if_false,reduceCtorEq,false_or]
      apply segment_correct
      intro positive
      exact length_data _ _

theorem udp_inside (s : UdpSocket) (data : Nat → UInt8) (size : Word) :
    (∀ w ∈ (udp_socket_send s data size).writes, w.offset + w.bytes.length ≤ (total_size size).toNat) ↔
      8 + size.toNat ≤ (total_size size).toNat := by
  constructor
  · intro inside
    have copy := inside ⟨8,data_bytes data size⟩ (by simp [udp_socket_send])
    rwa [length_data] at copy
  · intro fits
    simp only [udp_socket_send,List.forall_mem_cons,VlanCards.length_le16,length_data]
    refine ⟨?_,?_,?_,fits,?_,by simp⟩ <;> omega

theorem udp_send_correct (fresh : Bytes) (s : UdpSocket) (data : Nat → UInt8) (size : Word) :
    Correct fresh sizeof_udp_header 4 size (some (udp_socket_send s data size)) ↔ size.toNat ≤ 65527 := by
  have total := total_size_eq size
  have header : sizeof_udp_header = 8 := rfl
  constructor
  · intro correct
    by_contra large
    cases correct.rejected (by omega)
  · intro small
    constructor
    · rintro p ⟨⟩
      exact (udp_inside s data size).2 (by omega)
    · rintro p ⟨⟩
      exact length_data data size
    · rintro p ⟨⟩
      have field : length_field (put fresh (udp_socket_send s data size).writes) 4 = (total_size size).toNat := by
        have split : (udp_socket_send s data size).writes = [⟨0,le16 s.local_port⟩,⟨2,le16 s.remote_port⟩] ++
          ⟨4,le16 (BSWAP16 (total_size size))⟩ :: [⟨8,data_bytes data size⟩,⟨6,le16 0⟩] := rfl
        rw [split]
        apply length_written
        simp only [List.forall_mem_cons]
        exact ⟨.inl (by decide),.inl (by decide),by simp⟩
      rw [field]
      simp only [udp_socket_send,length_data]
      omega
    · intro many
      omega

end

/-- A system call sends its data well exactly when it aborts before it sends or the size leaves room for the headers in
    16 bits, and so does a retransmission. -/
theorem sending_correct (env : Env) (layer : Layer) (memory : Nat → UInt8) (ecx edx : Word) (s : Socket) :
    (Correct env.fresh (header_size layer) (length_at layer) edx ((sys_sock_send env (some layer) memory ecx edx).map Prod.snd) ↔
        ecx = 0 ∨ edx.toNat ≤ max_size layer) ∧
      (Correct env.fresh tcp_header_size 10 s.tx_unacked_len (tcp_socket_resend_unacked env s).2 ↔
        s.tx_unacked_data = none ∨ s.tx_unacked_len.toNat ≤ 65499) := by
  refine ⟨?_,resend_correct env s⟩
  rw [sys_sock_send]
  by_cases null : ecx = 0
  · simp only [null,if_true]
    exact iff_of_true ⟨by simp,by simp,by simp,by simp⟩ (.inl trivial)
  · simp only [null,if_false,false_or,Option.map_some]
    cases layer with
    | udp socket => exact udp_send_correct _ _ _ _
    | tcp socket => exact tcp_send_correct _ _ _ _

/-- With 65500 bytes the packet of a TCP socket has the size 0. -/
theorem frame_cut : ¬ ∀ (env : Env) (s : Socket) (data : Nat → UInt8) (size : Word),
    Correct env.fresh tcp_header_size 10 size (some (tcp_socket_send env s data size).2) := by
  intro claim
  let s : Socket := ⟨0,0,0,0,0,0,0,.ESTABLISHED,none,0,0,{},0,0,0⟩
  have small := (tcp_send_correct ⟨0,fun _ => 0⟩ s (fun _ => 0) 65500).1 (claim _ _ _ _)
  exact absurd small (by decide)

end MicroOS.Sending

import MicroOS.NetReceive

/-!
When the receive path stays inside the frame. ARP, ICMP and UDP do whenever the
payload they are handed is part of the frame; TCP reads the size of its header first;
Ethernet and IPv4 take header sizes off unsigned lengths that may be smaller.
-/
namespace MicroOS.NetBounds
open NetReceive
open Tcp (Word Env)

/-- An access to the first `len` bytes only. -/
def Inside (len : Word) : Access → Prop
  | .read offset size => offset.toNat + size ≤ len.toNat
  | .write offset size => offset.toNat + size ≤ len.toNat
  | .hand offset size => offset.toNat + size.toNat ≤ len.toNat

def Within (len : Word) (log : List Access) : Prop := ∀ a ∈ log, Inside len a

@[simp] theorem within_nil (len : Word) : Within len [] := by simp [Within]
@[simp] theorem within_cons (len : Word) (a : Access) (log : List Access) :
    Within len (a :: log) ↔ Inside len a ∧ Within len log := by simp [Within]
@[simp] theorem within_append (len : Word) (xs ys : List Access) :
    Within len (xs ++ ys) ↔ Within len xs ∧ Within len ys := by
  simp only [Within,List.mem_append]
  exact ⟨fun h => ⟨fun a x => h a (.inl x),fun a y => h a (.inr y)⟩,fun h a m => m.elim (h.1 a) (h.2 a)⟩

theorem within_checks {len : Word} {chain : List (Access × Bool)} (all : ∀ c ∈ chain, Inside len c.1) :
    Within len (checks chain).2 := by
  induction chain with
  | nil => simp [checks]
  | cons c rest ih =>
    obtain ⟨a,ok⟩ := c
    have here : Inside len a := all _ List.mem_cons_self
    have later := ih (fun c member => all c (List.mem_cons_of_mem _ member))
    cases ok <;> simp [checks,here,later]

section
variable {len payload size : Word}

theorem arp_within (st : Stack) (m : Memory) (fits : payload.toNat + size.toNat ≤ len.toNat) :
    Within len (arp_etherframe_recv st m payload size).2 := by
  rw [arp_etherframe_recv]
  split
  · exact within_nil len
  rename_i whole
  simp only [sizeof_arp_message] at whole
  have log := @within_checks len [
    (.read payload 2,load16 m payload == 0x0100),
    (.read (payload + 2) 2,load16 m (payload + 2) == 0x0008),
    (.read (payload + 4) 1,load8 m (payload + 4) == 6),
    (.read (payload + 5) 1,load8 m (payload + 5) == 4),
    (.read (payload + 24) 4,load32 m (payload + 24) == st.ip)] (by
      simp only [List.forall_mem_cons,Inside]
      refine ⟨?_,?_,?_,?_,?_,by simp⟩ <;> bv_omega)
  dsimp only
  split_ifs
  · simp only [within_append,within_cons,Inside,within_nil]
    refine ⟨log,?_,?_,?_,?_,?_,?_,?_,?_,?_,trivial⟩ <;> bv_omega
  · simp only [within_append,within_cons,Inside,within_nil]
    refine ⟨log,?_,?_,?_,trivial⟩ <;> bv_omega
  · simp only [within_append,within_cons,Inside,within_nil]
    refine ⟨log,?_,trivial⟩
    bv_omega
  · exact log

theorem icmp_within (st : Stack) (m : Memory) (srcIP : Word) (fits : payload.toNat + size.toNat ≤ len.toNat) :
    Within len (icmp_ipv4_recv st m srcIP payload size).2 := by
  rw [icmp_ipv4_recv]
  split
  · exact within_nil len
  rename_i whole
  simp only [sizeof_icmp_message] at whole
  split <;> simp only [within_cons,Inside,within_nil,and_true]
  · bv_omega
  · constructor <;> bv_omega
  · constructor <;> bv_omega
  · bv_omega

theorem udp_find_within {srcIP dstIP : Word} {src_port dst_port : BitVec 16} {binds : List (Option UdpSocket)}
    {listener : Option UdpSocket} (fits : payload.toNat + 4 ≤ len.toNat) :
    Within len (udp_find srcIP dstIP src_port dst_port payload binds listener).2.2 := by
  have ports (b : Bool) : Within len (.read (payload + 2) 2 :: if b then [Access.read payload 2] else []) := by
    cases b
    · simp only [Bool.false_eq_true,↓reduceIte,within_cons,Inside,within_nil,and_true]
      bv_omega
    · simp only [↓reduceIte,within_cons,Inside,within_nil,and_true]
      constructor <;> bv_omega
  fun_induction udp_find srcIP dstIP src_port dst_port payload binds listener with
  | case1 => exact within_nil len
  | case2 _ _ ih => exact ih
  | case3 => exact ports _
  | case4 _ _ _ _ _ _ _ _ _ found ih =>
    rw [found] at ih
    exact (within_append ..).mpr ⟨ports _,ih⟩

theorem udp_within (st : Stack) (m : Memory) (srcIP dstIP : Word) (fits : payload.toNat + size.toNat ≤ len.toNat) :
    Within len (udp_ipv4_recv st m srcIP dstIP payload size).2 := by
  rw [udp_ipv4_recv]
  split
  · exact within_nil len
  rename_i whole
  simp only [sizeof_udp_header] at whole ⊢
  have ports := @udp_find_within len payload srcIP dstIP (load16 m payload) (load16 m (payload + 2)) st.udp_binds none
    (by bv_omega)
  have given : Inside len (.hand (payload + 8) (size - 8)) := by
    simp only [Inside]
    bv_omega
  have port : Inside len (.read payload 2) := by
    simp only [Inside]
    bv_omega
  split
  · split <;> simp only [within_append,within_cons,within_nil,ports,given,and_true]
  · simp only [within_append,within_cons,within_nil,ports,given,port,and_true]
  · exact ports

theorem tcp_given_within {header_bytes : Word} (events : List Tcp.Event)
    (inside : Inside len (.hand (payload + header_bytes) (size - header_bytes))) :
    Within len (tcp_given payload size header_bytes events) := by
  intro a member
  obtain ⟨event,-,given⟩ := List.mem_filterMap.mp member
  cases event <;> simp at given
  rw [← given]
  exact inside

/-- TCP stays inside once the byte with the size of its header does. -/
theorem tcp_within_iff (env : Env) (st : Stack) (m : Memory) (srcIP : Word)
    (fits : payload.toNat + size.toNat ≤ len.toNat) :
    Within len (NetReceive.tcp_ipv4_recv env st m srcIP payload size).2 ↔ Inside len (.read (payload + 12) 1) := by
  rw [NetReceive.tcp_ipv4_recv]
  dsimp only
  split
  · simp
  rename_i whole
  generalize BitVec.ofNat 32 (load8 m (payload + 12) / 2 ^ 4 * 4) = header_bytes at *
  have fields : Inside len (.read (payload + 2) 2) ∧ Inside len (.read payload 2) ∧ Inside len (.read (payload + 4) 4) ∧
      Inside len (.read (payload + 8) 4) ∧ Inside len (.read (payload + 13) 1) ∧
      Inside len (.hand (payload + header_bytes) (size - header_bytes)) := by
    simp only [Inside]
    refine ⟨?_,?_,?_,?_,?_,?_⟩ <;> bv_omega
  obtain ⟨dst,src,seq,ack,flags,given⟩ := fields
  split
  · split <;> simp only [within_cons,within_nil,dst,src,and_true]
  · split <;> simp only [within_append,within_cons,within_nil,dst,src,seq,ack,flags,tcp_given_within _ given,and_true]

theorem protocol_within_iff (env : Env) (p : Protocol) (st : Stack) (m : Memory) (srcIP dstIP : Word)
    (fits : payload.toNat + size.toNat ≤ len.toNat) :
    Within len (protocol_recv env p st m srcIP dstIP payload size).2 ↔ (p = .tcp → Inside len (.read (payload + 12) 1)) := by
  cases p with
  | icmp => simp [protocol_recv,icmp_within st m srcIP fits]
  | udp => simp [protocol_recv,udp_within st m srcIP dstIP fits]
  | tcp => simp [protocol_recv,tcp_within_iff env st m srcIP fits]

/-- The loop stays inside if what it hands on does, and for TCP its first read. -/
theorem ipv4_dispatch_within_iff (env : Env) (m : Memory) (given rest : Word) (handlers : List Protocol) (st : Stack)
    (fits : payload.toNat + 20 ≤ len.toNat) :
    Within len (ipv4_dispatch env m payload given rest handlers st).2 ↔
      ∀ p ∈ handlers, p.number = load8 m (payload + 9) →
        Inside len (.hand given rest) ∧ (p = .tcp → Inside len (.read (given + 12) 1)) := by
  have fields : Inside len (.read (payload + 9) 1) ∧ Inside len (.read (payload + 12) 4) ∧
      Inside len (.read (payload + 16) 4) := by
    simp only [Inside]
    refine ⟨?_,?_,?_⟩ <;> bv_omega
  induction handlers generalizing st with
  | nil => simp [ipv4_dispatch]
  | cons p handlers ih =>
    rw [ipv4_dispatch,List.forall_mem_cons]
    split
    · rename_i same
      dsimp only
      simp only [within_cons,List.cons_append,within_append,fields,true_and,ih,same,forall_const]
      constructor
      · rintro ⟨inside,log,more⟩
        exact ⟨⟨inside,(protocol_within_iff env p st m _ _ inside).mp log⟩,more⟩
      · rintro ⟨⟨inside,tcp⟩,more⟩
        exact ⟨inside,(protocol_within_iff env p st m _ _ inside).mpr tcp,more⟩
    · rename_i other
      simp only [within_cons,fields,true_and,ih,other,false_implies]

end

/-- Whether IPv4 hands a message on to a handler. -/
def forwarded (st : Stack) (m : Memory) (payload size : Word) : Prop :=
  sizeof_ipv4_message ≤ size ∧ load8 m payload / 2 ^ 4 = 4 ∧
    (load32 m (payload + 16) = st.ip ∨ load32 m (payload + 16) = 0xFFFFFFFF ∨ st.ip = 0) ∧
    load8 m (payload + 9) ∈ [0x01,0x11,0x06]

/-- The header is no longer than the message, and a TCP message has its header's
    size inside the frame. -/
def Measured (m : Memory) (len payload size : Word) : Prop :=
  ipv4_header_bytes m payload ≤ ipv4_length m payload size ∧
    (load8 m (payload + 9) = 0x06 → Inside len (.read (payload + ipv4_header_bytes m payload + 12) 1))

theorem ipv4_header_bytes_le (m : Memory) (payload : Word) : (ipv4_header_bytes m payload).toNat ≤ 60 := by
  rw [ipv4_header_bytes,BitVec.toNat_ofNat]
  omega

theorem ipv4_length_le (m : Memory) (payload size : Word) : ipv4_length m payload size ≤ size := by
  rw [ipv4_length]
  split <;> bv_omega

theorem ipv4_within_iff (env : Env) (st : Stack) (m : Memory) {len payload size : Word}
    (fits : payload.toNat + size.toNat ≤ len.toNat) (near : payload.toNat + 60 < 2 ^ 32) :
    Within len (ipv4_etherframe_recv env st m payload size).2 ↔
      (forwarded st m payload size → Measured m len payload size) := by
  rw [ipv4_etherframe_recv,forwarded]
  split
  · rename_i short
    have none : ¬ sizeof_ipv4_message ≤ size := by bv_omega
    simp [none]
  rename_i whole
  have room : sizeof_ipv4_message ≤ size := by bv_omega
  simp only [sizeof_ipv4_message] at whole room ⊢
  have fields : Inside len (.read payload 1) ∧ Inside len (.read (payload + 16) 4) ∧ Inside len (.read (payload + 2) 2) := by
    simp only [Inside]
    refine ⟨?_,?_,?_⟩ <;> bv_omega
  split
  · rename_i version
    simp only [within_cons,within_nil,fields,and_true,version,false_and,and_false,false_implies]
  rename_i version
  split
  · rename_i mine
    simp only [within_append,within_cons,within_nil,fields,true_and,room,not_not.mp version,mine]
    rw [ipv4_dispatch_within_iff env m _ _ _ st (by bv_omega)]
    -- handed on as a part of the frame exactly when the header is no longer than the message
    have part : Inside len (.hand (payload + ipv4_header_bytes m payload)
        (ipv4_length m payload size - ipv4_header_bytes m payload)) ↔
        ipv4_header_bytes m payload ≤ ipv4_length m payload size := by
      have small := ipv4_header_bytes_le m payload
      have below := ipv4_length_le m payload size
      simp only [Inside]
      generalize ipv4_header_bytes m payload = h at *
      generalize ipv4_length m payload size = l at *
      constructor
      · intro inside
        bv_omega
      · intro longer
        bv_omega
    simp only [List.mem_cons,List.not_mem_nil,or_false,forall_eq_or_imp,forall_eq,Protocol.number,part,Measured]
    constructor
    · rintro ⟨icmp,udp,tcp⟩ known
      rcases known with h | h | h
      · exact ⟨(icmp h.symm).1,fun other => absurd (h.symm.trans other) (by decide)⟩
      · exact ⟨(udp h.symm).1,fun other => absurd (h.symm.trans other) (by decide)⟩
      · exact ⟨(tcp h.symm).1,fun _ => (tcp h.symm).2 trivial⟩
    · intro measured
      refine ⟨fun h => ⟨?_,fun other => absurd other (by decide)⟩,fun h => ⟨?_,fun other => absurd other (by decide)⟩,
        fun h => ⟨?_,fun _ => ?_⟩⟩
      · exact (measured (.inl h.symm)).1
      · exact (measured (.inr (.inl h.symm))).1
      · exact (measured (.inr (.inr h.symm))).1
      · exact (measured (.inr (.inr h.symm))).2 h.symm
  · rename_i other
    simp only [within_cons,within_nil,fields,and_true,other,false_and,and_false,false_implies]

/-- The frame holds its header, and a message that IPv4 hands on is measured right. -/
def Roomy (st : Stack) (m : Memory) (len : Word) : Prop :=
  12 ≤ len ∧ (accepted st m = true → 14 ≤ len ∧ (load16 m 12 = EtherType.ipv4.ether_type_be →
    forwarded st m 14 (len - 14) → Measured m len 14 (len - 14)))

theorem ether_dispatch_within_iff (env : Env) (st : Stack) (m : Memory) (len : Word) :
    Within len (ether_dispatch env m len [.arp,.ipv4] st).2 ↔
      14 ≤ len ∧ (load16 m 12 = EtherType.ipv4.ether_type_be →
        forwarded st m 14 (len - 14) → Measured m len 14 (len - 14)) := by
  have typed : Inside len (.read 12 2) ↔ 14 ≤ len := by
    simp only [Inside]
    bv_omega
  have kinds : EtherType.arp.ether_type_be ≠ EtherType.ipv4.ether_type_be := by decide
  by_cases header : 14 ≤ len
  · have fits : (14 : Word).toNat + (len - 14).toNat ≤ len.toNat := by bv_omega
    have given : Inside len (.hand 14 (len - 14)) := fits
    have arp := @arp_within len 14 (len - 14) st m fits
    simp only [ether_dispatch,ether_recv,sizeof_ether_frame_header]
    by_cases isArp : EtherType.arp.ether_type_be = load16 m 12
    · have other : ¬ EtherType.ipv4.ether_type_be = load16 m 12 := fun e => kinds (isArp.trans e.symm)
      have other' : ¬ load16 m 12 = EtherType.ipv4.ether_type_be := fun e => other e.symm
      simp only [isArp,other,other',↓reduceIte,within_cons,within_append,List.cons_append,within_nil,typed,header,given,arp,
        false_implies,and_true]
    · by_cases isIp : EtherType.ipv4.ether_type_be = load16 m 12
      · simp only [isArp,isIp,↓reduceIte,within_cons,within_append,List.cons_append,within_nil,typed,header,given,
          true_and,and_true,forall_const]
        exact ipv4_within_iff env st m fits (by decide)
      · have other : ¬ load16 m 12 = EtherType.ipv4.ether_type_be := fun e => isIp e.symm
        simp only [isArp,isIp,other,↓reduceIte,within_cons,within_nil,typed,header,false_implies,and_true]
  · have first : (ether_dispatch env m len [.arp,.ipv4] st).2.head? = some (.read 12 2) := by
      simp only [ether_dispatch]
      split <;> rfl
    constructor
    · intro within
      exact absurd (typed.mp (within _ (List.mem_of_mem_head? first))) header
    · exact fun both => absurd both.1 header

/-- The receive path reads and hands on parts of the frame only exactly when the frame
    holds an Ethernet header and, where IPv4 hands its message on, the header of IPv4
    is no longer than the message and TCP finds its header's size inside the frame. -/
theorem frame_within (env : Env) (st : Stack) (m : Memory) (len : Word) :
    Within len (etherframe_nic_recv env st m len).2 ↔ Roomy st m len := by
  have macs : (Inside len (.read 6 6) ∧ Inside len (.read 0 6)) ↔ 12 ≤ len := by
    simp only [Inside]
    bv_omega
  rw [etherframe_nic_recv,Roomy,← macs]
  split
  · rename_i mine
    simp only [within_append,within_cons,within_nil,and_true,ether_dispatch_within_iff,mine,forall_const]
  · rename_i other
    simp only [within_cons,within_nil,and_true,other,Bool.false_eq_true,false_implies]

/-- A broadcast frame of an Ethernet and an IPv4 header; the latter calls itself 60 bytes long. -/
def long_header : List UInt8 :=
  [0xFF,0xFF,0xFF,0xFF,0xFF,0xFF,1,2,3,4,5,6,8,0,
   0x4F,0,0,20,0,0,0,0,64,1,0,0,10,0,0,1,0xFF,0xFF,0xFF,0xFF]

def idle_stack : Stack := ⟨0,0,0,0,fun _ => 0xFFFFFFFF,fun _ => NOMAC,0,0,[],[]⟩

/-- It makes ICMP a message of almost 4 GB behind the frame. -/
theorem long_header_leaves : ¬ ∀ env st m len, Within len (etherframe_nic_recv env st m len).2 := by
  intro always
  have handed := always ⟨0,fun _ => 0⟩ idle_stack (fun o => long_header.getD o.toNat 0) 34 (.hand 74 (20 - 60)) (by decide)
  revert handed
  simp only [Inside]
  decide

end MicroOS.NetBounds

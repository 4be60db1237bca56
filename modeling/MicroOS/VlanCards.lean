import MicroOS.NetBounds

/-!
VLAN network cards. `vlan_send` puts a tag behind the addresses of a frame and sends it
through the parent card; the parent hands the payloads of tagged frames to every VLAN card
registered on it, each of which builds a frame without the tag, and those of other frames to
its own stack.
-/
namespace MicroOS.VlanCards
open NetReceive (Memory load8 load16 load32 load48 BSWAP16 Access EtherType Stack sizeof_ether_frame_header accepted ether_recv
  ether_dispatch)
open NetBounds
open Tcp (Word Env)

def le16 (n : BitVec 16) : List UInt8 := [UInt8.ofNat n.toNat,UInt8.ofNat (n.toNat / 2 ^ 8)]
def le48 (n : BitVec 48) : List UInt8 :=
  [UInt8.ofNat n.toNat,UInt8.ofNat (n.toNat / 2 ^ 8),UInt8.ofNat (n.toNat / 2 ^ 16),UInt8.ofNat (n.toNat / 2 ^ 24),
    UInt8.ofNat (n.toNat / 2 ^ 32),UInt8.ofNat (n.toNat / 2 ^ 40)]

/-- A buffer with these bytes and whatever lies behind it. -/
def buffer (bytes : List UInt8) (behind : Memory) : Memory := fun o => bytes.getD o.toNat (behind o)

/-- What `memcpy` takes from an offset. -/
def slice (m : Memory) (o : Word) (size : Nat) : List UInt8 := (List.range size).map fun i => m (o + BitVec.ofNat 32 i)

structure Vlan where
  vlanid : Nat
  mac : BitVec 48
  /-- `configure_vlan` stops the kernel for other ids. -/
  valid : 0 < vlanid ∧ vlanid ≤ 4095
  deriving DecidableEq

def vlan_init (parent_mac : BitVec 48) (vlan : Vlan) : Vlan := { vlan with mac := parent_mac }

/-- A card's network stack and the VLAN cards on it, in the order in which they registered. -/
structure Card where
  stack : Stack
  vlans : List Vlan
  distinct : (vlans.map Vlan.vlanid).Nodup
  inited : ∀ v ∈ vlans, vlan_init stack.mac v = v

def Card.mac (card : Card) : BitVec 48 := card.stack.mac

/-- What stands in the ether type field of a tagged frame. -/
def TPID : BitVec 16 := BSWAP16 0x8100

inductive Handler where
  | stack (type : EtherType)
  | vlan (vlan : Vlan)

def Handler.ether_type_be : Handler → BitVec 16
  | .stack type => type.ether_type_be
  | .vlan _ => TPID

def Card.handlers (card : Card) : List Handler := [EtherType.arp,.ipv4].map .stack ++ card.vlans.map .vlan

/-- A call of the `recv` of a VLAN card. -/
structure Delivery where
  vlan : Vlan
  data : List UInt8
  len : Word
  deriving DecidableEq

/-- The id of the frame, `tci_be`, is not looked at. -/
def vlan_etherframe_recv (vlan : Vlan) (m : Memory) (src_mac : BitVec 48) (payload size : Word) :
    Delivery × List Access :=
  let new_size := size - 4 + 14
  ({ vlan
     data := le48 vlan.mac ++ le48 src_mac ++ le16 (load16 m (payload + 2)) ++ slice m (payload + 4) (size - 4).toNat
     len := new_size },
    [.read (payload + 2) 2,.read (payload + 4) (size - 4).toNat])

/-- The loop over the handlers, ARP and IPv4 of the card's stack among them. -/
def dispatch (env : Env) (m : Memory) (src_mac : BitVec 48) (len : Word) :
    List Handler → Stack → List Delivery × Stack × List Access
  | [], st => ([],st,[])
  | handler :: handlers, st =>
    let size := len - sizeof_ether_frame_header
    if handler.ether_type_be = load16 m 12 then
      match handler with
      | .stack type =>
        let (st,touched) := ether_recv env type st m sizeof_ether_frame_header size
        let (given,st,log) := dispatch env m src_mac len handlers st
        (given,st,.read 12 2 :: .hand sizeof_ether_frame_header size :: touched ++ log)
      | .vlan vlan =>
        let (delivery,touched) := vlan_etherframe_recv vlan m src_mac sizeof_ether_frame_header size
        let (given,st,log) := dispatch env m src_mac len handlers st
        (delivery :: given,st,.read 12 2 :: touched ++ log)
    else
      let (given,st,log) := dispatch env m src_mac len handlers st
      (given,st,.read 12 2 :: log)

def etherframe_nic_recv (env : Env) (card : Card) (m : Memory) (len : Word) : List Delivery × Stack × List Access :=
  if accepted card.stack m then
    let (given,st,log) := dispatch env m (load48 m 6) len card.handlers card.stack
    (given,st,[.read 6 6,.read 0 6] ++ log)
  else ([],card.stack,[.read 6 6,.read 0 6])

/-- The frame that `vlan_send` hands to `send_packet` for the `size` bytes of `data`. -/
def vlan_send (vlan : Vlan) (data : Memory) (size : Word) : List UInt8 :=
  let tci_be := BSWAP16 (BitVec.ofNat 16 vlan.vlanid &&& 0x0FFF)
  slice (fun o =>
    if o < 12 then data o
    else if o < 14 then (le16 TPID).getD (o - 12).toNat 0
    else if o < 16 then (le16 tci_be).getD (o - 14).toNat 0
    else data (o - 4)) 0 (size + 4).toNat

/-- An Ethernet frame that still fits into a 32-bit length with a tag. -/
structure Frame where
  dest : BitVec 48
  src : BitVec 48
  ether_type : BitVec 16
  payload : List UInt8
  fits : payload.length + 18 < 2 ^ 32

def Frame.bytes (f : Frame) : List UInt8 := le48 f.dest ++ le48 f.src ++ le16 f.ether_type ++ f.payload
def Frame.size (f : Frame) : Word := BitVec.ofNat 32 (14 + f.payload.length)

/-- A frame sent on a VLAN card, and the parent receiving what it sends. -/
def looped (env : Env) (card : Card) (vlan : Vlan) (f : Frame) (behind behind' : Memory) : List Delivery :=
  (etherframe_nic_recv env card (buffer (vlan_send vlan (buffer f.bytes behind) f.size) behind') (f.size + 4)).1

/-- The id in the tag of a frame. -/
def tag_id (m : Memory) : Nat := (BSWAP16 (load16 m 14) &&& 0x0FFF).toNat

/-- The frame holds what the stack reads of it and, if it is tagged, the tag, and all VLAN cards that will hear of it
have its id. -/
def Proper (card : Card) (m : Memory) (len : Word) : Prop :=
  Roomy card.stack m len ∧
    (accepted card.stack m = true → load16 m 12 = TPID → ∀ v ∈ card.vlans, 18 ≤ len.toNat ∧ v.vlanid = tag_id m)

@[simp] theorem arp_untagged : EtherType.arp.ether_type_be ≠ TPID := by decide
@[simp] theorem ipv4_untagged : EtherType.ipv4.ether_type_be ≠ TPID := by decide

section
variable (env : Env) (m : Memory) (src_mac : BitVec 48) (len : Word)

end

section
variable (behind behind' : Memory)

@[simp] theorem length_le16 (n : BitVec 16) : (le16 n).length = 2 := rfl
@[simp] theorem length_le48 (n : BitVec 48) : (le48 n).length = 6 := rfl

theorem slice_length (m : Memory) (o : Word) (size : Nat) : (slice m o size).length = size := by simp [slice]

theorem slice_append (m : Memory) (o : Word) (a b : Nat) :
    slice m o (a + b) = slice m o a ++ slice m (o + BitVec.ofNat 32 a) b := by
  unfold slice
  rw [List.range_add,List.map_append,List.map_map]
  congr 1
  refine List.map_congr_left fun i _ => ?_
  simp only [Function.comp_apply,BitVec.ofNat_add,BitVec.add_assoc]

end

/-- Two VLAN cards, and a frame for the parent sent on the first. -/
def five : Vlan := ⟨5,0,by decide⟩
def small : Frame := ⟨0,0,0x0800,[1,2],by decide⟩
def quiet : Env := ⟨0,fun _ => 0⟩

end MicroOS.VlanCards

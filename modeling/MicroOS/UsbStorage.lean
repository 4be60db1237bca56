import MicroOS.Uhci
import MicroOS.Pieces

/-!
A command is sent, its data moves in chunks of at most 64 packets, and a status comes back. Disks are read and written with one
command for each block of the device. The main theorem is `storage_right`: for which lengths and block sizes the data phase ends
with all data moved, and for which ones a disk access moves the sectors that its caller asks for.
-/
namespace MicroOS.UsbStorage
open Uhci Pieces

def USB_MSC_CSW_SIGNATURE : Word := 0x53425355
def USB_MSC_CSW_STATUS_PASSED : BitVec 8 := 0
def CBW_SIZE : Nat := 31
def CSW_SIZE : Nat := 13

structure Csw where
  dCSWSignature : Word
  dCSWTag : Word
  bCSWStatus : BitVec 8

/-- `usb_storage_data_t`. -/
structure Storage where
  ep_in : Endpoint
  ep_out : Endpoint
  tag : Word
  block_size : Word

/-- What goes on behind the driver: which bulk transfers succeed, and the status for the command with a tag. -/
structure Bus where
  succeeds : Nat → Bool
  csw : Word → Csw

/-- How much a descriptor moves. Its length field has 11 bits and holds one less, with all ones for nothing. -/
def packet_bytes (pkt_len : Nat) : Nat :=
  let max_len := if pkt_len > 0 then pkt_len - 1 else 0x7FF
  (max_len % 2048 + 1) % 2048

/-- The bulk transfer with a number: it fails without enough descriptors, or on the bus. -/
def bulk_transfer (bus : Bus) (n : Nat) (ep : Endpoint) (len : Nat) : Bool :=
  bulk_tds ep (BitVec.ofNat 16 len) ≤ UHCI_MAX_TDS / 2 && bus.succeeds n

/-- The packets of a transfer from an offset on. -/
def transfer_packets (ep : Endpoint) (offset len : Nat) : List (Nat × Nat) :=
  bulk_packets (effective_max_pkt ep) (bulk_tds ep (BitVec.ofNat 16 len)) len offset

/-- The next chunk, of what is left. Both lengths have 16 bits. -/
def next_chunk (ep : Endpoint) (left : Nat) : Nat :=
  let chunk := left % 65536
  let max_chunk := ep.wMaxPacketSize.toNat * 64 % 65536
  let max_chunk := if max_chunk = 0 then 64 * 64 else max_chunk
  if chunk > max_chunk then max_chunk else chunk

/-- What a part of a command leaves behind: the number of the next transfer, the packets moved so far, and whether it went well. -/
structure Moved where
  n : Nat
  packets : List (Nat × Nat)
  ok : Bool

/-- The loop of the data phase, as far as it comes with some fuel. -/
def data_phase (bus : Bus) (ep : Endpoint) (buf_len : Nat) : Nat → Nat → Nat → Option Moved
  | 0,_,_ => none
  | fuel + 1,n,offset =>
    if offset < buf_len then
      let chunk := next_chunk ep (buf_len - offset)
      if bulk_transfer bus n ep chunk then
        (data_phase bus ep buf_len fuel (n + 1) (offset + chunk)).map fun r =>
          { r with packets := transfer_packets ep offset chunk ++ r.packets }
      else some ⟨n + 1,[],false⟩
    else some ⟨n,[],true⟩

/-- What a command leaves behind. The bytes are those of the caller's buffer, in the order in which they move. -/
structure Outcome where
  data : Storage
  n : Nat
  bytes : List Nat
  ok : Bool

/-- The data phase, with a length and a buffer. -/
def data_part (bus : Bus) (ep : Endpoint) (buf : Option Nat) (buf_len fuel n : Nat) : Option Moved :=
  if buf_len > 0 ∧ buf.isSome then data_phase bus ep buf_len fuel n 0 else some ⟨n,[],true⟩

/-- A command. The buffer is at a place in the caller's one, or there is none. -/
def usb_storage_scsi_command (bus : Bus) (fuel n : Nat) (data : Storage) (buf : Option Nat) (buf_len : Nat) (direction_in : Bool) :
    Option Outcome :=
  let tag := data.tag
  let data := { data with tag := tag + 1 }
  if bulk_transfer bus n data.ep_out CBW_SIZE then
    (data_part bus (if direction_in then data.ep_in else data.ep_out) buf buf_len fuel (n + 1)).map fun r =>
      let bytes := (kept packet_bytes r.packets).map (buf.getD 0 + ·)
      if r.ok then
        let csw := bus.csw tag
        ⟨data,r.n + 1,bytes,bulk_transfer bus r.n data.ep_in CSW_SIZE && csw.dCSWSignature = USB_MSC_CSW_SIGNATURE &&
          csw.dCSWTag = tag && csw.bCSWStatus = USB_MSC_CSW_STATUS_PASSED⟩
      else ⟨data,r.n,bytes,false⟩
  else some ⟨data,n + 1,[],false⟩

/-- The loop over the blocks of a disk access. The product has 32 bits. -/
def blocks_loop (bus : Bus) (fuel : Nat) (direction_in : Bool) : Nat → Nat → Nat → Storage → Option Outcome
  | 0,_,n,data => some ⟨data,n,[],true⟩
  | left + 1,i,n,data =>
    match usb_storage_scsi_command bus fuel n data (some (i * data.block_size.toNat % 2 ^ 32)) data.block_size.toNat direction_in with
    | none => none
    | some r =>
      if r.ok then
        (blocks_loop bus fuel direction_in left (i + 1) r.n r.data).map fun s => { s with bytes := r.bytes ++ s.bytes }
      else some r

def usb_storage_read (bus : Bus) (fuel n : Nat) (data : Storage) (count : Word) : Option Outcome :=
  blocks_loop bus fuel true count.toNat 0 n data

def usb_storage_write (bus : Bus) (fuel n : Nat) (data : Storage) (count : Word) : Option Outcome :=
  blocks_loop bus fuel false count.toNat 0 n data

theorem packet_bytes_eq (len : Nat) : packet_bytes len = len % 2048 := by
  unfold packet_bytes
  dsimp only
  split <;> omega

theorem packet_bytes_le (len : Nat) : packet_bytes len ≤ len := by
  rw [packet_bytes_eq]
  exact Nat.mod_le len 2048

/-- A packet moves as a whole when its length fits. -/
theorem packet_bytes_whole (len : Nat) : packet_bytes len = len ↔ len < 2048 := by
  rw [packet_bytes_eq]
  omega

theorem max_pkt_pos (ep : Endpoint) : 0 < effective_max_pkt ep := by
  unfold effective_max_pkt
  split
  · omega
  · rename_i some
    exact Nat.pos_of_ne_zero fun zero => some (BitVec.eq_of_toNat_eq zero)

theorem next_chunk_le (ep : Endpoint) (left : Nat) : next_chunk ep left ≤ left % 65536 := by
  unfold next_chunk
  dsimp only
  split <;> split <;> omega

theorem next_chunk_pos (ep : Endpoint) (left : Nat) : 0 < next_chunk ep left ↔ left % 65536 ≠ 0 := by
  unfold next_chunk
  dsimp only
  split <;> split <;> omega

theorem next_chunk_mono (ep : Endpoint) {less more : Nat} (le : less ≤ more) (bound : more < 65536) :
    next_chunk ep less ≤ next_chunk ep more := by
  unfold next_chunk
  dsimp only
  split <;> split <;> split <;> omega

/-- A chunk has at most 64 packets. -/
theorem next_chunk_packets (ep : Endpoint) (left : Nat) : next_chunk ep left ≤ 64 * effective_max_pkt ep := by
  unfold next_chunk effective_max_pkt
  by_cases zero : ep.wMaxPacketSize = 0
  · rw [if_pos zero,zero]
    dsimp only
    split <;> split <;> simp_all
  · rw [if_neg zero]
    have pos : 0 < ep.wMaxPacketSize.toNat := Nat.pos_of_ne_zero fun none => zero (BitVec.eq_of_toNat_eq none)
    dsimp only
    split <;> split <;> omega

/-- The number of descriptors is right: they are enough for the length, and one less is not. -/
theorem bulk_tds_spec (ep : Endpoint) {len : Nat} (pos : 0 < len) (bound : len < 65536) :
    ∃ n, bulk_tds ep (BitVec.ofNat 16 len) = n + 1 ∧ n * effective_max_pkt ep < len ∧ len ≤ (n + 1) * effective_max_pkt ep := by
  have max_pos := max_pkt_pos ep
  have value : (BitVec.ofNat 16 len).toNat = len := by
    rw [BitVec.toNat_ofNat]
    exact Nat.mod_eq_of_lt bound
  have some : BitVec.ofNat 16 len ≠ 0 := by
    intro none
    rw [none] at value
    simp at value
    omega
  rw [bulk_tds,if_neg some,value]
  generalize effective_max_pkt ep = max at max_pos
  have lower := Nat.div_mul_le_self (len + max - 1) max
  have upper := Nat.lt_div_mul_add max_pos (a := len + max - 1)
  generalize (len + max - 1) / max = t at lower upper
  cases t with
  | zero => omega
  | succ n =>
    refine ⟨n,rfl,?_,?_⟩
    · rw [Nat.succ_mul] at lower
      omega
    · omega

/-- Its packets lie end to end, and none is longer than the first one. -/
theorem bulk_packets_tile {max : Nat} (pos : 0 < max) (n remaining offset : Nat) (less : n * max < remaining)
    (enough : remaining ≤ (n + 1) * max) :
    Tiles offset (offset + remaining) (bulk_packets max (n + 1) remaining offset) ∧
      (∀ p ∈ bulk_packets max (n + 1) remaining offset, p.2 ≤ min remaining max) ∧
      ∃ rest, bulk_packets max (n + 1) remaining offset = (offset,min remaining max) :: rest := by
  have first : ∀ left, (if left > max then max else left) = min left max := by
    intro left
    split <;> omega
  induction n generalizing remaining offset with
  | zero =>
    have all : min remaining max = remaining := by omega
    rw [bulk_packets,bulk_packets,first,all]
    exact ⟨.cons (by omega) (.nil _),by simp,_,rfl⟩
  | succ n ih =>
    have large : min remaining max = max := by
      rw [Nat.succ_mul] at less
      omega
    rw [Nat.succ_mul] at less enough
    obtain ⟨tiles,short,_⟩ := ih (remaining - max) (offset + max) (by omega) (by omega)
    rw [bulk_packets,first,large]
    have last : offset + max + (remaining - max) = offset + remaining := by omega
    rw [last] at tiles
    refine ⟨.cons (by omega) tiles,fun p member => ?_,_,rfl⟩
    rcases List.mem_cons.1 member with rfl | inside
    · exact le_rfl
    · exact (short p inside).trans (by omega)

/-- The longest packet for what is left. -/
def largest (ep : Endpoint) (left : Nat) : Nat := min (next_chunk ep left) (effective_max_pkt ep)

theorem transfer_packets_tile (ep : Endpoint) (offset left : Nat) (some : left % 65536 ≠ 0) :
    Tiles offset (offset + next_chunk ep left) (transfer_packets ep offset (next_chunk ep left)) ∧
      (∀ p ∈ transfer_packets ep offset (next_chunk ep left), p.2 ≤ largest ep left) ∧
      ∃ rest, transfer_packets ep offset (next_chunk ep left) = (offset,largest ep left) :: rest := by
  have pos := (next_chunk_pos ep left).2 some
  have bound := next_chunk_le ep left
  obtain ⟨n,number,less,enough⟩ := bulk_tds_spec ep pos (by omega)
  rw [transfer_packets,number]
  exact bulk_packets_tile (max_pkt_pos ep) n _ offset less enough

/-- With the bus working no transfer of a chunk fails. -/
theorem chunk_succeeds {bus : Bus} (works : ∀ k, bus.succeeds k = true) (n : Nat) (ep : Endpoint) (left : Nat) :
    bulk_transfer bus n ep (next_chunk ep left) = true := by
  have max_pos := max_pkt_pos ep
  have most := next_chunk_packets ep left
  have bound := next_chunk_le ep left
  have few : bulk_tds ep (BitVec.ofNat 16 (next_chunk ep left)) ≤ 64 := by
    rcases Nat.eq_zero_or_pos (next_chunk ep left) with zero | pos
    · rw [zero]
      simp [bulk_tds]
    · obtain ⟨n,number,less,_⟩ := bulk_tds_spec ep pos (by omega)
      rw [number]
      have lt := Nat.lt_of_mul_lt_mul_right (Nat.lt_of_lt_of_le less most)
      exact lt
  simp [bulk_transfer,works,UHCI_MAX_TDS,few]

/-- All packets of a data phase in which no transfer fails, with what is left and where it begins. -/
def data_packets (ep : Endpoint) (left offset : Nat) : List (Nat × Nat) :=
  if 0 < next_chunk ep left then
    transfer_packets ep offset (next_chunk ep left) ++
      data_packets ep (left - next_chunk ep left) (offset + next_chunk ep left)
  else []
termination_by left
decreasing_by
  have bound := next_chunk_le ep left
  have small := Nat.mod_le left 65536
  omega

theorem data_packets_tile (ep : Endpoint) {left : Nat} (offset : Nat) (bound : left < 65536) :
    Tiles offset (offset + left) (data_packets ep left offset) ∧ (∀ p ∈ data_packets ep left offset, p.2 ≤ largest ep left) ∧
      (0 < left → ∃ rest, data_packets ep left offset = (offset,largest ep left) :: rest) := by
  induction left using Nat.strong_induction_on generalizing offset with
  | _ left ih =>
    rw [data_packets]
    have whole : left % 65536 = left := Nat.mod_eq_of_lt bound
    have le := next_chunk_le ep left
    by_cases more : 0 < next_chunk ep left
    · rw [if_pos more]
      obtain ⟨first,short,rest,begins⟩ := transfer_packets_tile ep offset left ((next_chunk_pos ep left).1 more)
      obtain ⟨later,short',_⟩ := ih (left - next_chunk ep left) (by omega) (offset + next_chunk ep left) (by omega)
      have last : offset + next_chunk ep left + (left - next_chunk ep left) = offset + left := by omega
      rw [last] at later
      refine ⟨tiles_append first later,fun p member => ?_,fun _ => ⟨_,by rw [begins]; rfl⟩⟩
      rcases List.mem_append.1 member with now | then'
      · exact short p now
      · have fewer := next_chunk_mono ep (Nat.sub_le left (next_chunk ep left)) bound
        exact (short' p then').trans (min_le_min_right _ fewer)
    · rw [if_neg more]
      have none : left = 0 := by
        by_contra some
        exact more ((next_chunk_pos ep left).2 (by omega))
      rw [none]
      exact ⟨.nil _,by simp,by omega⟩

theorem data_phase_succ (bus : Bus) (ep : Endpoint) (buf_len fuel n offset : Nat) :
    data_phase bus ep buf_len (fuel + 1) n offset =
      if offset < buf_len then
        if bulk_transfer bus n ep (next_chunk ep (buf_len - offset)) then
          (data_phase bus ep buf_len fuel (n + 1) (offset + next_chunk ep (buf_len - offset))).map fun r =>
            { r with packets := transfer_packets ep offset (next_chunk ep (buf_len - offset)) ++ r.packets }
        else some ⟨n + 1,[],false⟩
      else some ⟨n,[],true⟩ := rfl

/-- Less than 64 KiB come to an end. -/
theorem data_phase_ends (bus : Bus) (ep : Endpoint) {buf_len fuel offset : Nat} (n : Nat) (bound : buf_len - offset < 65536)
    (enough : buf_len - offset < fuel) : ∃ r, data_phase bus ep buf_len fuel n offset = some r := by
  induction fuel generalizing n offset with
  | zero => omega
  | succ fuel ih =>
    rw [data_phase_succ]
    by_cases more : offset < buf_len
    · rw [if_pos more]
      by_cases moved : bulk_transfer bus n ep (next_chunk ep (buf_len - offset)) = true
      · rw [if_pos moved]
        have pos := (next_chunk_pos ep (buf_len - offset)).2 (by omega)
        obtain ⟨r,found⟩ := @ih (offset + next_chunk ep (buf_len - offset)) (n + 1) (by omega) (by omega)
        rw [found]
        exact ⟨_,rfl⟩
      · rw [if_neg moved]
        exact ⟨_,rfl⟩
    · rw [if_neg more]
      exact ⟨_,rfl⟩

/-- When nothing fails, a data phase that comes to an end has moved all packets. -/
theorem data_phase_packets {bus : Bus} (works : ∀ k, bus.succeeds k = true) (ep : Endpoint) {buf_len fuel offset n : Nat}
    {r : Moved} (bound : buf_len - offset < 65536) (found : data_phase bus ep buf_len fuel n offset = some r) :
    r.ok = true ∧ r.packets = data_packets ep (buf_len - offset) offset := by
  induction fuel generalizing n offset r with
  | zero => cases found
  | succ fuel ih =>
    rw [data_phase_succ] at found
    rw [data_packets]
    have pos := next_chunk_pos ep (buf_len - offset)
    by_cases more : offset < buf_len
    · rw [if_pos more,if_pos (chunk_succeeds works ..),Option.map_eq_some_iff] at found
      obtain ⟨r',later,rfl⟩ := found
      obtain ⟨ok,packets⟩ := ih (by omega) later
      rw [if_pos (pos.2 (by omega)),packets,Nat.sub_sub]
      exact ⟨ok,rfl⟩
    · rw [if_neg more] at found
      rw [← Option.some.inj found,if_neg (by omega)]
      exact ⟨rfl,rfl⟩

/-- With 64 KiB or more left the loop comes to a multiple of them, where it moves nothing any more. -/
theorem data_phase_stuck {bus : Bus} (works : ∀ k, bus.succeeds k = true) (ep : Endpoint) {buf_len offset : Nat}
    (large : 65536 ≤ buf_len - offset) (fuel n : Nat) : data_phase bus ep buf_len fuel n offset = none := by
  induction fuel generalizing n offset with
  | zero => rfl
  | succ fuel ih =>
    have le := next_chunk_le ep (buf_len - offset)
    rw [data_phase_succ,if_pos (by omega),if_pos (chunk_succeeds works ..),ih (by omega)]
    rfl

/-- The data phase ends, and when no transfer fails it moves the whole buffer. -/
structure DataPhaseRight (ep : Endpoint) (buf_len : Nat) : Prop where
  ends : ∀ bus n, ∃ fuel r, data_phase bus ep buf_len fuel n 0 = some r
  moves : ∀ bus n, (∀ k, bus.succeeds k = true) → ∃ fuel r, data_phase bus ep buf_len fuel n 0 = some r ∧ r.ok = true ∧
    kept packet_bytes r.packets = List.range buf_len

theorem kept_packets (ep : Endpoint) {buf_len : Nat} (bound : buf_len < 65536) :
    kept packet_bytes (data_packets ep buf_len 0) = List.range buf_len ↔ largest ep buf_len < 2048 := by
  obtain ⟨tiles,short,begins⟩ := data_packets_tile ep 0 bound
  rw [Nat.zero_add] at tiles
  constructor
  · intro all
    have whole := whole_of_length tiles packet_bytes_le (by rw [all]; simp)
    rcases Nat.eq_zero_or_pos buf_len with zero | pos
    · have none := next_chunk_le ep buf_len
      unfold largest
      omega
    · obtain ⟨rest,first⟩ := begins pos
      rw [first] at whole
      exact (packet_bytes_whole _).1 (whole _ List.mem_cons_self)
  · intro fits
    rw [kept_whole tiles fun p member => (packet_bytes_whole _).2 ((short p member).trans_lt fits),List.range_eq_range']
    rfl

theorem data_phase_right (ep : Endpoint) (buf_len : Nat) :
    DataPhaseRight ep buf_len ↔ buf_len < 65536 ∧ largest ep buf_len < 2048 := by
  constructor
  · intro right
    obtain ⟨fuel,r,found,ok,all⟩ := right.moves ⟨fun _ => true,fun _ => ⟨0,0,0⟩⟩ 0 fun _ => rfl
    have bound : buf_len < 65536 := by
      by_contra large
      rw [data_phase_stuck (fun _ => rfl) ep (by omega)] at found
      cases found
    rw [(data_phase_packets (fun _ => rfl) ep (by omega) found).2] at all
    exact ⟨bound,(kept_packets ep bound).1 all⟩
  · intro ⟨bound,fits⟩
    refine ⟨fun bus n => ⟨_,data_phase_ends bus ep n (by omega) (Nat.lt_succ_self _)⟩,fun bus n works => ?_⟩
    obtain ⟨r,found⟩ := @data_phase_ends bus ep _ _ 0 n (by omega) (Nat.lt_succ_self _)
    obtain ⟨ok,packets⟩ := data_phase_packets works ep (by omega) found
    refine ⟨_,r,found,ok,?_⟩
    rw [packets]
    exact (kept_packets ep bound).2 fits

/-- No transfer fails, and the device reports that every command passed. -/
structure Passes (bus : Bus) : Prop where
  works : ∀ k, bus.succeeds k = true
  csw : ∀ tag, bus.csw tag = ⟨USB_MSC_CSW_SIGNATURE,tag,USB_MSC_CSW_STATUS_PASSED⟩

/-- The endpoint of the data phase. -/
def endpoint (data : Storage) (direction_in : Bool) : Endpoint := if direction_in then data.ep_in else data.ep_out

/-- The bytes of one block that move. -/
def block_bytes (data : Storage) (direction_in : Bool) : List Nat :=
  kept packet_bytes (data_packets (endpoint data direction_in) data.block_size.toNat 0)

/-- The short messages need few descriptors. -/
theorem message_succeeds {bus : Bus} (works : ∀ k, bus.succeeds k = true) (n : Nat) (ep : Endpoint) {len : Nat} (pos : 0 < len)
    (short : len ≤ 31) : bulk_transfer bus n ep len = true := by
  obtain ⟨m,number,less,_⟩ := bulk_tds_spec ep pos (by omega)
  have few := Nat.le_mul_of_pos_right m (max_pkt_pos ep)
  have small : bulk_tds ep (BitVec.ofNat 16 len) ≤ 64 := by omega
  simp [bulk_transfer,works,UHCI_MAX_TDS,small]

/-- A command passes when its data phase comes to an end, and changes only the tag. -/
theorem command_passes {bus : Bus} (passes : Passes bus) (fuel n : Nat) (data : Storage) (base : Nat) (direction_in : Bool) :
    usb_storage_scsi_command bus fuel n data (some base) data.block_size.toNat direction_in =
      (data_part bus (endpoint data direction_in) (some base) data.block_size.toNat fuel (n + 1)).map fun r =>
        if r.ok then ⟨{ data with tag := data.tag + 1 },r.n + 1,(kept packet_bytes r.packets).map (base + ·),true⟩
        else ⟨{ data with tag := data.tag + 1 },r.n,(kept packet_bytes r.packets).map (base + ·),false⟩ := by
  unfold usb_storage_scsi_command
  dsimp only
  rw [if_pos (message_succeeds passes.works n _ (by decide) (by decide)),passes.csw]
  congr 1
  funext r
  rw [message_succeeds passes.works r.n _ (by decide) (by decide)]
  simp

theorem data_part_ends (bus : Bus) (ep : Endpoint) (base n : Nat) {buf_len fuel : Nat} (bound : buf_len < 65536)
    (enough : buf_len < fuel) : ∃ r, data_part bus ep (some base) buf_len fuel n = some r := by
  unfold data_part
  by_cases some_left : buf_len > 0 ∧ (some base).isSome = true
  · rw [if_pos some_left]
    exact data_phase_ends bus ep n (by omega) (by omega)
  · rw [if_neg some_left]
    exact ⟨_,rfl⟩

theorem data_part_packets {bus : Bus} (works : ∀ k, bus.succeeds k = true) (ep : Endpoint) {base buf_len fuel n : Nat} {r : Moved}
    (bound : buf_len < 65536) (found : data_part bus ep (some base) buf_len fuel n = some r) :
    r.ok = true ∧ r.packets = data_packets ep buf_len 0 := by
  unfold data_part at found
  by_cases some_left : buf_len > 0 ∧ (some base).isSome = true
  · rw [if_pos some_left] at found
    exact data_phase_packets works ep (by omega) found
  · rw [if_neg some_left] at found
    have zero : buf_len = 0 := by
      by_contra pos
      exact some_left ⟨by omega,rfl⟩
    have none := next_chunk_pos ep 0
    rw [← Option.some.inj found,zero,data_packets,if_neg (by omega)]
    exact ⟨rfl,rfl⟩

/-- The loop comes to an end with blocks of less than 64 KiB, and moves the same part of each. -/
theorem blocks_loop_spec {bus : Bus} (passes : Passes bus) (fuel : Nat) (direction_in : Bool) (left i n : Nat) (data : Storage)
    (bound : data.block_size.toNat < 65536) :
    (data.block_size.toNat < fuel → ∃ r, blocks_loop bus fuel direction_in left i n data = some r) ∧
      ∀ r, blocks_loop bus fuel direction_in left i n data = some r →
        r.bytes = (List.range' i left).flatMap fun k =>
          (block_bytes data direction_in).map (k * data.block_size.toNat % 2 ^ 32 + ·) := by
  induction left generalizing i n data with
  | zero => exact ⟨fun _ => ⟨_,rfl⟩,fun r found => by rw [← Option.some.inj found]; rfl⟩
  | succ left ih =>
    rw [blocks_loop,command_passes passes]
    cases part : data_part bus (endpoint data direction_in) (some (i * data.block_size.toNat % 2 ^ 32)) data.block_size.toNat fuel
        (n + 1) with
    | none =>
      refine ⟨fun enough => ?_,fun r found => by cases found⟩
      obtain ⟨r,found⟩ := data_part_ends bus (endpoint data direction_in) (i * data.block_size.toNat % 2 ^ 32) (n + 1) bound enough
      rw [part] at found
      cases found
    | some moved =>
      obtain ⟨ok,packets⟩ := data_part_packets passes.works _ bound part
      obtain ⟨ends,bytes⟩ := ih (i + 1) (moved.n + 1) { data with tag := data.tag + 1 } bound
      rw [Option.map_some,if_pos ok]
      dsimp only
      rw [if_pos rfl]
      constructor
      · intro enough
        obtain ⟨r,found⟩ := ends enough
        rw [found]
        exact ⟨_,rfl⟩
      · intro r found
        rw [Option.map_eq_some_iff] at found
        obtain ⟨s,later,rfl⟩ := found
        rw [List.range'_succ,List.flatMap_cons,bytes s later,packets]
        rfl

/-- With larger blocks the first command does not come to an end. -/
theorem blocks_loop_stuck {bus : Bus} (passes : Passes bus) (fuel : Nat) (direction_in : Bool) {left : Nat} (i n : Nat)
    {data : Storage} (large : 65536 ≤ data.block_size.toNat) (some : 0 < left) :
    blocks_loop bus fuel direction_in left i n data = none := by
  cases left with
  | zero => omega
  | succ left =>
    rw [blocks_loop,command_passes passes,data_part,if_pos ⟨by omega,rfl⟩,data_phase_stuck passes.works _ (by omega)]
    rfl

/-- The place of every block is right: there is one block only, or the blocks have 512 bytes and no place wraps around. -/
theorem places_right (bs : Word) (count : Nat) :
    (∀ i < count, i * bs.toNat % 2 ^ 32 = i * 512) ↔ count ≤ 1 ∨ bs.toNat = 512 ∧ count ≤ 2 ^ 23 := by
  have small := bs.isLt
  constructor
  · intro all
    by_cases one : count ≤ 1
    · exact .inl one
    · have second := all 1 (by omega)
      rw [Nat.one_mul,Nat.mod_eq_of_lt small] at second
      refine .inr ⟨by omega,?_⟩
      by_contra many
      have wrapped := all (2 ^ 23) (by omega)
      rw [second] at wrapped
      omega
  · rintro (one | ⟨size,few⟩) i less
    · have zero : i = 0 := by omega
      rw [zero]
      simp
    · rw [size]
      omega

/-- The packets of a block have other lengths than their descriptors ask for, and happen to move 512 bytes: only the first one
    moves anything. -/
def Coincidence (ep : Endpoint) (buf_len : Nat) : Prop :=
  ∃ len rest, data_packets ep buf_len 0 = (0,len) :: rest ∧ packet_bytes len = 512 ∧ ∀ p ∈ rest, packet_bytes p.2 = 0

theorem kept_none {packets : List (Nat × Nat)} (none : ∀ p ∈ packets, packet_bytes p.2 = 0) : kept packet_bytes packets = [] := by
  rw [kept,List.flatMap_eq_nil_iff]
  intro p member
  rw [none p member]
  rfl

theorem block_right (ep : Endpoint) {buf_len : Nat} (bound : buf_len < 65536) :
    kept packet_bytes (data_packets ep buf_len 0) = List.range 512 ↔ buf_len = 512 ∨ Coincidence ep buf_len := by
  obtain ⟨tiles,_,begins⟩ := data_packets_tile ep 0 bound
  rw [Nat.zero_add] at tiles
  constructor
  · intro all
    by_cases fits : largest ep buf_len < 2048
    · rw [(kept_packets ep bound).2 fits] at all
      have lengths := congrArg List.length all
      rw [List.length_range,List.length_range] at lengths
      exact .inl lengths
    · have some : 0 < buf_len := by
        by_contra zero
        have none := next_chunk_le ep buf_len
        unfold largest at fits
        omega
      obtain ⟨rest,first⟩ := begins some
      rw [first] at tiles all
      cases tiles with
      | cons _ more =>
        -- The packets behind the first one begin behind the 512 bytes.
        have nothing : ∀ p ∈ rest, packet_bytes p.2 = 0 := by
          intro p member
          by_contra moves
          have here : p.1 ∈ kept packet_bytes ((0,largest ep buf_len) :: rest) := by
            rw [kept_cons]
            refine List.mem_append_right _ (List.mem_flatMap.2 ⟨p,member,?_⟩)
            rw [List.mem_range'_1]
            omega
          rw [all,List.mem_range] at here
          have behind := (tiles_member more member).1
          omega
        rw [kept_cons,kept_none nothing,List.append_nil] at all
        have lengths := congrArg List.length all
        rw [List.length_range',List.length_range] at lengths
        exact .inr ⟨_,rest,first,lengths,nothing⟩
  · rintro (size | ⟨len,rest,packets,first,nothing⟩)
    · have fits : largest ep buf_len < 2048 := by
        have le := next_chunk_le ep buf_len
        unfold largest
        omega
      rw [(kept_packets ep bound).2 fits,size]
    · rw [packets,kept_cons,kept_none nothing,List.append_nil,first,List.range_eq_range']

def disk_access (direction_in : Bool) (bus : Bus) (fuel n : Nat) (data : Storage) (count : Word) : Option Outcome :=
  if direction_in then usb_storage_read bus fuel n data count else usb_storage_write bus fuel n data count

theorem disk_access_loop (direction_in : Bool) (bus : Bus) (fuel n : Nat) (data : Storage) (count : Word) :
    disk_access direction_in bus fuel n data count = blocks_loop bus fuel direction_in count.toNat 0 n data := by
  cases direction_in <;> rfl

/-- When nothing fails, the access comes to an end and moves the sectors of 512 bytes that its caller asks for. -/
def AccessRight (data : Storage) (direction_in : Bool) (count : Word) : Prop :=
  ∀ bus n, Passes bus → ∃ fuel r, disk_access direction_in bus fuel n data count = some r ∧ r.bytes = List.range (count.toNat * 512)

/-- The parts of the blocks that move make up the sectors exactly when each is one sector, in its place. -/
theorem blocks_right (m : List Nat) (bs count : Word) :
    (List.range count.toNat).flatMap (fun k => m.map (k * bs.toNat % 2 ^ 32 + ·)) = List.range (count.toNat * 512) ↔
      count = 0 ∨ m = List.range 512 ∧ (count.toNat ≤ 1 ∨ bs.toNat = 512 ∧ count.toNat ≤ 2 ^ 23) := by
  have moved : ∀ place, (List.range 512).map (place + ·) = List.range' place 512 := by
    intro place
    rw [List.range_eq_range',List.map_add_range',Nat.add_zero]
  have zero : count = 0 ↔ count.toNat = 0 := BitVec.toNat_inj.symm
  rw [zero]
  by_cases none : count.toNat = 0
  · simp [none]
  · rw [or_iff_right none,← places_right bs count.toNat]
    constructor
    · intro whole
      have lengths := congrArg List.length whole
      simp only [List.length_flatMap,List.length_map,List.map_const',List.length_range,List.sum_replicate,smul_eq_mul] at lengths
      have sector : m.length = 512 := Nat.eq_of_mul_eq_mul_left (Nat.pos_of_ne_zero none) lengths
      have each := (@range_parts _ 512 (fun k => by rw [List.length_map,sector]) count.toNat).1 whole
      have first := each 0 (Nat.pos_of_ne_zero none)
      simp only [Nat.zero_mul,Nat.zero_mod,Nat.zero_add,List.map_id'] at first
      rw [← List.range_eq_range'] at first
      refine ⟨first,fun i less => ?_⟩
      have here := each i less
      rw [first,moved] at here
      have heads := congrArg List.head? here
      simpa [List.head?_range'] using heads
    · intro ⟨sector,places⟩
      refine (range_parts (fun k => by rw [List.length_map,sector,List.length_range]) count.toNat).2 fun i less => ?_
      rw [sector,moved,places i less]

theorem access_right (data : Storage) (direction_in : Bool) (count : Word) :
    AccessRight data direction_in count ↔
      count = 0 ∨ data.block_size.toNat = 512 ∧ count.toNat ≤ 2 ^ 23 ∨
        count = 1 ∧ data.block_size.toNat < 65536 ∧ Coincidence (endpoint data direction_in) data.block_size.toNat := by
  have zero : count = 0 ↔ count.toNat = 0 := BitVec.toNat_inj.symm
  have one : count = 1 ↔ count.toNat = 1 := BitVec.toNat_inj.symm
  have working : Passes ⟨fun _ => true,fun tag => ⟨USB_MSC_CSW_SIGNATURE,tag,USB_MSC_CSW_STATUS_PASSED⟩⟩ :=
    ⟨fun _ => rfl,fun _ => rfl⟩
  by_cases none : count = 0
  · refine iff_of_true (fun bus n _ => ?_) (.inl none)
    rw [none]
    exact ⟨0,⟨data,n,[],true⟩,by rw [disk_access_loop]; rfl,rfl⟩
  have some : count.toNat ≠ 0 := fun absent => none (zero.2 absent)
  by_cases bound : data.block_size.toNat < 65536
  · have exact_condition : (List.range' 0 count.toNat).flatMap (fun k =>
        (block_bytes data direction_in).map (k * data.block_size.toNat % 2 ^ 32 + ·)) = List.range (count.toNat * 512) ↔
        (data.block_size.toNat = 512 ∨ Coincidence (endpoint data direction_in) data.block_size.toNat) ∧
          (count.toNat ≤ 1 ∨ data.block_size.toNat = 512 ∧ count.toNat ≤ 2 ^ 23) := by
      rw [← List.range_eq_range',blocks_right,or_iff_right none,block_bytes,block_right _ bound]
    have same : AccessRight data direction_in count ↔ (List.range' 0 count.toNat).flatMap (fun k =>
        (block_bytes data direction_in).map (k * data.block_size.toNat % 2 ^ 32 + ·)) = List.range (count.toNat * 512) := by
      constructor
      · intro right
        obtain ⟨fuel,r,found,bytes⟩ := right _ 0 working
        rw [disk_access_loop] at found
        rw [← bytes,(blocks_loop_spec working fuel direction_in count.toNat 0 0 data bound).2 r found]
      · intro whole bus n passes
        obtain ⟨ends,bytes⟩ := blocks_loop_spec passes 65536 direction_in count.toNat 0 n data bound
        obtain ⟨r,found⟩ := ends bound
        exact ⟨_,r,by rw [disk_access_loop]; exact found,by rw [bytes r found,whole]⟩
    rw [same,exact_condition,zero,one]
    constructor
    · rintro ⟨size | coincidence,few | ⟨size',few⟩⟩
      · exact .inr (.inl ⟨size,by omega⟩)
      · exact .inr (.inl ⟨size,few⟩)
      · exact .inr (.inr ⟨by omega,bound,coincidence⟩)
      · exact .inr (.inl ⟨size',few⟩)
    · rintro (absent | ⟨size,few⟩ | ⟨single,_,coincidence⟩)
      · exact absurd (zero.2 absent) none
      · exact ⟨.inl size,.inr ⟨size,few⟩⟩
      · exact ⟨.inr coincidence,.inl (by omega)⟩
  · refine iff_of_false (fun right => ?_) ?_
    · obtain ⟨fuel,r,found,_⟩ := right _ 0 working
      rw [disk_access_loop,blocks_loop_stuck working fuel direction_in 0 0 (by omega) (Nat.pos_of_ne_zero some)] at found
      cases found
    · rintro (absent | ⟨size,_⟩ | ⟨_,small,_⟩)
      · exact none absent
      · omega
      · exact bound small

/-- The data phase is right exactly below 64 KiB and with packets of less than 2048 bytes; a disk access, with blocks of 512
    bytes. -/
theorem storage_right (data : Storage) (direction_in : Bool) (buf_len count : Word) :
    (DataPhaseRight (endpoint data direction_in) buf_len.toNat ↔
      buf_len.toNat < 65536 ∧ largest (endpoint data direction_in) buf_len.toNat < 2048) ∧
    (AccessRight data direction_in count ↔
      count = 0 ∨ data.block_size.toNat = 512 ∧ count.toNat ≤ 2 ^ 23 ∨
        count = 1 ∧ data.block_size.toNat < 65536 ∧ Coincidence (endpoint data direction_in) data.block_size.toNat) :=
  ⟨data_phase_right _ _,access_right data direction_in count⟩

/-- 64 KiB never come to an end, and blocks of 4 KiB go far beyond the buffer. -/
theorem large_blocks_wrong : ¬ DataPhaseRight ⟨0x81,64⟩ 65536 ∧ ¬ AccessRight ⟨⟨0x81,64⟩,⟨0x02,64⟩,1,4096⟩ true 8 := by
  refine ⟨fun right => ?_,fun right => ?_⟩
  · exact absurd ((data_phase_right _ _).1 right).1 (by decide)
  · rcases (access_right _ _ _).1 right with none | ⟨size,_⟩ | ⟨one,_⟩
    · exact absurd none (by decide)
    · exact absurd size (by decide)
    · exact absurd one (by decide)

end MicroOS.UsbStorage

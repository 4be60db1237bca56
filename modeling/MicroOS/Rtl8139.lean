import MicroOS.Memory
import MicroOS.Alignment
import MicroOS.Runs

/-!
The card writes frames with a header into a ring of 8 KB, in WRAP mode on behind its end, and one interrupt may stand for
several frames; `rtl8139_recieve` reads one. The main theorem is `ring_in_step`: along which runs the driver hands on
every frame and its read pointer is at the next header.
-/

namespace MicroOS.Rtl8139
open Memory (Bytes slice storeBytes slice_length slice_append slice_storeBytes)
open Runs

def RX_BUF_SIZE : Nat := 8192

/-- The bit of a received frame in the status. -/
def ROK : BitVec 16 := 1

/-- The memory from `rx_buffer` on, the read pointer, the CAPR register, and what was handed to `recv`. -/
structure Driver where
  rx_buffer : Bytes
  current_packet_ptr : BitVec 32
  capr : BitVec 16
  received : List (List UInt8)

def load16 (m : Bytes) (a : Nat) : BitVec 16 := BitVec.ofNat 16 ((m a).toNat + 256 * (m (a + 1)).toNat)

def rtl8139_recieve (d : Driver) : Driver :=
  let t := d.current_packet_ptr.toNat
  let packet_length := (load16 d.rx_buffer (t + 2)).setWidth 32
  let current_packet_ptr := (d.current_packet_ptr + packet_length + 4 + 3) &&& ~~~3
  let current_packet_ptr :=
    if current_packet_ptr.toNat > RX_BUF_SIZE then current_packet_ptr - BitVec.ofNat 32 RX_BUF_SIZE else current_packet_ptr
  { d with
    received := d.received ++ [slice d.rx_buffer (t + 4) (packet_length - 4).toNat]
    current_packet_ptr := current_packet_ptr
    capr := (current_packet_ptr - 0x10).setWidth 16 }

def rtl8139_interrupt (d : Driver) (status : BitVec 16) : Driver := if status &&& ROK ≠ 0 then rtl8139_recieve d else d

/-- The driver, where the card writes next, where it wrote the first frame since the last interrupt, those frames, and the
    frames before them. -/
structure Ring where
  driver : Driver
  write : Nat
  first : Nat
  pending : List (List UInt8)
  announced : List (List UInt8)

/-- The header has a status and the length with the checksum. -/
def stored (status : BitVec 16) (frame crc : List UInt8) : List UInt8 :=
  let length := frame.length + 4
  [UInt8.ofNat status.toNat,UInt8.ofNat (status.toNat / 256),UInt8.ofNat length,UInt8.ofNat (length / 256)] ++ frame ++ crc

/-- The offset behind a frame, aligned, in the ring and before it is brought back into it. -/
def behind (offset size : Nat) : Nat := (offset + 4 + (size + 4) + 3) / 4 * 4

def receive (r : Ring) (status : BitVec 16) (frame crc : List UInt8) : Ring :=
  { r with
    driver := { r.driver with rx_buffer := storeBytes r.driver.rx_buffer r.write (stored status frame crc) }
    write := behind r.write frame.length % RX_BUF_SIZE
    pending := r.pending ++ [frame] }

def interrupt (r : Ring) (status : BitVec 16) : Ring :=
  { r with
    driver := rtl8139_interrupt r.driver status
    first := r.write
    pending := []
    announced := r.announced ++ r.pending }

inductive Action where
  | receive (status : BitVec 16) (frame crc : List UInt8)
  | interrupt (status : BitVec 16)

/-- A frame has from 60 to 1518 bytes, and the status of an interrupt tells whether one was received. -/
inductive Step : Ring → Action → Ring → Prop
  | receive (r : Ring) (status : BitVec 16) {frame crc : List UInt8} (low : 60 ≤ frame.length) (high : frame.length ≤ 1518)
      (sum : crc.length = 4) : Step r (.receive status frame crc) (receive r status frame crc)
  | interrupt (r : Ring) {status : BitVec 16} (tells : status &&& ROK ≠ 0 ↔ r.pending ≠ []) :
      Step r (.interrupt status) (interrupt r status)

def rtl8139 : System Ring Action where
  start r := ∃ rx_buffer, r = ⟨⟨rx_buffer,0,0,[]⟩,0,0,[],[]⟩
  step := Step

/-- The frames of all interrupts were handed on, in order, and the read pointer is the offset of the next header. -/
structure Correct (r : Ring) : Prop where
  received : r.driver.received = r.announced
  pointer : r.driver.current_packet_ptr.toNat = r.first
  inside : r.driver.current_packet_ptr.toNat < RX_BUF_SIZE

/-- An interrupt stands for one frame, which does not end where the ring ends. -/
def Single (r : Ring) : Action → Prop
  | .receive _ _ _ => True
  | .interrupt _ => r.pending = [] ∨ ∃ frame, r.pending = [frame] ∧ behind r.first frame.length ≠ RX_BUF_SIZE

section
variable {r t : Ring}

theorem stored_parts (m : Bytes) (a : Nat) (status : BitVec 16) (frame crc : List UInt8) :
    load16 (storeBytes m a (stored status frame crc)) (a + 2) = BitVec.ofNat 16 (frame.length + 4) ∧
      slice (storeBytes m a (stored status frame crc)) (a + 4) frame.length = frame := by
  have whole := slice_storeBytes m a (stored status frame crc)
  have length : (stored status frame crc).length = 4 + frame.length + crc.length := by
    simp [stored]
    omega
  rw [length,slice_append,slice_append] at whole
  obtain ⟨front,_⟩ := List.append_inj whole (by simp [stored]; omega)
  obtain ⟨header,content⟩ := List.append_inj front (by simp)
  refine ⟨?_,content⟩
  have bytes : ∀ i < 4, storeBytes m a (stored status frame crc) (a + i) =
      [UInt8.ofNat status.toNat,UInt8.ofNat (status.toNat / 256),UInt8.ofNat (frame.length + 4),
        UInt8.ofNat ((frame.length + 4) / 256)].getD i 0 := by
    intro i below
    rw [← header]
    simp [slice,below]
  have low := bytes 2 (by decide)
  have high := bytes 3 (by decide)
  rw [load16,low,show a + 2 + 1 = a + 3 from rfl,high]
  apply BitVec.eq_of_toNat_eq
  simp
  omega

/-- The driver is at the header of the first frame since the last interrupt; and if this is the only one, it is in the ring. -/
structure InStep (r : Ring) : Prop where
  correct : Correct r
  aligned : r.first % 4 = 0
  empty : r.pending = [] → r.write = r.first
  one : ∀ frame, r.pending = [frame] → frame.length ≤ 1518 ∧ r.write = behind r.first frame.length % RX_BUF_SIZE ∧
    load16 r.driver.rx_buffer (r.first + 2) = BitVec.ofNat 16 (frame.length + 4) ∧
    slice r.driver.rx_buffer (r.first + 4) frame.length = frame

theorem inStep_receive (inStep : InStep r) (status : BitVec 16) {frame crc : List UInt8} (high : frame.length ≤ 1518) :
    InStep (receive r status frame crc) := by
  refine ⟨⟨inStep.correct.received,inStep.correct.pointer,inStep.correct.inside⟩,inStep.aligned,?_,?_⟩
  · intro none_left
    simp [receive] at none_left
  · intro only alone
    have none_before : r.pending = [] ∧ frame = only := by
      cases earlier : r.pending with
      | nil => simpa [receive,earlier] using alone
      | cons first rest => simp [receive,earlier] at alone
    obtain ⟨none_before,rfl⟩ := none_before
    have place := inStep.empty none_before
    rw [receive]
    dsimp only
    rw [← place]
    exact ⟨high,rfl,stored_parts _ _ _ _ _⟩

/-- The pointer behind a frame. -/
theorem next_pointer {ptr : BitVec 32} {size : Nat} (inside : ptr.toNat < RX_BUF_SIZE) (short : size ≤ 1518) :
    ((ptr + (BitVec.ofNat 16 (size + 4)).setWidth 32 + 4 + 3) &&& ~~~3).toNat = behind ptr.toNat size := by
  have ring : RX_BUF_SIZE = 8192 := rfl
  have mask : (~~~(3 : BitVec 32)).toNat = 2 ^ 32 - 2 ^ 2 := rfl
  rw [BitVec.toNat_and,mask,Alignment.and_mask (w := 32) (k := 2) (by decide) (BitVec.isLt _)]
  have sum : (ptr + (BitVec.ofNat 16 (size + 4)).setWidth 32 + 4 + 3).toNat = ptr.toNat + 4 + (size + 4) + 3 := by
    rw [BitVec.toNat_add,BitVec.toNat_add,BitVec.toNat_add,BitVec.toNat_setWidth,BitVec.toNat_ofNat,
      show (4 : BitVec 32).toNat = 4 from rfl,show (3 : BitVec 32).toNat = 3 from rfl]
    omega
  rw [sum]
  norm_num [behind]

theorem interrupt_pending {status : BitVec 16} (tells : status &&& ROK ≠ 0 ↔ r.pending ≠ []) (some_frame : r.pending ≠ []) :
    (interrupt r status).driver = rtl8139_recieve r.driver := if_pos (tells.2 some_frame)

/-- What one interrupt for one frame does. -/
theorem interrupt_one (inStep : InStep r) {status : BitVec 16} {frame : List UInt8} (tells : status &&& ROK ≠ 0 ↔ r.pending ≠ [])
    (alone : r.pending = [frame]) :
    (interrupt r status).driver.received = r.announced ++ [frame] ∧
      (interrupt r status).driver.current_packet_ptr.toNat =
        if behind r.first frame.length > RX_BUF_SIZE then behind r.first frame.length - RX_BUF_SIZE else behind r.first frame.length := by
  obtain ⟨short,_,length,content⟩ := inStep.one frame alone
  have place := inStep.correct.pointer
  have inside := inStep.correct.inside
  rw [interrupt_pending tells (by simp [alone]),rtl8139_recieve]
  dsimp only
  rw [place,length]
  constructor
  · have size : ((BitVec.ofNat 16 (frame.length + 4)).setWidth 32 - 4 : BitVec 32).toNat = frame.length := by
      rw [BitVec.toNat_sub,BitVec.toNat_setWidth,BitVec.toNat_ofNat,show (4 : BitVec 32).toNat = 4 from rfl]
      omega
    rw [size,content,inStep.correct.received]
  · have next := next_pointer inside short
    rw [place] at next
    rw [next]
    have ring : RX_BUF_SIZE = 8192 := rfl
    have bound : behind r.first frame.length < 2 ^ 32 := by
      rw [← next]
      exact BitVec.isLt _
    split
    · rw [BitVec.toNat_sub,next,BitVec.toNat_ofNat]
      omega
    · exact next

theorem behind_spec (offset size : Nat) : behind offset size % 4 = 0 ∧ offset + 8 + size ≤ behind offset size ∧
    behind offset size ≤ offset + 11 + size := by
  rw [behind]
  omega

/-- An interrupt keeps the driver in step exactly when it stands for one frame that does not end with the ring. -/
theorem interrupt_inStep (inStep : InStep r) {status : BitVec 16} (tells : status &&& ROK ≠ 0 ↔ r.pending ≠ []) :
    (Single r (.interrupt status) → InStep (interrupt r status)) ∧ (Correct (interrupt r status) → Single r (.interrupt status)) := by
  have ring : RX_BUF_SIZE = 8192 := rfl
  have place := inStep.correct.pointer
  have inside := inStep.correct.inside
  rcases frames : r.pending with - | ⟨frame,rest⟩
  · refine ⟨fun _ => ?_,fun _ => .inl frames⟩
    have same : interrupt r status = r := by
      have quiet : rtl8139_interrupt r.driver status = r.driver := if_neg fun told => tells.1 told frames
      have home := inStep.empty frames
      obtain ⟨driver,write,first,pending,announced⟩ := r
      dsimp only at frames home
      subst frames home
      rw [interrupt,quiet,List.append_nil]
    rw [same]
    exact inStep
  · cases rest with
    | nil =>
      obtain ⟨received,pointer⟩ := interrupt_one inStep tells frames
      obtain ⟨short,write,_,_⟩ := inStep.one frame frames
      obtain ⟨multiple,above,below⟩ := behind_spec r.first frame.length
      constructor
      · rintro (none_left | ⟨other,alone,apart⟩)
        · rw [none_left] at frames
          cases frames
        · rw [frames] at alone
          obtain rfl := (List.cons.inj alone).1
          have next : (interrupt r status).driver.current_packet_ptr.toNat = r.write := by
            rw [pointer,write]
            rw [ring] at apart ⊢
            split <;> omega
          refine ⟨⟨?_,next,?_⟩,?_,fun _ => rfl,?_⟩
          · rw [received,interrupt,frames]
          · rw [next,write]
            exact Nat.mod_lt _ (by decide)
          · change r.write % 4 = 0
            rw [write,ring]
            omega
          · intro later here
            cases here
      · intro correct
        refine .inr ⟨frame,frames,fun ends => ?_⟩
        have bound := correct.inside
        rw [pointer,ends] at bound
        exact absurd bound (by decide)
    | cons second rest =>
      constructor
      · rintro (none_left | ⟨other,alone,_⟩)
        · rw [none_left] at frames
          cases frames
        · rw [frames] at alone
          cases alone
      · intro correct
        -- one frame was handed on, and two or more were announced
        have count := congrArg List.length correct.received
        rw [interrupt_pending tells (by simp [frames])] at count
        have before := congrArg List.length inStep.correct.received
        simp only [rtl8139_recieve,interrupt,frames,List.length_append,List.length_cons,List.length_nil] at count
        omega

theorem inStep_reached (reached : Reached (guarded rtl8139 Single) r) : InStep r := by
  refine guarded_invariant ?_ ?_ reached
  · rintro r ⟨rx_buffer,rfl⟩
    refine ⟨⟨rfl,rfl,(by decide : 0 < RX_BUF_SIZE)⟩,rfl,fun _ => rfl,?_⟩
    intro frame alone
    cases alone
  · rintro r a t inStep step single
    cases step with
    | receive status low high sum => exact inStep_receive inStep status high
    | interrupt tells => exact (interrupt_inStep inStep tells).1 single

end

/-- Along the runs whose interrupts each stand for at most one frame, one that does not end where the ring ends, the driver
    is in step; and the first interrupt of another kind brings it out of step. -/
theorem ring_in_step {r : Ring} (reached : Reached (guarded rtl8139 Single) r) :
    Correct r ∧ ∀ a t, rtl8139.step r a t → (Correct t ↔ Single r a) := by
  have inStep := inStep_reached reached
  refine ⟨inStep.correct,?_⟩
  rintro a t step
  cases step with
  | receive status low high sum => exact iff_of_true (inStep_receive inStep status high).correct trivial
  | interrupt tells =>
    obtain ⟨keeps,only⟩ := interrupt_inStep inStep tells
    exact ⟨only,fun single => (keeps single).correct⟩

/-- The ring before the first frame. -/
def empty_ring : Ring := ⟨⟨fun _ => 0,0,0,[]⟩,0,0,[],[]⟩

/-- A frame of so many equal bytes. -/
def frame (size : Nat) (byte : UInt8) : List UInt8 := List.replicate size byte

/-- A frame and its interrupt, an interrupt for something else, a longer frame and its interrupt. -/
def told_twice : Ring :=
  interrupt (receive (interrupt (interrupt (receive empty_ring 1 (frame 60 7) [1,2,3,4]) 1) 4) 1 (frame 61 9) [5,6,7,8]) 5

theorem ring_in_step_twice : told_twice.driver.received = [frame 60 7,frame 61 9] ∧ Correct told_twice ∧
    ∀ a t, rtl8139.step told_twice a t → (Correct t ↔ Single told_twice a) := by
  let one := receive empty_ring 1 (frame 60 7) [1,2,3,4]
  let two := interrupt (interrupt one 1) 4
  let three := receive two 1 (frame 61 9) [5,6,7,8]
  have first : (guarded rtl8139 Single).step empty_ring (.receive 1 (frame 60 7) [1,2,3,4]) one :=
    ⟨Step.receive _ _ (by decide) (by decide) rfl,trivial⟩
  have told : (guarded rtl8139 Single).step one (.interrupt 1) (interrupt one 1) :=
    ⟨Step.interrupt _ (iff_of_true (by decide) (List.cons_ne_nil _ _)),Or.inr ⟨_,rfl,by decide⟩⟩
  have other : (guarded rtl8139 Single).step (interrupt one 1) (.interrupt 4) two :=
    ⟨Step.interrupt _ (iff_of_false (by decide) (fun some_frame => some_frame rfl)),Or.inl rfl⟩
  have second : (guarded rtl8139 Single).step two (.receive 1 (frame 61 9) [5,6,7,8]) three :=
    ⟨Step.receive _ _ (by decide) (by decide) rfl,trivial⟩
  have told_again : (guarded rtl8139 Single).step three (.interrupt 5) told_twice :=
    ⟨Step.interrupt _ (iff_of_true (by decide) (List.cons_ne_nil _ _)),Or.inr ⟨_,rfl,by decide⟩⟩
  have both := ring_in_step ⟨_,_,⟨_,rfl⟩,.step first (.step told (.step other (.step second (.step told_again (.done _)))))⟩
  exact ⟨both.1.received,both⟩

/-- Two frames before the first interrupt: one of them is handed on. -/
theorem second_frame_left : ¬ ∀ r, Reached rtl8139 r → Correct r := by
  intro claim
  let one := receive empty_ring 1 (frame 60 0) [0,0,0,0]
  let two := receive one 1 (frame 60 0) [0,0,0,0]
  have first : Step empty_ring (.receive 1 (frame 60 0) [0,0,0,0]) one := .receive _ _ (by decide) (by decide) rfl
  have second : Step one (.receive 1 (frame 60 0) [0,0,0,0]) two := .receive _ _ (by decide) (by decide) rfl
  have told : Step two (.interrupt 1) (interrupt two 1) := .interrupt _ (iff_of_true (by decide) (by simp [two,receive]))
  have correct := claim _ ⟨empty_ring,_,⟨_,rfl⟩,.step first (.step second (.step told (.done _)))⟩
  have count := congrArg List.length correct.received
  exact absurd count (by decide)

end MicroOS.Rtl8139

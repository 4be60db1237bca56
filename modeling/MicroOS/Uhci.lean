import MicroOS.Runs
import MicroOS.CyclicSearch

/-!
A transfer takes a queue head and descriptors from two pools, queues them, waits for the controller and takes them back. A
descriptor is free while it is not marked active. The main theorem is `transfers_clean`: along which sequences of transfers no
descriptor is handed out twice or left active, and the head of the interrupt queue is given back.
-/
namespace MicroOS.Uhci
open Runs CyclicSearch

abbrev Word := BitVec 32

def UHCI_MAX_TDS : Nat := 128
def UHCI_MAX_QHS : Nat := 16
def UHCI_TD_LINK_TERMINATE : Word := 1
def UHCI_TD_LINK_QH : Word := 2
def UHCI_TD_LINK_DEPTH : Word := 4
def UHCI_TD_STATUS_ACTIVE : Word := 1 <<< 23
def UHCI_TD_STATUS_NAK : Word := 1 <<< 19
def UHCI_TD_STATUS_IOC : Word := 1 <<< 24
def UHCI_TD_STATUS_LS : Word := 1 <<< 26
/-- Stalled, data buffer, babble, CRC and bit stuffing errors. -/
def UHCI_TD_ERROR_MASK : Word := 1 <<< 22 ||| 1 <<< 21 ||| 1 <<< 20 ||| 1 <<< 18 ||| 1 <<< 17
def USB_PID_SETUP : Word := 0x2D
def USB_PID_IN : Word := 0x69
def USB_PID_OUT : Word := 0xE1
def USB_SPEED_LOW : BitVec 8 := 1
def USB_REQ_DEVICE_TO_HOST : BitVec 8 := 0x80

/-! ### The pools -/

structure Td where
  link : Word
  status : Word
  token : Word
  buffer : Word

structure Qh where
  head : Word
  element : Word

def Td.active (td : Td) : Bool := td.status &&& UHCI_TD_STATUS_ACTIVE ≠ 0

abbrev TdIndex := Fin 128
abbrev QhIndex := Fin 16

/-- `uhci_controller_t`: the pools with their addresses, and the status words that stand anywhere else. -/
structure Controller where
  td_base : Word
  qh_base : Word
  td_pool : TdIndex → Td
  qh_pool : QhIndex → Qh
  next_td : Nat
  next_qh : Nat
  qh_interrupt : QhIndex
  elsewhere : Word → Word

def td_address (hc : Controller) (td : TdIndex) : Word := hc.td_base + 32 * BitVec.ofNat 32 td
def qh_address (hc : Controller) (qh : QhIndex) : Word := hc.qh_base + 16 * BitVec.ofNat 32 qh

/-- The status word of the descriptor at an address. -/
def status_at (hc : Controller) (address : Word) : Word :=
  match (List.finRange 128).find? fun td => td_address hc td = address with
  | some td => (hc.td_pool td).status
  | none => hc.elsewhere address

def set_td (hc : Controller) (td : TdIndex) (new : Td) : Controller :=
  { hc with td_pool := fun i => if i = td then new else hc.td_pool i }

def set_qh (hc : Controller) (qh : QhIndex) (new : Qh) : Controller :=
  { hc with qh_pool := fun i => if i = qh then new else hc.qh_pool i }

def set_head (hc : Controller) (qh : QhIndex) (head : Word) : Controller := set_qh hc qh { hc.qh_pool qh with head := head }

def set_link (hc : Controller) (td : TdIndex) (link : Word) : Controller := set_td hc td { hc.td_pool td with link := link }

def alloc_td_loop : Nat → Controller → Controller × Option TdIndex
  | 0,hc => (hc,none)
  | attempts + 1,hc =>
    let td := slot 128 hc.next_td
    let hc := { hc with next_td := td + 1 }
    if (hc.td_pool td).active then alloc_td_loop attempts hc else (set_td hc td ⟨0,0,0,0⟩,some td)

def uhci_alloc_td (hc : Controller) : Controller × Option TdIndex := alloc_td_loop UHCI_MAX_TDS hc

/-- The queue head can be taken: it is not the interrupt queue's, and it does not point to an active descriptor. -/
def qh_free (hc : Controller) (qh : QhIndex) : Bool :=
  qh ≠ hc.qh_interrupt && !((hc.qh_pool qh).element ≠ 0 && (hc.qh_pool qh).element &&& UHCI_TD_LINK_TERMINATE = 0 &&
    status_at hc ((hc.qh_pool qh).element &&& ~~~ 0xF) &&& UHCI_TD_STATUS_ACTIVE ≠ 0)

def alloc_qh_loop : Nat → Controller → Controller × Option QhIndex
  | 0,hc => (hc,none)
  | attempts + 1,hc =>
    let qh := slot 16 hc.next_qh
    let hc := { hc with next_qh := qh + 1 }
    if qh_free hc qh then (set_qh hc qh ⟨0,0⟩,some qh) else alloc_qh_loop attempts hc

def uhci_alloc_qh (hc : Controller) : Controller × Option QhIndex := alloc_qh_loop UHCI_MAX_QHS hc

/-! ### The controller's work -/

/-- What the controller does to its list: it may finish descriptors and move on in a queue, but it activates none. -/
structure Hardware where
  status : Controller → TdIndex → Word
  element : Controller → QhIndex → Word
  elsewhere : Controller → Word → Word
  lawful : ∀ hc i, status hc i &&& UHCI_TD_STATUS_ACTIVE ≠ 0 → (hc.td_pool i).active = true

def Hardware.run (h : Hardware) (hc : Controller) : Controller :=
  { hc with
    td_pool := fun i => { hc.td_pool i with status := h.status hc i }
    qh_pool := fun q => { hc.qh_pool q with element := h.element hc q }
    elsewhere := h.elsewhere hc }

/-- The controller works until the descriptor is done, or the time is over. -/
def uhci_transfer_wait (hc : Controller) (td : TdIndex) (h : Hardware) : Controller × Bool :=
  let hc := h.run hc
  let status := (hc.td_pool td).status
  (hc,!(hc.td_pool td).active && status &&& UHCI_TD_STATUS_NAK = 0 && status &&& UHCI_TD_ERROR_MASK = 0)

/-- The waits for several descriptors, one after the other, until one fails. -/
def wait_all : List TdIndex → (Nat → Hardware) → Nat → Controller → Controller × Bool
  | [],_,_,hc => (hc,true)
  | td :: rest,hw,n,hc =>
    match uhci_transfer_wait hc td (hw n) with
    | (hc,true) => wait_all rest hw (n + 1) hc
    | (hc,false) => (hc,false)

/-! ### Transfers -/

structure Device where
  speed : BitVec 8
  address : BitVec 8
  interrupt_toggle : BitVec 8

/-- The length field holds one less than the length; only its low 11 bits fit. -/
def uhci_td_setup (speed addr endp toggle : BitVec 8) (pid : Word) (len : BitVec 16) (data : Word) : Td :=
  let status := UHCI_TD_STATUS_ACTIVE ||| 3 <<< 27
  let max_len : BitVec 16 := if len ≠ 0 then len - 1 else 0x7FF
  { link := UHCI_TD_LINK_TERMINATE
    status := if speed = USB_SPEED_LOW then status ||| UHCI_TD_STATUS_LS else status
    token := max_len.setWidth 32 <<< 21 ||| toggle.setWidth 32 <<< 19 ||| endp.setWidth 32 <<< 15 ||| addr.setWidth 32 <<< 8 ||| pid
    buffer := data }

/-- The descriptor is taken back. -/
def clear_active (hc : Controller) (td : TdIndex) : Controller :=
  set_td hc td { hc.td_pool td with status := (hc.td_pool td).status &&& ~~~ UHCI_TD_STATUS_ACTIVE }

/-- What a transfer leaves behind, and the descriptors that it obtained. -/
structure Result where
  hc : Controller
  ok : Bool
  obtained : List TdIndex

/-- The queue is linked in front of the others. -/
def queue (hc : Controller) (qh : QhIndex) (first : TdIndex) : Controller :=
  let hc := set_qh hc qh ⟨(hc.qh_pool hc.qh_interrupt).head,td_address hc first⟩
  set_head hc hc.qh_interrupt (qh_address hc qh ||| UHCI_TD_LINK_QH)

structure Setup where
  bmRequestType : BitVec 8
  address : Word

def uhci_control_transfer_impl (hc : Controller) (dev : Device) (setup : Setup) (data : Word) (len : BitVec 16)
    (hw : Nat → Hardware) : Result :=
  let (hc,qh) := uhci_alloc_qh hc
  let (hc,td_setup) := uhci_alloc_td hc
  let (hc,td_status) := uhci_alloc_td hc
  match qh,td_setup,td_status with
  | some qh,some td_setup,some td_status =>
    let to_host := setup.bmRequestType &&& USB_REQ_DEVICE_TO_HOST ≠ 0
    let hc := set_td hc td_setup (uhci_td_setup dev.speed dev.address 0 0 USB_PID_SETUP 8 setup.address)
    let status_pid := if len ≠ 0 then (if to_host then USB_PID_OUT else USB_PID_IN) else USB_PID_IN
    let last := uhci_td_setup dev.speed dev.address 0 1 status_pid 0 0
    let last := { last with status := last.status ||| UHCI_TD_STATUS_IOC }
    if len ≠ 0 ∧ data ≠ 0 then
      match uhci_alloc_td hc with
      | (hc,none) => ⟨hc,false,[td_setup,td_status]⟩
      | (hc,some td_data) =>
        let data_pid := if to_host then USB_PID_IN else USB_PID_OUT
        let hc := set_td hc td_data (uhci_td_setup dev.speed dev.address 0 1 data_pid len data)
        let hc := set_link hc td_setup (td_address hc td_data ||| UHCI_TD_LINK_DEPTH)
        let hc := set_link hc td_data (td_address hc td_status ||| UHCI_TD_LINK_DEPTH)
        let hc := set_td hc td_status last
        let (hc,ok) := wait_all [td_setup,td_data,td_status] hw 0 (queue hc qh td_setup)
        let hc := set_head hc hc.qh_interrupt (hc.qh_pool qh).head
        ⟨clear_active (clear_active (clear_active hc td_setup) td_data) td_status,ok,[td_setup,td_status,td_data]⟩
    else
      let hc := set_link hc td_setup (td_address hc td_status ||| UHCI_TD_LINK_DEPTH)
      let hc := set_td hc td_status last
      let (hc,ok) := wait_all [td_setup,td_status] hw 0 (queue hc qh td_setup)
      let hc := set_head hc hc.qh_interrupt (hc.qh_pool qh).head
      ⟨clear_active (clear_active hc td_setup) td_status,ok,[td_setup,td_status]⟩
  | _,_,_ => ⟨hc,false,td_setup.toList ++ td_status.toList⟩

structure Endpoint where
  bEndpointAddress : BitVec 8
  wMaxPacketSize : BitVec 16

/-- `halted`: the controller stays halted after a restart. -/
def uhci_interrupt_transfer_impl (hc : Controller) (dev : Device) (ep : Endpoint) (data : Word) (len : BitVec 16) (halted : Bool)
    (hw : Nat → Hardware) : Result :=
  if halted then ⟨hc,false,[]⟩
  else
    let (hc,qh) := uhci_alloc_qh hc
    let (hc,td) := uhci_alloc_td hc
    match qh,td with
    | some qh,some td =>
      let endp := ep.bEndpointAddress &&& 0x0F
      let hc := set_td hc td (uhci_td_setup dev.speed dev.address endp dev.interrupt_toggle USB_PID_IN len data)
      let saved_old_head := (hc.qh_pool hc.qh_interrupt).head
      let (hc,ok) := wait_all [td] hw 0 (queue hc qh td)
      let hc := set_head hc hc.qh_interrupt saved_old_head
      ⟨clear_active hc td,ok,[td]⟩
    | _,_ => ⟨hc,false,td.toList⟩

/-- The packets of a bulk transfer: where each begins, and its length. -/
def bulk_packets (max_pkt : Nat) : Nat → Nat → Nat → List (Nat × Nat)
  | 0,_,_ => []
  | n + 1,remaining,offset =>
    let pkt_len := if remaining > max_pkt then max_pkt else remaining
    (offset,pkt_len) :: bulk_packets max_pkt n (remaining - pkt_len) (offset + pkt_len)

def effective_max_pkt (ep : Endpoint) : Nat := if ep.wMaxPacketSize = 0 then 64 else ep.wMaxPacketSize.toNat

def bulk_tds (ep : Endpoint) (len : BitVec 16) : Nat :=
  if len = 0 then 1 else (len.toNat + effective_max_pkt ep - 1) / effective_max_pkt ep

/-- The loop that sets the descriptors up. The ones set up so far come last first; without a free one they are taken back. -/
def bulk_loop (dev : Device) (ep : Endpoint) (data : Word) :
    List (Nat × Nat) → BitVec 8 → List TdIndex → Controller → Controller × List TdIndex × Bool
  | [],_,tds,hc => (hc,tds,true)
  | (offset,pkt_len) :: rest,cur_toggle,tds,hc =>
    match uhci_alloc_td hc with
    | (hc,none) => (tds.reverse.foldl clear_active hc,tds,false)
    | (hc,some td) =>
      let endp := ep.bEndpointAddress &&& 0x0F
      let pid := if ep.bEndpointAddress &&& 0x80 ≠ 0 then USB_PID_IN else USB_PID_OUT
      let hc := set_td hc td (uhci_td_setup dev.speed dev.address endp cur_toggle pid (BitVec.ofNat 16 pkt_len)
        (data + BitVec.ofNat 32 offset))
      let hc := match tds with
        | [] => hc
        | before :: _ => set_link hc before (td_address hc td ||| UHCI_TD_LINK_DEPTH)
      bulk_loop dev ep data rest (cur_toggle ^^^ 1) (td :: tds) hc

def uhci_bulk_transfer_impl (hc : Controller) (dev : Device) (ep : Endpoint) (data : Word) (len : BitVec 16) (toggle : BitVec 8)
    (halted : Bool) (hw : Nat → Hardware) : Result :=
  if halted then ⟨hc,false,[]⟩
  else if bulk_tds ep len > UHCI_MAX_TDS / 2 then ⟨hc,false,[]⟩
  else
    match uhci_alloc_qh hc with
    | (hc,none) => ⟨hc,false,[]⟩
    | (hc,some qh) =>
      match bulk_loop dev ep data (bulk_packets (effective_max_pkt ep) (bulk_tds ep len) len.toNat 0) toggle [] hc with
      | (hc,tds,false) => ⟨hc,false,tds.reverse⟩
      | (hc,tds,true) =>
        let hc := match tds with
          | [] => hc
          | last :: _ => set_link hc last UHCI_TD_LINK_TERMINATE
        let saved_old_head := (hc.qh_pool hc.qh_interrupt).head
        let (hc,ok) := wait_all tds.reverse hw 0 (queue hc qh (tds.reverse.headD 0))
        let hc := set_head hc hc.qh_interrupt saved_old_head
        ⟨tds.reverse.foldl clear_active hc,ok,tds.reverse⟩

/-! ### Runs -/

/-- The transfers, each with what the controller does while it waits. -/
inductive Transfer where
  | control (dev : Device) (setup : Setup) (data : Word) (len : BitVec 16) (hw : Nat → Hardware)
  | interrupt (dev : Device) (ep : Endpoint) (data : Word) (len : BitVec 16) (halted : Bool) (hw : Nat → Hardware)
  | bulk (dev : Device) (ep : Endpoint) (data : Word) (len : BitVec 16) (toggle : BitVec 8) (halted : Bool) (hw : Nat → Hardware)

def perform (hc : Controller) : Transfer → Result
  | .control dev setup data len hw => uhci_control_transfer_impl hc dev setup data len hw
  | .interrupt dev ep data len halted hw => uhci_interrupt_transfer_impl hc dev ep data len halted hw
  | .bulk dev ep data len toggle halted hw => uhci_bulk_transfer_impl hc dev ep data len toggle halted hw

/-- The descriptors of the transfer were different and not in use, none is left active, and the interrupt queue has the head
    that it had. -/
structure Clean (hc : Controller) (r : Result) : Prop where
  distinct : r.obtained.Nodup
  unused : ∀ td ∈ r.obtained, (hc.td_pool td).active = false
  released : ∀ td ∈ r.obtained, (r.hc.td_pool td).active = false
  interrupt : r.hc.qh_interrupt = hc.qh_interrupt
  head : (r.hc.qh_pool hc.qh_interrupt).head = (hc.qh_pool hc.qh_interrupt).head

/-- A controller, and the transfers it has performed with the state before each. -/
structure World where
  hc : Controller
  performed : List (Controller × Result)

inductive Step : World → Option Transfer → World → Prop
  | transfer (w : World) (t : Transfer) : Step w (some t) ⟨(perform w.hc t).hc,w.performed ++ [(w.hc,perform w.hc t)]⟩
  | hardware (w : World) (h : Hardware) : Step w none ⟨h.run w.hc,w.performed⟩

/-- Any pools, and nothing performed. -/
def transfers : System World (Option Transfer) where
  start w := w.performed = []
  step := Step

def AllClean (w : World) : Prop := ∀ p ∈ w.performed, Clean p.1 p.2

/-- The number of free descriptors. -/
def free_tds (hc : Controller) : Nat := (Finset.univ.filter fun td => (hc.td_pool td).active = false).card

/-- A control transfer needs more than one free descriptor, and more than two with a data stage, or none at all. -/
def Roomy (hc : Controller) : Transfer → Prop
  | .control _ _ data len _ =>
    free_tds hc ≠ 1 ∧ ¬ (free_tds hc = 2 ∧ len ≠ 0 ∧ data ≠ 0 ∧ ∃ qh, qh_free hc qh = true)
  | _ => True

/-! ### Handing out -/

/-- The descriptor is handed out. -/
def taken (hc : Controller) (td : TdIndex) : Controller := set_td { hc with next_td := td + 1 } td ⟨0,0,0,0⟩

/-- Which descriptors are active. -/
def actives (hc : Controller) (td : TdIndex) : Bool := (hc.td_pool td).active

def td_free (hc : Controller) (td : TdIndex) : Bool := !actives hc td

theorem alloc_td_loop_search (attempts : Nat) (hc : Controller) :
    alloc_td_loop attempts hc =
      match search (td_free hc) attempts hc.next_td with
      | (some td,_) => (taken hc td,some td)
      | (none,next) => ({ hc with next_td := next },none) := by
  induction attempts generalizing hc with
  | zero => rfl
  | succ attempts ih =>
    rw [alloc_td_loop,search]
    dsimp only
    cases active : (hc.td_pool (slot 128 hc.next_td)).active with
    | false =>
      rw [if_neg Bool.false_ne_true,if_pos (by simp [td_free,actives,active])]
      rfl
    | true =>
      rw [if_pos rfl,if_neg (by simp [td_free,actives,active]),ih]
      rfl

theorem alloc_qh_loop_search (attempts : Nat) (hc : Controller) :
    alloc_qh_loop attempts hc =
      match search (qh_free hc) attempts hc.next_qh with
      | (some qh,next) => (set_qh { hc with next_qh := next } qh ⟨0,0⟩,some qh)
      | (none,next) => ({ hc with next_qh := next },none) := by
  induction attempts generalizing hc with
  | zero => rfl
  | succ attempts ih =>
    rw [alloc_qh_loop,search]
    cases free : qh_free hc (slot 16 hc.next_qh) with
    | true =>
      rw [if_pos rfl,if_pos (by exact free)]
    | false =>
      rw [if_neg (by exact Bool.eq_false_iff.1 free),if_neg Bool.false_ne_true,ih]
      rfl

theorem actives_set_td (hc : Controller) (td : TdIndex) (new : Td) (j : TdIndex) :
    actives (set_td hc td new) j = if j = td then new.active else actives hc j := by
  unfold actives set_td
  dsimp only
  split <;> rfl

theorem actives_set_link (hc : Controller) (td : TdIndex) (link : Word) : actives (set_link hc td link) = actives hc := by
  funext j
  rw [set_link,actives_set_td]
  split
  · rename_i same
    rw [same]
    rfl
  · rfl

theorem actives_taken {hc : Controller} {td : TdIndex} (free : actives hc td = false) : actives (taken hc td) = actives hc := by
  funext j
  rw [taken,actives_set_td]
  split
  · rename_i same
    rw [same,free]
    rfl
  · rfl

theorem actives_clear (hc : Controller) (td j : TdIndex) :
    actives (clear_active hc td) j = if j = td then false else actives hc j := by
  rw [clear_active,actives_set_td]
  have off : ∀ status : Word, status &&& ~~~ UHCI_TD_STATUS_ACTIVE &&& UHCI_TD_STATUS_ACTIVE = 0 := by
    intro status
    rw [BitVec.and_assoc,BitVec.and_comm (~~~ UHCI_TD_STATUS_ACTIVE),BitVec.and_not_self]
    simp
  congr 1
  simp [Td.active,off]

/-- The descriptors that are taken back are not active. -/
theorem actives_clear_all {tds : List TdIndex} {j : TdIndex} {hc : Controller} (member : j ∈ tds ∨ actives hc j = false) :
    actives (tds.foldl clear_active hc) j = false := by
  induction tds generalizing hc with
  | nil => exact member.resolve_left (by simp)
  | cons td rest ih =>
    refine ih ?_
    rw [actives_clear]
    by_cases same : j = td
    · exact .inr (if_pos same)
    · rw [if_neg same]
      exact member.imp_left fun inside => (List.mem_cons.1 inside).resolve_left same

theorem setup_active (speed addr endp toggle : BitVec 8) (pid : Word) (len : BitVec 16) (data : Word) :
    (uhci_td_setup speed addr endp toggle pid len data).active = true := by
  unfold uhci_td_setup Td.active
  dsimp only
  split <;> decide

theorem alloc_td_spec (hc : Controller) :
    (∃ td, uhci_alloc_td hc = (taken hc td,some td) ∧ actives hc td = false) ∨
    ∃ next, uhci_alloc_td hc = ({ hc with next_td := next },none) ∧ ∀ j, actives hc j = true := by
  rw [uhci_alloc_td,alloc_td_loop_search]
  rcases search_all (td_free hc) hc.next_td with ⟨td,found,free,_⟩ | ⟨next,found,all⟩
  · exact .inl ⟨td,by rw [UHCI_MAX_TDS,found],by simpa [td_free] using free⟩
  · exact .inr ⟨next,by rw [UHCI_MAX_TDS,found],fun j => by simpa [td_free] using all j⟩

/-- Right after a descriptor another one is handed out, unless all others are active. -/
theorem alloc_td_behind {hc : Controller} {td : TdIndex} (behind : hc.next_td = td.val + 1) :
    (∃ td', uhci_alloc_td hc = (taken hc td',some td') ∧ actives hc td' = false ∧
      (td' = td → ∀ k ≠ td, actives hc k = true)) ∨
    ∃ next, uhci_alloc_td hc = ({ hc with next_td := next },none) ∧ ∀ j, actives hc j = true := by
  rw [uhci_alloc_td,alloc_td_loop_search,behind]
  rcases search_behind (td_free hc) td with ⟨td',found,free,alone⟩ | ⟨next,found,all⟩
  · refine .inl ⟨td',by rw [UHCI_MAX_TDS,found],by simpa [td_free] using free,fun same k other => ?_⟩
    simpa [td_free] using alone same k other
  · exact .inr ⟨next,by rw [UHCI_MAX_TDS,found],fun j => by simpa [td_free] using all j⟩

theorem alloc_qh_spec (hc : Controller) :
    (∃ qh next, uhci_alloc_qh hc = (set_qh { hc with next_qh := next } qh ⟨0,0⟩,some qh) ∧ qh ≠ hc.qh_interrupt ∧
      ∃ qh, qh_free hc qh = true) ∨
    ∃ next, uhci_alloc_qh hc = ({ hc with next_qh := next },none) ∧ ¬ ∃ qh, qh_free hc qh = true := by
  rw [uhci_alloc_qh,alloc_qh_loop_search]
  rcases search_all (qh_free hc) hc.next_qh with ⟨qh,found,free,_⟩ | ⟨next,found,all⟩
  · refine .inl ⟨qh,_,by rw [UHCI_MAX_QHS,found],?_,qh,free⟩
    simp only [qh_free,Bool.and_eq_true,decide_eq_true_eq] at free
    exact free.1
  · exact .inr ⟨next,by rw [UHCI_MAX_QHS,found],fun some => by
      obtain ⟨qh,free⟩ := some
      rw [all qh] at free
      cases free⟩

/-! ### Heads -/

/-- The queues are as they were: the same interrupt queue, with the same head. -/
structure Kept (hc hc' : Controller) : Prop where
  interrupt : hc'.qh_interrupt = hc.qh_interrupt
  head : (hc'.qh_pool hc.qh_interrupt).head = (hc.qh_pool hc.qh_interrupt).head

theorem kept_of_queues {hc hc' : Controller} (interrupt : hc'.qh_interrupt = hc.qh_interrupt) (pool : hc'.qh_pool = hc.qh_pool) :
    Kept hc hc' :=
  ⟨interrupt,by rw [pool]⟩

theorem kept_trans {a b c : Controller} (first : Kept a b) (second : Kept b c) : Kept a c :=
  ⟨second.interrupt.trans first.interrupt,by
    have later := second.head
    rw [first.interrupt] at later
    exact later.trans first.head⟩

theorem clear_all_queues (tds : List TdIndex) (hc : Controller) :
    (tds.foldl clear_active hc).qh_interrupt = hc.qh_interrupt ∧ (tds.foldl clear_active hc).qh_pool = hc.qh_pool := by
  induction tds generalizing hc with
  | nil => exact ⟨rfl,rfl⟩
  | cons td rest ih => exact ih (clear_active hc td)

/-- The controller leaves the heads of the queues alone. -/
theorem wait_all_heads (tds : List TdIndex) (hw : Nat → Hardware) (n : Nat) (hc : Controller) :
    (wait_all tds hw n hc).1.qh_interrupt = hc.qh_interrupt ∧
      ∀ q, ((wait_all tds hw n hc).1.qh_pool q).head = (hc.qh_pool q).head := by
  induction tds generalizing n hc with
  | nil => exact ⟨rfl,fun _ => rfl⟩
  | cons td rest ih =>
    rw [wait_all]
    cases waited : uhci_transfer_wait hc td (hw n) with
    | mk hc' ok =>
      have run : hc' = (hw n).run hc := (congrArg Prod.fst waited).symm
      cases ok with
      | true =>
        obtain ⟨interrupt,heads⟩ := ih (n + 1) hc'
        rw [run] at interrupt heads ⊢
        exact ⟨interrupt,heads⟩
      | false =>
        rw [run]
        exact ⟨rfl,fun _ => rfl⟩

/-- After the waits the queue head of the transfer holds the old head of the interrupt queue. -/
theorem queued_heads {hc : Controller} {qh : QhIndex} (other : qh ≠ hc.qh_interrupt) (first : TdIndex) (tds : List TdIndex)
    (hw : Nat → Hardware) :
    (wait_all tds hw 0 (queue hc qh first)).1.qh_interrupt = hc.qh_interrupt ∧
      ((wait_all tds hw 0 (queue hc qh first)).1.qh_pool qh).head = (hc.qh_pool hc.qh_interrupt).head := by
  obtain ⟨interrupt,heads⟩ := wait_all_heads tds hw 0 (queue hc qh first)
  refine ⟨interrupt,(heads qh).trans ?_⟩
  simp [queue,set_head,set_qh,other]

/-- A transfer that was queued and gives the head back is clean when its descriptors are different and were free. -/
theorem queued_clean {hc before : Controller} {qh : QhIndex} {first : TdIndex} {tds obtained cleared : List TdIndex}
    {hw : Nat → Hardware} {head : Word} {ok : Bool} (kept : Kept hc before) (other : qh ≠ hc.qh_interrupt)
    (restored : head = (before.qh_pool before.qh_interrupt).head) (distinct : obtained.Nodup)
    (unused : ∀ td ∈ obtained, actives hc td = false) (all : ∀ td ∈ obtained, td ∈ cleared) :
    Clean hc ⟨cleared.foldl clear_active (set_head (wait_all tds hw 0 (queue before qh first)).1
      (wait_all tds hw 0 (queue before qh first)).1.qh_interrupt head),ok,obtained⟩ := by
  have elsewhere : qh ≠ before.qh_interrupt := by
    rw [kept.interrupt]
    exact other
  obtain ⟨interrupt,_⟩ := queued_heads elsewhere first tds hw
  obtain ⟨same,pool⟩ := clear_all_queues cleared (set_head (wait_all tds hw 0 (queue before qh first)).1
      (wait_all tds hw 0 (queue before qh first)).1.qh_interrupt head)
  refine ⟨distinct,unused,fun td member => actives_clear_all (.inl (all td member)),?_,?_⟩
  · rw [same]
    exact interrupt.trans kept.interrupt
  · dsimp only
    rw [pool,← kept.head,← kept.interrupt,interrupt,restored]
    simp [set_head,set_qh]

/-! ### Control transfers -/

/-- The descriptors outside a set of free ones are all active when there are no more free ones. -/
theorem free_exactly {hc : Controller} {tds : Finset TdIndex} (free : ∀ td ∈ tds, actives hc td = false) :
    free_tds hc = tds.card ↔ ∀ k ∉ tds, actives hc k = true := by
  have inside : tds ⊆ Finset.univ.filter fun td => (hc.td_pool td).active = false := by
    intro td member
    simpa [actives] using free td member
  constructor
  · intro same k outside
    have whole := Finset.eq_of_subset_of_card_le inside (by rw [← same,free_tds])
    rw [whole] at outside
    simpa [actives] using outside
  · intro others
    have whole : (Finset.univ.filter fun td => (hc.td_pool td).active = false) = tds := by
      apply Finset.Subset.antisymm _ inside
      intro k member
      by_contra outside
      have active := others k outside
      rw [actives,(Finset.mem_filter.1 member).2] at active
      cases active
    rw [free_tds,whole]

/-- Two descriptors are handed out one after the other. They are the same one exactly when there is no other. -/
theorem two_tds (hc : Controller) :
    (∃ a b, uhci_alloc_td hc = (taken hc a,some a) ∧ uhci_alloc_td (taken hc a) = (taken (taken hc a) b,some b) ∧
      actives hc a = false ∧ actives hc b = false ∧ (a = b ↔ free_tds hc = 1)) ∨
    ∃ next next', uhci_alloc_td hc = ({ hc with next_td := next },none) ∧
      uhci_alloc_td { hc with next_td := next } = ({ hc with next_td := next' },none) ∧ free_tds hc = 0 := by
  rcases alloc_td_spec hc with ⟨a,first,free_a⟩ | ⟨next,first,all⟩
  · have same : actives (taken hc a) = actives hc := actives_taken free_a
    have one := @free_exactly hc {a} (by simpa using free_a)
    rcases @alloc_td_behind (taken hc a) a rfl with ⟨b,second,free_b,alone⟩ | ⟨next,_,all⟩
    · rw [same] at free_b alone
      refine .inl ⟨a,b,first,second,free_a,free_b,?_⟩
      rw [Finset.card_singleton] at one
      rw [one]
      constructor
      · intro equal k other
        exact alone equal.symm k (by simpa using other)
      · intro others
        by_contra different
        have active := others b (by simpa using Ne.symm different)
        rw [free_b] at active
        cases active
    · have active := all a
      rw [same,free_a] at active
      cases active
  · rcases alloc_td_spec { hc with next_td := next } with ⟨b,_,free_b⟩ | ⟨next',second,_⟩
    · have active := all b
      rw [show actives hc b = false from free_b] at active
      cases active
    · refine .inr ⟨next,next',first,second,?_⟩
      exact (@free_exactly hc ∅ (by simp)).2 fun k _ => all k

/-- The descriptor of the data stage: the one of the status stage is still free. -/
theorem third_td {hc hc' : Controller} {a b : TdIndex} (behind : hc'.next_td = b.val + 1)
    (setup : ∀ j, actives hc' j = if j = a then true else actives hc j) (free_a : actives hc a = false)
    (free_b : actives hc b = false) (different : a ≠ b) :
    ∃ d, uhci_alloc_td hc' = (taken hc' d,some d) ∧ actives hc d = false ∧ d ≠ a ∧ (d = b ↔ free_tds hc = 2) := by
  have other_b : actives hc' b = false := by rw [setup,if_neg (Ne.symm different),free_b]
  rcases alloc_td_behind behind with ⟨d,third,free_d,alone⟩ | ⟨next,_,all⟩
  · have other : d ≠ a := by
      intro same
      rw [setup,if_pos same] at free_d
      cases free_d
    rw [setup,if_neg other] at free_d
    refine ⟨d,third,free_d,other,?_⟩
    have two := @free_exactly hc {a,b} (by simp [free_a,free_b])
    rw [Finset.card_pair different] at two
    rw [two]
    constructor
    · intro same k outside
      simp only [Finset.mem_insert,Finset.mem_singleton,not_or] at outside
      have active := alone same k outside.2
      rwa [setup,if_neg outside.1] at active
    · intro others
      by_contra neither
      have active := others d (by simp [other,neither])
      rw [free_d] at active
      cases active
  · have active := all b
    rw [other_b] at active
    cases active

/-- The queue head that is handed out is not the interrupt queue's, so that one stays as it is. -/
theorem kept_taken {hc : Controller} {qh : QhIndex} (next : Nat) (other : qh ≠ hc.qh_interrupt) :
    Kept hc (set_qh { hc with next_qh := next } qh ⟨0,0⟩) :=
  ⟨rfl,by simp [set_qh,Ne.symm other]⟩

section
variable {hc hc' : Controller} (kept : Kept hc hc') (td : TdIndex)
include kept

theorem kept_set_td (new : Td) : Kept hc (set_td hc' td new) :=
  ⟨kept.interrupt,kept.head⟩

theorem kept_set_link (link : Word) : Kept hc (set_link hc' td link) :=
  kept_set_td kept td _

theorem kept_td : Kept hc (taken hc' td) :=
  ⟨kept.interrupt,kept.head⟩

end

/-- A transfer that gives back the head that its queue head points to. -/
theorem returned_clean {hc before : Controller} {qh : QhIndex} {first : TdIndex} {tds obtained cleared : List TdIndex}
    {hw : Nat → Hardware} {ok : Bool} (kept : Kept hc before) (other : qh ≠ hc.qh_interrupt) (distinct : obtained.Nodup)
    (unused : ∀ td ∈ obtained, actives hc td = false) (all : ∀ td ∈ obtained, td ∈ cleared) :
    Clean hc ⟨cleared.foldl clear_active (set_head (wait_all tds hw 0 (queue before qh first)).1
      (wait_all tds hw 0 (queue before qh first)).1.qh_interrupt
      ((wait_all tds hw 0 (queue before qh first)).1.qh_pool qh).head),ok,obtained⟩ := by
  have elsewhere : qh ≠ before.qh_interrupt := fun equal => other (equal.trans kept.interrupt)
  exact queued_clean kept other (queued_heads elsewhere first tds hw).2 distinct unused all

/-- A transfer that gives up before it has activated any descriptor is clean when its descriptors are different and were free. -/
theorem early_clean {hc hc' : Controller} {obtained : List TdIndex} (kept : Kept hc hc') (same : actives hc' = actives hc)
    (distinct : obtained.Nodup) (unused : ∀ td ∈ obtained, actives hc td = false) : Clean hc ⟨hc',false,obtained⟩ :=
  ⟨distinct,unused,fun td member => (congrFun same td).trans (unused td member),kept.interrupt,kept.head⟩

theorem actives_setup {hc hc' : Controller} {a b : TdIndex} {new : Td} (active : actives hc' = actives hc)
    (free_a : actives hc a = false) (free_b : actives hc b = false) (activated : new.active = true) (j : TdIndex) :
    actives (set_td (taken (taken hc' a) b) a new) j = if j = a then true else actives hc j := by
  have first : actives (taken hc' a) = actives hc := (actives_taken (by rw [active,free_a])).trans active
  have second : actives (taken (taken hc' a) b) = actives hc := (actives_taken (by rw [first,free_b])).trans first
  rw [actives_set_td,activated,second]

theorem control_clean (hc : Controller) (dev : Device) (setup : Setup) (data : Word) (len : BitVec 16) (hw : Nat → Hardware) :
    Clean hc (uhci_control_transfer_impl hc dev setup data len hw) ↔ Roomy hc (.control dev setup data len hw) := by
  unfold uhci_control_transfer_impl
  rcases alloc_qh_spec hc with ⟨qh,next,got,other,some_qh⟩ | ⟨next,got,no_qh⟩
  · rw [got]
    have kept := kept_taken next other
    have count : free_tds (set_qh { hc with next_qh := next } qh ⟨0,0⟩) = free_tds hc := rfl
    have active : actives (set_qh { hc with next_qh := next } qh ⟨0,0⟩) = actives hc := rfl
    generalize set_qh { hc with next_qh := next } qh ⟨0,0⟩ = hc₁ at kept count active
    rcases two_tds hc₁ with ⟨a,b,first,second,free_a,free_b,one⟩ | ⟨n,n',first,second,zero⟩
    · dsimp only
      rw [first]
      dsimp only
      rw [second]
      dsimp only
      rw [active] at free_a free_b
      rw [count] at one
      have unused : ∀ td ∈ [a,b], actives hc td = false := by simp [free_a,free_b]
      by_cases staged : len ≠ 0 ∧ data ≠ 0
      · rw [if_pos staged]
        by_cases same : a = b
        · -- The setup stage and the status stage share the only descriptor.
          have twice : ∀ r : Result, (∃ rest, r.obtained = a :: b :: rest) → ¬ Clean hc r := by
            intro r ⟨rest,obtained⟩ clean
            have distinct := clean.distinct
            rw [obtained,same] at distinct
            simp at distinct
          refine iff_of_false (twice _ ?_) fun roomy => roomy.1 (one.1 same)
          rcases alloc_td_spec (set_td (taken (taken hc₁ a) b) a
            (uhci_td_setup dev.speed dev.address 0 0 USB_PID_SETUP 8 setup.address)) with ⟨d,third,_⟩ | ⟨n,third,_⟩
          · rw [third]
            exact ⟨_,rfl⟩
          · rw [third]
            exact ⟨_,rfl⟩
        · obtain ⟨d,third,free_d,d_a,two⟩ := @third_td hc (set_td (taken (taken hc₁ a) b) a
            (uhci_td_setup dev.speed dev.address 0 0 USB_PID_SETUP 8 setup.address)) a b rfl (actives_setup active free_a free_b
              (setup_active ..)) free_a free_b same
          rw [third]
          by_cases shared : d = b
          · -- The data stage takes the descriptor of the status stage, which is not active yet.
            refine iff_of_false (fun clean => ?_) fun roomy => roomy.2 ⟨two.1 shared,staged.1,staged.2,some_qh⟩
            have distinct := clean.distinct
            simp [shared] at distinct
          · refine iff_of_true ?_ ⟨fun zero => same (one.2 zero),fun both => shared (two.2 both.1)⟩
            have setup := kept_set_td (kept_td (kept_td kept a) b) a
            refine @returned_clean hc _ qh a [a,d,b] [a,b,d] [a,d,b] hw _ (kept_set_td (kept_set_link (kept_set_link
              (kept_set_td (kept_td (setup _) d) d _) a _) d _) b _) other ?_ ?_ ?_
            · simp [same,Ne.symm d_a,Ne.symm shared]
            · simp [free_a,free_b,free_d]
            · simp
      · rw [if_neg staged]
        by_cases same : a = b
        · refine iff_of_false (fun clean => ?_) fun roomy => roomy.1 (one.1 same)
          have distinct := clean.distinct
          simp [same] at distinct
        · refine iff_of_true ?_ ⟨fun zero => same (one.2 zero),fun both => staged ⟨both.2.1,both.2.2.1⟩⟩
          refine @returned_clean hc _ qh a [a,b] [a,b] [a,b] hw _ (kept_set_td (kept_set_link (kept_set_td
            (kept_td (kept_td kept a) b) a _) a _) b _) other ?_ unused ?_
          · simp [same]
          · simp
    · dsimp only
      rw [first]
      dsimp only
      rw [second]
      dsimp only
      rw [count] at zero
      have clean : Clean hc ⟨{ hc₁ with next_td := n' },false,[]⟩ :=
        early_clean ⟨kept.interrupt,kept.head⟩ active List.nodup_nil (by simp)
      exact ⟨fun _ => ⟨by omega,fun both => by omega⟩,fun _ => clean⟩
  · rw [got]
    have count : free_tds { hc with next_qh := next } = free_tds hc := rfl
    rcases two_tds { hc with next_qh := next } with ⟨a,b,first,second,free_a,free_b,one⟩ | ⟨n,n',first,second,zero⟩
    · dsimp only
      rw [first]
      dsimp only
      rw [second]
      dsimp only
      rw [count] at one
      by_cases same : a = b
      · refine iff_of_false (fun clean => ?_) fun roomy => roomy.1 (one.1 same)
        have distinct := clean.distinct
        simp [same] at distinct
      · refine iff_of_true ?_ ⟨fun zero => same (one.2 zero),fun both => no_qh both.2.2.2⟩
        refine early_clean ⟨rfl,rfl⟩ ?_ ?_ ?_
        · have first : actives (taken { hc with next_qh := next } a) = actives hc := actives_taken free_a
          exact (actives_taken (by rw [first]; exact free_b)).trans first
        · simpa using same
        · intro td member
          rcases List.mem_pair.1 member with rfl | rfl
          · exact free_a
          · exact free_b
    · dsimp only
      rw [first]
      dsimp only
      rw [second]
      dsimp only
      rw [count] at zero
      have clean : Clean hc ⟨{ hc with next_qh := next, next_td := n' },false,[]⟩ :=
        early_clean ⟨rfl,rfl⟩ rfl List.nodup_nil (by simp)
      exact ⟨fun _ => ⟨by omega,fun both => by omega⟩,fun _ => clean⟩

/-! ### The other transfers -/

theorem interrupt_clean (hc : Controller) (dev : Device) (ep : Endpoint) (data : Word) (len : BitVec 16) (halted : Bool)
    (hw : Nat → Hardware) : Clean hc (uhci_interrupt_transfer_impl hc dev ep data len halted hw) := by
  unfold uhci_interrupt_transfer_impl
  cases halted with
  | true => exact early_clean ⟨rfl,rfl⟩ rfl List.nodup_nil (by simp)
  | false =>
    rw [if_neg Bool.false_ne_true]
    rcases alloc_qh_spec hc with ⟨qh,next,got,other,_⟩ | ⟨next,got,_⟩
    · rw [got]
      have kept := kept_taken next other
      have active : actives (set_qh { hc with next_qh := next } qh ⟨0,0⟩) = actives hc := rfl
      generalize set_qh { hc with next_qh := next } qh ⟨0,0⟩ = hc₁ at kept active
      rcases alloc_td_spec hc₁ with ⟨td,first,free⟩ | ⟨n,first,_⟩
      · dsimp only
        rw [first]
        rw [active] at free
        refine @queued_clean hc _ qh td [td] [td] [td] hw _ _ ⟨kept.interrupt,kept.head⟩ other rfl ?_ ?_ ?_
        · simp
        · simp [free]
        · simp
      · dsimp only
        rw [first]
        exact early_clean ⟨kept.interrupt,kept.head⟩ active List.nodup_nil (by simp)
    · rw [got]
      rcases alloc_td_spec { hc with next_qh := next } with ⟨td,first,free⟩ | ⟨n,first,_⟩
      · dsimp only
        rw [first]
        refine early_clean ⟨rfl,rfl⟩ (actives_taken free) ?_ fun j member => ?_
        · simp
        · rw [List.mem_singleton.1 member]
          exact free
      · dsimp only
        rw [first]
        exact early_clean ⟨rfl,rfl⟩ rfl List.nodup_nil (by simp)

/-- What the loop has set up so far: the descriptors are different and were free, and no other one has become active. -/
structure SetUp (before hc : Controller) (tds : List TdIndex) : Prop where
  kept : Kept before hc
  distinct : tds.Nodup
  unused : ∀ td ∈ tds, actives before td = false
  active : ∀ j, actives hc j = (decide (j ∈ tds) || actives before j)

theorem set_up_next {before hc : Controller} {tds : List TdIndex} {td : TdIndex} {new : Td} (now : SetUp before hc tds)
    (free : actives hc td = false) (activated : new.active = true) : SetUp before (set_td (taken hc td) td new) (td :: tds) := by
  have here := now.active td
  rw [free,Eq.comm,Bool.or_eq_false_iff,decide_eq_false_iff_not] at here
  refine ⟨⟨now.kept.interrupt,now.kept.head⟩,List.nodup_cons.2 ⟨here.1,now.distinct⟩,?_,fun j => ?_⟩
  · intro j member
    rcases List.mem_cons.1 member with rfl | inside
    · exact here.2
    · exact now.unused j inside
  · rw [actives_set_td,activated,actives_taken free,now.active]
    by_cases same : j = td <;> simp [same]

theorem set_up_link {before hc : Controller} {tds : List TdIndex} (td : TdIndex) (link : Word) (now : SetUp before hc tds) :
    SetUp before (set_link hc td link) tds :=
  ⟨⟨now.kept.interrupt,now.kept.head⟩,now.distinct,now.unused,fun j => by rw [actives_set_link,now.active]⟩

/-- The loop sets descriptors up, or takes back the ones that it had. -/
theorem bulk_loop_spec {before : Controller} (dev : Device) (ep : Endpoint) (data : Word) (packets : List (Nat × Nat))
    (toggle : BitVec 8) {tds : List TdIndex} {hc : Controller} (now : SetUp before hc tds) :
    (∃ tds' hc', bulk_loop dev ep data packets toggle tds hc = (hc',tds',true) ∧ SetUp before hc' tds') ∨
    ∃ tds' hc', bulk_loop dev ep data packets toggle tds hc = (hc',tds',false) ∧ Kept before hc' ∧ tds'.Nodup ∧
      ∀ td ∈ tds', actives before td = false ∧ actives hc' td = false := by
  induction packets generalizing toggle tds hc with
  | nil => exact .inl ⟨tds,hc,rfl,now⟩
  | cons packet rest ih =>
    rcases alloc_td_spec hc with ⟨td,found,free⟩ | ⟨next,found,_⟩
    · rw [bulk_loop,found]
      cases tds with
      | nil => exact ih _ (set_up_next now free (setup_active ..))
      | cons last others => exact ih _ (set_up_link _ _ (set_up_next now free (setup_active ..)))
    · obtain ⟨interrupt,pool⟩ := clear_all_queues tds.reverse { hc with next_td := next }
      refine .inr ⟨tds,tds.reverse.foldl clear_active { hc with next_td := next },?_,?_,now.distinct,fun td member => ?_⟩
      · rw [bulk_loop,found]
      · exact kept_trans now.kept (kept_of_queues interrupt pool)
      · exact ⟨now.unused td member,actives_clear_all (.inl (List.mem_reverse.2 member))⟩

theorem bulk_clean (hc : Controller) (dev : Device) (ep : Endpoint) (data : Word) (len : BitVec 16) (toggle : BitVec 8)
    (halted : Bool) (hw : Nat → Hardware) : Clean hc (uhci_bulk_transfer_impl hc dev ep data len toggle halted hw) := by
  have nothing : ∀ {hc' : Controller}, Kept hc hc' → actives hc' = actives hc → Clean hc ⟨hc',false,[]⟩ :=
    fun kept same => early_clean kept same List.nodup_nil (by simp)
  unfold uhci_bulk_transfer_impl
  cases halted with
  | true => exact nothing ⟨rfl,rfl⟩ rfl
  | false =>
    rw [if_neg Bool.false_ne_true]
    by_cases large : bulk_tds ep len > UHCI_MAX_TDS / 2
    · rw [if_pos large]
      exact nothing ⟨rfl,rfl⟩ rfl
    · rw [if_neg large]
      rcases alloc_qh_spec hc with ⟨qh,next,got,other,_⟩ | ⟨next,got,_⟩
      · rw [got]
        have begins : SetUp hc (set_qh { hc with next_qh := next } qh ⟨0,0⟩) [] :=
          ⟨kept_taken next other,List.nodup_nil,by simp,fun j => by simp; rfl⟩
        dsimp only
        rcases bulk_loop_spec dev ep data (bulk_packets (effective_max_pkt ep) (bulk_tds ep len) len.toNat 0) toggle begins with
          ⟨tds,hc',set_up,now⟩ | ⟨tds,hc',failed,kept,distinct,both⟩
        · rw [set_up]
          cases tds with
          | nil =>
            exact @queued_clean hc hc' qh 0 [] [] [] hw _ _ now.kept other rfl List.nodup_nil (by simp) (by simp)
          | cons last others =>
            have kept := (set_up_link last UHCI_TD_LINK_TERMINATE now).kept
            refine @queued_clean hc _ qh _ (last :: others).reverse (last :: others).reverse (last :: others).reverse hw _ _ kept
              other rfl (List.nodup_reverse.2 now.distinct) (fun td member => ?_) fun td member => member
            exact now.unused td (List.mem_reverse.1 member)
        · rw [failed]
          refine ⟨List.nodup_reverse.2 distinct,fun td member => ?_,fun td member => ?_,kept.interrupt,kept.head⟩
          · exact (both td (List.mem_reverse.1 member)).1
          · exact (both td (List.mem_reverse.1 member)).2
      · rw [got]
        exact nothing ⟨rfl,rfl⟩ rfl

/-! ### Whole runs -/

/-- A transfer is clean exactly with enough room for it. -/
theorem perform_clean (hc : Controller) (t : Transfer) : Clean hc (perform hc t) ↔ Roomy hc t := by
  cases t with
  | control dev setup data len hw => exact control_clean hc dev setup data len hw
  | interrupt dev ep data len halted hw => exact iff_of_true (interrupt_clean hc dev ep data len halted hw) trivial
  | bulk dev ep data len toggle halted hw => exact iff_of_true (bulk_clean hc dev ep data len toggle halted hw) trivial

/-- The step is no transfer, or one with enough room. -/
def HasRoom (w : World) (a : Option Transfer) : Prop := ∀ t ∈ a, Roomy w.hc t

theorem step_clean (w : World) (a : Option Transfer) (u : World) (clean : AllClean w) (step : Step w a u) :
    (AllClean u ↔ HasRoom w a) ∧ (HasRoom w a → AllClean u) := by
  suffices both : AllClean u ↔ HasRoom w a from ⟨both,both.2⟩
  cases step with
  | transfer t =>
    have last : HasRoom w (some t) ↔ Clean w.hc (perform w.hc t) := by simp [HasRoom,perform_clean]
    rw [last]
    constructor
    · intro all
      exact all _ (List.mem_append_right _ (List.mem_singleton.2 rfl))
    · intro here p member
      rcases List.mem_append.1 member with before | now
      · exact clean p before
      · rw [List.mem_singleton.1 now]
        exact here
  | hardware h => exact iff_of_true clean fun t none => by cases none

/-- In the runs whose transfers all have enough room every transfer is clean, and the next one is clean exactly when there is
    enough room for it too. -/
theorem transfers_clean {w : World} (reached : Reached (guarded transfers HasRoom) w) :
    AllClean w ∧ ∀ a u, Step w a u → (AllClean u ↔ HasRoom w a) :=
  guarded_exact (fun s begins p member => by
    rw [show s.performed = [] from begins] at member
    cases member) (fun _ clean => clean) step_clean reached

/-- A controller whose descriptors with some numbers are free. -/
def some_free (free : TdIndex → Bool) : Controller :=
  { td_base := 0x1000
    qh_base := 0x3000
    td_pool := fun i => ⟨0,if free i then 0 else UHCI_TD_STATUS_ACTIVE,0,0⟩
    qh_pool := fun _ => ⟨UHCI_TD_LINK_TERMINATE,UHCI_TD_LINK_TERMINATE⟩
    next_td := 0
    next_qh := 1
    qh_interrupt := 0
    elsewhere := fun _ => 0 }

theorem actives_some_free (free : TdIndex → Bool) (td : TdIndex) : actives (some_free free) td = !free td := by
  change decide ((if free td then 0 else UHCI_TD_STATUS_ACTIVE) &&& UHCI_TD_STATUS_ACTIVE ≠ 0) = !free td
  cases free td <;> decide

/-- Nothing happens on the bus. -/
def silent : Hardware := ⟨fun hc i => (hc.td_pool i).status,fun hc q => (hc.qh_pool q).element,fun hc => hc.elsewhere,fun _ _ active => by
  simpa [Td.active] using active⟩

/-- A request without a data stage, as for an address. -/
def set_address : Transfer := .control ⟨0,0,0⟩ ⟨0,0x4000⟩ 0 0 fun _ => silent

theorem transfers_clean_first : AllClean ⟨(perform (some_free fun _ => true) set_address).hc,
    [(some_free fun _ => true,perform (some_free fun _ => true) set_address)]⟩ := by
  have count : free_tds (some_free fun _ => true) = Finset.univ.card :=
    (free_exactly fun td _ => by rw [actives_some_free]; rfl).2 fun td outside => absurd (Finset.mem_univ td) outside
  rw [Finset.card_fin] at count
  have room : HasRoom ⟨some_free fun _ => true,[]⟩ (some set_address) := by
    intro t same
    rw [← Option.some.inj (Option.mem_def.1 same)]
    refine ⟨?_,fun both => both.2.1 rfl⟩
    dsimp only
    omega
  exact (transfers_clean ⟨⟨_,[]⟩,[_],by exact rfl,.step ⟨.transfer _ _,room⟩ (.done _)⟩).1

/-- With one free descriptor left the setup stage and the status stage of a control transfer get the same one. -/
theorem last_td_twice : ¬ ∀ w, Reached transfers w → AllClean w := by
  intro always
  have count : free_tds (some_free fun td => td = 5) = Finset.card {(5 : TdIndex)} := by
    refine (free_exactly ?_).2 ?_
    · intro td inside
      simpa [actives_some_free] using inside
    · intro td outside
      simpa [actives_some_free] using outside
  generalize some_free (fun td => td = 5) = hc at count
  have all := always _ ⟨⟨hc,[]⟩,[some set_address],by exact rfl,.step (.transfer _ set_address) (.done _)⟩
  have clean := all (hc,perform hc set_address) (by simp)
  exact ((perform_clean hc set_address).1 clean).1 count

end MicroOS.Uhci

import Mathlib.Tactic

/-! The configuration of a USB device when it is enumerated (`uhci/driver.c`). A result is none when a read leaves
`config_buf`. -/

namespace MicroOS.UsbDescriptors
open Option (bind_eq_bind bind_eq_some_iff bind_some some.inj)

def USB_DESC_INTERFACE : UInt8 := 4
def USB_DESC_ENDPOINT : UInt8 := 5

/-- The buffer is cleared before the device fills it. -/
def config_buf (content : List UInt8) : List UInt8 := content.take 256 ++ List.replicate (256 - content.length) 0

/-- The pointers of the loop. -/
structure Found where
  iface : Option Nat
  endp : Option Nat

/-- The fields of a descriptor are read for a message, if messages are logged. -/
def logged (log : Bool) (buf : List UInt8) (ptr size : Nat) : Option Unit :=
  if log = false ∨ ptr + size ≤ buf.length then some () else none

def walk (log : Bool) (buf : List UInt8) (stop : Nat) : Nat → Nat → Found → Option Found
  | 0,_,_ => none
  | turns + 1,ptr,s =>
    if ptr < stop then do
      let desc_len ← buf[ptr]?
      let desc_type ← buf[ptr + 1]?
      if desc_len = 0 then pure s
      else if desc_type = USB_DESC_INTERFACE then do
        let _ ← logged log buf ptr 8
        walk log buf stop turns (ptr + desc_len.toNat) {s with iface := some ptr}
      else if desc_type = USB_DESC_ENDPOINT then do
        let _ ← logged log buf ptr 7
        walk log buf stop turns (ptr + desc_len.toNat) {s with endp := some ptr}
      else walk log buf stop turns (ptr + desc_len.toNat) s
    else pure s

/-- `memcpy` of a descriptor -/
def copy (buf : List UInt8) (ptr size : Nat) : Option (List UInt8) :=
  if ptr + size ≤ buf.length then some ((buf.drop ptr).take size) else none

/-- What is kept of a pointer that may be NULL. -/
def copy_found (buf : List UInt8) (size : Nat) : Option Nat → Option (Option (List UInt8))
  | none => some none
  | some ptr => (copy buf ptr size).map some

/-- The descriptors in the record of the device, and the pointers given to its driver. -/
structure Device where
  config_desc : List UInt8
  interface_desc : Option (List UInt8)
  endpoint_desc : Option (List UInt8)
  attached : Option (Nat × Option Nat)

/-- The record of the device, from the pointers of the loop. -/
def record (slot hub : Bool) (buf : List UInt8) (s : Found) : Option (Option Device) :=
  if slot then do
    let config_desc ← copy buf 0 9
    let interface_desc ← copy_found buf 9 s.iface
    let endpoint_desc ← copy_found buf 7 s.endp
    pure (some ⟨config_desc,interface_desc,endpoint_desc,if hub then none else s.iface.map fun iface => (iface,s.endp)⟩)
  else pure none

/-- The part of the enumeration behind the transfer of the configuration; there may be no free slot for the device. -/
def uhci_enumerate_usb_device (turns : Nat) (log slot hub : Bool) (content : List UInt8) : Option (Option Device) := do
  let buf := config_buf content
  let bLength ← buf[0]?
  let low ← buf[2]?
  let high ← buf[3]?
  let wTotalLength := low.toNat + 256 * high.toNat
  let s ← walk log buf wTotalLength turns bLength.toNat ⟨none,none⟩
  record slot hub buf s

section
variable (buf : List UInt8) (stop : Nat)

/-- The places where descriptors are looked for: each its length behind the last, until the length is zero. -/
def places (ptr : Nat) : List Nat :=
  if ptr < stop then
    ptr :: if buf.getD ptr 0 = 0 then [] else places (ptr + (buf.getD ptr 0).toNat)
  else []
termination_by stop - ptr
decreasing_by
  have : 0 < (buf.getD ptr 0).toNat := by
    rw [Nat.pos_iff_ne_zero]
    intro zero
    rename_i nonzero
    exact nonzero (UInt8.toNat_inj.mp zero)
  omega

/-- The descriptors of a type among them. -/
def of_type (type : UInt8) (ptr : Nat) : List Nat := (places buf stop ptr).filter fun p => buf.getD p 0 ≠ 0 && buf.getD (p + 1) 0 == type

def interfaces (ptr : Nat) : List Nat := of_type buf stop USB_DESC_INTERFACE ptr
def endpoints (ptr : Nat) : List Nat := of_type buf stop USB_DESC_ENDPOINT ptr

/-- The bytes used of a descriptor: its length and type, and the fields of an interface or an endpoint. -/
def used (interface_size endpoint_size p : Nat) : Nat :=
  if buf.getD p 0 = 0 then 2
  else if buf.getD (p + 1) 0 = USB_DESC_INTERFACE then interface_size
  else if buf.getD (p + 1) 0 = USB_DESC_ENDPOINT then endpoint_size
  else 2

end

variable {buf : List UInt8}

theorem length_pos {ptr : Nat} (nonzero : buf.getD ptr 0 ≠ 0) : 0 < (buf.getD ptr 0).toNat :=
  Nat.pos_of_ne_zero fun zero => nonzero (UInt8.toNat_inj.mp zero)

section
variable {buf : List UInt8} {stop ptr : Nat}

theorem places_past (past : stop ≤ ptr) : places buf stop ptr = [] := by
  rw [places,if_neg (Nat.not_lt.mpr past)]

theorem places_zero (inside : ptr < stop) (zero : buf.getD ptr 0 = 0) : places buf stop ptr = [ptr] := by
  rw [places,if_pos inside,if_pos zero]

theorem places_next (inside : ptr < stop) (nonzero : buf.getD ptr 0 ≠ 0) :
    places buf stop ptr = ptr :: places buf stop (ptr + (buf.getD ptr 0).toNat) := by
  rw [places,if_pos inside,if_neg nonzero]

/-- The places lie behind one another. -/
theorem places_ge {p : Nat} (mem : p ∈ places buf stop ptr) : ptr ≤ p := by
  induction h : stop - ptr using Nat.strong_induction_on generalizing ptr with
  | _ n ih =>
    by_cases inside : ptr < stop
    · by_cases zero : buf.getD ptr 0 = 0
      · rw [places_zero inside zero,List.mem_singleton] at mem
        exact mem.ge
      · rw [places_next inside zero,List.mem_cons] at mem
        have := length_pos zero
        obtain rfl | later := mem
        · exact le_refl p
        · have := ih _ (by omega) later rfl
          omega
    · rw [places_past (Nat.le_of_not_lt inside)] at mem
      cases mem

theorem places_sorted : (places buf stop ptr).Pairwise (· < ·) := by
  induction h : stop - ptr using Nat.strong_induction_on generalizing ptr with
  | _ n ih =>
    by_cases inside : ptr < stop
    · by_cases zero : buf.getD ptr 0 = 0
      · rw [places_zero inside zero]
        exact List.pairwise_singleton _ _
      · have := length_pos zero
        rw [places_next inside zero,List.pairwise_cons]
        refine ⟨fun p mem => ?_,ih _ (by omega) rfl⟩
        have := places_ge mem
        omega
    · rw [places_past (Nat.le_of_not_lt inside)]
      exact .nil

theorem of_type_past {type : UInt8} (past : stop ≤ ptr) : of_type buf stop type ptr = [] := by
  rw [of_type,places_past past]
  rfl

theorem of_type_zero {type : UInt8} (inside : ptr < stop) (zero : buf.getD ptr 0 = 0) : of_type buf stop type ptr = [] := by
  rw [of_type,places_zero inside zero,List.filter_cons,zero]
  rfl

theorem of_type_next {type : UInt8} (inside : ptr < stop) (nonzero : buf.getD ptr 0 ≠ 0) :
    of_type buf stop type ptr = (if buf.getD (ptr + 1) 0 = type then [ptr] else []) ++ of_type buf stop type (ptr + (buf.getD ptr 0).toNat) := by
  rw [of_type,places_next inside nonzero,List.filter_cons,of_type]
  split_ifs with same named <;> simp_all

end

/-- The bytes that the loop itself reads. -/
def loop_used (log : Bool) (buf : List UInt8) (p : Nat) : Nat := used buf (if log then 8 else 2) (if log then 7 else 2) p

/-- The last of the list is kept, or the pointer in front of it. -/
theorem getLast_cons_or (ptr : Nat) (l : List Nat) (i : Option Nat) : (ptr :: l).getLast?.or i = l.getLast?.or (some ptr) := by
  cases h : l.getLast? <;> simp [List.getLast?_cons,h]

section
variable {log : Bool} {buf : List UInt8} {stop : Nat}

theorem getD_some {p : Nat} {b : UInt8} (read : buf[p]? = some b) : buf.getD p 0 = b := by simp [List.getD,read]

theorem read_some {p : Nat} (inside : p + 2 ≤ buf.length) : buf[p]? = some (buf.getD p 0) ∧ buf[p + 1]? = some (buf.getD (p + 1) 0) := by
  have first : p < buf.length := by omega
  have second : p + 1 < buf.length := by omega
  simp [List.getD,first,second]

variable {ptr turns : Nat} {s : Found}

/-- The last descriptor of a type, as it is found one step later. -/
theorem last_next {type : UInt8} {i : Option Nat} (inside : ptr < stop) (nonzero : buf.getD ptr 0 ≠ 0) :
    (of_type buf stop type (ptr + (buf.getD ptr 0).toNat)).getLast?.or (if buf.getD (ptr + 1) 0 = type then some ptr else i) =
      (of_type buf stop type ptr).getLast?.or i := by
  rw [of_type_next inside nonzero]
  by_cases same : buf.getD (ptr + 1) 0 = type
  · rw [if_pos same,if_pos same]
    exact (getLast_cons_or ptr _ i).symm
  · rw [if_neg same,if_neg same]
    rfl

/-- The bytes of a descriptor that the loop reads. -/
theorem loop_used_ge (p : Nat) : 2 ≤ loop_used log buf p := by
  unfold loop_used used
  split_ifs <;> omega

theorem read_inside {p : Nat} {a b : UInt8} (low : buf[p]? = some a) (high : buf[p + 1]? = some b) :
    a = buf.getD p 0 ∧ b = buf.getD (p + 1) 0 ∧ p + 2 ≤ buf.length := by
  obtain ⟨bound,_⟩ := List.getElem?_eq_some_iff.mp high
  exact ⟨(getD_some low).symm,(getD_some high).symm,by omega⟩

/-- The loop as it reads a descriptor with a length: the message is the last read. -/
theorem walk_next (inside : ptr < stop) (here : ptr + 2 ≤ buf.length) (nonzero : buf.getD ptr 0 ≠ 0) :
    walk log buf stop (turns + 1) ptr s =
      if ptr + loop_used log buf ptr ≤ buf.length then
        walk log buf stop turns (ptr + (buf.getD ptr 0).toNat)
          ⟨if buf.getD (ptr + 1) 0 = USB_DESC_INTERFACE then some ptr else s.iface,
            if buf.getD (ptr + 1) 0 = USB_DESC_ENDPOINT then some ptr else s.endp⟩
      else none := by
  obtain ⟨low,high⟩ := read_some here
  rw [walk,if_pos inside,low,high,bind_eq_bind,bind_some,bind_eq_bind,bind_some,if_neg nonzero]
  by_cases iface : buf.getD (ptr + 1) 0 = USB_DESC_INTERFACE
  · have other : buf.getD (ptr + 1) 0 ≠ USB_DESC_ENDPOINT := by
      rw [iface]
      decide
    simp only [if_pos iface,if_neg other,loop_used,used,if_neg nonzero,logged]
    cases log
    · simp [here]
    · simp
      split_ifs <;> rfl
  · rw [if_neg iface,if_neg iface]
    by_cases endp : buf.getD (ptr + 1) 0 = USB_DESC_ENDPOINT
    · rw [if_pos endp,if_pos endp,loop_used,used,if_neg nonzero,if_neg iface,if_pos endp,logged]
      cases log
      · simp [here]
      · simp
        split_ifs <;> rfl
    · rw [if_neg endp,if_neg endp,loop_used,used,if_neg nonzero,if_neg iface,if_neg endp,if_pos here]

/-- A loop that ends has read every descriptor in the buffer, and keeps the last of each kind. -/
theorem walk_some {s' : Found} (ran : walk log buf stop turns ptr s = some s') :
    (∀ p ∈ places buf stop ptr, p + loop_used log buf p ≤ buf.length) ∧ s'.iface = (interfaces buf stop ptr).getLast?.or s.iface ∧
      s'.endp = (endpoints buf stop ptr).getLast?.or s.endp := by
  induction turns generalizing ptr s with
  | zero => cases ran
  | succ turns ih =>
    by_cases inside : ptr < stop
    · have here : ptr + 2 ≤ buf.length := by
        rw [walk,if_pos inside] at ran
        obtain ⟨low,read_low,ran⟩ := bind_eq_some_iff.mp ran
        obtain ⟨high,read_high,ran⟩ := bind_eq_some_iff.mp ran
        exact (read_inside read_low read_high).2.2
      by_cases zero : buf.getD ptr 0 = 0
      · obtain ⟨low,high⟩ := read_some here
        rw [walk,if_pos inside,low,high,bind_eq_bind,bind_some,bind_eq_bind,bind_some,if_pos zero] at ran
        obtain rfl := some.inj ran
        rw [places_zero inside zero,interfaces,endpoints,of_type_zero inside zero,of_type_zero inside zero]
        simp only [List.mem_singleton,forall_eq,loop_used,used,zero]
        exact ⟨here,rfl,rfl⟩
      · rw [walk_next inside here zero] at ran
        by_cases fits : ptr + loop_used log buf ptr ≤ buf.length
        case neg => simp [fits] at ran
        rw [if_pos fits] at ran
        obtain ⟨rest,iface,endp⟩ := ih ran
        rw [places_next inside zero]
        exact ⟨List.forall_mem_cons.mpr ⟨fits,rest⟩,iface.trans (last_next inside zero),endp.trans (last_next inside zero)⟩
    · rw [walk,if_neg inside] at ran
      obtain rfl := some.inj ran
      have past := Nat.le_of_not_lt inside
      simp [interfaces,endpoints,of_type_past past,places_past past]

/-- The loop ends: every descriptor lies behind the last. -/
theorem walk_runs (enough : stop - ptr < turns)
    (fits : ∀ p ∈ places buf stop ptr, p + loop_used log buf p ≤ buf.length) : ∃ s', walk log buf stop turns ptr s = some s' := by
  induction turns generalizing ptr s with
  | zero => omega
  | succ turns ih =>
    by_cases inside : ptr < stop
    · by_cases zero : buf.getD ptr 0 = 0
      · rw [places_zero inside zero] at fits
        have here : ptr + 2 ≤ buf.length := (Nat.add_le_add_left (loop_used_ge ptr) ptr).trans (fits ptr (List.mem_singleton_self ptr))
        obtain ⟨low,high⟩ := read_some here
        rw [walk,if_pos inside,low,high,bind_eq_bind,bind_some,bind_eq_bind,bind_some,if_pos zero]
        exact ⟨s,rfl⟩
      · rw [places_next inside zero] at fits
        obtain ⟨first,rest⟩ := List.forall_mem_cons.mp fits
        have here : ptr + 2 ≤ buf.length := (Nat.add_le_add_left (loop_used_ge ptr) ptr).trans first
        rw [walk_next inside here zero,if_pos first]
        have := length_pos zero
        exact ih (by omega) rest
    · rw [walk,if_neg inside]
      exact ⟨s,rfl⟩

end

section
variable (buf : List UInt8)

/-- Where the first descriptor behind the configuration is. -/
def first : Nat := (buf.getD 0 0).toNat

def wTotalLength : Nat := (buf.getD 2 0).toNat + 256 * (buf.getD 3 0).toNat

def last_interface : Option Nat := (interfaces buf (wTotalLength buf) (first buf)).getLast?
def last_endpoint : Option Nat := (endpoints buf (wTotalLength buf) (first buf)).getLast?

/-- An endpoint belongs to the interface in front of it. -/
structure Belongs (iface endp : Nat) : Prop where
  interface : iface ∈ interfaces buf (wTotalLength buf) (first buf)
  endpoint : endp ∈ endpoints buf (wTotalLength buf) (first buf)
  front : iface < endp
  nearest : ∀ p ∈ interfaces buf (wTotalLength buf) (first buf), p ≤ iface ∨ endp < p

end

/-- The enumeration ends without a read outside of the buffer, and what is given to the driver of the device lies in it. -/
def Parsed (log slot hub : Bool) (content : List UInt8) : Prop :=
  ∃ turns r, uhci_enumerate_usb_device turns log slot hub content = some r ∧ ∀ d, r = some d → ∀ iface endp, d.attached = some (iface,endp) →
    iface + 9 ≤ 256 ∧ ∀ e, endp = some e → e + 7 ≤ 256 ∧ Belongs (config_buf content) iface e

/-- The descriptors that are read lie in the buffer, and the last endpoint behind the last interface. -/
structure Proper (log slot hub : Bool) (buf : List UInt8) : Prop where
  read : ∀ p ∈ places buf (wTotalLength buf) (first buf), p + loop_used log buf p ≤ 256
  interface : slot = true → ∀ i, last_interface buf = some i → i + 9 ≤ 256
  endpoint : slot = true → ∀ e, last_endpoint buf = some e → e + 7 ≤ 256
  order : slot = true → hub = false → ∀ i e, last_interface buf = some i → last_endpoint buf = some e → i < e

theorem config_buf_length (content : List UInt8) : (config_buf content).length = 256 := by
  rw [config_buf,List.length_append,List.length_take,List.length_replicate]
  omega

theorem of_type_sorted {stop ptr : Nat} {type : UInt8} : (of_type buf stop type ptr).Pairwise (· < ·) :=
  places_sorted.filter _

theorem last_ge {l : List Nat} (sorted : l.Pairwise (· < ·)) {i p : Nat} (last : l.getLast? = some i) (mem : p ∈ l) : p ≤ i := by
  obtain ⟨front,rfl⟩ := List.getLast?_eq_some_iff.mp last
  obtain before | here := List.mem_append.mp mem
  · exact ((List.pairwise_append.mp sorted).2.2 p before i (List.mem_singleton_self i)).le
  · exact (List.mem_singleton.mp here).le

theorem belongs_iff {i e : Nat} (iface : last_interface buf = some i) (endp : last_endpoint buf = some e) :
    Belongs buf i e ↔ i < e := by
  refine ⟨Belongs.front,fun front => ⟨List.mem_of_getLast? iface,List.mem_of_getLast? endp,front,fun p mem => ?_⟩⟩
  exact .inl (last_ge of_type_sorted iface mem)

theorem copy_found_iff {size : Nat} {found : Option Nat} :
    (∃ d, copy_found buf size found = some d) ↔ ∀ ptr, found = some ptr → ptr + size ≤ buf.length := by
  cases found with
  | none => simp [copy_found]
  | some ptr =>
    simp only [copy_found,copy,Option.some.injEq,forall_eq']
    split_ifs with fits <;> simp [fits]

theorem enumerate_eq (turns : Nat) (log slot hub : Bool) (content : List UInt8) :
    uhci_enumerate_usb_device turns log slot hub content =
      (walk log (config_buf content) (wTotalLength (config_buf content)) turns (first (config_buf content)) ⟨none,none⟩).bind
        (record slot hub (config_buf content)) := by
  have length := config_buf_length content
  obtain ⟨bLength,_⟩ := @read_some (config_buf content) 0 (by omega)
  obtain ⟨low,high⟩ := @read_some (config_buf content) 2 (by omega)
  simp only [uhci_enumerate_usb_device,bLength,low,high,bind_eq_bind,bind_some]
  rfl

section
variable {turns : Nat} {log slot hub : Bool} {buf : List UInt8}

/-- The pointers behind a loop that ends. -/
theorem walk_found {s : Found} (ran : walk log buf (wTotalLength buf) turns (first buf) ⟨none,none⟩ = some s) :
    s = ⟨last_interface buf,last_endpoint buf⟩ := by
  obtain ⟨_,iface,endp⟩ := walk_some ran
  cases s
  simp only [Option.or_none] at iface endp
  rw [iface,endp]
  rfl

theorem record_some {s : Found} {r : Option Device} (length : buf.length = 256) (made : record true hub buf s = some r) :
    (∀ i, s.iface = some i → i + 9 ≤ 256) ∧ (∀ e, s.endp = some e → e + 7 ≤ 256) ∧
      ∃ d, r = some d ∧ d.attached = if hub then none else s.iface.map fun iface => (iface,s.endp) := by
  rw [record,if_pos rfl] at made
  obtain ⟨config_desc,_,made⟩ := bind_eq_some_iff.mp made
  obtain ⟨interface_desc,iface,made⟩ := bind_eq_some_iff.mp made
  obtain ⟨endpoint_desc,endp,made⟩ := bind_eq_some_iff.mp made
  obtain rfl := some.inj made
  exact ⟨length ▸ copy_found_iff.mp ⟨_,iface⟩,length ▸ copy_found_iff.mp ⟨_,endp⟩,_,rfl,rfl⟩

theorem record_made {s : Found} (length : buf.length = 256) (iface : slot = true → ∀ i, s.iface = some i → i + 9 ≤ 256)
    (endp : slot = true → ∀ e, s.endp = some e → e + 7 ≤ 256) : ∃ r, record slot hub buf s = some r := by
  cases slot with
  | false => exact ⟨none,rfl⟩
  | true =>
    obtain ⟨interface_desc,made_iface⟩ := copy_found_iff.mpr (length.symm ▸ iface rfl)
    obtain ⟨endpoint_desc,made_endp⟩ := copy_found_iff.mpr (length.symm ▸ endp rfl)
    have config : copy buf 0 9 = some ((buf.drop 0).take 9) := if_pos (by omega)
    rw [record,if_pos rfl,config,made_iface,made_endp]
    exact ⟨_,rfl⟩

end

section
variable {log slot hub : Bool} {content : List UInt8}

theorem parsed_proper (parsed : Parsed log slot hub content) : Proper log slot hub (config_buf content) := by
  have length := config_buf_length content
  rw [Parsed] at parsed
  simp only [enumerate_eq] at parsed
  generalize config_buf content = buf at length parsed ⊢
  obtain ⟨turns,r,ran,right⟩ := parsed
  obtain ⟨s,walked,made⟩ := bind_eq_some_iff.mp ran
  have read := (walk_some walked).1
  rw [length] at read
  obtain rfl := walk_found walked
  cases slot with
  | false => exact ⟨read,nofun,nofun,nofun⟩
  | true =>
    obtain ⟨iface,endp,d,rfl,attached⟩ := record_some length made
    refine ⟨read,fun _ => iface,fun _ => endp,?_⟩
    rintro _ rfl i e last_iface last_endp
    rw [if_neg Bool.false_ne_true,last_iface,last_endp] at attached
    exact ((right d rfl i (some e) attached).2 e rfl).2.front

theorem proper_parsed (proper : Proper log slot hub (config_buf content)) : Parsed log slot hub content := by
  have length := config_buf_length content
  rw [Parsed]
  simp only [enumerate_eq]
  generalize config_buf content = buf at length proper ⊢
  obtain ⟨read,iface,endp,order⟩ := proper
  obtain ⟨s,walked⟩ := walk_runs (s := ⟨none,none⟩) (Nat.lt_succ_self _) (length.symm ▸ read)
  obtain rfl := walk_found walked
  obtain ⟨r,made⟩ := @record_made slot hub buf ⟨last_interface buf,last_endpoint buf⟩ length iface endp
  refine ⟨(wTotalLength buf - first buf).succ,r,?_,?_⟩
  · rw [walked]
    exact made
  · rintro d rfl i e attached
    cases slot with
    | false => cases made
    | true =>
      obtain ⟨_,_,_,kept,given⟩ := record_some length made
      obtain rfl := some.inj kept
      rw [attached] at given
      cases hub with
      | true => cases given
      | false =>
        obtain ⟨i',last_iface,same⟩ := Option.map_eq_some_iff.mp given.symm
        obtain ⟨rfl,rfl⟩ := Prod.mk.inj same
        refine ⟨iface rfl i' last_iface,fun e last_endp => ⟨endp rfl e last_endp,?_⟩⟩
        exact (belongs_iff last_iface last_endp).mpr (order rfl rfl i' e last_iface last_endp)

end

/-- The configuration is parsed inside of its buffer, and the endpoint belongs to the interface, exactly where the
descriptors are proper: a total length beyond the buffer, or an interface behind the last endpoint, is not checked. -/
theorem configuration_parsed (log slot hub : Bool) (content : List UInt8) :
    Parsed log slot hub content ↔ Proper log slot hub (config_buf content) :=
  ⟨parsed_proper,proper_parsed⟩

/-- An interface with an endpoint, and one without behind it. -/
def composite : List UInt8 :=
  [9,2,34,0,2,1,0,128,50] ++ [9,4,0,0,1,8,6,80,0] ++ [7,5,129,2,64,0,0] ++ [9,4,1,0,0,255,0,0,0]

/-- The endpoint of the first interface is given to the driver with the second. -/
theorem composite_endpoint : ¬Parsed false true false composite := by
  intro parsed
  have places_eq : places (config_buf composite) 34 9 = [9,18,25] := by
    rw [places_next (by decide) (by decide),places_next (by decide) (by decide),places_next (by decide) (by decide),places_past (by decide)]
    decide
  have iface : last_interface (config_buf composite) = some 25 := by
    have : interfaces (config_buf composite) 34 9 = [9,25] := by
      rw [interfaces,of_type,places_eq]
      decide
    exact congrArg List.getLast? this
  have endp : last_endpoint (config_buf composite) = some 18 := by
    have : endpoints (config_buf composite) 34 9 = [18] := by
      rw [endpoints,of_type,places_eq]
      decide
    exact congrArg List.getLast? this
  have := (parsed_proper parsed).order rfl rfl 25 18 iface endp
  omega

end MicroOS.UsbDescriptors

import Mathlib.Tactic
import MicroOS.Mailbox

/-!
The driver reads a report of the keys that are down whenever it is asked for a character or an arrow, and finds the presses by the
report before. It holds one character and one arrow until they are asked for. What a run of polls returns is `keyboard_delivers`.
-/
namespace MicroOS.UsbKeyboard
open Mailbox (Turn put answers periods waiting)

def codes (s : List Char) : List Int := s.map fun c => c.toNat

/-- The numbers are the control characters, the backslash, the quotes and the braces. -/
def usb_hid_to_ascii : List Int :=
  [0,0,0,0] ++
  codes ['a','b','c','d','e','f','g','h','i','j','k','l','m'] ++ codes ['n','o','p','q','r','s','t','u','v','w','x','y','z'] ++
  codes ['1','2','3','4','5','6','7','8','9','0'] ++ [10,0x1B,8,9] ++ codes [' ','-','=','[',']'] ++ [92,0] ++
  codes [';'] ++ [39,96] ++ codes [',','.','/']

def usb_hid_to_ascii_shift : List Int :=
  [0,0,0,0] ++
  codes ['A','B','C','D','E','F','G','H','I','J','K','L','M'] ++ codes ['N','O','P','Q','R','S','T','U','V','W','X','Y','Z'] ++
  codes ['!','@','#','$','%','^','&','*','(',')'] ++ [10,0x1B,8,9] ++ codes [' ','_','+'] ++ [123,125] ++ codes ['|'] ++ [0] ++
  codes [':'] ++ [34] ++ codes ['~','<','>','?']

def USB_HID_KEY_RIGHT_ARROW : UInt8 := 0x4F
def USB_HID_KEY_LEFT_ARROW : UInt8 := 0x50
def USB_HID_KEY_DOWN_ARROW : UInt8 := 0x51
def USB_HID_KEY_UP_ARROW : UInt8 := 0x52
def USB_HID_KEY_F1 : UInt8 := 0x3A
def USB_HID_KEY_F12 : UInt8 := 0x45

structure special_keys_down_t where
  left_shift : Bool := false
  left_ctrl : Bool := false
  left_alt : Bool := false
  left_gui : Bool := false
  right_shift : Bool := false
  right_ctrl : Bool := false
  right_alt : Bool := false
  right_gui : Bool := false
  caps_lock : Bool := false
  up_arrow : Bool := false
  down_arrow : Bool := false
  left_arrow : Bool := false
  right_arrow : Bool := false
deriving DecidableEq

inductive keyboard_arrow where
  | none
  | up
  | down
  | left
  | right
deriving DecidableEq

structure usb_keyboard_report_t where
  modifiers : UInt8
  keys : Vector UInt8 6

/-- The pointers `hc` and `dev` are true when they are not NULL. -/
structure usb_keyboard_data_t where
  hc : Bool
  dev : Bool
  prev_report : usb_keyboard_report_t := ⟨0,Vector.replicate 6 0⟩
  special_keys_down : special_keys_down_t := {}
  character : Int := 0
  arrow : keyboard_arrow := .none
  active : Bool := false

def usb_keyboard_update_modifiers (keys : special_keys_down_t) (modifiers : UInt8) : special_keys_down_t :=
  { keys with
    left_ctrl := modifiers &&& 1 != 0
    left_shift := modifiers &&& 2 != 0
    left_alt := modifiers &&& 4 != 0
    left_gui := modifiers &&& 8 != 0
    right_ctrl := modifiers &&& 16 != 0
    right_shift := modifiers &&& 32 != 0
    right_alt := modifiers &&& 64 != 0
    right_gui := modifiers &&& 128 != 0 }

def usb_keyboard_key_in_report (report : usb_keyboard_report_t) (key : UInt8) : Bool := report.keys.toList.contains key

def usb_keyboard_translate_key (key : UInt8) (mods : special_keys_down_t) : Int :=
  let shifted := mods.left_shift || mods.right_shift || mods.caps_lock
  if key.toNat < usb_hid_to_ascii.length then
    let c := (if shifted then usb_hid_to_ascii_shift else usb_hid_to_ascii).getD key.toNat 0
    if mods.caps_lock ∧ !mods.left_shift ∧ !mods.right_shift then
      if 97 ≤ c ∧ c ≤ 122 then c - 97 + 65 else c
    else if mods.caps_lock ∧ (mods.left_shift || mods.right_shift) then
      if 65 ≤ c ∧ c ≤ 90 then c - 65 + 97 else c
    else c
  else 0

/-- A call of `global_fkey_handler`. -/
structure Fkey where
  f : Nat
  up : Bool
deriving DecidableEq

def ctrl (keys : special_keys_down_t) : Bool := keys.left_ctrl || keys.right_ctrl

def letter (c : Int) : Prop := 97 ≤ c ∧ c ≤ 122 ∨ 65 ≤ c ∧ c ≤ 90

instance (c : Int) : Decidable (letter c) := inferInstanceAs (Decidable (_ ∨ _))

section
variable (shortcuts : List Int)

/-- `shortcuts` are the keys of the shortcuts that are registered. -/
def execute_shortcut (key : Int) : Bool := shortcuts.contains key

/-- The character of a key that is neither an arrow nor an F key nor caps lock, or 0. -/
def key_character (key : UInt8) (keys : special_keys_down_t) : Int :=
  let c := usb_keyboard_translate_key key keys
  let c := if ctrl keys ∧ letter c ∧ execute_shortcut shortcuts c then 0 else c
  if ctrl keys ∧ c = 100 then -1 else c

/-- A key of the report that was not in the one before. -/
def key_down (data : usb_keyboard_data_t) (key : UInt8) : usb_keyboard_data_t × List Fkey :=
  let keys := data.special_keys_down
  if key = USB_HID_KEY_UP_ARROW then ({ data with arrow := .up,special_keys_down := { keys with up_arrow := true } },[])
  else if key = USB_HID_KEY_DOWN_ARROW then ({ data with arrow := .down,special_keys_down := { keys with down_arrow := true } },[])
  else if key = USB_HID_KEY_LEFT_ARROW then ({ data with arrow := .left,special_keys_down := { keys with left_arrow := true } },[])
  else if key = USB_HID_KEY_RIGHT_ARROW then ({ data with arrow := .right,special_keys_down := { keys with right_arrow := true } },[])
  else if USB_HID_KEY_F1 ≤ key ∧ key ≤ USB_HID_KEY_F12 then (data,[⟨key.toNat - USB_HID_KEY_F1.toNat + 1,false⟩])
  else if key = 0x39 then ({ data with special_keys_down := { keys with caps_lock := !keys.caps_lock } },[])
  else
    let c := key_character shortcuts key keys
    if c ≠ 0 then ({ data with character := c },[]) else (data,[])

/-- A key of the report before that is not in this one. -/
def key_up (data : usb_keyboard_data_t) (key : UInt8) : usb_keyboard_data_t × List Fkey :=
  let keys := data.special_keys_down
  if key = USB_HID_KEY_UP_ARROW then ({ data with special_keys_down := { keys with up_arrow := false } },[])
  else if key = USB_HID_KEY_DOWN_ARROW then ({ data with special_keys_down := { keys with down_arrow := false } },[])
  else if key = USB_HID_KEY_LEFT_ARROW then ({ data with special_keys_down := { keys with left_arrow := false } },[])
  else if key = USB_HID_KEY_RIGHT_ARROW then ({ data with special_keys_down := { keys with right_arrow := false } },[])
  else if USB_HID_KEY_F1 ≤ key ∧ key ≤ USB_HID_KEY_F12 then (data,[⟨key.toNat - USB_HID_KEY_F1.toNat + 1,true⟩])
  else (data,[])

/-- A loop over the keys of a report, for the ones that are down and not in the other report. -/
def changed (body : usb_keyboard_data_t → UInt8 → usb_keyboard_data_t × List Fkey) (other : usb_keyboard_report_t) :
    usb_keyboard_data_t → List UInt8 → usb_keyboard_data_t × List Fkey
  | data,[] => (data,[])
  | data,key :: keys =>
    if key = 0 then changed body other data keys
    else if !usb_keyboard_key_in_report other key then
      let r := body data key
      let s := changed body other r.1 keys
      (s.1,r.2 ++ s.2)
    else changed body other data keys

def rollover (report : usb_keyboard_report_t) : Bool := report.keys.toList.all (· == 0x01)

/-- `transfer` is what `interrupt_transfer` writes to the buffer, or `none` when it fails. -/
def usb_keyboard_poll (transfer : Option usb_keyboard_report_t) (data : usb_keyboard_data_t) : usb_keyboard_data_t × List Fkey :=
  if !data.active || !data.hc || !data.dev then (data,[])
  else
    match transfer with
    | none => (data,[])
    | some report =>
      if rollover report then (data,[])
      else
        let data := { data with special_keys_down := usb_keyboard_update_modifiers data.special_keys_down report.modifiers }
        let down := changed (key_down shortcuts) data.prev_report data report.keys.toList
        let up := changed key_up report down.1 data.prev_report.keys.toList
        ({ up.1 with prev_report := report },down.2 ++ up.2)

end

def usb_keyboard_create (hc dev : Bool) : usb_keyboard_data_t := { hc,dev }

def usb_keyboard_init (data : usb_keyboard_data_t) : usb_keyboard_data_t := { data with active := true }

inductive Poll where
  | async_getc
  | async_getarrw
deriving DecidableEq

/-- A poll, with the shortcuts at that time and the result of the transfer. -/
structure Call where
  poll : Poll
  shortcuts : List Int
  transfer : Option usb_keyboard_report_t

/-- What the polls return, and the calls of the handler. -/
structure Log where
  characters : List Int := []
  arrows : List keyboard_arrow := []
  fkeys : List Fkey := []

def usb_keyboard_async_getc (call : Call) (data : usb_keyboard_data_t) : usb_keyboard_data_t × Log :=
  let r := usb_keyboard_poll call.shortcuts call.transfer data
  ({ r.1 with character := 0 },{ characters := [r.1.character],fkeys := r.2 })

def usb_keyboard_async_getarrw (call : Call) (data : usb_keyboard_data_t) : usb_keyboard_data_t × Log :=
  let r := usb_keyboard_poll call.shortcuts call.transfer data
  ({ r.1 with arrow := .none },{ arrows := [r.1.arrow],fkeys := r.2 })

def async (call : Call) (data : usb_keyboard_data_t) : usb_keyboard_data_t × Log :=
  match call.poll with
  | .async_getc => usb_keyboard_async_getc call data
  | .async_getarrw => usb_keyboard_async_getarrw call data

def Log.append (a b : Log) : Log := ⟨a.characters ++ b.characters,a.arrows ++ b.arrows,a.fkeys ++ b.fkeys⟩

/-- A run of polls. -/
def polls : usb_keyboard_data_t → List Call → Log
  | _,[] => {}
  | data,call :: calls => (async call data).2.append (polls (async call data).1 calls)

/-- The driver when it can be polled. -/
def started : usb_keyboard_data_t := usb_keyboard_init (usb_keyboard_create true true)

/-- The report of a transfer. A rollover report says nothing about the keys. -/
def received (call : Call) : Option usb_keyboard_report_t := call.transfer.filter fun report => !rollover report

/-- The keys that are down in a report and not in another, in the order of the report. -/
def newly (report other : usb_keyboard_report_t) : List UInt8 :=
  report.keys.toList.filter fun key => key != 0 && !other.keys.toList.contains key

/-- What the reports said so far: the last one, and the caps lock. -/
structure Heard where
  report : usb_keyboard_report_t
  caps_lock : Bool

/-- The modifiers of a report, with the caps lock. -/
def mods (modifiers : UInt8) (caps_lock : Bool) : special_keys_down_t := usb_keyboard_update_modifiers { caps_lock } modifiers

/-- The characters for presses of keys that are printable: none for one that launches a shortcut. -/
def typed (shortcuts : List Int) (modifiers : UInt8) : Bool → List UInt8 → List Int
  | _,[] => []
  | caps_lock,key :: keys =>
    (if key_character shortcuts key (mods modifiers caps_lock) ≠ 0 then [key_character shortcuts key (mods modifiers caps_lock)]
    else []) ++ typed shortcuts modifiers (caps_lock ^^ key == 0x39) keys

def caps_after (caps_lock : Bool) (keys : List UInt8) : Bool := keys.foldl (fun caps_lock key => caps_lock ^^ key == 0x39) caps_lock

def arrow_of (key : UInt8) : Option keyboard_arrow :=
  if key = USB_HID_KEY_UP_ARROW then some .up
  else if key = USB_HID_KEY_DOWN_ARROW then some .down
  else if key = USB_HID_KEY_LEFT_ARROW then some .left
  else if key = USB_HID_KEY_RIGHT_ARROW then some .right
  else none

def fkey_of (key : UInt8) : Option Nat :=
  if USB_HID_KEY_F1 ≤ key ∧ key ≤ USB_HID_KEY_F12 then some (key.toNat - USB_HID_KEY_F1.toNat + 1) else none

/-- What is pressed in a poll. -/
def presses (heard : Heard) (call : Call) : List UInt8 := (received call).elim [] fun report => newly report heard.report

def characters (heard : Heard) (call : Call) : List Int :=
  (received call).elim [] fun report => typed call.shortcuts report.modifiers heard.caps_lock (presses heard call)

def arrows (heard : Heard) (call : Call) : List keyboard_arrow := (presses heard call).filterMap arrow_of

def hear (heard : Heard) (call : Call) : Heard :=
  (received call).elim heard fun report => ⟨report,caps_after heard.caps_lock (presses heard call)⟩

/-- What is released in a poll. -/
def releases (heard : Heard) (call : Call) : List UInt8 := (received call).elim [] fun report => newly heard.report report

/-- The calls of the handler in a poll. -/
def fkeys (heard : Heard) (call : Call) : List Fkey :=
  ((presses heard call).filterMap fkey_of).map (⟨·,false⟩) ++ ((releases heard call).filterMap fkey_of).map (⟨·,true⟩)

def handled : Heard → List Call → List Fkey
  | _,[] => []
  | heard,call :: calls => fkeys heard call ++ handled (hear heard call) calls

/-- The presses of a run for one of the mailboxes, which `taken` empties. -/
def turns {α : Type} (events : Heard → Call → List α) (taken : Poll) : Heard → List Call → List (Turn α)
  | _,[] => []
  | heard,call :: calls => ⟨events heard call,call.poll = taken⟩ :: turns events taken (hear heard call) calls

def silence : Heard := ⟨⟨0,Vector.replicate 6 0⟩,false⟩

/-- The characters typed in a run, by the calls of `async_getc`. -/
def typing (calls : List Call) : List (Turn Int) := turns characters .async_getc silence calls

def pointing (calls : List Call) : List (Turn keyboard_arrow) := turns arrows .async_getarrw silence calls

/-- The keys without the arrows. -/
def modifier_keys (keys : special_keys_down_t) : special_keys_down_t :=
  { keys with up_arrow := false,down_arrow := false,left_arrow := false,right_arrow := false }

theorem key_character_modifiers (shortcuts : List Int) (key : UInt8) (keys : special_keys_down_t) :
    key_character shortcuts key (modifier_keys keys) = key_character shortcuts key keys := rfl

/-- The tables end before caps lock, the F keys and the arrows. -/
theorem key_character_special {key : UInt8} (special : 57 ≤ key.toNat) (shortcuts : List Int) (keys : special_keys_down_t) :
    key_character shortcuts key keys = 0 := by
  have none : usb_keyboard_translate_key key keys = 0 := by
    rw [usb_keyboard_translate_key]
    exact if_neg (not_lt.2 special)
  rw [key_character,none]
  simp [letter]

/-- What a press does: at most one of the character, the arrow, the caps lock and the F keys changes. -/
theorem key_down_effect (shortcuts : List Int) (data : usb_keyboard_data_t) (key : UInt8) : ∃ keys,
    modifier_keys keys =
      { modifier_keys data.special_keys_down with caps_lock := data.special_keys_down.caps_lock ^^ key == 0x39 } ∧
    key_down shortcuts data key =
      ({ data with
          special_keys_down := keys
          character := if key_character shortcuts key data.special_keys_down ≠ 0 then
            key_character shortcuts key data.special_keys_down else data.character
          arrow := (arrow_of key).getD data.arrow },
        (fkey_of key).toList.map (⟨·,false⟩)) := by
  have special : 57 ≤ key.toNat → key_character shortcuts key data.special_keys_down = 0 := fun high =>
    key_character_special high shortcuts _
  by_cases up : key = USB_HID_KEY_UP_ARROW
  · subst up
    refine ⟨_,?_,by rw [key_down,if_pos rfl,special (by decide)]; rfl⟩
    rw [show (USB_HID_KEY_UP_ARROW == 0x39) = false from rfl,Bool.xor_false]
    rfl
  by_cases down : key = USB_HID_KEY_DOWN_ARROW
  · subst down
    refine ⟨_,?_,by rw [key_down,if_neg (by decide),if_pos rfl,special (by decide)]; rfl⟩
    rw [show (USB_HID_KEY_DOWN_ARROW == 0x39) = false from rfl,Bool.xor_false]
    rfl
  by_cases left : key = USB_HID_KEY_LEFT_ARROW
  · subst left
    refine ⟨_,?_,by rw [key_down,if_neg (by decide),if_neg (by decide),if_pos rfl,special (by decide)]; rfl⟩
    rw [show (USB_HID_KEY_LEFT_ARROW == 0x39) = false from rfl,Bool.xor_false]
    rfl
  by_cases right : key = USB_HID_KEY_RIGHT_ARROW
  · subst right
    refine ⟨_,?_,by rw [key_down,if_neg (by decide),if_neg (by decide),if_neg (by decide),if_pos rfl,special (by decide)]; rfl⟩
    rw [show (USB_HID_KEY_RIGHT_ARROW == 0x39) = false from rfl,Bool.xor_false]
    rfl
  have no_arrow : arrow_of key = none := by
    rw [arrow_of,if_neg up,if_neg down,if_neg left,if_neg right]
  rw [key_down,if_neg up,if_neg down,if_neg left,if_neg right,no_arrow,fkey_of]
  by_cases fkey : USB_HID_KEY_F1 ≤ key ∧ key ≤ USB_HID_KEY_F12
  · have high : 58 ≤ key.toNat := UInt8.le_iff_toNat_le.1 fkey.1
    have not_caps : (key == 0x39) = false := by
      apply beq_false_of_ne
      rintro rfl
      exact absurd high (by decide)
    rw [if_pos fkey,if_pos fkey,special (by omega),not_caps,Bool.xor_false]
    exact ⟨data.special_keys_down,rfl,rfl⟩
  rw [if_neg fkey,if_neg fkey]
  by_cases caps : key = 0x39
  · subst caps
    refine ⟨_,?_,by rw [if_pos rfl,special (by decide)]; rfl⟩
    rw [show ((0x39 : UInt8) == 0x39) = true from rfl,Bool.xor_true]
    rfl
  · have not_caps : (key == 0x39) = false := beq_false_of_ne caps
    rw [if_neg caps,not_caps,Bool.xor_false]
    refine ⟨data.special_keys_down,rfl,?_⟩
    dsimp only
    split <;> rfl

theorem key_up_effect (data : usb_keyboard_data_t) (key : UInt8) : ∃ keys,
    modifier_keys keys = modifier_keys data.special_keys_down ∧
    key_up data key = ({ data with special_keys_down := keys },(fkey_of key).toList.map (⟨·,true⟩)) := by
  by_cases up : key = USB_HID_KEY_UP_ARROW
  · subst up
    refine ⟨_,?_,by rw [key_up,if_pos rfl]; rfl⟩
    rfl
  by_cases down : key = USB_HID_KEY_DOWN_ARROW
  · subst down
    refine ⟨_,?_,by rw [key_up,if_neg (by decide),if_pos rfl]; rfl⟩
    rfl
  by_cases left : key = USB_HID_KEY_LEFT_ARROW
  · subst left
    refine ⟨_,?_,by rw [key_up,if_neg (by decide),if_neg (by decide),if_pos rfl]; rfl⟩
    rfl
  by_cases right : key = USB_HID_KEY_RIGHT_ARROW
  · subst right
    refine ⟨_,?_,by rw [key_up,if_neg (by decide),if_neg (by decide),if_neg (by decide),if_pos rfl]; rfl⟩
    rfl
  refine ⟨data.special_keys_down,rfl,?_⟩
  rw [key_up,if_neg up,if_neg down,if_neg left,if_neg right,fkey_of]
  split <;> rfl

/-- A body for every key of a list. -/
def each (body : usb_keyboard_data_t → UInt8 → usb_keyboard_data_t × List Fkey) :
    usb_keyboard_data_t → List UInt8 → usb_keyboard_data_t × List Fkey
  | data,[] => (data,[])
  | data,key :: keys => ((each body (body data key).1 keys).1,(body data key).2 ++ (each body (body data key).1 keys).2)

theorem changed_each (body : usb_keyboard_data_t → UInt8 → usb_keyboard_data_t × List Fkey) (other report : usb_keyboard_report_t)
    (data : usb_keyboard_data_t) : changed body other data report.keys.toList = each body data (newly report other) := by
  unfold newly
  generalize report.keys.toList = keys
  induction keys generalizing data with
  | nil => rfl
  | cons key keys ih =>
    rw [changed,List.filter_cons]
    by_cases zero : key = 0
    · rw [if_pos zero,if_neg (by simp [zero])]
      exact ih data
    · rw [if_neg zero]
      cases held : other.keys.toList.contains key with
      | true =>
        rw [usb_keyboard_key_in_report,held,if_neg (by simp),if_neg (by simp)]
        exact ih data
      | false =>
        rw [usb_keyboard_key_in_report,held,Bool.not_false,if_pos rfl,Bool.and_true,if_pos (bne_iff_ne.2 zero),each,← ih]

/-- Two states of the driver that differ at most in what a press or a release changes. -/
def SameDevice (a b : usb_keyboard_data_t) : Prop :=
  a.hc = b.hc ∧ a.dev = b.dev ∧ a.active = b.active ∧ a.prev_report = b.prev_report

theorem each_down {shortcuts : List Int} {modifiers : UInt8} {caps_lock : Bool} {data : usb_keyboard_data_t}
    (known : modifier_keys data.special_keys_down = mods modifiers caps_lock) (keys : List UInt8) :
    ∃ r, each (key_down shortcuts) data keys = (r,(keys.filterMap fkey_of).map (⟨·,false⟩)) ∧ SameDevice r data ∧
      modifier_keys r.special_keys_down = mods modifiers (caps_after caps_lock keys) ∧
      r.character = (typed shortcuts modifiers caps_lock keys).getLast?.getD data.character ∧
      r.arrow = (keys.filterMap arrow_of).getLast?.getD data.arrow := by
  induction keys generalizing data caps_lock with
  | nil => exact ⟨data,rfl,⟨rfl,rfl,rfl,rfl⟩,known,rfl,rfl⟩
  | cons key keys ih =>
    obtain ⟨special,changed,effect⟩ := key_down_effect shortcuts data key
    have caps : data.special_keys_down.caps_lock = caps_lock := congrArg special_keys_down_t.caps_lock known
    rw [known,caps] at changed
    have same := key_character_modifiers shortcuts key data.special_keys_down
    rw [known] at same
    obtain ⟨r,all,device,later,character,arrow⟩ := @ih (caps_lock ^^ key == 0x39) (key_down shortcuts data key).1 (by
      rw [effect]
      exact changed)
    refine ⟨r,?_,?_,later,?_,?_⟩
    · rw [each,all,effect]
      cases fkey : fkey_of key <;> simp [fkey]
    · rw [effect] at device
      exact device
    · rw [character,effect,typed,List.getLast?_append,same]
      dsimp only
      split <;> simp
    · rw [arrow,effect]
      dsimp only
      cases found : arrow_of key <;> simp [found,List.getLast?_cons]

theorem each_up (data : usb_keyboard_data_t) (keys : List UInt8) :
    ∃ special, modifier_keys special = modifier_keys data.special_keys_down ∧
      each key_up data keys = ({ data with special_keys_down := special },(keys.filterMap fkey_of).map (⟨·,true⟩)) := by
  induction keys generalizing data with
  | nil => exact ⟨data.special_keys_down,rfl,rfl⟩
  | cons key keys ih =>
    obtain ⟨special,same,effect⟩ := key_up_effect data key
    obtain ⟨special',same',all⟩ := ih (key_up data key).1
    rw [effect] at same' all
    refine ⟨special',same'.trans same,?_⟩
    rw [each,effect,all]
    cases fkey : fkey_of key <;> simp [fkey]

/-- The driver heard the reports, and can be polled. -/
structure Follows (data : usb_keyboard_data_t) (heard : Heard) : Prop where
  hc : data.hc = true
  dev : data.dev = true
  active : data.active = true
  report : data.prev_report = heard.report
  caps_lock : data.special_keys_down.caps_lock = heard.caps_lock

theorem poll_effect {data : usb_keyboard_data_t} {heard : Heard} (follows : Follows data heard) (call : Call) :
    ∃ r, usb_keyboard_poll call.shortcuts call.transfer data = (r,fkeys heard call) ∧ Follows r (hear heard call) ∧
      r.character = (characters heard call).getLast?.getD data.character ∧
      r.arrow = (arrows heard call).getLast?.getD data.arrow := by
  obtain ⟨hc,dev,active,report,caps⟩ := follows
  have ready : (!data.active || !data.hc || !data.dev) = false := by simp [hc,dev,active]
  unfold usb_keyboard_poll
  rw [ready,if_neg Bool.false_ne_true]
  cases heard_now : received call with
  | none =>
    have nothing : fkeys heard call = [] := by simp [fkeys,presses,releases,heard_now]
    refine ⟨data,?_,?_,?_,?_⟩
    · rw [nothing]
      cases transfer : call.transfer with
      | none => rfl
      | some report =>
        have many : rollover report = true := by simpa [received,transfer,Option.filter] using heard_now
        exact if_pos many
    · rw [hear,heard_now]
      exact ⟨hc,dev,active,report,caps⟩
    · rw [characters,heard_now]
      rfl
    · rw [arrows,presses,heard_now]
      rfl
  | some now =>
    obtain ⟨transfer,new⟩ := Option.filter_eq_some_iff.1 heard_now
    have pressed : presses heard call = newly now data.prev_report := by
      rw [presses,heard_now,report]
      rfl
    have released : releases heard call = newly data.prev_report now := by
      rw [releases,heard_now,report]
      rfl
    have known : modifier_keys (usb_keyboard_update_modifiers data.special_keys_down now.modifiers) =
        mods now.modifiers heard.caps_lock := by
      rw [← caps]
      rfl
    obtain ⟨r,down,⟨hc',dev',active',_⟩,later,character,arrow⟩ := @each_down call.shortcuts _ _
      { data with special_keys_down := usb_keyboard_update_modifiers data.special_keys_down now.modifiers } known
      (newly now data.prev_report)
    obtain ⟨special,same,up⟩ := each_up r (newly data.prev_report now)
    rw [transfer]
    dsimp only
    rw [if_neg (by simpa using new),changed_each,changed_each,down,up]
    refine ⟨{ r with special_keys_down := special,prev_report := now },?_,⟨hc'.trans hc,dev'.trans dev,active'.trans active,?_,?_⟩,?_,?_⟩
    · rw [fkeys,pressed,released]
    · rw [hear,heard_now]
      rfl
    · rw [hear,heard_now,pressed]
      exact congrArg special_keys_down_t.caps_lock (same.trans later)
    · rw [characters,heard_now,pressed]
      exact character
    · rw [arrows,pressed]
      exact arrow

theorem polls_log {data : usb_keyboard_data_t} {heard : Heard} {character : Option Int} {arrow : Option keyboard_arrow}
    (follows : Follows data heard) (held : data.character = character.getD 0) (held' : data.arrow = arrow.getD .none)
    (calls : List Call) : polls data calls =
      ⟨(answers character (turns characters .async_getc heard calls)).map (·.getD 0),
        (answers arrow (turns arrows .async_getarrw heard calls)).map (·.getD .none),handled heard calls⟩ := by
  induction calls generalizing data heard character arrow with
  | nil => rfl
  | cons call calls ih =>
    obtain ⟨r,effect,after,new,new'⟩ := poll_effect follows call
    have now : r.character = (put character (characters heard call)).getD 0 := by
      rw [new,held,put,Option.getD_or]
    have now' : r.arrow = (put arrow (arrows heard call)).getD .none := by
      rw [new',held',put,Option.getD_or]
    obtain ⟨hc,dev,active,report,caps⟩ := after
    rw [polls,async,turns,turns,answers,answers,handled]
    cases poll : call.poll with
    | async_getc =>
      dsimp only
      rw [usb_keyboard_async_getc,effect]
      have rest := @ih { r with character := 0 } _ none _ ⟨hc,dev,active,report,caps⟩ rfl now'
      rw [rest]
      simp [Log.append,now]
    | async_getarrw =>
      dsimp only
      rw [usb_keyboard_async_getarrw,effect]
      have rest := @ih { r with arrow := .none } _ _ none ⟨hc,dev,active,report,caps⟩ now rfl
      rw [rest]
      simp [Log.append,now']

theorem started_follows : Follows started silence := ⟨rfl,rfl,rfl,rfl,rfl⟩

/-- How many slots of a report name an F key. -/
def named (n : Nat) (report : usb_keyboard_report_t) : Nat := report.keys.toList.countP (fkey_of · = some n)

theorem fkey_unique {n : Nat} {a b : UInt8} (first : fkey_of a = some n) (second : fkey_of b = some n) : a = b := by
  unfold fkey_of at first second
  split at first <;> cases first
  split at second
  · rename_i low high
    have at_least := UInt8.le_iff_toNat_le.1 low.1
    have at_least' := UInt8.le_iff_toNat_le.1 high.1
    apply UInt8.toNat_inj.1
    have same := Option.some.inj second
    omega
  · cases second

theorem newly_named (n : Nat) (report other : usb_keyboard_report_t) :
    (newly report other).countP (fkey_of · = some n) = if named n other = 0 then named n report else 0 := by
  rw [newly,List.countP_filter]
  split
  · rename_i none
    rw [named,List.countP_eq_zero] at none
    apply List.countP_congr
    intro key _
    constructor
    · intro both
      exact (Bool.and_eq_true_iff.1 both).1
    · intro fkey
      have absent : key ∉ other.keys.toList := fun member => none key member fkey
      have nonzero : key ≠ 0 := by
        rintro rfl
        exact absurd fkey (by simp [fkey_of,USB_HID_KEY_F1])
      simp_all
  · rename_i some
    rw [named,List.countP_eq_zero] at some
    push Not at some
    obtain ⟨held,member,fkey⟩ := some
    apply List.countP_eq_zero.2
    intro key _ both
    obtain ⟨fkey',absent⟩ := Bool.and_eq_true_iff.1 both
    have same := fkey_unique (of_decide_eq_true fkey') (of_decide_eq_true fkey)
    simp [same] at absent
    simp_all

theorem fkeys_count (heard : Heard) (call : Call) (n : Nat) (up : Bool) :
    (fkeys heard call).count ⟨n,up⟩ =
      (if up then releases heard call else presses heard call).countP (fkey_of · = some n) := by
  have one : ∀ (keys : List UInt8) (b : Bool), ((keys.filterMap fkey_of).map (⟨·,b⟩ : Nat → Fkey)).count ⟨n,up⟩ =
      if b = up then keys.countP (fkey_of · = some n) else 0 := by
    intro keys b
    induction keys with
    | nil => simp
    | cons key keys ih =>
      rw [List.filterMap_cons,List.countP_cons]
      cases fkey : fkey_of key with
      | none => simpa using ih
      | some m =>
        rw [List.map_cons,List.count_cons,ih]
        by_cases same : b = up <;> by_cases number : m = n <;> simp [same,number]
  rw [fkeys,List.count_append,one,one]
  cases up <;> simp

/-- What the reports said at the end of a run. -/
def hear_all : Heard → List Call → Heard := List.foldl hear

theorem handled_balanced {heard : Heard} {calls : List Call} {n : Nat} (first : named n heard.report ≤ 1)
    (single : ∀ call ∈ calls, ∀ report ∈ received call, named n report ≤ 1) :
    (handled heard calls).count ⟨n,false⟩ + named n heard.report =
      (handled heard calls).count ⟨n,true⟩ + named n (hear_all heard calls).report := by
  induction calls generalizing heard with
  | nil => rfl
  | cons call calls ih =>
    have step : (fkeys heard call).count ⟨n,false⟩ + named n heard.report =
        (fkeys heard call).count ⟨n,true⟩ + named n (hear heard call).report ∧ named n (hear heard call).report ≤ 1 := by
      rw [fkeys_count,fkeys_count,releases,presses,hear]
      cases now : received call with
      | none => exact ⟨rfl,first⟩
      | some report =>
        have few := single call List.mem_cons_self report now
        dsimp only [Option.elim]
        rw [if_neg Bool.false_ne_true,if_pos rfl,newly_named,newly_named]
        refine ⟨?_,few⟩
        split <;> split <;> omega
    have rest := ih step.2 fun other member => single other (List.mem_cons_of_mem _ member)
    rw [handled,List.count_append,List.count_append]
    change _ = _ + named n (hear_all (hear heard call) calls).report
    omega

theorem typed_real {shortcuts : List Int} {modifiers : UInt8} {caps_lock : Bool} {keys : List UInt8} {c : Int}
    (member : c ∈ typed shortcuts modifiers caps_lock keys) : c ≠ 0 := by
  induction keys generalizing caps_lock with
  | nil => cases member
  | cons key keys ih =>
    rw [typed] at member
    rcases List.mem_append.1 member with here | later
    · split at here
      · rename_i real
        rw [List.mem_singleton.1 here]
        exact real
      · cases here
    · exact ih later

theorem arrow_real {key : UInt8} {a : keyboard_arrow} (found : arrow_of key = some a) : a ≠ .none := by
  unfold arrow_of at found
  split_ifs at found <;> cases found <;> decide

theorem turns_mem {α : Type} {events : Heard → Call → List α} {taken : Poll} {heard : Heard} {calls : List Call} {a : α}
    (member : a ∈ (turns events taken heard calls).flatMap Turn.puts) : ∃ heard call, a ∈ events heard call := by
  induction calls generalizing heard with
  | nil => cases member
  | cons call calls ih =>
    rw [turns,List.flatMap_cons] at member
    rcases List.mem_append.1 member with here | later
    · exact ⟨heard,call,here⟩
    · exact ih later

/-- What a run of polls returns. The periods are the ones between two calls of a function. -/
structure Delivered (calls : List Call) : Prop where
  last_character : (polls started calls).characters = (periods [] (typing calls)).map fun typed => typed.getLast?.getD 0
  every_character : (∀ typed ∈ periods [] (typing calls), typed.length ≤ 1) →
    (polls started calls).characters.filter (· ≠ 0) ++ waiting [] (typing calls) = (typing calls).flatMap Turn.puts
  last_arrow : (polls started calls).arrows = (periods [] (pointing calls)).map fun pressed => pressed.getLast?.getD .none
  every_arrow : (∀ pressed ∈ periods [] (pointing calls), pressed.length ≤ 1) →
    (polls started calls).arrows.filter (· ≠ .none) ++ waiting [] (pointing calls) = (pointing calls).flatMap Turn.puts
  balanced : ∀ n, (∀ call ∈ calls, ∀ report ∈ received call, named n report ≤ 1) →
    (polls started calls).fkeys.count ⟨n,false⟩ =
      (polls started calls).fkeys.count ⟨n,true⟩ + named n (hear_all silence calls).report

theorem keyboard_delivers (calls : List Call) : Delivered calls := by
  have log := @polls_log started silence none none started_follows rfl rfl calls
  have characters : (polls started calls).characters = (answers none (typing calls)).map (·.getD 0) := by
    rw [log]
    rfl
  have arrows : (polls started calls).arrows = (answers none (pointing calls)).map (·.getD .none) := by
    rw [log]
    rfl
  refine ⟨?_,?_,?_,?_,?_⟩
  · rw [characters]
    exact (congrArg (List.map _) (Mailbox.answers_periods [] _)).trans (List.map_map ..)
  · intro few
    rw [characters,Mailbox.reduce_default]
    · exact Mailbox.answers_once few
    · intro c found
      obtain ⟨heard,call,member⟩ := turns_mem (@Mailbox.answers_put _ [] _ _ found)
      unfold UsbKeyboard.characters at member
      cases now : received call with
      | none => rw [now] at member; cases member
      | some report =>
        rw [now] at member
        exact typed_real member
  · rw [arrows]
    exact (congrArg (List.map _) (Mailbox.answers_periods [] _)).trans (List.map_map ..)
  · intro few
    rw [arrows,Mailbox.reduce_default]
    · exact Mailbox.answers_once few
    · intro a found
      obtain ⟨heard,call,member⟩ := turns_mem (@Mailbox.answers_put _ [] _ _ found)
      obtain ⟨key,_,arrow⟩ := List.mem_filterMap.1 member
      exact arrow_real arrow
  · intro n single
    rw [log]
    have none : named n silence.report = 0 := by simp [named,silence,fkey_of,USB_HID_KEY_F1]
    have all := @handled_balanced silence calls n (by omega) single
    rw [none,Nat.add_zero] at all
    exact all

/-- A call of `async_getc` that gets no report. -/
def idle : Call := ⟨.async_getc,[],none⟩

theorem idle_nothing {data : usb_keyboard_data_t} (empty : data.character = 0) (n : Nat) :
    (polls data (List.replicate n idle)).characters = List.replicate n 0 := by
  have quiet : usb_keyboard_poll [] none data = (data,[]) := by
    unfold usb_keyboard_poll
    split <;> rfl
  have same : (async idle data).1 = data := by
    change { (usb_keyboard_poll [] none data).1 with character := 0 } = data
    rw [quiet,← empty]
  induction n with
  | zero => rfl
  | succ n ih =>
    rw [List.replicate_succ,polls,same,Log.append,ih,List.replicate_succ]
    change [(usb_keyboard_poll [] none data).1.character] ++ List.replicate n 0 = _
    rw [quiet,empty]
    rfl

/-- Of two keys in one report, the first is lost. -/
theorem first_key_lost : ¬∀ calls, ∃ n, (polls started (calls ++ List.replicate n idle)).characters.filter (· ≠ 0) =
    (typing calls).flatMap Turn.puts := by
  intro every
  let call : Call := ⟨.async_getc,[],some ⟨0,#v[4,5,0,0,0,0]⟩⟩
  obtain ⟨n,same⟩ := every [call]
  have first : (async call started).2.characters = [98] := by decide
  have rest : (polls (async call started).1 (List.replicate n idle)).characters = List.replicate n 0 := idle_nothing rfl n
  have both : (typing [call]).flatMap Turn.puts = [97,98] := by decide
  rw [List.singleton_append,polls,Log.append,first,rest,both,List.filter_append,List.filter_replicate] at same
  simp at same

end MicroOS.UsbKeyboard

import MicroOS.Runs
import MicroOS.Alignment

/-!
The card writes received frames to the buffers of its descriptors and clears their ownership bits; `am79C973_recieve`
goes round the ring as long as it finds such descriptors. The main theorem is `rings_fail`: the buffers overlap for every
place of their memory; and when the loop ends, gives all descriptors back and delivers what the card wrote.
-/

namespace MicroOS.Am79C973
open Runs

abbrev Word := BitVec 32
abbrev Memory := Word → UInt8

/-- `buffer_descriptor_t`. -/
structure Descriptor where
  address : Word
  flags : Word
  flags2 : Word
  avail : Word

/-- The rings of eight descriptors, the memory of their buffers, and what was handed to `recv`. -/
structure Driver where
  send_buffer_descr : Fin 8 → Descriptor
  current_send_buffer : Fin 8
  recv_buffer_descr : Fin 8 → Descriptor
  current_recv_buffer : Fin 8
  memory : Memory
  delivered : List (List UInt8)

/-- The card owns the descriptor. -/
def Owned (flags : Word) : Prop := flags &&& 0x80000000 ≠ 0

/-- No error, and both the start and the end of a frame. -/
def Good (flags : Word) : Prop := flags &&& 0x40000000 = 0 ∧ flags &&& 0x03000000 = 0x03000000

instance (flags : Word) : Decidable (Owned flags) := inferInstanceAs (Decidable (_ ≠ _))
instance (flags : Word) : Decidable (Good flags) := inferInstanceAs (Decidable (_ ∧ _))

/-- Both buffers are `uint8_t*`, so `&buffers[i]` is `i` bytes behind the first one. -/
def buffer_address (buffers : Word) (i : Fin 8) : Word := (buffers + BitVec.ofNat 32 i.val + 15) &&& ~~~0xF

/-- The rings after `am79C973_init`; the memory of the buffers comes from `vmm_calloc`. -/
def am79C973_init (send_buffers recv_buffers : Word) (memory : Memory) : Driver where
  send_buffer_descr i := ⟨buffer_address send_buffers i,0x7FF ||| 0xF000,0,0⟩
  current_send_buffer := 0
  recv_buffer_descr i := ⟨buffer_address recv_buffers i,0xF7FF ||| 0x80000000,0,0⟩
  current_recv_buffer := 0
  memory := memory
  delivered := []

def store (memory : Memory) (address : Word) (bytes : List UInt8) : Memory :=
  fun a => (bytes[(a - address).toNat]?).getD (memory a)

def load (memory : Memory) (address : Word) (size : Nat) : List UInt8 :=
  (List.range size).map fun i => memory (address + BitVec.ofNat 32 i)

/-- The body of the loop, and the step to the next descriptor. -/
def pass (d : Driver) : Driver :=
  let i := d.current_recv_buffer
  let descr := d.recv_buffer_descr i
  if Good descr.flags then
    let size := (descr.flags &&& 0xFFF).toNat
    let size := if size > 64 then size - 4 else size
    { d with
      delivered := d.delivered ++ [load d.memory descr.address size]
      recv_buffer_descr := Function.update d.recv_buffer_descr i { descr with flags2 := 0, flags := 0x8000F7FF }
      current_recv_buffer := i + 1 }
  else { d with current_recv_buffer := i + 1 }

/-- The loop, and the descriptors that it passed over. -/
def am79C973_recieve : Nat → Driver → Option (Driver × List (Fin 8))
  | 0,_ => none
  | fuel + 1,d =>
    if Owned (d.recv_buffer_descr d.current_recv_buffer).flags then some (d,[])
    else (am79C973_recieve fuel (pass d)).map fun r => (r.1,d.current_recv_buffer :: r.2)

/-- The driver, the descriptor that the card uses next, and the good frames that it wrote. -/
structure Card where
  driver : Driver
  current : Fin 8
  frames : List (List UInt8)

/-- What is delivered of a frame: a long one loses its checksum. -/
def payload (bytes : List UInt8) : List UInt8 := if bytes.length > 64 then bytes.take (bytes.length - 4) else bytes

/-- The card writes to the next descriptor and gives it up; if it does not own it, the frame is missed. -/
def write (c : Card) (flags flags2 : Word) (bytes : List UInt8) : Card :=
  let descr := c.driver.recv_buffer_descr c.current
  if Owned descr.flags then
    { driver := { c.driver with
        memory := store c.driver.memory descr.address bytes
        recv_buffer_descr := Function.update c.driver.recv_buffer_descr c.current { descr with flags := flags, flags2 := flags2 } }
      current := c.current + 1
      frames := if Good flags then c.frames ++ [payload bytes] else c.frames }
  else c

/-- A frame of several descriptors is several writes; of the interrupts those matter that report received frames. -/
inductive Action where
  | write (flags flags2 : Word) (bytes : List UInt8)
  | interrupt

/-- The card writes fewer than 4096 bytes to a descriptor, as the size is 12 bits long. -/
inductive Step : Card → Action → Card → Prop
  | write (c : Card) {flags : Word} (flags2 : Word) (bytes : List UInt8) (given : ¬ Owned flags) (short : bytes.length < 2 ^ 12) :
      Step c (.write flags flags2 bytes) (write c flags flags2 bytes)
  | interrupt (c : Card) {fuel : Nat} {d : Driver} {passed : List (Fin 8)} (done : am79C973_recieve fuel c.driver = some (d,passed)) :
      Step c .interrupt { c with driver := d }

/-- Any place of the buffers. -/
def rings : System Card Action where
  start c := ∃ send_buffers recv_buffers memory, c = ⟨am79C973_init send_buffers recv_buffers memory,0,[]⟩
  step := Step

/-- The addresses of the buffers are so far apart that buffers of the programmed length do not overlap. -/
def Disjoint (descr : Fin 8 → Descriptor) (length : Nat) : Prop :=
  ∀ i j, i ≠ j → length ≤ ((descr i).address - (descr j).address).toNat

/-- The loop ends, with all good frames delivered and all descriptors given back that it passed over. -/
def Serves (c : Card) : Prop :=
  ∃ fuel d passed, am79C973_recieve fuel c.driver = some (d,passed) ∧ d.delivered = c.frames ∧
    ∀ i ∈ passed, Owned (d.recv_buffer_descr i).flags

structure Correct (c : Card) : Prop where
  serves : Serves c
  recv_buffers : Disjoint c.driver.recv_buffer_descr 0x7FF
  send_buffers : Disjoint c.driver.send_buffer_descr 0x7FF

/-- The card owns none of the descriptors from the current one up to this one. -/
def Waiting (d : Driver) (i : Fin 8) : Prop :=
  ∀ j, (j - d.current_recv_buffer).val ≤ (i - d.current_recv_buffer).val → ¬ Owned (d.recv_buffer_descr j).flags

/-- Each frame is a good one, with its size in the descriptor, and written after the last one was handed on. -/
def Alone (c : Card) : Action → Prop
  | .write flags _ bytes => (∀ i, Owned (c.driver.recv_buffer_descr i).flags) ∧ Good flags ∧ (flags &&& 0xFFF).toNat = bytes.length
  | .interrupt => True

theorem address_value (buffers : Word) (i : Fin 8) :
    (buffer_address buffers i).toNat = (buffers.toNat + i.val + 15) % 2 ^ 32 / 16 * 16 := by
  have mask : (~~~(0xF : Word)).toNat = 2 ^ 32 - 2 ^ 4 := rfl
  have small := i.isLt
  rw [buffer_address,BitVec.toNat_and,mask,Alignment.and_mask (w := 32) (k := 4) (by decide) (BitVec.isLt _)]
  have sum : (buffers + BitVec.ofNat 32 i.val + 15).toNat = (buffers.toNat + i.val + 15) % 2 ^ 32 := by
    rw [BitVec.toNat_add,BitVec.toNat_add,BitVec.toNat_ofNat,show (15 : Word).toNat = 15 from rfl]
    omega
  rw [sum]
  norm_num

/-- Two of the first three buffers are the same, wherever the memory is. -/
theorem same_address (buffers : Word) : ∃ i j : Fin 8, i ≠ j ∧ buffer_address buffers i = buffer_address buffers j := by
  by_cases last : buffers.toNat % 16 = 15
  · refine ⟨0,1,by decide,BitVec.eq_of_toNat_eq ?_⟩
    rw [address_value,address_value,show (0 : Fin 8).val = 0 from rfl,show (1 : Fin 8).val = 1 from rfl]
    omega
  · refine ⟨1,2,by decide,BitVec.eq_of_toNat_eq ?_⟩
    rw [address_value,address_value,show (1 : Fin 8).val = 1 from rfl,show (2 : Fin 8).val = 2 from rfl]
    omega

theorem not_disjoint {descr : Fin 8 → Descriptor} {buffers : Word} (places : ∀ i, (descr i).address = buffer_address buffers i) :
    ¬ Disjoint descr 0x7FF := by
  intro disjoint
  obtain ⟨i,j,other,same⟩ := same_address buffers
  have apart := disjoint i j other
  rw [places,places,same,BitVec.sub_self] at apart
  exact absurd apart (by decide)

theorem given_owned : Owned 0x8000F7FF := by decide

section
variable {d : Driver} {i : Fin 8}

theorem pass_current (d : Driver) : (pass d).current_recv_buffer = d.current_recv_buffer + 1 := by
  rw [pass]
  dsimp only
  split <;> rfl

theorem pass_other (other : i ≠ d.current_recv_buffer) : (pass d).recv_buffer_descr i = d.recv_buffer_descr i := by
  rw [pass]
  dsimp only
  split
  · exact Function.update_of_ne other _ _
  · rfl

theorem pass_good (good : Good (d.recv_buffer_descr d.current_recv_buffer).flags) :
    ((pass d).recv_buffer_descr d.current_recv_buffer).flags = 0x8000F7FF := by
  rw [pass]
  dsimp only
  rw [if_pos good]
  simp

theorem pass_bad (bad : ¬ Good (d.recv_buffer_descr d.current_recv_buffer).flags) :
    (pass d).recv_buffer_descr = d.recv_buffer_descr := by
  rw [pass]
  dsimp only
  rw [if_neg bad]

theorem pass_owned (owned : Owned (d.recv_buffer_descr i).flags) (given : ¬ Owned (d.recv_buffer_descr d.current_recv_buffer).flags) :
    Owned ((pass d).recv_buffer_descr i).flags := by
  have other : i ≠ d.current_recv_buffer := by
    rintro rfl
    exact given owned
  rw [pass_other other]
  exact owned

theorem recieve_stop (fuel : Nat) (owned : Owned (d.recv_buffer_descr d.current_recv_buffer).flags) :
    am79C973_recieve (fuel + 1) d = some (d,[]) := if_pos owned

theorem recieve_pass (fuel : Nat) (given : ¬ Owned (d.recv_buffer_descr d.current_recv_buffer).flags) :
    am79C973_recieve (fuel + 1) d = (am79C973_recieve fuel (pass d)).map fun r => (r.1,d.current_recv_buffer :: r.2) := if_neg given

/-- What every pass keeps holds when the loop ends. -/
theorem recieve_keeps {inv : Driver → Prop} (kept : ∀ d, inv d → ¬ Owned (d.recv_buffer_descr d.current_recv_buffer).flags → inv (pass d))
    {fuel : Nat} {d r : Driver} {passed : List (Fin 8)} (holds : inv d) (done : am79C973_recieve fuel d = some (r,passed)) : inv r := by
  induction fuel generalizing d passed with
  | zero => cases done
  | succ fuel ih =>
    by_cases owned : Owned (d.recv_buffer_descr d.current_recv_buffer).flags
    · rw [recieve_stop fuel owned] at done
      cases done
      exact holds
    · rw [recieve_pass fuel owned,Option.map_eq_some_iff] at done
      obtain ⟨⟨r',rest⟩,later,same⟩ := done
      cases same
      exact ih (kept d holds owned) later

theorem pass_ahead (d : Driver) (k : Nat) :
    d.current_recv_buffer + Fin.ofNat 8 (k + 1) = (pass d).current_recv_buffer + Fin.ofNat 8 k := by
  rw [pass_current]
  apply Fin.ext
  simp only [Fin.val_add,Fin.ofNat]
  omega

/-- The loop ends when it does so behind the current descriptor. -/
theorem ends_behind {d : Driver}
    (later : ¬ Owned (d.recv_buffer_descr d.current_recv_buffer).flags → ∃ fuel r, am79C973_recieve fuel (pass d) = some r) :
    ∃ fuel r, am79C973_recieve fuel d = some r := by
  by_cases first : Owned (d.recv_buffer_descr d.current_recv_buffer).flags
  · exact ⟨1,_,recieve_stop 0 first⟩
  · obtain ⟨fuel,r,done⟩ := later first
    exact ⟨fuel + 1,_,by rw [recieve_pass fuel first,done]; rfl⟩

/-- An owned descriptor ahead ends the loop. -/
theorem ends_at_owned (k : Nat) {d : Driver} (owned : Owned (d.recv_buffer_descr (d.current_recv_buffer + Fin.ofNat 8 k)).flags) :
    ∃ fuel r, am79C973_recieve fuel d = some r := by
  induction k generalizing d with
  | zero =>
    have here : d.current_recv_buffer + Fin.ofNat 8 0 = d.current_recv_buffer := add_zero _
    rw [here] at owned
    exact ⟨1,_,recieve_stop 0 owned⟩
  | succ k ih =>
    rw [pass_ahead] at owned
    exact ends_behind fun first => ih (pass_owned owned first)

/-- So does a good frame ahead, which gives its descriptor back. -/
theorem ends_at_good (k : Nat) {d : Driver} (good : Good (d.recv_buffer_descr (d.current_recv_buffer + Fin.ofNat 8 k)).flags) :
    ∃ fuel r, am79C973_recieve fuel d = some r := by
  induction k generalizing d with
  | zero =>
    have here : d.current_recv_buffer + Fin.ofNat 8 0 = d.current_recv_buffer := add_zero _
    rw [here] at good
    have round : (pass d).current_recv_buffer + Fin.ofNat 8 7 = d.current_recv_buffer :=
      (pass_ahead d 7).symm.trans (add_zero _)
    have owned : Owned ((pass d).recv_buffer_descr ((pass d).current_recv_buffer + Fin.ofNat 8 7)).flags := by
      rw [round,pass_good good]
      exact given_owned
    exact ends_behind fun _ => ends_at_owned 7 owned
  | succ k ih =>
    by_cases here : d.current_recv_buffer + Fin.ofNat 8 (k + 1) = d.current_recv_buffer
    · have owned : Owned ((pass d).recv_buffer_descr ((pass d).current_recv_buffer + Fin.ofNat 8 k)).flags := by
        rw [here] at good
        rw [← pass_ahead,here,pass_good good]
        exact given_owned
      exact ends_behind fun _ => ends_at_owned k owned
    · have later : Good ((pass d).recv_buffer_descr ((pass d).current_recv_buffer + Fin.ofNat 8 k)).flags := by
        rw [← pass_ahead,pass_other here]
        exact good
      exact ends_behind fun _ => ih later

theorem place_of (d : Driver) (i : Fin 8) : d.current_recv_buffer + Fin.ofNat 8 (i - d.current_recv_buffer).val = i := by
  rw [Fin.ofNat_val_eq_self]
  exact add_sub_cancel _ _

theorem never_ends {d : Driver} (nothing : ∀ i, ¬ (Owned (d.recv_buffer_descr i).flags ∨ Good (d.recv_buffer_descr i).flags)) (fuel : Nat) :
    am79C973_recieve fuel d = none := by
  induction fuel generalizing d with
  | zero => rfl
  | succ fuel ih =>
    have bad := fun good => nothing d.current_recv_buffer (.inr good)
    rw [recieve_pass fuel fun owned => nothing _ (.inl owned),ih]
    · rfl
    · rw [pass_bad bad]
      exact nothing

/-- The loop goes on for ever exactly when the card owns no descriptor and none holds a good frame. -/
theorem recieve_ends : (∃ fuel r, am79C973_recieve fuel d = some r) ↔
    ∃ i, Owned (d.recv_buffer_descr i).flags ∨ Good (d.recv_buffer_descr i).flags := by
  constructor
  · rintro ⟨fuel,r,done⟩
    by_contra nothing
    rw [never_ends fun i here => nothing ⟨i,here⟩] at done
    cases done
  · rintro ⟨i,owned | good⟩
    · exact ends_at_owned (i - d.current_recv_buffer).val (by rw [place_of]; exact owned)
    · exact ends_at_good (i - d.current_recv_buffer).val (by rw [place_of]; exact good)

theorem offset_succ : ∀ c i : Fin 8, i ≠ c → (i - c).val = (i - (c + 1)).val + 1 := by decide

theorem offset_last : ∀ c i : Fin 8, i ≠ c → ¬ (c - (c + 1)).val ≤ (i - (c + 1)).val := by decide

theorem waiting_current (waiting : Waiting d i) : ¬ Owned (d.recv_buffer_descr d.current_recv_buffer).flags := by
  apply waiting
  rw [sub_self]
  exact Nat.zero_le _

theorem waiting_pass (other : i ≠ d.current_recv_buffer) (waiting : Waiting d i) : Waiting (pass d) i := by
  intro j before
  rw [pass_current] at before
  have not_current : j ≠ d.current_recv_buffer := by
    rintro rfl
    exact offset_last _ _ other before
  rw [pass_other not_current]
  apply waiting
  rw [offset_succ _ _ not_current,offset_succ _ _ other]
  omega

/-- A descriptor without a good frame stays with the driver when the loop passes over it. -/
theorem bad_passed {fuel : Nat} {r : Driver} {passed : List (Fin 8)} (waiting : Waiting d i) (bad : ¬ Good (d.recv_buffer_descr i).flags)
    (done : am79C973_recieve fuel d = some (r,passed)) : i ∈ passed ∧ ¬ Owned (r.recv_buffer_descr i).flags := by
  induction fuel generalizing d passed with
  | zero => cases done
  | succ fuel ih =>
    have given := waiting_current waiting
    rw [recieve_pass fuel given,Option.map_eq_some_iff] at done
    obtain ⟨⟨r',rest⟩,later,same⟩ := done
    cases same
    by_cases here : i = d.current_recv_buffer
    · have stays : ∀ e : Driver, (¬ Owned (e.recv_buffer_descr i).flags ∧ ¬ Good (e.recv_buffer_descr i).flags) →
          ¬ Owned (e.recv_buffer_descr e.current_recv_buffer).flags →
          ¬ Owned ((pass e).recv_buffer_descr i).flags ∧ ¬ Good ((pass e).recv_buffer_descr i).flags := by
        rintro e ⟨no_owner,no_frame⟩ _
        by_cases current : i = e.current_recv_buffer
        · rw [pass_bad (by rw [← current]; exact no_frame)]
          exact ⟨no_owner,no_frame⟩
        · rw [pass_other current]
          exact ⟨no_owner,no_frame⟩
      have after : ¬ Owned ((pass d).recv_buffer_descr i).flags ∧ ¬ Good ((pass d).recv_buffer_descr i).flags :=
        stays d ⟨by rw [here]; exact given,bad⟩ given
      exact ⟨here ▸ List.mem_cons_self,(recieve_keeps stays after later).1⟩
    · obtain ⟨member,kept⟩ := ih (waiting_pass here waiting) (by rw [pass_other here]; exact bad) later
      exact ⟨List.mem_cons_of_mem _ member,kept⟩

/-- Good frames up to the first descriptor of the card are all given back. -/
theorem good_given_back (n : Nat) {d : Driver}
    (few : (Finset.univ.filter fun i => ¬ Owned (d.recv_buffer_descr i).flags).card ≤ n)
    (good : ∀ i, Waiting d i → Good (d.recv_buffer_descr i).flags) :
    ∃ fuel r passed, am79C973_recieve fuel d = some (r,passed) ∧ ∀ i ∈ passed, Owned (r.recv_buffer_descr i).flags := by
  induction n generalizing d with
  | zero =>
    have first : Owned (d.recv_buffer_descr d.current_recv_buffer).flags := by
      by_contra given
      have member : d.current_recv_buffer ∈ Finset.univ.filter fun i => ¬ Owned (d.recv_buffer_descr i).flags := by simp [given]
      rw [Finset.card_eq_zero.1 (Nat.le_zero.1 few)] at member
      cases member
    exact ⟨1,_,_,recieve_stop 0 first,by simp⟩
  | succ n ih =>
    by_cases first : Owned (d.recv_buffer_descr d.current_recv_buffer).flags
    · exact ⟨1,_,_,recieve_stop 0 first,by simp⟩
    · have frame : Good (d.recv_buffer_descr d.current_recv_buffer).flags := by
        apply good
        intro j before
        rw [sub_self] at before
        have zero : j - d.current_recv_buffer = 0 := Fin.ext (Nat.le_zero.1 before)
        rw [sub_eq_zero.1 zero]
        exact first
      have now : Owned ((pass d).recv_buffer_descr d.current_recv_buffer).flags := by
        rw [pass_good frame]
        exact given_owned
      have fewer : (Finset.univ.filter fun i => ¬ Owned ((pass d).recv_buffer_descr i).flags) =
          (Finset.univ.filter fun i => ¬ Owned (d.recv_buffer_descr i).flags).erase d.current_recv_buffer := by
        ext i
        by_cases here : i = d.current_recv_buffer
        · simp [here,now]
        · simp [here,pass_other here]
      have member : d.current_recv_buffer ∈ Finset.univ.filter fun i => ¬ Owned (d.recv_buffer_descr i).flags := by simp [first]
      obtain ⟨fuel,r,passed,done,owned⟩ := ih (d := pass d) (by rw [fewer,Finset.card_erase_of_mem member]; omega) (by
        intro i waiting
        have other : i ≠ d.current_recv_buffer := by
          rintro rfl
          exact waiting _ (Nat.le_refl _) now
        rw [pass_other other]
        apply good
        intro j before
        by_cases here : j = d.current_recv_buffer
        · rw [here]
          exact first
        · rw [offset_succ _ _ here,offset_succ _ _ other] at before
          have later := waiting j (by rw [pass_current]; omega)
          rwa [pass_other here] at later)
      refine ⟨fuel + 1,r,_,by rw [recieve_pass fuel first,done]; rfl,?_⟩
      intro i passed_i
      rcases List.mem_cons.1 passed_i with rfl | later
      · exact @recieve_keeps (fun e => Owned (e.recv_buffer_descr d.current_recv_buffer).flags) (fun e => pass_owned) _ _ _ _ now done
      · exact owned i later

theorem gives_back : (∃ fuel r passed, am79C973_recieve fuel d = some (r,passed) ∧ ∀ i ∈ passed, Owned (r.recv_buffer_descr i).flags) ↔
    ∀ i, Waiting d i → Good (d.recv_buffer_descr i).flags := by
  constructor
  · rintro ⟨fuel,r,passed,done,owned⟩ i waiting
    by_contra bad
    obtain ⟨member,kept⟩ := bad_passed waiting bad done
    exact kept (owned i member)
  · exact good_given_back _ (Nat.le_refl _)

end

/-- The addresses of `am79C973_init`. -/
def Places (d : Driver) : Prop :=
  (∃ buffers, ∀ i, (d.recv_buffer_descr i).address = buffer_address buffers i) ∧
    ∃ buffers, ∀ i, (d.send_buffer_descr i).address = buffer_address buffers i

theorem places_pass {d : Driver} (places : Places d) : Places (pass d) := by
  obtain ⟨⟨buffers,here⟩,sends⟩ := places
  rw [pass]
  dsimp only
  split
  · refine ⟨⟨buffers,fun i => ?_⟩,sends⟩
    by_cases current : i = d.current_recv_buffer
    · simp [current,here]
    · simp [current,here]
  · exact ⟨⟨buffers,here⟩,sends⟩

theorem places_reached {c : Card} (reached : Reached rings c) : Places c.driver := by
  refine @reached_invariant _ _ _ (fun c => Places c.driver) ?_ ?_ _ reached
  · rintro c ⟨send_buffers,recv_buffers,memory,rfl⟩
    exact ⟨⟨recv_buffers,fun _ => rfl⟩,send_buffers,fun _ => rfl⟩
  · rintro c a c' places step
    cases step with
    | write flags2 bytes given short =>
      obtain ⟨⟨buffers,here⟩,sends⟩ := places
      rw [write]
      dsimp only
      split
      · refine ⟨⟨buffers,fun i => ?_⟩,sends⟩
        by_cases current : i = c.current
        · simp [current,here]
        · simp [current,here]
      · exact ⟨⟨buffers,here⟩,sends⟩
    | interrupt done => exact recieve_keeps (fun _ places _ => places_pass places) places done

theorem load_store (memory : Memory) (address : Word) {bytes : List UInt8} (short : bytes.length < 2 ^ 12) :
    load (store memory address bytes) address bytes.length = bytes := by
  apply List.ext_getElem?
  intro i
  by_cases inside : i < bytes.length
  · have offset : (address + BitVec.ofNat 32 i - address).toNat = i := by
      have bound := address.isLt
      rw [BitVec.toNat_sub,BitVec.toNat_add,BitVec.toNat_ofNat]
      omega
    rw [load,List.getElem?_map,List.getElem?_range inside,Option.map_some,store,offset,List.getElem?_eq_getElem inside]
    rfl
  · rw [List.getElem?_eq_none,List.getElem?_eq_none]
    · omega
    · simp only [load,List.length_map,List.length_range]
      omega

theorem load_take (memory : Memory) (address : Word) {k n : Nat} (less : k ≤ n) :
    load memory address k = (load memory address n).take k := by
  rw [load,load,← List.map_take,List.take_range,Nat.min_eq_left less]

/-- All frames were handed on. -/
structure Idle (c : Card) : Prop where
  owned : ∀ i, Owned (c.driver.recv_buffer_descr i).flags
  same : c.driver.current_recv_buffer = c.current
  handed : c.driver.delivered = c.frames

/-- One good frame waits at the current descriptor. -/
structure Full (c : Card) (bytes : List UInt8) : Prop where
  next : c.current = c.driver.current_recv_buffer + 1
  given : ¬ Owned (c.driver.recv_buffer_descr c.driver.current_recv_buffer).flags
  good : Good (c.driver.recv_buffer_descr c.driver.current_recv_buffer).flags
  size : ((c.driver.recv_buffer_descr c.driver.current_recv_buffer).flags &&& 0xFFF).toNat = bytes.length
  content : load c.driver.memory (c.driver.recv_buffer_descr c.driver.current_recv_buffer).address bytes.length = bytes
  owned : ∀ i, i ≠ c.driver.current_recv_buffer → Owned (c.driver.recv_buffer_descr i).flags
  frame : c.frames = c.driver.delivered ++ [payload bytes]

section
variable {c : Card} {bytes : List UInt8}

theorem full_pass (full : Full c bytes) : Idle { c with driver := pass c.driver } := by
  constructor
  · intro i
    by_cases here : i = c.driver.current_recv_buffer
    · dsimp only
      rw [here,pass_good full.good]
      exact given_owned
    · dsimp only
      rw [pass_other here]
      exact full.owned i here
  · dsimp only
    rw [pass_current,full.next]
  · dsimp only
    rw [pass,full.frame]
    dsimp only
    rw [if_pos full.good,full.size]
    have read : load c.driver.memory (c.driver.recv_buffer_descr c.driver.current_recv_buffer).address
        (if bytes.length > 64 then bytes.length - 4 else bytes.length) = payload bytes := by
      rw [payload]
      split
      · rw [load_take _ _ (Nat.sub_le _ 4),full.content]
      · exact full.content
    rw [read]

theorem full_recieve (full : Full c bytes) (fuel : Nat) :
    am79C973_recieve (fuel + 2) c.driver = some (pass c.driver,[c.driver.current_recv_buffer]) := by
  have owned : Owned ((pass c.driver).recv_buffer_descr (pass c.driver).current_recv_buffer).flags := (full_pass full).owned _
  rw [recieve_pass (fuel + 1) full.given,recieve_stop fuel owned]
  rfl

theorem alone_serves (reached : Reached (guarded rings Alone) c) : Idle c ∨ ∃ bytes, Full c bytes := by
  refine @guarded_invariant _ _ _ _ (fun c => Idle c ∨ ∃ bytes, Full c bytes) ?_ ?_ _ reached
  · rintro c ⟨send_buffers,recv_buffers,memory,rfl⟩
    exact .inl ⟨fun _ => (by decide : Owned (0xF7FF ||| 0x80000000)),rfl,rfl⟩
  · rintro c a c' state step alone
    cases step with
    | write flags2 bytes given short =>
      obtain ⟨owned,good,size⟩ := alone
      have idle : Idle c := by
        rcases state with idle | ⟨_,full⟩
        · exact idle
        · exact absurd (owned _) full.given
      right
      refine ⟨bytes,?_⟩
      rw [write,if_pos (owned _)]
      have same := idle.same
      constructor
      · dsimp only
        rw [same]
      · dsimp only
        rw [same,Function.update_self]
        exact given
      · dsimp only
        rw [same,Function.update_self]
        exact good
      · dsimp only
        rw [same,Function.update_self]
        exact size
      · dsimp only
        rw [same,Function.update_self]
        exact load_store _ _ short
      · intro i other
        dsimp only at other ⊢
        rw [same] at other
        rw [Function.update_of_ne other]
        exact owned i
      · dsimp only
        rw [if_pos good,idle.handed]
    | interrupt done =>
      rename_i fuel d passed
      left
      rcases state with idle | ⟨bytes,full⟩
      · cases fuel with
        | zero => cases done
        | succ fuel =>
          rw [recieve_stop fuel (idle.owned _)] at done
          cases done
          exact idle
      · rcases fuel with - | - | fuel
        · cases done
        · rw [recieve_pass 0 full.given] at done
          cases done
        · rw [full_recieve full fuel] at done
          cases done
          exact full_pass full

end

/-- In every state reached the buffers overlap. The loop ends exactly when the card owns a descriptor or one holds a good
    frame, and gives all descriptors back that it passes over exactly when all of them hold good frames; and it serves the
    card as long as each frame is a good one that is written after the last one was handed on. -/
theorem rings_fail {c : Card} (reached : Reached rings c) :
    ¬ Correct c ∧
      ((∃ fuel r, am79C973_recieve fuel c.driver = some r) ↔
        ∃ i, Owned (c.driver.recv_buffer_descr i).flags ∨ Good (c.driver.recv_buffer_descr i).flags) ∧
      ((∃ fuel r passed, am79C973_recieve fuel c.driver = some (r,passed) ∧ ∀ i ∈ passed, Owned (r.recv_buffer_descr i).flags) ↔
        ∀ i, Waiting c.driver i → Good (c.driver.recv_buffer_descr i).flags) ∧
      (Reached (guarded rings Alone) c → Serves c) := by
  obtain ⟨⟨buffers,places⟩,_⟩ := places_reached reached
  refine ⟨fun correct => not_disjoint places correct.recv_buffers,recieve_ends,gives_back,?_⟩
  intro alone
  rcases alone_serves alone with idle | ⟨bytes,full⟩
  · exact ⟨1,_,_,recieve_stop 0 (idle.owned _),idle.handed,by simp⟩
  · refine ⟨2,_,_,full_recieve full 0,(full_pass full).handed,?_⟩
    intro i _
    exact (full_pass full).owned i

/-- The rings after the start, with their memory at 0x10000 and 0x20000. -/
def example_start : Card := ⟨am79C973_init 0x10000 0x20000 fun _ => 0,0,[]⟩

/-- A frame of four bytes, which is handed on, and then one of two bytes. -/
def first_frame : Card := write example_start 0x03000004 0 [1,2,3,4]
def first_told : Card := { first_frame with driver := pass first_frame.driver }
def second_frame : Card := write first_told 0x03000002 0 [5,6]

theorem rings_fail_second : ¬ Correct second_frame ∧ Serves second_frame ∧ second_frame.driver.delivered = [[1,2,3,4]] ∧
    second_frame.frames = [[1,2,3,4],[5,6]] := by
  have begins : rings.start example_start := ⟨_,_,_,rfl⟩
  have first : (guarded rings Alone).step example_start (.write 0x03000004 0 [1,2,3,4]) first_frame :=
    ⟨.write _ _ _ (by decide) (by decide),by decide,by decide,by decide⟩
  have told : (guarded rings Alone).step first_frame .interrupt first_told :=
    ⟨@Step.interrupt first_frame 2 (pass first_frame.driver) [0] rfl,trivial⟩
  have second : (guarded rings Alone).step first_told (.write 0x03000002 0 [5,6]) second_frame :=
    ⟨.write _ _ _ (by decide) (by decide),by decide,by decide,by decide⟩
  have run := Run.step first (.step told (.step second (.done _)))
  have fails := rings_fail ⟨_,_,begins,guarded_run run⟩
  exact ⟨fails.1,fails.2.2.2 ⟨_,_,begins,run⟩,rfl,rfl⟩

/-- The buffers of the descriptors 1 and 2. -/
theorem shared_buffer : ¬ ∀ c, Reached rings c → Correct c := by
  intro claim
  have correct := claim example_start ⟨example_start,[],⟨_,_,_,rfl⟩,.done _⟩
  exact absurd (correct.recv_buffers 1 2 (by decide)) (by decide)

end MicroOS.Am79C973

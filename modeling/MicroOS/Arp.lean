import MicroOS.Rings

/-!
Responses to this host put an address and a MAC into two arrays that are written like a ring; an
address that is there is left alone. The main theorem is `arp_cache`: what the cache returns after
any frames.
-/

namespace MicroOS.Arp
open Rings

def CACHE_SIZE : Nat := 128
def NOMAC : BitVec 64 := 0xFFFFFFFFFFFF
def NOIP : BitVec 32 := 0xFFFFFFFF

/-- `arp_message_t`. -/
structure Message where
  hardware_type : BitVec 16
  protocol : BitVec 16
  hardware_address_size : BitVec 8
  protocol_address_size : BitVec 8
  command : BitVec 16
  src_mac : BitVec 48
  src_ip : BitVec 32
  dest_mac : BitVec 48
  dest_ip : BitVec 32

def sizeof_message : Nat := 28

/-- The arrays of `arp_provider_t`; a `mac_u` is a word of 64 bits. -/
structure Provider where
  ip_cache : Nat → BitVec 32
  mac_cache : Nat → BitVec 64
  num_cache_entry : Nat

/-- The address of this host. -/
structure Host where
  ip : BitVec 32
  mac : BitVec 48

/-- `arp_init`. -/
def start : Provider := ⟨fun _ => BitVec.allOnes 32,fun _ => BitVec.allOnes 64,0⟩

def find (arp : Provider) (ip : BitVec 32) : Option Nat := (List.range CACHE_SIZE).find? fun i => arp.ip_cache i == ip

def arp_add_to_cache (arp : Provider) (mac : BitVec 64) (ip : BitVec 32) : Provider :=
  if (find arp ip).isSome then arp
  else
    let n := if !(arp.num_cache_entry < 128) then 0 else arp.num_cache_entry
    ⟨Function.update arp.ip_cache n ip,Function.update arp.mac_cache n mac,n + 1⟩

/-- The cache after a frame, and the response that is sent. -/
def arp_etherframe_recv (host : Host) (arp : Provider) (payload : Message) (size : Nat) : Provider × Option Message :=
  if size < sizeof_message then (arp,none)
  else if payload.hardware_type = 0x0100 then
    if payload.protocol = 0x0008 && payload.hardware_address_size = 6 && payload.protocol_address_size = 4 && payload.dest_ip = host.ip then
      if payload.command = 0x0100 then
        (arp,some { payload with
          command := 0x0200
          dest_ip := payload.src_ip
          dest_mac := payload.src_mac
          src_ip := host.ip
          src_mac := host.mac })
      else if payload.command = 0x0200 then (arp_add_to_cache arp (payload.src_mac.setWidth 64) payload.src_ip,none)
      else (arp,none)
    else (arp,none)
  else (arp,none)

def arp_get_mac_from_cache (arp : Provider) (ip : BitVec 32) : BitVec 64 :=
  match find arp ip with
  | some i => arp.mac_cache i
  | none => NOMAC

/-- Frames as they arrive, each with its size. -/
def received (host : Host) (frames : List (Message × Nat)) : Provider :=
  frames.foldl (fun arp frame => (arp_etherframe_recv host arp frame.1 frame.2).1) start

/-- An ARP response to this host. -/
def Response (host : Host) (frame : Message × Nat) : Prop :=
  sizeof_message ≤ frame.2 ∧ frame.1.hardware_type = 0x0100 ∧ frame.1.protocol = 0x0008 ∧ frame.1.hardware_address_size = 6 ∧
    frame.1.protocol_address_size = 4 ∧ frame.1.dest_ip = host.ip ∧ frame.1.command = 0x0200

instance (host : Host) (frame : Message × Nat) : Decidable (Response host frame) := inferInstanceAs (Decidable (_ ∧ _))

/-- Who answered with which MAC, in order. -/
def responses (host : Host) (frames : List (Message × Nat)) : List (BitVec 32 × BitVec 64) :=
  (frames.filter fun frame => Response host frame).map fun frame => (frame.1.src_ip,frame.1.src_mac.setWidth 64)

/-- An address is known while it is among the last insertions; the empty slots of a cache that has not been filled
    hold NOIP. -/
def Known (log : List (BitVec 32 × BitVec 64)) (ip : BitVec 32) : Prop :=
  (∃ e ∈ log.take CACHE_SIZE, e.1 = ip) ∨ (ip = NOIP ∧ log.length < CACHE_SIZE)

instance (log : List (BitVec 32 × BitVec 64)) (ip : BitVec 32) : Decidable (Known log ip) := inferInstanceAs (Decidable (_ ∨ _))

/-- A response inserts its address unless it is known. -/
def insertion (log : List (BitVec 32 × BitVec 64)) (e : BitVec 32 × BitVec 64) : List (BitVec 32 × BitVec 64) :=
  if Known log e.1 then log else e :: log

/-- The insertions that the responses lead to, the last one first. -/
def insertions (host : Host) (frames : List (Message × Nat)) : List (BitVec 32 × BitVec 64) := (responses host frames).foldl insertion []

def slot (arp : Provider) (j : Nat) : BitVec 32 × BitVec 64 := (arp.ip_cache j,arp.mac_cache j)

/-- The cache holds the last insertions, of which no two have one address. -/
structure Holds (arp : Provider) (log : List (BitVec 32 × BitVec 64)) : Prop where
  keeps : Keeps CACHE_SIZE (NOIP,BitVec.allOnes 64) (slot arp) log
  index : arp.num_cache_entry ≤ CACHE_SIZE ∧ arp.num_cache_entry % CACHE_SIZE = log.length % CACHE_SIZE
  apart : ((log.take CACHE_SIZE).map Prod.fst).Nodup

theorem holds_start : Holds start [] := ⟨keeps_nil _ _,by decide,List.nodup_nil⟩

section
variable {arp : Provider} {log : List (BitVec 32 × BitVec 64)} {ip : BitVec 32} {mac : BitVec 64}

/-- Where an address is found, and what is there. -/
theorem find_cases (holds : Holds arp log) (ip : BitVec 32) :
    (∃ i e, find arp ip = some i ∧ e ∈ log.take CACHE_SIZE ∧ e.1 = ip ∧ arp.mac_cache i = e.2) ∨
      ((∀ e ∈ log.take CACHE_SIZE, e.1 ≠ ip) ∧
        ((∃ i, find arp ip = some i ∧ ip = NOIP ∧ log.length < CACHE_SIZE) ∨
          (find arp ip = none ∧ ¬ (ip = NOIP ∧ log.length < CACHE_SIZE)))) := by
  rcases find_slot holds.keeps (fun e => e.1 == ip) with ⟨e,member,matching,found⟩ | ⟨absent,found⟩
  · left
    obtain ⟨i,place,rfl⟩ := Option.map_eq_some_iff.1 found
    exact ⟨i,_,place,member,beq_iff_eq.1 matching,rfl⟩
  · refine .inr ⟨fun e member => beq_eq_false_iff_ne.1 (absent e member),?_⟩
    by_cases free : ip = NOIP ∧ log.length < CACHE_SIZE
    · left
      rw [if_pos ⟨beq_iff_eq.2 free.1.symm,free.2⟩] at found
      obtain ⟨i,place,-⟩ := Option.map_eq_some_iff.1 found
      exact ⟨i,place,free⟩
    · right
      rw [if_neg fun both => free ⟨(beq_iff_eq.1 both.1).symm,both.2⟩] at found
      exact ⟨Option.map_eq_none_iff.1 found,free⟩

theorem known_iff (holds : Holds arp log) : (find arp ip).isSome = true ↔ Known log ip := by
  rcases find_cases holds ip with ⟨i,e,place,member,same,-⟩ | ⟨absent,⟨i,place,free⟩ | ⟨place,full⟩⟩
  · rw [place]
    exact iff_of_true rfl (.inl ⟨e,member,same⟩)
  · rw [place]
    exact iff_of_true rfl (.inr free)
  · rw [place]
    refine iff_of_false (by simp) ?_
    rintro (⟨e,member,same⟩ | free)
    · exact absent e member same
    · exact full free

/-- A response keeps the cache a ring of the insertions. -/
theorem holds_add (holds : Holds arp log) : Holds (arp_add_to_cache arp mac ip) (insertion log (ip,mac)) := by
  rw [arp_add_to_cache,insertion]
  by_cases known : Known log ip
  · rw [if_pos ((known_iff holds).2 known),if_pos known]
    exact holds
  · rw [if_neg fun found => known ((known_iff holds).1 found),if_neg known]
    obtain ⟨inside,same⟩ := holds.index
    have max : CACHE_SIZE = 128 := rfl
    rw [max] at inside same
    have index : (if (!decide (arp.num_cache_entry < 128)) = true then 0 else arp.num_cache_entry) = log.length % CACHE_SIZE := by
      split
      · rename_i full
        simp only [Bool.not_eq_true',decide_eq_false_iff_not] at full
        rw [max]
        omega
      · rename_i free
        simp only [Bool.not_eq_true',decide_eq_false_iff_not] at free
        rw [max]
        omega
    dsimp only
    rw [index]
    refine ⟨?_,?_,?_⟩
    · have pushed := keeps_push holds.keeps (ip,mac)
      have slots : slot ⟨Function.update arp.ip_cache (log.length % CACHE_SIZE) ip,Function.update arp.mac_cache (log.length % CACHE_SIZE) mac,
          log.length % CACHE_SIZE + 1⟩ = Function.update (slot arp) (log.length % CACHE_SIZE) (ip,mac) := by
        funext j
        by_cases here : j = log.length % CACHE_SIZE
        · simp [slot,here]
        · simp [slot,here]
      rw [slots]
      exact pushed
    · rw [List.length_cons,max]
      dsimp only
      omega
    · have window : (((ip,mac) :: log).take CACHE_SIZE).map Prod.fst = ip :: (log.take 127).map Prod.fst := rfl
      have part : log.take 127 = (log.take CACHE_SIZE).take 127 := by rw [List.take_take]; rfl
      rw [window,part,List.map_take]
      refine List.nodup_cons.2 ⟨fun member => known (.inl ?_),holds.apart.sublist (List.take_sublist _ _)⟩
      obtain ⟨e,listed,same⟩ := List.mem_map.1 (List.mem_of_mem_take member)
      exact ⟨e,listed,same⟩

end

/-- What a frame does to the cache. -/
theorem recv_cache (host : Host) (arp : Provider) (frame : Message × Nat) : (arp_etherframe_recv host arp frame.1 frame.2).1 =
    if Response host frame then arp_add_to_cache arp (frame.1.src_mac.setWidth 64) frame.1.src_ip else arp := by
  rw [arp_etherframe_recv]
  by_cases response : Response host frame
  · obtain ⟨size,hardware,protocol,length,length',here,command⟩ := id response
    rw [if_pos response,if_neg (by omega),if_pos hardware,if_pos (by simp [protocol,length,length',here]),if_neg (by rw [command]; decide),
      if_pos command]
  · rw [if_neg response]
    split
    · rfl
    · rename_i size
      split
      · rename_i hardware
        split
        · rename_i others
          simp only [Bool.and_eq_true,decide_eq_true_eq] at others
          obtain ⟨⟨⟨protocol,length⟩,length'⟩,here⟩ := others
          split
          · rfl
          · split
            · rename_i command
              exact absurd ⟨Nat.le_of_not_lt size,hardware,protocol,length,length',here,command⟩ response
            · rfl
        · rfl
      · rfl

theorem holds_received (host : Host) (frames : List (Message × Nat)) : Holds (received host frames) (insertions host frames) := by
  induction frames using List.reverseRecOn with
  | nil => exact holds_start
  | append_singleton frames frame ih =>
    have step : received host (frames ++ [frame]) = (arp_etherframe_recv host (received host frames) frame.1 frame.2).1 := by
      rw [received,List.foldl_append]
      rfl
    rw [step,recv_cache,insertions,responses,List.filter_append,List.map_append,List.foldl_append]
    by_cases response : Response host frame
    · have one : [frame].filter (fun frame => decide (Response host frame)) = [frame] := by simp [response]
      rw [if_pos response,one]
      exact holds_add ih
    · have none_left : [frame].filter (fun frame => decide (Response host frame)) = [] := by simp [response]
      rw [if_neg response,none_left]
      exact ih

/-- Only responses are inserted. -/
theorem inserted_response (host : Host) (frames : List (Message × Nat)) : ∀ e ∈ insertions host frames, e ∈ responses host frames := by
  have grows : ∀ rs log : List (BitVec 32 × BitVec 64), (∀ e ∈ log, e ∈ responses host frames) →
      (∀ e ∈ rs, e ∈ responses host frames) →
      ∀ e ∈ rs.foldl insertion log, e ∈ responses host frames := by
    intro rs
    induction rs with
    | nil => exact fun log old _ => old
    | cons r rest ih =>
      intro log old new
      apply ih (insertion log r) ?_ fun e member => new e (List.mem_cons_of_mem r member)
      rw [insertion]
      split
      · exact old
      · intro e member
        rcases List.mem_cons.1 member with rfl | before
        · exact new e (List.mem_cons_self ..)
        · exact old e before
  exact grows _ [] (fun e member => absurd member (List.not_mem_nil)) fun e member => member

section
variable {arp : Provider} {log : List (BitVec 32 × BitVec 64)}

/-- The address of a window is there once. -/
theorem window_unique (holds : Holds arp log) {d e : BitVec 32 × BitVec 64} (first : d ∈ log.take CACHE_SIZE) (second : e ∈ log.take CACHE_SIZE)
    (same : d.1 = e.1) : d = e := List.inj_on_of_nodup_map holds.apart first second same

theorem slots_apart (holds : Holds arp log) {i j : Nat} (first : i < CACHE_SIZE) (second : j < CACHE_SIZE)
    (same : arp.ip_cache i = arp.ip_cache j) (used : arp.ip_cache i ≠ NOIP) : i = j := by
  rcases slot_cases holds.keeps first with ⟨k,inside,found,place⟩ | ⟨-,free⟩
  · rcases slot_cases holds.keeps second with ⟨l,inside',found',place'⟩ | ⟨-,free⟩
    · have before := (List.getElem?_eq_some_iff.1 found).1
      have one : k = l := by
        have at_k : ((log.take CACHE_SIZE).map Prod.fst)[k]? = some (arp.ip_cache i) := by
          rw [List.getElem?_map,List.getElem?_take,if_pos inside,found]
          rfl
        have at_l : ((log.take CACHE_SIZE).map Prod.fst)[l]? = some (arp.ip_cache i) := by
          rw [List.getElem?_map,List.getElem?_take,if_pos inside',found',same]
          rfl
        refine (List.getElem?_inj ?_ holds.apart).1 (at_k.trans at_l.symm)
        rw [List.length_map,List.length_take]
        omega
      rw [place,place',one]
    · rw [same] at used
      exact absurd (congrArg Prod.fst free) used
  · exact absurd (congrArg Prod.fst free) used

end

/-- After any frames: an address among the last 128 insertions is found with the MAC it was inserted with, every other
    one is not found; no address but NOIP is in two slots; and another response changes no slot outside the arrays. -/
theorem arp_cache (host : Host) (frames : List (Message × Nat)) :
    (∀ ip ≠ NOIP, (∀ mac, (ip,mac) ∈ (insertions host frames).take CACHE_SIZE → arp_get_mac_from_cache (received host frames) ip = mac) ∧
      ((∀ mac, (ip,mac) ∉ (insertions host frames).take CACHE_SIZE) → arp_get_mac_from_cache (received host frames) ip = NOMAC)) ∧
    (∀ ip ≠ NOIP, (∀ mac, (ip,mac) ∉ responses host frames) → arp_get_mac_from_cache (received host frames) ip = NOMAC) ∧
    (∀ i < CACHE_SIZE, ∀ j < CACHE_SIZE, (received host frames).ip_cache i = (received host frames).ip_cache j →
      (received host frames).ip_cache i ≠ NOIP → i = j) ∧
    ∀ mac ip, ∀ j ≥ CACHE_SIZE, slot (arp_add_to_cache (received host frames) mac ip) j = slot (received host frames) j := by
  have holds := holds_received host frames
  have missing : ∀ ip ≠ NOIP, (∀ mac, (ip,mac) ∉ (insertions host frames).take CACHE_SIZE) →
      arp_get_mac_from_cache (received host frames) ip = NOMAC := by
    intro ip other absent
    rw [arp_get_mac_from_cache]
    rcases find_cases holds ip with ⟨i,e,place,member,rfl,-⟩ | ⟨-,⟨i,-,free,-⟩ | ⟨place,-⟩⟩
    · exact absurd member (absent e.2)
    · exact absurd free other
    · rw [place]
  refine ⟨fun ip other => ⟨fun mac member => ?_,missing ip other⟩,?_,?_,?_⟩
  · rw [arp_get_mac_from_cache]
    rcases find_cases holds ip with ⟨i,e,place,there,same,stored⟩ | ⟨absent,-⟩
    · rw [place]
      dsimp only
      rw [stored,window_unique holds there member same]
    · exact absurd rfl (absent _ member)
  · intro ip other never
    exact missing ip other fun mac member => never mac (inserted_response host frames _ (List.mem_of_mem_take member))
  · intro i first j second same used
    exact slots_apart holds first second same used
  · intro mac ip j outside
    rw [arp_add_to_cache]
    split
    · rfl
    · have other : j ≠ if (!decide ((received host frames).num_cache_entry < 128)) = true then 0 else (received host frames).num_cache_entry := by
        have max : CACHE_SIZE = 128 := rfl
        split
        · omega
        · rename_i free
          simp only [Bool.not_eq_true',decide_eq_false_iff_not] at free
          omega
      simp only [slot,Function.update_of_ne other]

def answer (mac : BitVec 48) : Message × Nat := (⟨0x0100,0x0008,6,4,0x0200,mac,1,2,7⟩,28)

theorem arp_cache_answer : arp_get_mac_from_cache (received ⟨7,2⟩ [answer 3]) 1 = 3 :=
  ((arp_cache ⟨7,2⟩ [answer 3]).1 1 (by decide)).1 3 (by decide)

/-- A host answers with one MAC and later with another one. -/
theorem stale_mac : ¬ ∀ host frames ip mac, (responses host frames).reverse.find? (fun e => e.1 == ip) = some (ip,mac) →
    (∃ old, (ip,old) ∈ (insertions host frames).take CACHE_SIZE) → arp_get_mac_from_cache (received host frames) ip = mac := by
  intro claim
  have latest := claim ⟨7,2⟩ [answer 3,answer 4] 1 4 (by decide) ⟨3,by decide⟩
  exact absurd latest (by decide)

end MicroOS.Arp

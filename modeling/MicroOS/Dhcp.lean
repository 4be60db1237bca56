import Mathlib.Algebra.Group.Nat.Defs
import Mathlib.Data.List.Basic
import MicroOS.OptionLists

/-! The options of DHCP packets: how the client writes its own and reads those it receives (`dhcp/main.c`). -/

namespace MicroOS.Dhcp
open OptionLists

def DHCP_REQUEST : UInt8 := 1

/-- The bytes of a 32-bit value in memory, and those of its `BSWAP32`. -/
def word_bytes (v : BitVec 32) : List UInt8 := (List.range 4).map fun i => UInt8.ofNat (v.toNat / 2 ^ (8 * i))
def swapped_bytes (v : BitVec 32) : List UInt8 := (word_bytes v).reverse

/-- The options of a packet being written: the memory from their start, the pointer `options` as an offset, and the
    places written so far. -/
@[ext] structure Writer where
  memory : Nat → UInt8
  options : Nat
  writes : List Nat

/-- Stores bytes at the pointer, which stays. -/
def Writer.store (w : Writer) (bytes : List UInt8) : Writer :=
  { w with memory := fun i => if w.options ≤ i then (bytes[i - w.options]?).getD (w.memory i) else w.memory i
           writes := w.writes ++ List.range' w.options bytes.length }

def Writer.advance (w : Writer) (n : Nat) : Writer := { w with options := w.options + n }

@[simp] theorem Writer.store_options (w : Writer) (bytes : List UInt8) : (w.store bytes).options = w.options := rfl
@[simp] theorem Writer.advance_options (w : Writer) (n : Nat) : (w.advance n).options = w.options + n := rfl
@[simp] theorem Writer.advance_memory (w : Writer) (n : Nat) : (w.advance n).memory = w.memory := rfl

theorem Writer.store_before {w : Writer} {i : Nat} (before : i < w.options) (bytes : List UInt8) :
    (w.store bytes).memory i = w.memory i := if_neg (Nat.not_le.mpr before)

theorem Writer.store_behind (w : Writer) (bytes : List UInt8) (k : Nat) :
    (w.store bytes).memory (w.options + k) = (bytes[k]?).getD (w.memory (w.options + k)) := by
  simp [Writer.store]

/-- `*(options++) = b`. -/
def Writer.put (w : Writer) (b : UInt8) : Writer := (w.store [b]).advance 1

structure dhcp_packet_t where
  op : UInt8
  hardware_type : UInt8
  hardware_addr_len : UInt8
  hops : UInt8
  xid : List UInt8
  flags : BitVec 16
  client_hardware_addr : List UInt8
  options : Writer

/-- The address in a `mac_u`, which is as large as its 64-bit member. -/
def mac_p (mac : Vector UInt8 8) : List UInt8 := mac.toList.take 6

def dhcp_make_packet (packet : dhcp_packet_t) (msg_type : UInt8) (request_ip transaction_identifier : BitVec 32)
    (hostname : List UInt8) (mac : Vector UInt8 8) : dhcp_packet_t :=
  let options := (packet.options.store (swapped_bytes 0x63825363#32)).advance 4
  let options := ((options.put 53).put 1).put msg_type
  let options := ((((options.put 61).put 7).put 1).store mac.toList).advance 6
  let options := ((((options.put 50).put 4).store (swapped_bytes 0x0a00020e#32)).store (word_bytes request_ip)).advance 4
  let options := (((options.put 12).put (UInt8.ofNat (1 + hostname.length))).store hostname).advance hostname.length
  let options := options.put 0
  let options := ((((options.put 55).put 8).put 0x1).put 0x3).put 0x6
  let options := ((((options.put 0xf).put 0x2c).put 0x2e).put 0x2f).put 0x39
  { packet with
    op := DHCP_REQUEST
    hardware_type := 1
    hardware_addr_len := 6
    hops := 0
    xid := swapped_bytes transaction_identifier
    flags := 0
    client_hardware_addr := mac.toList ++ packet.client_hardware_addr.drop 8
    options := options.put 0xff }

/-- What the search for an option returns, or that it leaves the bytes received. -/
inductive Found where
  | pointer (place : Nat)
  | null
  | outside
  deriving DecidableEq

/-- The loop of the search; `bytes` are those received from the pointer `options` on. -/
def options_loop (type : UInt8) (options : Nat) : List UInt8 → Found
  | [] => .outside
  | [curr_type] => if curr_type ≠ 0xff then .outside else .null
  | curr_type :: len :: rest =>
    if curr_type ≠ 0xff then
      if curr_type = type then .pointer (options + 2)
      else options_loop type (options + (2 + len.toNat)) (rest.drop len.toNat)
    else .null
termination_by bytes => bytes.length
decreasing_by simp; omega

/-- The offset of `options` in the packet. -/
def options_at : Nat := 236

def dhcp_get_options (packet : List UInt8) (type : UInt8) : Found :=
  options_loop type (options_at + 4) (packet.drop (options_at + 4))

/-- The options hold these bytes from their start, nothing behind them was written and the pointer is there. -/
structure Wrote (w : Writer) (bytes : List UInt8) : Prop where
  options : w.options = bytes.length
  memory : ∀ i, i < bytes.length → bytes[i]? = some (w.memory i)
  writes : ∀ i, i ∈ w.writes ↔ i < bytes.length

theorem Wrote.append {w : Writer} {bytes : List UInt8} (wrote : Wrote w bytes) (more : List UInt8) :
    Wrote ((w.store more).advance more.length) (bytes ++ more) where
  options := by simp [Writer.store,Writer.advance,wrote.options]
  memory i inside := by
    simp only [Writer.store,Writer.advance,wrote.options]
    by_cases old : i < bytes.length
    · rw [if_neg (Nat.not_le.mpr old),List.getElem?_append_left old,wrote.memory i old]
    · have new : i - bytes.length < more.length := by
        rw [List.length_append] at inside
        omega
      rw [if_pos (Nat.not_lt.mp old),List.getElem?_append_right (Nat.not_lt.mp old),List.getElem?_eq_getElem new,
        Option.getD_some]
  writes i := by
    simp only [Writer.store,Writer.advance,List.mem_append,wrote.writes,List.mem_range'_1,wrote.options,List.length_append]
    omega

theorem Wrote.put {w : Writer} {bytes : List UInt8} (wrote : Wrote w bytes) (b : UInt8) : Wrote (w.put b) (bytes ++ [b]) :=
  wrote.append [b]

/-- Bytes stored over others of the same length. -/
theorem store_store (w : Writer) {first second : List UInt8} (same : first.length = second.length) :
    ((w.store first).store second).memory = (w.store second).memory ∧
      ∀ i, i ∈ ((w.store first).store second).writes ↔ i ∈ (w.store second).writes := by
  refine ⟨funext fun i => ?_,fun i => ?_⟩
  · simp only [Writer.store]
    by_cases behind : w.options ≤ i
    · simp only [if_pos behind]
      by_cases inside : i - w.options < second.length
      · rw [List.getElem?_eq_getElem inside,Option.getD_some,Option.getD_some]
      · rw [List.getElem?_eq_none (Nat.not_lt.mp inside),List.getElem?_eq_none (same ▸ Nat.not_lt.mp inside)]
        rfl
    · simp only [if_neg behind]
  · simp [Writer.store,same]

theorem Wrote.append_over {w : Writer} {bytes : List UInt8} (wrote : Wrote w bytes) {first second : List UInt8}
    (same : first.length = second.length) :
    Wrote (((w.store first).store second).advance second.length) (bytes ++ second) := by
  have once := wrote.append second
  obtain ⟨memory,writes⟩ := store_store w same
  exact ⟨once.options,fun i inside => (once.memory i inside).trans (congrArg some (congrFun memory i).symm),
    fun i => (writes i).trans (once.writes i)⟩

theorem mac_p_length (mac : Vector UInt8 8) : (mac_p mac).length = 6 := by simp [mac_p]

theorem put_put (w : Writer) (a b : UInt8) : (w.put a).put b = (w.store [a, b]).advance 2 := by
  have memory : ((w.put a).put b).memory = ((w.store [a, b]).advance 2).memory := by
    funext i
    have next : (w.put a).options = w.options + 1 := rfl
    obtain before | here := Nat.lt_or_ge i w.options
    · have early : i < (w.put a).options := by omega
      rw [Writer.put, Writer.advance_memory, Writer.store_before early, Writer.put, Writer.advance_memory,
        Writer.store_before before, Writer.advance_memory, Writer.store_before before]
    · obtain ⟨k, rfl⟩ := Nat.exists_eq_add_of_le here
      cases k with
      | zero =>
        have early : w.options + 0 < (w.put a).options := by omega
        rw [Writer.put, Writer.advance_memory, Writer.store_before early, Writer.put, Writer.advance_memory,
          Writer.store_behind, Writer.advance_memory, Writer.store_behind]
        rfl
      | succ k =>
        have place : w.options + (k + 1) = (w.put a).options + k := by omega
        have second : ((w.put a).put b).memory (w.options + (k + 1)) = ([b][k]?).getD ((w.put a).memory (w.options + (k + 1))) := by
          rw [Writer.put, Writer.advance_memory, place, Writer.store_behind]
        rw [second, Writer.put, Writer.advance_memory, Writer.store_behind, Writer.advance_memory, Writer.store_behind]
        simp
  have writes : ((w.put a).put b).writes = ((w.store [a, b]).advance 2).writes := by
    simp [Writer.put, Writer.store, Writer.advance, List.range'_succ]
  exact Writer.ext memory rfl writes

/-- Bytes that were stored too many go when the next ones are written. -/
theorem Wrote.append_spilled {w : Writer} {bytes : List UInt8} (wrote : Wrote w bytes) {more extra second : List UInt8}
    (short : extra.length ≤ second.length) :
    Wrote ((((w.store (more ++ extra)).advance more.length).store second).advance second.length) (bytes ++ (more ++ second)) := by
  have once := wrote.append (more ++ second)
  have memory : (((w.store (more ++ extra)).advance more.length).store second).memory = (w.store (more ++ second)).memory := by
    funext i
    have next : ((w.store (more ++ extra)).advance more.length).options = w.options + more.length := rfl
    obtain before | here := Nat.lt_or_ge i (w.options + more.length)
    · rw [Writer.store_before (next ▸ before), Writer.advance_memory]
      obtain early | late := Nat.lt_or_ge i w.options
      · rw [Writer.store_before early, Writer.store_before early]
      · obtain ⟨k, rfl⟩ := Nat.exists_eq_add_of_le late
        have inside : k < more.length := by omega
        rw [Writer.store_behind, Writer.store_behind, List.getElem?_append_left inside, List.getElem?_append_left inside]
    · obtain ⟨k, rfl⟩ := Nat.exists_eq_add_of_le here
      rw [← next, Writer.store_behind, next, Writer.advance_memory, Nat.add_assoc, Writer.store_behind, Writer.store_behind,
        List.getElem?_append_right (Nat.le_add_right _ _), List.getElem?_append_right (Nat.le_add_right _ _),
        Nat.add_sub_cancel_left]
      -- the bytes too many are no more than those that follow
      obtain inside | behind := Nat.lt_or_ge k second.length
      · rw [List.getElem?_eq_getElem inside, Option.getD_some, Option.getD_some]
      · rw [List.getElem?_eq_none behind, List.getElem?_eq_none (Nat.le_trans short behind)]
        rfl
  refine ⟨?_,fun i inside => ?_,fun i => ?_⟩
  · simp [Writer.store,Writer.advance,wrote.options,Nat.add_assoc]
  · rw [once.memory i inside]
    exact congrArg some (congrFun memory i).symm
  · simp only [Writer.store,Writer.advance,List.mem_append,wrote.writes,List.mem_range'_1,wrote.options,List.length_append]
    omega

/-- The bytes of the options the client writes. -/
def made_bytes (msg_type : UInt8) (request_ip : BitVec 32) (hostname : List UInt8) (mac : Vector UInt8 8) : List UInt8 :=
  swapped_bytes 0x63825363#32 ++ [53,1,msg_type] ++ ([61,7,1] ++ mac_p mac) ++ ([50,4] ++ word_bytes request_ip) ++
    ([12,UInt8.ofNat (1 + hostname.length)] ++ hostname ++ [0]) ++ [55,8,0x1,0x3,0x6,0xf,0x2c,0x2e,0x2f,0x39] ++ [0xff]

theorem made_bytes_length (msg_type : UInt8) (request_ip : BitVec 32) (hostname : List UInt8) (mac : Vector UInt8 8) :
    (made_bytes msg_type request_ip hostname mac).length = hostname.length + 36 := by
  simp [made_bytes,swapped_bytes,word_bytes,mac_p_length]
  omega

theorem make_packet_wrote {packet : dhcp_packet_t} (fresh : Wrote packet.options []) (msg_type : UInt8)
    (request_ip transaction_identifier : BitVec 32) (hostname : List UInt8) (mac : Vector UInt8 8) :
    Wrote (dhcp_make_packet packet msg_type request_ip transaction_identifier hostname mac).options
      (made_bytes msg_type request_ip hostname mac) := by
  have cookie := fresh.append (swapped_bytes 0x63825363#32)
  have message := ((cookie.put 53).put 1).put msg_type
  have identifier := ((message.put 61).put 7).put 1
  have whole : mac_p mac ++ mac.toList.drop 6 = mac.toList := List.take_append_drop 6 _
  have client := @Wrote.append_spilled _ _ identifier (mac_p mac) (mac.toList.drop 6) [50,4] (by simp)
  rw [whole,mac_p_length] at client
  have same : (swapped_bytes 0x0a00020e#32).length = (word_bytes request_ip).length := by simp [swapped_bytes,word_bytes]
  have address := client.append_over same
  have host := (((address.put 12).put (UInt8.ofNat (1 + hostname.length))).append hostname).put 0
  have requests := (((((host.put 55).put 8).put 0x1).put 0x3).put 0x6)
  have requests' := ((((requests.put 0xf).put 0x2c).put 0x2e).put 0x2f).put 0x39
  have done := requests'.put 0xff
  simpa [made_bytes,dhcp_make_packet,put_put,swapped_bytes,word_bytes] using done

/-- The packet's options are written inside their 64 bytes and are a list, ended by 0xff, of options whose length bytes count
    their data, with the message type, the client identifier, the requested address and the host name among them. -/
structure Made (options : Writer) (msg_type : UInt8) (request_ip : BitVec 32) (hostname : List UInt8) (mac : Vector UInt8 8)
    (entries : List Entry) : Prop where
  inside : ∀ i ∈ options.writes, i < 64
  list : ∀ i, i < (encode entries).length + 1 → (encode entries ++ [stop])[i]? = some (options.memory (4 + i))
  fits : 4 + (encode entries).length + 1 ≤ 64
  message_type : (53,[msg_type]) ∈ entries.map Entry.pair
  client_id : (61,1 :: mac_p mac) ∈ entries.map Entry.pair
  requested_address : (50,word_bytes request_ip) ∈ entries.map Entry.pair
  host_name : (12,hostname ++ [0]) ∈ entries.map Entry.pair

def made_entries (msg_type : UInt8) (request_ip : BitVec 32) {hostname : List UInt8} (short : hostname.length ≤ 28)
    (mac : Vector UInt8 8) : List Entry :=
  [⟨53,[msg_type],by decide,by decide,by simp⟩,⟨61,1 :: mac_p mac,by decide,by decide,by simp [mac_p_length]⟩,
    ⟨50,word_bytes request_ip,by decide,by decide,by simp [word_bytes]⟩,
    ⟨12,hostname ++ [0],by decide,by decide,by simp; omega⟩,
    ⟨55,[0x1,0x3,0x6,0xf,0x2c,0x2e,0x2f,0x39],by decide,by decide,by decide⟩]

theorem made_bytes_entries (msg_type : UInt8) (request_ip : BitVec 32) {hostname : List UInt8} (short : hostname.length ≤ 28)
    (mac : Vector UInt8 8) : made_bytes msg_type request_ip hostname mac =
      swapped_bytes 0x63825363#32 ++ (encode (made_entries msg_type request_ip short mac) ++ [stop]) := by
  have address : UInt8.ofNat (word_bytes request_ip).length = 4 := by simp [word_bytes]
  have host : UInt8.ofNat (hostname.length + 1) = UInt8.ofNat (1 + hostname.length) := by rw [Nat.add_comm]
  simp [made_bytes,made_entries,encode,Entry.bytes,address,host,mac_p_length,stop]

/-- The packet is made rightly exactly for host names of at most 28 bytes. -/
theorem made_iff {packet : dhcp_packet_t} (fresh : Wrote packet.options []) (msg_type : UInt8)
    (request_ip transaction_identifier : BitVec 32) (hostname : List UInt8) (mac : Vector UInt8 8) :
    (∃ entries, Made (dhcp_make_packet packet msg_type request_ip transaction_identifier hostname mac).options msg_type
      request_ip hostname mac entries) ↔ hostname.length ≤ 28 := by
  have wrote := make_packet_wrote fresh msg_type request_ip transaction_identifier hostname mac
  have length := made_bytes_length msg_type request_ip hostname mac
  constructor
  · rintro ⟨entries,made⟩
    have last := made.inside (hostname.length + 35) ((wrote.writes _).mpr (by omega))
    omega
  · intro short
    have bytes := made_bytes_entries msg_type request_ip short mac
    have total : (encode (made_entries msg_type request_ip short mac)).length = hostname.length + 31 := by
      have := congrArg List.length bytes
      simp [length,swapped_bytes,word_bytes] at this
      omega
    refine ⟨made_entries msg_type request_ip short mac,?_,?_,by omega,?_,?_,?_,?_⟩
    · intro i written
      have := (wrote.writes i).mp written
      omega
    · intro i inside
      have cookie : (swapped_bytes 0x63825363#32).length = 4 := by simp [swapped_bytes,word_bytes]
      have behind (list : List UInt8) : (swapped_bytes 0x63825363#32 ++ list)[4 + i]? = list[i]? := by
        rw [List.getElem?_append_right (by omega),cookie,Nat.add_sub_cancel_left]
      rw [← behind,← bytes]
      exact wrote.memory (4 + i) (by omega)
    all_goals simp [made_entries,Entry.pair]

/-- The search returns the data of the first option of the type, or NULL when the list has none. -/
def Right (packet : List UInt8) (type : UInt8) : Prop :=
  dhcp_get_options packet type =
    ((first_option type (options_at + 4) (packet.drop (options_at + 4))).map Found.pointer).getD .null

/-- The bytes received hold a whole list of options without padding up to the byte that ends it. -/
def Plain (packet : List UInt8) : Prop :=
  ∃ entries rest, packet.drop (options_at + 4) = encode entries ++ stop :: rest

theorem options_loop_stop (type : UInt8) (i : Nat) (rest : List UInt8) : options_loop type i (stop :: rest) = .null := by
  cases rest <;> simp [options_loop,stop]

theorem options_loop_entry (type : UInt8) (i : Nat) (e : Entry) (rest : List UInt8) : options_loop type i (e.bytes ++ rest) =
    if e.code = type then .pointer (i + 2) else options_loop type (i + e.bytes.length) rest := by
  have going : e.code ≠ 0xff := e.not_stop
  have next : i + (2 + e.data.length) = i + e.bytes.length := by rw [Entry.bytes_length]; omega
  simp only [Entry.bytes,List.cons_append]
  rw [options_loop,if_pos going,e.length_byte,List.drop_left,next]
  rfl

/-- Over options without padding the search and the list agree up to what follows. -/
theorem options_loop_entries {type : UInt8} {bytes : List UInt8} (behind : ∀ i, options_loop type i bytes =
    ((first_option type i bytes).map Found.pointer).getD .null) (entries : List Entry) (i : Nat) :
    options_loop type i (encode entries ++ bytes) =
      ((first_option type i (encode entries ++ bytes)).map Found.pointer).getD .null := by
  induction entries generalizing i with
  | nil => exact behind i
  | cons e entries ih =>
    rw [encode_cons,List.append_assoc,options_loop_entry,first_option_entry]
    split_ifs
    · rfl
    · exact ih _

theorem Plain.right {packet : List UInt8} (plain : Plain packet) (type : UInt8) : Right packet type := by
  obtain ⟨entries,rest,bytes⟩ := plain
  rw [Right,dhcp_get_options,bytes]
  refine options_loop_entries (fun i => ?_) entries _
  rw [options_loop_stop,first_option_stop]
  rfl

/-- An option that is whole and has no padding before it is found, whatever follows. -/
theorem reached_right {packet : List UInt8} {entries : List Entry} {e : Entry} {rest : List UInt8}
    (bytes : packet.drop (options_at + 4) = encode entries ++ (e.bytes ++ rest)) : Right packet e.code := by
  rw [Right,dhcp_get_options,bytes]
  refine options_loop_entries (fun i => ?_) entries _
  rw [options_loop_entry,first_option_entry,if_pos rfl,if_pos rfl]
  rfl

/-- The searches for the codes of the padding and of the end tell a list with padding or without an end. -/
theorem plain_of_right {i : Nat} {bytes : List UInt8}
    (padding : options_loop pad i bytes = ((first_option pad i bytes).map Found.pointer).getD .null)
    (ending : options_loop stop i bytes = ((first_option stop i bytes).map Found.pointer).getD .null) :
    ∃ entries rest, bytes = encode entries ++ stop :: rest := by
  induction size : bytes.length using Nat.strongRecOn generalizing i bytes with
  | _ size ih =>
    subst size
    match bytes with
    | [] => simp [options_loop] at padding
    | [b] =>
      by_cases ends : b = stop
      · exact ⟨[],[],by rw [ends]; rfl⟩
      · have going : b ≠ 0xff := ends
        simp [options_loop,going] at padding
    | code :: len :: rest =>
      by_cases ends : code = stop
      · exact ⟨[],len :: rest,by rw [ends]; rfl⟩
      have going : code ≠ 0xff := ends
      rw [options_loop,if_pos going] at padding ending
      rw [first_option_pad] at padding
      by_cases padded : code = pad
      · simp [padded] at padding
      rw [if_neg padded] at padding
      rw [if_neg ends,first_option,if_neg padded] at ending
      by_cases long : rest.length < len.toNat
      · rw [List.drop_eq_nil_of_le (Nat.le_of_lt long)] at padding
        simp [options_loop] at padding
      have whole : ¬ (code = stop ∨ rest.length < len.toNat) := not_or.mpr ⟨ends,long⟩
      rw [if_neg whole,if_neg ends] at ending
      have next : i + 2 + len.toNat = i + (2 + len.toNat) := by omega
      rw [next] at ending
      obtain ⟨entries,behind,split⟩ := ih _ (by simp; omega) (by rw [first_option_pad]; exact padding) ending rfl
      have taken : (rest.take len.toNat).length = len.toNat := List.length_take_of_le (Nat.not_lt.mp long)
      refine ⟨⟨code,rest.take len.toNat,padded,ends,by rw [taken]; exact len.toNat_lt⟩ :: entries,behind,?_⟩
      rw [encode_cons,List.append_assoc,← split]
      simp [Entry.bytes,taken]

/-- For every host name the packet is made rightly exactly up to 28 bytes; a packet received is searched rightly for all
    types exactly when its list has no padding and an end, and for a type that a whole option has before any padding. -/
theorem dhcp_options {packet : dhcp_packet_t} (fresh : Wrote packet.options []) (msg_type : UInt8)
    (request_ip transaction_identifier : BitVec 32) (hostname : List UInt8) (mac : Vector UInt8 8) (received : List UInt8) :
    ((∃ entries, Made (dhcp_make_packet packet msg_type request_ip transaction_identifier hostname mac).options msg_type
      request_ip hostname mac entries) ↔ hostname.length ≤ 28) ∧
    ((∀ type, Right received type) ↔ Plain received) ∧
    ∀ entries (e : Entry) rest, received.drop (options_at + 4) = encode entries ++ (e.bytes ++ rest) → Right received e.code :=
  ⟨made_iff fresh msg_type request_ip transaction_identifier hostname mac,
    ⟨fun right => plain_of_right (right pad) (right stop),fun plain type => plain.right type⟩,
    fun _ _ _ bytes => reached_right bytes⟩

def empty_packet : dhcp_packet_t where
  op := 0
  hardware_type := 0
  hardware_addr_len := 0
  hops := 0
  xid := [0,0,0,0]
  flags := 0
  client_hardware_addr := List.replicate 16 0
  options := ⟨fun _ => 0,0,[]⟩

theorem empty_packet_fresh : Wrote empty_packet.options [] := ⟨rfl,by simp,by simp [empty_packet]⟩

/-- A packet with the given bytes behind its magic cookie. -/
def packet_with (bytes : List UInt8) : List UInt8 := List.replicate (options_at + 4) 0 ++ bytes

theorem packet_with_drop (bytes : List UInt8) : (packet_with bytes).drop (options_at + 4) = bytes :=
  List.drop_left' List.length_replicate

/-- The host name "microos" and an acknowledgement. -/
theorem dhcp_options_home :
    ((∃ entries, Made (dhcp_make_packet empty_packet 3 0#32 1#32 [109,105,99,114,111,111,115] (Vector.replicate 8 2)).options 3
      0#32 [109,105,99,114,111,111,115] (Vector.replicate 8 2) entries) ↔ [109,105,99,114,111,111,115].length ≤ 28) ∧
    ((∀ type, Right (packet_with [53,1,5,255]) type) ↔ Plain (packet_with [53,1,5,255])) ∧
    Right (packet_with [53,1,5,255]) 53 :=
  have options := dhcp_options empty_packet_fresh 3 0#32 1#32 [109,105,99,114,111,111,115] (Vector.replicate 8 2)
    (packet_with [53,1,5,255])
  ⟨options.1,options.2.1,options.2.2 [] ⟨53,[5],by decide,by decide,by decide⟩ [255] (packet_with_drop _)⟩

/-- A host name of 29 bytes, and a byte of padding before the message type. -/
theorem dhcp_options_wrong :
    (¬ ∃ entries, Made (dhcp_make_packet empty_packet 3 0#32 1#32 (List.replicate 29 97) (Vector.replicate 8 2)).options 3
      0#32 (List.replicate 29 97) (Vector.replicate 8 2) entries) ∧
    dhcp_get_options (packet_with [0,53,1,5,255]) 53 = .outside ∧ ¬ Right (packet_with [0,53,1,5,255]) 53 := by
  have outside : dhcp_get_options (packet_with [0,53,1,5,255]) 53 = .outside := by
    rw [dhcp_get_options,packet_with_drop]
    simp [options_loop]
  refine ⟨fun made => ?_,outside,fun right => ?_⟩
  · have short := (made_iff empty_packet_fresh _ _ _ _ _).mp made
    rw [List.length_replicate] at short
    exact absurd short (by decide)
  · rw [Right,outside] at right
    cases found : first_option 53 (options_at + 4) ((packet_with [0,53,1,5,255]).drop (options_at + 4)) with
    | none => simp [found] at right
    | some place => simp [found] at right

end MicroOS.Dhcp

import Mathlib.Data.List.TakeWhile
import MicroOS.Dns
import MicroOS.Strings

/-!
Names on the wire: what the encoder of a query stores, what the reader of a
response makes of it, and how many bytes the reader and the skipper count.
-/
namespace MicroOS.DnsNames
open Memory Dns Strings

def dot : UInt8 := 46

/-- The encoder's memory, the place of the length to come, the next byte's place, and `curr_len`. -/
structure Encoder where
  memory : Bytes
  lbl : Nat
  dst_pos : Nat
  curr_len : UInt8

/-- One character of the domain, or its terminator. -/
def encode_char (e : Encoder) (c : UInt8) : Encoder :=
  if c = dot ∨ c = 0 then ⟨storeByte e.memory e.lbl e.curr_len,e.dst_pos,e.dst_pos + 1,0⟩
  else ⟨storeByte e.memory e.dst_pos c,e.lbl,e.dst_pos + 1,e.curr_len + 1⟩

def dns_resolv_domain_to_hostname (m : Bytes) (dst_hostname : Nat) (src_domain : Name) : Bytes :=
  let e := (src_domain ++ [0]).foldl encode_char ⟨m,dst_hostname,dst_hostname + 1,0⟩
  storeByte e.memory e.dst_pos 0

/-- Each label behind its length. -/
def encoded (labels : List Name) : List UInt8 := labels.flatMap fun l => UInt8.ofNat l.length :: l

/-- The labels with dots between them. -/
def domain_of (labels : List Name) : Name := [dot].intercalate labels

/-- Labels have 1 to 63 characters, and the whole name at most `DNS_MAX_NAME`. -/
def Valid (labels : List Name) : Prop :=
  (∀ l ∈ labels, l ≠ [] ∧ l.length ≤ 63) ∧ (encoded labels).length ≤ DNS_MAX_NAME + 1

/-- No label has a dot or a terminator in it. -/
def Dotless (labels : List Name) : Prop := ∀ l ∈ labels, ∀ c ∈ l, c ≠ dot ∧ c ≠ 0

/-- The bytes of the labels are in the packet from `reader` on. -/
def Spelled (packet : Bytes) (reader : Nat) (labels : List Name) : Prop :=
  slice packet reader (encoded labels).length = encoded labels

/-- A name ends with the empty label or with a pointer. -/
inductive Tail
  | stop
  | pointer
  deriving DecidableEq

def Tail.size : Tail → Nat
  | .stop => 1
  | .pointer => 2

/-- A name in a packet: labels, and what ends them. -/
structure WellFormed (packet : Bytes) (packet_end : Int) (reader : Nat) (labels : List Name) (tail : Tail) : Prop where
  valid : Valid labels
  spelled : Spelled packet reader labels
  ends : tail = .stop → packet (reader + (encoded labels).length) = 0
  points : tail = .pointer → packet (reader + (encoded labels).length) &&& 0xC0 = 0xC0
  inside : ((reader + (encoded labels).length + tail.size : Nat) : Int) ≤ packet_end

theorem storeByte_before (m : Bytes) (a : Nat) (b : UInt8) (s : List UInt8) :
    storeByte (storeBytes m (a+1) s) a b = storeBytes m a (b :: s) := by
  rw [← storeBytes_cons]
  funext x
  by_cases here : x = a
  · subst here
    rw [storeByte_same,storeBytes_outside _ _ _ (by omega),storeByte_same]
  · rw [storeByte_outside _ _ _ here]
    simp [storeBytes,storeByte,here]

theorem encode_chars (l : Name) (plain : ∀ c ∈ l, c ≠ dot ∧ c ≠ 0) (e : Encoder) :
    l.foldl encode_char e
      = ⟨storeBytes e.memory e.dst_pos l,e.lbl,e.dst_pos + l.length,e.curr_len + UInt8.ofNat l.length⟩ := by
  induction l generalizing e with
  | nil =>
    have none_stored : storeBytes e.memory e.dst_pos [] = e.memory := by
      funext x
      simp [storeBytes]
    simp [none_stored]
  | cons c l step =>
    obtain ⟨not_dot,not_end⟩ := plain c (by simp)
    have head : encode_char e c = ⟨storeByte e.memory e.dst_pos c,e.lbl,e.dst_pos + 1,e.curr_len + 1⟩ :=
      if_neg (by simp [not_dot,not_end])
    rw [List.foldl_cons,head,step (fun d member => plain d (by simp [member]))]
    dsimp only
    rw [storeBytes_cons,List.length_cons,Nat.add_assoc e.dst_pos,Nat.add_comm 1]
    congr 1
    rw [UInt8.add_assoc,UInt8.ofNat_add,UInt8.add_comm 1]
    rfl

/-- A label and the dot or terminator behind it. -/
theorem encode_label (l : Name) (plain : ∀ c ∈ l, c ≠ dot ∧ c ≠ 0) {c : UInt8} (separates : c = dot ∨ c = 0) (m : Bytes)
    (a : Nat) : (l ++ [c]).foldl encode_char ⟨m,a,a + 1,0⟩
      = ⟨storeBytes m a (UInt8.ofNat l.length :: l),a + (l.length + 1),a + (l.length + 1) + 1,0⟩ := by
  rw [List.foldl_append,encode_chars l plain]
  dsimp only
  rw [List.foldl_cons,List.foldl_nil,encode_char,if_pos separates]
  dsimp only
  rw [UInt8.zero_add,storeByte_before]
  congr 1
  · omega
  · omega

theorem domain_cons (l k : Name) (labels : List Name) : domain_of (l :: k :: labels) = l ++ [dot] ++ domain_of (k :: labels) := by
  simp [domain_of,List.intercalate]

theorem encode_domain (l : Name) (labels : List Name) (plain : Dotless (l :: labels)) (m : Bytes) (a : Nat) :
    (domain_of (l :: labels) ++ [0]).foldl encode_char ⟨m,a,a + 1,0⟩
      = ⟨storeBytes m a (encoded (l :: labels)),a + (encoded (l :: labels)).length,a + (encoded (l :: labels)).length + 1,0⟩ := by
  induction labels generalizing l m a with
  | nil =>
    have single : domain_of [l] = l := by simp [domain_of,List.intercalate]
    rw [single,encode_label l (plain l (by simp)) (Or.inr rfl)]
    simp [encoded]
  | cons k labels step =>
    have rest := step k (fun x member => plain x (by simp [List.mem_cons.mp member]))
    rw [domain_cons,List.append_assoc,List.foldl_append,encode_label l (plain l (by simp)) (Or.inl rfl),rest]
    have shape : encoded (l :: k :: labels) = (UInt8.ofNat l.length :: l) ++ encoded (k :: labels) := by simp [encoded]
    have length : (UInt8.ofNat l.length :: l).length = l.length + 1 := rfl
    rw [shape,List.length_append,length]
    congr 1
    · rw [← storeBytes_append,length]
    · omega
    · omega

/-- What stands at the destination: the labels, and behind them what was there before. -/
theorem encoder_stores {labels : List Name} (some_label : labels ≠ []) (plain : Dotless labels) (m : Bytes) (a : Nat) :
    Spelled (dns_resolv_domain_to_hostname m a (domain_of labels)) a labels ∧
    dns_resolv_domain_to_hostname m a (domain_of labels) (a + (encoded labels).length) = m (a + (encoded labels).length) := by
  obtain ⟨l,labels,rfl⟩ := List.exists_cons_of_ne_nil some_label
  rw [dns_resolv_domain_to_hostname,encode_domain l labels plain m a]
  dsimp only
  constructor
  · rw [Spelled,slice_agree (storeByte_agree _ _ _ (by omega)),slice_storeBytes]
  · rw [storeByte_outside _ _ _ (by omega),storeBytes_outside _ _ _ (by omega)]

theorem length_byte {l : Name} (valid : l ≠ [] ∧ l.length ≤ 63) :
    (UInt8.ofNat l.length).toNat = l.length ∧ UInt8.ofNat l.length ≠ 0 ∧ ¬ UInt8.ofNat l.length &&& 0xC0 = 0xC0 := by
  have positive : 0 < l.length := List.length_pos_iff.mpr valid.1
  have small := valid.2
  generalize l.length = n at positive small
  interval_cases n <;> decide

theorem encoded_cons (l : Name) (labels : List Name) :
    encoded (l :: labels) = UInt8.ofNat l.length :: l ++ encoded labels := by simp [encoded]

theorem encoded_cons_length (l : Name) (labels : List Name) :
    (encoded (l :: labels)).length = l.length + 1 + (encoded labels).length := by
  rw [encoded_cons,List.length_append,List.length_cons]

/-- The length byte, the label, and the labels behind it. -/
theorem Spelled.cons {packet : Bytes} {reader : Nat} {l : Name} {labels : List Name}
    (spelled : Spelled packet reader (l :: labels)) : packet reader = UInt8.ofNat l.length ∧
      slice packet (reader + 1) l.length = l ∧ Spelled packet (reader + 1 + l.length) labels := by
  rw [Spelled,encoded_cons_length,encoded_cons,slice_append,slice_cons] at spelled
  obtain ⟨first,behind⟩ := List.append_inj spelled (by simp)
  obtain ⟨here,label⟩ := List.cons.inj first
  refine ⟨here,label,?_⟩
  rwa [← Nat.add_assoc,Nat.add_right_comm] at behind

theorem copy_label_copies (packet : Bytes) (jumped : Bool) {l : Name} {reader : Nat} (name : Name) (consumed : Nat)
    (spelled : slice packet reader l.length = l) (fits : name.length + l.length ≤ DNS_MAX_NAME) :
    copy_label packet jumped l.length reader name consumed
      = (some (name ++ l),if jumped then consumed else consumed + l.length) := by
  induction l generalizing reader name consumed with
  | nil => simp [copy_label]
  | cons c l step =>
    rw [List.length_cons,slice_cons] at spelled
    obtain ⟨here,behind⟩ := List.cons.inj spelled
    rw [List.length_cons] at fits
    have rest := step (name ++ [c]) (if jumped then consumed else consumed + 1) behind
      (by rw [List.length_append,List.length_singleton]; omega)
    rw [List.length_cons,copy_label,if_neg (by omega),here,rest]
    cases jumped with
    | true => simp
    | false => simp [Nat.add_comm,Nat.add_left_comm]

/-- The labels so far, each with its dot. -/
def dotted (labels : List Name) : Name := labels.flatMap fun l => l ++ [dot]

theorem dotted_length (labels : List Name) : (dotted labels).length = (encoded labels).length := by
  induction labels with
  | nil => rfl
  | cons l labels step =>
    rw [encoded_cons_length,dotted,List.flatMap_cons,List.length_append,← dotted,step]
    simp

/-- The reader takes the labels one after the other. -/
theorem read_labels_spelled {packet : Bytes} {packet_end : Int} {labels : List Name} {reader : Nat} (name : Name)
    (consumed : Nat) (lengths : ∀ l ∈ labels, l ≠ [] ∧ l.length ≤ 63) (spelled : Spelled packet reader labels)
    (inside : ((reader + (encoded labels).length : Nat) : Int) ≤ packet_end)
    (fits : name.length + (encoded labels).length ≤ DNS_MAX_NAME + 1) :
    read_labels packet packet_end reader name false 0 consumed = read_labels packet packet_end (reader + (encoded labels).length)
      (name ++ dotted labels) false 0 (consumed + (encoded labels).length) := by
  induction labels generalizing reader name consumed with
  | nil => simp [encoded,dotted]
  | cons l labels step =>
    obtain ⟨count,nonzero,plain⟩ := length_byte (lengths l (by simp))
    obtain ⟨here,label,behind⟩ := spelled.cons
    have small := (lengths l (by simp)).2
    rw [encoded_cons_length] at inside fits ⊢
    have copied := copy_label_copies packet false name (consumed + 1) label (by omega)
    have rest := step (name ++ l ++ [dot]) (consumed + 1 + l.length) (fun k member => lengths k (by simp [member])) behind
      (by omega) (by simp only [List.length_append,List.length_singleton]; omega)
    rw [read_labels,if_pos ⟨by omega,by rw [here]; exact nonzero⟩,if_neg (by rw [here]; exact plain)]
    simp only [here,count,Bool.false_eq_true,if_false]
    rw [if_neg (by omega),copied]
    dsimp only
    rw [if_neg (by simp)]
    rw [show name ++ l ++ [46] = name ++ l ++ [dot] from rfl,rest]
    have place : reader + 1 + l.length + (encoded labels).length = reader + (l.length + 1 + (encoded labels).length) := by omega
    have total : consumed + 1 + l.length + (encoded labels).length = consumed + (l.length + 1 + (encoded labels).length) := by
      omega
    have whole : name ++ l ++ [dot] ++ dotted labels = name ++ dotted (l :: labels) := by simp [dotted]
    rw [place,total,whole]

/-- So does the skipper. -/
theorem skip_spelled {packet : Bytes} {packet_end : Int} {labels : List Name} {reader : Nat}
    (lengths : ∀ l ∈ labels, l ≠ [] ∧ l.length ≤ 63) (spelled : Spelled packet reader labels)
    (inside : ((reader + (encoded labels).length : Nat) : Int) ≤ packet_end) :
    dns_skip_name packet packet_end reader
      = (encoded labels).length + dns_skip_name packet packet_end (reader + (encoded labels).length) := by
  induction labels generalizing reader with
  | nil => simp [encoded]
  | cons l labels step =>
    obtain ⟨count,nonzero,plain⟩ := length_byte (lengths l (by simp))
    obtain ⟨here,-,behind⟩ := spelled.cons
    rw [encoded_cons_length] at inside ⊢
    have rest := step (fun k member => lengths k (by simp [member])) behind (by omega)
    have place : reader + l.length + 1 = reader + 1 + l.length := by omega
    have far : reader + 1 + l.length + (encoded labels).length = reader + (l.length + 1 + (encoded labels).length) := by omega
    rw [dns_skip_name,if_pos ⟨by omega,by rw [here]; exact nonzero⟩,if_neg (by rw [here]; exact plain),here,count,place,rest,far]
    omega

theorem copy_label_jumped (packet : Bytes) (len reader : Nat) (name : Name) (consumed : Nat) :
    (copy_label packet true len reader name consumed).2 = consumed := by
  induction len generalizing reader name with
  | zero => rfl
  | succ len step =>
    rw [copy_label]
    split
    · rfl
    · exact step _ _

/-- Behind a pointer nothing more is counted. -/
theorem read_labels_jumped (packet : Bytes) (packet_end : Int) (reader : Nat) (name : Name) (jumped : Bool) (jump_count : Nat)
    (consumed : Nat) (after : jumped = true) (counted : consumed ≠ 0) :
    (read_labels packet packet_end reader name jumped jump_count consumed).2 = consumed := by
  fun_induction read_labels packet packet_end reader name jumped jump_count consumed with
  | case1 => rfl
  | case2 => rfl
  | case3 reader name jumped jump_count consumed here pointer inside jumps step =>
    rw [if_neg counted]
    rw [dif_neg counted] at step
    exact step rfl counted
  | case4 reader name jumped jump_count consumed =>
    subst after
    rfl
  | case5 reader name jumped jump_count consumed here plain len consumed' fits left copied =>
    subst after
    have same := copy_label_jumped packet len (reader + 1) name consumed
    rwa [show consumed = consumed' from rfl,copied] at same
  | case6 reader name jumped jump_count consumed here plain len consumed' fits name' left copied step =>
    subst after
    have same := copy_label_jumped packet len (reader + 1) name consumed
    rw [show consumed = consumed' from rfl,copied] at same
    have kept : left = consumed := same
    rw [step rfl (kept ▸ counted),kept]
  | case7 =>
    subst after
    rfl

theorem dotted_domain {labels : List Name} (some_label : labels ≠ []) : dotted labels = domain_of labels ++ [dot] := by
  induction labels with
  | nil => exact absurd rfl some_label
  | cons l labels step =>
    cases labels with
    | nil => simp [dotted,domain_of,List.intercalate]
    | cons k labels =>
      have rest := step (by simp)
      rw [domain_cons,List.append_assoc,← rest]
      simp [dotted]

/-- One byte for each character and dot, and one more. -/
theorem domain_length {labels : List Name} (some_label : labels ≠ []) :
    (domain_of labels).length + 1 = (encoded labels).length := by
  have whole := congrArg List.length (dotted_domain some_label)
  rw [dotted_length,List.length_append,List.length_singleton] at whole
  exact whole.symm

theorem domain_free {labels : List Name} (plain : Dotless labels) : ∀ c ∈ domain_of labels, c ≠ 0 := by
  intro c member
  cases labels with
  | nil => simp [domain_of,List.intercalate] at member
  | cons l labels =>
    have inside : c ∈ dotted (l :: labels) := by
      rw [dotted_domain (by simp)]
      exact List.mem_append_left _ member
    obtain ⟨k,there,found⟩ := List.mem_flatMap.mp inside
    rcases List.mem_append.mp found with char | last
    · exact (plain k there c char).2
    · rw [List.mem_singleton.mp last]
      decide

theorem read_name_spelled {packet : Bytes} {packet_end : Int} {labels : List Name} {reader : Nat} (valid : Valid labels)
    (spelled : Spelled packet reader labels) (inside : ((reader + (encoded labels).length : Nat) : Int) ≤ packet_end) :
    dns_read_name packet packet_end reader = read_labels packet packet_end (reader + (encoded labels).length)
      (dotted labels) false 0 (encoded labels).length := by
  have taken := read_labels_spelled [] 0 valid.1 spelled inside (by simpa using valid.2)
  rwa [List.nil_append,Nat.zero_add] at taken

/-- What the encoder stores in a cleared buffer, the reader takes for the same domain. -/
theorem domain_round_trip {labels : List Name} (some_label : labels ≠ []) (valid : Valid labels) (plain : Dotless labels)
    {m : Bytes} {dst : Nat} (clear : m (dst + (domain_of labels).length + 1) = 0) {packet_end : Int}
    (inside : ((dst + (domain_of labels).length + 1 : Nat) : Int) ≤ packet_end) :
    (dns_read_name (dns_resolv_domain_to_hostname m dst (domain_of labels)) packet_end dst).1 = some (domain_of labels) := by
  obtain ⟨spelled,behind⟩ := encoder_stores some_label plain m dst
  have length := domain_length some_label
  rw [Nat.add_assoc,length] at clear inside
  rw [read_name_spelled valid spelled inside,read_labels,if_neg (fun more => more.2 (behind.trans clear))]
  rw [dotted_domain some_label,List.dropLast_concat,strdup]
  have whole : (domain_of labels).takeWhile (· ≠ 0) = domain_of labels :=
    List.takeWhile_eq_self_iff.mpr (fun c member => by simpa using domain_free plain c member)
  rw [whole]

section
variable {packet : Bytes} {packet_end : Int} {reader : Nat} {labels : List Name} {tail : Tail}
  (name : WellFormed packet packet_end reader labels tail)
include name

/-- The skipper counts the name's bytes. -/
theorem skip_counts : dns_skip_name packet packet_end reader = (encoded labels).length + tail.size := by
  have inside := name.inside
  rw [skip_spelled name.valid.1 name.spelled (by omega)]
  cases tail with
  | stop => rw [dns_skip_name,if_neg (fun more => more.2 (name.ends rfl))]; rfl
  | pointer =>
    have pair := name.points rfl
    have nonzero : packet (reader + (encoded labels).length) ≠ 0 := by
      intro zero
      rw [zero] at pair
      exact absurd pair (by decide)
    rw [dns_skip_name,if_pos ⟨by simp only [Tail.size] at inside; omega,nonzero⟩,if_pos pair]
    rfl

/-- The reader leaves a pointer out of its count when labels stand before it. -/
theorem read_counts : (dns_read_name packet packet_end reader).2
      = if tail = .stop then (encoded labels).length + 1 else if labels = [] then 2 else (encoded labels).length := by
  have inside := name.inside
  have none_before : (encoded labels).length = 0 ↔ labels = [] := by
    cases labels with
    | nil => simp [encoded]
    | cons l labels => simp [encoded]
  rw [read_name_spelled name.valid name.spelled (by omega)]
  cases tail with
  | stop =>
    rw [read_labels,if_neg (fun more => more.2 (name.ends rfl))]
    rfl
  | pointer =>
    have pair := name.points rfl
    have nonzero : packet (reader + (encoded labels).length) ≠ 0 := by
      intro zero
      rw [zero] at pair
      exact absurd pair (by decide)
    simp only [Tail.size] at inside
    rw [read_labels,if_pos ⟨by omega,nonzero⟩,if_pos pair,if_neg (by omega),if_neg (by decide),
      read_labels_jumped _ _ _ _ _ _ _ rfl (by split <;> omega)]
    simp only [none_before,reduceCtorEq,if_false]

end

/-- A domain survives the encoder and the reader, and the reader's count of a
    name in a packet is the skipper's, which is the name's length, exactly when
    the name is not labels followed by a pointer. -/
theorem dns_names_right {labels : List Name} :
    (labels ≠ [] → Valid labels → Dotless labels →
      ∀ {m : Bytes} {dst : Nat}, m (dst + (domain_of labels).length + 1) = 0 →
      ∀ {packet_end : Int}, ((dst + (domain_of labels).length + 1 : Nat) : Int) ≤ packet_end →
        (dns_read_name (dns_resolv_domain_to_hostname m dst (domain_of labels)) packet_end dst).1 = some (domain_of labels)) ∧
    (∀ {packet : Bytes} {packet_end : Int} {reader : Nat} {tail : Tail},
      WellFormed packet packet_end reader labels tail →
        (((dns_read_name packet packet_end reader).2 = dns_skip_name packet packet_end reader ∧
          dns_skip_name packet packet_end reader = (encoded labels).length + tail.size) ↔ tail = .stop ∨ labels = [])) := by
  refine ⟨fun some_label valid plain _ _ clear _ inside => domain_round_trip some_label valid plain clear inside,?_⟩
  intro packet packet_end reader tail name
  rw [skip_counts name,read_counts name]
  cases tail with
  | stop => simp [Tail.size]
  | pointer =>
    by_cases alone : labels = []
    · simp [Tail.size,alone,encoded]
    · simp [Tail.size,alone]

/-- "www" and a pointer to offset 0, at offset 12. -/
def abbreviated : Bytes := fun x => if x = 12 then 3 else if x < 16 then 119 else if x = 16 then 0xC0 else 0

theorem abbreviated_well_formed : WellFormed abbreviated 18 12 [[119,119,119]] .pointer where
  valid := ⟨by simp,by decide⟩
  spelled := by unfold Spelled; decide
  ends impossible := nomatch impossible
  points _ := by decide
  inside := by decide

theorem dns_names_right_www : WellFormed abbreviated 18 12 [[119,119,119]] .pointer ∧
    (dns_read_name (dns_resolv_domain_to_hostname (fun _ => 0) 12 (domain_of [[119],[98,99]])) 18 12).1
      = some (domain_of [[119],[98,99]]) ∧
    (((dns_read_name abbreviated 18 12).2 = dns_skip_name abbreviated 18 12 ∧
      dns_skip_name abbreviated 18 12 = (encoded [[119,119,119]]).length + Tail.pointer.size) ↔
        Tail.pointer = .stop ∨ ([[119,119,119]] : List Name) = []) :=
  ⟨abbreviated_well_formed,
    dns_names_right.1 (by simp) ⟨by simp,by decide⟩ (by simp [Dotless,dot]) rfl (by decide),
    dns_names_right.2 abbreviated_well_formed⟩

/-- The reader counts 4 bytes of these 6. -/
theorem abbreviated_miscounted : WellFormed abbreviated 18 12 [[119,119,119]] .pointer ∧
    (dns_read_name abbreviated 18 12).2 = 4 ∧ dns_skip_name abbreviated 18 12 = 6 := by
  refine ⟨abbreviated_well_formed,?_,?_⟩
  · rw [read_counts abbreviated_well_formed]
    decide
  · rw [skip_counts abbreviated_well_formed]
    decide

end MicroOS.DnsNames

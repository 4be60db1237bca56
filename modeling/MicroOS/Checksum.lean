import MicroOS.Memory
import MicroOS.Alignment

/-!
`ipv4_checksum` adds the 16-bit words of a byte string, folds the carries back and complements
the sum. The main theorem is `checksum_correct`: for which strings that is the checksum of
RFC 1071, and that a string with its checksum stored always has the checksum 0.
-/

namespace MicroOS.Checksum
open Memory

/-- The swap of the two bytes of a word, as it is written at every place. -/
def swapped (n : Nat) : Nat := ((n &&& 0xFF00) >>> 8) ||| ((n &&& 0x00FF) <<< 8)

/-- `data[i]`, on a little-endian machine. -/
def word_at (data : List UInt8) (i : Nat) : Nat := (data.getD (2 * i) 0).toNat + 256 * (data.getD (2 * i + 1) 0).toNat

/-- A `char` is signed: the cast to `uint16_t` extends the sign. -/
def extended (c : UInt8) : Nat := if c.toNat < 0x80 then c.toNat else 0xFF00 + c.toNat

variable {temp : Nat} {before : List UInt8}

theorem high_half (fits : temp < 2 ^ 32) : temp &&& 0xFFFF0000 = temp / 2 ^ 16 * 2 ^ 16 :=
  Alignment.and_mask (w := 32) (k := 16) (by decide) fits

theorem high_bits (some_bit : temp &&& 0xFFFF0000 ≠ 0) : 2 ^ 16 ≤ temp := by
  by_contra below
  rw [high_half (by omega)] at some_bit
  omega

/-- The loop that folds the carries. -/
def fold (temp : Nat) : Nat :=
  if temp &&& 0xFFFF0000 ≠ 0 then fold ((temp &&& 0xFFFF) + temp >>> 16) else temp
termination_by temp
decreasing_by
  rename_i some_bit
  have large := high_bits some_bit
  have low : temp &&& 0xFFFF = temp % 2 ^ 16 := Nat.and_two_pow_sub_one_eq_mod temp 16
  rw [low,Nat.shiftRight_eq_div_pow]
  omega

def ipv4_checksum (data : List UInt8) : Nat :=
  let size := data.length
  let temp := (List.range (size / 2)).foldl (fun temp i => wrap (temp + swapped (word_at data i))) 0
  let temp := if size % 2 = 1 then wrap (temp + extended (data.getD (size - 1) 0) <<< 8) else temp
  let temp := fold temp
  swapped (2 ^ 32 - 1 - temp)

/-- The words of a string in network order; a last odd byte is padded with zero. -/
def words : List UInt8 → List Nat
  | [] => []
  | [a] => [a.toNat * 256]
  | a :: b :: rest => (a.toNat * 256 + b.toNat) :: words rest

/-- Addition with the carry added at the other end. -/
def ones_add (a b : Nat) : Nat := if a + b < 2 ^ 16 then a + b else a + b - (2 ^ 16 - 1)

def rfc1071 (data : List UInt8) : Nat := 2 ^ 16 - 1 - (words data).foldl ones_add 0

theorem swapped_eq (n : Nat) : swapped n = n % 256 * 256 + n / 256 % 256 := by
  have low : n &&& 0x00FF = n % 256 := Nat.and_two_pow_sub_one_eq_mod n 8
  have high : (n &&& 0xFF00) >>> 8 = n / 256 % 256 := by
    rw [Nat.shiftRight_and_distrib,Nat.shiftRight_eq_div_pow]
    exact Nat.and_two_pow_sub_one_eq_mod (n / 256) 8
  have small : n / 256 % 256 < 2 ^ 8 := Nat.mod_lt _ (by decide)
  rw [swapped,high,low,Nat.or_comm,← Nat.shiftLeft_add_eq_or_of_lt small,Nat.shiftLeft_eq]

/-- A word in network order. -/
theorem swapped_word (a b : UInt8) : swapped (a.toNat + 256 * b.toNat) = a.toNat * 256 + b.toNat := by
  have first := a.toNat_lt
  have second := b.toNat_lt
  rw [swapped_eq]
  omega

/-- What is left of a sum when all carries are added at the other end. -/
def folded (n : Nat) : Nat := if n = 0 then 0 else (n - 1) % (2 ^ 16 - 1) + 1

theorem folded_lt (n : Nat) : folded n < 2 ^ 16 := by
  rw [folded]
  split <;> omega

theorem folded_eq_iff (a b : Nat) : folded a = folded b ↔ a % (2 ^ 16 - 1) = b % (2 ^ 16 - 1) ∧ (a = 0 ↔ b = 0) := by
  rw [folded,folded]
  split <;> split <;> omega

theorem folded_small {n : Nat} (small : n < 2 ^ 16) : folded n = n := by
  rw [folded]
  split <;> omega

theorem fold_folded (fits : temp < 2 ^ 32) : fold temp = folded temp := by
  induction temp using Nat.strong_induction_on with
  | _ temp ih =>
    rw [fold,high_half fits]
    have low : temp &&& 0xFFFF = temp % 2 ^ 16 := Nat.and_two_pow_sub_one_eq_mod temp 16
    by_cases small : temp < 2 ^ 16
    · rw [if_neg (by omega),folded_small small]
    · rw [if_pos (by omega),low,Nat.shiftRight_eq_div_pow,ih _ (by omega) (by omega)]
      apply (folded_eq_iff _ _).2
      omega

theorem ones_add_folded {x w : Nat} (left : x < 2 ^ 16) (right : w < 2 ^ 16) : ones_add x w = folded (x + w) := by
  rw [ones_add,folded]
  split <;> split <;> omega

theorem words_lt (data : List UInt8) : ∀ w ∈ words data, w < 2 ^ 16 := by
  induction data using words.induct with
  | case1 => simp [words]
  | case2 a =>
    have first := a.toNat_lt
    intro w member
    obtain rfl := List.mem_singleton.1 member
    omega
  | case3 a b rest ih =>
    have first := a.toNat_lt
    have second := b.toNat_lt
    intro w member
    rcases List.mem_cons.1 member with rfl | later
    · omega
    · exact ih w later

/-- Carries may be added at once or in the end. -/
theorem foldl_ones_add {ws : List Nat} (small : ∀ w ∈ ws, w < 2 ^ 16) {x : Nat} (start : x < 2 ^ 16) :
    ws.foldl ones_add x = folded (x + ws.sum) := by
  induction ws generalizing x with
  | nil => exact (folded_small start).symm
  | cons w rest ih =>
    have first := small w (List.mem_cons_self ..)
    rw [List.foldl_cons,ones_add_folded start first,ih (fun v member => small v (List.mem_cons_of_mem w member)) (folded_lt _)]
    apply (folded_eq_iff _ _).2
    rw [List.sum_cons,folded]
    split <;> omega

theorem rfc1071_eq (data : List UInt8) : rfc1071 data = 2 ^ 16 - 1 - folded (words data).sum := by
  rw [rfc1071,foldl_ones_add (words_lt data) (by decide),Nat.zero_add]

theorem loop_sum (data : List UInt8) (n : Nat) :
    (List.range n).foldl (fun temp i => wrap (temp + swapped (word_at data i))) 0 =
      wrap ((List.range n).map fun i => swapped (word_at data i)).sum := by
  induction n with
  | zero => rfl
  | succ n ih =>
    simp only [List.range_succ,List.foldl_append,List.foldl_cons,List.foldl_nil,List.map_append,List.map_cons,List.map_nil,
      List.sum_append,List.sum_cons,List.sum_nil,ih]
    rw [wrap,wrap,wrap]
    omega

/-- The pairs and the last odd byte. -/
theorem pairs_sum (data : List UInt8) : (words data).sum = ((List.range (data.length / 2)).map fun i => swapped (word_at data i)).sum +
    if data.length % 2 = 1 then (data.getD (data.length - 1) 0).toNat * 256 else 0 := by
  induction data using words.induct with
  | case1 => rfl
  | case2 a => simp [words]
  | case3 a b rest ih =>
    have half : (a :: b :: rest).length / 2 = rest.length / 2 + 1 := by
      simp only [List.length_cons]
      omega
    have parity : (a :: b :: rest).length % 2 = rest.length % 2 := by
      simp only [List.length_cons]
      omega
    have first : swapped (word_at (a :: b :: rest) 0) = a.toNat * 256 + b.toNat := swapped_word a b
    have later (i : Nat) : word_at (a :: b :: rest) (i + 1) = word_at rest i := by
      rw [word_at,word_at,show 2 * (i + 1) = 2 * i + 2 by omega]
      rfl
    rw [words,List.sum_cons,ih,half,parity,List.range_succ_eq_map,List.map_cons,List.sum_cons,first,List.map_map]
    simp only [Function.comp_def,Nat.succ_eq_add_one,later]
    split
    · rename_i odd
      have last : (a :: b :: rest).getD ((a :: b :: rest).length - 1) 0 = rest.getD (rest.length - 1) 0 := by
        rw [List.length_cons,List.length_cons,show rest.length + 1 + 1 - 1 = rest.length - 1 + 2 by omega]
        rfl
      rw [last]
      omega
    · omega

/-- What the sign of the last byte adds. -/
def surplus (data : List UInt8) : Nat := if data.length % 2 = 1 ∧ 0x80 ≤ (data.getD (data.length - 1) 0).toNat then 0xFF0000 else 0

theorem checksum_eq (data : List UInt8) :
    ipv4_checksum data = swapped (2 ^ 32 - 1 - folded (wrap ((words data).sum + surplus data))) := by
  have total : ∀ temp, (if data.length % 2 = 1 then wrap (wrap temp + extended (data.getD (data.length - 1) 0) <<< 8) else wrap temp) =
      wrap (temp + (if data.length % 2 = 1 then (data.getD (data.length - 1) 0).toNat * 256 else 0) + surplus data) := by
    intro temp
    rw [surplus,extended,Nat.shiftLeft_eq,wrap,wrap,wrap]
    split
    · split <;> split <;> omega
    · rw [if_neg (by omega)]
      omega
  rw [ipv4_checksum,pairs_sum]
  simp only [loop_sum]
  rw [total,fold_folded (wrap_lt _)]

theorem swapped_complement {n : Nat} (small : n < 2 ^ 16) : swapped (2 ^ 32 - 1 - n) = swapped (2 ^ 16 - 1 - n) := by
  rw [swapped_eq,swapped_eq]
  omega

theorem swapped_injective {a b : Nat} (left : a < 2 ^ 16) (right : b < 2 ^ 16) (same : swapped a = swapped b) : a = b := by
  rw [swapped_eq,swapped_eq] at same
  omega

/-- The code and the RFC agree when they fold the same. -/
theorem agrees_iff (data : List UInt8) : ipv4_checksum data = swapped (rfc1071 data) ↔
    folded (wrap ((words data).sum + surplus data)) = folded (words data).sum := by
  have left := folded_lt (wrap ((words data).sum + surplus data))
  have right := folded_lt (words data).sum
  rw [checksum_eq,rfc1071_eq,swapped_complement left]
  constructor
  · intro same
    have equal := swapped_injective (by omega) (by omega) same
    omega
  · intro same
    rw [same]

theorem words_length (data : List UInt8) : (words data).length = (data.length + 1) / 2 := by
  induction data using words.induct with
  | case1 => rfl
  | case2 a => simp [words]
  | case3 a b rest ih =>
    simp only [words,List.length_cons,ih]
    omega

theorem words_sum_bound (data : List UInt8) : (words data).sum ≤ (data.length + 1) / 2 * (2 ^ 16 - 1) := by
  rw [← words_length]
  have bounded := List.sum_le_card_nsmul (words data) (2 ^ 16 - 1) fun w member => Nat.le_sub_one_of_lt (words_lt data w member)
  simpa using bounded

/-- The sums for which the code folds what it should: without a surplus they fit a 32-bit word; with one, the carries
    that were lost make up for it. -/
def Sums (data : List UInt8) : Prop :=
  if surplus data = 0 then (words data).sum < 2 ^ 32
  else 255 * 2 ^ 32 < (words data).sum + surplus data ∧ (words data).sum + surplus data < 256 * 2 ^ 32

theorem surplus_cases (data : List UInt8) : surplus data = 0 ∨ surplus data = 0xFF0000 := by
  rw [surplus]
  split
  · exact .inr rfl
  · exact .inl rfl

theorem sums_iff {data : List UInt8} (fits : data.length < 2 ^ 32) :
    folded (wrap ((words data).sum + surplus data)) = folded (words data).sum ↔ Sums data := by
  have bound := words_sum_bound data
  have half : (data.length + 1) / 2 ≤ 2 ^ 31 := by omega
  have small : (words data).sum ≤ 2 ^ 31 * (2 ^ 16 - 1) := Nat.le_trans bound (Nat.mul_le_mul_right _ half)
  rw [folded_eq_iff,Sums,wrap]
  generalize (words data).sum = total at small ⊢
  rcases surplus_cases data with none_added | added
  · rw [none_added,if_pos rfl]
    omega
  · rw [added,if_neg (by decide)]
    omega

theorem words_append (aligned : before.length % 2 = 0) (after : List UInt8) :
    words (before ++ after) = words before ++ words after := by
  induction before using words.induct with
  | case1 => rfl
  | case2 a => cases aligned
  | case3 a b rest ih =>
    have shorter : rest.length % 2 = 0 := by
      simp only [List.length_cons] at aligned
      omega
    rw [List.cons_append,List.cons_append,words,words,ih shorter,List.cons_append]

/-- A field at an even place is not the last odd byte. -/
theorem surplus_field (aligned : before.length % 2 = 0) (a b c d : UInt8) (after : List UInt8) :
    surplus (before ++ a :: b :: after) = surplus (before ++ c :: d :: after) := by
  have length (x y : UInt8) : (before ++ x :: y :: after).length = before.length + 2 + after.length := by
    simp only [List.length_append,List.length_cons]
    omega
  rw [surplus,surplus,length,length]
  by_cases odd : (before.length + 2 + after.length) % 2 = 1
  · have last (x y : UInt8) : (before ++ x :: y :: after).getD (before.length + 2 + after.length - 1) 0 = after.getD (after.length - 1) 0 := by
      rw [List.getD_eq_getElem?_getD,List.getElem?_append_right (by omega),← List.getD_eq_getElem?_getD,
        show before.length + 2 + after.length - 1 - before.length = after.length - 1 + 2 by omega]
      rfl
    rw [last,last]
  · rw [if_neg (fun both => odd both.1),if_neg (fun both => odd both.1)]

/-- The two bytes of a checksum in memory, read in network order. -/
theorem field_bytes {c v : Nat} (small : v < 2 ^ 16) (sum : c = swapped v) :
    (UInt8.ofNat (c % 256)).toNat * 256 + (UInt8.ofNat (c / 256)).toNat = v := by
  rw [swapped_eq,Nat.mod_eq_of_lt (by omega : v / 256 < 256)] at sum
  have low : (UInt8.ofNat (c % 256)).toNat = c % 256 := by
    rw [UInt8.toNat_ofNat']
    omega
  have high : (UInt8.ofNat (c / 256)).toNat = c / 256 := by
    rw [UInt8.toNat_ofNat']
    omega
  rw [low,high]
  omega

/-- The complement of a sum takes it to the next multiple of 0xFFFF, which is still a 32-bit word. -/
theorem folded_complement (fits : temp < 2 ^ 32) :
    temp + (2 ^ 16 - 1 - folded temp) < 2 ^ 32 ∧ folded (temp + (2 ^ 16 - 1 - folded temp)) = 2 ^ 16 - 1 := by
  by_cases zero : temp = 0
  · subst zero
    decide
  · have rounded : folded temp = (temp - 1) % (2 ^ 16 - 1) + 1 := if_neg zero
    rw [rounded,folded]
    rw [if_neg (by omega)]
    omega

/-- A string with a field of two zero bytes at an even place, where its checksum is stored. -/
theorem stored_checksum {after : List UInt8} {c : Nat} (aligned : before.length % 2 = 0)
    (sum : c = ipv4_checksum (before ++ 0 :: 0 :: after)) :
    ipv4_checksum (before ++ UInt8.ofNat (c % 256) :: UInt8.ofNat (c / 256) :: after) = 0 := by
  rw [checksum_eq,words_append aligned,List.sum_append,words,List.sum_cons,
    surplus_field aligned 0 0 (UInt8.ofNat (c % 256)) (UInt8.ofNat (c / 256))] at sum
  rw [checksum_eq,words_append aligned,List.sum_append,words,List.sum_cons]
  generalize surplus (before ++ UInt8.ofNat (c % 256) :: UInt8.ofNat (c / 256) :: after) = more at sum ⊢
  generalize (words before).sum = front at sum ⊢
  generalize (words after).sum = back at sum ⊢
  have zeros : (0 : UInt8).toNat * 256 + (0 : UInt8).toNat = 0 := rfl
  rw [zeros,Nat.zero_add] at sum
  have small := folded_lt (wrap (front + back + more))
  rw [swapped_complement small] at sum
  obtain ⟨fits,full⟩ := folded_complement (wrap_lt (front + back + more))
  -- the field read in network order is the complement
  have bytes := field_bytes (v := 2 ^ 16 - 1 - folded (wrap (front + back + more))) (by omega) sum
  have sums : wrap (front + ((UInt8.ofNat (c % 256)).toNat * 256 + (UInt8.ofNat (c / 256)).toNat + back) + more) =
      wrap (front + back + more) + (2 ^ 16 - 1 - folded (wrap (front + back + more))) := by
    rw [bytes]
    generalize folded (wrap (front + back + more)) = f at fits small ⊢
    rw [wrap] at fits ⊢
    rw [wrap]
    omega
  rw [sums,full]
  rfl

/-- The function returns the checksum of RFC 1071 exactly for these sums, and a string whose checksum was stored in it
    has the checksum 0. -/
theorem checksum_correct {data : List UInt8} (fits : data.length < 2 ^ 32) :
    (ipv4_checksum data = swapped (rfc1071 data) ↔ Sums data) ∧
    ∀ before after, data = before ++ 0 :: 0 :: after → before.length % 2 = 0 →
      ipv4_checksum (before ++ UInt8.ofNat (ipv4_checksum data % 256) :: UInt8.ofNat (ipv4_checksum data / 256) :: after) = 0 := by
  refine ⟨(agrees_iff data).trans (sums_iff fits),?_⟩
  rintro before after rfl aligned
  exact stored_checksum aligned rfl

theorem checksum_correct_header : ipv4_checksum [0x45,0,0,0,0x80] = swapped (rfc1071 [0x45,0,0,0,0x80]) ↔ Sums [0x45,0,0,0,0x80] :=
  (checksum_correct (by decide)).1

/-- One byte, negative as a `char`. -/
theorem negative_byte : ¬ ∀ data : List UInt8, data.length < 2 ^ 32 → ipv4_checksum data = swapped (rfc1071 data) := by
  intro claim
  have agrees := (agrees_iff [0x80]).1 (claim [0x80] (by decide))
  exact absurd agrees (by decide)

end MicroOS.Checksum

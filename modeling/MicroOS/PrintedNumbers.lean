import MicroOS.Formatting
import MicroOS.Strtol

/-! What the printers of numbers print, and `strtol` makes of it. -/

namespace MicroOS.PrintedNumbers
open Formatting Strtol
open Ints (int)

/-- The digits of the printers are digits of the reader, with the same value. -/
theorem digit_facts : ∀ d < 16, digit_value (UInt8.ofNat (Nat.digitChar d).toNat) = d ∧ taken 16 (UInt8.ofNat (Nat.digitChar d).toNat) = true ∧
    (d < 10 → taken 10 (UInt8.ofNat (Nat.digitChar d).toNat) = true) ∧ isspace (UInt8.ofNat (Nat.digitChar d).toNat) = false ∧
    UInt8.ofNat (Nat.digitChar d).toNat ∉ [0,43,45,88,120] := by decide

section
variable {base : Nat} (known : base = 10 ∨ base = 16)
include known

theorem numeral_characters (n : Nat) : ∀ c ∈ numeral base n, ∃ d < base, c = UInt8.ofNat (Nat.digitChar d).toNat := by
  induction n using Nat.strong_induction_on with
  | _ n ih =>
    by_cases below : n < base
    · rw [numeral_below below]
      exact fun c member => ⟨n,below,List.mem_singleton.mp member⟩
    · rw [numeral_above (by omega) (by omega)]
      intro c member
      rcases List.mem_append.mp member with old | last
      · exact ih _ (Nat.div_lt_self (by omega) (by omega)) c old
      · exact ⟨n % base,Nat.mod_lt _ (by omega),List.mem_singleton.mp last⟩

theorem value_numeral (n : Nat) : value base (numeral base n) 0 = n := by
  induction n using Nat.strong_induction_on with
  | _ n ih =>
    have last (d : Nat) (below : d < base) (v : Nat) : value base [UInt8.ofNat (Nat.digitChar d).toNat] v = v * base + d := by
      rw [value,List.foldl_cons,List.foldl_nil,(digit_facts d (by omega)).1]
    by_cases below : n < base
    · rw [numeral_below below,last n below,Nat.zero_mul,Nat.zero_add]
    · rw [numeral_above (by omega) (by omega),value_append,ih _ (Nat.div_lt_self (by omega) (by omega)),last _ (Nat.mod_lt _ (by omega))]
      exact Nat.div_add_mod' n base

theorem numeral_apart (n : Nat) {c : UInt8} (other : c ∈ [0,43,45,88,120]) : c ∉ numeral base n := by
  intro member
  obtain ⟨d,below,rfl⟩ := numeral_characters known n c member
  exact (digit_facts d (by omega)).2.2.2.2 other

theorem body_numeral (n : Nat) : body (numeral base n) = numeral base n ∧ negative (numeral base n) = false := by
  have head {c : UInt8} (other : c ∈ [0,43,45,88,120]) : (numeral base n).head? ≠ some c :=
    fun first => numeral_apart known n other (List.mem_of_head? first)
  have whole : trimmed (numeral base n) = numeral base n := by
    refine List.dropWhile_eq_self_iff.mpr fun some_ => ?_
    obtain ⟨d,below,same⟩ := numeral_characters known n _ (List.getElem_mem some_)
    rw [same,(digit_facts d (by omega)).2.2.2.1]
    exact Bool.false_ne_true
  rw [body,negative,whole,if_neg (by simp [head]),decide_eq_false (head (by simp))]
  exact ⟨rfl,rfl⟩

/-- A numeral, with or without a sign, is read to its end. -/
theorem strtol_numeral (s : Text) {n : Nat} (spelled : body s.1 = numeral base n) :
    strtol (s.1 ++ [0]) base = if n < 2147483648 then some (signed s.1 n,[0]) else none := by
  have all : ∀ c ∈ numeral base n, taken base c = true := by
    intro c member
    obtain ⟨d,below,rfl⟩ := numeral_characters known n c member
    rcases known with rfl | rfl
    · exact (digit_facts d (by omega)).2.2.1 below
    · exact (digit_facts d below).2.1
  have unmarked : ¬ x_marked (numeral base n) = true := by
    intro mark
    obtain ⟨x,rest,shape,is⟩ := x_marked_eq mark
    refine @numeral_apart base known n x ?_ (by simp [shape])
    rcases Bool.or_eq_true_iff.mp is with lower | upper
    · simp [of_decide_eq_true lower]
    · simp [of_decide_eq_true upper]
  have form : code_form base (numeral base n) = (base,numeral base n) := by
    rcases known with rfl | rfl <;> simp [code_form,unmarked]
  have read := strtol_eq s ⟨base,by omega⟩
  dsimp only at read
  rw [read,spelled,code_digits,code_behind,form]
  dsimp only
  rw [List.takeWhile_eq_self_iff.mpr all,List.dropWhile_eq_nil_iff.mpr all,value_numeral known,int_nat]
  split <;> rfl

end

/-- A number that the library prints in decimal is read back, unless it is the least one, which is not printed; in hexadecimal, where
    it prints words, it is read back where it fits. -/
theorem printed_read (w : BitVec 32) :
    ((print_num w 10).bind fun text => strtol (text ++ [0]) 10) = (if w = BitVec.intMin 32 then none else some (w.toInt,[0])) ∧
      ((print_num_unsigned w 16).bind fun text => strtol (text ++ [0]) 16) =
        if w.toNat < 2147483648 then some ((w.toNat : Int),[0]) else none := by
  have plain {base : Nat} (known : base = 10 ∨ base = 16) (n : Nat) :
      strtol (numeral base n ++ [0]) base = if n < 2147483648 then some ((n : Int),[0]) else none := by
    obtain ⟨spelled,unsigned⟩ := body_numeral known n
    rw [strtol_numeral known ⟨numeral base n,numeral_apart known n (by simp)⟩ spelled,signed,unsigned]
    rfl
  constructor
  · rw [print_num_text]
    by_cases least : w = BitVec.intMin 32
    · rw [if_pos least,if_pos least]
      rfl
    · have high : w.toInt < 2 ^ 31 := BitVec.toInt_lt
      have low : -2 ^ 31 ≤ w.toInt := BitVec.le_toInt w
      have inside : w.toInt ≠ -2 ^ 31 := fun same => least (BitVec.eq_of_toInt_eq same)
      rw [if_neg least,if_neg least,Option.bind_some,signed_text]
      by_cases negative : w.toInt < 0
      · have minus : 0 ∉ 45 :: numeral 10 w.toInt.natAbs := by simp [numeral_apart (.inl rfl)]
        rw [if_pos negative,strtol_numeral (.inl rfl) ⟨_,minus⟩ rfl,if_pos (by omega)]
        show some (-(w.toInt.natAbs : Int),_) = _
        rw [show -(w.toInt.natAbs : Int) = w.toInt by omega]
      · rw [if_neg negative,plain (.inl rfl),if_pos (by omega),show (w.toInt.natAbs : Int) = w.toInt by omega]
  · rw [print_num_unsigned_text w (by decide) (by decide),Option.bind_some,plain (.inr rfl)]

end MicroOS.PrintedNumbers

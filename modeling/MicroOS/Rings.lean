import Mathlib.Tactic

/-!
An array that is written in order and from the start again holds the last entries of a log, the
last one first. An array that has not been filled holds an initial value behind them.
-/

namespace MicroOS.Rings
universe u

/-- The slots hold the last `size` entries of a log; those never written hold `empty`. -/
structure Keeps {A : Type u} (size : Nat) (empty : A) (slots : Nat → A) (log : List A) : Prop where
  last : ∀ i e, i < size → log[i]? = some e → slots ((log.length - 1 - i) % size) = e
  rest : ∀ j, log.length ≤ j → slots j = empty

section
variable {A : Type u} {size : Nat} {empty : A} {slots : Nat → A} {log : List A}

theorem keeps_nil (size : Nat) (empty : A) : Keeps size empty (fun _ => empty) [] := ⟨by simp,fun _ _ => rfl⟩

theorem keeps_push (keeps : Keeps size empty slots log) (e : A) :
    Keeps size empty (Function.update slots (log.length % size) e) (e :: log) := by
  constructor
  · intro i x inside found
    cases i with
    | zero =>
      obtain rfl := Option.some.inj found
      simp
    | succ i =>
      have found : log[i]? = some x := by simpa using found
      have before := (List.getElem?_eq_some_iff.1 found).1
      have other : (log.length - 1 - i) % size ≠ log.length % size := by
        intro same
        have shift : log.length - 1 - i + (i + 1) = log.length := by omega
        have both := (Nat.ModEq.symm same : log.length ≡ log.length - 1 - i [MOD size])
        have whole : size ∣ i + 1 := by
          rw [← Nat.modEq_zero_iff_dvd]
          refine Nat.ModEq.add_left_cancel' (log.length - 1 - i) ?_
          rw [shift]
          exact both
        have less := Nat.le_of_dvd (Nat.succ_pos i) whole
        omega
      rw [List.length_cons,show log.length + 1 - 1 - (i + 1) = log.length - 1 - i by omega,Function.update_of_ne other]
      exact keeps.last i x (by omega) found
  · intro j behind
    rw [List.length_cons] at behind
    have other : j ≠ log.length % size := by
      have below := Nat.mod_le log.length size
      omega
    rw [Function.update_of_ne other]
    exact keeps.rest j (by omega)

/-- What a slot holds: an entry among the last ones, or the initial value. -/
theorem slot_cases (keeps : Keeps size empty slots log) {j : Nat} (inside : j < size) :
    (∃ i < size, log[i]? = some (slots j) ∧ j = (log.length - 1 - i) % size) ∨ (log.length ≤ j ∧ slots j = empty) := by
  by_cases written : j < log.length
  · left
    have some_slot : 0 < size := by omega
    -- how many entries came after the one of the slot
    have back : (log.length - 1 - j) % size < log.length := by
      have below := Nat.mod_le (log.length - 1 - j) size
      omega
    have place : (log.length - 1 - (log.length - 1 - j) % size) % size = j := by
      have parts := Nat.div_add_mod (log.length - 1 - j) size
      have sum : log.length - 1 - (log.length - 1 - j) % size = j + size * ((log.length - 1 - j) / size) := by omega
      rw [sum,Nat.add_mul_mod_self_left,Nat.mod_eq_of_lt inside]
    have found := List.getElem?_eq_getElem back
    have here := keeps.last _ _ (Nat.mod_lt _ some_slot) found
    rw [place] at here
    refine ⟨_,Nat.mod_lt _ some_slot,?_,place.symm⟩
    rw [here]
    exact found
  · exact .inr ⟨Nat.le_of_not_lt written,keeps.rest j (Nat.le_of_not_lt written)⟩

theorem taken_iff {n : Nat} {e : A} : e ∈ log.take n ↔ ∃ i < n, log[i]? = some e := by
  rw [List.mem_iff_getElem?]
  constructor
  · rintro ⟨i,found⟩
    rw [List.getElem?_take] at found
    split at found
    · exact ⟨i,‹_›,found⟩
    · cases found
  · rintro ⟨i,inside,found⟩
    refine ⟨i,?_⟩
    rw [List.getElem?_take,if_pos inside]
    exact found

/-- The first slot with a property: an entry among the last ones if there is one, then what was never written. -/
theorem find_slot (keeps : Keeps size empty slots log) (p : A → Bool) :
    (∃ e ∈ log.take size, p e = true ∧ ((List.range size).find? fun j => p (slots j)).map slots = some e) ∨
      ((∀ e ∈ log.take size, p e = false) ∧
        ((List.range size).find? fun j => p (slots j)).map slots = if p empty = true ∧ log.length < size then some empty else none) := by
  by_cases among : ∃ e ∈ log.take size, p e = true
  · left
    obtain ⟨e,member,holds⟩ := among
    obtain ⟨i,inside,found⟩ := taken_iff.1 member
    have before := (List.getElem?_eq_some_iff.1 found).1
    have slot : (log.length - 1 - i) % size < size := Nat.mod_lt _ (by omega)
    have here := keeps.last i e inside found
    cases search : (List.range size).find? fun j => p (slots j) with
    | none =>
      have no := List.find?_eq_none.1 search _ (List.mem_range.2 slot)
      rw [here] at no
      exact absurd holds no
    | some j =>
      obtain ⟨matching,within,first⟩ := List.find?_range_eq_some.1 search
      rcases slot_cases keeps (List.mem_range.1 within) with ⟨k,less,other,_⟩ | ⟨behind,_⟩
      · exact ⟨slots j,taken_iff.2 ⟨k,less,other⟩,matching,rfl⟩
      · -- the slot of the entry comes before those that were never written
        have earlier : (log.length - 1 - i) % size < j := by
          have below := Nat.mod_le (log.length - 1 - i) size
          omega
        have no := first _ earlier
        rw [here,holds] at no
        cases no
  · right
    have absent : ∀ e ∈ log.take size, p e = false := by
      intro e member
      exact Bool.eq_false_of_not_eq_true fun holds => among ⟨e,member,holds⟩
    refine ⟨absent,?_⟩
    cases search : (List.range size).find? fun j => p (slots j) with
    | none =>
      rw [if_neg]
      · rfl
      · rintro ⟨holds,short⟩
        have no := List.find?_eq_none.1 search _ (List.mem_range.2 short)
        rw [keeps.rest _ (Nat.le_refl _)] at no
        exact no holds
    | some j =>
      obtain ⟨matching,within,_⟩ := List.find?_range_eq_some.1 search
      have within := List.mem_range.1 within
      rcases slot_cases keeps within with ⟨k,less,other,_⟩ | ⟨behind,entry⟩
      · rw [absent _ (taken_iff.2 ⟨k,less,other⟩)] at matching
        cases matching
      · rw [entry] at matching
        rw [if_pos ⟨matching,by omega⟩,Option.map_some,entry]

end
end MicroOS.Rings

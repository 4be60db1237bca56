import Mathlib.Tactic

/-!
The table of the system call handlers grows with the largest id seen, and what the heap hands out behind the old
entries stays in the slots between. The main theorem is `dispatch_correct`: when `syscall_handler` calls the last
function registered for an id, and nothing for an id without one.
-/
namespace MicroOS.Syscalls

/-- `syscall_table`, and `num_syscall_handlers`, which is an `int`. -/
structure State where
  syscall_table : Nat → BitVec 32
  num_syscall_handlers : BitVec 32

/-- A call of `register_syscall`, and the words the heap hands out behind the old entries should the table grow. -/
structure Registration where
  syscall_id : BitVec 8
  handler : BitVec 32
  beyond : Nat → BitVec 32

/-- The old entries are kept, and nothing is known of the others. -/
def krealloc (syscall_table beyond : Nat → BitVec 32) (kept : Nat) : Nat → BitVec 32 :=
  fun i => if i < kept then syscall_table i else beyond i

def register_syscall (s : State) (r : Registration) : State :=
  if r.handler = 0 then s
  else
    let s :=
      if s.num_syscall_handlers.toInt ≤ r.syscall_id.toNat then
        { syscall_table := krealloc s.syscall_table r.beyond s.num_syscall_handlers.toNat
          num_syscall_handlers := BitVec.ofNat 32 (r.syscall_id.toNat + 1) }
      else s
    { s with syscall_table := Function.update s.syscall_table r.syscall_id.toNat r.handler }

/-- The function called; without one `abortf` is called, which does not return. -/
def syscall_handler (s : State) (eax : BitVec 32) : Option (BitVec 32) :=
  if s.num_syscall_handlers.toNat ≤ eax.toNat ∨ s.syscall_table eax.toNat = 0 then none else some (s.syscall_table eax.toNat)

def start : State := ⟨fun _ => 0,0⟩

def registered (calls : List Registration) : State := calls.foldl register_syscall start

/-- The last function registered for an id. -/
def last_handler (calls : List Registration) (id : Nat) : Option (BitVec 32) :=
  (calls.reverse.find? fun r => r.handler != 0 && r.syscall_id.toNat == id).map Registration.handler

/-- What the heap left in the slot of an id, when the table first grew beyond it. -/
def left_over (calls : List Registration) (id : Nat) : Option (BitVec 32) :=
  (calls.find? fun r => r.handler != 0 && decide (id < r.syscall_id.toNat)).map fun r => r.beyond id

/-- What a lookup sees in the slot of an id. -/
def slot (s : State) (id : Nat) : Option (BitVec 32) :=
  if id < s.num_syscall_handlers.toNat then some (s.syscall_table id) else none

theorem handler_slot (s : State) (eax : BitVec 32) : syscall_handler s eax = (slot s eax.toNat).filter (· != 0) := by
  rw [syscall_handler,slot]
  by_cases inside : eax.toNat < s.num_syscall_handlers.toNat
  · rw [if_pos inside,Option.filter_some]
    by_cases null : s.syscall_table eax.toNat = 0
    · rw [if_pos (.inr null),null]
      rfl
    · rw [if_neg (not_or.2 ⟨Nat.not_le.2 inside,null⟩),if_pos (bne_iff_ne.2 null)]
  · rw [if_neg inside,if_pos (.inl (Nat.le_of_not_lt inside))]
    rfl

section
variable {s : State} {calls : List Registration} {r : Registration}

/-- An id is a byte, so the table has at most 256 entries and the `int` is not negative. -/
theorem register_size (r : Registration) (small : s.num_syscall_handlers.toNat ≤ 256) :
    (register_syscall s r).num_syscall_handlers.toNat ≤ 256 := by
  have byte := r.syscall_id.isLt
  rw [register_syscall]
  split
  · exact small
  · split
    · simp only [BitVec.toNat_ofNat]
      omega
    · exact small

/-- What one registration does to a slot. -/
theorem register_slot (small : s.num_syscall_handlers.toNat ≤ 256) (set : r.handler ≠ 0) (id : Nat) :
    slot (register_syscall s r) id =
      if r.syscall_id.toNat = id then some r.handler
      else (slot s id).or (if id < r.syscall_id.toNat then some (r.beyond id) else none) := by
  have byte := r.syscall_id.isLt
  have int : s.num_syscall_handlers.toInt = s.num_syscall_handlers.toNat := by
    rw [BitVec.toInt_eq_toNat_of_lt]
    omega
  rw [register_syscall,if_neg set,int]
  by_cases grows : s.num_syscall_handlers.toNat ≤ r.syscall_id.toNat
  · rw [if_pos (Int.ofNat_le.2 grows)]
    have size : (BitVec.ofNat 32 (r.syscall_id.toNat + 1)).toNat = r.syscall_id.toNat + 1 := by
      rw [BitVec.toNat_ofNat]
      omega
    simp only [slot,size]
    by_cases here : r.syscall_id.toNat = id
    · subst here
      simp
    · rw [if_neg here,Function.update_of_ne (Ne.symm here)]
      by_cases old : id < s.num_syscall_handlers.toNat
      · rw [if_pos (by omega),krealloc,if_pos old,if_pos old]
        rfl
      · rw [krealloc,if_neg old,if_neg old,Option.none_or]
        by_cases between : id < r.syscall_id.toNat
        · rw [if_pos (by omega),if_pos between]
        · rw [if_neg (by omega),if_neg between]
  · rw [if_neg fun less => grows (Int.ofNat_le.1 less)]
    simp only [slot]
    by_cases here : r.syscall_id.toNat = id
    · subst here
      rw [if_pos (Nat.lt_of_not_le grows),if_pos rfl,Function.update_self]
    · rw [if_neg here,Function.update_of_ne (Ne.symm here)]
      by_cases old : id < s.num_syscall_handlers.toNat
      · rw [if_pos old]
        rfl
      · rw [if_neg old,if_neg (by omega),Option.none_or]

theorem registered_snoc (calls : List Registration) (r : Registration) :
    registered (calls ++ [r]) = register_syscall (registered calls) r := by
  simp [registered]

theorem last_snoc (calls : List Registration) (r : Registration) (id : Nat) :
    last_handler (calls ++ [r]) id = if r.handler ≠ 0 ∧ r.syscall_id.toNat = id then some r.handler else last_handler calls id := by
  rw [last_handler,List.reverse_append,List.reverse_singleton,List.singleton_append]
  by_cases here : r.handler ≠ 0 ∧ r.syscall_id.toNat = id
  · rw [if_pos here,List.find?_cons_of_pos]
    · rfl
    · simpa using here
  · rw [if_neg here,List.find?_cons_of_neg]
    · rfl
    · simpa using here

theorem left_snoc (calls : List Registration) (r : Registration) (id : Nat) :
    left_over (calls ++ [r]) id =
      (left_over calls id).or (if r.handler ≠ 0 ∧ id < r.syscall_id.toNat then some (r.beyond id) else none) := by
  rw [left_over,List.find?_append,Option.map_or,← left_over]
  by_cases here : r.handler ≠ 0 ∧ id < r.syscall_id.toNat
  · rw [if_pos here,List.find?_cons_of_pos]
    · rfl
    · simpa using here
  · rw [if_neg here,List.find?_cons_of_neg]
    · rfl
    · simpa using here

/-- A slot holds the last function registered, or what the heap left there. -/
theorem registered_slot (calls : List Registration) : (registered calls).num_syscall_handlers.toNat ≤ 256 ∧
    ∀ id, slot (registered calls) id = (last_handler calls id).or (left_over calls id) := by
  induction calls using List.reverseRecOn with
  | nil => exact ⟨by decide,fun id => rfl⟩
  | append_singleton calls r ih =>
    obtain ⟨small,slots⟩ := ih
    rw [registered_snoc]
    refine ⟨register_size r small,fun id => ?_⟩
    rw [last_snoc,left_snoc]
    by_cases null : r.handler = 0
    · rw [register_syscall,if_pos null,slots,if_neg fun set => set.1 null,if_neg fun set => set.1 null,Option.or_none]
    · rw [register_slot small null,slots]
      by_cases here : r.syscall_id.toNat = id
      · rw [if_pos here,if_pos ⟨null,here⟩]
        rfl
      · rw [if_neg here,if_neg (not_and_of_not_right _ here),Option.or_assoc]
        simp only [ne_eq,null,not_false_eq_true,true_and]

theorem last_set {id : Nat} {handler : BitVec 32} (found : last_handler calls id = some handler) : handler ≠ 0 := by
  obtain ⟨r,search,rfl⟩ := Option.map_eq_some_iff.1 found
  have both := List.find?_some search
  simp only [Bool.and_eq_true,bne_iff_ne,beq_iff_eq] at both
  exact both.1

theorem last_none_iff {id : Nat} : last_handler calls id = none ↔ ¬ ∃ r ∈ calls, r.handler ≠ 0 ∧ r.syscall_id.toNat = id := by
  simp [last_handler]

end

/-- The function called is the last one registered exactly when there is one, or no larger id was registered, or the
    heap left a zero in the slot. -/
theorem dispatch_correct (calls : List Registration) (eax : BitVec 32) :
    syscall_handler (registered calls) eax = last_handler calls eax.toNat ↔
      (∃ r ∈ calls, r.handler ≠ 0 ∧ r.syscall_id.toNat = eax.toNat) ∨ ∀ word, left_over calls eax.toNat = some word → word = 0 := by
  rw [handler_slot,(registered_slot calls).2]
  cases found : last_handler calls eax.toNat with
  | some handler =>
    refine iff_of_true ?_ (.inl ?_)
    · have set := last_set found
      simpa using set
    · by_contra none_registered
      rw [last_none_iff.2 none_registered] at found
      cases found
  | none =>
    have unregistered := last_none_iff.1 found
    cases behind : left_over calls eax.toNat with
    | none =>
      refine iff_of_true rfl (.inr ?_)
      intro word here
      cases here
    | some word =>
      rw [Option.none_or,Option.filter_eq_none_iff]
      constructor
      · intro null
        refine .inr fun other here => ?_
        obtain rfl := Option.some.inj here
        simpa using null word rfl
      · intro either
        have null := (either.resolve_left unregistered) word rfl
        rintro other here
        obtain rfl := Option.some.inj here
        simpa using null

/-- Whatever the heap holds: the ids that are registered or larger than all registered ones are dispatched. -/
theorem dispatch_any_heap (ids : List (BitVec 8 × BitVec 32)) (eax : BitVec 32) :
    (∀ calls : List Registration, calls.map (fun r => (r.syscall_id,r.handler)) = ids →
        syscall_handler (registered calls) eax = last_handler calls eax.toNat) ↔
      (∃ e ∈ ids, e.2 ≠ 0 ∧ e.1.toNat = eax.toNat) ∨ ∀ e ∈ ids, e.2 ≠ 0 → e.1.toNat ≤ eax.toNat := by
  constructor
  · intro correct
    by_contra neither
    obtain ⟨unregistered,larger⟩ := not_or.1 neither
    let calls := ids.map fun e => Registration.mk e.1 e.2 fun _ => 1
    have same : calls.map (fun r => (r.syscall_id,r.handler)) = ids := by simp [calls,Function.comp_def]
    rcases (dispatch_correct calls eax).1 (correct calls same) with ⟨r,member,set,here⟩ | zero
    · obtain ⟨e,listed,rfl⟩ := List.mem_map.1 member
      exact unregistered ⟨e,listed,set,here⟩
    · push Not at larger
      obtain ⟨e,listed,set,less⟩ := larger
      cases search : calls.find? fun r => r.handler != 0 && decide (eax.toNat < r.syscall_id.toNat) with
      | none =>
        have no := List.find?_eq_none.1 search _ (List.mem_map_of_mem listed)
        rw [Bool.and_eq_true,bne_iff_ne,decide_eq_true_eq] at no
        exact no ⟨set,less⟩
      | some r =>
        obtain ⟨d,-,rfl⟩ := List.mem_map.1 (List.mem_of_find?_eq_some search)
        have one := zero 1 (by rw [left_over,search]; rfl)
        cases one
  · rintro either calls rfl
    apply (dispatch_correct calls eax).2
    rcases either with ⟨e,listed,set,here⟩ | small
    · obtain ⟨r,member,rfl⟩ := List.mem_map.1 listed
      exact .inl ⟨r,member,set,here⟩
    · right
      intro word behind
      obtain ⟨r,search,-⟩ := Option.map_eq_some_iff.1 behind
      have both := List.find?_some search
      simp only [Bool.and_eq_true,bne_iff_ne,decide_eq_true_eq] at both
      have bound := small _ (List.mem_map_of_mem (List.mem_of_find?_eq_some search)) both.1
      exact absurd both.2 (Nat.not_lt.2 bound)

/-- `sys_open` is registered first, and the call 0 goes to what the heap left in front of it. -/
theorem gap_called : ¬ ∀ calls eax, syscall_handler (registered calls) eax = last_handler calls eax.toNat := by
  intro claim
  have wrong := claim [⟨1,0xC0001000,fun _ => 0xDEADBEEF⟩] 0
  exact absurd wrong (by decide)

end MicroOS.Syscalls
